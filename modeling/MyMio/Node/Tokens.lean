import MyMio.Node.Fields
import MyMio.Node.Frame

/-! # The three token slots of a node

`update` stores its token in a slot that is neither the read nor the write position of the word it
has loaded, and makes that slot the write position with its exchange. The poller makes the write
position its read position and reads there, after its exchange or, if the word needs no change,
without one. `update_lock` lets one update at a time do so, whatever the poller does meanwhile.

The invariant is `Tokens.Ok`: the slot at the write position holds the token of the latest update
(`slot`), the slot an update is about to write is at neither position (`SlotOk`), and what the poller
is about to read is at the read position (`reading`).
-/

namespace MyMio
set_option autoImplicit false

open BrokenQueue StepSystem

universe u v w

variable {ι : Type v} {α : Type u} {J : Type w}

/-! ## Positions -/

def Position (pos : Usize) : Prop := pos = 0 ∨ pos = 1 ∨ pos = 2

theorem Position.holds {pos : Usize} (h : Position pos) : Field.tokenWrite.Holds pos := by
  rcases h with rfl | rfl | rfl <;> decide

theorem nextTokenPos_spec {state : ReadinessState} {pos : Usize}
    (h : state.nextTokenPos = some pos) :
    Position pos ∧ pos ≠ state.tokenReadPos ∧ pos ≠ state.tokenWritePos := by
  unfold ReadinessState.nextTokenPos at h
  split at h <;>
    first
    | (rename_i hw hr
       obtain rfl := Option.some.inj h
       rw [hw, hr]
       unfold Position
       decide)
    | cases h

/-- With both positions among the slots there is one left. -/
theorem nextTokenPos_isSome {state : ReadinessState} (hr : Position state.tokenReadPos)
    (hw : Position state.tokenWritePos) : state.nextTokenPos.isSome = true := by
  unfold ReadinessState.nextTokenPos
  rcases hr with hr | hr | hr <;> rcases hw with hw | hw | hw <;> rw [hr, hw] <;> rfl

theorem token_isSome (node : Node J) {pos : Usize} (h : Position pos) :
    (node.token pos).isSome = true := by
  rcases h with rfl | rfl | rfl <;> rfl

theorem storeToken_isSome (node : Node J) {pos : Usize} (h : Position pos) (token : TokenEntry) :
    (node.storeToken pos token).isSome = true := by
  rcases h with rfl | rfl | rfl <;> rfl

/-! ## Calls whose values fit their fields -/

def Update.Fits (u : Update J) : Prop :=
  Field.interest.Holds u.interest.bits ∧ Field.pollOpt.Holds u.opt.bits

def NodeCall.Fits : NodeCall α J → Prop
  | .setReadiness _ ready => Field.readiness.Holds ready.bits
  | .update _ u => u.Fits
  | .drop _ => True

instance (c : NodeCall α J) : Decidable c.Fits :=
  match c with
  | .setReadiness _ _ => inferInstanceAs (Decidable (Field.Holds _ _))
  | .update _ _ => inferInstanceAs (Decidable (Field.Holds _ _ ∧ Field.Holds _ _))
  | .drop _ => .isTrue trivial

def RegistrationsOp.Fits : RegistrationsOp ι α J → Prop
  | .call _ c => c.Fits
  | _ => True

instance (op : RegistrationsOp ι α J) : Decidable op.Fits :=
  match op with
  | .call _ c => inferInstanceAs (Decidable c.Fits)
  | .thread _ | .producer _ _ | .poll _ | .node => .isTrue trivial

def Thread.Fits : Thread α J → Prop
  | .setLoad _ ready | .setExchange _ ready _ => Field.readiness.Holds ready.bits
  | .updateLock _ u | .updateLoad _ u | .updateToken _ u _ _ | .updateExchange _ u _ _ => u.Fits
  | _ => True

/-- The node whose `update_lock` a thread has. -/
def Thread.locked : Thread α J → Option α
  | .updateLoad a _ | .updateToken a _ _ _ | .updateExchange a _ _ _ | .updateUnlock a _ _ => some a
  | _ => none

/-! ## Runs with the tokens that count -/

/-- The ghosts are the token of the latest update of each node whose exchange has succeeded, the one
that was the latest at the poller's last deciding step, and the events delivered so far, each with the
token that was the latest when the poller decided on it. -/
structure Tokens (ι : Type v) (α : Type u) (J : Type w) where
  regs : Registrations ι α J
  latest : α → TokenEntry
  decided : TokenEntry
  delivered : List ((α × Event) × TokenEntry)

section System
variable [DecidableEq ι] [DecidableEq α]

/-- The update whose exchange succeeds with this step. -/
def Registrations.exchanges (s : Registrations ι α J) : RegistrationsOp ι α J → Option (α × Update J)
  | .thread i =>
    match s.threads i with
    | .updateExchange a u state _ => if s.word a = state then some (a, u) else none
    | _ => none
  | _ => none

namespace Tokens

def latestAfter (s : Tokens ι α J) (op : RegistrationsOp ι α J) : α → TokenEntry :=
  match s.regs.exchanges op with
  | some (a, u) => Function.update s.latest a u.token
  | none => s.latest

/-- The access that ends the loop on the word is the only one that leads to the read. -/
def decidedAfter (s : Tokens ι α J) (regs : Registrations ι α J) : RegistrationsOp ι α J → TokenEntry
  | .node =>
    match regs.hold with
    | .token a _ _ => s.latest a
    | _ => s.decided
  | _ => s.decided

def deliveredAfter (s : Tokens ι α J) : RegistrationsOp ι α J → List ((α × Event) × TokenEntry)
  | .node =>
    match s.regs.hold with
    | .push a event => s.delivered ++ [((a, event), s.decided)]
    | _ => s.delivered
  | _ => s.delivered

end Tokens

def tokensStep (s : Tokens ι α J) (op : RegistrationsOp ι α J) : Option (Tokens ι α J) :=
  (registrationsStep s.regs op).map fun regs =>
    ⟨regs, s.latestAfter op, s.decidedAfter regs op, s.deliveredAfter op⟩

/-- The values that are passed fit their fields. -/
def Fitting (_ : Tokens ι α J) (op : RegistrationsOp ι α J) : Prop := op.Fits

/-- A new poll and its nodes, each with the token it was made with. -/
structure Tokens.Starts (s : Tokens ι α J) : Prop where
  regs : s.regs.Starts
  latest : ∀ a, s.latest a = (s.regs.nodes a).token0
  pushed : s.regs.pushed = []
  delivered : s.delivered = []

end System

/-! ## The invariant -/

/-- What an update that has the lock knows about its slot. -/
def SlotOk (s : Registrations ι α J) : Thread α J → Prop
  | .updateToken a _ _ pos =>
    Position pos ∧ pos ≠ (s.word a).tokenReadPos ∧ pos ≠ (s.word a).tokenWritePos
  | .updateExchange a u _ pos => Position pos ∧ (s.nodes a).token pos = some u.token
  | _ => True

/-- A thread in an update has the lock of its node, alone. -/
def LockOk (s : Registrations ι α J) : Prop :=
  ∀ i a, (s.threads i).locked = some a → (s.nodes a).updateLock = true ∧
    ∀ j, (s.threads j).locked = some a → j = i

structure Tokens.Ok (s : Tokens ι α J) : Prop where
  owned : s.regs.Owned
  fits : ∀ i, (s.regs.threads i).Fits
  read : ∀ a, Position (s.regs.word a).tokenReadPos
  write : ∀ a, Position (s.regs.word a).tokenWritePos
  slot : ∀ a, (s.regs.nodes a).token (s.regs.word a).tokenWritePos = some (s.latest a)
  lock : LockOk s.regs
  slots : ∀ i, SlotOk s.regs (s.regs.threads i)
  reading : ∀ a readiness pos, s.regs.hold = .token a readiness pos →
    pos = (s.regs.word a).tokenReadPos ∧ (s.regs.nodes a).token pos = some s.decided
  pushing : ∀ a event, s.regs.hold = .push a event → event.token = s.decided
  delivered : ∀ e ∈ s.delivered, e.1.2.token = e.2
  pushed : s.delivered.map Prod.fst = s.regs.pushed.map fun e => (e.1, e.2.1)

structure SameSlots (s s' : Registrations ι α J) : Prop where
  token : ∀ a pos, (s'.nodes a).token pos = (s.nodes a).token pos
  read : ∀ a, (s'.word a).tokenReadPos = (s.word a).tokenReadPos
  write : ∀ a, (s'.word a).tokenWritePos = (s.word a).tokenWritePos

section Same
variable {s s' : Registrations ι α J} {a : α} {node : Node J} {i : ι} {pc : Thread α J}

theorem SameSlots.of_nodes (h : s'.nodes = s.nodes) : SameSlots s s' := by
  refine ⟨fun a pos => ?_, fun a => ?_, fun a => ?_⟩ <;> simp [Registrations.word, h]

theorem SameSlots.of_update [DecidableEq α] (h : s'.nodes = Function.update s.nodes a node)
    (htoken : ∀ pos, node.token pos = (s.nodes a).token pos)
    (hread : node.state.tokenReadPos = (s.word a).tokenReadPos)
    (hwrite : node.state.tokenWritePos = (s.word a).tokenWritePos) : SameSlots s s' := by
  refine ⟨fun b pos => ?_, fun b => ?_, fun b => ?_⟩ <;> by_cases hb : b = a
  · subst hb
    simp [h, htoken]
  · simp [h, hb]
  · subst hb
    simp [Registrations.word, h] at hread ⊢
    exact hread
  · simp [Registrations.word, h, hb]
  · subst hb
    simp [Registrations.word, h] at hwrite ⊢
    exact hwrite
  · simp [Registrations.word, h, hb]

theorem SameSlots.slotOk (h : SameSlots s s') (hpc : SlotOk s pc) : SlotOk s' pc := by
  cases pc with
  | updateToken a u state pos => exact ⟨hpc.1, by rw [h.read]; exact hpc.2.1, by rw [h.write]; exact hpc.2.2⟩
  | updateExchange a u state pos => exact ⟨hpc.1, by rw [h.token]; exact hpc.2⟩
  | _ => trivial

end Same

/-! ## An access of a thread -/

section Threads
variable [DecidableEq ι] [DecidableEq α] {s : Tokens ι α J} {r r' : Registrations ι α J} {i : ι} {a : α}

omit [DecidableEq ι] [DecidableEq α] in
theorem LockOk.others (h : LockOk r) (hi : (r.threads i).locked = some a) {j : ι} (hj : j ≠ i) :
    (r.threads j).locked ≠ some a :=
  fun hja => hj ((h i a hi).2 j hja)

omit [DecidableEq ι] [DecidableEq α] in
theorem LockOk.free (h : LockOk r) (ha : (r.nodes a).updateLock = false) (j : ι) :
    (r.threads j).locked ≠ some a := by
  intro hj
  rw [(h j a hj).1] at ha
  cases ha

omit [DecidableEq α] in
theorem LockOk.kept (h : LockOk r) (hothers : ∀ j, j ≠ i → r'.threads j = r.threads j)
    (hlock : ∀ b, (r'.nodes b).updateLock = (r.nodes b).updateLock)
    (hlocked : ∀ b, (r'.threads i).locked = some b → (r.threads i).locked = some b) : LockOk r' := by
  have hkeeps : ∀ k b, (r'.threads k).locked = some b → (r.threads k).locked = some b := by
    intro k b hk
    by_cases hki : k = i
    · subst hki
      exact hlocked b hk
    · rwa [hothers k hki] at hk
  intro j b hb
  obtain ⟨htaken, honly⟩ := h j b (hkeeps j b hb)
  exact ⟨by rw [hlock]; exact htaken, fun k hk => honly k (hkeeps k b hk)⟩

omit [DecidableEq α] in
theorem LockOk.moved (h : LockOk r) (hothers : ∀ j, j ≠ i → r'.threads j = r.threads j)
    (hlock : ∀ b, b ≠ a → (r'.nodes b).updateLock = (r.nodes b).updateLock)
    (hlocked : ∀ b, (r'.threads i).locked = some b → b = a ∧ (r'.nodes a).updateLock = true)
    (hnone : ∀ j, j ≠ i → (r.threads j).locked ≠ some a) : LockOk r' := by
  intro j b hb
  by_cases hj : j = i
  · subst hj
    obtain ⟨rfl, htaken⟩ := hlocked b hb
    refine ⟨htaken, fun k hk => ?_⟩
    by_contra hne
    rw [hothers k hne] at hk
    exact hnone k hne hk
  · rw [hothers j hj] at hb
    have hba : b ≠ a := fun he => hnone j hj (he ▸ hb)
    obtain ⟨htaken, honly⟩ := h j b hb
    refine ⟨by rw [hlock b hba]; exact htaken, fun k hk => ?_⟩
    by_cases hk' : k = i
    · subst hk'
      exact absurd (hlocked b hk).1 hba
    · rw [hothers k hk'] at hk
      exact honly k hk

omit [DecidableEq α] in
theorem Tokens.Ok.sameSlots (h : s.Ok) (howned : r.Owned)
    (hothers : ∀ j, j ≠ i → r.threads j = s.regs.threads j) (hhold : r.hold = s.regs.hold)
    (hpushed : r.pushed = s.regs.pushed) (hsame : SameSlots s.regs r) (hlock : LockOk r) (hfits : (r.threads i).Fits)
    (hslot : SlotOk r (r.threads i)) : ({ s with regs := r } : Tokens ι α J).Ok where
  owned := howned
  fits j := by
    by_cases hj : j = i
    · exact hj ▸ hfits
    · rw [hothers j hj]
      exact h.fits j
  read b := by rw [hsame.read]; exact h.read b
  write b := by rw [hsame.write]; exact h.write b
  slot b := by rw [hsame.write, hsame.token]; exact h.slot b
  lock := hlock
  slots j := by
    by_cases hj : j = i
    · exact hj ▸ hslot
    · rw [hothers j hj]
      exact hsame.slotOk (h.slots j)
  reading b readiness pos hb := by
    rw [hhold] at hb
    obtain ⟨hpos, htoken⟩ := h.reading b readiness pos hb
    exact ⟨by rw [hsame.read]; exact hpos, by rw [hsame.token]; exact htoken⟩
  pushing b event hb := h.pushing b event (by rw [← hhold]; exact hb)
  delivered := h.delivered
  pushed := by rw [hpushed]; exact h.pushed

omit [DecidableEq ι] [DecidableEq α] in
/-- Outside the locked part of `update` a thread is about to write no slot. -/
theorem slotOk_of_unlocked {pc : Thread α J} (h : pc.locked = none) : SlotOk r pc := by
  cases pc with
  | updateToken | updateExchange => cases h
  | _ => trivial

omit [DecidableEq α] in
/-- A thread that is outside the locked part of `update` afterwards keeps it all, when it leaves slots,
positions and locks alone. -/
theorem Tokens.Ok.unlocked (h : s.Ok) (howned : r.Owned) (hframe : ThreadFrame s.regs r i)
    (hsame : SameSlots s.regs r)
    (hlock : ∀ b, (r.nodes b).updateLock = (s.regs.nodes b).updateLock)
    (hnone : (r.threads i).locked = none) (hfits : (r.threads i).Fits) :
    ({ s with regs := r } : Tokens ι α J).Ok := by
  refine h.sameSlots howned hframe.threads hframe.hold hframe.pushed hsame ?_ hfits
    (slotOk_of_unlocked hnone)
  refine h.lock.kept hframe.threads hlock fun b hb => ?_
  rw [hnone] at hb
  cases hb

omit [DecidableEq α] in
theorem Tokens.Ok.goesOn (h : s.Ok) (howned : r.Owned) (hframe : ThreadFrame s.regs r i)
    (hnodes : r.nodes = s.regs.nodes) (hlocked : (r.threads i).locked = (s.regs.threads i).locked)
    (hfits : (r.threads i).Fits) (hslot : SlotOk r (r.threads i)) :
    ({ s with regs := r } : Tokens ι α J).Ok := by
  refine h.sameSlots howned hframe.threads hframe.hold hframe.pushed (.of_nodes hnodes) ?_ hfits hslot
  refine h.lock.kept hframe.threads (fun b => by rw [hnodes]) fun b hb => ?_
  rwa [hlocked] at hb

omit [DecidableEq ι] in
theorem nodes_store_update (t : Registrations ι α J) (next : ReadinessState) :
    (t.store a next).nodes = Function.update t.nodes a { t.nodes a with state := next } := by
  unfold Registrations.store
  dsimp only
  split <;> rfl

theorem updateLock_update {nodes nodes' : α → Node J} {node : Node J}
    (h : nodes' = Function.update nodes a node) (hlock : node.updateLock = (nodes a).updateLock)
    (b : α) : (nodes' b).updateLock = (nodes b).updateLock := by
  rw [h]
  by_cases hb : b = a
  · subst hb
    rw [Function.update_self, hlock]
  · rw [Function.update_of_ne hb]

omit [DecidableEq α] in
theorem fits_trySet {ready : Ready} {state : ReadinessState}
    (h : Field.readiness.Holds ready.bits) :
    (Registrations.trySet a ready state : Thread α J).Fits := by
  unfold Registrations.trySet
  split
  · trivial
  · exact h

omit [DecidableEq ι] in
theorem latestAfter_of_none {op : RegistrationsOp ι α J} (h : s.regs.exchanges op = none) :
    s.latestAfter op = s.latest := by
  unfold Tokens.latestAfter
  rw [h]

omit [DecidableEq α] in
theorem threads_goto (t : Registrations ι α J) (pc : Thread α J) : (t.goto i pc).threads i = pc :=
  Function.update_self ..

/-- The update whose exchange succeeds makes its slot the write position. -/
theorem Tokens.Ok.updates (h : s.Ok) {u : Update J} {pos : Usize} {next : ReadinessState}
    (hi : s.regs.threads i = .updateExchange a u (s.regs.word a) pos)
    (hnext : next = (s.regs.word a).afterUpdate pos u.interest u.opt)
    (hr : r = (s.regs.store a next).goto i
      (.updateUnlock a u (Registrations.owes (s.regs.word a) next)))
    (hframe : ThreadFrame s.regs r i) (howned : r.Owned) :
    ({ s with regs := r, latest := Function.update s.latest a u.token } : Tokens ι α J).Ok := by
  have hfits : u.Fits := by
    have := h.fits i
    rwa [hi] at this
  obtain ⟨hpos, htoken⟩ : Position pos ∧ (s.regs.nodes a).token pos = some u.token := by
    have := h.slots i
    rwa [hi] at this
  have hnodes : r.nodes = Function.update s.regs.nodes a { s.regs.nodes a with state := next } := by
    rw [hr]
    exact nodes_store_update s.regs next
  have hpc : r.threads i = .updateUnlock a u (Registrations.owes (s.regs.word a) next) := by
    rw [hr]
    exact threads_goto _ _
  have hread : next.tokenReadPos = (s.regs.word a).tokenReadPos := by
    rw [hnext]
    exact ReadinessState.field_afterUpdate (f := .tokenRead) _ hpos.holds hfits.1 hfits.2 (by decide)
      (by decide) (by decide) (by decide)
  have hwrite : next.tokenWritePos = pos := by
    rw [hnext]
    exact ReadinessState.tokenWritePos_afterUpdate _ hpos.holds hfits.1 hfits.2
  have hself : r.nodes a = { s.regs.nodes a with state := next } := by
    rw [hnodes, Function.update_self]
  have hother : ∀ b, b ≠ a → r.nodes b = s.regs.nodes b := by
    intro b hb
    rw [hnodes, Function.update_of_ne hb]
  have hword : r.word a = next := by
    unfold Registrations.word
    rw [hself]
  have hwords : ∀ b, b ≠ a → r.word b = s.regs.word b := by
    intro b hb
    unfold Registrations.word
    rw [hother b hb]
  have hreads : ∀ b, (r.word b).tokenReadPos = (s.regs.word b).tokenReadPos := by
    intro b
    by_cases hb : b = a
    · subst hb
      rw [hword, hread]
    · rw [hwords b hb]
  have htokens : ∀ b p, (r.nodes b).token p = (s.regs.nodes b).token p := by
    intro b p
    by_cases hb : b = a
    · subst hb
      rw [hself]
      rfl
    · rw [hother b hb]
  have hlocked : (s.regs.threads i).locked = some a := by
    rw [hi]
    rfl
  refine ⟨howned, fun j => ?_, fun b => by rw [hreads]; exact h.read b, fun b => ?_, fun b => ?_,
    ?_, fun j => ?_, fun b readiness p hhold => ?_, fun b event hhold => ?_, h.delivered, ?_⟩
  · by_cases hj : j = i
    · subst hj
      show (r.threads j).Fits
      rw [hpc]
      trivial
    · show (r.threads j).Fits
      rw [hframe.threads j hj]
      exact h.fits j
  · by_cases hb : b = a
    · subst hb
      show Position (r.word b).tokenWritePos
      rw [hword, hwrite]
      exact hpos
    · show Position (r.word b).tokenWritePos
      rw [hwords b hb]
      exact h.write b
  · show (r.nodes b).token (r.word b).tokenWritePos = some (Function.update s.latest a u.token b)
    rw [htokens]
    by_cases hb : b = a
    · subst hb
      rw [hword, hwrite, Function.update_self]
      exact htoken
    · rw [hwords b hb, Function.update_of_ne hb]
      exact h.slot b
  · refine h.lock.kept hframe.threads (updateLock_update hnodes rfl) fun b hb => ?_
    rw [hpc] at hb
    rw [hlocked]
    exact hb
  · show SlotOk r (r.threads j)
    by_cases hj : j = i
    · subst hj
      rw [hpc]
      trivial
    · rw [hframe.threads j hj]
      have hslot := h.slots j
      -- no other thread has the lock of the node, so the moved write position is nobody's business
      cases hjpc : s.regs.threads j with
      | updateToken b u' state p =>
        have hb : b ≠ a := fun he => h.lock.others hlocked hj (by rw [hjpc, he]; rfl)
        rw [hjpc] at hslot
        exact ⟨hslot.1, by rw [hwords b hb]; exact hslot.2.1, by rw [hwords b hb]; exact hslot.2.2⟩
      | updateExchange b u' state p =>
        rw [hjpc] at hslot
        exact ⟨hslot.1, by rw [htokens]; exact hslot.2⟩
      | _ => trivial
  · rw [show r.hold = s.regs.hold from hframe.hold] at hhold
    obtain ⟨hp, hslot⟩ := h.reading b readiness p hhold
    exact ⟨(hreads b).symm ▸ hp, (htokens b p).trans hslot⟩
  · exact h.pushing b event (by rw [← hframe.hold]; exact hhold)
  · show _ = r.pushed.map _
    rw [hframe.pushed]
    exact h.pushed

/-- The token of an update goes into its slot, which nobody is reading. -/
theorem Tokens.Ok.writesToken (h : s.Ok) {u : Update J} {state : ReadinessState} {pos : Usize}
    {node : Node J} (hi : s.regs.threads i = .updateToken a u state pos)
    (hnode : (s.regs.nodes a).storeToken pos u.token = some node)
    (hr : r = (s.regs.setNode a node).goto i (.updateExchange a u state pos))
    (hframe : ThreadFrame s.regs r i) (howned : r.Owned) :
    ({ s with regs := r } : Tokens ι α J).Ok := by
  obtain ⟨hstate, hlock, -⟩ := storeToken_spec hnode
  obtain ⟨hpos, hread, hwrite⟩ : Position pos ∧ pos ≠ (s.regs.word a).tokenReadPos ∧
      pos ≠ (s.regs.word a).tokenWritePos := by
    have := h.slots i
    rwa [hi] at this
  have hnodes : r.nodes = Function.update s.regs.nodes a node := by
    rw [hr]
    rfl
  have hpc : r.threads i = .updateExchange a u state pos := by
    rw [hr]
    exact threads_goto _ _
  have hwords : ∀ b, r.word b = s.regs.word b := by
    intro b
    unfold Registrations.word
    rw [hnodes]
    by_cases hb : b = a
    · subst hb
      rw [Function.update_self, hstate]
    · rw [Function.update_of_ne hb]
  have htokens : ∀ b p, b ≠ a ∨ p ≠ pos → (r.nodes b).token p = (s.regs.nodes b).token p := by
    intro b p hne
    rw [hnodes]
    by_cases hb : b = a
    · subst hb
      rw [Function.update_self, storeToken_token hnode, if_neg (hne.resolve_left (not_not.mpr rfl))]
    · rw [Function.update_of_ne hb]
  have hlocked : (s.regs.threads i).locked = some a := by
    rw [hi]
    rfl
  refine ⟨howned, fun j => ?_, fun b => by rw [hwords]; exact h.read b,
    fun b => by rw [hwords]; exact h.write b, fun b => ?_, ?_, fun j => ?_,
    fun b readiness p hhold => ?_, fun b event hhold => ?_, h.delivered, ?_⟩
  · show (r.threads j).Fits
    by_cases hj : j = i
    · subst hj
      have hfits := h.fits j
      rw [hi] at hfits
      rw [hpc]
      exact hfits
    · rw [hframe.threads j hj]
      exact h.fits j
  · show (r.nodes b).token (r.word b).tokenWritePos = some (s.latest b)
    rw [hwords, htokens, h.slot]
    by_cases hb : b = a
    · subst hb
      exact .inr (Ne.symm hwrite)
    · exact .inl hb
  · refine h.lock.kept hframe.threads (updateLock_update hnodes hlock) fun b hb => ?_
    rw [hpc] at hb
    rw [hlocked]
    exact hb
  · show SlotOk r (r.threads j)
    by_cases hj : j = i
    · subst hj
      rw [hpc]
      refine ⟨hpos, ?_⟩
      rw [hnodes, Function.update_self, storeToken_token hnode, if_pos rfl]
    · rw [hframe.threads j hj]
      have hslot := h.slots j
      cases hjpc : s.regs.threads j with
      | updateToken b u' state' p =>
        rw [hjpc] at hslot
        exact ⟨hslot.1, by rw [hwords]; exact hslot.2.1, by rw [hwords]; exact hslot.2.2⟩
      | updateExchange b u' state' p =>
        have hb : b ≠ a := fun he => h.lock.others hlocked hj (by rw [hjpc, he]; rfl)
        rw [hjpc] at hslot
        exact ⟨hslot.1, by rw [htokens b p (.inl hb)]; exact hslot.2⟩
      | _ => trivial
  · rw [show r.hold = s.regs.hold from hframe.hold] at hhold
    obtain ⟨hp, hslot⟩ := h.reading b readiness p hhold
    refine ⟨(hwords b).symm ▸ hp, ?_⟩
    show (r.nodes b).token p = _
    rw [htokens, hslot]
    by_cases hb : b = a
    · subst hb
      exact .inr fun he => hread (he ▸ hp)
    · exact .inl hb
  · exact h.pushing b event (by rw [← hframe.hold]; exact hhold)
  · show _ = r.pushed.map _
    rw [hframe.pushed]
    exact h.pushed

/-- **An access of a thread.** -/
theorem Tokens.Ok.threadStep (h : s.Ok) (hs : s.regs.threadStep i = some r) (howned : r.Owned) :
    ({ s with regs := r, latest := s.latestAfter (.thread i) } : Tokens ι α J).Ok := by
  have hframe := threadStep_frame hs
  have hfits := h.fits i
  have hslot := h.slots i
  have hmove := threadStep_move hs
  cases hmove with
  | updates a u pos next hi hnext hr =>
    have hex : s.latestAfter (.thread i) = Function.update s.latest a u.token := by
      simp [Tokens.latestAfter, Registrations.exchanges, hi]
    rw [hex]
    exact h.updates hi hnext hr hframe howned
  | writesToken a u state pos node hi hnode hr =>
    rw [latestAfter_of_none (by simp [Registrations.exchanges, hi])]
    exact h.writesToken hi hnode hr hframe howned
  | tries a ready hi hr =>
    have hex : s.regs.exchanges (.thread i) = none := by
      rcases hi with hi | ⟨state, hi⟩ <;> simp [Registrations.exchanges, hi]
    have hready : Field.readiness.Holds ready.bits := by
      rcases hi with hi | ⟨state, hi⟩ <;> rw [hi] at hfits <;> exact hfits
    have hpc : r.threads i = Registrations.trySet a ready (s.regs.word a) := by
      rw [hr]
      exact threads_goto _ _
    rw [latestAfter_of_none hex]
    refine h.unlocked howned hframe (.of_nodes (by rw [hr]; rfl)) (fun b => by rw [hr]; rfl) ?_ ?_
    · rw [hpc]
      unfold Registrations.trySet
      split <;> rfl
    · rw [hpc]
      exact fits_trySet hready
  | signals a ready next hi hnext hr =>
    rw [hi] at hfits
    have hnodes : r.nodes = Function.update s.regs.nodes a { s.regs.nodes a with state := next } := by
      rw [hr]
      exact nodes_store_update s.regs next
    have hpc : r.threads i = if Registrations.owes (s.regs.word a) next then .enqueue a else .idle := by
      rw [hr]
      exact threads_goto _ _
    rw [latestAfter_of_none (by simp [Registrations.exchanges, hi])]
    refine h.unlocked howned hframe (.of_update hnodes (fun _ => rfl) ?_ ?_)
      (updateLock_update hnodes rfl) ?_ ?_
    · rw [hnext]
      exact ReadinessState.field_afterSetReadiness (f := .tokenRead) _ (by decide) (by decide) hfits
    · rw [hnext]
      exact ReadinessState.field_afterSetReadiness (f := .tokenWrite) _ (by decide) (by decide) hfits
    · rw [hpc]
      split <;> rfl
    · rw [hpc]
      split <;> trivial
  | misses a u hi _ hr =>
    have hpc : r.threads i = .idle := by
      rw [hr]
      exact threads_goto _ _
    rw [latestAfter_of_none (by simp [Registrations.exchanges, hi])]
    exact h.unlocked howned hframe (.of_nodes (by rw [hr]; rfl)) (fun b => by rw [hr]; rfl)
      (by rw [hpc]; rfl) (by rw [hpc]; trivial)
  | locks a u hi hfree hr =>
    have hnodes : r.nodes = Function.update s.regs.nodes a { s.regs.nodes a with updateLock := true } := by
      rw [hr]
      rfl
    have hpc : r.threads i = .updateLoad a u := by
      rw [hr]
      exact threads_goto _ _
    rw [hi] at hfits
    rw [latestAfter_of_none (by simp [Registrations.exchanges, hi])]
    refine h.sameSlots howned hframe.threads hframe.hold hframe.pushed
      (.of_update hnodes (fun _ => rfl) rfl rfl) ?_ (by rw [hpc]; exact hfits) (by rw [hpc]; trivial)
    refine h.lock.moved (a := a) hframe.threads (fun b hb => by rw [hnodes, Function.update_of_ne hb])
      (fun b hb => ?_) fun j _ => h.lock.free hfree j
    rw [hpc] at hb
    exact ⟨(Option.some.inj hb).symm, by rw [hnodes, Function.update_self]⟩
  | keepsToken a u hi htoken hr =>
    have hpc : r.threads i = .updateExchange a u (s.regs.word a) (s.regs.word a).tokenWritePos := by
      rw [hr]
      exact threads_goto _ _
    rw [hi] at hfits
    rw [latestAfter_of_none (by simp [Registrations.exchanges, hi])]
    refine h.goesOn howned hframe (by rw [hr]; rfl) (by rw [hpc, hi]; rfl) (by rw [hpc]; exact hfits) ?_
    rw [hpc]
    exact ⟨h.write a, by rw [hr]; exact htoken⟩
  | picksSlot a u pos hi hpos hr =>
    have hpc : r.threads i = .updateToken a u (s.regs.word a) pos := by
      rw [hr]
      exact threads_goto _ _
    rw [hi] at hfits
    rw [latestAfter_of_none (by simp [Registrations.exchanges, hi])]
    refine h.goesOn howned hframe (by rw [hr]; rfl) (by rw [hpc, hi]; rfl) (by rw [hpc]; exact hfits) ?_
    rw [hpc, hr]
    exact nextTokenPos_spec hpos
  | retries a u state pos hi hword hr =>
    have hpc : r.threads i = .updateExchange a u (s.regs.word a) pos := by
      rw [hr]
      exact threads_goto _ _
    rw [hi] at hfits hslot
    rw [latestAfter_of_none (by simp [Registrations.exchanges, hi, hword])]
    refine h.goesOn howned hframe (by rw [hr]; rfl) (by rw [hpc, hi]; rfl) (by rw [hpc]; exact hfits) ?_
    rw [hpc, hr]
    exact hslot
  | unlocks a u enqueues hi hr =>
    have hnodes : r.nodes =
        Function.update s.regs.nodes a { s.regs.nodes a with updateLock := false } := by
      rw [hr]
      rfl
    have hpc : r.threads i = if enqueues then .updateJob a u else .idle := by
      rw [hr]
      exact threads_goto _ _
    have hnone : (r.threads i).locked = none ∧ (r.threads i).Fits := by
      rw [hpc]
      split <;> exact ⟨rfl, trivial⟩
    rw [latestAfter_of_none (by simp [Registrations.exchanges, hi])]
    refine h.sameSlots howned hframe.threads hframe.hold hframe.pushed
      (.of_update hnodes (fun _ => rfl) rfl rfl) ?_ hnone.2 (slotOk_of_unlocked hnone.1)
    refine h.lock.moved (a := a) hframe.threads (fun b hb => by rw [hnodes, Function.update_of_ne hb])
      (fun b hb => ?_) fun j hj => h.lock.others (by rw [hi]; rfl) hj
    rw [hnone.1] at hb
    cases hb
  | storesJob a u hi hr =>
    have hnodes : r.nodes = Function.update s.regs.nodes a { s.regs.nodes a with job := u.job } := by
      rw [hr]
      rfl
    have hpc : r.threads i = .enqueue a := by
      rw [hr]
      exact threads_goto _ _
    rw [latestAfter_of_none (by simp [Registrations.exchanges, hi])]
    exact h.unlocked howned hframe (.of_update hnodes (fun _ => rfl) rfl rfl)
      (updateLock_update hnodes rfl) (by rw [hpc]; rfl) (by rw [hpc]; trivial)
  | drops a hi hr =>
    have hnodes : r.nodes = Function.update s.regs.nodes a
        { s.regs.nodes a with state := (s.regs.word a).flagAsDropped } := by
      rw [hr]
      rfl
    have hpc : r.threads i = if (s.regs.word a).isQueued then .idle else .enqueue a := by
      rw [hr]
      exact threads_goto _ _
    rw [latestAfter_of_none (by simp [Registrations.exchanges, hi])]
    refine h.unlocked howned hframe (.of_update hnodes (fun _ => rfl) ?_ ?_)
      (updateLock_update hnodes rfl) ?_ ?_
    · exact ReadinessState.field_flagAsDropped (f := .tokenRead) _ (by decide) (by decide)
    · exact ReadinessState.field_flagAsDropped (f := .tokenWrite) _ (by decide) (by decide)
    · rw [hpc]
      split <;> rfl
    · rw [hpc]
      split <;> trivial
  | enqueues a p hi _ hr =>
    have hpc : r.threads i = .idle := by
      rw [hr]
      exact Function.update_self ..
    rw [latestAfter_of_none (by simp [Registrations.exchanges, hi])]
    exact h.unlocked howned hframe (.of_nodes (by rw [hr]; rfl)) (fun b => by rw [hr]; rfl)
      (by rw [hpc]; rfl) (by rw [hpc]; trivial)

end Threads

/-! ## An access of the poller to a node -/

section Poller
variable [DecidableEq ι] [DecidableEq α] {s : Tokens ι α J} {r : Registrations ι α J} {i : ι}

omit [DecidableEq ι] [DecidableEq α] in
theorem LockOk.frame {r r' : Registrations ι α J} (h : LockOk r) (hthreads : r'.threads = r.threads)
    (hlock : ∀ b, (r'.nodes b).updateLock = (r.nodes b).updateLock) : LockOk r' := by
  intro j b hb
  rw [hthreads] at hb
  obtain ⟨htaken, honly⟩ := h j b hb
  exact ⟨by rw [hlock]; exact htaken, fun k hk => honly k (by rwa [hthreads] at hk)⟩

omit [DecidableEq ι] [DecidableEq α] in
/-- What an access of the poller keeps when it leaves slots and positions alone. -/
theorem Tokens.Ok.polled (h : s.Ok) (howned : r.Owned) (hthreads : r.threads = s.regs.threads)
    (hsame : SameSlots s.regs r)
    (hlock : ∀ b, (r.nodes b).updateLock = (s.regs.nodes b).updateLock) {decided : TokenEntry}
    {delivered : List ((α × Event) × TokenEntry)}
    (hreading : ∀ a readiness pos, r.hold ≠ .token a readiness pos)
    (hpushing : ∀ a event, r.hold = .push a event → event.token = decided)
    (hdelivered : ∀ e ∈ delivered, e.1.2.token = e.2)
    (hpushed : delivered.map Prod.fst = r.pushed.map fun e => (e.1, e.2.1)) :
    (⟨r, s.latest, decided, delivered⟩ : Tokens ι α J).Ok where
  owned := howned
  fits j := by rw [hthreads]; exact h.fits j
  read b := by rw [hsame.read]; exact h.read b
  write b := by rw [hsame.write]; exact h.write b
  slot b := by rw [hsame.write, hsame.token]; exact h.slot b
  lock := h.lock.frame hthreads hlock
  slots j := by rw [hthreads]; exact hsame.slotOk (h.slots j)
  reading b readiness pos hhold := absurd hhold (hreading b readiness pos)
  pushing := hpushing
  delivered := hdelivered
  pushed := hpushed

omit [DecidableEq ι] [DecidableEq α] in
theorem decidedAfter_of_ne (h : ∀ a readiness pos, r.hold ≠ .token a readiness pos) :
    s.decidedAfter r (.node : RegistrationsOp ι α J) = s.decided := by
  unfold Tokens.decidedAfter
  cases hh : r.hold with
  | token a readiness pos => exact absurd hh (h a readiness pos)
  | _ => rfl

omit [DecidableEq ι] [DecidableEq α] in
theorem deliveredAfter_of_ne (h : ∀ a event, s.regs.hold ≠ .push a event) :
    s.deliveredAfter (.node : RegistrationsOp ι α J) = s.delivered := by
  unfold Tokens.deliveredAfter
  cases hh : s.regs.hold with
  | push a event => exact absurd hh (h a event)
  | _ => rfl

omit [DecidableEq ι] in
/-- The loop on the word ends: the read position is the write position from now on. -/
theorem Tokens.Ok.settles (h : s.Ok) (howned : r.Owned) (hthreads : r.threads = s.regs.threads) {a : α}
    (hload : s.regs.hold = .load ∨ ∃ state, s.regs.hold = .exchange state)
    (hnodes : r.nodes = Function.update s.regs.nodes a
      { s.regs.nodes a with state := (s.regs.word a).afterPoll })
    (hhold : r.hold = if (s.regs.word a).effectiveReadiness.isEmpty then .load
      else .token a (s.regs.word a).effectiveReadiness (s.regs.word a).afterPoll.tokenReadPos)
    (hpushed : r.pushed = s.regs.pushed) :
    (⟨r, s.latest, s.decidedAfter r .node, s.deliveredAfter .node⟩ : Tokens ι α J).Ok := by
  have hself : r.nodes a = { s.regs.nodes a with state := (s.regs.word a).afterPoll } := by
    rw [hnodes, Function.update_self]
  have hword : r.word a = (s.regs.word a).afterPoll := by
    show (r.nodes a).state = _
    rw [hself]
  have hwords : ∀ b, b ≠ a → r.word b = s.regs.word b := by
    intro b hb
    unfold Registrations.word
    rw [hnodes, Function.update_of_ne hb]
  have htokens : ∀ b p, (r.nodes b).token p = (s.regs.nodes b).token p := by
    intro b p
    by_cases hb : b = a
    · subst hb
      rw [hself]
      rfl
    · rw [hnodes, Function.update_of_ne hb]
  have hread : (r.word a).tokenReadPos = (s.regs.word a).tokenWritePos := by
    rw [hword, ReadinessState.tokenReadPos_afterPoll]
  have hwrite : ∀ b, (r.word b).tokenWritePos = (s.regs.word b).tokenWritePos := by
    intro b
    by_cases hb : b = a
    · subst hb
      rw [hword, ReadinessState.tokenWritePos_afterPoll]
    · rw [hwords b hb]
  have hdelivered : s.deliveredAfter (.node : RegistrationsOp ι α J) = s.delivered := by
    apply deliveredAfter_of_ne
    intro b event he
    rcases hload with hl | ⟨state, hl⟩ <;> rw [hl] at he <;> cases he
  rw [hdelivered]
  refine ⟨howned, fun j => by rw [hthreads]; exact h.fits j, fun b => ?_,
    fun b => by rw [hwrite]; exact h.write b, fun b => by rw [hwrite, htokens]; exact h.slot b,
    h.lock.frame hthreads (updateLock_update hnodes rfl), fun j => ?_, fun b readiness p hb => ?_,
    fun b event hb => ?_, h.delivered, ?_⟩
  · by_cases hb : b = a
    · subst hb
      show Position (r.word b).tokenReadPos
      rw [hread]
      exact h.write b
    · show Position (r.word b).tokenReadPos
      rw [hwords b hb]
      exact h.read b
  · -- an update in progress has picked a slot other than the write position
    show SlotOk r (r.threads j)
    rw [hthreads]
    have hslot := h.slots j
    cases hj : s.regs.threads j with
    | updateToken b u state p =>
      rw [hj] at hslot
      refine ⟨hslot.1, ?_, by rw [hwrite]; exact hslot.2.2⟩
      by_cases hb : b = a
      · subst hb
        rw [hread]
        exact hslot.2.2
      · rw [hwords b hb]
        exact hslot.2.1
    | updateExchange b u state p =>
      rw [hj] at hslot
      exact ⟨hslot.1, by rw [htokens]; exact hslot.2⟩
    | _ => trivial
  · have hb' : r.hold = .token b readiness p := hb
    rw [hhold] at hb'
    split at hb'
    · cases hb'
    · rename_i hready
      obtain ⟨rfl, rfl, rfl⟩ := Hold.token.inj hb'
      have hdecided : s.decidedAfter r (.node : RegistrationsOp ι α J) = s.latest a := by
        unfold Tokens.decidedAfter
        simp [hhold, hready]
      refine ⟨?_, ?_⟩
      · show _ = (r.word a).tokenReadPos
        rw [hword]
      · show (r.nodes a).token _ = some (s.decidedAfter r .node)
        rw [htokens, hdecided, ReadinessState.tokenReadPos_afterPoll]
        exact h.slot a
  · have hb' : r.hold = .push b event := hb
    rw [hhold] at hb'
    split at hb' <;> cases hb'
  · show _ = r.pushed.map _
    rw [hpushed]
    exact h.pushed

/-- **An access of the poller to the node in hand.** -/
theorem Tokens.Ok.nodeStep (h : s.Ok) (hs : s.regs.nodeStep = some r) (howned : r.Owned) :
    (⟨r, s.latest, s.decidedAfter r .node, s.deliveredAfter .node⟩ : Tokens ι α J).Ok := by
  obtain ⟨hframe, hmove⟩ := nodeStep_move h.owned hs
  cases hmove with
  | releases a _ _ hload _ hnodes hhold _ _ hpushed _ =>
    rw [decidedAfter_of_ne (fun _ _ _ => by simp [hhold]), deliveredAfter_of_ne (fun b event he => by
      rcases hload with hl | ⟨state, hl⟩ <;> rw [hl] at he <;> cases he)]
    refine h.polled howned hframe.threads (.of_nodes hnodes) (fun b => by rw [hnodes]) ?_ ?_ h.delivered
      (by rw [hpushed]; exact h.pushed)
    · simp [hhold]
    · simp [hhold]
  | examines a _ _ hload _ hnodes hhold _ _ hpushed _ =>
    rw [decidedAfter_of_ne (fun _ _ _ => by simp [hhold]), deliveredAfter_of_ne (fun b event he => by
      rcases hload with hl | ⟨state, hl⟩ <;> rw [hl] at he <;> cases he)]
    refine h.polled howned hframe.threads (.of_nodes hnodes) (fun b => by rw [hnodes]) ?_ ?_ h.delivered
      (by rw [hpushed]; exact h.pushed)
    · simp [hhold]
    · simp [hhold]
  | settles a _ _ hload _ hnodes hhold _ _ hpushed _ =>
    exact h.settles howned hframe.threads hload hnodes hhold hpushed
  | reads a readiness pos token hhold htoken hnodes hhold' _ hpushed _ =>
    rw [decidedAfter_of_ne (fun _ _ _ => by simp [hhold']),
      deliveredAfter_of_ne (fun _ _ => by simp [hhold])]
    refine h.polled howned hframe.threads (.of_nodes hnodes) (fun b => by rw [hnodes]) ?_ ?_ h.delivered
      (by rw [hpushed]; exact h.pushed)
    · simp [hhold']
    · intro b event hb
      obtain ⟨-, rfl⟩ := Hold.push.inj (hhold'.symm.trans hb)
      obtain ⟨-, hslot⟩ := h.reading a readiness pos hhold
      exact Option.some.inj (htoken.symm.trans hslot)
  | pushes a event hhold hnodes hhold' _ hpushed _ =>
    have hdelivered : s.deliveredAfter (.node : RegistrationsOp ι α J) =
        s.delivered ++ [((a, event), s.decided)] := by
      unfold Tokens.deliveredAfter
      simp [hhold]
    rw [decidedAfter_of_ne (fun _ _ _ => by simp [hhold']), hdelivered]
    refine h.polled howned hframe.threads (.of_nodes hnodes) (fun b => by rw [hnodes]) ?_ ?_ ?_ ?_
    · simp [hhold']
    · simp [hhold']
    · intro e he
      rcases List.mem_append.mp he with he | he
      · exact h.delivered e he
      · obtain rfl := List.mem_singleton.mp he
        exact h.pushing a event hhold
    · rw [hpushed, List.map_append, List.map_append, h.pushed]
      rfl
  | clears a hhold hnodes hhold' _ hpushed _ =>
    rw [decidedAfter_of_ne (fun _ _ _ => by simp [hhold']),
      deliveredAfter_of_ne (fun _ _ => by simp [hhold])]
    refine h.polled howned hframe.threads (.of_update hnodes (fun _ => rfl) rfl rfl)
      (updateLock_update hnodes rfl) ?_ ?_ h.delivered (by rw [hpushed]; exact h.pushed)
    · simp [hhold']
    · simp [hhold']

end Poller

/-! ## Runs -/

section Runs
variable [DecidableEq ι] [DecidableEq α] {s s' : Tokens ι α J} {op : RegistrationsOp ι α J}

omit [DecidableEq ι] [DecidableEq α] in
theorem Tokens.Ok.polling (h : s.Ok) {p : Polling ι α}
    (howned : ({ s.regs with polling := p } : Registrations ι α J).Owned) :
    ({ s with regs := { s.regs with polling := p } } : Tokens ι α J).Ok :=
  ⟨howned, h.fits, h.read, h.write, h.slot, h.lock, h.slots, h.reading, h.pushing, h.delivered, h.pushed⟩

theorem tokensStep_ok (h : s.Ok) (hok : Fitting s op) (hs : tokensStep s op = some s') : s'.Ok := by
  obtain ⟨r, hr, rfl⟩ := Option.map_eq_some_iff.mp hs
  have howned := registrationsStep_owned h.owned hr
  cases op with
  | call i c =>
    simp only [registrationsStep] at hr
    split at hr
    · rename_i hidle _
      obtain rfl := Option.some.inj hr
      have hothers : ∀ j, j ≠ i → (s.regs.goto i c.enter).threads j = s.regs.threads j :=
        fun _ hj => Function.update_of_ne hj ..
      have hnone : c.enter.locked = none ∧ SlotOk (s.regs.goto i c.enter) c.enter ∧ c.enter.Fits := by
        cases c with
        | setReadiness | update => exact ⟨rfl, trivial, hok⟩
        | drop => exact ⟨rfl, trivial, trivial⟩
      refine h.sameSlots howned hothers rfl rfl (.of_nodes rfl) ?_ (by rw [threads_goto]; exact hnone.2.2)
        (by rw [threads_goto]; exact hnone.2.1)
      exact h.lock.kept hothers (fun _ => rfl) fun b hb => by
        rw [threads_goto, hnone.1] at hb
        cases hb
    · cases hr
  | thread i => exact h.threadStep hr howned
  | producer i wouldBlock =>
    obtain ⟨p, -, rfl⟩ := Option.map_eq_some_iff.mp hr
    exact h.polling howned
  | poll op =>
    simp only [registrationsStep] at hr
    split at hr
    · obtain ⟨p, -, rfl⟩ := Option.map_eq_some_iff.mp hr
      exact h.polling howned
    · cases hr
  | node => exact h.nodeStep hr howned

theorem new_positions {interest : Ready} {opt : PollOpt} (hi : interest.bits ≤ MASK_4)
    (ho : opt.bits ≤ MASK_4) : (ReadinessState.new interest opt).tokenReadPos = 0 ∧
      (ReadinessState.new interest opt).tokenWritePos = 0 := by
  have hget : ∀ shift, 12 ≤ shift →
      BitField.get (ReadinessState.new interest opt).bits MASK_2 shift = 0 := by
    intro shift hshift
    apply BitVec.eq_of_getLsbD_eq
    intro i _
    rw [BitField.getLsbD_get, ReadinessState.new_above hi ho (by omega)]
    exact BitVec.getLsbD_zero.symm
  exact ⟨hget TOKEN_RD_SHIFT (by decide), hget TOKEN_WR_SHIFT (by decide)⟩

/-- A thread outside `enqueue_node` can always go on: no slot is out of reach. -/
theorem Tokens.Ok.threadStep_isSome (h : s.Ok) {i : ι} (hidle : s.regs.threads i ≠ .idle)
    (henqueue : ∀ a, s.regs.threads i ≠ .enqueue a) : (s.regs.threadStep i).isSome = true := by
  unfold Registrations.threadStep
  cases hi : s.regs.threads i with
  | idle => exact absurd hi hidle
  | enqueue a => exact absurd hi (henqueue a)
  | setExchange a ready state | updateExchange a u state pos =>
    dsimp only
    split <;> rfl
  | updateLock a u =>
    dsimp only
    split <;> rfl
  | updateLoad a u =>
    obtain ⟨pos, hpos⟩ := Option.isSome_iff_exists.mp (nextTokenPos_isSome (h.read a) (h.write a))
    dsimp only
    rw [h.slot, hpos]
    dsimp only
    split <;> rfl
  | updateToken a u state pos =>
    have hslot := h.slots i
    rw [hi] at hslot
    dsimp only
    rw [Option.isSome_map]
    exact storeToken_isSome _ hslot.1 _
  | setLoad | updateUnlock | updateJob | dropOr => rfl

omit [DecidableEq ι] [DecidableEq α] in
theorem Tokens.Starts.ok (h : s.Starts) : s.Ok := by
  have hword : ∀ a, (s.regs.word a).tokenReadPos = 0 ∧ (s.regs.word a).tokenWritePos = 0 := by
    intro a
    obtain ⟨token, interest, opt, hnode, hi, ho⟩ := h.regs.nodes a
    unfold Registrations.word
    rw [hnode]
    exact new_positions hi ho
  have hidle : ∀ i, s.regs.threads i = .idle := h.regs.threads
  refine ⟨h.regs.owned, fun i => by rw [hidle]; trivial, fun a => .inl (hword a).1,
    fun a => .inl (hword a).2, fun a => ?_, fun i a hi => ?_, fun i => by rw [hidle]; trivial,
    fun a readiness pos hhold => ?_, fun a event hhold => ?_, fun e he => ?_, ?_⟩
  · rw [(hword a).2, h.latest]
    rfl
  · rw [hidle] at hi
    cases hi
  · rw [h.regs.hold] at hhold
    cases hhold
  · rw [h.regs.hold] at hhold
    cases hhold
  · rw [h.delivered] at he
    cases he
  · rw [h.delivered, h.pushed]
    rfl

theorem tokens_ok (hs : ReachableIf tokensStep Fitting Tokens.Starts s) : s.Ok :=
  hs.invariant (fun _ hinit => hinit.ok) fun _ _ _ h hok hstep => tokensStep_ok h hok hstep

end Runs

/-- **Triple buffering.** In every interleaving of updates, readiness changes, drops and the poller
whose values fit their fields: both positions are slots, and nobody is stuck at `unreachable!`; the
slot an update writes is neither the write position, nor the read position, nor the slot the poller
is about to read; and every event delivered carries the token of the latest update at the poller's
deciding step. -/
theorem token_triple_buffering [DecidableEq ι] [DecidableEq α] (s : Tokens ι α J)
    (hs : ReachableIf tokensStep Fitting Tokens.Starts s) :
    (∀ a, Position (s.regs.word a).tokenReadPos ∧ Position (s.regs.word a).tokenWritePos) ∧
      (∀ i, s.regs.threads i ≠ .idle → (∀ a, s.regs.threads i ≠ .enqueue a) →
        (s.regs.threadStep i).isSome = true) ∧
      (∀ a readiness pos, s.regs.hold = .token a readiness pos →
        ((s.regs.nodes a).token pos).isSome = true) ∧
      (∀ i a u state pos, s.regs.threads i = .updateToken a u state pos →
        pos ≠ (s.regs.word a).tokenWritePos ∧ pos ≠ (s.regs.word a).tokenReadPos ∧
          ∀ readiness pos', s.regs.hold = .token a readiness pos' → pos ≠ pos') ∧
      s.delivered.map Prod.fst = s.regs.pushed.map (fun e => (e.1, e.2.1)) ∧
      ∀ e ∈ s.delivered, e.1.2.token = e.2 := by
  have h := tokens_ok hs
  refine ⟨fun a => ⟨h.read a, h.write a⟩, fun i hidle henqueue => ?_, fun a readiness pos hhold => ?_,
    fun i a u state pos hi => ?_, h.pushed, h.delivered⟩
  · exact h.threadStep_isSome hidle henqueue
  · obtain ⟨-, htoken⟩ := h.reading a readiness pos hhold
    rw [htoken]
    rfl
  · have hslot := h.slots i
    rw [hi] at hslot
    refine ⟨hslot.2.2, hslot.2.1, fun readiness pos' hhold he => ?_⟩
    exact hslot.2.1 (he.trans (h.reading a readiness pos' hhold).1)

/-- `set_readiness`, then an `update` with a new token, then `poll`. -/
def updatedNodeOps : List (RegistrationsOp Unit ℕ ℕ) :=
  [.call () (.setReadiness 0 .readable)] ++ List.replicate 3 (.thread ()) ++
    List.replicate 4 (.producer () false) ++
    [.call () (.update 0 ⟨⟨.otherEvent, ⟨5⟩⟩, .readable, .edge, none⟩)] ++
    List.replicate 5 (.thread ()) ++
    [.poll (.poll2 ⟨4, false⟩ (some 0)), .poll (.selected (.ok false 0))] ++
    List.replicate 8 (.poll .consumer) ++ List.replicate 4 .node

/-- The event of that `poll`. -/
theorem token_triple_buffering_updated :
    ∃ s : Tokens Unit ℕ ℕ,
      s.delivered = [((0, ⟨.readable, ⟨.otherEvent, ⟨5⟩⟩⟩), ⟨.otherEvent, ⟨5⟩⟩)] ∧
        ∀ e ∈ s.delivered, e.1.2.token = e.2 := by
  have hstart : Tokens.Starts (⟨oneNode, fun _ => ⟨.tokenEvent, ⟨7⟩⟩, ⟨.tokenEvent, ⟨7⟩⟩, []⟩ :
      Tokens Unit ℕ ℕ) := ⟨oneNode_starts, fun _ => rfl, rfl, rfl⟩
  obtain ⟨s, hs, hdelivered⟩ : ∃ s : Tokens Unit ℕ ℕ, run tokensStep
      ⟨oneNode, fun _ => ⟨.tokenEvent, ⟨7⟩⟩, ⟨.tokenEvent, ⟨7⟩⟩, []⟩ updatedNodeOps = some s ∧
        s.delivered = [((0, ⟨.readable, ⟨.otherEvent, ⟨5⟩⟩⟩), ⟨.otherEvent, ⟨5⟩⟩)] :=
    Option.map_eq_some_iff.mp (by decide)
  have hfits : ∀ op ∈ updatedNodeOps, op.Fits := by decide
  have hreach : ReachableIf tokensStep Fitting Tokens.Starts s :=
    (ReachableIf.start hstart).run (.of_forall fun op hop _ => hfits op hop) hs
  exact ⟨s, hdelivered, (token_triple_buffering s hreach).2.2.2.2.2⟩

end MyMio

import MyMio.Node.Tokens

/-! # One-shot registrations

`ReadinessQueue::poll` takes the interest out of a one-shot node with the event it decides on, but only
inside the branch for edge-triggered nodes; `ioevent_to_epoll` passes `EPOLLONESHOT` on whatever the
trigger. A one-shot node that is not edge-triggered is put back like any other and fires again.

With both options the interest is a credit for one event (`oneshot_fires_once`): once it is gone nothing
before the next update gives it back, except a `set_readiness` whose value reaches the interest.
-/

namespace MyMio
set_option autoImplicit false

open BrokenQueue StepSystem

universe u v w

variable {ι : Type v} {α : Type u} {J : Type w}

/-! ## Events and the credit for them -/

/-- The node whose event the poller has decided on and not yet pushed. -/
def Hold.delivers : Hold α → Option α
  | .token a _ _ | .push a _ => some a
  | _ => none

namespace Registrations
variable [DecidableEq α]

/-- The events of a node that have been pushed or decided on. -/
def fired (s : Registrations ι α J) (a : α) : ℕ :=
  s.pushed.countP (fun e => decide (e.1 = a)) + if s.hold.delivers = some a then 1 else 0

/-- Whether a node asks for anything. -/
def armed (s : Registrations ι α J) (a : α) : ℕ := if (s.word a).interest.isEmpty then 0 else 1

end Registrations

/-- The word is of an edge-triggered one-shot node. -/
def ReadinessState.EdgeOneshot (state : ReadinessState) : Prop :=
  state.pollOpt.isEdge = true ∧ state.pollOpt.isOneshot = true

/-! ## The word -/

namespace ReadinessState
variable {s : ReadinessState}

/-- An option lies in the options' field. -/
theorem contains_of_masked {x o : Usize} (ho : Field.pollOpt.Holds o)
    (h : (PollOpt.mk x).contains ⟨o⟩ = true) :
    (PollOpt.mk (x &&& MASK_4)).contains ⟨o⟩ = true := by
  have hmask : o &&& MASK_4 = o := ho.and_mask
  have hx : x &&& o = o := PollOpt.mk.inj (beq_iff_eq.mp h)
  apply beq_iff_eq.mpr
  show PollOpt.mk (x &&& MASK_4 &&& o) = ⟨o⟩
  rw [BitVec.and_assoc, BitVec.and_comm MASK_4, hmask, hx]

/-- Bits that fall on the options take no option away. -/
theorem contains_or {x y o : Usize} (h : (PollOpt.mk x).contains ⟨o⟩ = true) :
    (PollOpt.mk (x ||| y)).contains ⟨o⟩ = true := by
  have hx : x &&& o = o := PollOpt.mk.inj (beq_iff_eq.mp h)
  apply beq_iff_eq.mpr
  show PollOpt.mk ((x ||| y) &&& o) = ⟨o⟩
  apply congrArg PollOpt.mk
  apply BitVec.eq_of_getLsbD_eq
  intro i _
  have hbit := congrArg (·.getLsbD i) hx
  simp only [BitVec.getLsbD_and, BitVec.getLsbD_or] at hbit ⊢
  cases hxi : x.getLsbD i <;> cases hoi : o.getLsbD i <;> simp_all

theorem EdgeOneshot.of_field {s' : ReadinessState} (h : s.EdgeOneshot)
    (hfield : s'.field .pollOpt = s.field .pollOpt) : s'.EdgeOneshot := by
  unfold EdgeOneshot at *
  rw [pollOpt_eq, hfield]
  exact h

theorem edgeOneshot_afterUpdate (s : ReadinessState) (pos : Usize) (interest : Ready) {opt : PollOpt}
    (hedge : opt.isEdge = true) (honeshot : opt.isOneshot = true) :
    (s.afterUpdate pos interest opt).EdgeOneshot := by
  have hfield : (s.afterUpdate pos interest opt).field .pollOpt = opt.bits &&& MASK_4 := by
    unfold afterUpdate
    rw [field_queueIfReady _ (by decide)]
    exact field_set_self _ .pollOpt opt.bits
  unfold EdgeOneshot
  rw [pollOpt_eq, hfield]
  exact ⟨contains_of_masked (by decide) hedge, contains_of_masked (by decide) honeshot⟩

theorem EdgeOneshot.afterSetReadiness (h : s.EdgeOneshot) (ready : Ready) :
    (s.afterSetReadiness ready).EdgeOneshot := by
  have hfield : (s.afterSetReadiness ready).field .pollOpt =
      s.field .pollOpt ||| spilled .readiness ready.bits .pollOpt := by
    unfold ReadinessState.afterSetReadiness
    rw [field_queueIfReady _ (by decide)]
    exact s.field_set_of_ne (f := .readiness) (by decide) ready.bits
  unfold EdgeOneshot at *
  rw [pollOpt_eq, hfield]
  rw [pollOpt_eq] at h
  exact ⟨contains_or h.1, contains_or h.2⟩

theorem interest_afterSetReadiness {ready : Ready}
    (hready : spilled .readiness ready.bits .interest = 0) :
    (s.afterSetReadiness ready).interest = s.interest := by
  unfold ReadinessState.afterSetReadiness
  rw [interest_eq, field_queueIfReady _ (by decide)]
  have hfield : (s.setReadiness ready).field .interest =
      s.field .interest ||| spilled .readiness ready.bits .interest :=
    s.field_set_of_ne (f := .readiness) (by decide) ready.bits
  rw [hfield, hready]
  exact congrArg readyFromUsize BitVec.or_zero

theorem interest_afterSetReadiness_ne (ready : Ready) (h : s.interest.isEmpty = false) :
    (s.afterSetReadiness ready).interest.isEmpty = false := by
  have hfield : (s.afterSetReadiness ready).field .interest =
      s.field .interest ||| spilled .readiness ready.bits .interest := by
    unfold ReadinessState.afterSetReadiness
    rw [field_queueIfReady _ (by decide)]
    exact s.field_set_of_ne (f := .readiness) (by decide) ready.bits
  cases hempty : (s.afterSetReadiness ready).interest.isEmpty with
  | false => rfl
  | true =>
    have hnone : (s.afterSetReadiness ready).interest = .empty := beq_iff_eq.mp hempty
    rw [interest_eq, hfield] at hnone
    have hzero := (BitVec.or_eq_zero_iff.mp (Ready.mk.inj hnone)).1
    rw [interest_eq, hzero] at h
    cases h

theorem EdgeOneshot.afterPoll (h : s.EdgeOneshot) : s.afterPoll.EdgeOneshot := by
  apply h.of_field
  rw [afterPoll_eq]
  have hkept : s.consumed.updateTokenReadPos.field .pollOpt = s.consumed.field .pollOpt :=
    s.consumed.field_set_of_holds (f := .tokenRead) (by decide) (Field.holds_get _ .tokenWrite)
  exact hkept.trans (s.field_consumed (by decide) (by decide))

/-- The poller leaves the interest of an edge-triggered one-shot node alone, or takes it with the
event. -/
theorem EdgeOneshot.interest_afterPoll (h : s.EdgeOneshot) :
    s.afterPoll.interest = if s.effectiveReadiness.isEmpty then s.interest else .empty := by
  have hkept : s.consumed.updateTokenReadPos.field .interest = s.consumed.field .interest :=
    s.consumed.field_set_of_holds (f := .tokenRead) (by decide) (Field.holds_get _ .tokenWrite)
  rw [afterPoll_eq, interest_eq, hkept]
  unfold consumed
  rw [if_pos h.1, h.2, Bool.true_and]
  cases hempty : s.effectiveReadiness.isEmpty with
  | true =>
    rw [if_neg (by decide), if_pos rfl, s.field_setDequeued (by decide)]
    rfl
  | false =>
    rw [if_pos (by decide), if_neg (by decide)]
    have hzero : s.setDequeued.disarm.field .interest = 0 &&& MASK_4 := field_set_self _ .interest 0
    rw [hzero]
    rfl

theorem interest_of_effective (h : s.effectiveReadiness.isEmpty = false) :
    s.interest.isEmpty = false := by
  cases hempty : s.interest.isEmpty with
  | false => rfl
  | true =>
    have hnone : s.interest = .empty := beq_iff_eq.mp hempty
    unfold effectiveReadiness at h
    rw [hnone] at h
    have : s.readiness.inter .empty = .empty := congrArg Ready.mk BitVec.and_zero
    rw [this] at h
    cases h

end ReadinessState

/-! ## Runs -/

section Runs
variable [DecidableEq ι] [DecidableEq α] {s s' : Registrations ι α J} {a : α} {i : ι}

/-- The access is not an exchange by which an update of node `a` succeeds, whose word this is, and not
one by which a `set_readiness` gives it an interest when it has none. -/
def Thread.Follows (a : α) (word : ReadinessState) : Thread α J → Prop
  | .setExchange b ready state =>
    b = a → word = state → word.interest.isEmpty = true → spilled .readiness ready.bits .interest = 0
  | .updateExchange b _ state _ => b = a → word ≠ state
  | _ => True

instance (a : α) (word : ReadinessState) (pc : Thread α J) : Decidable (pc.Follows a word) :=
  match pc with
  | .setExchange _ _ _ | .updateExchange _ _ _ _ => inferInstanceAs (Decidable (_ → _))
  | .idle | .setLoad _ _ | .updateLock _ _ | .updateLoad _ _ | .updateToken _ _ _ _
  | .updateUnlock _ _ _ | .updateJob _ _ | .dropOr _ | .enqueue _ => .isTrue trivial

/-- No update of the node succeeds, and no `set_readiness` gives it an interest when it has none. -/
def Following (a : α) (s : Registrations ι α J) : RegistrationsOp ι α J → Prop
  | .thread i => (s.threads i).Follows a (s.word a)
  | _ => True

instance (a : α) (s : Registrations ι α J) (op : RegistrationsOp ι α J) : Decidable (Following a s op) :=
  match op with
  | .thread _ => inferInstanceAs (Decidable (Thread.Follows _ _ _))
  | .call _ _ | .producer _ _ | .poll _ | .node => .isTrue trivial

/-- The node has at most `n` events, one of them still to come while it is armed. -/
structure Spent (a : α) (n : ℕ) (s : Registrations ι α J) : Prop where
  word : (s.word a).EdgeOneshot
  credit : s.fired a + s.armed a ≤ n

omit [DecidableEq ι] in
theorem Spent.of_word {n : ℕ} (h : Spent a n s) (hword : s'.word a = s.word a)
    (hhold : s'.hold = s.hold) (hpushed : s'.pushed = s.pushed) : Spent a n s' := by
  have hcredit := h.credit
  refine ⟨hword ▸ h.word, ?_⟩
  unfold Registrations.fired Registrations.armed at *
  rw [hword, hhold, hpushed]
  exact hcredit

omit [DecidableEq ι] in
theorem Spent.of_armed {n : ℕ} (h : Spent a n s) (hword : (s'.word a).EdgeOneshot)
    (harmed : s'.armed a ≤ s.armed a) (hhold : s'.hold = s.hold) (hpushed : s'.pushed = s.pushed) :
    Spent a n s' := by
  have hcredit := h.credit
  refine ⟨hword, ?_⟩
  unfold Registrations.fired at *
  rw [hhold, hpushed]
  omega

omit [DecidableEq ι] [DecidableEq α] in
/-- A `set_readiness` arms no node that is not armed. -/
theorem armed_signalled {ready : Ready}
    (hspill : (s.word a).interest.isEmpty = true → spilled .readiness ready.bits .interest = 0)
    (hword : s'.word a = (s.word a).afterSetReadiness ready) : s'.armed a ≤ s.armed a := by
  unfold Registrations.armed
  rw [hword]
  cases hempty : (s.word a).interest.isEmpty with
  | true => rw [ReadinessState.interest_afterSetReadiness (hspill hempty), hempty]
  | false => rw [ReadinessState.interest_afterSetReadiness_ne ready hempty]

/-- **An access of a thread** gives no credit. -/
theorem Spent.threadStep {n : ℕ} (h : Spent a n s) (hok : Following a s (.thread i))
    (hs : s.threadStep i = some s') : Spent a n s' := by
  have hframe := threadStep_frame hs
  have hother : (s.threads i).node ≠ some a → Spent a n s' := fun hne =>
    h.of_word (congrArg Node.state (hframe.nodes a hne)) hframe.hold hframe.pushed
  have hnodes : s'.nodes = s.nodes → Spent a n s' := fun he =>
    h.of_word (congrArg Node.state (congrFun he a)) hframe.hold hframe.pushed
  have hupdate : ∀ (b : α) (node : Node J), s'.nodes = Function.update s.nodes b node →
      node.state = s.word b → Spent a n s' := by
    intro b node he hstate
    refine h.of_word ?_ hframe.hold hframe.pushed
    show (s'.nodes a).state = (s.nodes a).state
    rw [he]
    by_cases hb : a = b
    · subst hb
      rw [Function.update_self, hstate]
      rfl
    · rw [Function.update_of_ne hb]
  cases threadStep_move hs with
  | tries _ _ _ hs' | misses _ _ _ _ hs' | keepsToken _ _ _ _ hs' | picksSlot _ _ _ _ _ hs'
  | retries _ _ _ _ _ _ hs' | enqueues _ _ _ _ hs' =>
    exact hnodes (by rw [hs']; rfl)
  | locks b _ _ _ hs' | unlocks b _ _ _ hs' | storesJob b _ _ hs' =>
    subst hs'
    exact hupdate b _ rfl rfl
  | writesToken b u state pos node _ hnode hs' =>
    exact hupdate b node (by rw [hs']; rfl) (storeToken_spec hnode).1
  | signals b ready next hi hnext hs' =>
    by_cases hb : b = a
    · subst hb
      have hspill : (s.word b).interest.isEmpty = true → spilled .readiness ready.bits .interest = 0 := by
        have hok' : (s.threads i).Follows b (s.word b) := hok
        rw [hi] at hok'
        exact hok' rfl rfl
      have hword : s'.word b = (s.word b).afterSetReadiness ready := by
        show (s'.nodes b).state = _
        rw [hs', show ((s.store b next).goto i _).nodes = (s.store b next).nodes from rfl,
          nodes_store_update, Function.update_self]
        exact hnext
      exact h.of_armed (hword ▸ h.word.afterSetReadiness ready) (armed_signalled hspill hword)
        hframe.hold hframe.pushed
    · exact hother (by rw [hi]; exact fun he => hb (Option.some.inj he))
  | updates b u pos next hi _ hs' =>
    have hb : b ≠ a := by
      intro hb
      have hok' : (s.threads i).Follows a (s.word a) := hok
      rw [hi] at hok'
      exact hok' hb (by rw [hb])
    exact hother (by rw [hi]; exact fun he => hb (Option.some.inj he))
  | drops b hi hs' =>
    by_cases hb : b = a
    · subst hb
      have hword : s'.word b = (s.word b).flagAsDropped := by
        show (s'.nodes b).state = _
        rw [hs']
        show (Function.update s.nodes b _ b).state = _
        rw [Function.update_self]
      refine h.of_armed ?_ (Nat.le_of_eq ?_) hframe.hold hframe.pushed
      · rw [hword]
        exact h.word.of_field (ReadinessState.field_flagAsDropped _ (by decide) (by decide))
      · unfold Registrations.armed
        rw [hword, ReadinessState.interest_eq,
          ReadinessState.field_flagAsDropped _ (by decide) (by decide)]
        rfl
    · exact hother (by rw [hi]; exact fun he => hb (Option.some.inj he))

omit [DecidableEq ι] in
theorem fired_of_delivers {n : ℕ} (hpushed : s'.pushed = s.pushed)
    (hdelivers : s'.hold.delivers = s.hold.delivers) (h : s.fired a = n) : s'.fired a = n := by
  unfold Registrations.fired at *
  rw [hpushed, hdelivers]
  exact h

/-- **An access of the poller** uses the credit up when it decides on an event. -/
theorem Spent.nodeStep {n : ℕ} (h : Spent a n s) (howned : s.Owned) (hs : s.nodeStep = some s') :
    Spent a n s' := by
  obtain ⟨-, hmove⟩ := nodeStep_move howned hs
  have hload : s.hold = .load ∨ (∃ state, s.hold = .exchange state) → s.hold.delivers = none := by
    rintro (hl | ⟨state, hl⟩) <;> rw [hl] <;> rfl
  have hcredit := h.credit
  cases hmove with
  | releases b _ _ hl _ hnodes hhold _ _ hpushed _ | examines b _ _ hl _ hnodes hhold _ _ hpushed _ =>
    have hword : s'.word a = s.word a := congrArg Node.state (congrFun hnodes a)
    refine ⟨hword ▸ h.word, ?_⟩
    have hfired : s'.fired a = s.fired a :=
      fired_of_delivers hpushed (by rw [hload hl, hhold]; rfl) rfl
    unfold Registrations.armed at *
    rw [hfired, hword]
    exact hcredit
  | reads b readiness pos token hl _ hnodes hhold _ hpushed _ =>
    have hword : s'.word a = s.word a := congrArg Node.state (congrFun hnodes a)
    refine ⟨hword ▸ h.word, ?_⟩
    have hfired : s'.fired a = s.fired a := fired_of_delivers hpushed (by rw [hl, hhold]; rfl) rfl
    unfold Registrations.armed at *
    rw [hfired, hword]
    exact hcredit
  | clears b hl hnodes hhold _ hpushed _ =>
    have hword : s'.word a = s.word a := by
      show (s'.nodes a).state = (s.nodes a).state
      rw [hnodes]
      by_cases hb : a = b
      · subst hb
        rw [Function.update_self]
      · rw [Function.update_of_ne hb]
    refine ⟨hword ▸ h.word, ?_⟩
    have hfired : s'.fired a = s.fired a := fired_of_delivers hpushed (by rw [hl, hhold]; rfl) rfl
    unfold Registrations.armed at *
    rw [hfired, hword]
    exact hcredit
  | pushes b event hl hnodes hhold _ hpushed _ =>
    have hword : s'.word a = s.word a := congrArg Node.state (congrFun hnodes a)
    refine ⟨hword ▸ h.word, ?_⟩
    have hfired : s'.fired a = s.fired a := by
      unfold Registrations.fired
      rw [hpushed, hhold, hl, List.countP_append]
      by_cases hb : b = a <;> simp [Hold.delivers, hb]
    unfold Registrations.armed at *
    rw [hfired, hword]
    exact hcredit
  | settles b _ _ hl _ hnodes hhold _ _ hpushed _ =>
    have hnone := hload hl
    by_cases hb : b = a
    · subst hb
      have hword : s'.word b = (s.word b).afterPoll := by
        show (s'.nodes b).state = _
        rw [hnodes, Function.update_self]
      refine ⟨hword ▸ h.word.afterPoll, ?_⟩
      unfold Registrations.armed Registrations.fired at *
      rw [hword, h.word.interest_afterPoll, hpushed, hhold]
      rw [hnone] at hcredit
      cases hready : (s.word b).effectiveReadiness.isEmpty with
      | true => simpa [Hold.delivers] using hcredit
      | false =>
        have harmed := ReadinessState.interest_of_effective hready
        rw [harmed] at hcredit
        simpa [Hold.delivers, Ready.isEmpty] using hcredit
    · have hword : s'.word a = s.word a := by
        show (s'.nodes a).state = (s.nodes a).state
        rw [hnodes, Function.update_of_ne (Ne.symm hb)]
      refine ⟨hword ▸ h.word, ?_⟩
      have hfired : s'.fired a = s.fired a := by
        unfold Registrations.fired
        rw [hpushed, hnone, hhold]
        split <;> simp [Hold.delivers, hb]
      unfold Registrations.armed at *
      rw [hfired, hword]
      exact hcredit

/-- **A step** gives no credit. -/
theorem registrationsStep_spent {n : ℕ} {op : RegistrationsOp ι α J} (h : Spent a n s) (howned : s.Owned)
    (hok : Following a s op) (hs : registrationsStep s op = some s') : Spent a n s' := by
  cases op with
  | call i c =>
    simp only [registrationsStep] at hs
    split at hs
    · obtain rfl := Option.some.inj hs
      exact h.of_word rfl rfl rfl
    · cases hs
  | thread i => exact h.threadStep hok hs
  | producer i wouldBlock =>
    obtain ⟨p, -, rfl⟩ := Option.map_eq_some_iff.mp hs
    exact h.of_word rfl rfl rfl
  | poll op =>
    simp only [registrationsStep] at hs
    split at hs
    · obtain ⟨p, -, rfl⟩ := Option.map_eq_some_iff.mp hs
      exact h.of_word rfl rfl rfl
    · cases hs
  | node => exact h.nodeStep howned hs

theorem run_spent {n : ℕ} {ops : List (RegistrationsOp ι α J)} (h : Spent a n s) (howned : s.Owned)
    (hok : Along registrationsStep (Following a) s ops)
    (hs : run registrationsStep s ops = some s') : Spent a n s' :=
  (hok.invariant (P := fun m => Spent a n m ∧ m.Owned) (fun _ _ _ ⟨h, howned⟩ hok hstep =>
    ⟨registrationsStep_spent h howned hok hstep, registrationsStep_owned howned hstep⟩) ⟨h, howned⟩ hs).1

end Runs

/-- **An edge-triggered one-shot node fires once.** From the exchange of an update with both options
on, whatever the other threads and the poller do, at most one event of the node is decided on, as
long as no update of it succeeds and no `set_readiness` has bits that fall on its interest when it has
none. -/
theorem oneshot_fires_once [DecidableEq ι] [DecidableEq α] (a : α) (s₀ s₁ s : Registrations ι α J)
    (hs₀ : Reachable registrationsStep Registrations.Starts s₀) (i : ι) (u : Update J) (pos : Usize)
    (hi : s₀.threads i = .updateExchange a u (s₀.word a) pos) (hedge : u.opt.isEdge = true)
    (honeshot : u.opt.isOneshot = true) (hs₁ : registrationsStep s₀ (.thread i) = some s₁)
    (ops : List (RegistrationsOp ι α J)) (hok : Along registrationsStep (Following a) s₁ ops)
    (hs : run registrationsStep s₁ ops = some s) : s.fired a ≤ s₁.fired a + 1 := by
  have howned := registrationsStep_owned (registrations_owned hs₀) hs₁
  have hword : s₁.word a = (s₀.word a).afterUpdate pos u.interest u.opt := by
    have hstep : s₀.threadStep i = some s₁ := hs₁
    simp only [Registrations.threadStep, hi, if_true] at hstep
    obtain rfl := Option.some.inj hstep
    show (((s₀.store a _).goto i _).nodes a).state = _
    rw [show ((s₀.store a _).goto i _).nodes = (s₀.store a _).nodes from rfl, nodes_store_update,
      Function.update_self]
  have hspent : Spent a (s₁.fired a + 1) s₁ := by
    refine ⟨hword ▸ ReadinessState.edgeOneshot_afterUpdate _ _ _ hedge honeshot, ?_⟩
    unfold Registrations.armed
    split <;> omega
  have hcredit := (run_spent hspent howned hok hs).credit
  omega

/-- An update of the one node with these options. -/
def optUpdate (opt : PollOpt) : Update ℕ := ⟨⟨.otherEvent, ⟨5⟩⟩, .readable, opt, none⟩

/-- The update up to its exchange. -/
def updateOps (opt : PollOpt) : List (RegistrationsOp Unit ℕ ℕ) :=
  .call () (.update 0 (optUpdate opt)) :: List.replicate 3 (.thread ())

/-- The end of the update and a `set_readiness`. -/
def signalOps : List (RegistrationsOp Unit ℕ ℕ) :=
  .thread () :: .call () (.setReadiness 0 .readable) :: List.replicate 3 (.thread ()) ++
    List.replicate 4 (.producer () false)

/-- `n` accesses of the poller to the queue and then `m` to the node. -/
def pollerOps (n m : ℕ) : List (RegistrationsOp Unit ℕ ℕ) :=
  List.replicate n (.poll .consumer) ++ List.replicate m .node

/-- A call of `poll` up to the drain. -/
def callPollOps : List (RegistrationsOp Unit ℕ ℕ) :=
  [.poll (.poll2 ⟨4, false⟩ (some 0)), .poll (.selected (.ok false 0))]

/-- A `poll` that delivers the event. -/
def firstPollOps : List (RegistrationsOp Unit ℕ ℕ) := signalOps ++ callPollOps ++ pollerOps 8 5

/-- With `edge` and `oneshot`. -/
theorem oneshot_fires_once_edge :
    ∃ s₁ s : Registrations Unit ℕ ℕ, s₁.fired 0 = 0 ∧ s.fired 0 = 1 ∧ s.fired 0 ≤ s₁.fired 0 + 1 := by
  obtain ⟨s₀, hs₀, hpc⟩ : ∃ s₀ : Registrations Unit ℕ ℕ,
      run registrationsStep oneNode (updateOps ⟨0b0101⟩) = some s₀ ∧
        s₀.threads () = .updateExchange 0 (optUpdate ⟨0b0101⟩) (s₀.word 0) 1 := ⟨_, rfl, rfl⟩
  obtain ⟨s, hall, hfired⟩ : ∃ s : Registrations Unit ℕ ℕ,
      run registrationsStep oneNode (updateOps ⟨0b0101⟩ ++ .thread () :: firstPollOps) = some s ∧
        s.fired 0 = 1 := Option.map_eq_some_iff.mp (by decide +kernel)
  rw [run_append hs₀] at hall
  obtain ⟨s₁, hs₁, hs⟩ := run_cons hall
  have hexchanged : run registrationsStep oneNode (updateOps ⟨0b0101⟩ ++ [.thread ()]) = some s₁ := by
    rw [run_append hs₀, run_cons_eq hs₁, run_nil]
  have hquiet : (run registrationsStep oneNode (updateOps ⟨0b0101⟩ ++ [.thread ()])).all (fun s₁ =>
      decide (s₁.fired 0 = 0 ∧ Along registrationsStep (Following 0) s₁ firstPollOps)) = true := by
    decide +kernel
  rw [hexchanged] at hquiet
  obtain ⟨hfired₁, hok⟩ := of_decide_eq_true hquiet
  exact ⟨s₁, s, hfired₁, hfired, oneshot_fires_once 0 s₀ s₁ s ((Reachable.start oneNode_starts).run hs₀)
    () (optUpdate ⟨0b0101⟩) 1 hpc rfl rfl hs₁ firstPollOps hok hs⟩

/-- The end of the update, one `set_readiness`, and two calls of `poll`. -/
def twoPollsOps : List (RegistrationsOp Unit ℕ ℕ) :=
  signalOps ++ callPollOps ++ pollerOps 8 2 ++ pollerOps 4 3 ++ pollerOps 2 0 ++
    .poll (.dequeued false false) :: callPollOps ++ pollerOps 7 1 ++ pollerOps 4 3

/-- With `oneshot` alone: one `set_readiness` after the update, and each of two calls of `poll` delivers
an event. -/
theorem oneshot_fires_twice :
    ∃ s₀ s₁ s : Registrations Unit ℕ ℕ, Reachable registrationsStep Registrations.Starts s₀ ∧
      s₀.threads () = .updateExchange 0 (optUpdate .oneshot) (s₀.word 0) 1 ∧
      (optUpdate .oneshot).opt.isOneshot = true ∧ registrationsStep s₀ (.thread ()) = some s₁ ∧
      s₁.pushed = [] ∧ s₁.hold.delivers = none ∧
      run registrationsStep s₁ twoPollsOps = some s ∧
      Along registrationsStep (Following 0) s₁ twoPollsOps ∧
      s.pushed.map Prod.fst = [0, 0] := by
  obtain ⟨s₀, hs₀, hpc⟩ : ∃ s₀ : Registrations Unit ℕ ℕ,
      run registrationsStep oneNode (updateOps .oneshot) = some s₀ ∧
        s₀.threads () = .updateExchange 0 (optUpdate .oneshot) (s₀.word 0) 1 := ⟨_, rfl, rfl⟩
  obtain ⟨s, hall, hpushed⟩ : ∃ s : Registrations Unit ℕ ℕ,
      run registrationsStep oneNode (updateOps .oneshot ++ .thread () :: twoPollsOps) = some s ∧
        s.pushed.map Prod.fst = [0, 0] := Option.map_eq_some_iff.mp (by decide +kernel)
  rw [run_append hs₀] at hall
  obtain ⟨s₁, hs₁, hs⟩ := run_cons hall
  have hexchanged : run registrationsStep oneNode (updateOps .oneshot ++ [.thread ()]) = some s₁ := by
    rw [run_append hs₀, run_cons_eq hs₁, run_nil]
  have hquiet : (run registrationsStep oneNode (updateOps .oneshot ++ [.thread ()])).all (fun s₁ =>
      decide (s₁.pushed.map Prod.fst = [] ∧ s₁.hold.delivers = none ∧
        Along registrationsStep (Following 0) s₁ twoPollsOps)) = true := by decide +kernel
  rw [hexchanged] at hquiet
  obtain ⟨hpushed₁, hhold₁, hok⟩ := of_decide_eq_true hquiet
  exact ⟨s₀, s₁, s, (Reachable.start oneNode_starts).run hs₀, hpc, rfl, hs₁, List.map_eq_nil_iff.mp hpushed₁,
    hhold₁, hs, hok, hpushed⟩

end MyMio

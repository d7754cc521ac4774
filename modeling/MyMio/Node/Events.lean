import MyMio.Node.Dropping
import MyMio.Node.Oneshot
import MyMio.Node.Drain
import MyMio.Node.Delivery

/-! # Which events a node can have

Only one access decides on an event: the poller's, which settles the word of the node it has dequeued,
and only if there is effective readiness (`registrationsStep_events`). Three things follow for every run.
For a node that asks for nothing, or has been dropped, no more events are decided on, and at most the one
that was decided on before is still pushed (`deregistered_silent`, `dropped_silent`). And the events of an
edge-triggered node are paid for, each by a `set_readiness` or `update` of its own that left the node with
effective readiness (`edge_events_paid`).
-/

namespace MyMio
set_option autoImplicit false

open BitField BrokenQueue StepSystem

universe u v w

variable {ι : Type v} {α : Type u} {J : Type w}

/-! ## One access -/

section Access
variable [DecidableEq ι] [DecidableEq α] {s s' : Registrations ι α J} {a : α} {i : ι}

/-- What an access of the poller to a node makes of the word and the events of node `a`. -/
inductive EventMove (s s' : Registrations ι α J) (a : α) : Prop
  | stays : s'.word a = s.word a → s'.fired a = s.fired a → EventMove s s' a
  | settles : s.holding = some a → (s.word a).isDropped = false ∨ s.hold = .exchange (s.word a) →
      s'.word a = (s.word a).afterPoll →
      (s'.fired a = s.fired a + if (s.word a).effectiveReadiness.isEmpty then 0 else 1) →
      EventMove s s' a

omit [DecidableEq ι] in
theorem fired_congr (hpushed : s'.pushed = s.pushed) (hdelivers : s'.hold.delivers = s.hold.delivers) :
    s'.fired a = s.fired a := fired_of_delivers hpushed hdelivers rfl

omit [DecidableEq ι] [DecidableEq α] in
theorem delivers_of_load (h : s.hold = .load ∨ ∃ state, s.hold = .exchange state) :
    s.hold.delivers = none := by
  rcases h with h | ⟨state, h⟩ <;> rw [h] <;> rfl

omit [DecidableEq ι] in
theorem NodeMove.events (h : NodeMove s s') (a : α) : EventMove s s' a := by
  cases h with
  | releases b _ _ hl _ hnodes hhold _ _ hpushed _ | examines b _ _ hl _ hnodes hhold _ _ hpushed _ =>
    refine .stays (congrArg Node.state (congrFun hnodes a)) (fired_congr hpushed ?_)
    rw [delivers_of_load hl, hhold]
    rfl
  | reads b readiness pos token hl _ hnodes hhold _ hpushed _ =>
    refine .stays (congrArg Node.state (congrFun hnodes a)) (fired_congr hpushed ?_)
    rw [hl, hhold]
    rfl
  | clears b hl hnodes hhold _ hpushed _ =>
    refine .stays ?_ (fired_congr hpushed (by rw [hl, hhold]; rfl))
    show (s'.nodes a).state = (s.nodes a).state
    rw [hnodes]
    by_cases hb : a = b
    · subst hb
      rw [Function.update_self]
    · rw [Function.update_of_ne hb]
  | pushes b event hl hnodes hhold _ hpushed _ =>
    refine .stays (congrArg Node.state (congrFun hnodes a)) ?_
    unfold Registrations.fired
    rw [hpushed, hhold, hl, List.countP_append]
    by_cases hb : b = a <;> simp [Hold.delivers, hb]
  | settles b hholding _ hl hlive hnodes hhold _ _ hpushed _ =>
    have hnone := delivers_of_load hl
    by_cases hb : b = a
    · subst hb
      refine .settles hholding hlive ?_ ?_
      · show (s'.nodes b).state = _
        rw [hnodes, Function.update_self]
      · unfold Registrations.fired
        rw [hpushed, hhold, hnone]
        cases (s.word b).effectiveReadiness.isEmpty <;> simp [Hold.delivers]
    · refine .stays ?_ ?_
      · show (s'.nodes a).state = (s.nodes a).state
        rw [hnodes, Function.update_of_ne (Ne.symm hb)]
      · unfold Registrations.fired
        rw [hpushed, hnone, hhold]
        split <;> simp [Hold.delivers, hb]

theorem registrationsStep_hold {op : RegistrationsOp ι α J} (hop : op ≠ .node)
    (hs : registrationsStep s op = some s') : s'.hold = s.hold ∧ s'.pushed = s.pushed := by
  cases op with
  | call i c =>
    simp only [registrationsStep] at hs
    split at hs
    · obtain rfl := Option.some.inj hs
      exact ⟨rfl, rfl⟩
    · cases hs
  | thread i =>
    have hframe := threadStep_frame hs
    exact ⟨hframe.hold, hframe.pushed⟩
  | producer i wouldBlock =>
    obtain ⟨p, -, rfl⟩ := Option.map_eq_some_iff.mp hs
    exact ⟨rfl, rfl⟩
  | poll op =>
    simp only [registrationsStep] at hs
    split at hs
    · obtain ⟨p, -, rfl⟩ := Option.map_eq_some_iff.mp hs
      exact ⟨rfl, rfl⟩
    · cases hs
  | node => exact absurd rfl hop

inductive StepMove (s s' : Registrations ι α J) (op : RegistrationsOp ι α J) (a : α) : Prop
  | thread (i : ι) : op = .thread i → WordMove s s' i a → s'.fired a = s.fired a → StepMove s s' op a
  | node : op = .node → EventMove s s' a → StepMove s s' op a
  | stays : (∀ i, op ≠ .thread i) → op ≠ .node → s'.word a = s.word a → s'.fired a = s.fired a →
      StepMove s s' op a

/-- **Only the poller's own access decides on an event.** -/
theorem registrationsStep_events {op : RegistrationsOp ι α J} (howned : s.Owned)
    (hs : registrationsStep s op = some s') (a : α) : StepMove s s' op a := by
  have hfired : op ≠ .node → s'.fired a = s.fired a := fun hop => by
    obtain ⟨hhold, hpushed⟩ := registrationsStep_hold hop hs
    exact fired_congr hpushed (congrArg Hold.delivers hhold)
  cases op with
  | call i c =>
    refine .stays (by simp) (by simp) ?_ (hfired (by simp))
    simp only [registrationsStep] at hs
    split at hs
    · obtain rfl := Option.some.inj hs
      rfl
    · cases hs
  | thread i => exact .thread i rfl (threadStep_word hs a) (hfired (by simp))
  | producer i wouldBlock =>
    refine .stays (by simp) (by simp) ?_ (hfired (by simp))
    obtain ⟨p, -, rfl⟩ := Option.map_eq_some_iff.mp hs
    rfl
  | poll op =>
    refine .stays (by simp) (by simp) ?_ (hfired (by simp))
    simp only [registrationsStep] at hs
    split at hs
    · obtain ⟨p, -, rfl⟩ := Option.map_eq_some_iff.mp hs
      rfl
    · cases hs
  | node => exact .node rfl ((nodeStep_move howned hs).2.events a)

/-- The poller only goes on with a word that it has seen without the dropped flag. -/
theorem registrationsStep_examined {op : RegistrationsOp ι α J} (howned : s.Owned)
    (h : s.Examined) (hs : registrationsStep s op = some s') : s'.Examined := by
  by_cases hop : op = .node
  · subst hop
    exact (nodeStep_move howned hs).2.examined
  · exact fun state hstate => h state ((registrationsStep_hold hop hs).1 ▸ hstate)

omit [DecidableEq ι] [DecidableEq α] in
/-- What the poller settles is not dropped. -/
theorem Registrations.Examined.live (h : s.Examined)
    (hlive : (s.word a).isDropped = false ∨ s.hold = .exchange (s.word a)) :
    (s.word a).isDropped = false := hlive.elim id (h _)

theorem registrations_examined (hs : Reachable registrationsStep Registrations.Starts s) :
    s.Owned ∧ s.Examined :=
  hs.invariant (P := fun s => s.Owned ∧ s.Examined)
    (fun s hinit => ⟨hinit.owned, fun state hstate => by rw [hinit.hold] at hstate; cases hstate⟩)
    fun _ _ _ ⟨howned, h⟩ hstep =>
      ⟨registrationsStep_owned howned hstep, registrationsStep_examined howned h hstep⟩

end Access

/-! ## Nodes without events -/

namespace ReadinessState
variable {s : ReadinessState}

theorem effective_of_interest (h : s.interest = .empty) : s.effectiveReadiness.isEmpty = true := by
  cases hready : s.effectiveReadiness.isEmpty with
  | true => rfl
  | false =>
    have hsome := interest_of_effective hready
    rw [h] at hsome
    cases hsome

/-- The poller asks for no more than the node did. -/
theorem interest_afterPoll (h : s.interest = .empty) : s.afterPoll.interest = .empty := by
  have hkept : s.consumed.updateTokenReadPos.field .interest = s.consumed.field .interest :=
    s.consumed.field_set_of_holds (f := .tokenRead) (by decide) (Field.holds_get _ .tokenWrite)
  have hdequeued : s.setDequeued.interest = .empty := by
    rw [interest_eq, s.field_setDequeued (by decide)]
    exact h
  rw [afterPoll_eq, interest_eq, hkept]
  unfold consumed
  rw [effective_of_interest h]
  simp only [Bool.not_true, Bool.and_false, Bool.false_eq_true, if_false, if_true, ite_self]
  exact hdequeued

/-- A value spills upwards only. -/
theorem spilled_of_below {f g : Field} (h : ∀ i, g.mask.getLsbD i = true → g.shift + i < f.shift)
    (val : Usize) : spilled f val g = 0 := by
  apply BitVec.eq_of_getLsbD_eq
  intro i _
  unfold spilled
  rw [getLsbD_get]
  cases hi : g.mask.getLsbD i with
  | false => simp
  | true => simp [spill, h i hi]

theorem interest_afterUpdate (s : ReadinessState) (pos : Usize) {interest : Ready} (opt : PollOpt)
    (h : interest = .empty) : (s.afterUpdate pos interest opt).interest = .empty := by
  subst h
  have hset : (((s.setTokenWritePos pos).setInterest .empty).setPollOpt opt).field .interest =
      ((s.setTokenWritePos pos).setInterest .empty).field .interest |||
        spilled .pollOpt opt.bits .interest :=
    field_set_of_ne _ (f := .pollOpt) (by decide) opt.bits
  have hself : ((s.setTokenWritePos pos).setInterest .empty).field .interest = 0 &&& MASK_4 :=
    field_set_self _ .interest 0
  have hbelow : ∀ i, Field.interest.mask.getLsbD i = true →
      Field.interest.shift + i < Field.pollOpt.shift := fun i hi => by
    have hlt : i < 4 := by
      rw [show Field.interest.mask = MASK_4 from rfl, getLsbD_mask_4] at hi
      exact of_decide_eq_true hi
    show INTEREST_SHIFT + i < POLL_OPT_SHIFT
    unfold INTEREST_SHIFT POLL_OPT_SHIFT
    omega
  unfold afterUpdate
  rw [interest_eq, field_queueIfReady _ (by decide), hset, hself, spilled_of_below hbelow]
  rfl

end ReadinessState

section Silence
variable [DecidableEq ι] [DecidableEq α] {s s' : Registrations ι α J} {a : α}

/-- A word no event comes from. -/
def ReadinessState.Silent (word : ReadinessState) : Prop :=
  word.isDropped = true ∨ word.interest = .empty

omit [DecidableEq ι] in
theorem EventMove.silent (h : EventMove s s' a) (hexamined : s.Examined) (hword : (s.word a).Silent) :
    s'.fired a = s.fired a ∧ ((s.word a).isDropped = true → (s'.word a).isDropped = true) ∧
      (s'.word a).Silent := by
  cases h with
  | stays hsame hfired =>
    rw [hsame]
    exact ⟨hfired, id, hword⟩
  | settles _ hlive hsame hfired =>
    have hlive := hexamined.live hlive
    have hinterest : (s.word a).interest = .empty := hword.resolve_left (by rw [hlive]; decide)
    rw [ReadinessState.effective_of_interest hinterest] at hfired
    refine ⟨hfired, fun hdropped => ?_, .inr ?_⟩
    · rw [hlive] at hdropped
      cases hdropped
    · rw [hsame]
      exact ReadinessState.interest_afterPoll hinterest

/-- A step leaves a dropped node dropped and without a further event. -/
theorem registrationsStep_dropped {op : RegistrationsOp ι α J} (howned : s.Owned)
    (hexamined : s.Examined) (hs : registrationsStep s op = some s')
    (hword : (s.word a).isDropped = true) : (s'.word a).isDropped = true ∧ s'.fired a = s.fired a := by
  cases registrationsStep_events howned hs a with
  | thread i _ hmove hfired =>
    refine ⟨?_, hfired⟩
    cases hmove with
    | stays hsame => rw [hsame, hword]
    | signals ready _ hsame =>
      rw [hsame]
      exact ReadinessState.isDropped_afterSetReadiness ready hword
    | updates u pos _ hsame =>
      rw [hsame]
      exact ReadinessState.isDropped_afterUpdate pos u.interest u.opt hword
    | drops _ hsame =>
      rw [hsame]
      exact ReadinessState.isDropped_flagAsDropped _
  | node _ hmove =>
    obtain ⟨hfired, hdropped, -⟩ := hmove.silent hexamined (.inl hword)
    exact ⟨hdropped hword, hfired⟩
  | stays _ _ hsame hfired => exact ⟨hsame ▸ hword, hfired⟩

/-- If this is an exchange on node `a`, whose word this is, that succeeds, it is of an update that asks for
nothing, or of a `set_readiness` with no bits that fall on the interest. -/
def Thread.AsksNothing (a : α) (word : ReadinessState) : Thread α J → Prop
  | .setExchange b ready state => b = a → word = state → spilled .readiness ready.bits .interest = 0
  | .updateExchange b u state _ => b = a → word = state → u.interest = .empty
  | _ => True

instance (a : α) (word : ReadinessState) (pc : Thread α J) : Decidable (pc.AsksNothing a word) :=
  match pc with
  | .setExchange _ _ _ | .updateExchange _ _ _ _ => inferInstanceAs (Decidable (_ → _ → _))
  | .idle | .setLoad _ _ | .updateLock _ _ | .updateLoad _ _ | .updateToken _ _ _ _
  | .updateUnlock _ _ _ | .updateJob _ _ | .dropOr _ | .enqueue _ => .isTrue trivial

/-- Nobody makes the node ask for anything. -/
def Unasked (a : α) (s : Registrations ι α J) : RegistrationsOp ι α J → Prop
  | .thread i => (s.threads i).AsksNothing a (s.word a)
  | _ => True

instance (a : α) (s : Registrations ι α J) (op : RegistrationsOp ι α J) : Decidable (Unasked a s op) :=
  match op with
  | .thread _ => inferInstanceAs (Decidable (Thread.AsksNothing _ _ _))
  | .call _ _ | .producer _ _ | .poll _ | .node => .isTrue trivial

/-- A step leaves a node that asks for nothing so and without a further event, unless it makes it ask. -/
theorem registrationsStep_silent {op : RegistrationsOp ι α J} (howned : s.Owned)
    (hexamined : s.Examined) (hok : Unasked a s op) (hs : registrationsStep s op = some s')
    (hword : (s.word a).Silent) : (s'.word a).Silent ∧ s'.fired a = s.fired a := by
  rcases hword with hdropped | hinterest
  · obtain ⟨hdropped', hfired⟩ := registrationsStep_dropped howned hexamined hs hdropped
    exact ⟨.inl hdropped', hfired⟩
  cases registrationsStep_events howned hs a with
  | thread i hop hmove hfired =>
    subst hop
    have hok' : (s.threads i).AsksNothing a (s.word a) := hok
    refine ⟨?_, hfired⟩
    cases hmove with
    | stays hsame =>
      rw [hsame]
      exact .inr hinterest
    | signals ready hi hsame =>
      rw [hi] at hok'
      rw [hsame]
      exact .inr ((ReadinessState.interest_afterSetReadiness (hok' rfl rfl)).trans hinterest)
    | updates u pos hi hsame =>
      rw [hi] at hok'
      rw [hsame]
      exact .inr (ReadinessState.interest_afterUpdate _ _ _ (hok' rfl rfl))
    | drops _ hsame =>
      rw [hsame]
      exact .inl (ReadinessState.isDropped_flagAsDropped _)
  | node _ hmove =>
    obtain ⟨hfired, -, hsilent⟩ := hmove.silent hexamined (.inr hinterest)
    exact ⟨hsilent, hfired⟩
  | stays _ _ hsame hfired => exact ⟨.inr (hsame ▸ hinterest), hfired⟩

/-- The events of a node that have been pushed. -/
def Registrations.reported (s : Registrations ι α J) (a : α) : ℕ :=
  s.pushed.countP fun e => decide (e.1 = a)

omit [DecidableEq ι] in
/-- When no more events are decided on, at most the one already decided on is pushed. -/
theorem reported_le (hfired : s'.fired a = s.fired a) :
    s'.reported a ≤ s.reported a + if s.hold.delivers = some a then 1 else 0 := by
  unfold Registrations.fired at hfired
  unfold Registrations.reported
  omega

theorem run_silent (ok : Registrations ι α J → RegistrationsOp ι α J → Prop) (P : ReadinessState → Prop)
    (hstep : ∀ s op s', s.Owned ∧ s.Examined → ok s op → registrationsStep s op = some s' →
      P (s.word a) → P (s'.word a) ∧ s'.fired a = s.fired a)
    (hreach : Reachable registrationsStep Registrations.Starts s) (hP : P (s.word a))
    {ops : List (RegistrationsOp ι α J)} (hok : Along registrationsStep ok s ops)
    (hs : run registrationsStep s ops = some s') : s'.fired a = s.fired a := by
  refine (hok.invariant (P := fun m => Reachable registrationsStep Registrations.Starts m ∧ P (m.word a) ∧
    m.fired a = s.fired a) (fun m op m' ⟨hreach, hP, hfired⟩ hok hm => ?_) ⟨hreach, hP, rfl⟩ hs).2.2
  obtain ⟨hP', hfired'⟩ := hstep m op m' (registrations_examined hreach) hok hm hP
  exact ⟨hreach.next op hm, hP', hfired'.trans hfired⟩

theorem word_exchanged {i : ι} {u : Update J} {pos : Usize}
    (hi : s.threads i = .updateExchange a u (s.word a) pos)
    (hs : registrationsStep s (.thread i) = some s') :
    s'.word a = (s.word a).afterUpdate pos u.interest u.opt := by
  have hstep : s.threadStep i = some s' := hs
  simp only [Registrations.threadStep, hi, if_true] at hstep
  obtain rfl := Option.some.inj hstep
  show (s.store a _).word a = _
  rw [word_store, if_pos rfl]

end Silence

/-- **A dropped registration is silent.** From the `fetch_or` of the drop on, whatever the other threads
and the poller do, no event of the node is decided on; what is still pushed of it is an event that the
poller had decided on before. -/
theorem dropped_silent [DecidableEq ι] [DecidableEq α] (a : α) (s₀ s₁ s : Registrations ι α J)
    (hs₀ : Reachable registrationsStep Registrations.Starts s₀) (i : ι)
    (hi : s₀.threads i = .dropOr a) (hs₁ : registrationsStep s₀ (.thread i) = some s₁)
    (ops : List (RegistrationsOp ι α J)) (hs : run registrationsStep s₁ ops = some s) :
    s.fired a = s₁.fired a ∧
      s.reported a ≤ s₁.reported a + if s₁.hold.delivers = some a then 1 else 0 := by
  have hfired := run_silent (fun _ _ => True) (fun word => word.isDropped = true)
    (fun _ _ _ h _ hstep hword => registrationsStep_dropped h.1 h.2 hstep hword)
    (hs₀.next (.thread i) hs₁) (threadStep_dropped hs₁ hi).1 (.of_forall fun _ _ _ => trivial) hs
  exact ⟨hfired, reported_le hfired⟩

/-- A `set_readiness` of the one node and a call that follows it, up to the access that counts. -/
def signalledOps (c : NodeCall ℕ ℕ) (n : ℕ) : List (RegistrationsOp Unit ℕ ℕ) :=
  [[.call () (.setReadiness 0 .readable)], .replicate 3 (.thread ()), .replicate 4 (.producer () false),
    [.call () c], .replicate n (.thread ())].flatten

/-- The node is ready and in the queue when it is dropped, and `poll` releases it. -/
theorem dropped_silent_ready :
    ∃ s₁ s : Registrations Unit ℕ ℕ, (s₁.word 0).effectiveReadiness = .readable ∧
      s.released 0 = true ∧ s.fired 0 = s₁.fired 0 ∧
      s.reported 0 ≤ s₁.reported 0 + if s₁.hold.delivers = some 0 then 1 else 0 := by
  obtain ⟨s₀, hs₀, hpc⟩ : ∃ s₀ : Registrations Unit ℕ ℕ,
      run registrationsStep oneNode (signalledOps (.drop 0) 0) = some s₀ ∧
        s₀.threads () = .dropOr 0 := ⟨_, rfl, rfl⟩
  obtain ⟨s, hall, hreleased⟩ : ∃ s : Registrations Unit ℕ ℕ,
      run registrationsStep oneNode (signalledOps (.drop 0) 0 ++
        .thread () :: (callPollOps ++ pollerOps 8 1)) = some s ∧ s.released 0 = true :=
    Option.map_eq_some_iff.mp (by decide +kernel)
  rw [run_append hs₀] at hall
  obtain ⟨s₁, hs₁, hs⟩ := run_cons hall
  have hready : (run registrationsStep oneNode (signalledOps (.drop 0) 0 ++ [.thread ()])).map
      (fun s => (s.word 0).effectiveReadiness) = some .readable := by decide +kernel
  rw [run_append hs₀, run_cons_eq hs₁, run_nil] at hready
  exact ⟨s₁, s, Option.some.inj hready, hreleased, dropped_silent 0 s₀ s₁ s
    ((Reachable.start oneNode_starts).run hs₀) () hpc hs₁ (callPollOps ++ pollerOps 8 1) hs⟩

/-- **A deregistered node is silent.** From the exchange of an update that asks for nothing on, no event
of the node is decided on, as long as no later update asks for something and no `set_readiness` has bits
that fall on the interest; what is still pushed of it is an event that the poller had decided on before. -/
theorem deregistered_silent [DecidableEq ι] [DecidableEq α] (a : α) (s₀ s₁ s : Registrations ι α J)
    (hs₀ : Reachable registrationsStep Registrations.Starts s₀) (i : ι) (u : Update J) (pos : Usize)
    (hi : s₀.threads i = .updateExchange a u (s₀.word a) pos) (hu : u.interest = .empty)
    (hs₁ : registrationsStep s₀ (.thread i) = some s₁) (ops : List (RegistrationsOp ι α J))
    (hok : Along registrationsStep (Unasked a) s₁ ops)
    (hs : run registrationsStep s₁ ops = some s) :
    s.fired a = s₁.fired a ∧
      s.reported a ≤ s₁.reported a + if s₁.hold.delivers = some a then 1 else 0 := by
  have hinterest : (s₁.word a).interest = .empty := by
    rw [word_exchanged hi hs₁]
    exact ReadinessState.interest_afterUpdate _ _ _ hu
  have hfired := run_silent (Unasked a) ReadinessState.Silent
    (fun _ _ _ h hok hstep hword => registrationsStep_silent h.1 h.2 hok hstep hword)
    (hs₀.next (.thread i) hs₁) (.inr hinterest) hok hs
  exact ⟨hfired, reported_le hfired⟩

/-- The node is ready and in the queue when it is deregistered, and `poll` takes it out. -/
theorem deregistered_silent_ready :
    ∃ s₁ s : Registrations Unit ℕ ℕ, (s₁.word 0).isQueued = true ∧ (s.word 0).isQueued = false ∧
      s.fired 0 = s₁.fired 0 ∧
      s.reported 0 ≤ s₁.reported 0 + if s₁.hold.delivers = some 0 then 1 else 0 := by
  obtain ⟨s₀, hs₀, hpc⟩ : ∃ s₀ : Registrations Unit ℕ ℕ,
      run registrationsStep oneNode (signalledOps (.update 0 deregisterUpdate) 3) = some s₀ ∧
        s₀.threads () = .updateExchange 0 deregisterUpdate (s₀.word 0) 1 := ⟨_, rfl, rfl⟩
  obtain ⟨s, hall, hqueued⟩ : ∃ s : Registrations Unit ℕ ℕ,
      run registrationsStep oneNode (signalledOps (.update 0 deregisterUpdate) 3 ++
        .thread () :: (callPollOps ++ pollerOps 8 2)) = some s ∧ (s.word 0).isQueued = false :=
    Option.map_eq_some_iff.mp (by decide +kernel)
  rw [run_append hs₀] at hall
  obtain ⟨s₁, hs₁, hs⟩ := run_cons hall
  have hquiet : (run registrationsStep oneNode (signalledOps (.update 0 deregisterUpdate) 3 ++
      [.thread ()])).all (fun s => decide ((s.word 0).isQueued = true ∧
        Along registrationsStep (Unasked 0) s (callPollOps ++ pollerOps 8 2))) = true := by
    decide +kernel
  rw [run_append hs₀, run_cons_eq hs₁, run_nil] at hquiet
  obtain ⟨hqueued₁, hok⟩ := of_decide_eq_true hquiet
  exact ⟨s₁, s, hqueued₁, hqueued, deregistered_silent 0 s₀ s₁ s
    ((Reachable.start oneNode_starts).run hs₀) () deregisterUpdate 1 hpc rfl hs₁
    (callPollOps ++ pollerOps 8 2) hok hs⟩

/-! ## Events that are paid for -/

section Payment
variable [DecidableEq ι] [DecidableEq α]

/-- The node that this step, the exchange of a `set_readiness` or an `update`, leaves with effective
readiness. -/
def Registrations.signals (s : Registrations ι α J) : RegistrationsOp ι α J → Option α
  | .thread i =>
    match s.threads i with
    | .setExchange a ready state =>
      if s.word a = state ∧ (state.afterSetReadiness ready).effectiveReadiness.isEmpty = false then some a
      else none
    | .updateExchange a u state pos =>
      if s.word a = state ∧ (state.afterUpdate pos u.interest u.opt).effectiveReadiness.isEmpty = false then
        some a
      else none
    | _ => none
  | _ => none

/-- The ghost counts the steps that have left the node with effective readiness. -/
structure Paid (ι : Type v) (α : Type u) (J : Type w) where
  tokens : Tokens ι α J
  paid : α → ℕ

namespace Paid

def regs (s : Paid ι α J) : Registrations ι α J := s.tokens.regs

def paidAfter (s : Paid ι α J) (op : RegistrationsOp ι α J) : α → ℕ :=
  match s.regs.signals op with
  | some a => Function.update s.paid a (s.paid a + 1)
  | none => s.paid

end Paid

def paidStep (s : Paid ι α J) (op : RegistrationsOp ι α J) : Option (Paid ι α J) :=
  (tokensStep s.tokens op).map fun tokens => ⟨tokens, s.paidAfter op⟩

/-- An update that asks for edge-triggered events, or for nothing. -/
def Update.Edged (u : Update J) : Prop := u.opt.isEdge = true ∨ u.interest = .empty

instance (u : Update J) : Decidable u.Edged := inferInstanceAs (Decidable (_ = _ ∨ _ = _))

def RegistrationsOp.Edges (a : α) : RegistrationsOp ι α J → Prop
  | .call _ (.update b u) => b = a → u.Edged
  | _ => True

instance (a : α) (op : RegistrationsOp ι α J) : Decidable (op.Edges a) :=
  match op with
  | .call _ (.update b _) => inferInstanceAs (Decidable (b = a → _))
  | .call _ (.setReadiness _ _) | .call _ (.drop _) => .isTrue trivial
  | .thread _ | .producer _ _ | .poll _ | .node => .isTrue trivial

/-- The values that are passed fit their fields, and node `a` is never asked for level-triggered
events. -/
def EdgeTriggered (a : α) (_ : Paid ι α J) (op : RegistrationsOp ι α J) : Prop :=
  op.Fits ∧ op.Edges a

/-- The word is of an edge-triggered node, or of one that asks for nothing. -/
def ReadinessState.EdgeOrSilent (word : ReadinessState) : Prop :=
  word.pollOpt.isEdge = true ∨ word.interest = .empty

structure Paid.Starts (a : α) (s : Paid ι α J) : Prop where
  tokens : s.tokens.Starts
  word : (s.regs.word a).EdgeOrSilent
  paid : s.paid a = 0

/-- A node that is queued and not dropped is in credit for an event. -/
def ReadinessState.credit (word : ReadinessState) : ℕ :=
  if word.isQueued = true ∧ word.isDropped = false then 1 else 0

structure Paid.Ok (a : α) (s : Paid ι α J) : Prop where
  tokens : s.tokens.Ok
  examined : s.regs.Examined
  threads : ∀ i u, (s.regs.threads i).node = some a → (s.regs.threads i).update? = some u → u.Edged
  word : (s.regs.word a).EdgeOrSilent
  paid : s.regs.fired a + (s.regs.word a).credit ≤ s.paid a

end Payment

/-! ### The word of an edge-triggered node -/

namespace ReadinessState
variable {s : ReadinessState}

theorem EdgeOrSilent.of_fields {s' : ReadinessState} (h : s.EdgeOrSilent)
    (hopt : s'.field .pollOpt = s.field .pollOpt) (hinterest : s'.field .interest = s.field .interest) :
    s'.EdgeOrSilent := by
  unfold EdgeOrSilent at *
  rw [pollOpt_eq, interest_eq, hopt, hinterest]
  exact h

theorem EdgeOrSilent.afterSetReadiness (h : s.EdgeOrSilent) {ready : Ready}
    (hready : Field.readiness.Holds ready.bits) : (s.afterSetReadiness ready).EdgeOrSilent :=
  h.of_fields (s.field_afterSetReadiness (by decide) (by decide) hready)
    (s.field_afterSetReadiness (by decide) (by decide) hready)

theorem edgeOrSilent_afterUpdate (s : ReadinessState) (pos : Usize) {u : Update J} (hu : u.Edged) :
    (s.afterUpdate pos u.interest u.opt).EdgeOrSilent := by
  rcases hu with hedge | hsilent
  · left
    have hfield : (s.afterUpdate pos u.interest u.opt).field .pollOpt = u.opt.bits &&& MASK_4 := by
      unfold afterUpdate
      rw [field_queueIfReady _ (by decide)]
      exact field_set_self _ .pollOpt u.opt.bits
    rw [pollOpt_eq, hfield]
    exact contains_of_masked (by decide) hedge
  · exact .inr (s.interest_afterUpdate pos u.opt hsilent)

theorem EdgeOrSilent.afterPoll (h : s.EdgeOrSilent) : s.afterPoll.EdgeOrSilent := by
  rcases h with hedge | hsilent
  · left
    have hkept : s.consumed.updateTokenReadPos.field .pollOpt = s.consumed.field .pollOpt :=
      s.consumed.field_set_of_holds (f := .tokenRead) (by decide) (Field.holds_get _ .tokenWrite)
    rw [afterPoll_eq, pollOpt_eq, hkept, s.field_consumed (by decide) (by decide)]
    exact hedge
  · exact .inr (interest_afterPoll hsilent)

/-- The poller takes such a node out of the queue. -/
theorem EdgeOrSilent.credit_afterPoll (h : s.EdgeOrSilent) : s.afterPoll.credit = 0 := by
  have hqueued : s.afterPoll.isQueued = false := by
    rw [isQueued_afterPoll]
    rcases h with hedge | hsilent
    · rw [hedge, Bool.not_true, Bool.and_false]
    · rw [effective_of_interest hsilent, Bool.not_true, Bool.and_false, Bool.false_and]
  unfold credit
  rw [if_neg (by simp [hqueued])]

theorem effective_le_credit (hqueued : s.isQueued = true) (hlive : s.isDropped = false) :
    (if s.effectiveReadiness.isEmpty then 0 else 1) ≤ s.credit := by
  have hcredit : s.credit = 1 := if_pos (And.intro hqueued hlive)
  rw [hcredit]
  split <;> omega

theorem FlagsKept.credit {next : ReadinessState} (h : FlagsKept s next)
    (hdropped : s.isDropped = true → next.isDropped = true) :
    next.credit ≤ s.credit + if next.effectiveReadiness.isEmpty = false then 1 else 0 := by
  unfold ReadinessState.credit
  split
  · rename_i hnext
    cases hempty : next.effectiveReadiness.isEmpty with
    | false => simp
    | true =>
      have hlive : s.isDropped = false := by
        cases hs : s.isDropped with
        | false => rfl
        | true => exact (hdropped hs).symm.trans hnext.2
      have hqueued : s.isQueued = true := by
        cases hs : s.isQueued with
        | true => rfl
        | false => exact (h.queued hempty hs).symm.trans hnext.1
      simp [hqueued, hlive]
  · omega

theorem spillsInto_of_holds {f g : Field} {val : Usize} (h : f.Holds val) : spillsInto f val g = false := by
  unfold spillsInto
  rw [spilled_of_holds h]
  rfl

theorem flagsKept_afterSetReadiness (s : ReadinessState) {ready : Ready}
    (hready : Field.readiness.Holds ready.bits) : FlagsKept s (s.afterSetReadiness ready) := by
  rw [s.afterSetReadiness_flags_iff]
  unfold SignalStaysInside
  rw [spillsInto_of_holds hready, spillsInto_of_holds hready]
  exact ⟨fun h => (by cases h), fun h => (by cases h)⟩

theorem flagsKept_afterUpdate (s : ReadinessState) {pos : Usize} {u : Update J} (hpos : Position pos)
    (hu : u.Fits) : FlagsKept s (s.afterUpdate pos u.interest u.opt) := by
  have hnone : ∀ g, updateSpills pos u.interest u.opt g = false := fun g => by
    unfold updateSpills
    rw [spillsInto_of_holds hpos.holds, spillsInto_of_holds hu.1, spillsInto_of_holds hu.2]
    rfl
  rw [s.afterUpdate_flags_iff]
  unfold UpdateStaysInside
  rw [hnone, hnone]
  exact ⟨fun h => (by cases h), fun h => (by cases h)⟩

end ReadinessState

/-! ### Runs -/

section Paying
variable [DecidableEq ι] [DecidableEq α] {s s' : Paid ι α J} {op : RegistrationsOp ι α J} {a : α}

omit [DecidableEq ι] in
theorem le_paidAfter (s : Paid ι α J) (op : RegistrationsOp ι α J) (a : α) :
    s.paid a ≤ s.paidAfter op a := by
  unfold Paid.paidAfter
  cases s.regs.signals op with
  | none => exact le_refl _
  | some b =>
    dsimp only
    by_cases hb : a = b
    · subst hb
      rw [Function.update_self]
      omega
    · rw [Function.update_of_ne hb]

omit [DecidableEq ι] in
theorem paidAfter_of_signals (h : s.regs.signals op = some a) : s.paidAfter op a = s.paid a + 1 := by
  unfold Paid.paidAfter
  rw [h]
  exact Function.update_self ..

omit [DecidableEq ι] in
/-- An exchange that keeps the flags pays for the credit it gives. -/
theorem paid_exchange {next : ReadinessState} (h : FlagsKept (s.regs.word a) next)
    (hdropped : (s.regs.word a).isDropped = true → next.isDropped = true)
    (hsignals : next.effectiveReadiness.isEmpty = false → s.regs.signals op = some a)
    (hpaid : s.regs.fired a + (s.regs.word a).credit ≤ s.paid a) :
    s.regs.fired a + next.credit ≤ s.paidAfter op a := by
  have hcredit := ReadinessState.FlagsKept.credit h hdropped
  cases hempty : next.effectiveReadiness.isEmpty with
  | false =>
    rw [paidAfter_of_signals (hsignals hempty)]
    rw [if_pos hempty] at hcredit
    omega
  | true =>
    have hle := le_paidAfter s op a
    rw [if_neg (by simp [hempty])] at hcredit
    omega

omit [DecidableEq ι] in
theorem Paid.Ok.thread {i : ι} (h : s.Ok a) {r : Registrations ι α J}
    (hmove : WordMove s.regs r i a) :
    (r.word a).EdgeOrSilent ∧ s.regs.fired a + (r.word a).credit ≤ s.paidAfter (.thread i) a := by
  have hfits := h.tokens.fits i
  change (s.regs.threads i).Fits at hfits
  cases hmove with
  | stays hsame =>
    rw [hsame]
    exact ⟨h.word, h.paid.trans (le_paidAfter s _ a)⟩
  | signals ready hi hsame =>
    rw [hi] at hfits
    rw [hsame]
    refine ⟨h.word.afterSetReadiness hfits, ?_⟩
    refine paid_exchange (ReadinessState.flagsKept_afterSetReadiness _ hfits)
      (ReadinessState.isDropped_afterSetReadiness ready) (fun hready => ?_) h.paid
    simp [Registrations.signals, hi, hready]
  | updates u pos hi hsame =>
    have hslot := h.tokens.slots i
    change SlotOk s.regs (s.regs.threads i) at hslot
    rw [hi] at hfits hslot
    have hedged : u.Edged := h.threads i u (by rw [hi]; rfl) (by rw [hi]; rfl)
    rw [hsame]
    refine ⟨ReadinessState.edgeOrSilent_afterUpdate _ pos hedged, ?_⟩
    refine paid_exchange (ReadinessState.flagsKept_afterUpdate _ hslot.1 hfits)
      (ReadinessState.isDropped_afterUpdate pos u.interest u.opt) (fun hready => ?_) h.paid
    simp [Registrations.signals, hi, hready]
  | drops _ hsame =>
    rw [hsame]
    have hpaid := h.paid.trans (le_paidAfter s (.thread i) a)
    refine ⟨h.word.of_fields (ReadinessState.field_flagAsDropped _ (by decide) (by decide))
      (ReadinessState.field_flagAsDropped _ (by decide) (by decide)), ?_⟩
    unfold ReadinessState.credit
    rw [if_neg (by simp [ReadinessState.isDropped_flagAsDropped])]
    omega

theorem Paid.Ok.updates (h : s.Ok a) (hok : EdgeTriggered a s op) {r : Registrations ι α J}
    (hs : registrationsStep s.regs op = some r) {i : ι} {u : Update J}
    (hnode : (r.threads i).node = some a) (hu : (r.threads i).update? = some u) : u.Edged := by
  have hsame : r.threads = s.regs.threads → u.Edged := fun he =>
    h.threads i u (he ▸ hnode) (he ▸ hu)
  cases op with
  | call j c =>
    simp only [registrationsStep] at hs
    split at hs
    · obtain rfl := Option.some.inj hs
      by_cases hj : i = j
      · subst hj
        rw [threads_goto] at hnode hu
        cases c with
        | update b v =>
          obtain rfl := Option.some.inj hu
          exact hok.2 (Option.some.inj hnode)
        | setReadiness | drop => cases hu
      · have hsame : (s.regs.goto j c.enter).threads i = s.regs.threads i := Function.update_of_ne hj ..
        rw [hsame] at hnode hu
        exact h.threads i u hnode hu
    · cases hs
  | thread j =>
    have hframe := threadStep_frame hs
    by_cases hj : i = j
    · subst hj
      exact h.threads i u (hframe.node a hnode) (threadStep_update hs hu)
    · rw [hframe.threads i hj] at hnode hu
      exact h.threads i u hnode hu
  | producer j wouldBlock =>
    obtain ⟨p, -, rfl⟩ := Option.map_eq_some_iff.mp hs
    exact hsame rfl
  | poll op =>
    simp only [registrationsStep] at hs
    split at hs
    · obtain ⟨p, -, rfl⟩ := Option.map_eq_some_iff.mp hs
      exact hsame rfl
    · cases hs
  | node => exact hsame (nodeStep_move h.tokens.owned hs).1.threads

theorem paidStep_ok (h : s.Ok a) (hok : EdgeTriggered a s op) (hs : paidStep s op = some s') : s'.Ok a := by
  obtain ⟨t, ht, rfl⟩ := Option.map_eq_some_iff.mp hs
  have htokens := tokensStep_ok h.tokens hok.1 ht
  obtain ⟨r, hr, rfl⟩ := Option.map_eq_some_iff.mp ht
  change registrationsStep s.regs op = some r at hr
  have howned : s.regs.Owned := h.tokens.owned
  refine ⟨htokens, registrationsStep_examined howned h.examined hr, fun i u hnode hu =>
    h.updates hok hr hnode hu, ?_, ?_⟩
  · show (r.word a).EdgeOrSilent
    cases registrationsStep_events howned hr a with
    | thread i hop hmove _ => exact (h.thread hmove).1
    | node _ hmove =>
      cases hmove with
      | stays hsame => exact hsame ▸ h.word
      | settles _ _ hsame => exact hsame ▸ h.word.afterPoll
    | stays _ _ hsame => exact hsame ▸ h.word
  · show r.fired a + (r.word a).credit ≤ s.paidAfter op a
    have hpaid := h.paid.trans (le_paidAfter s op a)
    cases registrationsStep_events howned hr a with
    | thread i hop hmove hfired =>
      subst hop
      rw [hfired]
      exact (h.thread hmove).2
    | node _ hmove =>
      cases hmove with
      | stays hsame hfired =>
        rw [hsame, hfired]
        exact hpaid
      | settles hholding hlive hsame hfired =>
        have hqueued : (s.regs.word a).isQueued = true := howned.books.flagged a .poller hholding
        have hle := ReadinessState.effective_le_credit hqueued (h.examined.live hlive)
        rw [hsame, hfired, h.word.credit_afterPoll]
        omega
    | stays _ _ hsame hfired =>
      rw [hsame, hfired]
      exact hpaid

omit [DecidableEq ι] in
theorem Paid.Starts.ok (h : s.Starts a) : s.Ok a := by
  have hregs : s.regs.Starts := h.tokens.regs
  refine ⟨h.tokens.ok, fun state hstate => ?_, fun i u _ hu => ?_, h.word, ?_⟩
  · rw [hregs.hold] at hstate
    cases hstate
  · rw [hregs.threads] at hu
    cases hu
  · have hqueued : (s.regs.word a).isQueued = false := by
      obtain ⟨token, interest, opt, hnode, hi, ho⟩ := hregs.nodes a
      unfold Registrations.word
      rw [hnode]
      exact (ReadinessState.new_flags hi ho).1
    have hfired : s.regs.fired a = 0 := by
      unfold Registrations.fired
      rw [show s.regs.pushed = [] from h.tokens.pushed, hregs.hold]
      rfl
    have hcredit : (s.regs.word a).credit = 0 := if_neg (by simp [hqueued])
    omega

end Paying

/-- **Events of an edge-triggered node are paid for.** A node that is never asked for level-triggered
events has at most one event for each `set_readiness` or `update` that has left it with effective
readiness, whatever else its threads and the poller do. -/
theorem edge_events_paid [DecidableEq ι] [DecidableEq α] (a : α) (s : Paid ι α J)
    (hs : ReachableIf paidStep (EdgeTriggered a) (Paid.Starts a) s) : s.regs.fired a ≤ s.paid a := by
  have h : s.Ok a := hs.invariant (P := Paid.Ok a) (fun _ hinit => hinit.ok)
    fun _ _ _ h hok hstep => paidStep_ok h hok hstep
  exact (Nat.le_add_right _ _).trans h.paid

/-- The updated node, which had been ready before: two exchanges and one event. -/
theorem edge_events_paid_updated :
    ∃ s : Paid Unit ℕ ℕ, s.regs.fired 0 = 1 ∧ s.paid 0 = 2 ∧ s.regs.fired 0 ≤ s.paid 0 := by
  let start : Paid Unit ℕ ℕ :=
    ⟨⟨oneNode, fun _ => ⟨.tokenEvent, ⟨7⟩⟩, ⟨.tokenEvent, ⟨7⟩⟩, []⟩, fun _ => 0⟩
  have hstart : Paid.Starts 0 start := ⟨⟨oneNode_starts, fun _ => rfl, rfl, rfl⟩, .inl (by decide), rfl⟩
  obtain ⟨s, hs, hlast⟩ : ∃ s : Paid Unit ℕ ℕ, run paidStep start updatedNodeOps = some s ∧
      (s.regs.fired 0, s.paid 0) = (1, 2) := Option.map_eq_some_iff.mp (by decide +kernel)
  obtain ⟨hfired, hpaid⟩ := Prod.mk.inj hlast
  have hedge : ∀ op ∈ updatedNodeOps, op.Fits ∧ op.Edges 0 := by decide
  have hreach : ReachableIf paidStep (EdgeTriggered 0) (Paid.Starts 0) s :=
    (ReachableIf.start hstart).run (.of_forall fun op hop _ => hedge op hop) hs
  exact ⟨s, hfired, hpaid, edge_events_paid 0 s hreach⟩

end MyMio

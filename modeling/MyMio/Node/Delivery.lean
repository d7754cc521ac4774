import MyMio.Node.Model

/-! # Which job an event carries

The calls on one `Registration` and the polls in between, each run to its end. `update` stores its job
only when its own exchange queues the node; otherwise the node keeps the job it has. `reregister` and
`deregister` pass an empty job, and every event leaves an empty one behind.

`first_event_carries_job_iff` says when the first event after a successful `register` carries its
job. `updateNode_runs` and `setReadiness_runs` tie the calls to the threads of `MyMio.Node.Model`.
-/

namespace MyMio
set_option autoImplicit false

open StepSystem Registrations

universe u v

variable {P : Type u} {J : Type v} [DecidableEq P]

/-! ## The calls -/

/-- A node, the poll it is associated with, and whether it is in that poll's readiness queue. -/
structure Delivery (P : Type u) (J : Type v) where
  node : Node J
  queue : Option P
  enqueued : Bool

namespace Delivery

def new2 : Delivery P J := ⟨.new ⟨.tokenEvent, ⟨0⟩⟩ .empty .empty, none, false⟩

def new (poll : P) (token : TokenEntry) (interest : Ready) (opt : PollOpt) : Delivery P J :=
  ⟨.new token interest opt, some poll, false⟩

/-- The token positions in `update`: the node with the token stored, and the position written. -/
def writeToken (node : Node J) (token : TokenEntry) : Option (Node J × Usize) :=
  match node.token node.state.tokenWritePos with
  | none => none
  | some currToken =>
    if token = currToken then some (node, node.state.tokenWritePos)
    else
      match node.state.nextTokenPos with
      | none => none
      | some pos => (node.storeToken pos token).map fun node => (node, pos)

/-- `update` on a node that is associated with the poll; `wakes` is what waking the poller returns. -/
def updateNode (s : Delivery P J) (u : Update J) (wakes : Bool) : Option (Delivery P J × Bool) :=
  if s.node.updateLock then some (s, true)
  else
    (writeToken s.node u.token).map fun (node, pos) =>
      let next := s.node.state.afterUpdate pos u.interest u.opt
      if owes s.node.state next then
        ({ s with node := { node with state := next, job := u.job }, enqueued := true }, wakes)
      else ({ s with node := { node with state := next } }, true)

/-- `update`, with whether it returns `Ok`. -/
def update (s : Delivery P J) (poll : P) (u : Update J) (wakes : Bool) :
    Option (Delivery P J × Bool) :=
  match s.queue with
  | none => { s with queue := some poll }.updateNode u wakes
  | some queue => if queue ≠ poll then some (s, false) else s.updateNode u wakes

def setReadiness (s : Delivery P J) (ready : Ready) (wakes : Bool) : Delivery P J × Bool :=
  if s.node.state.isDropped then (s, true)
  else
    let next := s.node.state.afterSetReadiness ready
    let s' := { s with node := { s.node with state := next } }
    if owes s.node.state next ∧ s.queue.isSome then ({ s' with enqueued := true }, wakes)
    else (s', true)

/-- What `ReadinessQueue::poll` of a poll does to the node, and the event it pushes for it with the
job. It `reaches` the node unless the event buffer is full before. -/
def poll (s : Delivery P J) (poll : P) (reaches : Bool) :
    Option (Delivery P J × Option (Event × Option J)) :=
  if s.queue = some poll ∧ s.enqueued ∧ reaches then
    if s.node.state.isDropped then some ({ s with enqueued := false }, none)
    else
      let next := s.node.state.afterPoll
      let readiness := s.node.state.effectiveReadiness
      let s' := { s with node := { s.node with state := next }, enqueued := next.isQueued }
      if readiness.isEmpty then some (s', none)
      else
        (s.node.token next.tokenReadPos).map fun token =>
          ({ s' with node := { s'.node with job := none } }, some (⟨readiness, token⟩, s.node.job))
  else some (s, none)

end Delivery

inductive DeliveryOp (P : Type u) (J : Type v)
  | register (poll : P) (token : TokenEntry) (interest : Ready) (opts : PollOpt) (job : J)
    (wakes : Bool)
  | reregister (poll : P) (token : TokenEntry) (interest : Ready) (opts : PollOpt) (wakes : Bool)
  | deregister (poll : P) (wakes : Bool)
  | setReadiness (ready : Ready) (wakes : Bool)
  | poll (poll : P) (reaches : Bool)

/-- What `deregister` passes to `update`. -/
def deregisterUpdate : Update J := ⟨⟨.tokenEvent, ⟨0⟩⟩, .empty, .empty, none⟩

def deliveryStep (s : Delivery P J) : DeliveryOp P J → Option (Delivery P J)
  | .register poll token interest opts job wakes =>
    (s.update poll ⟨token, interest, opts, some job⟩ wakes).map Prod.fst
  | .reregister poll token interest opts wakes =>
    (s.update poll ⟨token, interest, opts, none⟩ wakes).map Prod.fst
  | .deregister poll wakes => (s.update poll deregisterUpdate wakes).map Prod.fst
  | .setReadiness ready wakes => some (s.setReadiness ready wakes).1
  | .poll poll reaches => (s.poll poll reaches).map Prod.fst

/-- A call other than `register` and `deregister`, and no event pushed for the node. -/
def Quiet (s : Delivery P J) : DeliveryOp P J → Prop
  | .register .. | .deregister .. => False
  | .reregister .. | .setReadiness .. => True
  | .poll poll reaches => ∀ s' pushed, s.poll poll reaches = some (s', pushed) → pushed = none

/-! ## When the job is stored -/

/-- Whether an `update` for this poll queues the node: the node is not queued and its readiness meets
the new interest. -/
def Delivery.queues (s : Delivery P J) (poll : P) (interest : Ready) (opt : PollOpt) : Bool :=
  decide (s.queue = none ∨ s.queue = some poll) && !s.node.updateLock && !s.node.state.isQueued &&
    (!(s.node.state.readiness.inter interest).isEmpty || ReadinessState.spills interest opt)

/-- The call is not a `reregister` that queues the node. -/
def KeepsJob (s : Delivery P J) : DeliveryOp P J → Prop
  | .reregister poll _ interest opts _ => s.queues poll interest opts = false
  | _ => True

section Jobs
variable {s s' : Delivery P J} {poll : P} {u : Update J} {wakes ok reaches : Bool}

theorem toNat_get_mask_2 (x : Usize) (shift : ℕ) : (BitField.get x MASK_2 shift).toNat < 4 := by
  unfold BitField.get
  rw [BitVec.toNat_and]
  exact Nat.lt_succ_of_le Nat.and_le_right

theorem nextTokenPos_lt {state : ReadinessState} {pos : Usize} (h : state.nextTokenPos = some pos) :
    pos.toNat < 4 := by
  unfold ReadinessState.nextTokenPos at h
  split at h <;> first | (obtain rfl := Option.some.inj h; decide) | cases h

theorem storeToken_lock {node node' : Node J} {pos : Usize} {token : TokenEntry}
    (h : node.storeToken pos token = some node') (lock : Bool) :
    ({ node with updateLock := lock } : Node J).storeToken pos token =
      some { node' with updateLock := lock } := by
  unfold Node.storeToken at h ⊢
  split_ifs at h ⊢ <;> obtain rfl := Option.some.inj h <;> rfl

theorem writeToken_spec {node node' : Node J} {token : TokenEntry} {pos : Usize}
    (h : Delivery.writeToken node token = some (node', pos)) :
    pos.toNat < 4 ∧ node'.state = node.state ∧ node'.updateLock = node.updateLock ∧
      node'.job = node.job := by
  unfold Delivery.writeToken at h
  split at h
  · cases h
  · split at h
    · obtain ⟨rfl, rfl⟩ := Prod.mk.inj (Option.some.inj h)
      exact ⟨toNat_get_mask_2 _ _, rfl, rfl, rfl⟩
    · split at h
      · cases h
      · rename_i pos' hpos
        obtain ⟨node₁, hstore, h⟩ := Option.map_eq_some_iff.mp h
        obtain ⟨rfl, rfl⟩ := Prod.mk.inj h
        exact ⟨nextTokenPos_lt hpos, storeToken_spec hstore⟩

/-- **The job after `update`**: its own if it queued the node, and the one before otherwise. -/
theorem updateNode_job (hqueue : s.queue = none ∨ s.queue = some poll)
    (h : s.updateNode u wakes = some (s', ok)) :
    s'.node.job = if s.queues poll u.interest u.opt then u.job else s.node.job := by
  unfold Delivery.updateNode at h
  unfold Delivery.queues
  rw [decide_eq_true hqueue, Bool.true_and]
  split at h
  · rename_i hlock
    obtain ⟨rfl, -⟩ := Prod.mk.inj (Option.some.inj h)
    simp [hlock]
  · rename_i hlock
    obtain ⟨⟨node, pos⟩, hwrite, h⟩ := Option.map_eq_some_iff.mp h
    obtain ⟨hpos, -, -, hjob⟩ := writeToken_spec hwrite
    have hfree : s.node.updateLock = false := by simpa using hlock
    have howes : owes s.node.state (s.node.state.afterUpdate pos u.interest u.opt) =
        (!s.node.state.isQueued && (!(s.node.state.readiness.inter u.interest).isEmpty ||
          ReadinessState.spills u.interest u.opt)) := by
      unfold owes
      rw [s.node.state.isQueued_afterUpdate_eq hpos]
      cases s.node.state.isQueued <;> simp
    rw [hfree, Bool.not_false, Bool.true_and, ← howes]
    dsimp only at h
    split at h
    · rename_i hq
      obtain ⟨rfl, -⟩ := Prod.mk.inj h
      rw [if_pos hq]
    · rename_i hq
      obtain ⟨rfl, -⟩ := Prod.mk.inj h
      rw [if_neg hq]
      exact hjob

theorem update_job (h : s.update poll u wakes = some (s', ok)) :
    s'.node.job = if s.queues poll u.interest u.opt then u.job else s.node.job := by
  unfold Delivery.update at h
  split at h
  · rename_i hnone
    have hqueues : s.queues poll u.interest u.opt =
        ({ s with queue := some poll } : Delivery P J).queues poll u.interest u.opt := by
      simp [Delivery.queues, hnone]
    rw [hqueues]
    exact updateNode_job (.inr rfl) h
  · rename_i queue hsome
    split at h
    · rename_i hother
      obtain ⟨rfl, -⟩ := Prod.mk.inj (Option.some.inj h)
      simp [Delivery.queues, hsome, hother]
    · rename_i hsame
      exact updateNode_job (.inr (hsome.trans (congrArg some (not_not.mp hsame)))) h

omit [DecidableEq P] in
theorem setReadiness_job (ready : Ready) : (s.setReadiness ready wakes).1.node.job = s.node.job := by
  unfold Delivery.setReadiness
  split
  · rfl
  · dsimp only
    split <;> rfl

/-- An event carries the job of the node; without an event the node keeps it. -/
theorem poll_job {pushed : Option (Event × Option J)}
    (h : s.poll poll reaches = some (s', pushed)) :
    (pushed = none → s'.node.job = s.node.job) ∧
      ∀ event job, pushed = some (event, job) → job = s.node.job := by
  unfold Delivery.poll at h
  split at h
  · split at h
    · obtain ⟨rfl, rfl⟩ := Prod.mk.inj (Option.some.inj h)
      exact ⟨fun _ => rfl, fun _ _ he => by cases he⟩
    · dsimp only at h
      split at h
      · obtain ⟨rfl, rfl⟩ := Prod.mk.inj (Option.some.inj h)
        exact ⟨fun _ => rfl, fun _ _ he => by cases he⟩
      · obtain ⟨token, -, h⟩ := Option.map_eq_some_iff.mp h
        obtain ⟨rfl, rfl⟩ := Prod.mk.inj h
        refine ⟨fun he => (by cases he), fun event job he => ?_⟩
        exact (Prod.mk.inj (Option.some.inj he)).2.symm
  · obtain ⟨rfl, rfl⟩ := Prod.mk.inj (Option.some.inj h)
    exact ⟨fun _ => rfl, fun _ _ he => by cases he⟩

/-- A call without an event keeps the job, or is a `reregister` that clears it. -/
theorem deliveryStep_job {op : DeliveryOp P J} (hquiet : Quiet s op)
    (h : deliveryStep s op = some s') :
    (KeepsJob s op ∧ s'.node.job = s.node.job) ∨ (¬ KeepsJob s op ∧ s'.node.job = none) := by
  cases op with
  | register | deregister => exact hquiet.elim
  | reregister poll token interest opts wakes =>
    obtain ⟨⟨s₁, ok⟩, hup, rfl⟩ := Option.map_eq_some_iff.mp h
    have hjob := update_job hup
    by_cases hq : s.queues poll interest opts = true
    · refine .inr ⟨fun hk => ?_, hjob.trans (if_pos hq)⟩
      have hk' : s.queues poll interest opts = false := hk
      rw [hq] at hk'
      cases hk'
    · have hk : KeepsJob s (.reregister poll token interest opts wakes) := by
        simpa [KeepsJob] using hq
      exact .inl ⟨hk, hjob.trans (if_neg hq)⟩
  | setReadiness ready wakes =>
    obtain rfl := Option.some.inj h
    exact .inl ⟨trivial, setReadiness_job ready⟩
  | poll poll reaches =>
    obtain ⟨⟨s₁, pushed⟩, hp, rfl⟩ := Option.map_eq_some_iff.mp h
    exact .inl ⟨trivial, (poll_job hp).1 (hquiet _ _ hp)⟩

/-- Calls without an event leave the node with a given job exactly when it had it and none of them
has cleared it. -/
theorem run_job_iff {ops : List (DeliveryOp P J)} (hquiet : Along deliveryStep Quiet s ops)
    (h : run deliveryStep s ops = some s') (job : J) :
    s'.node.job = some job ↔ s.node.job = some job ∧ Along deliveryStep KeepsJob s ops := by
  induction ops generalizing s with
  | nil =>
    obtain rfl : s = s' := by simpa using h
    exact ⟨fun hj => ⟨hj, trivial⟩, And.left⟩
  | cons op ops ih =>
    obtain ⟨m, hm, hrest⟩ := run_cons h
    rw [ih (hquiet.2 m hm) hrest, along_cons_iff hm]
    rcases deliveryStep_job hquiet.1 hm with ⟨hk, hjob⟩ | ⟨hk, hjob⟩
    · rw [hjob]
      exact and_congr_right fun _ => ⟨fun ha => ⟨hk, ha⟩, And.right⟩
    · rw [hjob]
      exact ⟨fun hall => (by cases hall.1), fun hall => absurd hall.2.1 hk⟩

end Jobs

/-! ## The calls as runs of a thread -/

section Alone
variable {ι α : Type*} [DecidableEq ι] [DecidableEq α] {s m : Registrations ι α J} {i : ι} {a : α}

/-- Some steps of one thread alone. -/
def RunsAlone (i : ι) (s s' : Registrations ι α J) : Prop :=
  ∃ n, run registrationsStep s (List.replicate n (.thread i)) = some s'

theorem RunsAlone.refl (i : ι) (s : Registrations ι α J) : RunsAlone i s s := ⟨0, rfl⟩

theorem RunsAlone.step {s' : Registrations ι α J} (h : s.threadStep i = some m)
    (hm : RunsAlone i m s') : RunsAlone i s s' := by
  obtain ⟨n, hn⟩ := hm
  have hstep : registrationsStep s (.thread i) = some m := h
  exact ⟨n + 1, (run_cons_eq hstep _).trans hn⟩

theorem RunsAlone.trans {s' : Registrations ι α J} (h : RunsAlone i s m) (hm : RunsAlone i m s') :
    RunsAlone i s s' := by
  obtain ⟨n, hn⟩ := h
  obtain ⟨n', hn'⟩ := hm
  exact ⟨n + n', by rw [← List.replicate_append_replicate, run_append hn, hn']⟩

omit [DecidableEq ι] in
theorem nodes_store (s : Registrations ι α J) (a : α) (next : ReadinessState) :
    (s.store a next).nodes a = { s.nodes a with state := next } := by
  unfold Registrations.store
  dsimp only
  split <;> exact Function.update_self _ _ _

theorem exchange_runs {u : Update J} {pos : Usize}
    (hpc : s.threads i = .updateExchange a u (s.word a) pos) :
    ∃ s', RunsAlone i s s' ∧
      s'.nodes a = { s.nodes a with
        state := (s.word a).afterUpdate pos u.interest u.opt
        updateLock := false
        job := if owes (s.word a) ((s.word a).afterUpdate pos u.interest u.opt) then u.job
          else (s.nodes a).job } ∧
      s'.threads i = if owes (s.word a) ((s.word a).afterUpdate pos u.interest u.opt) then .enqueue a
        else .idle := by
  generalize hnext : (s.word a).afterUpdate pos u.interest u.opt = next
  have hexchange : s.threadStep i =
      some ((s.store a next).goto i (.updateUnlock a u (owes (s.word a) next))) := by
    simp only [Registrations.threadStep, hpc, hnext, if_true]
  have hunlock : ∀ (q : Registrations ι α J) (enqueues : Bool),
      (q.goto i (.updateUnlock a u enqueues)).threadStep i =
        some ((q.setNode a { q.nodes a with updateLock := false }).goto i
          (if enqueues then .updateJob a u else .idle)) := by
    intro q enqueues
    simp only [Registrations.threadStep, Registrations.goto, Registrations.setNode,
      Function.update_self, Function.update_idem]
  have hjob : ∀ q : Registrations ι α J, (q.goto i (.updateJob a u)).threadStep i =
      some ((q.setNode a { q.nodes a with job := u.job }).goto i (.enqueue a)) := by
    intro q
    simp only [Registrations.threadStep, Registrations.goto, Registrations.setNode,
      Function.update_self, Function.update_idem]
  cases howes : owes (s.word a) next with
  | false =>
    rw [howes] at hexchange
    refine ⟨_, .step hexchange (.step (hunlock _ _) (.refl i _)), ?_, Function.update_self _ _ _⟩
    refine (Function.update_self _ _ _).trans ?_
    rw [nodes_store]
    rfl
  | true =>
    rw [howes] at hexchange
    refine ⟨_, .step hexchange (.step (hunlock _ _) (.step (hjob _) (.refl i _))), ?_,
      Function.update_self _ _ _⟩
    refine (Function.update_self _ _ _).trans ?_
    show ({ Function.update (s.store a next).nodes a
      { (s.store a next).nodes a with updateLock := false } a with job := u.job } : Node J) = _
    rw [Function.update_self, nodes_store]
    rfl

omit [DecidableEq P] in
/-- **`updateNode` is what a thread does alone** from the lock of `update` on, up to the call of
`enqueue_with_wakeup`. -/
theorem updateNode_runs {d d' : Delivery P J} {u : Update J} {wakes ok : Bool}
    (h : d.updateNode u wakes = some (d', ok)) (hnode : s.nodes a = d.node)
    (hpc : s.threads i = .updateLock a u) :
    ∃ s', RunsAlone i s s' ∧ s'.nodes a = d'.node ∧
      s'.threads i = if owes d.node.state d'.node.state then .enqueue a else .idle := by
  unfold Delivery.updateNode at h
  split at h
  · rename_i hlock
    obtain ⟨rfl, -⟩ := Prod.mk.inj (Option.some.inj h)
    have hstep : s.threadStep i = some (s.goto i .idle) := by
      simp only [Registrations.threadStep, hpc, hnode, hlock, if_true]
    refine ⟨_, .step hstep (.refl i _), hnode, ?_⟩
    have hnone : owes d.node.state d.node.state = false := by
      unfold owes
      cases d.node.state.isQueued <;> rfl
    rw [hnone]
    exact Function.update_self _ _ _
  · rename_i hlock
    obtain ⟨⟨node, pos⟩, hwrite, h⟩ := Option.map_eq_some_iff.mp h
    obtain ⟨s₁, hs₁, hnode₁, hpc₁⟩ : ∃ s₁, RunsAlone i s s₁ ∧
        s₁.nodes a = { node with updateLock := true } ∧
        s₁.threads i = .updateExchange a u d.node.state pos := by
      have hlocked : s.threadStep i =
          some ((s.setNode a { d.node with updateLock := true }).goto i (.updateLoad a u)) := by
        simp only [Registrations.threadStep, hpc, hnode]
        exact if_neg hlock
      unfold Delivery.writeToken at hwrite
      have hload : ((s.setNode a { d.node with updateLock := true }).goto i
          (.updateLoad a u)).threadStep i =
          match d.node.token d.node.state.tokenWritePos with
          | none => none
          | some token =>
            if u.token = token then
              some ((s.setNode a { d.node with updateLock := true }).goto i
                (.updateExchange a u d.node.state d.node.state.tokenWritePos))
            else
              match d.node.state.nextTokenPos with
              | none => none
              | some pos => some ((s.setNode a { d.node with updateLock := true }).goto i
                  (.updateToken a u d.node.state pos)) := by
        simp only [Registrations.threadStep, Registrations.goto, Registrations.setNode,
          Registrations.word, Function.update_self, Function.update_idem]
        rfl
      split at hwrite
      · cases hwrite
      · rename_i token htoken
        rw [htoken] at hload
        dsimp only at hload
        split at hwrite
        · rename_i hsame
          obtain ⟨rfl, rfl⟩ := Prod.mk.inj (Option.some.inj hwrite)
          rw [if_pos hsame] at hload
          exact ⟨_, .step hlocked (.step hload (.refl i _)), Function.update_self _ _ _,
            Function.update_self _ _ _⟩
        · rename_i hother
          split at hwrite
          · cases hwrite
          · rename_i pos' hpos
            obtain ⟨node', hstore, hwrite⟩ := Option.map_eq_some_iff.mp hwrite
            obtain ⟨rfl, rfl⟩ := Prod.mk.inj hwrite
            rw [if_neg hother, hpos] at hload
            have htake := storeToken_lock hstore true
            have hput : ((s.setNode a { d.node with updateLock := true }).goto i
                (.updateToken a u d.node.state pos')).threadStep i =
                some ((s.setNode a { node' with updateLock := true }).goto i
                  (.updateExchange a u d.node.state pos')) := by
              simp only [Registrations.threadStep, Registrations.goto, Registrations.setNode,
                Function.update_self, Function.update_idem, htake, Option.map_some]
            exact ⟨_, .step hlocked (.step hload (.step hput (.refl i _))),
              Function.update_self _ _ _, Function.update_self _ _ _⟩
    obtain ⟨-, hstate, hsame, -⟩ := writeToken_spec hwrite
    have hfree : node.updateLock = false := by simpa [hsame] using hlock
    have hword : s₁.word a = d.node.state := by
      unfold Registrations.word
      rw [hnode₁]
      exact hstate
    rw [← hword] at hpc₁
    obtain ⟨s', hs', hnode', hpc'⟩ := exchange_runs hpc₁
    rw [hword, hnode₁] at hnode'
    rw [hword] at hpc'
    refine ⟨s', hs₁.trans hs', ?_, ?_⟩
    · rw [hnode']
      dsimp only at h ⊢
      split at h
      · rename_i howes
        obtain ⟨rfl, -⟩ := Prod.mk.inj h
        simp [howes, ← hfree]
      · rename_i howes
        obtain ⟨rfl, -⟩ := Prod.mk.inj h
        simp [howes, ← hfree]
    · rw [hpc']
      dsimp only at h
      split at h
      · obtain ⟨rfl, -⟩ := Prod.mk.inj h
        rfl
      · obtain ⟨rfl, -⟩ := Prod.mk.inj h
        rfl

omit [DecidableEq P] in
theorem setReadiness_runs {d : Delivery P J} {ready : Ready} (wakes : Bool)
    (hnode : s.nodes a = d.node) (hpc : s.threads i = .setLoad a ready) :
    ∃ s', RunsAlone i s s' ∧ s'.nodes a = (d.setReadiness ready wakes).1.node ∧
      s'.threads i = if owes d.node.state (d.setReadiness ready wakes).1.node.state then .enqueue a
        else .idle := by
  have hword : s.word a = d.node.state := by
    unfold Registrations.word
    rw [hnode]
  have hload : s.threadStep i = some (s.goto i (trySet a ready d.node.state)) := by
    simp only [Registrations.threadStep, hpc, hword]
  unfold trySet at hload
  unfold Delivery.setReadiness
  by_cases hdropped : d.node.state.isDropped = true
  · rw [if_pos hdropped] at hload ⊢
    refine ⟨_, .step hload (.refl i _), hnode, ?_⟩
    have hnone : owes d.node.state d.node.state = false := by
      unfold owes
      cases d.node.state.isQueued <;> rfl
    rw [hnone]
    exact Function.update_self _ _ _
  · rw [if_neg hdropped] at hload ⊢
    generalize hnext : d.node.state.afterSetReadiness ready = next
    have hexchange : (s.goto i (.setExchange a ready d.node.state)).threadStep i =
        some ((s.store a next).goto i (if owes d.node.state next then .enqueue a else .idle)) := by
      have hword' : (s.goto i (.setExchange a ready d.node.state)).word a = d.node.state := hword
      simp only [Registrations.threadStep, Registrations.goto, Function.update_self, hnext]
      refine (if_pos hword').trans ?_
      unfold Registrations.store
      dsimp only
      split <;> simp only [Registrations.setWord, Registrations.setNode, Function.update_idem]
    have hfields : ({ d with node := { d.node with state := next } } : Delivery P J).node =
        ((if owes d.node.state next = true ∧ d.queue.isSome = true then
          (({ d with node := { d.node with state := next }, enqueued := true } : Delivery P J), wakes)
          else ({ d with node := { d.node with state := next } }, true)).1).node := by
      split <;> rfl
    refine ⟨_, .step hload (.step hexchange (.refl i _)), ?_, ?_⟩
    · refine Eq.trans ?_ hfields
      exact (nodes_store s a next).trans (by rw [hnode])
    · rw [← hfields]
      exact Function.update_self _ _ _

end Alone

/-- **The first event after a `register` carries its job** exactly when the `register` queues the
node, unless the node had that job already, and no `reregister` in between queues it again. -/
theorem first_event_carries_job_iff (s₁ s₂ s₃ s₄ : Delivery P J) (poll : P) (token : TokenEntry)
    (interest : Ready) (opts : PollOpt) (job : J) (wakes : Bool)
    (hreg : s₁.update poll ⟨token, interest, opts, some job⟩ wakes = some (s₂, true))
    (ops : List (DeliveryOp P J)) (hquiet : Along deliveryStep Quiet s₂ ops)
    (hops : run deliveryStep s₂ ops = some s₃) (poll' : P) (reaches : Bool) (event : Event)
    (carried : Option J) (hpoll : s₃.poll poll' reaches = some (s₄, some (event, carried))) :
    carried = some job ↔
      (s₁.queues poll interest opts = true ∨ s₁.node.job = some job) ∧
        Along deliveryStep KeepsJob s₂ ops := by
  rw [(poll_job hpoll).2 event carried rfl, run_job_iff hquiet hops job]
  refine and_congr_left fun _ => ?_
  rw [update_job hreg]
  by_cases hq : s₁.queues poll interest opts = true
  · simp [hq]
  · simp [hq]

/-- The readiness comes first, then the `register`, then more readiness and a `reregister`, which finds the
node queued. -/
theorem first_event_carries_job_ready :
    ∃ s₁ s₂ s₃ s₄ : Delivery Unit ℕ, ∃ event carried,
      run deliveryStep .new2 [.setReadiness .readable true] = some s₁ ∧
      s₁.update () ⟨⟨.otherEvent, ⟨5⟩⟩, .readable, .edge, some 7⟩ true = some (s₂, true) ∧
      run deliveryStep s₂ [.setReadiness .writable true,
        .reregister () ⟨.otherEvent, ⟨6⟩⟩ .writable .edge true] = some s₃ ∧
      s₃.poll () true = some (s₄, some (event, carried)) ∧ event = ⟨.writable, ⟨.otherEvent, ⟨6⟩⟩⟩ ∧
      carried = some 7 := by
  refine ⟨_, _, _, _, _, _, rfl, rfl, rfl, rfl, rfl, ?_⟩
  refine (first_event_carries_job_iff (Delivery.new2.setReadiness .readable true).1 _ _ _ ()
    ⟨.otherEvent, ⟨5⟩⟩ .readable .edge 7 true rfl
    [.setReadiness .writable true, .reregister () ⟨.otherEvent, ⟨6⟩⟩ .writable .edge true] ?_ rfl
    () true _ _ rfl).mpr ⟨.inl rfl, ?_⟩
  · exact ⟨trivial, fun _ _ => ⟨trivial, fun _ _ => trivial⟩⟩
  · refine ⟨trivial, fun s hs => ⟨?_, fun _ _ => trivial⟩⟩
    obtain rfl := Option.some.inj hs
    rfl

/-- The `register` comes first: it does not queue the node, so it drops its job, and the event of the
readiness that follows carries an empty one. -/
theorem first_event_without_job :
    ∃ s₂ s₃ s₄ : Delivery Unit ℕ, ∃ event carried,
      Delivery.new2.update () ⟨⟨.otherEvent, ⟨5⟩⟩, .readable, .edge, some 7⟩ true = some (s₂, true) ∧
      run deliveryStep s₂ [.setReadiness .readable true] = some s₃ ∧
      Along deliveryStep Quiet s₂ [.setReadiness .readable true] ∧
      s₃.poll () true = some (s₄, some (event, carried)) ∧ carried ≠ some 7 :=
  ⟨_, _, _, _, _, rfl, rfl, ⟨trivial, fun _ _ => trivial⟩, rfl, by decide⟩

end MyMio

import MyMio.Node.Ownership
import MyMio.Queue.Order

/-! # What a step on a poll touches

An access of a thread outside `enqueue_node` touches one node at most, and the queue only when it enters
`enqueue_node`. An access of the poller to the node it has dequeued is one of six moves (`NodeMove`).
-/

namespace MyMio
set_option autoImplicit false

open BrokenQueue StepSystem

universe u v w

variable {ι : Type v} {α : Type u} {J : Type w}

/-- The node of the call a thread is in, outside `enqueue_node`. -/
def Thread.node : Thread α J → Option α
  | .idle => none
  | .setLoad a _ | .setExchange a _ _ | .updateLock a _ | .updateLoad a _ | .updateToken a _ _ _
  | .updateExchange a _ _ _ | .updateUnlock a _ _ | .updateJob a _ | .dropOr a | .enqueue a => some a

/-- The update a thread is in, until it has stored its job. -/
def Thread.update? : Thread α J → Option (Update J)
  | .updateLock _ u | .updateLoad _ u | .updateToken _ u _ _ | .updateExchange _ u _ _
  | .updateUnlock _ u _ | .updateJob _ u => some u
  | _ => none

/-- The node the poller is done with in the queue and not yet otherwise. -/
def Hold.node : Hold α → Option α
  | .token a _ _ | .push a _ | .clear a => some a
  | _ => none

namespace Registrations

/-- The node the poller has dequeued and neither pushed nor let go of. -/
def inHand (s : Registrations ι α J) : Option α :=
  match s.hold, s.polling.queue.consumer with
  | .token a _ _, _ | .push a _, _ => some a
  | .clear _, _ => none
  | _, .requeue _ _ => none
  | _, _ => s.holding

end Registrations

variable [DecidableEq ι] [DecidableEq α]

/-! ## An access of a thread -/

structure ThreadFrame (s s' : Registrations ι α J) (i : ι) : Prop where
  nodes : ∀ b, (s.threads i).node ≠ some b → s'.nodes b = s.nodes b
  threads : ∀ j, j ≠ i → s'.threads j = s.threads j
  node : ∀ a, (s'.threads i).node = some a → (s.threads i).node = some a
  hold : s'.hold = s.hold
  pushed : s'.pushed = s.pushed
  released : s'.released = s.released
  polling : s'.polling = s.polling ∨ ∃ a, s.threads i = .enqueue a ∧ s'.threads i = .idle ∧
    s.polling.queue.producers i = .idle ∧ s'.polling = { s.polling with
      queue := { s.polling.queue with
        producers := Function.update s.polling.queue.producers i (.enqueue a .start) } }

section Frame
variable {s s' : Registrations ι α J} {a : α} {i : ι}

omit [DecidableEq α] in
theorem threadFrame_goto {pc : Thread α J} (hpc : ∀ b, pc.node = some b → (s.threads i).node = some b) :
    ThreadFrame s (s.goto i pc) i where
  nodes _ _ := rfl
  threads _ hj := Function.update_of_ne hj ..
  node b hb := hpc b (by simpa [Registrations.goto] using hb)
  hold := rfl
  pushed := rfl
  released := rfl
  polling := .inl rfl

theorem threadFrame_setNode {pc : Thread α J} {node : Node J} (hi : (s.threads i).node = some a)
    (hpc : ∀ b, pc.node = some b → b = a) : ThreadFrame s ((s.setNode a node).goto i pc) i where
  nodes b hb := Function.update_of_ne (fun he => hb (by rw [he, hi])) ..
  threads _ hj := Function.update_of_ne hj ..
  node b hb := by
    rw [hi, hpc b (by simpa [Registrations.goto] using hb)]
  hold := rfl
  pushed := rfl
  released := rfl
  polling := .inl rfl

theorem threadFrame_store {pc : Thread α J} {next : ReadinessState} (hi : (s.threads i).node = some a)
    (hpc : ∀ b, pc.node = some b → b = a) : ThreadFrame s ((s.store a next).goto i pc) i := by
  have hframe : ThreadFrame s ((s.setWord a next).goto i pc) i := threadFrame_setNode hi hpc
  unfold Registrations.store
  dsimp only
  split
  · exact hframe
  · exact ⟨hframe.nodes, hframe.threads, hframe.node, rfl, rfl, rfl, .inl rfl⟩

omit [DecidableEq α] in
theorem node_trySet {a b : α} {ready : Ready} {state : ReadinessState}
    (h : (Registrations.trySet a ready state : Thread α J).node = some b) : b = a := by
  unfold Registrations.trySet at h
  split at h
  · cases h
  · exact (Option.some.inj h).symm

theorem threadStep_frame (hs : s.threadStep i = some s') : ThreadFrame s s' i := by
  cases threadStep_move hs with
  | tries a ready hi hs' =>
    subst hs'
    refine threadFrame_goto fun b hb => ?_
    rw [node_trySet hb]
    rcases hi with hi | ⟨state, hi⟩ <;> rw [hi] <;> rfl
  | signals a ready next hi _ hs' =>
    subst hs'
    refine threadFrame_store (by rw [hi]; rfl) fun b hb => ?_
    split at hb
    · exact (Option.some.inj hb).symm
    · cases hb
  | misses a u hi _ hs' =>
    subst hs'
    exact threadFrame_goto fun b hb => by cases hb
  | locks a u hi _ hs' =>
    subst hs'
    exact threadFrame_setNode (by rw [hi]; rfl) fun b hb => (Option.some.inj hb).symm
  | keepsToken a u hi _ hs' | picksSlot a u pos hi _ hs' | retries a u state pos hi _ hs' =>
    subst hs'
    exact threadFrame_goto fun b hb => by rw [hi]; exact hb
  | writesToken a u state pos node hi _ hs' =>
    subst hs'
    exact threadFrame_setNode (by rw [hi]; rfl) fun b hb => (Option.some.inj hb).symm
  | updates a u pos next hi _ hs' =>
    subst hs'
    exact threadFrame_store (by rw [hi]; rfl) fun b hb => (Option.some.inj hb).symm
  | unlocks a u enqueues hi hs' =>
    subst hs'
    refine threadFrame_setNode (by rw [hi]; rfl) fun b hb => ?_
    split at hb
    · exact (Option.some.inj hb).symm
    · cases hb
  | storesJob a u hi hs' =>
    subst hs'
    exact threadFrame_setNode (by rw [hi]; rfl) fun b hb => (Option.some.inj hb).symm
  | drops a hi hs' =>
    subst hs'
    refine threadFrame_setNode (by rw [hi]; rfl) fun b hb => ?_
    split at hb
    · cases hb
    · exact (Option.some.inj hb).symm
  | enqueues a p hi hp hs' =>
    subst hs'
    obtain ⟨q, hq, rfl⟩ := Option.map_eq_some_iff.mp hp
    simp only [queueStep] at hq
    split at hq
    · rename_i hidle
      obtain rfl := Option.some.inj hq
      have hframe : ThreadFrame s (s.goto i .idle) i := threadFrame_goto fun b hb => by cases hb
      exact ⟨hframe.nodes, hframe.threads, hframe.node, rfl, rfl, rfl,
        .inr ⟨a, hi, Function.update_self .., hidle, rfl⟩⟩
    · cases hq

theorem threadStep_update (hs : s.threadStep i = some s') {u : Update J}
    (hu : (s'.threads i).update? = some u) : (s.threads i).update? = some u := by
  have hpc : ∀ (t : Registrations ι α J) (pc : Thread α J), (t.goto i pc).threads i = pc :=
    fun t pc => Function.update_self ..
  cases threadStep_move hs with
  | tries a ready hi hs' =>
    rw [hs', hpc] at hu
    unfold Registrations.trySet at hu
    split at hu <;> cases hu
  | signals a ready next hi _ hs' =>
    rw [hs', hpc] at hu
    split at hu <;> cases hu
  | misses a u' hi _ hs' | storesJob a u' hi hs' =>
    rw [hs', hpc] at hu
    cases hu
  | locks a u' hi _ hs' | keepsToken a u' hi _ hs' | picksSlot a u' pos hi _ hs'
  | writesToken a u' state pos node hi _ hs' | retries a u' state pos hi _ hs'
  | updates a u' pos next hi _ hs' =>
    rw [hs', hpc] at hu
    rw [hi]
    exact hu
  | unlocks a u' enqueues hi hs' =>
    rw [hs', hpc] at hu
    rw [hi]
    split at hu
    · exact hu
    · cases hu
  | drops a hi hs' =>
    rw [hs', hpc] at hu
    split at hu <;> cases hu
  | enqueues a p hi _ hs' =>
    rw [hs'] at hu
    change (Function.update s.threads i .idle i).update? = some u at hu
    rw [Function.update_self] at hu
    cases hu

/-- Only the store of `update` changes a job, to the one passed to it. -/
theorem threadStep_job (hs : s.threadStep i = some s') (b : α) :
    (s'.nodes b).job = (s.nodes b).job ∨
      ∃ u, (s.threads i).update? = some u ∧ (s'.nodes b).job = u.job := by
  have hset : ∀ (a : α) (node : Node J), node.job = (s.nodes a).job →
      ((s.setNode a node).nodes b).job = (s.nodes b).job := by
    intro a node hnode
    show (Function.update s.nodes a node b).job = _
    by_cases hb : b = a
    · subst hb
      rw [Function.update_self, hnode]
    · rw [Function.update_of_ne hb]
  have hstore : ∀ (a : α) (next : ReadinessState),
      ((s.store a next).nodes b).job = (s.nodes b).job := by
    intro a next
    unfold Registrations.store
    dsimp only
    split <;> exact hset a _ rfl
  cases threadStep_move hs with
  | tries _ _ _ hs' | misses _ _ _ _ hs' | keepsToken _ _ _ _ hs' | picksSlot _ _ _ _ _ hs'
  | retries _ _ _ _ _ _ hs' | enqueues _ _ _ _ hs' =>
    subst hs'
    exact .inl rfl
  | signals a _ next _ _ hs' | updates a _ _ next _ _ hs' =>
    subst hs'
    exact .inl (hstore a next)
  | locks a _ _ _ hs' | unlocks a _ _ _ hs' | drops a _ hs' =>
    subst hs'
    exact .inl (hset a _ rfl)
  | writesToken a u state pos node _ hnode hs' =>
    subst hs'
    refine .inl (hset a node ?_)
    exact (storeToken_spec hnode).2.2
  | storesJob a u hi hs' =>
    subst hs'
    by_cases hb : b = a
    · subst hb
      refine .inr ⟨u, by rw [hi]; rfl, ?_⟩
      show (Function.update s.nodes b _ b).job = _
      rw [Function.update_self]
    · refine .inl ?_
      show (Function.update s.nodes a _ b).job = _
      rw [Function.update_of_ne hb]

end Frame

/-! ## An access of the poller to the node in hand -/

inductive NodeMove (s s' : Registrations ι α J) : Prop
  | releases (a : α) : s.holding = some a → s.inHand = some a →
      s.hold = .load ∨ (∃ state, s.hold = .exchange state) → (s.word a).isDropped = true →
      s'.nodes = s.nodes → s'.hold = .load → s'.holding = none → s'.inHand = none →
      s'.pushed = s.pushed → s'.released = Function.update s.released a true → NodeMove s s'
  | examines (a : α) : s.holding = some a → s.inHand = some a →
      s.hold = .load ∨ (∃ state, s.hold = .exchange state) → (s.word a).isDropped = false →
      s'.nodes = s.nodes → s'.hold = .exchange (s.word a) → s'.holding = some a →
      s'.inHand = some a → s'.pushed = s.pushed → s'.released = s.released → NodeMove s s'
  | settles (a : α) : s.holding = some a → s.inHand = some a →
      s.hold = .load ∨ (∃ state, s.hold = .exchange state) →
      (s.word a).isDropped = false ∨ s.hold = .exchange (s.word a) →
      s'.nodes = Function.update s.nodes a { s.nodes a with state := (s.word a).afterPoll } →
      (s'.hold = if (s.word a).effectiveReadiness.isEmpty then .load
        else .token a (s.word a).effectiveReadiness (s.word a).afterPoll.tokenReadPos) →
      (s'.holding = if (s.word a).afterPoll.isQueued then some a else none) →
      (s'.inHand = if (s.word a).effectiveReadiness.isEmpty then none else some a) →
      s'.pushed = s.pushed → s'.released = s.released → NodeMove s s'
  | reads (a : α) (readiness : Ready) (pos : Usize) (token : TokenEntry) :
      s.hold = .token a readiness pos → (s.nodes a).token pos = some token → s'.nodes = s.nodes →
      s'.hold = .push a ⟨readiness, token⟩ → s'.holding = none → s'.pushed = s.pushed →
      s'.released = s.released → NodeMove s s'
  | pushes (a : α) (event : Event) : s.hold = .push a event → s'.nodes = s.nodes →
      s'.hold = .clear a → s'.holding = none →
      s'.pushed = s.pushed ++ [(a, event, (s.nodes a).job)] → s'.released = s.released → NodeMove s s'
  | clears (a : α) : s.hold = .clear a →
      s'.nodes = Function.update s.nodes a { s.nodes a with job := none } → s'.hold = .load →
      s'.holding = none → s'.pushed = s.pushed → s'.released = s.released → NodeMove s s'

/-- What an access of the poller to a node leaves alone. -/
structure NodeFrame (s s' : Registrations ι α J) : Prop where
  threads : s'.threads = s.threads
  producers : s'.polling.queue.producers = s.polling.queue.producers
  lists : SameLists s.polling.queue s'.polling.queue
  poller : s.polling.poller ≠ .idle

section Node
variable {s s' t : Registrations ι α J} {a : α} {p : Polling ι α}

omit [DecidableEq ι] [DecidableEq α] in
theorem inHand_of_node (h : s.hold.node = some a) (hc : ∀ b, s.hold ≠ .clear b) : s.inHand = some a := by
  unfold Registrations.inHand
  cases hh : s.hold with
  | clear b => exact absurd hh (hc b)
  | token b readiness pos =>
    rw [hh] at h
    exact h
  | push b event =>
    rw [hh] at h
    exact h
  | _ =>
    rw [hh] at h
    cases h

omit [DecidableEq ι] [DecidableEq α] in
theorem inHand_of_load (h : s.hold = .load) (hnone : s.holding = none) : s.inHand = none := by
  unfold Registrations.inHand
  rw [h]
  cases s.polling.queue.consumer <;> first | rfl | exact hnone

omit [DecidableEq ι] [DecidableEq α] in
theorem inHand_of_returned {ret : Ret α} (hh : s.hold = .load ∨ ∃ state, s.hold = .exchange state)
    (hc : s.polling.queue.consumer = .returned ret) : s.inHand = s.holding := by
  unfold Registrations.inHand
  rcases hh with hh | ⟨state, hh⟩ <;> simp only [hh, hc]

omit [DecidableEq ι] [DecidableEq α] in
/-- Unless a node has just been dequeued, the one in hand is the one the poller is done with in the
queue. -/
theorem inHand_of_not_data (h : ∀ ptr, s.polling.queue.consumer ≠ .returned (.dequeue (.data ptr))) :
    s.inHand = match s.hold with
      | .token a _ _ | .push a _ => some a
      | _ => none := by
  have hholds := holding_eq h
  unfold Registrations.inHand
  cases s.hold with
  | token | push | clear => rfl
  | load | exchange =>
    cases hc : s.polling.queue.consumer with
    | requeue b phase => rfl
    | returned ret =>
      rw [hc] at hholds
      cases ret with
      | dequeue d =>
        cases d with
        | data ptr => exact absurd hc (h ptr)
        | _ => exact hholds
      | _ => exact hholds
    | _ =>
      rw [hc] at hholds
      exact hholds

omit [DecidableEq ι] [DecidableEq α] in
theorem inHand_congr (hh : t.hold = s.hold)
    (hc : t.polling.queue.consumer = s.polling.queue.consumer)
    (hp : t.polling.poller = s.polling.poller) : t.inHand = s.inHand := by
  unfold Registrations.inHand
  rw [holding_congr hc hp hh, hh, hc]

theorem settle_move (h : s.Owned) (hnodes : t.polling = s.polling)
    (hp : ∃ call len limit, s.polling.poller = .dequeue call len limit)
    (hc : s.polling.queue.consumer = .returned (.dequeue (.data (.data a))))
    {next : ReadinessState} {readiness : Ready} (hs : t.settle a next readiness = some s') :
    s'.nodes = t.nodes ∧ s'.threads = t.threads ∧ s'.pushed = t.pushed ∧ s'.released = t.released ∧
      s'.polling.queue.producers = s.polling.queue.producers ∧
      SameLists s.polling.queue s'.polling.queue ∧
      (s'.hold = if readiness.isEmpty then .load else .token a readiness next.tokenReadPos) ∧
      (s'.holding = if next.isQueued then some a else none) ∧
      s'.inHand = if readiness.isEmpty then none else some a := by
  unfold Registrations.settle at hs
  cases hnext : next.isQueued with
  | true =>
    simp only [hnext, if_true] at hs
    obtain ⟨p, hstep, rfl⟩ := Option.map_eq_some_iff.mp hs
    rw [hnodes] at hstep
    obtain ⟨hqueue, -⟩ := pollingStep_requeue hc hstep
    have hconsumer : p.queue.consumer = .requeue a .start := by rw [hqueue]
    refine ⟨rfl, rfl, rfl, rfl, by rw [hqueue], by rw [hqueue]; exact ⟨rfl, rfl⟩, rfl, ?_, ?_⟩
    · unfold Registrations.holding
      simp only [hconsumer]
      rfl
    · unfold Registrations.inHand
      cases readiness.isEmpty <;> simp [hconsumer]
  | false =>
    simp only [hnext, Bool.false_eq_true, if_false] at hs
    cases hread : readiness.isEmpty with
    | true =>
      simp only [hread, if_true] at hs
      obtain ⟨p, hstep, rfl⟩ := Option.map_eq_some_iff.mp hs
      rw [hnodes] at hstep
      have hcalled := pollingStep_called h.ok (dequeued_outside _ false) hstep
      have hnone : Registrations.holding { t with polling := p, hold := .load } = none :=
        holding_of_free hcalled.free
      exact ⟨rfl, rfl, rfl, rfl, hcalled.producers,
        pollingStep_lists (fun i b he => (by cases he)) (fun he => by cases he) hstep, rfl, hnone,
        inHand_of_load rfl hnone⟩
    | false =>
      simp only [hread, Bool.false_eq_true, if_false] at hs
      obtain rfl := Option.some.inj hs
      refine ⟨rfl, rfl, rfl, rfl, by rw [hnodes], by rw [hnodes]; exact ⟨rfl, rfl⟩, rfl, ?_, ?_⟩
      · obtain ⟨call, len, limit, hp⟩ := hp
        unfold Registrations.holding
        simp only [hnodes, hc, hp, Bool.false_eq_true, if_false]
      · simp [Registrations.inHand]

/-- The word just read is looked at. -/
theorem examine_move (h : s.Owned)
    (hp : ∃ call len limit, s.polling.poller = .dequeue call len limit)
    (hc : s.polling.queue.consumer = .returned (.dequeue (.data (.data a))))
    (hh : s.hold = .load ∨ ∃ state, s.hold = .exchange state) (hs : s.examine a = some s') :
    NodeFrame s s' ∧ NodeMove s s' := by
  have ha := holding_of_dequeued hp hc hh
  have hin : s.inHand = some a := (inHand_of_returned hh hc).trans ha
  have hpoller : s.polling.poller ≠ .idle := fun he => by
    obtain ⟨call, len, limit, hp⟩ := hp
    cases hp.symm.trans he
  unfold Registrations.examine at hs
  dsimp only at hs
  cases hdropped : (s.word a).isDropped with
  | true =>
    simp only [hdropped, if_true] at hs
    obtain ⟨p, hstep, rfl⟩ := Option.map_eq_some_iff.mp hs
    have hcalled := pollingStep_called h.ok (dequeued_outside _ false) hstep
    have hnone : Registrations.holding { s with polling := p, hold := .load } = none :=
      holding_of_free hcalled.free
    refine ⟨⟨rfl, hcalled.producers,
      pollingStep_lists (fun i b he => (by cases he)) (fun he => by cases he) hstep, hpoller⟩, ?_⟩
    exact .releases a ha hin hh hdropped rfl rfl hnone (inHand_of_load rfl hnone) rfl rfl
  | false =>
    simp only [hdropped, Bool.false_eq_true, if_false] at hs
    split at hs
    · rename_i hsame
      obtain ⟨hnodes, hthreads, hpushed, hreleased, hproducers, hlists, hhold, hholding, hhand⟩ :=
        settle_move h rfl hp hc hs
      refine ⟨⟨hthreads, hproducers, hlists, hpoller⟩, ?_⟩
      refine .settles a ha hin hh (.inl hdropped) ?_ (by rw [hsame]; exact hhold)
        (by rw [hsame]; exact hholding) hhand hpushed hreleased
      rw [hnodes, hsame]
      exact (Function.update_eq_self a s.nodes).symm
    · obtain rfl := Option.some.inj hs
      have hholding : Registrations.holding { s with hold := .exchange (s.word a) } = some a :=
        holding_of_dequeued (s := { s with hold := .exchange (s.word a) }) hp hc (.inr ⟨_, rfl⟩)
      have hhand : Registrations.inHand { s with hold := .exchange (s.word a) } = some a :=
        (inHand_of_returned (s := { s with hold := .exchange (s.word a) }) (.inr ⟨_, rfl⟩) hc).trans
          hholding
      exact ⟨⟨rfl, rfl, ⟨rfl, rfl⟩, hpoller⟩, .examines a ha hin hh hdropped rfl rfl hholding hhand rfl rfl⟩

/-- **What an access of the poller to a node can do.** -/
theorem nodeStep_move (h : s.Owned) (hs : s.nodeStep = some s') : NodeFrame s s' ∧ NodeMove s s' := by
  have hpast : s.hold ≠ .load → s.polling.poller ≠ .idle := by
    intro hload he
    rcases h.hold with hl | ⟨_, _, _, _, hp⟩ | ⟨⟨_, _, _, hp⟩, -⟩
    · exact hload hl
    · cases hp.symm.trans he
    · cases hp.symm.trans he
  unfold Registrations.nodeStep at hs
  split at hs
  · rename_i hh hp hc
    exact examine_move h ⟨_, _, _, hp⟩ hc (.inl hh) hs
  · rename_i state call len limit a hh hp hc
    split at hs
    · rename_i hword
      obtain ⟨hnodes, hthreads, hpushed, hreleased, hproducers, hlists, hhold, hholding, hhand⟩ :=
        settle_move (t := { s.setWord a _ with signalled := _ }) h rfl ⟨_, _, _, hp⟩ hc hs
      subst hword
      have ha := holding_of_dequeued ⟨_, _, _, hp⟩ hc (.inr ⟨_, hh⟩)
      exact ⟨⟨hthreads, hproducers, hlists, fun he => by cases hp.symm.trans he⟩,
        .settles a ha ((inHand_of_returned (.inr ⟨_, hh⟩) hc).trans ha) (.inr ⟨_, hh⟩) (.inr hh) hnodes
          hhold hholding hhand hpushed hreleased⟩
    · exact examine_move h ⟨_, _, _, hp⟩ hc (.inr ⟨_, hh⟩) hs
  · rename_i a readiness pos _ hh hc
    obtain ⟨token, htoken, rfl⟩ := Option.map_eq_some_iff.mp hs
    exact ⟨⟨rfl, rfl, ⟨rfl, rfl⟩, hpast (by simp [hh])⟩, .reads a readiness pos token hh htoken rfl rfl
      (holding_settled (by simp) (by simp) ⟨_, hc⟩) rfl rfl⟩
  · rename_i a event _ hh hc
    obtain rfl := Option.some.inj hs
    exact ⟨⟨rfl, rfl, ⟨rfl, rfl⟩, hpast (by simp [hh])⟩, .pushes a event hh rfl rfl
      (holding_settled (by simp) (by simp) ⟨_, hc⟩) rfl rfl⟩
  · rename_i hh hp hc
    obtain ⟨p, hstep, rfl⟩ := Option.map_eq_some_iff.mp hs
    have hcalled := pollingStep_called h.ok (dequeued_outside _ true) hstep
    exact ⟨⟨rfl, hcalled.producers,
      pollingStep_lists (fun i b he => (by cases he)) (fun he => by cases he) hstep,
      hpast (by simp [hh])⟩, .clears _ hh rfl rfl (holding_of_free hcalled.free) rfl rfl⟩
  · rename_i hh hp hc
    obtain ⟨p, hstep, rfl⟩ := Option.map_eq_some_iff.mp hs
    have hcalled := pollingStep_called h.ok (show PollingOp.Outside _ .requeued from trivial) hstep
    exact ⟨⟨rfl, hcalled.producers,
      pollingStep_lists (fun i b he => (by cases he)) (fun he => by cases he) hstep,
      hpast (by simp [hh])⟩, .clears _ hh rfl rfl (holding_of_free hcalled.free) rfl rfl⟩
  · cases hs

end Node

/-! ## A step of the poller that touches no node -/

/-- What such a step does to the lists and to the node in hand. -/
inductive PollMove (s : Registrations ι α J) (p : Polling ι α) : Prop
  | stays : p.queue.enqueued = s.polling.queue.enqueued → p.queue.taken = s.polling.queue.taken →
      Registrations.holding { s with polling := p } = s.holding →
      Registrations.inHand { s with polling := p } = s.inHand → PollMove s p
  | takes (a : α) : p.queue.enqueued = s.polling.queue.enqueued →
      p.queue.taken = s.polling.queue.taken ++ [a] → s.hold = .load → s.inHand = none →
      Registrations.holding { s with polling := p } = some a →
      Registrations.inHand { s with polling := p } = some a → PollMove s p
  | putsBack (a : α) : s.holding = some a →
      p.queue.enqueued = s.polling.queue.enqueued ++ [a] →
      p.queue.taken = s.polling.queue.taken →
      Registrations.holding { s with polling := p } = none →
      Registrations.inHand { s with polling := p } = s.inHand → PollMove s p

section Poll
variable {s : Registrations ι α J} {p : Polling ι α}

theorem access_move (h : s.Owned) (hs : pollingStep s.polling .consumer = some p) :
    p.queue.producers = s.polling.queue.producers ∧ PollMove s p := by
  obtain ⟨nodes, hsound⟩ := h.sound
  obtain ⟨q, hq, rfl⟩ := Option.map_eq_some_iff.mp hs
  obtain ⟨nodes', hsound'⟩ := hsound.consumerStep hq
  obtain ⟨hproducers, hmove⟩ := hsound.consumer_move hsound' h.recorded hq
  have hlists := consumerStep_dequeued h.recorded hq
  have hold := hsound.taken_append_pending
  have hnew := hsound'.taken_append_pending
  have hmoving : ∀ ret, s.polling.queue.consumer ≠ .returned ret := by
    intro ret hret
    unfold Queue.consumerStep at hq
    simp [hret] at hq
  have hholding : s.holding = s.polling.queue.consumer.holds := holding_eq fun ptr he => hmoving _ he
  refine ⟨hproducers, ?_⟩
  cases hmove with
  | stays hpending hholds hnot =>
    have htaken : q.taken = s.polling.queue.taken := by
      rcases hlists with ⟨hd, -⟩ | ⟨ptr, -, hc⟩
      · exact taken_congr hd
      · exact absurd hc (hnot ptr)
    have hholding' : Registrations.holding { s with polling := { s.polling with
        queue := q, took := if s.polling.putsSleep then [] else s.polling.took } } = s.holding := by
      rw [hholding, ← hholds]
      exact holding_eq hnot
    refine .stays ?_ htaken hholding' ?_
    · rw [← hnew, ← hold, htaken, hpending]
    · rw [inHand_of_not_data (s := s) fun ptr he => hmoving _ he]
      exact inHand_of_not_data hnot
  | takes a hd hpending hret =>
    obtain ⟨call, len, limit, hpoller⟩ := h.at_ hd
    have hload : s.hold = .load := by
      rcases h.hold with hload | ⟨_, _, _, _, hrequeue⟩ | ⟨-, ptr, hret⟩
      · exact hload
      · cases hpoller.symm.trans hrequeue
      · exact absurd hret (hmoving _)
    have hnone : s.holding = none := by
      rw [hholding]
      cases hc : s.polling.queue.consumer <;> rw [hc] at hd <;> first | rfl | exact hd.elim
    have htaken : q.taken = s.polling.queue.taken ++ [a] := by
      rcases hlists with ⟨-, hnot⟩ | ⟨ptr, hdeq, hc⟩
      · exact absurd hret (hnot _)
      · obtain rfl : ptr = .data a := by
          simpa using hc.symm.trans hret
        exact taken_concat hdeq
    have hholding' : Registrations.holding { s with polling := { s.polling with
        queue := q, took := if s.polling.putsSleep then [] else s.polling.took } } = some a := by
      unfold Registrations.holding
      simp only [hret, hpoller, hload]
    refine .takes a ?_ htaken hload (inHand_of_load hload hnone) hholding' ?_
    · rw [← hnew, ← hold, htaken, hpending, List.append_assoc]
      rfl
    · refine (inHand_of_returned (s := { s with polling := { s.polling with
        queue := q, took := if s.polling.putsSleep then [] else s.polling.took } }) (.inl hload) hret).trans
        hholding'
  | putsBack a hb hpending hnone hnot =>
    have htaken : q.taken = s.polling.queue.taken := by
      rcases hlists with ⟨hd, -⟩ | ⟨ptr, -, hc⟩
      · exact taken_congr hd
      · exact absurd hc (hnot ptr)
    have hholding' : Registrations.holding { s with polling := { s.polling with
        queue := q, took := if s.polling.putsSleep then [] else s.polling.took } } = none := by
      rw [holding_eq hnot]
      exact hnone
    refine .putsBack a (hholding.trans hb) ?_ htaken hholding' ?_
    · rw [← hnew, ← hold, htaken, hpending, List.append_assoc]
    · rw [inHand_of_not_data (s := s) fun ptr he => hmoving _ he]
      exact inHand_of_not_data hnot

/-- **What a step of the poller that touches no node can do.** -/
theorem poll_move (h : s.Owned) {op : PollingOp ι α} (hop : s.polls op = true)
    (hs : pollingStep s.polling op = some p) :
    p.queue.producers = s.polling.queue.producers ∧ PollMove s p := by
  by_cases hne : op = .consumer
  · subst hne
    exact access_move h hs
  · obtain ⟨houtside, -, hload, hnone⟩ := h.outside hop hne hs
    have hcalled := pollingStep_called h.ok houtside hs
    have hlists := pollingStep_lists (fun i b he => by subst he; cases hop) hne hs
    have hnone' : Registrations.holding { s with polling := p } = none := holding_of_free hcalled.free
    exact ⟨hcalled.producers, .stays hlists.enqueued (taken_congr hlists.dequeued)
      (hnone'.trans hnone.symm)
      ((inHand_of_load (s := { s with polling := p }) hload hnone').trans
        (inHand_of_load hload hnone).symm)⟩

end Poll

/-! ## An access of a producer -/

section Producer
variable {s : Registrations ι α J} {p : Polling ι α} {i : ι} {wouldBlock : Bool}

/-- An access in `enqueue_node`: the node stays where it is, or goes into the queue. -/
theorem producer_move (h : s.Owned) (hs : pollingStep s.polling (.producer i wouldBlock) = some p) :
    p.queue.taken = s.polling.queue.taken ∧ p.queue.consumer = s.polling.queue.consumer ∧
      p.poller = s.polling.poller ∧
      (∀ j, j ≠ i → p.queue.producers j = s.polling.queue.producers j) ∧
      (p.queue.enqueued = s.polling.queue.enqueued ∧
          (∀ j, (p.queue.producers j).owed = (s.polling.queue.producers j).owed) ∨
        ∃ a, (s.polling.queue.producers i).owed = some a ∧
          p.queue.enqueued = s.polling.queue.enqueued ++ [a] ∧
          (p.queue.producers i).owed = none) := by
  obtain ⟨nodes, hsound⟩ := h.sound
  obtain ⟨hq, hpoller⟩ := producerStep_queue hs
  obtain ⟨nodes', hsound'⟩ := hsound.producerStep hq
  obtain ⟨hconsumer, hplaces⟩ := hsound.producer_places hq
  obtain ⟨hdeq, hothers⟩ := producerStep_others hq
  have hold := hsound.taken_append_pending
  have hnew := hsound'.taken_append_pending
  have htaken : p.queue.taken = s.polling.queue.taken := taken_congr hdeq
  refine ⟨htaken, hconsumer, hpoller, hothers, ?_⟩
  rcases hplaces with ⟨hpending, howed⟩ | ⟨a, ha, hpending, howed⟩
  · refine .inl ⟨?_, howed⟩
    rw [← hnew, ← hold, htaken, hpending]
  · refine .inr ⟨a, ha, ?_, by rw [howed i, if_pos rfl]⟩
    rw [← hnew, ← hold, htaken, hpending, List.append_assoc]

end Producer

/-! ## What the poller knows -/

namespace Registrations

/-- The poller only goes on with a word that it has seen without the dropped flag. -/
def Examined (s : Registrations ι α J) : Prop :=
  ∀ state, s.hold = .exchange state → state.isDropped = false

/-- What the poller holds has been dequeued. -/
def HandTaken (s : Registrations ι α J) : Prop :=
  ∀ a, s.holding = some a → a ∈ s.polling.queue.taken

end Registrations

section Known
variable {s s' : Registrations ι α J} {p : Polling ι α}

omit [DecidableEq ι] in
theorem NodeMove.examined (h : NodeMove s s') : s'.Examined := by
  intro state hstate
  cases h with
  | releases a _ _ _ _ _ hh =>
    rw [hh] at hstate
    cases hstate
  | examines a _ _ _ hdropped _ hh =>
    rw [hh] at hstate
    exact Hold.exchange.inj hstate ▸ hdropped
  | settles a _ _ _ _ _ hh =>
    rw [hh] at hstate
    split at hstate <;> cases hstate
  | reads a readiness pos token _ _ _ hh =>
    rw [hh] at hstate
    cases hstate
  | pushes a event _ _ hh =>
    rw [hh] at hstate
    cases hstate
  | clears a _ _ hh =>
    rw [hh] at hstate
    cases hstate

omit [DecidableEq ι] in
theorem NodeMove.handTaken (h : NodeMove s s') (hlists : SameLists s.polling.queue s'.polling.queue)
    (hhand : s.HandTaken) : s'.HandTaken := by
  intro b hb
  rw [taken_congr hlists.dequeued]
  cases h with
  | releases a _ _ _ _ _ _ hnone => cases hnone.symm.trans hb
  | examines a ha _ _ _ _ _ ha' => exact Option.some.inj (ha'.symm.trans hb) ▸ hhand a ha
  | settles a ha _ _ _ _ _ ha' =>
    rw [ha'] at hb
    split at hb
    · exact Option.some.inj hb ▸ hhand a ha
    · cases hb
  | reads a readiness pos token _ _ _ _ hnone => cases hnone.symm.trans hb
  | pushes a event _ _ _ hnone => cases hnone.symm.trans hb
  | clears a _ _ _ hnone => cases hnone.symm.trans hb

omit [DecidableEq ι] [DecidableEq α] in
theorem PollMove.handTaken (h : PollMove s p) (hhand : s.HandTaken) :
    ({ s with polling := p } : Registrations ι α J).HandTaken := by
  intro b hb
  cases h with
  | stays _ htaken hholding _ =>
    show b ∈ p.queue.taken
    rw [htaken]
    exact hhand b (hholding ▸ hb)
  | takes a _ htaken _ _ hholding _ =>
    show b ∈ p.queue.taken
    obtain rfl := Option.some.inj (hholding.symm.trans hb)
    rw [htaken]
    exact List.mem_append_right _ (List.mem_singleton_self _)
  | putsBack a _ _ _ hnone _ => cases hnone.symm.trans hb

end Known

end MyMio

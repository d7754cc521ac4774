import MyMio.Node.Shares
import MyMio.Queue.Draining

/-! # Dropped nodes and a queue that is being drained

What an access of a thread does to the word of a node, and what becomes of the queued flags once
`ReadinessQueue::drop` has swapped in the closed marker: a node is then still owned by one party as
long as its flag is up, but a producer that finds the queue closed lets go of it, and so does `drop`
of what it takes.
-/

namespace MyMio
set_option autoImplicit false

open BrokenQueue Ledger

universe u v w

variable {ι : Type v} {α : Type u} {J : Type w} [DecidableEq ι] [DecidableEq α]

/-! ## An access of a thread -/

/-- The word of a node whose `Registration` is gone. -/
def ReadinessState.Final (s : ReadinessState) : Prop := s.isDropped = true ∧ s.isQueued = true

/-- What a thread is doing, by the access it is about to make. -/
def Thread.Runs : Thread α J → Doing α J → Prop
  | .idle, _ => True
  | .setLoad a _, doing | .setExchange a _ _, doing => doing = .setting a
  | .updateLock a _, doing | .updateLoad a _, doing | .updateToken a _ _ _, doing
  | .updateExchange a _ _ _, doing | .updateUnlock a _ _, doing | .updateJob a _, doing =>
    doing = .updating a
  | .dropOr a, doing => doing = .dropping a
  | .enqueue a, doing => doing = .setting a ∨ doing = .updating a ∨ doing = .dropping a

section Accesses
variable {s s' : Registrations ι α J} {a b : α} {i : ι}

omit [DecidableEq ι] in
theorem word_store (s : Registrations ι α J) (a b : α) (next : ReadinessState) :
    (s.store a next).word b = if b = a then next else s.word b := by
  have hword : (s.setWord a next).word b = if b = a then next else s.word b := by
    by_cases hb : b = a
    · rw [if_pos hb, hb]
      exact word_setWord s a next
    · rw [if_neg hb]
      exact word_setWord_of_ne s next hb
  unfold Registrations.store
  dsimp only
  split <;> exact hword

inductive WordMove (s s' : Registrations ι α J) (i : ι) (b : α) : Prop
  | stays : s'.word b = s.word b → WordMove s s' i b
  | signals (ready : Ready) : s.threads i = .setExchange b ready (s.word b) →
      s'.word b = (s.word b).afterSetReadiness ready →
      (s'.threads i = if Registrations.owes (s.word b) (s'.word b) then .enqueue b else .idle) →
      WordMove s s' i b
  | updates (u : Update J) (pos : Usize) : s.threads i = .updateExchange b u (s.word b) pos →
      s'.word b = (s.word b).afterUpdate pos u.interest u.opt → WordMove s s' i b
  | drops : s.threads i = .dropOr b → s'.word b = (s.word b).flagAsDropped →
      (s'.threads i = if (s.word b).isQueued then .idle else .enqueue b) → WordMove s s' i b

theorem threadStep_word (hs : s.threadStep i = some s') (b : α) : WordMove s s' i b := by
  have hpc : ∀ (t : Registrations ι α J) (pc : Thread α J), (t.goto i pc).threads i = pc :=
    fun t pc => Function.update_self ..
  have hset : ∀ (a : α) (node : Node J) (pc : Thread α J), node.state = s.word a →
      ((s.setNode a node).goto i pc).word b = s.word b :=
    fun a node pc hnode => state_update hnode b
  cases threadStep_move hs with
  | tries _ _ _ hs' | misses _ _ _ _ hs' | keepsToken _ _ _ _ hs' | picksSlot _ _ _ _ _ hs'
  | retries _ _ _ _ _ _ hs' | enqueues _ _ _ _ hs' =>
    subst hs'
    exact .stays rfl
  | locks a _ _ _ hs' | unlocks a _ _ _ hs' | storesJob a _ _ hs' =>
    subst hs'
    exact .stays (hset a _ _ rfl)
  | writesToken a u state pos node _ hnode hs' =>
    subst hs'
    exact .stays (hset a _ _ (storeToken_state hnode))
  | signals a ready next hi hnext hs' =>
    have hword : s'.word b = if b = a then next else s.word b := hs' ▸ word_store s a b next
    by_cases hb : b = a
    · subst hb
      rw [if_pos rfl] at hword
      refine .signals ready hi (hword.trans hnext) ?_
      rw [hword, hs', hpc]
    · rw [if_neg hb] at hword
      exact .stays hword
  | updates a u pos next hi hnext hs' =>
    have hword : s'.word b = if b = a then next else s.word b := hs' ▸ word_store s a b next
    by_cases hb : b = a
    · subst hb
      rw [if_pos rfl] at hword
      exact .updates u pos hi (hword.trans hnext)
    · rw [if_neg hb] at hword
      exact .stays hword
  | drops a hi hs' =>
    by_cases hb : b = a
    · subst hb hs'
      exact .drops hi (word_setWord s b _) (hpc _ _)
    · subst hs'
      exact .stays (word_setWord_of_ne s _ hb)

/-- No access of a thread takes a flag down. -/
theorem threadStep_final (hs : s.threadStep i = some s') (h : (s.word b).Final) :
    (s'.word b).Final := by
  cases threadStep_word hs b with
  | stays hword =>
    rw [hword]
    exact h
  | signals ready _ hword =>
    rw [hword]
    exact ⟨ReadinessState.isDropped_afterSetReadiness ready h.1,
      ReadinessState.isQueued_afterSetReadiness ready h.2⟩
  | updates u pos _ hword =>
    rw [hword]
    exact ⟨ReadinessState.isDropped_afterUpdate pos u.interest u.opt h.1,
      ReadinessState.isQueued_afterUpdate pos u.interest u.opt h.2⟩
  | drops _ hword =>
    rw [hword]
    exact ⟨ReadinessState.isDropped_flagAsDropped _, ReadinessState.isQueued_flagAsDropped _⟩

theorem threadStep_dropped (hs : s.threadStep i = some s') (hi : s.threads i = .dropOr a) :
    (s'.word a).Final := by
  simp only [Registrations.threadStep, hi] at hs
  obtain rfl := Option.some.inj hs
  have hword : (s.setWord a (s.word a).flagAsDropped).word a = (s.word a).flagAsDropped :=
    word_setWord s a _
  show ((s.setWord a (s.word a).flagAsDropped).word a).Final
  rw [hword]
  exact ⟨ReadinessState.isDropped_flagAsDropped _, ReadinessState.isQueued_flagAsDropped _⟩

omit [DecidableEq ι] [DecidableEq α] in
/-- A thread owes a node to the queue in `enqueue_with_wakeup` or in `update`. -/
theorem enqueue_of_owing {pc : Thread α J} (h : pc.owing = some b) :
    pc = .enqueue b ∨ pc.Runs (.updating b) := by
  cases pc with
  | enqueue a => exact .inl (congrArg _ (Option.some.inj h))
  | updateJob a u => exact .inr (congrArg _ (Option.some.inj h).symm)
  | updateUnlock a u enqueues =>
    cases enqueues with
    | false => cases h
    | true => exact .inr (congrArg _ (Option.some.inj h).symm)
  | _ => cases h

/-- A node that is queued after an access, with no `update` of it at work: it was before, and the
thread did not owe it, or the thread owes it now. -/
theorem threadStep_queued (hs : s.threadStep i = some s') (henqueue : s.threads i ≠ .enqueue b)
    (hupdate : ¬ (s.threads i).Runs (.updating b)) (hq : (s'.word b).isQueued = true) :
    (s.word b).isQueued = true ∧ (s.threads i).owing ≠ some b ∨ (s'.threads i).owing = some b := by
  have hnot : (s.threads i).owing ≠ some b := fun ho => (enqueue_of_owing ho).elim henqueue hupdate
  cases hold : (s.word b).isQueued with
  | true => exact .inl ⟨rfl, hnot⟩
  | false =>
    refine .inr ?_
    cases threadStep_word hs b with
    | stays hword =>
      rw [hword, hold] at hq
      cases hq
    | signals ready _ _ hpc =>
      have howes : Registrations.owes (s.word b) (s'.word b) = true := by
        simp [Registrations.owes, hold, hq]
      rw [hpc, if_pos howes]
      rfl
    | updates u pos hi _ =>
      refine absurd ?_ hupdate
      rw [hi]
      rfl
    | drops _ _ hpc =>
      rw [hpc, hold]
      rfl

theorem Thread.Runs.step {doing : Doing α J} (h : (s.threads i).Runs doing)
    (hs : s.threadStep i = some s') : (s'.threads i).Runs doing := by
  have hpc : ∀ (t : Registrations ι α J) (pc : Thread α J), (t.goto i pc).threads i = pc :=
    fun t pc => Function.update_self ..
  cases threadStep_move hs with
  | tries a ready hi hs' =>
    have hdoing : doing = .setting a := by
      rcases hi with hi | ⟨state, hi⟩
      · rw [hi] at h
        exact h
      · rw [hi] at h
        exact h
    rw [hs', hpc]
    unfold Registrations.trySet
    split
    · trivial
    · exact hdoing
  | signals a ready next hi _ hs' =>
    rw [hi] at h
    rw [hs', hpc]
    split
    · exact .inl h
    · trivial
  | misses a u hi _ hs' =>
    rw [hs', hpc]
    trivial
  | locks a u hi _ hs' | keepsToken a u hi _ hs' | picksSlot a u pos hi _ hs'
  | writesToken a u state pos node hi _ hs' | retries a u state pos hi _ hs'
  | updates a u pos next hi _ hs' =>
    rw [hi] at h
    rw [hs', hpc]
    exact h
  | unlocks a u enqueues hi hs' =>
    rw [hi] at h
    rw [hs', hpc]
    split
    · exact h
    · trivial
  | storesJob a u hi hs' =>
    rw [hi] at h
    rw [hs', hpc]
    exact .inr (.inl h)
  | drops a hi hs' =>
    rw [hi] at h
    rw [hs', hpc]
    split
    · trivial
    · exact .inr (.inr h)
  | enqueues a p hi _ hs' =>
    rw [hs']
    show (Function.update s.threads i .idle i).Runs doing
    rw [Function.update_self]
    trivial

end Accesses

/-! ## The queued flags while the poll is being dropped -/

/-- The registrations on a poll from the swap of the closed marker on. -/
structure Registrations.Draining (s : Registrations ι α J) (edge : Option (Ptr α)) : Prop where
  queue : ∃ nodes, MyMio.Draining s.polling.queue edge nodes
  poller : s.polling.poller = .idle
  books : s.Booked

section Draining
variable {s s' : Registrations ι α J} {a : α} {i : ι} {edge : Option (Ptr α)} {p : Polling ι α}

theorem Registrations.Booked.store (h : s.Booked) {pc : Thread α J} {next : ReadinessState}
    (hq : (s.word a).isQueued = true → next.isQueued = true) (hi : (s.threads i).owing = none)
    (hpc : pc.owing = if Registrations.owes (s.word a) next then some a else none) :
    ((s.store a next).goto i pc).Booked := by
  unfold Registrations.store
  dsimp only
  split <;> exact Registrations.Booked.flagged h hq hi hpc

theorem Registrations.Booked.threadStep (h : s.Booked) (hs : s.threadStep i = some s') :
    s'.Booked := by
  have hquiet : ∀ (pc : Thread α J), pc.owing = (s.threads i).owing → (s.goto i pc).Booked :=
    fun pc hpc => Registrations.Booked.quiet (n := s.nodes) h hpc fun _ => rfl
  have hset : ∀ (a : α) (node : Node J) (pc : Thread α J), node.state = s.word a →
      pc.owing = (s.threads i).owing → ((s.setNode a node).goto i pc).Booked :=
    fun a node pc hnode hpc => Registrations.Booked.quiet h hpc fun b =>
      congrArg ReadinessState.isQueued (state_update hnode b)
  cases threadStep_move hs with
  | tries a ready hi hs' =>
    subst hs'
    refine hquiet _ ?_
    rw [owing_trySet]
    rcases hi with hi | ⟨state, hi⟩ <;> rw [hi] <;> rfl
  | signals a ready next hi hnext hs' =>
    subst hs' hnext
    refine Registrations.Booked.store h (fun hq => ?_) (by rw [hi]; rfl) ?_
    · exact ReadinessState.isQueued_afterSetReadiness ready hq
    · split <;> rfl
  | misses a u hi _ hs' | keepsToken a u hi _ hs' | picksSlot a u pos hi _ hs'
  | retries a u state pos hi _ hs' =>
    subst hs'
    exact hquiet _ (by rw [hi]; rfl)
  | locks a u hi _ hs' | storesJob a u hi hs' =>
    subst hs'
    exact hset a _ _ rfl (by rw [hi]; rfl)
  | writesToken a u state pos node hi hnode hs' =>
    subst hs'
    exact hset a _ _ (storeToken_state hnode) (by rw [hi]; rfl)
  | updates a u pos next hi hnext hs' =>
    subst hs' hnext
    refine Registrations.Booked.store h (fun hq => ?_) (by rw [hi]; rfl) ?_
    · exact ReadinessState.isQueued_afterUpdate pos u.interest u.opt hq
    · cases Registrations.owes (s.word a) ((s.word a).afterUpdate pos u.interest u.opt) <;> rfl
  | unlocks a u enqueues hi hs' =>
    subst hs'
    refine hset a _ _ rfl ?_
    rw [hi]
    cases enqueues <;> rfl
  | drops a hi hs' =>
    subst hs'
    refine Registrations.Booked.flagged h (fun _ => ReadinessState.isQueued_flagAsDropped _)
      (by rw [hi]; rfl) ?_
    unfold Registrations.owes
    rw [ReadinessState.isQueued_flagAsDropped]
    cases (s.word a).isQueued <;> rfl
  | enqueues a p hi hp hs' =>
    subst hs'
    obtain ⟨q, hq, rfl⟩ := Option.map_eq_some_iff.mp hp
    simp only [queueStep] at hq
    split at hq
    · obtain rfl := Option.some.inj hq
      exact Registrations.Booked.enqueue h hi ‹_›
    · cases hq

/-- A thread gives up a node that it owes to the queue, for ever. -/
theorem Registrations.Booked.forget (h : s.Booked) (hi : s.threads i = .enqueue a) :
    ({ s.goto i .idle with released := Function.update s.released a true } :
      Registrations ι α J).Booked := by
  have howns : s.Owns a (.thread i) := by
    show (s.threads i).owing = some a
    rw [hi]
    rfl
  have honly : ∀ b, s.Owns b (.thread i) → b = a := by
    intro b hb
    change (s.threads i).owing = some b at hb
    rw [hi] at hb
    exact (Option.some.inj hb).symm
  refine Books.retire h howns (Function.update_self ..) (fun b hb => Function.update_of_ne hb ..)
    (Books.without h howns honly fun b o => ?_)
  cases o with
  | thread j =>
    show (Function.update s.threads i .idle j).owing = some b ↔ _
    by_cases hj : j = i
    · rw [hj, Function.update_self]
      exact ⟨fun he => (by cases he), fun hne => absurd rfl hne.1⟩
    · rw [Function.update_of_ne hj]
      exact ⟨fun ho => ⟨fun he => hj (Owner.thread.inj he), ho⟩, And.right⟩
  | _ => exact ⟨fun ho => ⟨by simp, ho⟩, And.right⟩

theorem Registrations.Owned.forget (h : s.Owned) (hi : s.threads i = .enqueue a)
    (hdropped : (s.word a).isDropped = true) :
    ({ s.goto i .idle with released := Function.update s.released a true } :
      Registrations ι α J).Owned := by
  refine ⟨h.sound, h.recorded, h.ok, h.at_, h.hold, Registrations.Booked.forget h.books hi,
    fun b hb => ?_, h.signalled⟩
  by_cases hba : b = a
  · rw [hba]
    exact hdropped
  · change Function.update s.released a true b = true at hb
    rw [Function.update_of_ne hba] at hb
    exact h.dropped b hb

omit [DecidableEq ι] [DecidableEq α] in
theorem holding_of_draining {nodes : List (Ptr α)} (h : MyMio.Draining s.polling.queue edge nodes)
    (hp : s.polling.poller = .idle) : s.holding = none := by
  classical
  refine holding_of_free ⟨fun b phase hc => ?_, fun ptr _ call len limit he => ?_⟩
  · have hconsumer := h.consumer
    rw [hc] at hconsumer
    exact hconsumer
  · cases hp.symm.trans he

omit [DecidableEq ι] [DecidableEq α] in
theorem Registrations.Booked.polling (h : s.Booked)
    (hholding : ({ s with polling := p } : Registrations ι α J).holding = s.holding)
    (hpending : p.queue.pending = s.polling.queue.pending)
    (howed : ∀ j, (p.queue.producers j).owed = (s.polling.queue.producers j).owed) :
    ({ s with polling := p } : Registrations ι α J).Booked := by
  refine Books.congr h (fun _ => rfl) fun b o => ?_
  cases o with
  | queue =>
    show b ∈ p.queue.pending ↔ _
    rw [hpending]
    exact Iff.rfl
  | poller =>
    show Registrations.holding _ = some b ↔ _
    rw [hholding]
    exact Iff.rfl
  | thread j => exact Iff.rfl
  | enqueuer j =>
    show (p.queue.producers j).owed = some b ↔ _
    rw [howed j]
    exact Iff.rfl

theorem Registrations.Draining.threadStep (h : s.Draining edge) (hs : s.threadStep i = some s') :
    s'.Draining edge := by
  obtain ⟨nodes, hq⟩ := h.queue
  have hbooks := Registrations.Booked.threadStep h.books hs
  rcases (threadStep_frame hs).polling with hp | ⟨a, hi, -, hidle, hp⟩
  · exact ⟨⟨nodes, hp ▸ hq⟩, hp ▸ h.poller, hbooks⟩
  · have howns : s.Owns a (.thread i) := by
      show (s.threads i).owing = some a
      rw [hi]
      rfl
    refine ⟨⟨nodes, ?_⟩, ?_, hbooks⟩
    · rw [hp]
      refine hq.begin hidle (fun hm => ?_) fun j hj => ?_
      · cases h.books.unique a (.thread i) .queue howns hm
      · cases h.books.unique a (.thread i) (.enqueuer j) howns hj
    · rw [hp]
      exact h.poller

theorem Registrations.Draining.producer (h : s.Draining edge) {wouldBlock : Bool}
    (hs : pollingStep s.polling (.producer i wouldBlock) = some p) :
    (∀ a, s.polling.queue.producers i ≠ .enqueue a (.exchange .closedMarker)) ∧
        ({ s with polling := p } : Registrations ι α J).Draining edge ∨
      ∃ a, s.polling.queue.producers i = .enqueue a (.exchange .closedMarker) ∧
        s.Owns a (.enqueuer i) ∧
        ({ s with polling := p, released := Function.update s.released a true } :
          Registrations ι α J).Draining edge := by
  obtain ⟨nodes, hq⟩ := h.queue
  obtain ⟨hstep, hpoller⟩ := producerStep_queue hs
  obtain ⟨hq', hconsumer, hpending, -, hmove⟩ := hq.producerStep hstep
  have hidle : p.poller = .idle := hpoller.trans h.poller
  have hnone := holding_of_draining hq h.poller
  have hnone' : ({ s with polling := p } : Registrations ι α J).holding = none :=
    holding_of_draining (s := { s with polling := p }) hq' hidle
  cases hmove with
  | stays hnot howed =>
    exact .inl ⟨hnot, ⟨nodes, hq'⟩, hidle,
      Registrations.Booked.polling h.books (hnone'.trans hnone.symm) hpending howed⟩
  | refused a hi howed =>
    have howns : s.Owns a (.enqueuer i) := by
      show (s.polling.queue.producers i).owed = some a
      rw [hi]
      rfl
    have honly : ∀ b, s.Owns b (.enqueuer i) → b = a := by
      intro b hb
      change (s.polling.queue.producers i).owed = some b at hb
      rw [hi] at hb
      exact (Option.some.inj hb).symm
    refine .inr ⟨a, hi, howns, ⟨nodes, hq'⟩, hidle, ?_⟩
    refine Books.retire h.books howns (Function.update_self ..)
      (fun b hb => Function.update_of_ne hb ..) (Books.without h.books howns honly fun b o => ?_)
    cases o with
    | queue =>
      show b ∈ p.queue.pending ↔ _
      rw [hpending]
      exact ⟨fun ho => ⟨by simp, ho⟩, And.right⟩
    | poller =>
      show Registrations.holding _ = some b ↔ _
      have hnone'' : ({ s with polling := p, released := Function.update s.released a true } :
        Registrations ι α J).holding = none := hnone'
      rw [hnone'']
      exact ⟨fun he => (by cases he), fun ho => by cases hnone.symm.trans ho.2⟩
    | thread j => exact ⟨fun ho => ⟨by simp, ho⟩, And.right⟩
    | enqueuer j =>
      show (p.queue.producers j).owed = some b ↔ _
      rw [howed j]
      by_cases hj : j = i
      · rw [if_pos hj, hj]
        exact ⟨fun he => (by cases he), fun hne => absurd rfl hne.1⟩
      · rw [if_neg hj]
        exact ⟨fun ho => ⟨fun he => hj (Owner.enqueuer.inj he), ho⟩, And.right⟩

omit [DecidableEq ι] [DecidableEq α] in
theorem atRest_of_idle (h : s.polling.Ok) (hidle : s.polling.poller = .idle) :
    s.polling.queue.consumer.AtRest := by
  have hpoller := h.poller
  unfold Polling.PollerOk at hpoller
  rw [hidle] at hpoller
  exact hpoller

omit [DecidableEq ι] in
theorem Registrations.Owned.clearClosed (h : s.Owned) (hidle : s.polling.poller = .idle) :
    ({ s with
      polling := { s.polling with
        queue := { s.polling.queue with
          mem := { s.polling.queue.mem with
            next := Function.update s.polling.queue.mem.next .closedMarker none } } } } :
      Registrations ι α J).Owned := by
  obtain ⟨nodes, hsound⟩ := h.sound
  have hrest := atRest_of_idle h.ok hidle
  obtain ⟨ret, hret⟩ := hrest
  have hb : s.polling.queue.consumer.busy = none := by rw [hret]; rfl
  refine ⟨⟨nodes, hsound.clearMarker (c := s.polling.queue.consumer) hsound.closed hb hb ?_⟩,
    h.recorded, ⟨h.ok.took, ?_⟩, h.at_, h.hold, h.books, h.dropped, h.signalled⟩
  · rw [hret]
    trivial
  · unfold Polling.PollerOk
    rw [hidle]
    exact ⟨ret, hret⟩

omit [DecidableEq ι] [DecidableEq α] in
theorem Registrations.Owned.close (h : s.Owned) (hidle : s.polling.poller = .idle)
    (hnext : s.polling.queue.mem.next .closedMarker = none) :
    ({ s with
      polling := { s.polling with
        queue := { s.polling.queue with
          mem := { s.polling.queue.mem with head := .closedMarker } } } } :
      Registrations ι α J).Draining (some s.polling.queue.mem.head) := by
  obtain ⟨nodes, hsound⟩ := h.sound
  have hq := hsound.close (atRest_of_idle h.ok hidle) hnext
  have hnone : s.holding = none := h.holding_none (by rw [hidle]; exact id)
  refine ⟨⟨_, hq⟩, hidle, Registrations.Booked.polling h.books ?_ rfl fun _ => rfl⟩
  rw [hnone]
  exact holding_of_draining hq hidle

omit [DecidableEq ι] in
theorem Registrations.Draining.link {prev : Ptr α} (h : s.Draining (some prev)) :
    ({ s with
      polling := { s.polling with
        queue := { s.polling.queue with
          mem := { s.polling.queue.mem with
            next := Function.update s.polling.queue.mem.next prev (some .closedMarker) } } } } :
      Registrations ι α J).Draining none := by
  obtain ⟨nodes, hq⟩ := h.queue
  have hq' := hq.link
  refine ⟨⟨nodes, hq'⟩, h.poller, Registrations.Booked.polling h.books ?_ rfl fun _ => rfl⟩
  rw [holding_of_draining hq h.poller]
  exact holding_of_draining hq' h.poller

theorem Registrations.Draining.call {q : Queue ι α} (h : s.Draining edge)
    (hs : queueStep s.polling.queue (.dequeueNode none) = some q) :
    ({ s with polling := { s.polling with queue := q } } : Registrations ι α J).Draining edge := by
  obtain ⟨nodes, hq⟩ := h.queue
  obtain ⟨-, hcall⟩ := queueStep_call rfl hs
  obtain rfl := Option.some.inj hcall
  have hq' := hq.move (c := .dequeueTail none) trivial
  refine ⟨⟨nodes, hq'⟩, h.poller, Registrations.Booked.polling h.books ?_ rfl fun _ => rfl⟩
  rw [holding_of_draining hq h.poller]
  exact holding_of_draining hq' h.poller

omit [DecidableEq ι] in
/-- An access of `drop` to the queue, which takes a node or none. -/
theorem Registrations.Draining.consumer {q : Queue ι α} (h : s.Draining edge)
    (hs : s.polling.queue.consumerStep = some q)
    (hlinked : s.polling.queue.consumer = .dequeueTail none →
      s.polling.queue.tail.isData = false →
      s.polling.queue.mem.next s.polling.queue.tail = none →
      s.polling.queue.tail = .closedMarker)
    (hdata : ∀ ptr, q.consumer = .returned (.dequeue (.data ptr)) → ptr.isData = true) :
    q.producers = s.polling.queue.producers ∧
      (q.consumer = .returned (.dequeue .empty) → q.tail = .closedMarker) ∧
      ((∀ ptr, q.consumer ≠ .returned (.dequeue (.data ptr))) ∧
          ({ s with polling := { s.polling with queue := q } } : Registrations ι α J).Draining edge ∨
        ∃ a, q.consumer = .returned (.dequeue (.data (.data a))) ∧ s.Owns a .queue ∧
          ({ s with
            polling := { s.polling with queue := q }
            released := Function.update s.released a true } :
            Registrations ι α J).Draining edge) := by
  obtain ⟨nodes, hq⟩ := h.queue
  obtain ⟨⟨nodes', hq'⟩, hproducers, hmove, hempty⟩ := hq.consumerStep hs hlinked hdata
  have hnone := holding_of_draining hq h.poller
  have hnone' : ({ s with polling := { s.polling with queue := q } } : Registrations ι α J).holding =
    none := holding_of_draining (s := { s with polling := { s.polling with queue := q } }) hq' h.poller
  refine ⟨hproducers, hempty, ?_⟩
  cases hmove with
  | stays hpending hnot =>
    refine .inl ⟨hnot, ⟨nodes', hq'⟩, h.poller, ?_⟩
    exact Registrations.Booked.polling h.books (hnone'.trans hnone.symm) hpending fun j => by
      rw [hproducers]
  | takes a hpending hret =>
    have howns : s.Owns a .queue := by
      show a ∈ s.polling.queue.pending
      rw [hpending]
      exact List.mem_cons_self
    have hnodup : s.polling.queue.pending.Nodup := hq.pending_nodup
    rw [hpending] at hnodup
    refine .inr ⟨a, hret, howns, ⟨nodes', hq'⟩, h.poller, ?_⟩
    refine Books.retire h.books howns (Function.update_self ..)
      (fun b hb => Function.update_of_ne hb ..) fun b o => ?_
    have hother : b = a → o ≠ .queue → ¬ s.Owns b o := by
      rintro rfl ho hb
      exact ho (h.books.unique b o .queue hb howns)
    cases o with
    | queue =>
      show b ∈ q.pending ↔ b ≠ a ∧ b ∈ s.polling.queue.pending
      rw [hpending, List.mem_cons]
      constructor
      · intro hb
        exact ⟨fun he => (List.nodup_cons.mp hnodup).1 (he ▸ hb), .inr hb⟩
      · intro ⟨hne, hb⟩
        exact hb.resolve_left hne
    | poller =>
      show Registrations.holding _ = some b ↔ _
      have hnone'' : ({ s with
          polling := { s.polling with queue := q }
          released := Function.update s.released a true } : Registrations ι α J).holding = none := hnone'
      rw [hnone'']
      exact ⟨fun he => (by cases he), fun ho => by cases hnone.symm.trans ho.2⟩
    | thread j => exact ⟨fun ho => ⟨fun he => hother he (by simp) ho, ho⟩, And.right⟩
    | enqueuer j =>
      show (q.producers j).owed = some b ↔ _
      rw [hproducers]
      exact ⟨fun ho => ⟨fun he => hother he (by simp) ho, ho⟩, And.right⟩

end Draining

end MyMio

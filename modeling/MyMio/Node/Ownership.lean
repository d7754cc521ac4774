import MyMio.Foundations.Ledger
import MyMio.Node.Model
import MyMio.Queue.Pending

/-! # Who owns a queued node

The queued flag of a node stands for one duty: the node is in the queue, or the poller has it in
hand, or exactly one thread owes it to the queue. The flag outlives its owner in one case, by
design: the poller releases a node whose dropped flag it sees and leaves the queued flag up, so that
nobody enqueues the node again (`queued_flag_owned`).
-/

namespace MyMio
set_option autoImplicit false

open BrokenQueue StepSystem Ledger

universe u v w

variable {ι : Type v} {α : Type u} {J : Type w}

/-! ## Owners -/

inductive Owner (ι : Type v)
  | queue
  | poller
  /-- a thread that is about to call `enqueue_with_wakeup` -/
  | thread (i : ι)
  /-- a thread in `enqueue_node`, before its `compare_exchange` has succeeded -/
  | enqueuer (i : ι)
  deriving DecidableEq, Repr

/-- The node a thread owes to the queue. -/
def Thread.owing : Thread α J → Option α
  | .updateUnlock a _ true | .updateJob a _ | .enqueue a => some a
  | _ => none

namespace Registrations

/-- The node the poller has in hand: dequeued and its word not settled, or about to be put back. -/
def holding (s : Registrations ι α J) : Option α :=
  match s.polling.queue.consumer with
  | .requeue a phase => owed a phase
  | .returned (.dequeue (.data (.data a))) =>
    match s.polling.poller, s.hold with
    | .dequeue _ _ _, .load => some a
    | .dequeue _ _ _, .exchange _ => some a
    | _, _ => none
  | _ => none

def Owns (s : Registrations ι α J) (a : α) : Owner ι → Prop
  | .queue => a ∈ s.polling.queue.pending
  | .poller => s.holding = some a
  | .thread i => (s.threads i).owing = some a
  | .enqueuer i => (s.polling.queue.producers i).owed = some a

/-- Outside the loop of `ReadinessQueue::poll` the poller has no node half done. -/
def HoldOk (s : Registrations ι α J) : Prop :=
  s.hold = .load ∨ (∃ call len limit readiness, s.polling.poller = .requeue call len limit readiness) ∨
    (∃ call len limit, s.polling.poller = .dequeue call len limit) ∧
      ∃ ptr, s.polling.queue.consumer = .returned (.dequeue (.data ptr))

end Registrations

variable [DecidableEq ι] [DecidableEq α]

structure Registrations.Owned (s : Registrations ι α J) : Prop where
  sound : ∃ nodes, Sound s.polling.queue nodes
  recorded : Recorded s.polling.queue
  ok : s.polling.Ok
  at_ : s.polling.At
  hold : s.HoldOk
  books : Books (fun a => (s.word a).isQueued) s.Owns s.released
  dropped : ∀ a, s.released a = true → (s.word a).isDropped = true
  signalled : ∀ a, s.signalled a = true → (s.word a).isQueued = true

section Facts
variable {s s' : Registrations ι α J} {a : α} {i : ι}

omit [DecidableEq ι] [DecidableEq α] in
theorem holding_of_free (h : s.polling.HandsFree) : s.holding = none := by
  unfold Registrations.holding
  cases hc : s.polling.queue.consumer with
  | requeue b phase => exact absurd hc (h.1 b phase)
  | returned ret =>
    cases ret with
    | dequeue d =>
      cases d with
      | data ptr =>
        cases ptr with
        | data b =>
          cases hp : s.polling.poller with
          | dequeue call len limit => exact absurd hp (h.2 _ hc call len limit)
          | _ => rfl
        | _ => rfl
      | _ => rfl
    | _ => rfl
  | _ => rfl

omit [DecidableEq ι] [DecidableEq α] in
/-- While the consumer is at an access, what it holds is what it puts back. -/
theorem holding_eq (h : ∀ ptr, s.polling.queue.consumer ≠ .returned (.dequeue (.data ptr))) :
    s.holding = s.polling.queue.consumer.holds := by
  unfold Registrations.holding Consumer.holds
  cases hc : s.polling.queue.consumer with
  | returned ret =>
    cases ret with
    | dequeue d =>
      cases d with
      | data ptr => exact absurd hc (h ptr)
      | _ => rfl
    | _ => rfl
  | _ => rfl

omit [DecidableEq ι] [DecidableEq α] in
/-- A node that a thread is about to enqueue, or the poller to put back, is free. -/
theorem Registrations.Owned.free (h : s.Owned) {o : Owner ι} (ho : s.Owns a o) (hq : o ≠ .queue)
    (he : ∀ j, o ≠ .enqueuer j)
    (hp : ∀ b phase, s.polling.queue.consumer = .requeue b phase → o ≠ .poller) :
    s.polling.queue.Free a := by
  obtain ⟨nodes, hsound⟩ := h.sound
  refine hsound.free (fun hm => ?_) (fun j hj => ?_) fun b phase hc hb => ?_
  · exact hq (h.books.unique a o .queue ho hm)
  · exact he j (h.books.unique a o (.enqueuer j) ho hj)
  · have hpoller : s.Owns a .poller := by
      show s.holding = some a
      unfold Registrations.holding
      rw [hc]
      exact hb
    exact hp b phase hc (h.books.unique a o .poller ho hpoller)

end Facts

/-! ## The steps of a thread -/

/-- The books of the queued flags. -/
abbrev Registrations.Booked (s : Registrations ι α J) : Prop :=
  Books (fun a => (s.word a).isQueued) s.Owns s.released

section Threads
variable {s s' : Registrations ι α J} {a : α} {i : ι}

omit [DecidableEq ι] in
theorem store_polling (s : Registrations ι α J) (a : α) (next : ReadinessState) :
    (s.store a next).polling = s.polling := by
  unfold Registrations.store
  dsimp only
  split <;> rfl

omit [DecidableEq α] in
theorem Registrations.Booked.quiet (h : s.Booked) {pc : Thread α J} {n : α → Node J}
    (hpc : pc.owing = (s.threads i).owing)
    (hq : ∀ a, (n a).state.isQueued = (s.word a).isQueued) :
    ({ s with nodes := n, threads := Function.update s.threads i pc } :
      Registrations ι α J).Booked := by
  refine Books.congr h hq fun a o => ?_
  cases o with
  | thread j =>
    show (Function.update s.threads i pc j).owing = some a ↔ (s.threads j).owing = some a
    by_cases hj : j = i
    · subst hj
      rw [Function.update_self, hpc]
    · rw [Function.update_of_ne hj]
  | _ => exact Iff.rfl

omit [DecidableEq α] in
theorem Registrations.Owned.quiet (h : s.Owned) {pc : Thread α J} {nodes : α → Node J}
    (hpc : pc.owing = (s.threads i).owing) (hword : ∀ a, (nodes a).state = s.word a) :
    ({ s with nodes := nodes, threads := Function.update s.threads i pc } :
      Registrations ι α J).Owned := by
  refine ⟨h.sound, h.recorded, h.ok, h.at_, h.hold, Registrations.Booked.quiet h.books hpc fun a => ?_,
    fun a hr => ?_, fun a hsig => ?_⟩
  · exact congrArg ReadinessState.isQueued (hword a)
  · exact (congrArg ReadinessState.isDropped (hword a)).trans (h.dropped a hr)
  · exact (congrArg ReadinessState.isQueued (hword a)).trans (h.signalled a hsig)

omit [DecidableEq ι] in
theorem state_update {node : Node J} (hnode : node.state = s.word a) (b : α) :
    (Function.update s.nodes a node b).state = s.word b := by
  by_cases hb : b = a
  · subst hb
    rw [Function.update_self, hnode]
  · rw [Function.update_of_ne hb]
    rfl

omit [DecidableEq ι] [DecidableEq α] in
theorem storeToken_state {node : Node J} {pos : Usize} {token : TokenEntry}
    (h : (s.nodes a).storeToken pos token = some node) : node.state = s.word a := by
  unfold Node.storeToken at h
  split at h
  · obtain rfl := Option.some.inj h
    rfl
  · split at h
    · obtain rfl := Option.some.inj h
      rfl
    · split at h
      · obtain rfl := Option.some.inj h
        rfl
      · cases h

omit [DecidableEq ι] in
theorem word_setWord (s : Registrations ι α J) (a : α) (next : ReadinessState) :
    (s.setWord a next).word a = next := by
  show (Function.update s.nodes a _ a).state = next
  rw [Function.update_self]

omit [DecidableEq ι] in
theorem word_setWord_of_ne (s : Registrations ι α J) {a b : α} (next : ReadinessState) (hb : b ≠ a) :
    (s.setWord a next).word b = s.word b := by
  show (Function.update s.nodes a _ b).state = _
  rw [Function.update_of_ne hb]
  rfl

/-- A thread changes a word, does not clear the queued flag of it, and owes the node if it has set
it. -/
theorem Registrations.Booked.flagged (h : s.Booked) {pc : Thread α J} {next : ReadinessState}
    (hq : (s.word a).isQueued = true → next.isQueued = true) (hi : (s.threads i).owing = none)
    (hpc : pc.owing = if Registrations.owes (s.word a) next then some a else none) :
    ((s.setWord a next).goto i pc).Booked := by
  have hthreads : ∀ b o, ((s.setWord a next).goto i pc).Owns b o ↔
      s.Owns b o ∨ o = .thread i ∧ pc.owing = some b := by
    intro b o
    cases o with
    | thread j =>
      by_cases hj : j = i
      · subst hj
        show (Function.update s.threads j pc j).owing = some b ↔
          (s.threads j).owing = some b ∨ _
        rw [Function.update_self, hi]
        simp
      · show (Function.update s.threads i pc j).owing = some b ↔ (s.threads j).owing = some b ∨ _
        rw [Function.update_of_ne hj]
        simp [hj]
    | queue => exact ⟨.inl, fun h => h.elim id fun ⟨he, _⟩ => by cases he⟩
    | poller => exact ⟨.inl, fun h => h.elim id fun ⟨he, _⟩ => by cases he⟩
    | enqueuer j => exact ⟨.inl, fun h => h.elim id fun ⟨he, _⟩ => by cases he⟩
  have hself : ((s.setWord a next).goto i pc).word a = next := word_setWord s a next
  have hother : ∀ b, b ≠ a → ((s.setWord a next).goto i pc).word b = s.word b :=
    fun b hb => word_setWord_of_ne s next hb
  by_cases howes : Registrations.owes (s.word a) next = true
  · obtain ⟨hdown, hup⟩ : (s.word a).isQueued = false ∧ next.isQueued = true := by
      simpa [Registrations.owes] using howes
    rw [if_pos howes] at hpc
    refine Books.claim h (k := a) (o := .thread i) hdown ?_ (fun b hb => ?_) fun b o => ?_
    · exact (congrArg ReadinessState.isQueued hself).trans hup
    · exact congrArg ReadinessState.isQueued (hother b hb)
    · rw [hthreads, hpc, Option.some.injEq]
      constructor
      · rintro (hold | ⟨rfl, rfl⟩)
        · exact .inl hold
        · exact .inr ⟨rfl, rfl⟩
      · rintro (hold | ⟨rfl, rfl⟩)
        · exact .inl hold
        · exact .inr ⟨rfl, rfl⟩
  · rw [if_neg howes] at hpc
    have hsame : next.isQueued = (s.word a).isQueued := by
      cases hw : (s.word a).isQueued with
      | true => exact hq hw
      | false => simpa [Registrations.owes, hw] using howes
    refine Books.congr h (fun b => ?_) fun b o => ?_
    · by_cases hb : b = a
      · subst hb
        exact (congrArg ReadinessState.isQueued hself).trans hsame
      · exact congrArg ReadinessState.isQueued (hother b hb)
    · rw [hthreads, hpc]
      simp

/-- A thread changes a word, clears neither flag of it, and owes the node if it has set the queued
flag. -/
theorem Registrations.Owned.flagged (h : s.Owned) {pc : Thread α J} {next : ReadinessState}
    {g : α → Bool} (hq : (s.word a).isQueued = true → next.isQueued = true)
    (hd : (s.word a).isDropped = true → next.isDropped = true)
    (hi : (s.threads i).owing = none)
    (hpc : pc.owing = if Registrations.owes (s.word a) next then some a else none)
    (hsig : ∀ b, g b = true → s.signalled b = true ∨ b = a ∧ next.isQueued = true) :
    ({ (s.setWord a next).goto i pc with signalled := g } : Registrations ι α J).Owned := by
  refine ⟨h.sound, h.recorded, h.ok, h.at_, h.hold, Registrations.Booked.flagged h.books hq hi hpc,
    fun b hr => ?_, fun b hb => ?_⟩
  · by_cases hba : b = a
    · subst hba
      exact (congrArg ReadinessState.isDropped (word_setWord s b next)).trans (hd (h.dropped b hr))
    · exact (congrArg ReadinessState.isDropped (word_setWord_of_ne s next hba)).trans (h.dropped b hr)
  · have hqueued : b = a → next.isQueued = true := by
      rintro rfl
      rcases hsig b hb with hold | ⟨-, hup⟩
      · exact hq (h.signalled b hold)
      · exact hup
    by_cases hba : b = a
    · subst hba
      exact (congrArg ReadinessState.isQueued (word_setWord s b next)).trans (hqueued rfl)
    · rcases hsig b hb with hold | ⟨he, -⟩
      · exact (congrArg ReadinessState.isQueued (word_setWord_of_ne s next hba)).trans
          (h.signalled b hold)
      · exact absurd he hba

/-- The `compare_and_swap` of `set_readiness` or `update`. -/
theorem Registrations.Owned.store (h : s.Owned) {pc : Thread α J} {next : ReadinessState}
    (hq : (s.word a).isQueued = true → next.isQueued = true)
    (hd : (s.word a).isDropped = true → next.isDropped = true)
    (heff : next.effectiveReadiness.isEmpty = false → next.isQueued = true)
    (hi : (s.threads i).owing = none)
    (hpc : pc.owing = if Registrations.owes (s.word a) next then some a else none) :
    ((s.store a next).goto i pc).Owned := by
  unfold Registrations.store
  cases hempty : next.effectiveReadiness.isEmpty with
  | true => exact h.flagged hq hd hi hpc fun b hb => .inl hb
  | false =>
    refine h.flagged (g := Function.update s.signalled a true) hq hd hi hpc fun b hb => ?_
    by_cases hba : b = a
    · exact .inr ⟨hba, heff hempty⟩
    · rw [Function.update_of_ne hba] at hb
      exact .inl hb

omit [DecidableEq α] in
theorem owing_trySet (ready : Ready) (state : ReadinessState) :
    (Registrations.trySet a ready state : Thread α J).owing = none := by
  unfold Registrations.trySet
  split <;> rfl

omit [DecidableEq α] in
theorem Registrations.Booked.enqueue (h : s.Booked) (hi : s.threads i = .enqueue a)
    (hidle : s.polling.queue.producers i = .idle) :
    ({ s.goto i .idle with
      polling := { s.polling with
        queue := { s.polling.queue with
          producers := Function.update s.polling.queue.producers i (.enqueue a .start) } } } :
      Registrations ι α J).Booked := by
  have howns : s.Owns a (.thread i) := by
    show (s.threads i).owing = some a
    rw [hi]
    rfl
  refine Books.pass h (k := a) (o := .thread i) (r := .enqueuer i) howns (by simp) (fun b => ?_)
    (fun b => ?_) fun b o ho ho' => ?_
  · show (Function.update s.threads i .idle i).owing = some b ↔ b ≠ a ∧ (s.threads i).owing = some b
    rw [Function.update_self, hi]
    refine ⟨fun hb => (by cases hb), fun hb => absurd (Option.some.inj hb.2).symm hb.1⟩
  · show (Function.update s.polling.queue.producers i (.enqueue a .start) i).owed = some b ↔
      (s.polling.queue.producers i).owed = some b ∨ b = a
    rw [Function.update_self, hidle]
    refine ⟨fun hb => .inr (Option.some.inj hb).symm, fun hb => ?_⟩
    rcases hb with hb | rfl
    · cases hb
    · rfl
  · cases o with
    | thread j =>
      have hj : j ≠ i := fun he => ho (he ▸ rfl)
      show (Function.update s.threads i .idle j).owing = some b ↔ _
      rw [Function.update_of_ne hj]
      exact Iff.rfl
    | enqueuer j =>
      have hj : j ≠ i := fun he => ho' (he ▸ rfl)
      show (Function.update s.polling.queue.producers i (.enqueue a .start) j).owed = some b ↔ _
      rw [Function.update_of_ne hj]
      exact Iff.rfl
    | queue => exact Iff.rfl
    | poller => exact Iff.rfl

theorem Registrations.Owned.enqueue (h : s.Owned) (hi : s.threads i = .enqueue a) {p : Polling ι α}
    (hp : pollingStep s.polling (.begin i a) = some p) :
    ({ s.goto i .idle with polling := p } : Registrations ι α J).Owned := by
  have howns : s.Owns a (.thread i) := by
    show (s.threads i).owing = some a
    rw [hi]
    rfl
  have hfree := h.free howns (by simp) (by simp) (by simp)
  have hok := pollingStep_ok h.ok hp
  obtain ⟨q, hq, rfl⟩ := Option.map_eq_some_iff.mp hp
  obtain ⟨nodes, hsound⟩ := h.sound
  have hsound' : ∃ nodes, Sound q nodes := queueStep_sound hsound (show Unqueued _ (.begin i a) from hfree) hq
  have hrec := queueStep_recorded h.recorded hq
  simp only [queueStep] at hq
  split at hq
  · rename_i hidle
    obtain rfl := Option.some.inj hq
    exact ⟨hsound', hrec, hok, h.at_, h.hold, Registrations.Booked.enqueue h.books hi hidle, h.dropped,
      h.signalled⟩
  · cases hq

theorem Registrations.Owned.threadStep (h : s.Owned) (hs : s.threadStep i = some s') :
    s'.Owned := by
  unfold Registrations.threadStep at hs
  cases hi : s.threads i with
  | idle => simp [hi] at hs
  | setLoad a ready =>
    simp only [hi] at hs
    obtain rfl := Option.some.inj hs
    exact h.quiet (by rw [owing_trySet, hi]; rfl) fun _ => rfl
  | setExchange a ready state =>
    simp only [hi] at hs
    split at hs
    · rename_i hword
      obtain rfl := Option.some.inj hs
      refine h.store (fun hq => ?_) (fun hd => ?_) ReadinessState.isQueued_of_effective
        (by rw [hi]; rfl) ?_
      · exact ReadinessState.isQueued_afterSetReadiness ready (hword ▸ hq)
      · exact ReadinessState.isDropped_afterSetReadiness ready (hword ▸ hd)
      · rw [hword]
        split <;> rfl
    · obtain rfl := Option.some.inj hs
      exact h.quiet (by rw [owing_trySet, hi]; rfl) fun _ => rfl
  | updateLock a u =>
    simp only [hi] at hs
    split at hs
    · obtain rfl := Option.some.inj hs
      exact h.quiet (by rw [hi]; rfl) fun _ => rfl
    · obtain rfl := Option.some.inj hs
      exact h.quiet (by rw [hi]; rfl) (state_update rfl)
  | updateLoad a u =>
    simp only [hi] at hs
    split at hs
    · cases hs
    · split at hs
      · obtain rfl := Option.some.inj hs
        exact h.quiet (by rw [hi]; rfl) fun _ => rfl
      · split at hs
        · cases hs
        · obtain rfl := Option.some.inj hs
          exact h.quiet (by rw [hi]; rfl) fun _ => rfl
  | updateToken a u state pos =>
    simp only [hi] at hs
    obtain ⟨node, hnode, rfl⟩ := Option.map_eq_some_iff.mp hs
    exact h.quiet (by rw [hi]; rfl) (state_update (storeToken_state hnode))
  | updateExchange a u state pos =>
    simp only [hi] at hs
    split at hs
    · rename_i hword
      obtain rfl := Option.some.inj hs
      refine h.store (fun hq => ?_) (fun hd => ?_) ReadinessState.isQueued_of_effective
        (by rw [hi]; rfl) ?_
      · exact ReadinessState.isQueued_afterUpdate pos u.interest u.opt (hword ▸ hq)
      · exact ReadinessState.isDropped_afterUpdate pos u.interest u.opt (hword ▸ hd)
      · rw [hword]
        cases Registrations.owes state (state.afterUpdate pos u.interest u.opt) <;> rfl
    · obtain rfl := Option.some.inj hs
      exact h.quiet (by rw [hi]; rfl) fun _ => rfl
  | updateUnlock a u enqueues =>
    simp only [hi] at hs
    obtain rfl := Option.some.inj hs
    refine h.quiet ?_ (state_update rfl)
    rw [hi]
    cases enqueues <;> rfl
  | updateJob a u =>
    simp only [hi] at hs
    obtain rfl := Option.some.inj hs
    exact h.quiet (by rw [hi]; rfl) (state_update rfl)
  | dropOr a =>
    simp only [hi] at hs
    obtain rfl := Option.some.inj hs
    refine h.flagged (g := s.signalled) (fun _ => ReadinessState.isQueued_flagAsDropped _)
      (fun _ => ReadinessState.isDropped_flagAsDropped _) (by rw [hi]; rfl) ?_ fun b hb => .inl hb
    unfold Registrations.owes
    rw [ReadinessState.isQueued_flagAsDropped]
    cases (s.word a).isQueued <;> rfl
  | enqueue a =>
    simp only [hi] at hs
    obtain ⟨p, hp, rfl⟩ := Option.map_eq_some_iff.mp hs
    exact h.enqueue hi hp

end Threads

/-! ## The steps of the queue and of the poller -/

section Poller
variable {s s' : Registrations ι α J} {a : α} {i : ι} {p : Polling ι α}

omit [DecidableEq ι] [DecidableEq α] in
theorem holding_congr {t : Registrations ι α J} (hc : t.polling.queue.consumer = s.polling.queue.consumer)
    (hp : t.polling.poller = s.polling.poller) (hh : t.hold = s.hold) : t.holding = s.holding := by
  unfold Registrations.holding
  rw [hc, hp, hh]

theorem Registrations.Owned.producer (h : s.Owned) {wouldBlock : Bool}
    (hs : pollingStep s.polling (.producer i wouldBlock) = some p) :
    ({ s with polling := p } : Registrations ι α J).Owned := by
  obtain ⟨nodes, hsound⟩ := h.sound
  have hok := pollingStep_ok h.ok hs
  obtain ⟨hq, hpoller⟩ : s.polling.queue.producerStep i = some p.queue ∧
      p.poller = s.polling.poller := producerStep_queue hs
  have hstep : queueStep s.polling.queue (.producer i) = some p.queue := hq
  have hrec := queueStep_recorded h.recorded hstep
  obtain ⟨hconsumer, hplaces⟩ := hsound.producer_places hq
  have hholding : ({ s with polling := p } : Registrations ι α J).holding = s.holding :=
    holding_congr hconsumer hpoller rfl
  refine ⟨hsound.producerStep hq, hrec, hok, ?_, ?_, ?_, h.dropped, h.signalled⟩
  · intro hd
    show ∃ call len limit, p.poller = _
    rw [hpoller]
    exact h.at_ (hconsumer ▸ hd)
  · unfold Registrations.HoldOk
    show _ ∨ (∃ call len limit readiness, p.poller = _) ∨ (∃ call len limit, p.poller = _) ∧
      ∃ ptr, p.queue.consumer = _
    rw [hpoller, hconsumer]
    exact h.hold
  · rcases hplaces with ⟨hpending, howed⟩ | ⟨b, hb, hpending, howed⟩
    · refine h.books.congr (fun _ => rfl) fun b o => ?_
      cases o with
      | queue =>
        show b ∈ p.queue.pending ↔ _
        rw [hpending]
        exact Iff.rfl
      | poller =>
        show Registrations.holding _ = some b ↔ _
        rw [hholding]
        exact Iff.rfl
      | thread j => exact Iff.rfl
      | enqueuer j =>
        show (p.queue.producers j).owed = some b ↔ _
        rw [howed j]
        exact Iff.rfl
    · refine h.books.pass (k := b) (o := .enqueuer i) (r := .queue) hb (by simp) (fun c => ?_)
        (fun c => ?_) fun c o ho ho' => ?_
      · show (p.queue.producers i).owed = some c ↔ c ≠ b ∧ (s.polling.queue.producers i).owed = some c
        rw [howed i, if_pos rfl, hb]
        refine ⟨fun he => (by cases he), fun ⟨hne, he⟩ => absurd (Option.some.inj he).symm hne⟩
      · show c ∈ p.queue.pending ↔ c ∈ s.polling.queue.pending ∨ c = b
        rw [hpending, List.mem_append, List.mem_singleton]
      · cases o with
        | queue => exact absurd rfl ho'
        | poller =>
          show Registrations.holding _ = some c ↔ _
          rw [hholding]
          exact Iff.rfl
        | thread j => exact Iff.rfl
        | enqueuer j =>
          have hj : j ≠ i := fun he => ho (he ▸ rfl)
          show (p.queue.producers j).owed = some c ↔ _
          rw [howed j, if_neg hj]
          exact Iff.rfl

theorem Registrations.Owned.access (h : s.Owned)
    (hs : pollingStep s.polling .consumer = some p) :
    ({ s with polling := p } : Registrations ι α J).Owned := by
  obtain ⟨nodes, hsound⟩ := h.sound
  have hok := pollingStep_ok h.ok hs
  obtain ⟨q, hq, rfl⟩ := Option.map_eq_some_iff.mp hs
  obtain ⟨nodes', hsound'⟩ := hsound.consumerStep hq
  have hstep : queueStep s.polling.queue .consumer = some q := hq
  have hrec := queueStep_recorded h.recorded hstep
  obtain ⟨hproducers, hmove⟩ := hsound.consumer_move hsound' h.recorded hq
  have hmoving : ∀ ret, s.polling.queue.consumer ≠ .returned ret := by
    intro ret hret
    unfold Queue.consumerStep at hq
    simp [hret] at hq
  have hholding : s.holding = s.polling.queue.consumer.holds :=
    holding_eq fun ptr he => hmoving _ he
  refine ⟨⟨nodes', hsound'⟩, hrec, hok, fun hd => h.at_ (dequeuing_of_step hq hd), ?_, ?_, h.dropped,
    h.signalled⟩
  · rcases h.hold with hload | hrequeue | ⟨-, ptr, hret⟩
    · exact .inl hload
    · exact .inr (.inl hrequeue)
    · exact absurd hret (hmoving _)
  · cases hmove with
    | stays hpending hholds hnot =>
      have hholding' : Registrations.holding { s with polling := { s.polling with
          queue := q, took := if s.polling.putsSleep then [] else s.polling.took } } = s.holding := by
        rw [hholding, ← hholds]
        exact holding_eq hnot
      refine h.books.congr (fun _ => rfl) fun b o => ?_
      cases o with
      | queue =>
        show b ∈ q.pending ↔ _
        rw [hpending]
        exact Iff.rfl
      | poller =>
        show Registrations.holding _ = some b ↔ _
        rw [hholding']
        exact Iff.rfl
      | thread j => exact Iff.rfl
      | enqueuer j =>
        show (q.producers j).owed = some b ↔ _
        rw [hproducers]
        exact Iff.rfl
    | takes b hd hpending hret =>
      obtain ⟨call, len, limit, hpoller⟩ := h.at_ hd
      have hload : s.hold = .load := by
        rcases h.hold with hload | ⟨_, _, _, _, hrequeue⟩ | ⟨-, ptr, hret⟩
        · exact hload
        · cases hpoller.symm.trans hrequeue
        · exact absurd hret (hmoving _)
      have hnone : s.holding = none := by
        rw [hholding]
        cases hc : s.polling.queue.consumer <;> rw [hc] at hd <;> first | rfl | exact hd.elim
      have hholding' : Registrations.holding { s with polling := { s.polling with
          queue := q, took := if s.polling.putsSleep then [] else s.polling.took } } = some b := by
        unfold Registrations.holding
        simp only [hret, hpoller, hload]
      have hnodup : s.polling.queue.pending.Nodup := hsound.pending_nodup
      rw [hpending] at hnodup
      refine h.books.pass (k := b) (o := .queue) (r := .poller)
        (by rw [Registrations.Owns, hpending]; exact List.mem_cons_self) (by simp) (fun c => ?_)
        (fun c => ?_) fun c o ho ho' => ?_
      · show c ∈ q.pending ↔ c ≠ b ∧ c ∈ s.polling.queue.pending
        rw [hpending, List.mem_cons]
        constructor
        · intro hc
          exact ⟨fun he => (List.nodup_cons.mp hnodup).1 (he ▸ hc), .inr hc⟩
        · rintro ⟨hne, he | hc⟩
          · exact absurd he hne
          · exact hc
      · show Registrations.holding _ = some c ↔ s.holding = some c ∨ c = b
        rw [hholding', hnone, Option.some.injEq]
        constructor
        · exact fun he => .inr he.symm
        · rintro (he | he)
          · cases he
          · exact he.symm
      · cases o with
        | queue => exact absurd rfl ho
        | poller => exact absurd rfl ho'
        | thread j => exact Iff.rfl
        | enqueuer j =>
          show (q.producers j).owed = some c ↔ _
          rw [hproducers]
          exact Iff.rfl
    | putsBack b hb hpending hnone hnot =>
      have hholding' : Registrations.holding { s with polling := { s.polling with
          queue := q, took := if s.polling.putsSleep then [] else s.polling.took } } = none := by
        rw [holding_eq hnot]
        exact hnone
      refine h.books.pass (k := b) (o := .poller) (r := .queue) (hholding.trans hb) (by simp)
        (fun c => ?_) (fun c => ?_) fun c o ho ho' => ?_
      · show Registrations.holding _ = some c ↔ c ≠ b ∧ s.holding = some c
        rw [hholding', hholding, hb]
        refine ⟨fun he => (by cases he), fun ⟨hne, he⟩ => absurd (Option.some.inj he).symm hne⟩
      · show c ∈ q.pending ↔ c ∈ s.polling.queue.pending ∨ c = b
        rw [hpending, List.mem_append, List.mem_singleton]
      · cases o with
        | queue => exact absurd rfl ho'
        | poller => exact absurd rfl ho
        | thread j => exact Iff.rfl
        | enqueuer j =>
          show (q.producers j).owed = some c ↔ _
          rw [hproducers]
          exact Iff.rfl

theorem Follows.sound {q q' : Queue ι α} (h : Follows q q') (hsound : ∃ nodes, Sound q nodes) :
    ∃ nodes, Sound q' nodes := by
  rcases h with rfl | ⟨op, hok, hs⟩
  · exact hsound
  · exact queueStep_sound hsound.choose_spec hok hs

theorem Follows.recorded {q q' : Queue ι α} (h : Follows q q') (hrec : Recorded q) :
    Recorded q' := by
  rcases h with rfl | ⟨op, -, hs⟩
  · exact hrec
  · exact queueStep_recorded hrec hs

omit [DecidableEq ι] [DecidableEq α] in
/-- Once the poller has nothing in hand, everybody else owns what they did. -/
theorem owns_free {t : Registrations ι α J} (hnone : t.holding = none)
    (hpending : t.polling.queue.pending = s.polling.queue.pending)
    (hproducers : t.polling.queue.producers = s.polling.queue.producers)
    (hthreads : t.threads = s.threads) (b : α) (o : Owner ι) :
    t.Owns b o ↔ o ≠ .poller ∧ s.Owns b o := by
  cases o with
  | queue =>
    show b ∈ t.polling.queue.pending ↔ _
    rw [hpending]
    exact ⟨fun h => ⟨by simp, h⟩, And.right⟩
  | poller =>
    show t.holding = some b ↔ _
    rw [hnone]
    exact ⟨fun h => (by cases h), fun h => absurd rfl h.1⟩
  | thread j =>
    show (t.threads j).owing = some b ↔ _
    rw [hthreads]
    exact ⟨fun h => ⟨by simp, h⟩, And.right⟩
  | enqueuer j =>
    show (t.polling.queue.producers j).owed = some b ↔ _
    rw [hproducers]
    exact ⟨fun h => ⟨by simp, h⟩, And.right⟩

omit [DecidableEq ι] [DecidableEq α] in
/-- What the poller had in hand has no owner once it lets go of it. -/
theorem Registrations.Owned.owns_released (h : s.Owned) (ha : s.holding = some a)
    {owns : α → Owner ι → Prop} (howns : ∀ b o, owns b o ↔ o ≠ .poller ∧ s.Owns b o) (b : α)
    (o : Owner ι) : owns b o ↔ b ≠ a ∧ s.Owns b o :=
  h.books.without (o := Owner.poller) ha (fun _ hb => Option.some.inj (hb.symm.trans ha)) howns b o

omit [DecidableEq ι] [DecidableEq α] in
theorem Registrations.Owned.congr_free (h : s.Owned) (hnone : s.holding = none)
    {t : Registrations ι α J} (howns : ∀ b o, t.Owns b o ↔ o ≠ .poller ∧ s.Owns b o)
    (hword : ∀ b, t.word b = s.word b) :
    Books (fun b => (t.word b).isQueued) t.Owns s.released := by
  refine h.books.congr (fun b => congrArg ReadinessState.isQueued (hword b)) fun b o => ?_
  rw [howns b o]
  refine ⟨And.right, fun hb => ⟨fun he => ?_, hb⟩⟩
  subst he
  cases hnone.symm.trans hb

omit [DecidableEq ι] [DecidableEq α] in
theorem dequeued_outside (p : Polling ι α) (readiness : Bool) :
    PollingOp.Outside p (.dequeued false readiness) := fun h => by cases h

omit [DecidableEq ι] [DecidableEq α] in
theorem dequeued_unqueued (p : Polling ι α) (readiness : Bool) :
    PollsUnqueued p (.dequeued false readiness) := trivial

theorem Registrations.Owned.called (h : s.Owned) {op : PollingOp ι α} (hop : op.Outside s.polling)
    (hs : pollingStep s.polling op = some p) (hok : PollsUnqueued s.polling op)
    (hnone : s.holding = none) {nodes : α → Node J} (hword : ∀ b, (nodes b).state = s.word b) :
    ({ s with polling := p, hold := .load, nodes := nodes } : Registrations ι α J).Owned := by
  have hcalled := pollingStep_called h.ok hop hs
  have hfollows := pollingStep_follows hok hs
  refine ⟨hfollows.sound h.sound, hfollows.recorded h.recorded, pollingStep_ok h.ok hs, hcalled.at_,
    .inl rfl, ?_, fun b hb => ?_, fun b hb => ?_⟩
  · exact h.congr_free hnone (owns_free (holding_of_free hcalled.free) hcalled.pending
      hcalled.producers rfl) hword
  · exact (congrArg ReadinessState.isDropped (hword b)).trans (h.dropped b hb)
  · exact (congrArg ReadinessState.isQueued (hword b)).trans (h.signalled b hb)

theorem Registrations.Owned.release (h : s.Owned) (ha : s.holding = some a)
    (hdropped : (s.word a).isDropped = true)
    (hs : pollingStep s.polling (.dequeued false false) = some p) :
    ({ s with
      polling := p, hold := .load, released := Function.update s.released a true } :
      Registrations ι α J).Owned := by
  have hcalled := pollingStep_called h.ok (dequeued_outside _ false) hs
  have hfollows := pollingStep_follows (dequeued_unqueued _ false) hs
  refine ⟨hfollows.sound h.sound, hfollows.recorded h.recorded, pollingStep_ok h.ok hs, hcalled.at_,
    .inl rfl, ?_, fun b hb => ?_, h.signalled⟩
  · exact h.books.retire (k := a) (o := .poller) ha (Function.update_self ..)
      (fun b hb => Function.update_of_ne hb ..)
      (h.owns_released ha (owns_free (holding_of_free hcalled.free) hcalled.pending
        hcalled.producers rfl))
  · by_cases hba : b = a
    · subst hba
      exact hdropped
    · change Function.update s.released a true b = true at hb
      rw [Function.update_of_ne hba] at hb
      exact h.dropped b hb

theorem Registrations.Owned.putBack (h : s.Owned) (ha : s.holding = some a)
    (hc : s.polling.queue.consumer = .returned (.dequeue (.data (.data a)))) {readiness : Bool}
    (hs : pollingStep s.polling (.dequeued true readiness) = some p) (hold : Hold α) :
    ({ s with polling := p, hold := hold } : Registrations ι α J).Owned := by
  obtain ⟨hqueue, call, len, limit, hpoller⟩ := pollingStep_requeue hc hs
  have hfree : s.polling.queue.Free a :=
    h.free (o := .poller) ha (by simp) (by simp) fun b phase hb => by cases hc.symm.trans hb
  have hok : PollsUnqueued s.polling (.dequeued true readiness) := by
    intro b hb
    obtain rfl : a = b := by simpa using hc.symm.trans hb
    exact hfree
  have hfollows := pollingStep_follows hok hs
  have hconsumer : p.queue.consumer = .requeue a .start := by rw [hqueue]
  have hholding : Registrations.holding { s with polling := p, hold := hold } = s.holding := by
    rw [ha]
    unfold Registrations.holding
    simp only [hconsumer]
    rfl
  refine ⟨hfollows.sound h.sound, hfollows.recorded h.recorded, pollingStep_ok h.ok hs, fun hd => ?_,
    .inr (.inl ⟨_, _, _, _, hpoller⟩), ?_, h.dropped, h.signalled⟩
  · change p.queue.consumer.Dequeuing at hd
    rw [hconsumer] at hd
    exact hd.elim
  · refine h.books.congr (fun _ => rfl) fun b o => ?_
    cases o with
    | queue =>
      show b ∈ p.queue.pending ↔ _
      rw [hqueue]
      exact Iff.rfl
    | poller =>
      show Registrations.holding _ = some b ↔ _
      rw [hholding]
      exact Iff.rfl
    | thread j => exact Iff.rfl
    | enqueuer j =>
      show (p.queue.producers j).owed = some b ↔ _
      rw [hqueue]
      exact Iff.rfl

omit [DecidableEq ι] [DecidableEq α] in
/-- The poller has a live node in hand. -/
theorem Registrations.Owned.not_released (h : s.Owned) (ha : s.holding = some a) :
    s.released a = false := by
  cases hr : s.released a with
  | false => rfl
  | true => exact absurd ha ((h.books.spent a hr).2 .poller)

omit [DecidableEq ι] in
/-- The poller changes the word of the node in hand and leaves the queued flag up. -/
theorem Registrations.Owned.rewrite (h : s.Owned) (ha : s.holding = some a) {next : ReadinessState}
    (hnext : next.isQueued = true) :
    ({ s.setWord a next with signalled := Function.update s.signalled a false } :
      Registrations ι α J).Owned := by
  have hself := word_setWord s a next
  have hup : (s.word a).isQueued = true := h.books.flagged a .poller ha
  refine ⟨h.sound, h.recorded, h.ok, h.at_, h.hold, ?_, fun b hb => ?_, fun b hb => ?_⟩
  · refine h.books.congr (fun b => ?_) fun b o => ?_
    · by_cases hba : b = a
      · subst hba
        exact (congrArg ReadinessState.isQueued hself).trans (hnext.trans hup.symm)
      · exact congrArg ReadinessState.isQueued (word_setWord_of_ne s next hba)
    · cases o <;> exact Iff.rfl
  · have hba : b ≠ a := fun he => by
      change s.released b = true at hb
      rw [he, h.not_released ha] at hb
      cases hb
    exact (congrArg ReadinessState.isDropped (word_setWord_of_ne s next hba)).trans (h.dropped b hb)
  · by_cases hba : b = a
    · subst hba
      exact (congrArg ReadinessState.isQueued hself).trans hnext
    · change Function.update s.signalled a false b = true at hb
      rw [Function.update_of_ne hba] at hb
      exact (congrArg ReadinessState.isQueued (word_setWord_of_ne s next hba)).trans (h.signalled b hb)

omit [DecidableEq ι] in
/-- The poller takes the queued flag of the node in hand down, and lets go of it. -/
theorem Registrations.Owned.letGo (h : s.Owned) (ha : s.holding = some a) {next : ReadinessState}
    (hnext : next.isQueued = false) {hold : Hold α} (hsound : ∃ nodes, Sound p.queue nodes)
    (hrec : Recorded p.queue) (hok : p.Ok) (hat : p.At)
    (hholdOk : ({ s.setWord a next with
      polling := p, hold := hold, signalled := Function.update s.signalled a false } :
      Registrations ι α J).HoldOk)
    (hnone : ({ s.setWord a next with
      polling := p, hold := hold, signalled := Function.update s.signalled a false } :
      Registrations ι α J).holding = none)
    (hpending : p.queue.pending = s.polling.queue.pending)
    (hproducers : p.queue.producers = s.polling.queue.producers) :
    ({ s.setWord a next with
      polling := p, hold := hold, signalled := Function.update s.signalled a false } :
      Registrations ι α J).Owned := by
  have hself := word_setWord s a next
  refine ⟨hsound, hrec, hok, hat, hholdOk, ?_, fun b hb => ?_, fun b hb => ?_⟩
  · exact h.books.clear (k := a) (o := .poller) ha
      ((congrArg ReadinessState.isQueued hself).trans hnext)
      (fun b hb => congrArg ReadinessState.isQueued (word_setWord_of_ne s next hb))
      (h.owns_released ha (owns_free hnone hpending hproducers rfl))
  · have hba : b ≠ a := fun he => by
      change s.released b = true at hb
      rw [he, h.not_released ha] at hb
      cases hb
    exact (congrArg ReadinessState.isDropped (word_setWord_of_ne s next hba)).trans (h.dropped b hb)
  · by_cases hba : b = a
    · subst hba
      change Function.update s.signalled b false b = true at hb
      rw [Function.update_self] at hb
      cases hb
    · change Function.update s.signalled a false b = true at hb
      rw [Function.update_of_ne hba] at hb
      exact (congrArg ReadinessState.isQueued (word_setWord_of_ne s next hba)).trans (h.signalled b hb)

theorem Registrations.Owned.settle (h : s.Owned) (ha : s.holding = some a)
    (hp : ∃ call len limit, s.polling.poller = .dequeue call len limit)
    (hc : s.polling.queue.consumer = .returned (.dequeue (.data (.data a))))
    {next : ReadinessState} {readiness : Ready}
    (hs : ({ s.setWord a next with signalled := Function.update s.signalled a false } :
      Registrations ι α J).settle a next readiness = some s') : s'.Owned := by
  unfold Registrations.settle at hs
  cases hnext : next.isQueued with
  | true =>
    simp only [hnext, if_true] at hs
    obtain ⟨p, hstep, rfl⟩ := Option.map_eq_some_iff.mp hs
    exact (h.rewrite ha hnext).putBack ha hc hstep _
  | false =>
    simp only [hnext, Bool.false_eq_true, if_false] at hs
    cases hempty : readiness.isEmpty with
    | true =>
      simp only [hempty, if_true] at hs
      obtain ⟨p, hstep, rfl⟩ := Option.map_eq_some_iff.mp hs
      have hcalled := pollingStep_called h.ok (dequeued_outside _ false) hstep
      have hfollows := pollingStep_follows (dequeued_unqueued _ false) hstep
      exact h.letGo ha hnext (hfollows.sound h.sound) (hfollows.recorded h.recorded)
        (pollingStep_ok h.ok hstep) hcalled.at_ (.inl rfl) (holding_of_free hcalled.free)
        hcalled.pending hcalled.producers
    | false =>
      simp only [hempty, Bool.false_eq_true, if_false] at hs
      obtain rfl := Option.some.inj hs
      refine h.letGo ha hnext h.sound h.recorded h.ok h.at_ (.inr (.inr ⟨hp, _, hc⟩)) ?_ rfl rfl
      obtain ⟨call, len, limit, hp⟩ := hp
      unfold Registrations.holding
      simp only [Registrations.setWord, Registrations.setNode, hc, hp]

omit [DecidableEq ι] [DecidableEq α] in
theorem holding_of_dequeued (hp : ∃ call len limit, s.polling.poller = .dequeue call len limit)
    (hc : s.polling.queue.consumer = .returned (.dequeue (.data (.data a))))
    (hh : s.hold = .load ∨ ∃ state, s.hold = .exchange state) : s.holding = some a := by
  obtain ⟨call, len, limit, hp⟩ := hp
  unfold Registrations.holding
  rcases hh with hh | ⟨state, hh⟩
  · simp only [hc, hp, hh]
  · simp only [hc, hp, hh]

omit [DecidableEq ι] [DecidableEq α] in
/-- Past the word, the poller has let go of the node. -/
theorem holding_settled (hload : s.hold ≠ .load) (hexchange : ∀ state, s.hold ≠ .exchange state)
    (hc : s.polling.queue.consumer.AtRest) : s.holding = none := by
  obtain ⟨ret, hc⟩ := hc
  unfold Registrations.holding
  rw [hc]
  cases ret with
  | dequeue d =>
    cases d with
    | data ptr =>
      cases ptr with
      | data b =>
        cases s.polling.poller with
        | dequeue call len limit =>
          cases hh : s.hold with
          | load => exact absurd hh hload
          | exchange state => exact absurd hh (hexchange state)
          | _ => rfl
        | _ => rfl
      | _ => rfl
    | _ => rfl
  | _ => rfl

/-- The poller reads the word of the node in hand. -/
theorem Registrations.Owned.examine (h : s.Owned)
    (hp : ∃ call len limit, s.polling.poller = .dequeue call len limit)
    (hc : s.polling.queue.consumer = .returned (.dequeue (.data (.data a))))
    (hh : s.hold = .load ∨ ∃ state, s.hold = .exchange state) (hs : s.examine a = some s') :
    s'.Owned := by
  have ha := holding_of_dequeued hp hc hh
  unfold Registrations.examine at hs
  dsimp only at hs
  split at hs
  · rename_i hdropped
    obtain ⟨p, hstep, rfl⟩ := Option.map_eq_some_iff.mp hs
    exact h.release ha hdropped hstep
  · split at hs
    · -- the level pass: the word stays, and with it the queued flag
      unfold Registrations.settle at hs
      have hqueued : (s.word a).isQueued = true := h.books.flagged a .poller ha
      simp only [hqueued, if_true] at hs
      obtain ⟨p, hstep, rfl⟩ := Option.map_eq_some_iff.mp hs
      exact h.putBack ha hc hstep _
    · obtain rfl := Option.some.inj hs
      have hholding : Registrations.holding { s with hold := .exchange (s.word a) } = s.holding :=
        (holding_of_dequeued (s := { s with hold := .exchange (s.word a) }) hp hc
          (.inr ⟨_, rfl⟩)).trans ha.symm
      refine ⟨h.sound, h.recorded, h.ok, h.at_, .inr (.inr ⟨hp, _, hc⟩),
        h.books.congr (fun _ => rfl) fun b o => ?_, h.dropped, h.signalled⟩
      cases o with
      | poller =>
        show Registrations.holding _ = some b ↔ _
        rw [hholding]
        exact Iff.rfl
      | _ => exact Iff.rfl

omit [DecidableEq ι] [DecidableEq α] in
theorem Registrations.Owned.settled (h : s.Owned) (hload : s.hold ≠ .load)
    (hexchange : ∀ state, s.hold ≠ .exchange state) (hc : s.polling.queue.consumer.AtRest)
    {hold : Hold α} {pushed : List (α × Event × Option J)} (hload' : hold ≠ .load)
    (hexchange' : ∀ state, hold ≠ .exchange state) :
    ({ s with hold := hold, pushed := pushed } : Registrations ι α J).Owned := by
  have hnone := holding_settled hload hexchange hc
  have hnone' : Registrations.holding { s with hold := hold, pushed := pushed } = none :=
    holding_settled hload' hexchange' hc
  refine ⟨h.sound, h.recorded, h.ok, h.at_, .inr (h.hold.resolve_left hload), ?_, h.dropped,
    h.signalled⟩
  exact h.congr_free hnone (owns_free hnone' rfl rfl rfl) fun _ => rfl

theorem Registrations.Owned.nodeStep (h : s.Owned) (hs : s.nodeStep = some s') : s'.Owned := by
  unfold Registrations.nodeStep at hs
  split at hs
  · rename_i hh hp hc
    exact h.examine ⟨_, _, _, hp⟩ hc (.inl hh) hs
  · rename_i hh hp hc
    split at hs
    · exact h.settle (holding_of_dequeued ⟨_, _, _, hp⟩ hc (.inr ⟨_, hh⟩)) ⟨_, _, _, hp⟩ hc hs
    · exact h.examine ⟨_, _, _, hp⟩ hc (.inr ⟨_, hh⟩) hs
  · rename_i hh hc
    obtain ⟨token, -, rfl⟩ := Option.map_eq_some_iff.mp hs
    exact h.settled (by simp [hh]) (by simp [hh]) ⟨_, hc⟩ (by simp) (by simp)
  · rename_i hh hc
    obtain rfl := Option.some.inj hs
    exact h.settled (by simp [hh]) (by simp [hh]) ⟨_, hc⟩ (by simp) (by simp)
  · rename_i hh hp hc
    obtain ⟨p, hstep, rfl⟩ := Option.map_eq_some_iff.mp hs
    exact h.called (dequeued_outside _ true) hstep (dequeued_unqueued _ true)
      (holding_settled (by simp [hh]) (by simp [hh]) ⟨_, hc⟩) (state_update rfl)
  · rename_i hh hp hc
    obtain ⟨p, hstep, rfl⟩ := Option.map_eq_some_iff.mp hs
    exact h.called (show PollingOp.Outside _ .requeued from trivial) hstep trivial
      (holding_settled (by simp [hh]) (by simp [hh]) ⟨_, hc⟩) (state_update rfl)
  · cases hs

omit [DecidableEq ι] [DecidableEq α] in
/-- Outside the loop of `ReadinessQueue::poll` the poller has no node in hand. -/
theorem holding_outside
    (hp : ∀ call len limit, s.polling.poller ≠ .dequeue call len limit)
    (hc : s.polling.queue.consumer.AtRest) : s.holding = none := by
  obtain ⟨ret, hc⟩ := hc
  refine holding_of_free ⟨fun b phase hb => ?_, fun ptr _ => hp⟩
  cases hc.symm.trans hb

omit [DecidableEq ι] [DecidableEq α] in
theorem Registrations.Owned.hold_load (h : s.Owned)
    (hrequeue : ∀ call len limit readiness, s.polling.poller ≠ .requeue call len limit readiness)
    (hdequeue : (∀ call len limit, s.polling.poller ≠ .dequeue call len limit) ∨
      ∀ ptr, s.polling.queue.consumer ≠ .returned (.dequeue (.data ptr))) : s.hold = .load := by
  rcases h.hold with hload | ⟨_, _, _, _, hp⟩ | ⟨⟨_, _, _, hp⟩, ptr, hc⟩
  · exact hload
  · exact absurd hp (hrequeue _ _ _ _)
  · rcases hdequeue with hd | hd
    · exact absurd hp (hd _ _ _)
    · exact absurd hc (hd ptr)

theorem Registrations.Owned.outside (h : s.Owned) {op : PollingOp ι α} (hop : s.polls op = true)
    (hne : op ≠ .consumer) (hs : pollingStep s.polling op = some p) :
    op.Outside s.polling ∧ PollsUnqueued s.polling op ∧ s.hold = .load ∧ s.holding = none := by
  have hpoller := h.ok.poller
  unfold Polling.PollerOk at hpoller
  unfold pollingStep at hs
  split at hs
  · cases hop
  · cases hop
  · exact absurd rfl hne
  · rename_i hp
    rw [hp] at hpoller
    exact ⟨trivial, trivial, h.hold_load (by simp [hp]) (.inl (by simp [hp])),
      holding_outside (by simp [hp]) hpoller⟩
  · rename_i hp hc
    exact ⟨trivial, trivial, h.hold_load (by simp [hp]) (.inl (by simp [hp])),
      holding_outside (by simp [hp]) ⟨_, hc⟩⟩
  · rename_i hp
    rw [hp] at hpoller
    exact ⟨trivial, trivial, h.hold_load (by simp [hp]) (.inl (by simp [hp])),
      holding_outside (by simp [hp]) hpoller.1⟩
  · rename_i hp
    rw [hp] at hpoller
    exact ⟨trivial, trivial, h.hold_load (by simp [hp]) (.inl (by simp [hp])),
      holding_outside (by simp [hp]) hpoller⟩
  · rename_i hp hc
    exact ⟨trivial, trivial, h.hold_load (by simp [hp]) (.inl (by simp [hp])),
      holding_outside (by simp [hp]) ⟨_, hc⟩⟩
  · rename_i requeue readiness call len limit d hp hc
    have hdata : ∀ ptr, s.polling.queue.consumer ≠ .returned (.dequeue (.data ptr)) := by
      intro ptr hptr
      simp only [Registrations.polls, hptr] at hop
      cases hop
    refine ⟨fun _ => hdata, ?_, h.hold_load (by simp [hp]) (.inr hdata), ?_⟩
    · cases requeue with
      | true => exact fun b hb => absurd hb (hdata _)
      | false => exact trivial
    · refine holding_of_free ⟨fun b phase hb => ?_, fun ptr hptr => absurd hptr (hdata ptr)⟩
      cases hc.symm.trans hb
  · rename_i hp hc
    have hload : s.hold = .load := by
      simp only [Registrations.polls] at hop
      cases hh : s.hold <;> rw [hh] at hop <;> first | rfl | cases hop
    exact ⟨trivial, trivial, hload, holding_outside (by simp [hp]) ⟨_, hc⟩⟩
  · cases hs

theorem Registrations.Owned.poll (h : s.Owned) {op : PollingOp ι α} (hop : s.polls op = true)
    (hs : pollingStep s.polling op = some p) :
    ({ s with polling := p } : Registrations ι α J).Owned := by
  by_cases hne : op = .consumer
  · subst hne
    exact h.access hs
  · obtain ⟨houtside, hok, hload, hnone⟩ := h.outside hop hne hs
    have hcalled : ({ s with polling := p, hold := .load } : Registrations ι α J).Owned :=
      h.called houtside hs hok hnone fun _ => rfl
    rw [← hload] at hcalled
    exact hcalled

end Poller

/-! ## Every run -/

section Run
variable {s s' : Registrations ι α J}

/-- **One step.** -/
theorem registrationsStep_owned {op : RegistrationsOp ι α J} (h : s.Owned)
    (hs : registrationsStep s op = some s') : s'.Owned := by
  cases op with
  | call i c =>
    simp only [registrationsStep] at hs
    split at hs
    · rename_i hi hp
      obtain rfl := Option.some.inj hs
      refine h.quiet ?_ fun _ => rfl
      rw [hi]
      cases c <;> rfl
    · cases hs
  | thread i => exact h.threadStep hs
  | producer i wouldBlock =>
    obtain ⟨p, hp, rfl⟩ := Option.map_eq_some_iff.mp hs
    exact h.producer hp
  | poll op =>
    simp only [registrationsStep] at hs
    split at hs
    · obtain ⟨p, hp, rfl⟩ := Option.map_eq_some_iff.mp hs
      exact h.poll ‹_› hp
    · cases hs
  | node => exact h.nodeStep hs

omit [DecidableEq ι] [DecidableEq α] in
theorem Registrations.Starts.owned (h : s.Starts) : s.Owned := by
  have hflags : ∀ a, (s.word a).isQueued = false ∧ (s.word a).isDropped = false := by
    intro a
    obtain ⟨token, interest, opt, hnode, hi, ho⟩ := h.nodes a
    unfold Registrations.word
    rw [hnode]
    exact ReadinessState.new_flags hi ho
  refine ⟨⟨[.endMarker], h.polling ▸ sound_new⟩, ?_, ?_, ?_, .inl h.hold, ?_, ?_, ?_⟩
  · rw [h.polling]
    exact fun ptr he => by cases he
  · rw [h.polling]
    exact ⟨fun he => (by cases he), ⟨_, rfl⟩⟩
  · rw [h.polling]
    exact fun hd => hd.elim
  · refine Books.empty (fun a => (hflags a).1) (fun a o ho => ?_) h.released
    cases o with
    | queue =>
      change a ∈ s.polling.queue.pending at ho
      rw [h.polling] at ho
      cases ho
    | poller =>
      change s.holding = some a at ho
      unfold Registrations.holding at ho
      rw [h.polling] at ho
      cases ho
    | thread i =>
      change (s.threads i).owing = some a at ho
      rw [h.threads i] at ho
      cases ho
    | enqueuer i =>
      change (s.polling.queue.producers i).owed = some a at ho
      rw [h.polling] at ho
      cases ho
  · intro a hr
    rw [h.released a] at hr
    cases hr
  · intro a hsig
    rw [h.signalled a] at hsig
    cases hsig

theorem registrations_owned (hs : Reachable registrationsStep Registrations.Starts s) : s.Owned :=
  hs.invariant (fun _ hinit => hinit.owned) fun _ _ _ h hstep => registrationsStep_owned h hstep

/-- The polling part stays, or makes a step of its own that enqueues no node twice. -/
def Advances (p p' : Polling ι α) : Prop :=
  p' = p ∨ ∃ op, PollsUnqueued p op ∧ pollingStep p op = some p'

theorem threadStep_advances {i : ι} (h : s.Owned) (hs : s.threadStep i = some s') :
    Advances s.polling s'.polling := by
  cases hi : s.threads i with
  | enqueue a =>
    have howns : s.Owns a (.thread i) := by
      show (s.threads i).owing = some a
      rw [hi]
      rfl
    simp only [Registrations.threadStep, hi] at hs
    obtain ⟨p, hp, rfl⟩ := Option.map_eq_some_iff.mp hs
    exact .inr ⟨.begin i a, h.free howns (by simp) (by simp) (by simp), hp⟩
  | updateToken a u state pos =>
    simp only [Registrations.threadStep, hi] at hs
    obtain ⟨node, -, rfl⟩ := Option.map_eq_some_iff.mp hs
    exact .inl rfl
  | updateLoad a u =>
    simp only [Registrations.threadStep, hi] at hs
    split at hs
    · cases hs
    · split at hs
      · obtain rfl := Option.some.inj hs
        exact .inl rfl
      · split at hs
        · cases hs
        · obtain rfl := Option.some.inj hs
          exact .inl rfl
  | setExchange a ready state =>
    simp only [Registrations.threadStep, hi] at hs
    split at hs
    · obtain rfl := Option.some.inj hs
      exact .inl (store_polling s a _)
    · obtain rfl := Option.some.inj hs
      exact .inl rfl
  | updateExchange a u state pos =>
    simp only [Registrations.threadStep, hi] at hs
    split at hs
    · obtain rfl := Option.some.inj hs
      exact .inl (store_polling s a _)
    · obtain rfl := Option.some.inj hs
      exact .inl rfl
  | updateLock a u =>
    simp only [Registrations.threadStep, hi] at hs
    split at hs <;>
    · obtain rfl := Option.some.inj hs
      exact .inl rfl
  | idle => simp [Registrations.threadStep, hi] at hs
  | setLoad | updateUnlock | updateJob | dropOr =>
    simp only [Registrations.threadStep, hi] at hs
    obtain rfl := Option.some.inj hs
    exact .inl rfl

theorem settle_advances {t : Registrations ι α J} {a : α} {next : ReadinessState} {readiness : Ready}
    (hfree : t.polling.queue.Free a)
    (hc : t.polling.queue.consumer = .returned (.dequeue (.data (.data a))))
    (hs : t.settle a next readiness = some s') : Advances t.polling s'.polling := by
  unfold Registrations.settle at hs
  dsimp only at hs
  split at hs
  · obtain ⟨p, hp, rfl⟩ := Option.map_eq_some_iff.mp hs
    refine .inr ⟨.dequeued true _, fun b hb => ?_, hp⟩
    obtain rfl : a = b := by simpa using hc.symm.trans hb
    exact hfree
  · split at hs
    · obtain ⟨p, hp, rfl⟩ := Option.map_eq_some_iff.mp hs
      exact .inr ⟨.dequeued false false, trivial, hp⟩
    · obtain rfl := Option.some.inj hs
      exact .inl rfl

theorem examine_advances {a : α} (hfree : s.polling.queue.Free a)
    (hc : s.polling.queue.consumer = .returned (.dequeue (.data (.data a))))
    (hs : s.examine a = some s') : Advances s.polling s'.polling := by
  unfold Registrations.examine at hs
  dsimp only at hs
  split at hs
  · obtain ⟨p, hp, rfl⟩ := Option.map_eq_some_iff.mp hs
    exact .inr ⟨.dequeued false false, trivial, hp⟩
  · split at hs
    · exact settle_advances hfree hc hs
    · obtain rfl := Option.some.inj hs
      exact .inl rfl

theorem nodeStep_advances (h : s.Owned) (hs : s.nodeStep = some s') :
    Advances s.polling s'.polling := by
  have hfree : ∀ a, (∃ call len limit, s.polling.poller = .dequeue call len limit) →
      s.polling.queue.consumer = .returned (.dequeue (.data (.data a))) →
      (s.hold = .load ∨ ∃ state, s.hold = .exchange state) → s.polling.queue.Free a :=
    fun a hp hc hh => h.free (o := .poller) (holding_of_dequeued hp hc hh) (by simp) (by simp)
      fun b phase hb => by cases hc.symm.trans hb
  unfold Registrations.nodeStep at hs
  split at hs
  · rename_i hh hp hc
    exact examine_advances (hfree _ ⟨_, _, _, hp⟩ hc (.inl hh)) hc hs
  · rename_i hh hp hc
    have hfree' := hfree _ ⟨_, _, _, hp⟩ hc (.inr ⟨_, hh⟩)
    split at hs
    · exact settle_advances (t := { s.setWord _ _ with signalled := _ }) hfree' hc hs
    · exact examine_advances hfree' hc hs
  · obtain ⟨token, -, rfl⟩ := Option.map_eq_some_iff.mp hs
    exact .inl rfl
  · obtain rfl := Option.some.inj hs
    exact .inl rfl
  · obtain ⟨p, hp, rfl⟩ := Option.map_eq_some_iff.mp hs
    exact .inr ⟨.dequeued false true, trivial, hp⟩
  · obtain ⟨p, hp, rfl⟩ := Option.map_eq_some_iff.mp hs
    exact .inr ⟨.requeued, trivial, hp⟩
  · cases hs

theorem registrationsStep_advances {op : RegistrationsOp ι α J} (h : s.Owned)
    (hs : registrationsStep s op = some s') : Advances s.polling s'.polling := by
  cases op with
  | call i c =>
    simp only [registrationsStep] at hs
    split at hs
    · obtain rfl := Option.some.inj hs
      exact .inl rfl
    · cases hs
  | thread i => exact threadStep_advances h hs
  | producer i wouldBlock =>
    obtain ⟨p, hp, rfl⟩ := Option.map_eq_some_iff.mp hs
    exact .inr ⟨.producer i wouldBlock, trivial, hp⟩
  | poll op =>
    simp only [registrationsStep] at hs
    split at hs
    · rename_i hop
      obtain ⟨p, hp, rfl⟩ := Option.map_eq_some_iff.mp hs
      by_cases hne : op = .consumer
      · subst hne
        exact .inr ⟨.consumer, trivial, hp⟩
      · exact .inr ⟨op, (h.outside hop hne hp).2.1, hp⟩
    · cases hs
  | node => exact nodeStep_advances h hs

/-- **The registrations keep the queue's own contract**: no node is enqueued that is in the queue or
on its way there. -/
theorem registrations_polling (hs : Reachable registrationsStep Registrations.Starts s) :
    ReachableIf pollingStep PollsUnqueued (· = Polling.new) s.polling := by
  have hboth : s.Owned ∧ ReachableIf pollingStep PollsUnqueued (· = Polling.new) s.polling := by
    refine hs.invariant (P := fun s => s.Owned ∧
      ReachableIf pollingStep PollsUnqueued (· = Polling.new) s.polling)
      (fun s hinit => ⟨hinit.owned, .start hinit.polling⟩) fun s op s' ⟨h, hr⟩ hstep => ?_
    refine ⟨registrationsStep_owned h hstep, ?_⟩
    rcases registrationsStep_advances h hstep with he | ⟨op, hok, hp⟩
    · rw [he]
      exact hr
    · exact hr.next op hok hp
  exact hboth.2

end Run

/-! ## The queued flag -/

/-- The poller is in `ReadinessQueue::poll`. -/
def Poller.InPoll : Poller α → Prop
  | .clear | .dequeue _ _ _ | .requeue _ _ _ _ => True
  | _ => False

/-- No thread and no `ReadinessQueue::poll` is in the middle of an operation. -/
structure Registrations.AtRest (s : Registrations ι α J) : Prop where
  threads : ∀ i, s.threads i = .idle
  producers : ∀ i, s.polling.queue.producers i = .idle
  poller : ¬ s.polling.poller.InPoll

omit [DecidableEq ι] [DecidableEq α] in
/-- Outside `ReadinessQueue::poll` the poller has no node in hand. -/
theorem Registrations.Owned.holding_none {s : Registrations ι α J} (h : s.Owned)
    (hin : ¬ s.polling.poller.InPoll) : s.holding = none := by
  have hpoller := h.ok.poller
  unfold Polling.PollerOk at hpoller
  refine holding_of_free ⟨fun b phase hb => ?_, fun ptr hc call len limit hp => ?_⟩
  · rw [hb] at hpoller
    cases hp : s.polling.poller <;> rw [hp] at hpoller hin
    · exact nomatch hpoller.choose_spec
    · exact hpoller.2.1
    · exact nomatch hpoller.1.choose_spec
    · exact nomatch hpoller.choose_spec
    · exact hin trivial
    · exact hin trivial
    · exact hin trivial
  · rw [hp] at hin
    exact hin trivial

omit [DecidableEq ι] [DecidableEq α] in
theorem Registrations.Owned.pending_of_rest {s : Registrations ι α J} {a : α} (h : s.Owned)
    (hrest : s.AtRest) (hdropped : (s.word a).isDropped = false) (hsig : s.signalled a = true) :
    a ∈ s.polling.queue.pending := by
  have hlive : s.released a = false := by
    cases hr : s.released a with
    | false => rfl
    | true =>
      rw [h.dropped a hr] at hdropped
      cases hdropped
  obtain ⟨o, ho⟩ := h.books.owned a (h.signalled a hsig) hlive
  cases o with
  | queue => exact ho
  | thread i =>
    change (s.threads i).owing = some a at ho
    rw [hrest.threads i] at ho
    cases ho
  | enqueuer i =>
    change (s.polling.queue.producers i).owed = some a at ho
    rw [hrest.producers i] at ho
    cases ho
  | poller => cases (h.holding_none hrest.poller).symm.trans ho

/-- **The queued flag has a single owner.** In every interleaved run, the queued flag of a node that
has not been released is up exactly while the node is in the queue, or in the hands of the poller,
or owed by a thread, of which there is one only; the flag of a released node stays up, and the node
is nobody's; no node is enqueued while it is in the queue; and at rest, a live node left with
effective readiness since the poller last changed its word is in the queue. -/
theorem queued_flag_owned (s : Registrations ι α J)
    (hs : Reachable registrationsStep Registrations.Starts s) (a : α) :
    (s.released a = false → ((s.word a).isQueued = true ↔ ∃ o, s.Owns a o)) ∧
    (∀ o o', s.Owns a o → s.Owns a o' → o = o') ∧
    (s.released a = true → (s.word a).isQueued = true ∧ ∀ o, ¬ s.Owns a o) ∧
    ReachableIf pollingStep PollsUnqueued (· = Polling.new) s.polling ∧
    (s.AtRest → (s.word a).isDropped = false → s.signalled a = true →
      a ∈ s.polling.queue.pending) := by
  have h := registrations_owned hs
  exact ⟨h.books.iff_owned, h.books.unique a, h.books.spent a, registrations_polling hs,
    fun hrest hdropped hsig => h.pending_of_rest hrest hdropped hsig⟩

/-- A node that asks for readable events, on a new poll. -/
def oneNode : Registrations Unit ℕ ℕ where
  polling := .new
  nodes := fun _ => .new ⟨.tokenEvent, ⟨7⟩⟩ .readable .edge
  threads := fun _ => .idle
  hold := .load
  pushed := []
  released := fun _ => false
  signalled := fun _ => false

theorem oneNode_starts : oneNode.Starts where
  polling := rfl
  nodes _ := ⟨_, _, _, rfl, by decide, by decide⟩
  threads _ := rfl
  hold := rfl
  released _ := rfl
  signalled _ := rfl

/-- `set_readiness(readable)` from its call to its return. -/
theorem queued_flag_owned_signalled :
    ∃ s : Registrations Unit ℕ ℕ, (s.word 0).isQueued = true ∧ 0 ∈ s.polling.queue.pending := by
  obtain ⟨s, hs, hlast⟩ : ∃ s : Registrations Unit ℕ ℕ,
      run registrationsStep oneNode (.call () (.setReadiness 0 .readable) ::
          List.replicate 3 (.thread ()) ++ List.replicate 4 (.producer () false)) = some s ∧
        ((s.threads ()).isIdle, s.polling.queue.producers (),
          s.polling.poller, s.signalled 0, (s.word 0).isDropped, (s.word 0).isQueued) =
            (true, .idle, .idle, true, false, true) :=
    Option.map_eq_some_iff.mp (by decide)
  simp only [Prod.mk.injEq] at hlast
  obtain ⟨hthread, hproducer, hpoller, hsig, hdropped, hqueued⟩ := hlast
  have hrest : s.AtRest := by
    refine ⟨fun i => ?_, fun i => hproducer, ?_⟩
    · cases hi : s.threads i <;> rw [hi] at hthread <;> first | rfl | cases hthread
    · rw [hpoller]
      exact id
  have hreach : Reachable registrationsStep Registrations.Starts s :=
    (Reachable.start oneNode_starts).run hs
  exact ⟨s, hqueued, (queued_flag_owned s hreach 0).2.2.2.2 hrest hdropped hsig⟩

/-- A registration dropped and polled, its `SetReadiness` still alive: the flag is up and the node is
nobody's. -/
theorem queued_flag_outlives_node :
    ∃ s : Registrations Unit ℕ ℕ, Reachable registrationsStep Registrations.Starts s ∧
      (s.word 0).isQueued = true ∧ ∀ o, ¬ s.Owns 0 o := by
  obtain ⟨s, hs, hlast⟩ : ∃ s : Registrations Unit ℕ ℕ,
      run registrationsStep oneNode [[.call () (.drop 0)], .replicate 2 (.thread ()),
          .replicate 4 (.producer () false),
          [.poll (.poll2 ⟨8, false⟩ (some 0)), .poll (.selected (.ok false 0))],
          .replicate 8 (.poll .consumer), [.node]].flatten = some s ∧
        ((s.word 0).isQueued, s.polling.queue.pending, s.holding, (s.threads ()).owing,
          (s.polling.queue.producers ()).owed) = (true, [], none, none, none) :=
    Option.map_eq_some_iff.mp (by decide)
  simp only [Prod.mk.injEq] at hlast
  obtain ⟨hqueued, hpending, hholding, howing, howed⟩ := hlast
  refine ⟨s, (Reachable.start oneNode_starts).run hs, hqueued, fun o ho => ?_⟩
  cases o with
  | queue =>
    change 0 ∈ s.polling.queue.pending at ho
    rw [hpending] at ho
    cases ho
  | poller => cases hholding.symm.trans ho
  | thread i => cases howing.symm.trans ho
  | enqueuer i => cases howed.symm.trans ho

end MyMio

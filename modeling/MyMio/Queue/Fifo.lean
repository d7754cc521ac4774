import MyMio.Queue.Sound

/-! # The readiness queue is a lossless FIFO

What `dequeue_node` has returned is a prefix of what has been enqueued, in the order of the swaps of
the head, and the rest is still in the queue (`queue_fifo`). While no producer is between its swap
and its link, a call of `dequeue_node` does not come back `Inconsistent`, and comes back `Empty`
only when nothing is left: `Settled` is what each of its accesses then knows.
-/

namespace MyMio
set_option autoImplicit false

open BrokenQueue StepSystem

universe u v

variable {ι : Type v} {α : Type u}

/-! ## Quiet calls -/

/-- No producer is between its `compare_exchange` and its store. -/
def Queue.NoneLinking (q : Queue ι α) : Prop :=
  ∀ i a prev, q.producers i ≠ .enqueue a (.link prev)

/-- Every enqueued node has been returned. -/
def Queue.Drained (q : Queue ι α) : Prop := q.dequeued = q.enqueued.map .data

/-- The states of one call of `dequeue_node(null)` during which no producer is between its
`compare_exchange` and its store. -/
inductive QuietCall [DecidableEq ι] [DecidableEq α] (q : Queue ι α) : Queue ι α → Prop
  | call {q' : Queue ι α} : q.NoneLinking → queueStep q (.dequeueNode none) = some q' →
      QuietCall q q'
  | next {q' q'' : Queue ι α} (op : QueueOp ι α) : QuietCall q q' →
      (∀ ret, q'.consumer ≠ .returned ret) → Unqueued q' op → queueStep q' op = some q'' →
      q''.NoneLinking → QuietCall q q''

/-- What the consumer knows at each access of a quiet call. -/
def Settled (q : Queue ι α) : Prop :=
  match q.consumer with
  | .dequeueTail limit | .dequeueNext limit => limit = none
  | .dequeueHead => q.mem.head = q.tail
  | .dequeueEnd (.link prev) => prev = q.tail
  | .dequeueEnd _ => q.mem.head = q.tail
  | .dequeueLast => q.mem.next q.tail ≠ none
  | .clearStore ret | .clearExchange ret => ret = .dequeue .empty ∧ q.Drained
  | .returned (.dequeue .empty) => q.Drained
  | .returned (.dequeue .inconsistent) => False
  | _ => True

section Quiet
variable {q q' : Queue ι α} {nodes : List (Ptr α)}

/-- A tail that points nowhere, while nobody is linking, is the whole queue. -/
theorem Sound.quiet_single (h : Sound q nodes) (hq : q.NoneLinking) (hb : q.consumer.busy = none)
    (hnext : q.mem.next q.tail = none) : nodes = [q.tail] := by
  rcases h.broken.next_none hnext with hsingle | ⟨o, y, ho⟩
  · exact hsingle
  · cases o with
    | none =>
      rw [busy_none, hb] at ho
      cases ho
    | some i =>
      rw [busy_some] at ho
      cases hp : q.producers i with
      | enqueue a phase =>
        rw [hp] at ho
        obtain ⟨-, rfl⟩ := Prod.mk.inj (Option.some.inj ho)
        exact absurd hp (hq i a _)
      | _ =>
        rw [hp] at ho
        cases ho

theorem Sound.head_of_single (h : Sound q nodes) (hs : nodes = [q.tail]) : q.mem.head = q.tail := by
  have hlast := h.broken.last
  rw [hs] at hlast
  exact (Option.some.inj hlast).symm

theorem Sound.drained_of_single (h : Sound q nodes) (hs : nodes = [q.tail])
    (hmark : q.tail.isData = false) : q.Drained := by
  have hcontent := h.content
  rw [hs, List.filter_cons, hmark] at hcontent
  unfold Queue.Drained
  simpa using hcontent.symm

theorem Settled.congr (hset : Settled q) (hc : q'.consumer = q.consumer) (ht : q'.tail = q.tail)
    (hh : q'.mem.head = q.mem.head) (hn : q'.mem.next q.tail = q.mem.next q.tail)
    (he : q'.enqueued = q.enqueued) (hd : q'.dequeued = q.dequeued) : Settled q' := by
  unfold Settled Queue.Drained at *
  rw [hc, ht, hh, hn, he, hd]
  exact hset

/-- The middle of `dequeue_node` in a quiet call. -/
theorem Sound.checkTail_settled [DecidableEq α] (h : Sound q nodes) (hq : q.NoneLinking)
    (hb : q.consumer.busy = none) : Settled (q.checkTail none (q.mem.next q.tail)) := by
  unfold Queue.checkTail
  rw [if_neg (by simp)]
  cases hnext : q.mem.next q.tail with
  | none => exact h.head_of_single (h.quiet_single hq hb hnext)
  | some next => exact trivial

variable [DecidableEq ι] [DecidableEq α]

/-- A step of a producer of a quiet call is out of the consumer's sight. -/
theorem Sound.producer_quiet (h : Sound q nodes) (hq : q.NoneLinking) (hq' : q'.NoneLinking) {i : ι}
    (hs : q.producerStep i = some q') :
    q'.consumer = q.consumer ∧ q'.tail = q.tail ∧ q'.mem.head = q.mem.head ∧
      q'.mem.next q.tail = q.mem.next q.tail ∧ q'.enqueued = q.enqueued ∧
      q'.dequeued = q.dequeued := by
  unfold Queue.producerStep at hs
  cases hi : q.producers i with
  | idle => simp [hi] at hs
  | wakeup =>
    simp only [hi, Option.some.injEq] at hs
    subst hs
    exact ⟨rfl, rfl, rfl, rfl, rfl, rfl⟩
  | enqueue a phase =>
    simp only [hi, Option.some.injEq] at hs
    subst hs
    have ho : q.busy (some i) = some (.data a, phase) := by rw [busy_some, hi]; rfl
    have hafter := hq' i a
    simp only [Function.update_self] at hafter
    cases phase with
    | start =>
      have hne : q.tail ≠ .data a := fun he =>
        (h.broken.waiting _ _ _ ho trivial).1 (he ▸ h.broken.tail_mem)
      exact ⟨rfl, rfl, rfl, Function.update_of_ne hne _ _, rfl, rfl⟩
    | load => exact ⟨rfl, rfl, rfl, rfl, rfl, rfl⟩
    | exchange prev =>
      have hprev := h.prev _ _ _ ho
      by_cases he : q.mem.head = prev
      · simp [enqueueNode, hprev, he, Producer.after] at hafter
      · simp [enqueueNode, swaps, hprev, he]
    | link prev => exact absurd hi (hq i a prev)

omit [DecidableEq ι] in
theorem Sound.consumer_settled (h : Sound q nodes) (hq : q.NoneLinking) (hset : Settled q)
    (hs : q.consumerStep = some q') : Settled q' := by
  unfold Queue.consumerStep at hs
  unfold Settled at hset
  cases hc : q.consumer with
  | returned ret => simp [hc] at hs
  | dequeueTail limit =>
    have hb : q.consumer.busy = none := by rw [hc]; rfl
    simp only [hc] at hs hset
    subst hset
    split at hs
    · obtain rfl := Option.some.inj hs
      exact h.checkTail_settled hq hb
    · rename_i hmark
      cases hnext : q.mem.next q.tail with
      | none =>
        rw [hnext] at hs
        obtain rfl := Option.some.inj hs
        have hdrained := h.drained_of_single (h.quiet_single hq hb hnext) (by simpa using hmark)
        unfold Queue.clear
        split
        · exact ⟨rfl, hdrained⟩
        · exact hdrained
      | some next =>
        rw [hnext] at hs
        obtain rfl := Option.some.inj hs
        exact rfl
  | dequeueNext limit =>
    have hb : q.consumer.busy = none := by rw [hc]; rfl
    simp only [hc] at hs hset
    subst hset
    obtain rfl := Option.some.inj hs
    exact h.checkTail_settled hq hb
  | dequeueHead =>
    simp only [hc] at hs hset
    rw [if_pos hset] at hs
    obtain rfl := Option.some.inj hs
    exact hset
  | dequeueEnd phase =>
    have ho : q.busy none = some (.endMarker, phase) := by rw [busy_none, hc]; rfl
    simp only [hc] at hs hset
    obtain rfl := Option.some.inj hs
    cases phase with
    | start => exact hset
    | load => exact hset
    | exchange prev =>
      have hprev := h.prev _ _ _ ho
      by_cases he : q.mem.head = prev
      · simp only [enqueueNode, hprev, he, if_true, if_false]
        exact he.symm.trans hset
      · simp only [enqueueNode, hprev, he, if_false]
        exact hset
    | link prev =>
      show Function.update q.mem.next prev (some .endMarker) q.tail ≠ none
      rw [show prev = q.tail from hset, Function.update_self]
      exact Option.some_ne_none _
  | dequeueLast =>
    simp only [hc] at hs hset
    cases hnext : q.mem.next q.tail with
    | none => exact absurd hnext hset
    | some next =>
      rw [hnext] at hs
      obtain rfl := Option.some.inj hs
      exact trivial
  | clearStore ret =>
    simp only [hc] at hs hset
    obtain rfl := Option.some.inj hs
    exact hset
  | clearExchange ret =>
    simp only [hc] at hs hset
    obtain ⟨rfl, hdrained⟩ := hset
    split at hs <;>
    · obtain rfl := Option.some.inj hs
      exact hdrained
  | sleepHead =>
    simp only [hc] at hs
    obtain rfl := Option.some.inj hs
    exact trivial
  | sleepStore =>
    simp only [hc] at hs
    obtain rfl := Option.some.inj hs
    exact trivial
  | sleepExchange =>
    simp only [hc] at hs
    split at hs <;>
    · obtain rfl := Option.some.inj hs
      exact trivial
  | requeue a phase =>
    simp only [hc] at hs
    obtain rfl := Option.some.inj hs
    show Settled { q with mem := _, consumer := _, enqueued := _ }
    cases (enqueueNode q.mem (.data a) phase).2 <;> exact trivial

theorem QuietCall.settled {q₀ : Queue ι α} (hcall : QuietCall q₀ q) (h₀ : ∃ nodes, Sound q₀ nodes) :
    (∃ nodes, Sound q nodes) ∧ q.NoneLinking ∧ Settled q := by
  induction hcall with
  | call hq hs =>
    obtain ⟨nodes, h⟩ := h₀
    have hok : Unqueued q₀ (.dequeueNode none : QueueOp ι α) := trivial
    refine ⟨queueStep_sound h hok hs, ?_⟩
    simp only [queueStep] at hs
    split at hs
    · obtain rfl := Option.some.inj hs
      exact ⟨hq, rfl⟩
    · cases hs
  | @next q' q'' op _ hrun hok hs hq'' ih =>
    obtain ⟨⟨nodes, h⟩, hq', hset⟩ := ih
    refine ⟨queueStep_sound h hok hs, hq'', ?_⟩
    have hbusy (hop : op.isCall = true) : Settled q'' := by
      obtain ⟨⟨ret, hc⟩, -⟩ := queueStep_call hop hs
      exact absurd hc (hrun ret)
    cases op with
    | begin i a =>
      simp only [queueStep] at hs
      split at hs
      · obtain rfl := Option.some.inj hs
        exact hset
      · cases hs
    | producer i =>
      obtain ⟨hc, ht, hh, hn, he, hd⟩ := h.producer_quiet hq' hq'' hs
      exact hset.congr hc ht hh hn he hd
    | consumer => exact h.consumer_settled hq' hset hs
    | dequeueNode | clearSleepMarker | prepareForSleep | requeue => exact hbusy rfl

end Quiet

/-! ## What is returned is recorded -/

/-- A node just returned as data is the last one recorded. -/
def Recorded (q : Queue ι α) : Prop :=
  match q.consumer with
  | .returned ret => ∀ ptr, ret = .dequeue (.data ptr) → q.dequeued.getLast? = some ptr
  | .clearStore ret | .clearExchange ret => ∀ ptr, ret ≠ .dequeue (.data ptr)
  | _ => True

section Recording
variable [DecidableEq ι] [DecidableEq α] {q q' : Queue ι α}

omit [DecidableEq ι] [DecidableEq α] in
theorem takeTail_recorded (q : Queue ι α) (next : Ptr α) : Recorded (q.takeTail next) := by
  intro ptr he
  obtain rfl := Dequeue.data.inj (Ret.dequeue.inj he)
  show (q.dequeued ++ [q.tail]).getLast? = some q.tail
  simp

omit [DecidableEq ι] in
theorem checkTail_recorded (q : Queue ι α) (limit next : Option (Ptr α)) :
    Recorded (q.checkTail limit next) := by
  unfold Queue.checkTail
  split
  · exact fun ptr he => by cases he
  · cases next with
    | none => exact trivial
    | some next => exact takeTail_recorded q next

omit [DecidableEq ι] in
theorem clear_recorded (q : Queue ι α) {ret : Ret α} (hret : ∀ ptr, ret ≠ .dequeue (.data ptr)) :
    Recorded (q.clear ret) := by
  unfold Queue.clear
  split
  · exact hret
  · exact fun ptr he => absurd he (hret ptr)

omit [DecidableEq ι] in
theorem consumerStep_recorded (h : Recorded q) (hs : q.consumerStep = some q') : Recorded q' := by
  unfold Queue.consumerStep at hs
  unfold Recorded at h
  cases hc : q.consumer with
  | returned ret => simp [hc] at hs
  | dequeueTail limit =>
    simp only [hc] at hs
    split at hs
    · obtain rfl := Option.some.inj hs
      exact checkTail_recorded q limit _
    · split at hs <;> obtain rfl := Option.some.inj hs
      · exact clear_recorded q fun ptr he => by cases he
      · exact trivial
  | dequeueNext limit =>
    simp only [hc] at hs
    obtain rfl := Option.some.inj hs
    exact checkTail_recorded q limit _
  | dequeueHead =>
    simp only [hc] at hs
    split at hs <;> obtain rfl := Option.some.inj hs
    · exact trivial
    · exact fun ptr he => by cases he
  | dequeueEnd phase =>
    simp only [hc] at hs
    obtain rfl := Option.some.inj hs
    show Recorded { q with mem := _, consumer := _ }
    cases (enqueueNode q.mem .endMarker phase).2 <;> exact trivial
  | dequeueLast =>
    simp only [hc] at hs
    split at hs <;> obtain rfl := Option.some.inj hs
    · exact takeTail_recorded q _
    · exact fun ptr he => by cases he
  | clearStore ret =>
    simp only [hc] at hs h
    obtain rfl := Option.some.inj hs
    exact h
  | clearExchange ret =>
    simp only [hc] at hs h
    split at hs <;> obtain rfl := Option.some.inj hs <;> exact fun ptr he => absurd he (h ptr)
  | sleepHead =>
    simp only [hc] at hs
    obtain rfl := Option.some.inj hs
    exact fun ptr he => by cases he
  | sleepStore =>
    simp only [hc] at hs
    obtain rfl := Option.some.inj hs
    exact trivial
  | sleepExchange =>
    simp only [hc] at hs
    split at hs <;> obtain rfl := Option.some.inj hs <;> exact fun ptr he => by cases he
  | requeue a phase =>
    simp only [hc] at hs
    obtain rfl := Option.some.inj hs
    show Recorded { q with mem := _, consumer := _, enqueued := _ }
    cases (enqueueNode q.mem (.data a) phase).2 with
    | goOn phase' => exact trivial
    | done wakes => exact fun ptr he => by cases he

theorem queueStep_recorded {op : QueueOp ι α} (h : Recorded q) (hs : queueStep q op = some q') :
    Recorded q' := by
  have hcall (hop : op.isCall = true) : Recorded q' := by
    obtain ⟨-, hs⟩ := queueStep_call hop hs
    cases op with
    | dequeueNode limit =>
      obtain rfl := Option.some.inj hs
      exact trivial
    | clearSleepMarker =>
      obtain rfl := Option.some.inj hs
      exact clear_recorded q fun ptr he => by cases he
    | prepareForSleep =>
      obtain rfl := Option.some.inj hs
      unfold Queue.prepare
      split
      · exact trivial
      · split
        · exact trivial
        · exact fun ptr he => by cases he
    | requeue a =>
      obtain rfl := Option.some.inj hs
      exact trivial
    | begin | producer | consumer => cases hop
  cases op with
  | begin i a =>
    simp only [queueStep] at hs
    split at hs
    · obtain rfl := Option.some.inj hs
      exact h
    · cases hs
  | producer i =>
    simp only [queueStep, Queue.producerStep] at hs
    split at hs
    · cases hs
    · obtain rfl := Option.some.inj hs
      exact h
    · obtain rfl := Option.some.inj hs
      exact h
  | consumer => exact consumerStep_recorded h hs
  | dequeueNode | clearSleepMarker | prepareForSleep | requeue => exact hcall rfl

end Recording

/-! ## The queue -/

/-- **The readiness queue is a lossless FIFO.** In every interleaved run that enqueues nodes only
while they are not in the queue, what has been returned as data is a prefix of what has been enqueued,
and no marker; and a quiet call does not return `Inconsistent`, and returns `Empty` only if
everything enqueued has been returned. -/
theorem queue_fifo [DecidableEq ι] [DecidableEq α] (q : Queue ι α)
    (hq : ReachableIf queueStep Unqueued (· = Queue.new) q) :
    q.dequeued <+: q.enqueued.map .data ∧
    (∀ ptr, q.consumer = .returned (.dequeue (.data ptr)) →
      ptr.isData = true ∧ q.dequeued.getLast? = some ptr) ∧
    ∀ q' d, QuietCall q q' → q'.consumer = .returned (.dequeue d) →
      d ≠ .inconsistent ∧ (d = .empty → q'.Drained) := by
  obtain ⟨nodes, h⟩ := queue_sound hq
  have hbegins : q.dequeued <+: q.enqueued.map .data := ⟨_, h.content.symm⟩
  have hrec : Recorded q := (hq.reachable).invariant (P := Recorded)
    (fun q hinit => by subst hinit; exact fun ptr he => by cases he)
    (fun _ _ _ h hs => queueStep_recorded h hs)
  refine ⟨hbegins, fun ptr hret => ?_, fun q' d hcall hret => ?_⟩
  · unfold Recorded at hrec
    rw [hret] at hrec
    have hlast := hrec ptr rfl
    obtain ⟨a, -, rfl⟩ := List.mem_map.mp (hbegins.subset (List.mem_of_getLast? hlast))
    exact ⟨rfl, hlast⟩
  · obtain ⟨-, -, hset⟩ := hcall.settled ⟨nodes, h⟩
    unfold Settled at hset
    rw [hret] at hset
    cases d with
    | data ptr => exact ⟨fun he => (by cases he), fun he => by cases he⟩
    | empty => exact ⟨fun he => (by cases he), fun _ => hset⟩
    | inconsistent => exact hset.elim

/-- Two nodes are enqueued, by two threads of which the second is the first to exchange the head, and
dequeued. -/
def overtakingOps : List (QueueOp Bool ℕ) :=
  [.begin true 5, .producer true, .begin false 6] ++ List.replicate 4 (.producer false) ++
    List.replicate 3 (.producer true) ++ .dequeueNode none :: List.replicate 2 .consumer ++
    .dequeueNode none :: List.replicate 7 .consumer

theorem queue_fifo_two : ∃ q : Queue Bool ℕ, run queueStep Queue.new overtakingOps = some q ∧
    q.dequeued = [.data 6, .data 5] ∧ q.dequeued <+: q.enqueued.map .data := by
  obtain ⟨q, hq, hlast⟩ : ∃ q : Queue Bool ℕ, run queueStep Queue.new overtakingOps = some q ∧
      q.dequeued = [.data 6, .data 5] := Option.map_eq_some_iff.mp (by decide)
  have hok : Along queueStep Unqueued Queue.new overtakingOps := by decide
  have hstart : ReachableIf queueStep Unqueued (· = Queue.new) (Queue.new : Queue Bool ℕ) := .start rfl
  exact ⟨q, hq, hlast, (queue_fifo q (hstart.run hok hq)).1⟩

end MyMio

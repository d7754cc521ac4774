import MyMio.Queue.Sleep

/-! # Where a node is

A node that somebody has to enqueue, or has enqueued, is in one of three places: with an enqueuer
that has not swapped the head yet, in the queue, or with the consumer that has dequeued it. What an
access does to these places is all that `MyMio.Node` needs to know of the queue.
-/

namespace MyMio
set_option autoImplicit false

open BrokenQueue StepSystem

universe u v

variable {ι : Type v} {α : Type u}

/-! ## The three places -/

/-- The nodes in the queue, oldest first. -/
def Queue.pending (q : Queue ι α) : List α := q.enqueued.drop q.dequeued.length

/-- The node of an enqueuer that has not swapped the head yet. -/
def owed (a : α) : Phase (Ptr α) → Option α
  | .link _ => none
  | _ => some a

def Producer.owed : Producer α → Option α
  | .enqueue a phase => MyMio.owed a phase
  | _ => none

/-- The node the consumer has dequeued or is putting back. -/
def Consumer.holds : Consumer α → Option α
  | .requeue a phase => owed a phase
  | .returned (.dequeue (.data (.data a))) => some a
  | _ => none

/-- The consumer is in `dequeue_node`, past its entry. -/
def Consumer.Dequeuing : Consumer α → Prop
  | .dequeueTail _ | .dequeueNext _ | .dequeueHead | .dequeueEnd _ | .dequeueLast => True
  | _ => False

/-! ## What an access does to them -/

section Access
variable {q q' : Queue ι α} {nodes nodes' : List (Ptr α)}

theorem Sound.pending_eq (h : Sound q nodes) :
    q.pending.map .data = nodes.filter Ptr.isData := by
  unfold Queue.pending
  rw [List.map_drop, h.content, List.drop_left]

theorem Sound.mem_pending (h : Sound q nodes) {a : α} (ha : .data a ∈ nodes) : a ∈ q.pending := by
  have hfilter : Ptr.data a ∈ nodes.filter Ptr.isData := List.mem_filter.mpr ⟨ha, rfl⟩
  rw [← h.pending_eq] at hfilter
  obtain ⟨b, hb, he⟩ := List.mem_map.mp hfilter
  exact Ptr.data.inj he ▸ hb

theorem Sound.pending_nodup (h : Sound q nodes) : q.pending.Nodup := by
  have hnodup : (nodes.filter Ptr.isData).Nodup := h.broken.nodup.filter _
  rw [← h.pending_eq] at hnodup
  exact hnodup.of_map _

theorem Sound.length_le (h : Sound q nodes) : q.dequeued.length ≤ q.enqueued.length := by
  have hlength := congrArg List.length h.content
  rw [List.length_map, List.length_append] at hlength
  omega

theorem Sound.free (h : Sound q nodes) {a : α} (hpending : a ∉ q.pending)
    (hproducers : ∀ i, (q.producers i).owed ≠ some a)
    (hconsumer : ∀ b phase, q.consumer = .requeue b phase → owed b phase ≠ some a) : q.Free a := by
  refine ⟨hpending, fun o phase ho => ?_⟩
  have hwaits : owed a phase = some a := by
    cases phase with
    | link prev =>
      obtain ⟨-, xs, ys, hnodes⟩ := h.broken.linking o prev (.data a) ho
      exact absurd (h.mem_pending (a := a) (by rw [hnodes]; simp)) hpending
    | _ => rfl
  cases o with
  | some i =>
    rw [busy_some] at ho
    have hi := hproducers i
    cases hp : q.producers i with
    | enqueue b p =>
      rw [hp] at ho hi
      obtain ⟨he, rfl⟩ := Prod.mk.inj (Option.some.inj ho)
      obtain rfl := Ptr.data.inj he
      exact hi hwaits
    | _ =>
      rw [hp] at ho
      cases ho
  | none =>
    rw [busy_none] at ho
    cases hc : q.consumer with
    | requeue b p =>
      rw [hc] at ho
      obtain ⟨he, rfl⟩ := Prod.mk.inj (Option.some.inj ho)
      obtain rfl := Ptr.data.inj he
      exact hconsumer b p hc hwaits
    | dequeueEnd p =>
      rw [hc] at ho
      obtain ⟨he, -⟩ := Prod.mk.inj (Option.some.inj ho)
      cases he
    | _ =>
      rw [hc] at ho
      cases ho

variable [DecidableEq α]

/-- An access of `enqueue_node` either swaps the head or leaves the node where it was. -/
theorem owed_enqueueNode (h : Sound q nodes) {o : Option ι} {node : Ptr α} {phase : Phase (Ptr α)}
    (ho : q.busy o = some (node, phase)) (a : α) :
    swaps q.mem phase = true ∧ owed a phase = some a ∧
        (∃ prev, (enqueueNode q.mem node phase).2 = .goOn (.link prev)) ∨
      swaps q.mem phase = false ∧
        ((∃ next, (enqueueNode q.mem node phase).2 = .goOn next ∧ owed a next = owed a phase) ∨
          (∃ wakes, (enqueueNode q.mem node phase).2 = .done wakes) ∧ owed a phase = none) := by
  cases phase with
  | start => exact .inr ⟨rfl, .inl ⟨.load, rfl, rfl⟩⟩
  | load => exact .inr ⟨rfl, .inl ⟨.exchange q.mem.head, rfl, rfl⟩⟩
  | exchange prev =>
    have hprev := h.prev _ _ _ ho
    by_cases he : q.mem.head = prev
    · exact .inl ⟨by simp [swaps, hprev, he], rfl, prev, by simp [enqueueNode, hprev, he]⟩
    · exact .inr ⟨by simp [swaps, he], .inl ⟨.exchange q.mem.head, by simp [enqueueNode, hprev, he], rfl⟩⟩
  | link prev => exact .inr ⟨rfl, .inr ⟨⟨_, rfl⟩, rfl⟩⟩

variable [DecidableEq ι]

/-- An access of a producer: its node stays where it is, or goes into the queue. -/
theorem Sound.producer_places (h : Sound q nodes) {i : ι} (hs : q.producerStep i = some q') :
    q'.consumer = q.consumer ∧
      (q'.pending = q.pending ∧ (∀ j, (q'.producers j).owed = (q.producers j).owed) ∨
        ∃ a, (q.producers i).owed = some a ∧ q'.pending = q.pending ++ [a] ∧
          ∀ j, (q'.producers j).owed = if j = i then none else (q.producers j).owed) := by
  have hlength := h.length_le
  unfold Queue.producerStep at hs
  cases hi : q.producers i with
  | idle => simp [hi] at hs
  | wakeup =>
    simp only [hi, Option.some.injEq] at hs
    subst hs
    refine ⟨rfl, .inl ⟨rfl, fun j => ?_⟩⟩
    by_cases hj : j = i
    · subst hj
      simp [hi, Producer.owed]
    · simp [hj]
  | enqueue a phase =>
    simp only [hi, Option.some.injEq] at hs
    subst hs
    refine ⟨rfl, ?_⟩
    have ho : q.busy (some i) = some (.data a, phase) := by rw [busy_some, hi]; rfl
    rcases owed_enqueueNode h ho a with ⟨hswap, howed, prev, hnext⟩ | ⟨hswap, hrest⟩
    · refine .inr ⟨a, howed, ?_, fun j => ?_⟩
      · show List.drop _ (if swaps q.mem phase = true then q.enqueued ++ [a] else q.enqueued) = _
        rw [if_pos hswap, List.drop_append_of_le_length hlength]
        rfl
      · by_cases hj : j = i
        · subst hj
          simp [hnext, Producer.after, Producer.owed, owed]
        · simp [hj]
    · refine .inl ⟨?_, fun j => ?_⟩
      · show List.drop _ (if swaps q.mem phase = true then q.enqueued ++ [a] else q.enqueued) = _
        rw [if_neg (by simp [hswap])]
        rfl
      · by_cases hj : j = i
        · subst hj
          rcases hrest with ⟨next, hnext, howed⟩ | ⟨⟨wakes, hnext⟩, howed⟩
          · simp [hnext, hi, Producer.after, Producer.owed, howed]
          · cases wakes <;> simp [hnext, hi, Producer.after, Producer.owed, howed]
        · simp [hj]

inductive ConsumerMove (q q' : Queue ι α) : Prop
  | stays : q'.pending = q.pending → q'.consumer.holds = q.consumer.holds →
      (∀ ptr, q'.consumer ≠ .returned (.dequeue (.data ptr))) → ConsumerMove q q'
  | takes (a : α) : q.consumer.Dequeuing → q.pending = a :: q'.pending →
      q'.consumer = .returned (.dequeue (.data (.data a))) → ConsumerMove q q'
  | putsBack (a : α) : q.consumer.holds = some a → q'.pending = q.pending ++ [a] →
      q'.consumer.holds = none → (∀ ptr, q'.consumer ≠ .returned (.dequeue (.data ptr))) →
      ConsumerMove q q'

omit [DecidableEq α] [DecidableEq ι] in
theorem takeTail_pending (next : Ptr α) {rest : List (Ptr α)}
    (hcontent : q.enqueued.map .data = (q.dequeued ++ [q.tail]) ++ rest) :
    ∃ a, q.tail = .data a ∧ q.pending = a :: (q.takeTail next).pending := by
  have hmap : q.pending.map .data = q.tail :: rest := by
    unfold Queue.pending
    rw [List.map_drop, hcontent, List.append_assoc, List.drop_left]
    rfl
  have hrest : (q.takeTail next).pending = q.pending.drop 1 := by
    show q.enqueued.drop (q.dequeued ++ [q.tail]).length = (q.enqueued.drop q.dequeued.length).drop 1
    rw [List.drop_drop, List.length_append]
    rfl
  rw [hrest]
  cases hp : q.pending with
  | nil =>
    rw [hp] at hmap
    cases hmap
  | cons a rest =>
    rw [hp] at hmap
    exact ⟨a, (List.cons.inj hmap).1.symm, rfl⟩

omit [DecidableEq α] [DecidableEq ι] in
theorem takeTail_move {next : Ptr α} (h' : Sound (q.takeTail next) nodes')
    (hd : q.consumer.Dequeuing) : ConsumerMove q (q.takeTail next) := by
  obtain ⟨a, htail, hpending⟩ := takeTail_pending (q := q) next h'.content
  refine .takes a hd hpending ?_
  show Consumer.returned (.dequeue (.data q.tail)) = _
  rw [htail]

omit [DecidableEq ι] in
theorem checkTail_move {limit next : Option (Ptr α)}
    (h' : Sound (q.checkTail limit next) nodes') (hd : q.consumer.Dequeuing)
    (hholds : q.consumer.holds = none) : ConsumerMove q (q.checkTail limit next) := by
  unfold Queue.checkTail at *
  split
  · exact .stays rfl hholds.symm fun ptr he => by cases he
  · rename_i hlimit
    rw [if_neg hlimit] at h'
    cases next with
    | none => exact .stays rfl hholds.symm fun ptr he => by cases he
    | some next => exact takeTail_move h' hd

omit [DecidableEq ι] in
theorem clear_move {ret : Ret α} (hret : ∀ ptr, ret ≠ .dequeue (.data ptr))
    (hholds : q.consumer.holds = none) : ConsumerMove q (q.clear ret) := by
  have hnone : (Consumer.returned ret).holds = none := by
    cases ret with
    | dequeue d =>
      cases d with
      | data ptr => exact absurd rfl (hret ptr)
      | _ => rfl
    | _ => rfl
  unfold Queue.clear
  split
  · exact .stays rfl hholds.symm fun ptr he => by cases he
  · exact .stays rfl (hnone.trans hholds.symm) fun ptr he => hret ptr (Consumer.returned.inj he)

omit [DecidableEq ι] in
theorem Sound.consumer_move (h : Sound q nodes) (h' : Sound q' nodes') (hrec : Recorded q)
    (hs : q.consumerStep = some q') : q'.producers = q.producers ∧ ConsumerMove q q' := by
  have hlength := h.length_le
  unfold Queue.consumerStep at hs
  unfold Recorded at hrec
  cases hc : q.consumer with
  | returned ret => simp [hc] at hs
  | dequeueTail limit =>
    have hd : q.consumer.Dequeuing := by rw [hc]; exact trivial
    have hholds : q.consumer.holds = none := by rw [hc]; rfl
    simp only [hc] at hs
    split at hs
    · obtain rfl := Option.some.inj hs
      exact ⟨Queue.checkTail_producers .., checkTail_move h' hd hholds⟩
    · cases hnext : q.mem.next q.tail with
      | none =>
        rw [hnext] at hs
        obtain rfl := Option.some.inj hs
        exact ⟨Queue.clear_producers .., clear_move (fun ptr he => by cases he) hholds⟩
      | some next =>
        rw [hnext] at hs
        obtain rfl := Option.some.inj hs
        exact ⟨rfl, .stays rfl hholds.symm fun ptr he => by cases he⟩
  | dequeueNext limit =>
    have hd : q.consumer.Dequeuing := by rw [hc]; exact trivial
    have hholds : q.consumer.holds = none := by rw [hc]; rfl
    simp only [hc] at hs
    obtain rfl := Option.some.inj hs
    exact ⟨Queue.checkTail_producers .., checkTail_move h' hd hholds⟩
  | dequeueHead =>
    simp only [hc] at hs
    split at hs <;>
    · obtain rfl := Option.some.inj hs
      exact ⟨rfl, .stays rfl (by rw [hc]; rfl) fun ptr he => by cases he⟩
  | dequeueEnd phase =>
    simp only [hc] at hs
    obtain rfl := Option.some.inj hs
    refine ⟨rfl, .stays rfl ?_ fun ptr he => ?_⟩
    · rw [hc]
      cases (enqueueNode q.mem .endMarker phase).2 <;> rfl
    · change Consumer.afterEnd (enqueueNode q.mem .endMarker phase).2 = _ at he
      cases hnext : (enqueueNode q.mem .endMarker phase).2 <;>
      · rw [hnext] at he
        cases he
  | dequeueLast =>
    have hd : q.consumer.Dequeuing := by rw [hc]; exact trivial
    simp only [hc] at hs
    cases hnext : q.mem.next q.tail with
    | none =>
      rw [hnext] at hs
      obtain rfl := Option.some.inj hs
      exact ⟨rfl, .stays rfl (by rw [hc]; rfl) fun ptr he => by cases he⟩
    | some next =>
      rw [hnext] at hs
      obtain rfl := Option.some.inj hs
      exact ⟨rfl, takeTail_move h' hd⟩
  | clearStore ret =>
    simp only [hc] at hs
    obtain rfl := Option.some.inj hs
    exact ⟨rfl, .stays rfl (by rw [hc]; rfl) fun ptr he => by cases he⟩
  | clearExchange ret =>
    rw [hc] at hrec
    have hnone : (Consumer.returned ret).holds = none := by
      cases ret with
      | dequeue d =>
        cases d with
        | data ptr => exact absurd rfl (hrec ptr)
        | _ => rfl
      | _ => rfl
    simp only [hc] at hs
    split at hs <;>
    · obtain rfl := Option.some.inj hs
      exact ⟨rfl, .stays rfl (by rw [hc]; exact hnone) fun ptr he =>
        hrec ptr (Consumer.returned.inj he)⟩
  | sleepHead =>
    simp only [hc] at hs
    obtain rfl := Option.some.inj hs
    exact ⟨rfl, .stays rfl (by rw [hc]; rfl) fun ptr he => by cases he⟩
  | sleepStore =>
    simp only [hc] at hs
    obtain rfl := Option.some.inj hs
    exact ⟨rfl, .stays rfl (by rw [hc]; rfl) fun ptr he => by cases he⟩
  | sleepExchange =>
    simp only [hc] at hs
    split at hs <;>
    · obtain rfl := Option.some.inj hs
      exact ⟨rfl, .stays rfl (by rw [hc]; rfl) fun ptr he => by cases he⟩
  | requeue a phase =>
    simp only [hc] at hs
    obtain rfl := Option.some.inj hs
    refine ⟨rfl, ?_⟩
    have ho : q.busy none = some (.data a, phase) := by rw [busy_none, hc]; rfl
    rcases owed_enqueueNode h ho a with ⟨hswap, howed, prev, hnext⟩ | ⟨hswap, hrest⟩
    · refine .putsBack a (by rw [hc]; exact howed) ?_ ?_ fun ptr he => ?_
      · show List.drop _ (if swaps q.mem phase = true then q.enqueued ++ [a] else q.enqueued) = _
        rw [if_pos hswap, List.drop_append_of_le_length hlength]
        rfl
      · show (Consumer.afterRequeue a (enqueueNode q.mem (.data a) phase).2).holds = none
        rw [hnext]
        rfl
      · change Consumer.afterRequeue a (enqueueNode q.mem (.data a) phase).2 = _ at he
        rw [hnext] at he
        cases he
    · refine .stays ?_ ?_ fun ptr he => ?_
      · show List.drop _ (if swaps q.mem phase = true then q.enqueued ++ [a] else q.enqueued) = _
        rw [if_neg (by simp [hswap])]
        rfl
      · show (Consumer.afterRequeue a (enqueueNode q.mem (.data a) phase).2).holds = _
        rw [hc]
        rcases hrest with ⟨next, hnext, howed⟩ | ⟨⟨wakes, hnext⟩, howed⟩
        · rw [hnext]
          exact howed
        · rw [hnext]
          exact howed.symm
      · change Consumer.afterRequeue a (enqueueNode q.mem (.data a) phase).2 = _ at he
        cases hnext : (enqueueNode q.mem (.data a) phase).2 <;>
        · rw [hnext] at he
          cases he

end Access

/-! ## What a step of the poller does to them -/

/-- `dequeue_node` only runs in the loop of `ReadinessQueue::poll`. -/
def Polling.At (p : Polling ι α) : Prop :=
  p.queue.consumer.Dequeuing → ∃ call len limit, p.poller = .dequeue call len limit

/-- The poller has no node in hand. -/
def Polling.HandsFree (p : Polling ι α) : Prop :=
  (∀ a phase, p.queue.consumer ≠ .requeue a phase) ∧
    ∀ ptr, p.queue.consumer = .returned (.dequeue (.data ptr)) →
      ∀ call len limit, p.poller ≠ .dequeue call len limit

section Steps
variable [DecidableEq ι] [DecidableEq α] {p p' : Polling ι α} {call : Call} {len : ℕ}
  {limit : Option (Ptr α)}

omit [DecidableEq ι] in
theorem dequeuing_of_step {q q' : Queue ι α} (hs : q.consumerStep = some q')
    (h : q'.consumer.Dequeuing) : q.consumer.Dequeuing := by
  unfold Queue.consumerStep at hs
  cases hc : q.consumer with
  | dequeueTail | dequeueNext | dequeueHead | dequeueEnd | dequeueLast => exact trivial
  | returned ret => simp [hc] at hs
  | clearStore ret =>
    simp only [hc] at hs
    obtain rfl := Option.some.inj hs
    exact h.elim
  | clearExchange ret =>
    simp only [hc] at hs
    split at hs <;>
    · obtain rfl := Option.some.inj hs
      exact h.elim
  | sleepHead =>
    simp only [hc] at hs
    obtain rfl := Option.some.inj hs
    exact h.elim
  | sleepStore =>
    simp only [hc] at hs
    obtain rfl := Option.some.inj hs
    exact h.elim
  | sleepExchange =>
    simp only [hc] at hs
    split at hs <;>
    · obtain rfl := Option.some.inj hs
      exact h.elim
  | requeue a phase =>
    simp only [hc] at hs
    obtain rfl := Option.some.inj hs
    change (Consumer.afterRequeue a (enqueueNode q.mem (.data a) phase).2).Dequeuing at h
    cases hnext : (enqueueNode q.mem (.data a) phase).2 <;>
    · rw [hnext] at h
      exact h.elim

theorem producerStep_queue {i : ι} {wouldBlock : Bool}
    (hs : pollingStep p (.producer i wouldBlock) = some p') :
    p.queue.producerStep i = some p'.queue ∧ p'.poller = p.poller := by
  change p.producerStep i wouldBlock = some p' at hs
  unfold Polling.producerStep at hs
  split at hs
  · split at hs
    · cases hs
    · obtain ⟨q, hq, rfl⟩ := Option.map_eq_some_iff.mp hs
      exact ⟨hq, rfl⟩
  · obtain ⟨q, hq, rfl⟩ := Option.map_eq_some_iff.mp hs
    exact ⟨hq, rfl⟩

/-- What a step of the poller outside the queue leaves behind. -/
structure Polling.Called (p p' : Polling ι α) : Prop where
  pending : p'.queue.pending = p.queue.pending
  producers : p'.queue.producers = p.queue.producers
  at_ : p'.At
  free : p'.HandsFree

theorem pollLoop_called (hrest : p.queue.consumer.AtRest)
    (hs : p.pollLoop call len limit = some p') : p.Called p' := by
  obtain ⟨ret, hret⟩ := hrest
  unfold Polling.pollLoop at hs
  split at hs
  · obtain ⟨q, hq, rfl⟩ := Option.map_eq_some_iff.mp hs
    simp only [queueStep, hret] at hq
    obtain rfl := Option.some.inj hq
    exact ⟨rfl, rfl, fun _ => ⟨_, _, _, rfl⟩, fun a phase he => (by cases he), fun ptr he => by cases he⟩
  · obtain rfl := Option.some.inj hs
    refine ⟨rfl, rfl, fun h => ?_, fun a phase he => ?_, fun ptr _ _ _ _ he => by cases he⟩
    · change p.queue.consumer.Dequeuing at h
      rw [hret] at h
      exact h.elim
    · cases hret.symm.trans he

theorem pollQueue_called (hrest : p.queue.consumer.AtRest) (hs : p.pollQueue call len = some p') :
    p.Called p' := by
  unfold Polling.pollQueue at hs
  split at hs
  · obtain ⟨ret, hret⟩ := hrest
    obtain ⟨q, hq, rfl⟩ := Option.map_eq_some_iff.mp hs
    simp only [queueStep, hret] at hq
    obtain rfl := Option.some.inj hq
    refine ⟨?_, Queue.clear_producers .., fun h => ?_, fun a phase he => ?_, fun ptr he => ?_⟩
    · show (p.queue.clear .unit).pending = _
      unfold Queue.clear
      split <;> rfl
    · change (p.queue.clear .unit).consumer.Dequeuing at h
      unfold Queue.clear at h
      split at h <;> exact h.elim
    · change (p.queue.clear .unit).consumer = _ at he
      unfold Queue.clear at he
      split at he <;> cases he
    · change (p.queue.clear .unit).consumer = _ at he
      unfold Queue.clear at he
      split at he <;> cases he
  · exact pollLoop_called hrest hs

omit [DecidableEq ι] [DecidableEq α] in
/-- The poller moves outside the queue, to a place that is not the loop. -/
theorem called_of_poller {poller : Poller α} {pipe : ℕ} (hrest : p.queue.consumer.AtRest)
    (hpoller : ∀ call len limit, poller ≠ .dequeue call len limit) :
    p.Called { p with poller := poller, pipe := pipe } := by
  obtain ⟨ret, hret⟩ := hrest
  refine ⟨rfl, rfl, fun h => ?_, fun a phase he => ?_, fun ptr _ => hpoller⟩
  · change p.queue.consumer.Dequeuing at h
    rw [hret] at h
    exact h.elim
  · cases hret.symm.trans he

theorem selected_called {timeout : Option ℕ} {res : SelectResult} (hrest : p.queue.consumer.AtRest)
    (hp : p.poller = .select call timeout) (hs : p.selected call timeout res = some p') :
    p.Called p' := by
  cases res with
  | ok notify len =>
    cases notify with
    | true =>
      obtain rfl := Option.some.inj hs
      exact called_of_poller hrest fun _ _ _ he => by cases he
    | false => exact pollQueue_called hrest hs
  | interrupted elapsed =>
    simp only [Polling.selected] at hs
    split at hs
    · obtain rfl := Option.some.inj hs
      exact called_of_poller hrest fun _ _ _ he => by cases he
    · cases timeout with
      | none =>
        obtain rfl := Option.some.inj hs
        exact called_of_poller hrest fun _ _ _ he => by cases hp.symm.trans he
      | some rest =>
        simp only at hs
        split at hs
        · exact pollQueue_called hrest hs
        · obtain rfl := Option.some.inj hs
          exact called_of_poller hrest fun _ _ _ he => by cases he
  | failed =>
    obtain rfl := Option.some.inj hs
    exact called_of_poller hrest fun _ _ _ he => by cases he

theorem poll2_called {timeout : Option ℕ} (hrest : p.queue.consumer.AtRest)
    (hs : p.poll2 call timeout = some p') : p.Called p' := by
  unfold Polling.poll2 at hs
  split at hs
  · obtain rfl := Option.some.inj hs
    exact called_of_poller hrest fun _ _ _ he => by cases he
  · obtain ⟨ret, hret⟩ := hrest
    obtain ⟨q, hq, rfl⟩ := Option.map_eq_some_iff.mp hs
    simp only [queueStep, hret] at hq
    obtain rfl := Option.some.inj hq
    have hpre := (prepare_preparing p.queue).1
    refine ⟨?_, ?_, fun h => ?_, fun a phase he => ?_, fun ptr he => ?_⟩
    · show p.queue.prepare.pending = _
      unfold Queue.prepare
      split
      · rfl
      · split <;> rfl
    · show p.queue.prepare.producers = _
      unfold Queue.prepare
      split
      · rfl
      · split <;> rfl
    · change p.queue.prepare.consumer.Dequeuing at h
      cases hc : p.queue.prepare.consumer <;> rw [hc] at h hpre <;>
        first | exact h.elim | exact hpre.elim
    · change p.queue.prepare.consumer = _ at he
      rw [he] at hpre
      exact hpre.elim
    · change p.queue.prepare.consumer = _ at he
      rw [he] at hpre
      exact hpre.elim

/-- The steps of the poller that neither access the queue nor put a node back. -/
def PollingOp.Outside (p : Polling ι α) : PollingOp ι α → Prop
  | .begin _ _ | .producer _ _ | .consumer => False
  | .dequeued requeue _ =>
    requeue = true → ∀ ptr, p.queue.consumer ≠ .returned (.dequeue (.data ptr))
  | _ => True

theorem pollingStep_called {op : PollingOp ι α} (h : p.Ok) (hop : op.Outside p)
    (hs : pollingStep p op = some p') : p.Called p' := by
  have hpoller := h.poller
  unfold Polling.PollerOk at hpoller
  unfold pollingStep at hs
  split at hs
  · exact hop.elim
  · exact hop.elim
  · exact hop.elim
  · rename_i hp
    rw [hp] at hpoller
    exact poll2_called hpoller hs
  · rename_i hp hc
    obtain rfl := Option.some.inj hs
    exact called_of_poller ⟨_, hc⟩ fun _ _ _ he => by cases he
  · rename_i hp
    rw [hp] at hpoller
    exact selected_called hpoller.1 hp hs
  · rename_i hp
    rw [hp] at hpoller
    split at hs
    · obtain rfl := Option.some.inj hs
      exact called_of_poller hpoller fun _ _ _ he => by cases hp.symm.trans he
    · exact pollQueue_called hpoller hs
  · rename_i hp hc
    obtain rfl := Option.some.inj hs
    exact called_of_poller ⟨_, hc⟩ fun _ _ _ he => by cases he
  · rename_i requeue readiness call len limit d hp hc
    have hrest : p.queue.consumer.AtRest := ⟨_, hc⟩
    cases d with
    | data ptr =>
      cases requeue with
      | true => exact absurd hc (hop rfl ptr)
      | false =>
        cases ptr with
        | data a => exact pollLoop_called hrest hs
        | _ => cases hs
    | _ =>
      obtain rfl := Option.some.inj hs
      exact called_of_poller hrest fun _ _ _ he => by cases he
  · rename_i hp hc
    exact pollLoop_called ⟨_, hc⟩ hs
  · cases hs

/-- The poller starts to put the node it has dequeued back. -/
theorem pollingStep_requeue {a : α} {readiness : Bool}
    (hc : p.queue.consumer = .returned (.dequeue (.data (.data a))))
    (hs : pollingStep p (.dequeued true readiness) = some p') :
    p'.queue = { p.queue with consumer := .requeue a .start } ∧
      ∃ call len limit, p'.poller = .requeue call len limit readiness := by
  unfold pollingStep at hs
  cases hp : p.poller with
  | dequeue call len limit =>
    simp only [hp, hc, Polling.dequeued, if_true] at hs
    obtain ⟨q, hq, rfl⟩ := Option.map_eq_some_iff.mp hs
    simp only [queueStep, hc] at hq
    obtain rfl := Option.some.inj hq
    exact ⟨rfl, _, _, _, rfl⟩
  | _ => simp [hp, hc] at hs

end Steps

end MyMio

import MyMio.Queue.Sequential

/-! # Closing the queue

`ReadinessQueue::drop` in `src/poll.rs`: it enqueues the closed marker and takes nodes until
`dequeue_node` answers `Empty`, trying again on `Inconsistent`. That answer comes once at most, with
nobody in between: when the tail moves past the last marker to the closed one, the end marker can
no longer be pushed. What the loop hands to `release_node` is recorded in order.
-/

namespace MyMio
set_option autoImplicit false

open BrokenQueue StepSystem

universe u v

/-! ## `drop` -/

section Drop
variable {α : Type u} [DecidableEq α]

/-- The loop of `drop`, for `fuel` turns at most. -/
def QueueInner.dropLoop (q : QueueInner α) : ℕ → Option (QueueInner α × List (Ptr α))
  | 0 => none
  | fuel + 1 =>
    match q.dequeueNode none with
    | (q, .empty) => some (q, [])
    | (q, .inconsistent) => q.dropLoop fuel
    | (q, .data ptr) => (q.dropLoop fuel).map fun r => (r.1, ptr :: r.2)

def QueueInner.drop (q : QueueInner α) (fuel : ℕ) : Option (QueueInner α × List (Ptr α)) :=
  (q.enqueueNode .closedMarker).1.dropLoop fuel

end Drop

/-! ## A queue with the closed marker at its head -/

/-- `nodes` is what is left before the closed marker. -/
structure Closing {α : Type u} (q : QueueInner α) (nodes : List (Ptr α)) : Prop where
  linked : Linked q.mem q.tail (nodes ++ [.closedMarker])
  placed : Placed nodes

structure QueueInner.Closed {α : Type u} (q : QueueInner α) : Prop where
  head : q.mem.head = .closedMarker
  tail : q.tail = .closedMarker

section Turns
variable {α : Type u} {q : QueueInner α} {nodes rest : List (Ptr α)} {x y : Ptr α}

theorem Closing.head_eq (h : Closing q nodes) : q.mem.head = .closedMarker := by
  have hlast : (nodes ++ [(.closedMarker : Ptr α)]).getLast? = some q.mem.head := h.linked.last
  rw [List.getLast?_concat] at hlast
  exact (Option.some.inj hlast).symm

theorem Closing.tail_eq (h : Closing q (x :: rest)) : q.tail = x :=
  (Option.some.inj h.linked.first).symm

theorem Closing.closed (h : Closing q []) : q.Closed where
  head := h.head_eq
  tail := by
    have hfirst : some (.closedMarker : Ptr α) = some q.tail := h.linked.first
    exact (Option.some.inj hfirst).symm

/-- Every node that is left has one after it. -/
theorem Closing.next_eq (h : Closing q (x :: rest)) :
    q.mem.next x = some (rest.head?.getD .closedMarker) := by
  have hnext : q.mem.next q.tail = (rest ++ [(.closedMarker : Ptr α)]).head? := h.linked.next_tail
  rw [h.tail_eq] at hnext
  rw [hnext]
  cases rest <;> rfl

theorem Closing.nodup (h : Closing q nodes) : nodes.Nodup :=
  (List.nodup_append.mp h.linked.nodup).1

theorem Closing.advance (h : Closing q (x :: rest)) :
    Closing { q with tail := rest.head?.getD .closedMarker } rest where
  linked := by
    have hlinked := h.linked
    cases rest with
    | nil =>
      have hlast : Linked q.mem q.tail [x, .closedMarker] := hlinked
      exact hlast.advance
    | cons y rest =>
      have hlast : Linked q.mem q.tail (x :: y :: (rest ++ [.closedMarker])) := hlinked
      exact hlast.advance
  placed := h.placed.tail h.nodup

variable [DecidableEq α]

theorem Consistent.close (h : Consistent q nodes) : Closing (q.enqueueNode .closedMarker).1 nodes := by
  unfold QueueInner.enqueueNode
  rw [if_neg h.head_open]
  exact ⟨h.linked.enqueue h.placed.closed, h.placed⟩

theorem Closing.dequeueTail (h : Closing q (x :: rest)) :
    (q.dequeueTail none).2 = .data x ∧ Closing (q.dequeueTail none).1 rest := by
  unfold QueueInner.dequeueTail
  rw [if_neg (by simp), h.tail_eq, h.next_eq]
  exact ⟨rfl, h.advance⟩

theorem Closing.dequeue_data (h : Closing q (x :: rest)) (hx : x.isData = true) :
    (q.dequeueNode none).2 = .data x ∧ Closing (q.dequeueNode none).1 rest := by
  unfold QueueInner.dequeueNode
  rw [h.tail_eq, if_pos hx]
  exact h.dequeueTail

/-- A marker at the tail is skipped, and the data node after it taken. -/
theorem Closing.dequeue_marker (h : Closing q (x :: y :: rest)) (hx : x.isData = false) :
    (q.dequeueNode none).2 = .data y ∧ Closing (q.dequeueNode none).1 rest := by
  unfold QueueInner.dequeueNode
  rw [h.tail_eq, if_neg (by simp [hx]), h.next_eq]
  have hmoved : Closing { q with tail := y } (y :: rest) := h.advance
  exact hmoved.dequeueTail

/-- Past the last marker there is only the closed one: the end marker is refused, so the answer is
`Inconsistent`, and the tail has moved. -/
theorem Closing.dequeue_last (h : Closing q [x]) (hx : x.isData = false) :
    (q.dequeueNode none).2 = .inconsistent ∧ Closing (q.dequeueNode none).1 [] := by
  have hmoved : Closing { q with tail := .closedMarker } [] := h.advance
  have hnext : q.mem.next .closedMarker = none := hmoved.linked.next_tail
  have hcleared : Linked ⟨q.mem.head, Function.update q.mem.next .endMarker none⟩
      .closedMarker [.closedMarker] := Broken.clear hmoved.linked (by simp)
  rw [h.head_eq] at hcleared
  have hstill : Function.update q.mem.next .endMarker none .closedMarker = none :=
    hcleared.next_tail
  unfold QueueInner.dequeueNode QueueInner.dequeueTail
  rw [h.tail_eq, if_neg (by simp [hx]), h.next_eq]
  simp only [List.head?_nil, Option.getD_none, reduceCtorEq, if_false, hnext, h.head_eq, if_true,
    QueueInner.enqueueNode, QueueInner.dequeueLast, hstill]
  exact ⟨trivial, hcleared, hmoved.placed⟩

theorem Closing.dequeue_nil (h : Closing q []) : q.dequeueNode none = (q, .empty) := by
  have htail := h.closed.tail
  have hnext : q.mem.next q.tail = none := h.linked.next_tail
  unfold QueueInner.dequeueNode QueueInner.clearSleepMarker
  rw [hnext, htail]
  rfl

/-- The loop ends after one turn for each of `nodes` and one more, and has released the data nodes. -/
def Drops (q : QueueInner α) (nodes : List (Ptr α)) : Prop :=
  ∃ q' : QueueInner α, q'.Closed ∧
    ∀ fuel, nodes.length < fuel → q.dropLoop fuel = some (q', nodes.filter Ptr.isData)

theorem Drops.takes (h : Drops (q.dequeueNode none).1 rest)
    (hret : (q.dequeueNode none).2 = .data x) (hlen : rest.length < nodes.length)
    (hfilter : nodes.filter Ptr.isData = x :: rest.filter Ptr.isData) : Drops q nodes := by
  obtain ⟨q', hclosed, hloop⟩ := h
  refine ⟨q', hclosed, fun fuel hfuel => ?_⟩
  cases fuel with
  | zero => omega
  | succ fuel =>
    have hrest := hloop fuel (by omega)
    unfold QueueInner.dropLoop
    rw [← Prod.eta (q.dequeueNode none), hret]
    simp only [hrest, Option.map_some, hfilter]

/-- The turn that finds the queue inconsistent. -/
theorem Drops.retries (h : Drops (q.dequeueNode none).1 [])
    (hret : (q.dequeueNode none).2 = .inconsistent) (hx : x.isData = false) : Drops q [x] := by
  obtain ⟨q', hclosed, hloop⟩ := h
  refine ⟨q', hclosed, fun fuel hfuel => ?_⟩
  rw [List.length_singleton] at hfuel
  cases fuel with
  | zero => omega
  | succ fuel =>
    have hrest := hloop fuel (by rw [List.length_nil]; omega)
    unfold QueueInner.dropLoop
    rw [← Prod.eta (q.dequeueNode none), hret]
    simp only [hrest, List.filter_cons, hx]
    rfl

/-- **The loop of `drop`** from the closed marker on. A turn takes a data node, with the marker before
it if there is one, or moves past the last marker, or ends. -/
theorem Closing.drops : ∀ (nodes : List (Ptr α)) {q : QueueInner α}, Closing q nodes → Drops q nodes
  | [], q, h => by
    refine ⟨q, h.closed, fun fuel hfuel => ?_⟩
    cases fuel with
    | zero => cases hfuel
    | succ fuel =>
      unfold QueueInner.dropLoop
      rw [h.dequeue_nil]
      rfl
  | [x], q, h => by
    cases hx : x.isData with
    | true =>
      obtain ⟨hret, hrest⟩ := h.dequeue_data hx
      exact (Closing.drops [] hrest).takes hret (by simp) (by simp [hx])
    | false =>
      obtain ⟨hret, hrest⟩ := h.dequeue_last hx
      exact (Closing.drops [] hrest).retries hret hx
  | x :: y :: rest, q, h => by
    cases hx : x.isData with
    | true =>
      obtain ⟨hret, hrest⟩ := h.dequeue_data hx
      exact (Closing.drops (y :: rest) hrest).takes hret (by simp) (by simp [hx])
    | false =>
      have hy := h.placed.data_of_marker h.nodup hx
      obtain ⟨hret, hrest⟩ := h.dequeue_marker hx
      refine (Closing.drops rest hrest).takes hret ?_ ?_
      · rw [List.length_cons, List.length_cons]
        omega
      · rw [List.filter_cons_of_neg (by simp [hx]), List.filter_cons_of_pos hy]

end Turns

/-! ## Enqueueing onto a closed queue -/

section Closed
variable {ι : Type v} {α : Type u}

/-- A producer on its way to the closed branch of `enqueue_node`, or outside it. -/
def Producer.Refused : Producer α → Prop
  | .idle | .enqueue _ .start | .enqueue _ .load => True
  | .enqueue _ (.exchange prev) => prev = .closedMarker
  | .enqueue _ (.link _) | .wakeup => False

/-- The steps of the producers, which are all there is once the `Poll` is gone. -/
def QueueOp.isProducers : QueueOp ι α → Bool
  | .begin _ _ | .producer _ => true
  | _ => false

variable [DecidableEq ι] [DecidableEq α]

/-- **One access of any producer** leaves a closed queue closed. -/
theorem closed_step {q q' : Queue ι α} {op : QueueOp ι α} (hop : op.isProducers = true)
    (hhead : q.mem.head = .closedMarker) (hproducers : ∀ i, (q.producers i).Refused)
    (hs : queueStep q op = some q') :
    q'.mem.head = .closedMarker ∧ (∀ i, (q'.producers i).Refused) ∧ q'.tail = q.tail ∧
      q'.enqueued = q.enqueued := by
  have hothers : ∀ {i : ι} {p : Producer α}, p.Refused →
      ∀ j, (Function.update q.producers i p j).Refused := by
    intro i p hp j
    by_cases hj : j = i
    · rw [hj, Function.update_self]
      exact hp
    · rw [Function.update_of_ne hj]
      exact hproducers j
  cases op with
  | dequeueNode | clearSleepMarker | prepareForSleep | requeue | consumer => cases hop
  | begin i a =>
    simp only [queueStep] at hs
    split at hs
    · obtain rfl := Option.some.inj hs
      exact ⟨hhead, hothers trivial, rfl, rfl⟩
    · cases hs
  | producer i =>
    simp only [queueStep, Queue.producerStep] at hs
    have hi := hproducers i
    cases hp : q.producers i with
    | idle => simp [hp] at hs
    | wakeup =>
      rw [hp] at hi
      exact absurd hi id
    | enqueue a phase =>
      rw [hp] at hi
      simp only [hp, Option.some.injEq] at hs
      subst hs
      cases phase with
      | start => exact ⟨hhead, hothers trivial, rfl, rfl⟩
      | load => exact ⟨hhead, hothers hhead, rfl, rfl⟩
      | exchange prev =>
        have hprev : prev = .closedMarker := hi
        subst hprev
        exact ⟨hhead, hothers trivial, rfl, rfl⟩
      | link prev => exact absurd hi id

/-- However the producers interleave, a closed queue stays closed. -/
theorem closed_run {q q' : Queue ι α} {ops : List (QueueOp ι α)}
    (hops : ∀ op ∈ ops, op.isProducers = true) (hhead : q.mem.head = .closedMarker)
    (hproducers : ∀ i, (q.producers i).Refused) (hrun : run queueStep q ops = some q') :
    q'.mem.head = .closedMarker ∧ (∀ i, (q'.producers i).Refused) ∧ q'.tail = q.tail ∧
      q'.enqueued = q.enqueued := by
  have hok : Along queueStep (fun _ op => op.isProducers = true) q ops :=
    .of_forall fun op hop _ => hops op hop
  refine hok.invariant (P := fun m => m.mem.head = .closedMarker ∧ (∀ i, (m.producers i).Refused) ∧
    m.tail = q.tail ∧ m.enqueued = q.enqueued)
    (fun m op m' ⟨hhead, hproducers, htail, henqueued⟩ hop hstep => ?_) ⟨hhead, hproducers, rfl, rfl⟩ hrun
  obtain ⟨hhead', hproducers', htail', henqueued'⟩ := closed_step hop hhead hproducers hstep
  exact ⟨hhead', hproducers', htail'.trans htail, henqueued'.trans henqueued⟩

/-- **Closing empties the queue for good.** Whatever a consistent queue has in it and wherever its
markers are, `drop` ends, has released each node of the queue once, in order, and no marker, and leaves
head and tail at the closed marker. Every later `enqueue_node` takes the closed branch: called on its
own, and access by access with any number of producers in any interleaving. -/
theorem drop_closes (q : QueueInner α) (nodes : List (Ptr α)) (h : Consistent q nodes) :
    (nodes.filter Ptr.isData).Nodup ∧ ∃ q' : QueueInner α,
      (∀ fuel, nodes.length < fuel → q.drop fuel = some (q', nodes.filter Ptr.isData)) ∧
      q'.mem.head = .closedMarker ∧ q'.tail = .closedMarker ∧
      (∀ node, (q'.enqueueNode node).2 = .closed (decide (node ≠ .endMarker)) ∧
        (q'.enqueueNode node).1.mem.head = .closedMarker) ∧
      ∀ (s s' : Queue ι α) (ops : List (QueueOp ι α)), s.inner = q' →
        (∀ i, s.producers i = .idle) → (∀ op ∈ ops, op.isProducers = true) →
        run queueStep s ops = some s' →
        s'.mem.head = .closedMarker ∧ s'.tail = .closedMarker ∧ s'.enqueued = s.enqueued ∧
          ∀ i, (s'.producers i).Refused := by
  obtain ⟨q', hclosed, hloop⟩ := Closing.drops nodes h.close
  refine ⟨h.linked.nodup.filter _, q', hloop, hclosed.head, hclosed.tail, fun node => ?_, ?_⟩
  · unfold QueueInner.enqueueNode
    rw [if_pos hclosed.head]
    exact ⟨rfl, hclosed.head⟩
  · intro s s' ops hinner hidle hops hrun
    have hhead : s.mem.head = .closedMarker := by
      rw [show s.mem = q'.mem from congrArg QueueInner.mem hinner]
      exact hclosed.head
    have hrefused : ∀ i, (s.producers i).Refused := by
      intro i
      rw [hidle i]
      trivial
    obtain ⟨hhead', hrefused', htail, henqueued⟩ := closed_run hops hhead hrefused hrun
    rw [show s.tail = q'.tail from congrArg QueueInner.tail hinner, hclosed.tail] at htail
    exact ⟨hhead', htail, henqueued, hrefused'⟩

/-- Two nodes behind the sleep marker. -/
def sleepingPair : QueueInner ℕ where
  mem := ⟨.data 1, fun
    | .sleepMarker => some (.data 0)
    | .data 0 => some (.data 1)
    | _ => none⟩
  tail := .sleepMarker

theorem sleepingPair_consistent :
    Consistent sleepingPair [.sleepMarker, .data 0, .data 1] where
  linked := by
    refine ⟨rfl, rfl, by decide, ?_, rfl, fun o x y ho => ?_, fun o y p ho => ?_,
      fun o o' y p p' ho => ?_⟩
    · exact .cons_cons (.inl rfl) (.cons_cons (.inl rfl) (.singleton _))
    all_goals cases ho
  placed := ⟨by decide, fun _ => by decide⟩

theorem drop_closes_pair : ∃ q' : QueueInner ℕ,
    sleepingPair.drop 4 = some (q', [.data 0, .data 1]) ∧ q'.mem.head = .closedMarker := by
  obtain ⟨-, q', hdrop, hhead, -⟩ := drop_closes (ι := Unit) _ _ sleepingPair_consistent
  exact ⟨q', hdrop 4 (by decide), hhead⟩

end Closed

end MyMio

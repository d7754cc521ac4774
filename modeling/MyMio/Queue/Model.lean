import Mathlib.Data.Fintype.Option
import MyMio.Foundations.BrokenQueue
import MyMio.Foundations.StepSystem

/-! # The readiness queue

`ReadinessQueueInner` in `src/poll.rs`: any number of producers run `enqueue_node`, one consumer runs
`dequeue_node`, `clear_sleep_marker` and `prepare_for_sleep`, and puts nodes back with `enqueue_node`
itself. The steps are the atomic accesses to shared memory, each a load, a store or a
`compare_exchange`; `tail_readiness` is the consumer's own, so what happens to it is part of the next or
the previous access. The queue is not closed here.

Two ghosts record what the properties talk about: the nodes in the order of their successful
`compare_exchange` on `head_readiness`, and what `dequeue_node` has returned as data.
-/

namespace MyMio
set_option autoImplicit false

open BrokenQueue StepSystem

universe u v

/-! ## Nodes -/

inductive Ptr (α : Type u)
  | data (a : α)
  | endMarker
  | sleepMarker
  | closedMarker
  deriving DecidableEq, Repr

def Ptr.isData {α : Type u} : Ptr α → Bool
  | .data _ => true
  | _ => false

@[simp] theorem Ptr.isData_data {α : Type u} (a : α) : (Ptr.data a).isData = true := rfl

@[simp] theorem Ptr.isData_endMarker {α : Type u} : (Ptr.endMarker : Ptr α).isData = false := rfl

@[simp] theorem Ptr.isData_sleepMarker {α : Type u} : (Ptr.sleepMarker : Ptr α).isData = false := rfl

inductive Dequeue (α : Type u)
  | data (ptr : Ptr α)
  | empty
  | inconsistent
  deriving DecidableEq, Repr

/-- What a call of the consumer returns. -/
inductive Ret (α : Type u)
  | unit
  | dequeue (d : Dequeue α)
  | sleep (ready : Bool)
  deriving DecidableEq, Repr

/-! ## `enqueue_node` -/

/-- What an access of `enqueue_node` leads to: another one, or the return of "the predecessor was
the sleep marker". -/
inductive EnqueueNext (α : Type u)
  | goOn (phase : Phase (Ptr α))
  | done (wakes : Bool)

section Enqueue
variable {α : Type u} [DecidableEq α]

def enqueueNode (mem : Mem (Ptr α)) (node : Ptr α) : Phase (Ptr α) → Mem (Ptr α) × EnqueueNext α
  | .start => ({ mem with next := Function.update mem.next node none }, .goOn .load)
  | .load => (mem, .goOn (.exchange mem.head))
  | .exchange prev =>
    if prev = .closedMarker then (mem, .done false)
    else if mem.head = prev then ({ mem with head := node }, .goOn (.link prev))
    else (mem, .goOn (.exchange mem.head))
  | .link prev =>
    ({ mem with next := Function.update mem.next prev (some node) }, .done (prev = .sleepMarker))

/-- Whether the access is a `compare_exchange` that succeeds. -/
def swaps (mem : Mem (Ptr α)) : Phase (Ptr α) → Bool
  | .exchange prev => decide (prev ≠ .closedMarker) && decide (mem.head = prev)
  | _ => false

end Enqueue

/-! ## The two sides -/

inductive Producer (α : Type u)
  | idle
  | enqueue (a : α) (phase : Phase (Ptr α))
  /-- `enqueue_node` has returned true: about to write the awakener -/
  | wakeup
  deriving DecidableEq, Repr

/-- Where the consumer is: between two calls, or at an access of one. -/
inductive Consumer (α : Type u)
  | returned (ret : Ret α)
  /-- `dequeue_node`: about to load the pointer of the tail -/
  | dequeueTail (limit : Option (Ptr α))
  /-- past a marker: about to load the pointer of the new tail -/
  | dequeueNext (limit : Option (Ptr α))
  /-- about to compare the head with the tail -/
  | dequeueHead
  /-- in `enqueue_node` for the end marker -/
  | dequeueEnd (phase : Phase (Ptr α))
  /-- about to load the pointer of the tail once more -/
  | dequeueLast
  /-- `clear_sleep_marker`: about to clear the end marker's pointer -/
  | clearStore (ret : Ret α)
  /-- about to swap the sleep marker for the end marker -/
  | clearExchange (ret : Ret α)
  /-- `prepare_for_sleep` with the sleep marker at the tail: about to load the head -/
  | sleepHead
  /-- `prepare_for_sleep`: about to clear the sleep marker's pointer -/
  | sleepStore
  /-- about to swap the end marker for the sleep marker -/
  | sleepExchange
  /-- in `enqueue_node` for a node that was dequeued -/
  | requeue (a : α) (phase : Phase (Ptr α))
  deriving DecidableEq, Repr

/-- Where an access of `enqueue_node` leaves a producer. -/
def Producer.after {α : Type u} (a : α) : EnqueueNext α → Producer α
  | .goOn phase => .enqueue a phase
  | .done wakes => if wakes then .wakeup else .idle

/-- Where an access of `enqueue_node` for the end marker leaves the consumer. -/
def Consumer.afterEnd {α : Type u} : EnqueueNext α → Consumer α
  | .goOn phase => .dequeueEnd phase
  | .done _ => .dequeueLast

/-- Where an access of `enqueue_node` for a dequeued node leaves the consumer. -/
def Consumer.afterRequeue {α : Type u} (a : α) : EnqueueNext α → Consumer α
  | .goOn phase => .requeue a phase
  | .done _ => .returned .unit

def Producer.busy {α : Type u} : Producer α → Option (Ptr α × Phase (Ptr α))
  | .enqueue a phase => some (.data a, phase)
  | _ => none

def Consumer.busy {α : Type u} : Consumer α → Option (Ptr α × Phase (Ptr α))
  | .dequeueEnd phase => some (.endMarker, phase)
  | .requeue a phase => some (.data a, phase)
  | _ => none

structure Queue (ι : Type v) (α : Type u) where
  mem : Mem (Ptr α)
  tail : Ptr α
  producers : ι → Producer α
  consumer : Consumer α
  enqueued : List α
  dequeued : List (Ptr α)

inductive QueueOp (ι : Type v) (α : Type u)
  | begin (i : ι) (a : α)
  | producer (i : ι)
  | dequeueNode (limit : Option (Ptr α))
  | clearSleepMarker
  | prepareForSleep
  | requeue (a : α)
  | consumer
  deriving DecidableEq, Repr

namespace Queue
variable {ι : Type v} {α : Type u}

def new : Queue ι α where
  mem := ⟨.endMarker, fun _ => none⟩
  tail := .endMarker
  producers := fun _ => .idle
  consumer := .returned .unit
  enqueued := []
  dequeued := []

/-- Who is inside `enqueue_node`, with what; the consumer is `none`. -/
def busy (q : Queue ι α) : Busy (Ptr α) (Option ι)
  | some i => (q.producers i).busy
  | none => q.consumer.busy

variable [DecidableEq ι] [DecidableEq α]

/-! ## The steps -/

def producerStep (q : Queue ι α) (i : ι) : Option (Queue ι α) :=
  match q.producers i with
  | .idle => none
  | .enqueue a phase =>
    let step := enqueueNode q.mem (.data a) phase
    some { q with
      mem := step.1
      producers := Function.update q.producers i (.after a step.2)
      enqueued := if swaps q.mem phase then q.enqueued ++ [a] else q.enqueued }
  | .wakeup => some { q with producers := Function.update q.producers i .idle }

/-- `*tail = next; return Data(tail)`. -/
def takeTail (q : Queue ι α) (next : Ptr α) : Queue ι α :=
  { q with
    tail := next
    consumer := .returned (.dequeue (.data q.tail))
    dequeued := q.dequeued ++ [q.tail] }

/-- The middle of `dequeue_node`, once the pointer of a tail that is no marker is loaded. -/
def checkTail (q : Queue ι α) (limit next : Option (Ptr α)) : Queue ι α :=
  if limit = some q.tail then { q with consumer := .returned (.dequeue .empty) }
  else
    match next with
    | some next => q.takeTail next
    | none => { q with consumer := .dequeueHead }

/-- Entering `clear_sleep_marker`. -/
def clear (q : Queue ι α) (ret : Ret α) : Queue ι α :=
  if q.tail = .sleepMarker then { q with consumer := .clearStore ret }
  else { q with consumer := .returned ret }

/-- Entering `prepare_for_sleep`. -/
def prepare (q : Queue ι α) : Queue ι α :=
  if q.tail = .sleepMarker then { q with consumer := .sleepHead }
  else if q.tail = .endMarker then { q with consumer := .sleepStore }
  else { q with consumer := .returned (.sleep false) }

omit [DecidableEq ι] [DecidableEq α] in
@[simp] theorem takeTail_mem (q : Queue ι α) (next : Ptr α) : (q.takeTail next).mem = q.mem := rfl

omit [DecidableEq ι] in
@[simp] theorem checkTail_mem (q : Queue ι α) (limit next : Option (Ptr α)) :
    (q.checkTail limit next).mem = q.mem := by
  unfold checkTail
  split
  · rfl
  · cases next <;> rfl

omit [DecidableEq ι] in
@[simp] theorem checkTail_producers (q : Queue ι α) (limit next : Option (Ptr α)) :
    (q.checkTail limit next).producers = q.producers := by
  unfold checkTail
  split
  · rfl
  · cases next <;> rfl

omit [DecidableEq ι] in
@[simp] theorem clear_producers (q : Queue ι α) (ret : Ret α) :
    (q.clear ret).producers = q.producers := by
  unfold clear
  split <;> rfl

omit [DecidableEq ι] in
@[simp] theorem clear_mem (q : Queue ι α) (ret : Ret α) : (q.clear ret).mem = q.mem := by
  unfold clear
  split <;> rfl

omit [DecidableEq ι] in
@[simp] theorem prepare_mem (q : Queue ι α) : q.prepare.mem = q.mem := by
  unfold prepare
  split
  · rfl
  · split <;> rfl

def consumerStep (q : Queue ι α) : Option (Queue ι α) :=
  match q.consumer with
  | .returned _ => none
  | .dequeueTail limit =>
    if q.tail.isData then some (q.checkTail limit (q.mem.next q.tail))
    else
      match q.mem.next q.tail with
      | none => some (q.clear (.dequeue .empty))
      | some next => some { q with tail := next, consumer := .dequeueNext limit }
  | .dequeueNext limit => some (q.checkTail limit (q.mem.next q.tail))
  | .dequeueHead =>
    if q.mem.head = q.tail then some { q with consumer := .dequeueEnd .start }
    else some { q with consumer := .returned (.dequeue .inconsistent) }
  | .dequeueEnd phase =>
    let step := enqueueNode q.mem .endMarker phase
    some { q with mem := step.1, consumer := .afterEnd step.2 }
  | .dequeueLast =>
    match q.mem.next q.tail with
    | some next => some (q.takeTail next)
    | none => some { q with consumer := .returned (.dequeue .inconsistent) }
  | .clearStore ret =>
    some { q with
      mem := { q.mem with next := Function.update q.mem.next .endMarker none }
      consumer := .clearExchange ret }
  | .clearExchange ret =>
    if q.mem.head = .sleepMarker then
      some { q with
        mem := { q.mem with head := .endMarker }
        tail := .endMarker
        consumer := .returned ret }
    else some { q with consumer := .returned ret }
  | .sleepHead =>
    some { q with consumer := .returned (.sleep (decide (q.mem.head = .sleepMarker))) }
  | .sleepStore =>
    some { q with
      mem := { q.mem with next := Function.update q.mem.next .sleepMarker none }
      consumer := .sleepExchange }
  | .sleepExchange =>
    if q.mem.head = .endMarker then
      some { q with
        mem := { q.mem with head := .sleepMarker }
        tail := .sleepMarker
        consumer := .returned (.sleep true) }
    else some { q with consumer := .returned (.sleep false) }
  | .requeue a phase =>
    let step := enqueueNode q.mem (.data a) phase
    some { q with
      mem := step.1
      consumer := .afterRequeue a step.2
      enqueued := if swaps q.mem phase then q.enqueued ++ [a] else q.enqueued }

/-- A call of the consumer, which it only makes between two calls. -/
def consumerCall (q : Queue ι α) : QueueOp ι α → Option (Queue ι α)
  | .dequeueNode limit => some { q with consumer := .dequeueTail limit }
  | .clearSleepMarker => some (q.clear .unit)
  | .prepareForSleep => some q.prepare
  | .requeue a => some { q with consumer := .requeue a .start }
  | _ => none

end Queue

variable {ι : Type v} {α : Type u} [DecidableEq ι] [DecidableEq α]

def queueStep (q : Queue ι α) (op : QueueOp ι α) : Option (Queue ι α) :=
  match op with
  | .begin i a =>
    match q.producers i with
    | .idle => some { q with producers := Function.update q.producers i (.enqueue a .start) }
    | _ => none
  | .producer i => q.producerStep i
  | .consumer => q.consumerStep
  | _ =>
    match q.consumer with
    | .returned _ => q.consumerCall op
    | _ => none

/-- A call of the consumer. -/
def QueueOp.isCall : QueueOp ι α → Bool
  | .begin _ _ | .producer _ | .consumer => false
  | _ => true

theorem queueStep_call {q q' : Queue ι α} {op : QueueOp ι α} (hop : op.isCall = true)
    (hs : queueStep q op = some q') :
    (∃ ret, q.consumer = .returned ret) ∧ q.consumerCall op = some q' := by
  cases op with
  | begin | producer | consumer => cases hop
  | dequeueNode | clearSleepMarker | prepareForSleep | requeue =>
    simp only [queueStep] at hs
    split at hs
    · exact ⟨⟨_, ‹_›⟩, hs⟩
    · cases hs

/-- A node is neither in the queue nor on its way into it. -/
def Queue.Free (q : Queue ι α) (a : α) : Prop :=
  a ∉ q.enqueued.drop q.dequeued.length ∧ ∀ o phase, q.busy o ≠ some (.data a, phase)

/-- Nodes are only enqueued while they are not in the queue. -/
def Unqueued (q : Queue ι α) : QueueOp ι α → Prop
  | .begin _ a => q.Free a
  | .requeue a => q.Free a
  | _ => True

omit [DecidableEq ι] [DecidableEq α] in
theorem Queue.free_iff (q : Queue ι α) (a : α) : q.Free a ↔
    a ∉ q.enqueued.drop q.dequeued.length ∧ ∀ o, (q.busy o).map Prod.fst ≠ some (.data a) := by
  refine and_congr_right fun _ => ⟨fun h o ho => ?_, fun h o phase ho => h o (by rw [ho]; rfl)⟩
  obtain ⟨⟨node, phase⟩, hbusy, rfl⟩ := Option.map_eq_some_iff.mp ho
  exact h o phase hbusy

instance [Fintype ι] (q : Queue ι α) (a : α) : Decidable (q.Free a) :=
  decidable_of_iff _ (q.free_iff a).symm

instance [Fintype ι] (q : Queue ι α) : DecidablePred (Unqueued q)
  | .begin _ a | .requeue a => inferInstanceAs (Decidable (q.Free a))
  | .producer _ | .dequeueNode _ | .clearSleepMarker | .prepareForSleep | .consumer => .isTrue trivial

end MyMio

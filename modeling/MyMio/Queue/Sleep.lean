import MyMio.Queue.Fifo

/-! # The sleeping poller

`Poll::poll2` over the readiness queue, `ReadinessQueue::poll` included, against any number of
threads in `enqueue_node_with_wakeup`. The steps are the atomic accesses of the queue, the calls of
`select`, and each read and write of the awakener's pipe. What `select` reports, which dequeued
nodes are put back and which carry readiness is left open.

While the poller is in `select` with the timeout it was called with, either nothing has been
enqueued or the one producer that found the sleep marker has written the pipe or is on its way
there (`sleeping_poller_is_woken`).
-/

namespace MyMio
set_option autoImplicit false

open BrokenQueue StepSystem

universe u v

/-! ## The poller -/

/-- The capacity of the event buffer and whether `poll_interruptible` was called. -/
structure Call where
  capacity : ℕ
  interruptible : Bool
  deriving DecidableEq, Repr

inductive SelectResult
  | ok (notify : Bool) (len : ℕ)
  | interrupted (elapsed : ℕ)
  | failed
  deriving DecidableEq, Repr

/-- Where the poller is in `poll2`; timeouts are in nanoseconds. -/
inductive Poller (α : Type u)
  | idle
  /-- in `prepare_for_sleep` -/
  | prepare (call : Call) (timeout : Option ℕ)
  | select (call : Call) (timeout : Option ℕ)
  /-- in `Awakener::cleanup`, with the number of events selected -/
  | cleanup (call : Call) (len : ℕ)
  /-- in `clear_sleep_marker`, the event buffer being full -/
  | clear
  /-- in `dequeue_node(until)` -/
  | dequeue (call : Call) (len : ℕ) (limit : Option (Ptr α))
  /-- in `enqueue_node` for a dequeued node, which is then pushed if it has readiness -/
  | requeue (call : Call) (len : ℕ) (limit : Option (Ptr α)) (readiness : Bool)
  deriving DecidableEq, Repr

/-- The queue, the poller and the awakener's pipe. The ghost `took` lists the producers that obtained
the sleep marker as their predecessor since it was last put in the queue, and whether they have
written the pipe. -/
structure Polling (ι : Type v) (α : Type u) where
  queue : Queue ι α
  poller : Poller α
  pipe : ℕ
  took : List (ι × Bool)

inductive PollingOp (ι : Type v) (α : Type u)
  | begin (i : ι) (a : α)
  /-- the next access of a producer; a write of the pipe may find it full -/
  | producer (i : ι) (wouldBlock : Bool)
  | poll2 (call : Call) (timeout : Option ℕ)
  /-- the next access of the poller to the queue -/
  | consumer
  | prepared
  | selected (res : SelectResult)
  | read
  | cleared
  | dequeued (requeue readiness : Bool)
  | requeued
  deriving DecidableEq, Repr

namespace Polling
variable {ι : Type v} {α : Type u}

def new : Polling ι α := ⟨.new, .idle, 0, []⟩

variable [DecidableEq ι] [DecidableEq α]

/-- Whether the next access of a producer takes the sleep marker as its predecessor. -/
def takesSleep (s : Polling ι α) (i : ι) : Bool :=
  match s.queue.producers i with
  | .enqueue _ (.exchange prev) => decide (prev = .sleepMarker) && decide (s.queue.mem.head = prev)
  | _ => false

/-- Whether the next access of the consumer puts the sleep marker in the queue. -/
def putsSleep (s : Polling ι α) : Bool :=
  decide (s.queue.consumer = .sleepExchange) && decide (s.queue.mem.head = .endMarker)

def markWritten (i : ι) (took : List (ι × Bool)) : List (ι × Bool) :=
  took.map fun entry => if entry.1 = i then (i, true) else entry

/-- An access in `enqueue_node_with_wakeup`. A write that would block leaves the pipe as it is, and it
only blocks on a pipe that holds bytes. -/
def producerStep (s : Polling ι α) (i : ι) (wouldBlock : Bool) : Option (Polling ι α) :=
  match s.queue.producers i with
  | .wakeup =>
    if wouldBlock = true ∧ s.pipe = 0 then none
    else
      (s.queue.producerStep i).map fun q =>
        { s with
          queue := q
          pipe := if wouldBlock then s.pipe else s.pipe + 1
          took := markWritten i s.took }
  | _ =>
    (s.queue.producerStep i).map fun q =>
      { s with
        queue := q
        took := if s.takesSleep i then s.took ++ [(i, false)] else s.took }

/-- The loop of `ReadinessQueue::poll`, at its head. -/
def pollLoop (s : Polling ι α) (call : Call) (len : ℕ) (limit : Option (Ptr α)) :
    Option (Polling ι α) :=
  if len < call.capacity then
    (queueStep s.queue (.dequeueNode limit)).map fun q =>
      { s with queue := q, poller := .dequeue call len limit }
  else some { s with poller := .idle }

/-- `ReadinessQueue::poll`. -/
def pollQueue (s : Polling ι α) (call : Call) (len : ℕ) : Option (Polling ι α) :=
  if len = call.capacity then
    (queueStep s.queue .clearSleepMarker).map fun q => { s with queue := q, poller := .clear }
  else s.pollLoop call len none

def poll2 (s : Polling ι α) (call : Call) (timeout : Option ℕ) : Option (Polling ι α) :=
  if timeout = some 0 then some { s with poller := .select call timeout }
  else
    (queueStep s.queue .prepareForSleep).map fun q =>
      { s with queue := q, poller := .prepare call timeout }

/-- What `poll2` does with the result of `select`. -/
def selected (s : Polling ι α) (call : Call) (timeout : Option ℕ) :
    SelectResult → Option (Polling ι α)
  | .ok true len => some { s with poller := .cleanup call len }
  | .ok false len => s.pollQueue call len
  | .interrupted elapsed =>
    if call.interruptible then some { s with poller := .idle }
    else
      match timeout with
      | some rest =>
        if rest ≤ elapsed then s.pollQueue call 0
        else some { s with poller := .select call (some (rest - elapsed)) }
      | none => some s
  | .failed => some { s with poller := .idle }

/-- What `ReadinessQueue::poll` does with a dequeued node. -/
def dequeued (s : Polling ι α) (call : Call) (len : ℕ) (limit : Option (Ptr α))
    (requeue readiness : Bool) : Dequeue α → Option (Polling ι α)
  | .data (.data a) =>
    if requeue then
      (queueStep s.queue (.requeue a)).map fun q =>
        { s with
          queue := q
          poller := .requeue call len (some (limit.getD (.data a))) readiness }
    else s.pollLoop call (if readiness then len + 1 else len) limit
  | .data _ => none
  | .empty | .inconsistent => some { s with poller := .idle }

end Polling

variable {ι : Type v} {α : Type u} [DecidableEq ι] [DecidableEq α]

def pollingStep (s : Polling ι α) (op : PollingOp ι α) : Option (Polling ι α) :=
  match op, s.poller, s.queue.consumer with
  | .begin i a, _, _ => (queueStep s.queue (.begin i a)).map fun q => { s with queue := q }
  | .producer i wouldBlock, _, _ => s.producerStep i wouldBlock
  | .consumer, _, _ =>
    s.queue.consumerStep.map fun q =>
      { s with queue := q, took := if s.putsSleep then [] else s.took }
  | .poll2 call timeout, .idle, _ => s.poll2 call timeout
  | .prepared, .prepare call timeout, .returned (.sleep ready) =>
    some { s with poller := .select call (if ready then timeout else some 0) }
  | .selected res, .select call timeout, _ => s.selected call timeout res
  | .read, .cleanup call len, _ =>
    -- one `read` into a buffer of 128 bytes
    if 0 < s.pipe then some { s with pipe := s.pipe - 128 } else s.pollQueue call len
  | .cleared, .clear, .returned _ => some { s with poller := .idle }
  | .dequeued requeue readiness, .dequeue call len limit, .returned (.dequeue d) =>
    s.dequeued call len limit requeue readiness d
  | .requeued, .requeue call len limit readiness, .returned _ =>
    s.pollLoop call (if readiness then len + 1 else len) limit
  | _, _, _ => none

/-- Nodes are only enqueued while they are not in the queue. -/
def PollsUnqueued (s : Polling ι α) : PollingOp ι α → Prop
  | .begin _ a => s.queue.Free a
  | .dequeued true _ => ∀ a, s.queue.consumer = .returned (.dequeue (.data (.data a))) →
      s.queue.Free a
  | _ => True

/-! ## The queue under the poller -/

section Queue
variable {s s' : Polling ι α} {call : Call} {len : ℕ} {limit : Option (Ptr α)}

/-- Where a step of the poller leaves the queue: as it is, or after one step of the queue's own. -/
def Follows (q q' : Queue ι α) : Prop :=
  q' = q ∨ ∃ op, Unqueued q op ∧ queueStep q op = some q'

theorem pollLoop_follows (hs : s.pollLoop call len limit = some s') : Follows s.queue s'.queue := by
  unfold Polling.pollLoop at hs
  split at hs
  · obtain ⟨q, hq, rfl⟩ := Option.map_eq_some_iff.mp hs
    exact .inr ⟨.dequeueNode limit, trivial, hq⟩
  · obtain rfl := Option.some.inj hs
    exact .inl rfl

theorem pollQueue_follows (hs : s.pollQueue call len = some s') : Follows s.queue s'.queue := by
  unfold Polling.pollQueue at hs
  split at hs
  · obtain ⟨q, hq, rfl⟩ := Option.map_eq_some_iff.mp hs
    exact .inr ⟨.clearSleepMarker, trivial, hq⟩
  · exact pollLoop_follows hs

theorem producerStep_follows {i : ι} {wouldBlock : Bool}
    (hs : s.producerStep i wouldBlock = some s') : Follows s.queue s'.queue := by
  unfold Polling.producerStep at hs
  split at hs
  · split at hs
    · cases hs
    · obtain ⟨q, hq, rfl⟩ := Option.map_eq_some_iff.mp hs
      exact .inr ⟨.producer i, trivial, hq⟩
  · obtain ⟨q, hq, rfl⟩ := Option.map_eq_some_iff.mp hs
    exact .inr ⟨.producer i, trivial, hq⟩

theorem selected_follows {timeout : Option ℕ} {res : SelectResult}
    (hs : s.selected call timeout res = some s') : Follows s.queue s'.queue := by
  cases res with
  | ok notify len =>
    cases notify with
    | true =>
      obtain rfl := Option.some.inj hs
      exact .inl rfl
    | false => exact pollQueue_follows hs
  | interrupted elapsed =>
    simp only [Polling.selected] at hs
    split at hs
    · obtain rfl := Option.some.inj hs
      exact .inl rfl
    · split at hs
      · split at hs
        · exact pollQueue_follows hs
        · obtain rfl := Option.some.inj hs
          exact .inl rfl
      · obtain rfl := Option.some.inj hs
        exact .inl rfl
  | failed =>
    obtain rfl := Option.some.inj hs
    exact .inl rfl

theorem pollingStep_follows {op : PollingOp ι α} (hok : PollsUnqueued s op)
    (hs : pollingStep s op = some s') : Follows s.queue s'.queue := by
  unfold pollingStep at hs
  split at hs
  · rename_i i a
    obtain ⟨q, hq, rfl⟩ := Option.map_eq_some_iff.mp hs
    exact .inr ⟨.begin i a, hok, hq⟩
  · exact producerStep_follows hs
  · obtain ⟨q, hq, rfl⟩ := Option.map_eq_some_iff.mp hs
    exact .inr ⟨.consumer, trivial, hq⟩
  · unfold Polling.poll2 at hs
    split at hs
    · obtain rfl := Option.some.inj hs
      exact .inl rfl
    · obtain ⟨q, hq, rfl⟩ := Option.map_eq_some_iff.mp hs
      exact .inr ⟨.prepareForSleep, trivial, hq⟩
  · obtain rfl := Option.some.inj hs
    exact .inl rfl
  · exact selected_follows hs
  · split at hs
    · obtain rfl := Option.some.inj hs
      exact .inl rfl
    · exact pollQueue_follows hs
  · obtain rfl := Option.some.inj hs
    exact .inl rfl
  · rename_i requeue readiness call len limit d _ hc
    cases d with
    | data ptr =>
      cases ptr with
      | data a =>
        cases requeue with
        | true =>
          obtain ⟨q, hq, rfl⟩ := Option.map_eq_some_iff.mp hs
          exact .inr ⟨.requeue a, hok a hc, hq⟩
        | false => exact pollLoop_follows hs
      | _ => cases hs
    | _ =>
      obtain rfl := Option.some.inj hs
      exact .inl rfl
  · exact pollLoop_follows hs
  · cases hs

theorem polling_queue (hs : ReachableIf pollingStep PollsUnqueued (· = Polling.new) s) :
    ReachableIf queueStep Unqueued (· = Queue.new) s.queue :=
  hs.simulation Polling.queue (fun _ hinit => hinit ▸ rfl)
    fun _ _ _ hok ha => pollingStep_follows hok ha

end Queue

/-! ## The producer that found the sleep marker -/

namespace Polling

/-- The producer has written the pipe, which has not been drained, or is about to write it. -/
def Answers (s : Polling ι α) (i : ι) : Bool → Prop
  | true => 0 < s.pipe
  | false => s.queue.producers i = .wakeup ∨
      ∃ a, s.queue.producers i = .enqueue a (.link .sleepMarker)

/-- Nothing has been enqueued since the sleep marker was put in the queue, or exactly one producer
has found it, and that one wakes the poller. -/
def Woken (s : Polling ι α) : Prop :=
  s.queue.mem.head = .sleepMarker ∧ s.took = [] ∨
    s.queue.mem.head ≠ .sleepMarker ∧ ∃ i written, s.took = [(i, written)] ∧ s.Answers i written

end Polling

section Woken
variable {s s' : Polling ι α} {i : ι}

omit [DecidableEq ι] [DecidableEq α] in
theorem Polling.Answers.frame {j : ι} {written : Bool} (h : s.Answers j written)
    (hpipe : s.pipe ≤ s'.pipe)
    (hprod : written = false → s'.queue.producers j = s.queue.producers j) :
    s'.Answers j written := by
  cases written with
  | true => exact Nat.lt_of_lt_of_le h hpipe
  | false =>
    unfold Polling.Answers
    rw [hprod rfl]
    exact h

omit [DecidableEq ι] [DecidableEq α] in
theorem Polling.Woken.frame (h : s.Woken) (hhead : s'.queue.mem.head = s.queue.mem.head)
    (htook : s'.took = s.took) (hpipe : s.pipe ≤ s'.pipe)
    (hprod : ∀ j written, s.took = [(j, written)] → s.Answers j written → written = false →
      s'.queue.producers j = s.queue.producers j) : s'.Woken := by
  rcases h with ⟨hh, ht⟩ | ⟨hh, j, written, ht, hj⟩
  · exact .inl ⟨hhead.trans hh, htook.trans ht⟩
  · exact .inr ⟨hhead ▸ hh, j, written, htook.trans ht, hj.frame hpipe (hprod j written ht hj)⟩

theorem Polling.Woken.begin {a : α} {q : Queue ι α} (h : s.Woken)
    (hs : queueStep s.queue (.begin i a) = some q) : ({ s with queue := q } : Polling ι α).Woken := by
  simp only [queueStep] at hs
  split at hs
  · rename_i hidle
    obtain rfl := Option.some.inj hs
    refine h.frame rfl rfl le_rfl fun j written _ hj hw => ?_
    subst hw
    refine Function.update_of_ne (fun he => ?_) _ _
    subst he
    rcases hj with hj | ⟨b, hj⟩ <;>
    · rw [hidle] at hj
      cases hj
  · cases hs

omit [DecidableEq α] in
theorem Polling.Woken.write (h : s.Woken) {wouldBlock : Bool} (hfull : ¬ (wouldBlock = true ∧ s.pipe = 0))
    (q : Queue ι α) (hmem : q.mem = s.queue.mem)
    (hprod : ∀ j, j ≠ i → q.producers j = s.queue.producers j) :
    ({ s with
      queue := q
      pipe := if wouldBlock then s.pipe else s.pipe + 1
      took := Polling.markWritten i s.took } : Polling ι α).Woken := by
  have hle : s.pipe ≤ if wouldBlock then s.pipe else s.pipe + 1 := by split <;> omega
  have hpos : 0 < if wouldBlock then s.pipe else s.pipe + 1 := by
    cases wouldBlock with
    | true => exact Nat.pos_of_ne_zero fun h0 => hfull ⟨rfl, h0⟩
    | false => exact Nat.succ_pos _
  rcases h with ⟨hh, ht⟩ | ⟨hh, j, written, ht, hj⟩
  · refine .inl ⟨hmem ▸ hh, ?_⟩
    show Polling.markWritten i s.took = []
    rw [ht]
    rfl
  · by_cases hji : j = i
    · subst hji
      refine .inr ⟨hmem ▸ hh, j, true, ?_, hpos⟩
      simp [ht, Polling.markWritten]
    · refine .inr ⟨hmem ▸ hh, j, written, ?_, ?_⟩
      · simp [ht, hji, Polling.markWritten]
      · cases written with
        | true => exact Nat.lt_of_lt_of_le hj hle
        | false =>
          unfold Polling.Answers
          rw [hprod j hji]
          exact hj

theorem Polling.Woken.access {a : α} {phase : Phase (Ptr α)} (h : s.Woken)
    (hi : s.queue.producers i = .enqueue a phase) {q : Queue ι α}
    (hq : s.queue.producerStep i = some q) :
    ({ s with
      queue := q
      took := if s.takesSleep i then s.took ++ [(i, false)] else s.took } : Polling ι α).Woken := by
  unfold Queue.producerStep at hq
  simp only [hi, Option.some.injEq] at hq
  subst hq
  have hother : ∀ (p : Producer α) j, j ≠ i →
      Function.update s.queue.producers i p j = s.queue.producers j :=
    fun p j hj => Function.update_of_ne hj _ _
  have hframe : ∀ p j written, p ≠ .link .sleepMarker → phase = p → s.took = [(j, written)] →
      s.Answers j written → written = false → j ≠ i := by
    intro p j written hp hphase _ hj hw he
    subst hw he
    rcases hj with hj | ⟨b, hj⟩
    · rw [hi] at hj
      cases hj
    · rw [hi] at hj
      obtain ⟨-, hlink⟩ := Producer.enqueue.inj hj
      exact hp (hphase ▸ hlink)
  cases phase with
  | start =>
    have htake : s.takesSleep i = false := by simp [Polling.takesSleep, hi]
    rw [htake]
    exact h.frame rfl rfl le_rfl fun j written ht hj hw =>
      hother _ j (hframe _ j written (by simp) rfl ht hj hw)
  | load =>
    have htake : s.takesSleep i = false := by simp [Polling.takesSleep, hi]
    rw [htake]
    exact h.frame rfl rfl le_rfl fun j written ht hj hw =>
      hother _ j (hframe _ j written (by simp) rfl ht hj hw)
  | link prev =>
    have htake : s.takesSleep i = false := by simp [Polling.takesSleep, hi]
    rw [htake]
    rcases h with ⟨hh, ht⟩ | ⟨hh, j, written, ht, hj⟩
    · exact .inl ⟨hh, ht⟩
    · refine .inr ⟨hh, j, written, ht, ?_⟩
      by_cases hji : j = i
      · subst hji
        cases written with
        | true => exact hj
        | false =>
          rcases hj with hj | ⟨b, hj⟩
          · rw [hi] at hj
            cases hj
          · rw [hi] at hj
            obtain ⟨-, hlink⟩ := Producer.enqueue.inj hj
            cases hlink
            -- linked to the sleep marker: the write is next
            exact .inl (by simp [enqueueNode, Producer.after])
      · exact hj.frame le_rfl fun _ => hother _ j hji
  | exchange prev =>
    by_cases hclosed : prev = .closedMarker
    · have htake : s.takesSleep i = false := by simp [Polling.takesSleep, hi, hclosed]
      rw [htake]
      refine h.frame ?_ rfl le_rfl fun j written ht hj hw =>
        hother _ j (hframe _ j written (by simp) rfl ht hj hw)
      simp [enqueueNode, hclosed]
    · by_cases hswap : s.queue.mem.head = prev
      · by_cases hsleep : prev = .sleepMarker
        · subst hsleep
          have htake : s.takesSleep i = true := by simp [Polling.takesSleep, hi, hswap]
          rcases h with ⟨-, ht⟩ | ⟨hh, -⟩
          · refine .inr ⟨by simp [enqueueNode, hswap], i, false, by simp [htake, ht], .inr ⟨a, ?_⟩⟩
            simp [enqueueNode, hswap, Producer.after]
          · exact absurd hswap hh
        · have htake : s.takesSleep i = false := by simp [Polling.takesSleep, hi, hsleep]
          rw [htake]
          rcases h with ⟨hh, -⟩ | ⟨hh, j, written, ht, hj⟩
          · exact absurd (hswap.symm.trans hh) hsleep
          · exact .inr ⟨by simp [enqueueNode, hclosed, hswap], j, written, ht,
              hj.frame le_rfl fun hw => hother _ j (hframe _ j written (by simp) rfl ht hj hw)⟩
      · have htake : s.takesSleep i = false := by simp [Polling.takesSleep, hi, hswap]
        rw [htake]
        refine h.frame ?_ rfl le_rfl fun j written ht hj hw =>
          hother _ j (hframe _ j written (by simp) rfl ht hj hw)
        simp [enqueueNode, hclosed, hswap]

theorem Polling.Woken.producerStep (h : s.Woken) {wouldBlock : Bool}
    (hs : s.producerStep i wouldBlock = some s') : s'.Woken := by
  unfold Polling.producerStep at hs
  cases hi : s.queue.producers i with
  | idle => simp [hi, Queue.producerStep] at hs
  | wakeup =>
    simp only [hi] at hs
    split at hs
    · cases hs
    · rename_i hfull
      obtain ⟨q, hq, rfl⟩ := Option.map_eq_some_iff.mp hs
      simp only [Queue.producerStep, hi, Option.some.injEq] at hq
      subst hq
      exact h.write hfull _ rfl fun j hj => Function.update_of_ne hj _ _
  | enqueue a phase =>
    simp only [hi] at hs
    obtain ⟨q, hq, rfl⟩ := Option.map_eq_some_iff.mp hs
    exact h.access hi hq

end Woken

/-! ## The poller sleeps on the sleep marker -/

/-- The consumer is in `prepare_for_sleep`. -/
def Consumer.Preparing : Consumer α → Prop
  | .sleepHead | .sleepStore | .sleepExchange | .returned (.sleep _) => True
  | _ => False

def Consumer.AtRest (c : Consumer α) : Prop := ∃ ret, c = .returned ret

section Sleeping
variable {q q' : Queue ι α}

omit [DecidableEq ι] in
theorem prepare_preparing (q : Queue ι α) :
    q.prepare.consumer.Preparing ∧ q.prepare.consumer ≠ .returned (.sleep true) := by
  unfold Queue.prepare
  split
  · exact ⟨trivial, fun h => by cases h⟩
  · split
    · exact ⟨trivial, fun h => by cases h⟩
    · exact ⟨trivial, fun h => by cases h⟩

omit [DecidableEq ι] in
theorem preparing_step (hc : q.consumer.Preparing) (hs : q.consumerStep = some q') :
    q'.consumer.Preparing ∧
      (q'.consumer = .returned (.sleep true) → q'.mem.head = .sleepMarker) := by
  unfold Queue.consumerStep at hs
  cases hq : q.consumer with
  | sleepHead =>
    simp only [hq] at hs
    obtain rfl := Option.some.inj hs
    refine ⟨trivial, fun h => ?_⟩
    simpa using h
  | sleepStore =>
    simp only [hq] at hs
    obtain rfl := Option.some.inj hs
    exact ⟨trivial, fun h => by cases h⟩
  | sleepExchange =>
    simp only [hq] at hs
    split at hs
    · obtain rfl := Option.some.inj hs
      exact ⟨trivial, fun _ => rfl⟩
    · obtain rfl := Option.some.inj hs
      exact ⟨trivial, fun h => by cases h⟩
  | returned ret => simp [hq] at hs
  | _ =>
    rw [hq] at hc
    exact hc.elim

/-- An access of `enqueue_node` leaves the head where it was or puts the node there. -/
theorem enqueueNode_head (mem : Mem (Ptr α)) (node : Ptr α) (phase : Phase (Ptr α)) :
    (enqueueNode mem node phase).1.head = mem.head ∨
      (enqueueNode mem node phase).1.head = node := by
  cases phase with
  | exchange prev =>
    simp only [enqueueNode]
    split
    · exact .inl rfl
    · split
      · exact .inr rfl
      · exact .inl rfl
  | _ => exact .inl rfl

omit [DecidableEq ι] in
theorem consumerStep_head (hs : q.consumerStep = some q') (hh : q'.mem.head = .sleepMarker) :
    q.mem.head = .sleepMarker ∨ q.consumer = .sleepExchange ∧ q.mem.head = .endMarker := by
  unfold Queue.consumerStep at hs
  cases hq : q.consumer with
  | returned ret => simp [hq] at hs
  | dequeueTail limit =>
    simp only [hq] at hs
    refine .inl ?_
    split at hs
    · obtain rfl := Option.some.inj hs
      rw [Queue.checkTail_mem] at hh
      exact hh
    · split at hs
      · obtain rfl := Option.some.inj hs
        rw [Queue.clear_mem] at hh
        exact hh
      · obtain rfl := Option.some.inj hs
        exact hh
  | dequeueNext limit =>
    simp only [hq] at hs
    obtain rfl := Option.some.inj hs
    rw [Queue.checkTail_mem] at hh
    exact .inl hh
  | dequeueHead =>
    simp only [hq] at hs
    split at hs <;>
    · obtain rfl := Option.some.inj hs
      exact .inl hh
  | dequeueEnd phase =>
    simp only [hq] at hs
    obtain rfl := Option.some.inj hs
    rcases enqueueNode_head q.mem .endMarker phase with he | he
    · exact .inl (he.symm.trans hh)
    · cases he.symm.trans hh
  | dequeueLast =>
    simp only [hq] at hs
    split at hs <;>
    · obtain rfl := Option.some.inj hs
      exact .inl hh
  | clearStore ret =>
    simp only [hq] at hs
    obtain rfl := Option.some.inj hs
    exact .inl hh
  | clearExchange ret =>
    simp only [hq] at hs
    split at hs
    · obtain rfl := Option.some.inj hs
      cases hh
    · obtain rfl := Option.some.inj hs
      exact .inl hh
  | sleepHead =>
    simp only [hq] at hs
    obtain rfl := Option.some.inj hs
    exact .inl hh
  | sleepStore =>
    simp only [hq] at hs
    obtain rfl := Option.some.inj hs
    exact .inl hh
  | sleepExchange =>
    simp only [hq] at hs
    split at hs
    · exact .inr ⟨rfl, ‹_›⟩
    · obtain rfl := Option.some.inj hs
      exact .inl hh
  | requeue a phase =>
    simp only [hq] at hs
    obtain rfl := Option.some.inj hs
    rcases enqueueNode_head q.mem (.data a) phase with he | he
    · exact .inl (he.symm.trans hh)
    · cases he.symm.trans hh

omit [DecidableEq ι] in
theorem call_mem {op : QueueOp ι α} (hs : q.consumerCall op = some q') : q'.mem = q.mem := by
  cases op with
  | dequeueNode limit =>
    obtain rfl := Option.some.inj hs
    rfl
  | clearSleepMarker =>
    obtain rfl := Option.some.inj hs
    exact q.clear_mem _
  | prepareForSleep =>
    obtain rfl := Option.some.inj hs
    exact q.prepare_mem
  | requeue a =>
    obtain rfl := Option.some.inj hs
    rfl
  | begin | producer | consumer => cases hs

omit [DecidableEq ι] [DecidableEq α] in
theorem Sound.drained_of_sleep {nodes : List (Ptr α)} (h : Sound q nodes)
    (hh : q.mem.head = .sleepMarker) : q.Drained := by
  have htail : q.tail = .sleepMarker := (h.sleep (hh ▸ h.broken.head_mem)).1
  have hsingle : nodes = [q.tail] := by
    have hfirst := h.broken.first
    have hlast := h.broken.last
    have hnodup := h.broken.nodup
    rw [hh, ← htail] at hlast
    cases nodes with
    | nil => cases hfirst
    | cons x xs =>
      obtain rfl := Option.some.inj hfirst
      cases hxs : xs.getLast? with
      | none => rw [List.getLast?_eq_none_iff.mp hxs]
      | some y =>
        rw [List.getLast?_cons, hxs] at hlast
        obtain rfl := Option.some.inj hlast
        exact absurd (List.mem_of_getLast? hxs) (List.nodup_cons.mp hnodup).1
  exact h.drained_of_single hsingle (by rw [htail]; rfl)

end Sleeping

/-! ## What holds at every step -/

/-- What the poller can rely on, by where it is in `poll2`. -/
def Polling.PollerOk (s : Polling ι α) : Prop :=
  match s.poller with
  | .idle | .cleanup _ _ => s.queue.consumer.AtRest
  | .prepare _ timeout => timeout ≠ some 0 ∧ s.queue.consumer.Preparing ∧
      (s.queue.consumer = .returned (.sleep true) → s.Woken)
  | .select _ timeout => s.queue.consumer.AtRest ∧ (timeout ≠ some 0 → s.Woken)
  | .clear | .dequeue _ _ _ | .requeue _ _ _ _ => True

structure Polling.Ok (s : Polling ι α) : Prop where
  took : s.queue.mem.head = .sleepMarker → s.took = []
  poller : s.PollerOk

section Run
variable {s s' : Polling ι α} {call : Call} {len : ℕ} {limit : Option (Ptr α)}

theorem pollLoop_ok (htook : s.queue.mem.head = .sleepMarker → s.took = [])
    (hrest : s.queue.consumer.AtRest) (hs : s.pollLoop call len limit = some s') : s'.Ok := by
  unfold Polling.pollLoop at hs
  split at hs
  · obtain ⟨q, hq, rfl⟩ := Option.map_eq_some_iff.mp hs
    obtain ⟨ret, hret⟩ := hrest
    simp only [queueStep, hret] at hq
    exact ⟨fun hh => htook (call_mem hq ▸ hh), trivial⟩
  · obtain rfl := Option.some.inj hs
    exact ⟨htook, hrest⟩

theorem pollQueue_ok (htook : s.queue.mem.head = .sleepMarker → s.took = [])
    (hrest : s.queue.consumer.AtRest) (hs : s.pollQueue call len = some s') : s'.Ok := by
  unfold Polling.pollQueue at hs
  split at hs
  · obtain ⟨q, hq, rfl⟩ := Option.map_eq_some_iff.mp hs
    obtain ⟨ret, hret⟩ := hrest
    simp only [queueStep, hret] at hq
    exact ⟨fun hh => htook (call_mem hq ▸ hh), trivial⟩
  · exact pollLoop_ok htook hrest hs

theorem poll2_ok {timeout : Option ℕ} (htook : s.queue.mem.head = .sleepMarker → s.took = [])
    (hrest : s.queue.consumer.AtRest) (hs : s.poll2 call timeout = some s') : s'.Ok := by
  unfold Polling.poll2 at hs
  split at hs
  · rename_i h0
    obtain rfl := Option.some.inj hs
    exact ⟨htook, hrest, fun hne => absurd h0 hne⟩
  · rename_i h0
    obtain ⟨q, hq, rfl⟩ := Option.map_eq_some_iff.mp hs
    obtain ⟨ret, hret⟩ := hrest
    simp only [queueStep, hret] at hq
    obtain ⟨hpre, hnot⟩ := prepare_preparing s.queue
    refine ⟨fun hh => htook (call_mem hq ▸ hh), h0, ?_, ?_⟩
    · obtain rfl := Option.some.inj hq
      exact hpre
    · obtain rfl := Option.some.inj hq
      exact fun h => absurd h hnot

theorem selected_ok {timeout : Option ℕ} {res : SelectResult}
    (htook : s.queue.mem.head = .sleepMarker → s.took = []) (hrest : s.queue.consumer.AtRest)
    (hp : s.poller = .select call timeout) (hwoken : timeout ≠ some 0 → s.Woken)
    (hs : s.selected call timeout res = some s') : s'.Ok := by
  cases res with
  | ok notify len =>
    cases notify with
    | true =>
      obtain rfl := Option.some.inj hs
      exact ⟨htook, hrest⟩
    | false => exact pollQueue_ok htook hrest hs
  | interrupted elapsed =>
    simp only [Polling.selected] at hs
    split at hs
    · obtain rfl := Option.some.inj hs
      exact ⟨htook, hrest⟩
    · cases timeout with
      | none =>
        obtain rfl := Option.some.inj hs
        refine ⟨htook, ?_⟩
        unfold Polling.PollerOk
        rw [hp]
        exact ⟨hrest, hwoken⟩
      | some rest =>
        simp only at hs
        split at hs
        · exact pollQueue_ok htook hrest hs
        · obtain rfl := Option.some.inj hs
          refine ⟨htook, hrest, fun _ => hwoken fun h0 => ?_⟩
          obtain rfl := Option.some.inj h0
          omega
  | failed =>
    obtain rfl := Option.some.inj hs
    exact ⟨htook, hrest⟩

omit [DecidableEq ι] [DecidableEq α] in
/-- A step of a producer, or the begin of one, keeps what the poller can rely on. -/
theorem Polling.PollerOk.other (h : s.PollerOk) (hpoller : s'.poller = s.poller)
    (hconsumer : s'.queue.consumer = s.queue.consumer) (hwoken : s.Woken → s'.Woken) :
    s'.PollerOk := by
  unfold Polling.PollerOk at *
  rw [hpoller, hconsumer]
  cases hp : s.poller with
  | prepare call timeout =>
    rw [hp] at h
    exact ⟨h.1, h.2.1, fun hret => hwoken (h.2.2 hret)⟩
  | select call timeout =>
    rw [hp] at h
    exact ⟨h.1, fun hne => hwoken (h.2 hne)⟩
  | _ =>
    rw [hp] at h
    exact h

theorem producerStep_frame {q q' : Queue ι α} {i : ι} (hs : q.producerStep i = some q') :
    q'.consumer = q.consumer ∧ (q'.mem.head = .sleepMarker → q.mem.head = .sleepMarker) := by
  unfold Queue.producerStep at hs
  split at hs
  · cases hs
  · rename_i a phase _
    obtain rfl := Option.some.inj hs
    refine ⟨rfl, fun hh => ?_⟩
    rcases enqueueNode_head q.mem (.data a) phase with he | he
    · exact he.symm.trans hh
    · cases he.symm.trans hh
  · obtain rfl := Option.some.inj hs
    exact ⟨rfl, id⟩

theorem Polling.Ok.producerStep (h : s.Ok) {i : ι} {wouldBlock : Bool}
    (hs : s.producerStep i wouldBlock = some s') : s'.Ok := by
  have hw : s.Woken → s'.Woken := fun hw => hw.producerStep hs
  unfold Polling.producerStep at hs
  split at hs
  · split at hs
    · cases hs
    · obtain ⟨q, hq, rfl⟩ := Option.map_eq_some_iff.mp hs
      obtain ⟨hc, hh⟩ := producerStep_frame hq
      refine ⟨fun hhead => ?_, h.poller.other rfl hc hw⟩
      show Polling.markWritten i s.took = []
      rw [h.took (hh hhead)]
      rfl
  · obtain ⟨q, hq, rfl⟩ := Option.map_eq_some_iff.mp hs
    obtain ⟨hc, hh⟩ := producerStep_frame hq
    refine ⟨fun hhead => ?_, h.poller.other rfl hc hw⟩
    have hnot : s.takesSleep i = false := by
      -- a producer that takes the sleep marker puts its own node at the head
      unfold Polling.takesSleep
      unfold Queue.producerStep at hq
      cases hi : s.queue.producers i with
      | enqueue a phase =>
        cases phase with
        | exchange prev =>
          by_cases hprev : prev = .sleepMarker
          · subst hprev
            have hswap : s.queue.mem.head = .sleepMarker := hh hhead
            simp only [hi, Option.some.injEq] at hq
            subst hq
            simp [enqueueNode, hswap] at hhead
          · simp [hprev]
        | _ => rfl
      | _ => rfl
    show (if s.takesSleep i = true then s.took ++ [(i, false)] else s.took) = []
    rw [hnot]
    exact h.took (hh hhead)

omit [DecidableEq ι] in
/-- An access of the poller. -/
theorem Polling.Ok.consumerStep (h : s.Ok) {q : Queue ι α} (hq : s.queue.consumerStep = some q) :
    ({ s with queue := q, took := if s.putsSleep then [] else s.took } : Polling ι α).Ok := by
  have htook : q.mem.head = .sleepMarker → (if s.putsSleep then [] else s.took) = [] := by
    intro hh
    rcases consumerStep_head hq hh with hhead | ⟨hc, he⟩
    · rw [h.took hhead, ite_self]
    · rw [if_pos (by simp [Polling.putsSleep, hc, he])]
  have hmoves : ¬ s.queue.consumer.AtRest := by
    rintro ⟨ret, hret⟩
    unfold Queue.consumerStep at hq
    simp [hret] at hq
  refine ⟨htook, ?_⟩
  have hpoller := h.poller
  unfold Polling.PollerOk at *
  cases hp : s.poller with
  | idle =>
    rw [hp] at hpoller
    exact absurd hpoller hmoves
  | cleanup call len =>
    rw [hp] at hpoller
    exact absurd hpoller hmoves
  | select call timeout =>
    rw [hp] at hpoller
    exact absurd hpoller.1 hmoves
  | prepare call timeout =>
    rw [hp] at hpoller
    obtain ⟨hne, hpre, -⟩ := hpoller
    obtain ⟨hpre', hsleep⟩ := preparing_step hpre hq
    exact ⟨hne, hpre', fun hret => .inl ⟨hsleep hret, htook (hsleep hret)⟩⟩
  | _ => trivial

/-- **One step.** -/
theorem pollingStep_ok {op : PollingOp ι α} (h : s.Ok) (hs : pollingStep s op = some s') :
    s'.Ok := by
  have htook := h.took
  have hpoller := h.poller
  unfold Polling.PollerOk at hpoller
  unfold pollingStep at hs
  split at hs
  · obtain ⟨q, hq, rfl⟩ := Option.map_eq_some_iff.mp hs
    have hw : s.Woken → ({ s with queue := q } : Polling ι α).Woken := fun hw => hw.begin hq
    simp only [queueStep] at hq
    split at hq
    · obtain rfl := Option.some.inj hq
      exact ⟨htook, h.poller.other rfl rfl hw⟩
    · cases hq
  · exact h.producerStep hs
  · obtain ⟨q, hq, rfl⟩ := Option.map_eq_some_iff.mp hs
    exact h.consumerStep hq
  · rename_i hp
    rw [hp] at hpoller
    exact poll2_ok htook hpoller hs
  · rename_i call timeout ready hp hc
    rw [hp] at hpoller
    obtain ⟨hne, -, hwoken⟩ := hpoller
    obtain rfl := Option.some.inj hs
    refine ⟨htook, ⟨_, hc⟩, fun hsome => ?_⟩
    cases ready with
    | true => exact hwoken hc
    | false => exact absurd rfl hsome
  · rename_i hp
    rw [hp] at hpoller
    exact selected_ok htook hpoller.1 hp hpoller.2 hs
  · rename_i hp
    rw [hp] at hpoller
    split at hs
    · obtain rfl := Option.some.inj hs
      refine ⟨htook, ?_⟩
      unfold Polling.PollerOk
      rw [hp]
      exact hpoller
    · exact pollQueue_ok htook hpoller hs
  · rename_i hp hc
    obtain rfl := Option.some.inj hs
    exact ⟨htook, _, hc⟩
  · rename_i requeue readiness call len limit d hp hc
    have hrest : s.queue.consumer.AtRest := ⟨_, hc⟩
    cases d with
    | data ptr =>
      cases ptr with
      | data a =>
        cases requeue with
        | true =>
          obtain ⟨q, hq, rfl⟩ := Option.map_eq_some_iff.mp hs
          simp only [queueStep, hc] at hq
          exact ⟨fun hh => htook (call_mem hq ▸ hh), trivial⟩
        | false => exact pollLoop_ok htook hrest hs
      | _ => cases hs
    | _ =>
      obtain rfl := Option.some.inj hs
      exact ⟨htook, hrest⟩
  · rename_i hp hc
    exact pollLoop_ok htook ⟨_, hc⟩ hs
  · cases hs

theorem polling_ok (hs : Reachable pollingStep (· = Polling.new) s) : s.Ok :=
  hs.invariant (P := Polling.Ok)
    (fun s hinit => by
      subst hinit
      exact ⟨fun h => (by cases h), ⟨_, rfl⟩⟩)
    (fun _ _ _ h hs => pollingStep_ok h hs)

end Run

/-- **A sleeping poller is woken.** In every interleaved run, while the poller is in `select` with the
timeout it was called with, either the head is the sleep marker and the queue is empty, or exactly
one producer has found the sleep marker, and it has written the pipe, which still holds bytes, or is
about to; and `prepare_for_sleep` returns true only if everything enqueued has been returned. -/
theorem sleeping_poller_is_woken (s : Polling ι α)
    (hs : ReachableIf pollingStep PollsUnqueued (· = Polling.new) s) :
    (∀ call timeout, s.poller = .select call timeout → timeout ≠ some 0 →
      s.queue.mem.head = .sleepMarker ∧ s.took = [] ∧ s.queue.Drained ∨
        ∃ i written, s.took = [(i, written)] ∧ s.Answers i written) ∧
    ∀ call timeout s', s.poller = .prepare call timeout → pollingStep s .consumer = some s' →
      s'.queue.consumer = .returned (.sleep true) → s'.queue.Drained := by
  have hok := polling_ok hs.reachable
  refine ⟨fun call timeout hp hne => ?_, fun call timeout s' hp hstep hret => ?_⟩
  · have hpoller := hok.poller
    unfold Polling.PollerOk at hpoller
    rw [hp] at hpoller
    rcases hpoller.2 hne with ⟨hh, ht⟩ | ⟨-, hrest⟩
    · obtain ⟨nodes, hsound⟩ := queue_sound (polling_queue hs)
      exact .inl ⟨hh, ht, hsound.drained_of_sleep hh⟩
    · exact .inr hrest
  · have hpoller := hok.poller
    unfold Polling.PollerOk at hpoller
    rw [hp] at hpoller
    obtain ⟨nodes, hsound⟩ := queue_sound (polling_queue (hs.next .consumer trivial hstep))
    obtain ⟨q, hq, rfl⟩ := Option.map_eq_some_iff.mp hstep
    exact hsound.drained_of_sleep ((preparing_step hpoller.2.1 hq).2 hret)

/-- A node enqueued under a poller that sleeps without a timeout. -/
theorem sleeping_poller_is_woken_one :
    ∃ s : Polling Unit ℕ, s.poller = .select ⟨8, false⟩ none ∧ s.queue.mem.head = .data 5 ∧
      ∃ i written, s.took = [(i, written)] ∧ s.Answers i written := by
  have hstart : ReachableIf pollingStep PollsUnqueued (· = Polling.new) (Polling.new : Polling Unit ℕ) :=
    .start rfl
  let asleep : List (PollingOp Unit ℕ) := [.poll2 ⟨8, false⟩ none, .consumer, .consumer, .prepared]
  obtain ⟨s, hs⟩ := Option.isSome_iff_exists.mp
    (by decide : (run pollingStep (Polling.new : Polling Unit ℕ) asleep).isSome)
  have hfree : ∀ s ∈ run pollingStep (Polling.new : Polling Unit ℕ) asleep, s.queue.Free 5 := by decide
  have hs' := hstart.run
    (.of_forall fun op hop s => by
      simp only [asleep, List.mem_cons, List.not_mem_nil, or_false] at hop
      rcases hop with rfl | rfl | rfl | rfl <;> exact trivial) hs
  obtain ⟨t, ht, hlast⟩ : ∃ t : Polling Unit ℕ, run pollingStep Polling.new
      (asleep ++ .begin () 5 :: List.replicate 5 (.producer () false)) = some t ∧
        (t.poller, t.queue.mem.head) = (.select ⟨8, false⟩ none, .data 5) :=
    Option.map_eq_some_iff.mp (by decide)
  rw [run_append hs] at ht
  have hok : Along pollingStep PollsUnqueued s
      (.begin () 5 :: List.replicate 5 (.producer () false)) :=
    ⟨hfree s hs, fun _ _ => .of_forall fun op hop s => by
      obtain rfl := List.eq_of_mem_replicate hop
      exact trivial⟩
  have ht' := hs'.run hok ht
  obtain ⟨hselect, hhead⟩ := Prod.mk.inj hlast
  refine ⟨t, hselect, hhead, ?_⟩
  rcases (sleeping_poller_is_woken t ht').1 _ _ hselect (by simp) with ⟨hh, -⟩ | h
  · cases hhead.symm.trans hh
  · exact h

end MyMio

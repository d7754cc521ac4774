import MyMio.Queue.Pending

/-! # What goes into the queue and what comes out

The nodes that have been dequeued are the oldest that have been enqueued. Only an access of the
consumer that returns a node as data dequeues one, and it is that one.
-/

namespace MyMio
set_option autoImplicit false

open BrokenQueue StepSystem

universe u v

variable {ι : Type v} {α : Type u}

/-! ## What has been dequeued -/

def Ptr.node? : Ptr α → Option α
  | .data a => some a
  | _ => none

/-- The nodes that have been dequeued, in order. -/
def Queue.taken (q : Queue ι α) : List α := q.dequeued.filterMap Ptr.node?

theorem filterMap_node?_map (l : List α) : (l.map Ptr.data).filterMap Ptr.node? = l := by
  rw [List.filterMap_map]
  exact List.filterMap_some

section Sound
variable {q q' : Queue ι α} {nodes : List (Ptr α)}

theorem Sound.taken_append_pending (h : Sound q nodes) : q.taken ++ q.pending = q.enqueued := by
  have hmap : q.enqueued.map .data = q.dequeued ++ q.pending.map .data := by
    rw [h.pending_eq]
    exact h.content
  have hnodes := congrArg (List.filterMap Ptr.node?) hmap
  rw [filterMap_node?_map, List.filterMap_append, filterMap_node?_map] at hnodes
  exact hnodes.symm

theorem Sound.taken_subset (h : Sound q nodes) {a : α} (ha : a ∈ q.taken) : a ∈ q.enqueued := by
  rw [← h.taken_append_pending]
  exact List.mem_append_left _ ha

theorem taken_congr (h : q'.dequeued = q.dequeued) : q'.taken = q.taken :=
  congrArg (List.filterMap Ptr.node?) h

theorem taken_concat {a : α} (h : q'.dequeued = q.dequeued ++ [.data a]) :
    q'.taken = q.taken ++ [a] := by
  unfold Queue.taken
  rw [h, List.filterMap_append]
  rfl

end Sound

/-! ## The accesses -/

section Access
variable [DecidableEq α] {q q' : Queue ι α} {nodes nodes' : List (Ptr α)}

theorem producerStep_others [DecidableEq ι] {i : ι} (hs : q.producerStep i = some q') :
    q'.dequeued = q.dequeued ∧ ∀ j, j ≠ i → q'.producers j = q.producers j := by
  unfold Queue.producerStep at hs
  cases hi : q.producers i with
  | idle => simp [hi] at hs
  | wakeup =>
    simp only [hi, Option.some.injEq] at hs
    subst hs
    exact ⟨rfl, fun j hj => Function.update_of_ne hj ..⟩
  | enqueue a phase =>
    simp only [hi, Option.some.injEq] at hs
    subst hs
    exact ⟨rfl, fun j hj => Function.update_of_ne hj ..⟩

theorem producerStep_tail [DecidableEq ι] {i : ι} (hs : q.producerStep i = some q') :
    q'.tail = q.tail := by
  unfold Queue.producerStep at hs
  cases hi : q.producers i with
  | idle => simp [hi] at hs
  | wakeup | enqueue =>
    simp only [hi, Option.some.injEq] at hs
    rw [← hs]

theorem consumerStep_dequeued (hrec : Recorded q) (hs : q.consumerStep = some q') :
    q'.dequeued = q.dequeued ∧ (∀ ptr, q'.consumer ≠ .returned (.dequeue (.data ptr))) ∨
      ∃ ptr, q'.dequeued = q.dequeued ++ [ptr] ∧ q'.consumer = .returned (.dequeue (.data ptr)) := by
  have hcheck : ∀ limit next, (q.checkTail limit next).dequeued = q.dequeued ∧
      (∀ ptr, (q.checkTail limit next).consumer ≠ .returned (.dequeue (.data ptr))) ∨
      ∃ ptr, (q.checkTail limit next).dequeued = q.dequeued ++ [ptr] ∧
        (q.checkTail limit next).consumer = .returned (.dequeue (.data ptr)) := by
    intro limit next
    unfold Queue.checkTail
    split
    · exact .inl ⟨rfl, fun ptr he => by cases he⟩
    · cases next with
      | none => exact .inl ⟨rfl, fun ptr he => by cases he⟩
      | some next => exact .inr ⟨q.tail, rfl, rfl⟩
  unfold Queue.consumerStep at hs
  unfold Recorded at hrec
  cases hc : q.consumer with
  | returned ret => simp [hc] at hs
  | dequeueTail limit =>
    simp only [hc] at hs
    split at hs
    · obtain rfl := Option.some.inj hs
      exact hcheck _ _
    · cases hnext : q.mem.next q.tail with
      | none =>
        rw [hnext] at hs
        obtain rfl := Option.some.inj hs
        unfold Queue.clear
        split <;> exact .inl ⟨rfl, fun ptr he => by cases he⟩
      | some next =>
        rw [hnext] at hs
        obtain rfl := Option.some.inj hs
        exact .inl ⟨rfl, fun ptr he => by cases he⟩
  | dequeueNext limit =>
    simp only [hc] at hs
    obtain rfl := Option.some.inj hs
    exact hcheck _ _
  | dequeueLast =>
    simp only [hc] at hs
    cases hnext : q.mem.next q.tail with
    | none =>
      rw [hnext] at hs
      obtain rfl := Option.some.inj hs
      exact .inl ⟨rfl, fun ptr he => by cases he⟩
    | some next =>
      rw [hnext] at hs
      obtain rfl := Option.some.inj hs
      exact .inr ⟨q.tail, rfl, rfl⟩
  | clearExchange ret =>
    rw [hc] at hrec
    simp only [hc] at hs
    split at hs <;>
    · obtain rfl := Option.some.inj hs
      exact .inl ⟨rfl, fun ptr he => hrec ptr (Consumer.returned.inj he)⟩
  | dequeueEnd phase =>
    simp only [hc] at hs
    obtain rfl := Option.some.inj hs
    refine .inl ⟨rfl, fun ptr he => ?_⟩
    change Consumer.afterEnd (enqueueNode q.mem .endMarker phase).2 = _ at he
    cases hnext : (enqueueNode q.mem .endMarker phase).2 <;>
    · rw [hnext] at he
      cases he
  | requeue a phase =>
    simp only [hc] at hs
    obtain rfl := Option.some.inj hs
    refine .inl ⟨rfl, fun ptr he => ?_⟩
    change Consumer.afterRequeue a (enqueueNode q.mem (.data a) phase).2 = _ at he
    cases hnext : (enqueueNode q.mem (.data a) phase).2 <;>
    · rw [hnext] at he
      cases he
  | clearStore | sleepHead | sleepStore =>
    simp only [hc] at hs
    obtain rfl := Option.some.inj hs
    exact .inl ⟨rfl, fun ptr he => by cases he⟩
  | dequeueHead | sleepExchange =>
    simp only [hc] at hs
    split at hs <;>
    · obtain rfl := Option.some.inj hs
      exact .inl ⟨rfl, fun ptr he => by cases he⟩

end Access

/-! ## The other steps of the poller -/

/-- Two queues that have enqueued and dequeued the same. -/
structure SameLists (q q' : Queue ι α) : Prop where
  enqueued : q'.enqueued = q.enqueued
  dequeued : q'.dequeued = q.dequeued

section Polling
variable [DecidableEq ι] [DecidableEq α] {p p' : Polling ι α} {call : Call} {len : ℕ}
  {limit : Option (Ptr α)}

theorem queueStep_lists {q q' : Queue ι α} {op : QueueOp ι α} (hproducer : ∀ i, op ≠ .producer i)
    (hconsumer : op ≠ .consumer) (hs : queueStep q op = some q') : SameLists q q' := by
  have hcall (hop : op.isCall = true) : SameLists q q' := by
    obtain ⟨-, hs⟩ := queueStep_call hop hs
    cases op with
    | clearSleepMarker =>
      obtain rfl := Option.some.inj hs
      unfold Queue.clear
      split <;> exact ⟨rfl, rfl⟩
    | prepareForSleep =>
      obtain rfl := Option.some.inj hs
      unfold Queue.prepare
      split
      · exact ⟨rfl, rfl⟩
      · split <;> exact ⟨rfl, rfl⟩
    | dequeueNode | requeue =>
      obtain rfl := Option.some.inj hs
      exact ⟨rfl, rfl⟩
    | begin | producer | consumer => cases hop
  cases op with
  | begin i a =>
    simp only [queueStep] at hs
    split at hs
    · obtain rfl := Option.some.inj hs
      exact ⟨rfl, rfl⟩
    · cases hs
  | producer i => exact absurd rfl (hproducer i)
  | consumer => exact absurd rfl hconsumer
  | dequeueNode | clearSleepMarker | prepareForSleep | requeue => exact hcall rfl

theorem pollLoop_lists (hs : p.pollLoop call len limit = some p') : SameLists p.queue p'.queue := by
  unfold Polling.pollLoop at hs
  split at hs
  · obtain ⟨q, hq, rfl⟩ := Option.map_eq_some_iff.mp hs
    exact queueStep_lists (fun i he => (by cases he)) (fun he => by cases he) hq
  · obtain rfl := Option.some.inj hs
    exact ⟨rfl, rfl⟩

theorem pollQueue_lists (hs : p.pollQueue call len = some p') : SameLists p.queue p'.queue := by
  unfold Polling.pollQueue at hs
  split at hs
  · obtain ⟨q, hq, rfl⟩ := Option.map_eq_some_iff.mp hs
    exact queueStep_lists (fun i he => (by cases he)) (fun he => by cases he) hq
  · exact pollLoop_lists hs

theorem selected_lists {timeout : Option ℕ} {res : SelectResult}
    (hs : p.selected call timeout res = some p') : SameLists p.queue p'.queue := by
  cases res with
  | ok notify len =>
    cases notify with
    | true =>
      obtain rfl := Option.some.inj hs
      exact ⟨rfl, rfl⟩
    | false => exact pollQueue_lists hs
  | interrupted elapsed =>
    simp only [Polling.selected] at hs
    split at hs
    · obtain rfl := Option.some.inj hs
      exact ⟨rfl, rfl⟩
    · split at hs
      · split at hs
        · exact pollQueue_lists hs
        · obtain rfl := Option.some.inj hs
          exact ⟨rfl, rfl⟩
      · obtain rfl := Option.some.inj hs
        exact ⟨rfl, rfl⟩
  | failed =>
    obtain rfl := Option.some.inj hs
    exact ⟨rfl, rfl⟩

theorem pollingStep_lists {op : PollingOp ι α} (hproducer : ∀ i b, op ≠ .producer i b)
    (hconsumer : op ≠ .consumer) (hs : pollingStep p op = some p') : SameLists p.queue p'.queue := by
  unfold pollingStep at hs
  split at hs
  · obtain ⟨q, hq, rfl⟩ := Option.map_eq_some_iff.mp hs
    exact queueStep_lists (fun i he => (by cases he)) (fun he => by cases he) hq
  · exact absurd rfl (hproducer _ _)
  · exact absurd rfl hconsumer
  · unfold Polling.poll2 at hs
    split at hs
    · obtain rfl := Option.some.inj hs
      exact ⟨rfl, rfl⟩
    · obtain ⟨q, hq, rfl⟩ := Option.map_eq_some_iff.mp hs
      exact queueStep_lists (fun i he => (by cases he)) (fun he => by cases he) hq
  · obtain rfl := Option.some.inj hs
    exact ⟨rfl, rfl⟩
  · exact selected_lists hs
  · split at hs
    · obtain rfl := Option.some.inj hs
      exact ⟨rfl, rfl⟩
    · exact pollQueue_lists hs
  · obtain rfl := Option.some.inj hs
    exact ⟨rfl, rfl⟩
  · rename_i requeue readiness call len limit d _ _
    cases d with
    | data ptr =>
      cases ptr with
      | data a =>
        cases requeue with
        | true =>
          obtain ⟨q, hq, rfl⟩ := Option.map_eq_some_iff.mp hs
          exact queueStep_lists (fun i he => (by cases he)) (fun he => by cases he) hq
        | false => exact pollLoop_lists hs
      | _ => cases hs
    | _ =>
      obtain rfl := Option.some.inj hs
      exact ⟨rfl, rfl⟩
  · exact pollLoop_lists hs
  · cases hs

end Polling

end MyMio

import MyMio.Queue.Sound

/-! # The readiness queue with nobody in between

`ReadinessQueueInner` in `src/poll.rs` where each call runs from start to finish: no producer is inside
`enqueue_node` meanwhile. Here the queue can be closed. `Holds q queued` is what such a queue is for: it
holds `queued`, in order, wherever its markers are. Each call has one lemma about that.

A `compare_exchange` of `enqueue_node` that nobody disturbs succeeds, so its loop is gone.
`enqueueNode_run` and `dequeueNode_run` say that the calls are what their accesses one by one come to.
-/

namespace MyMio
set_option autoImplicit false

open BrokenQueue StepSystem

universe u v

/-! ## The calls -/

structure QueueInner (α : Type u) where
  mem : Mem (Ptr α)
  tail : Ptr α

/-- How `enqueue_node` ends: in the closed branch, which hands any node but the end marker to
`release_node`, or with whether the node before was the sleep marker. -/
inductive Enqueue
  | closed (releases : Bool)
  | linked (wakes : Bool)
  deriving DecidableEq, Repr

/-- What `enqueue_node` returns. -/
def Enqueue.ret : Enqueue → Bool
  | .closed _ => false
  | .linked wakes => wakes

namespace QueueInner
variable {α : Type u}

def new : QueueInner α := ⟨⟨.endMarker, fun _ => none⟩, .endMarker⟩

variable [DecidableEq α]

def enqueueNode (q : QueueInner α) (node : Ptr α) : QueueInner α × Enqueue :=
  if q.mem.head = .closedMarker then
    ({ q with mem := { q.mem with next := Function.update q.mem.next node none } },
      .closed (decide (node ≠ .endMarker)))
  else ({ q with mem := q.mem.enqueue node }, .linked (decide (q.mem.head = .sleepMarker)))

def clearSleepMarker (q : QueueInner α) : QueueInner α :=
  if q.tail = .sleepMarker then
    let next := Function.update q.mem.next .endMarker none
    if q.mem.head = .sleepMarker then ⟨⟨.endMarker, next⟩, .endMarker⟩
    else { q with mem := { q.mem with next := next } }
  else q

/-- The end of `dequeue_node`: the pointer of the tail is loaded once more. -/
def dequeueLast (q : QueueInner α) : QueueInner α × Dequeue α :=
  match q.mem.next q.tail with
  | some next => ({ q with tail := next }, .data q.tail)
  | none => (q, .inconsistent)

/-- `dequeue_node` from its test of `until` on. -/
def dequeueTail (q : QueueInner α) (limit : Option (Ptr α)) : QueueInner α × Dequeue α :=
  if limit = some q.tail then (q, .empty)
  else
    match q.mem.next q.tail with
    | some next => ({ q with tail := next }, .data q.tail)
    | none =>
      if q.mem.head = q.tail then (q.enqueueNode .endMarker).1.dequeueLast else (q, .inconsistent)

def dequeueNode (q : QueueInner α) (limit : Option (Ptr α)) : QueueInner α × Dequeue α :=
  if q.tail.isData then q.dequeueTail limit
  else
    match q.mem.next q.tail with
    | none => (q.clearSleepMarker, .empty)
    | some next => { q with tail := next }.dequeueTail limit

end QueueInner

/-! ## Consistent queues -/

/-- Where the markers of a queue that is not closed can be, from the tail on. -/
structure Placed {α : Type u} (nodes : List (Ptr α)) : Prop where
  closed : .closedMarker ∉ nodes
  sleep : .sleepMarker ∈ nodes → nodes.head? = some .sleepMarker ∧ .endMarker ∉ nodes

section Placed
variable {α : Type u} {nodes rest : List (Ptr α)} {x y : Ptr α}

theorem Placed.tail (h : Placed (x :: rest)) (hnd : (x :: rest).Nodup) : Placed rest where
  closed hm := h.closed (List.mem_cons_of_mem x hm)
  sleep hm := by
    have hx : some x = some .sleepMarker := (h.sleep (List.mem_cons_of_mem x hm)).1
    rw [Option.some.inj hx] at hnd
    exact absurd hm (List.nodup_cons.mp hnd).1

/-- Past a marker comes a data node. -/
theorem Placed.data_of_marker (h : Placed (x :: y :: rest)) (hnd : (x :: y :: rest).Nodup)
    (hx : x.isData = false) : y.isData = true := by
  have hne : x ≠ y := fun he => (List.nodup_cons.mp hnd).1 (he ▸ List.mem_cons_self)
  cases y with
  | data a => rfl
  | closedMarker => exact absurd (by simp) h.closed
  | sleepMarker =>
    have hfirst : some x = some .sleepMarker := (h.sleep (by simp)).1
    exact absurd (Option.some.inj hfirst) hne
  | endMarker =>
    cases x with
    | data a => cases hx
    | closedMarker => exact absurd (by simp) h.closed
    | sleepMarker => exact absurd (by simp) (h.sleep (by simp)).2
    | endMarker => exact absurd rfl hne

theorem Placed.append_data (h : Placed nodes) (hne : nodes ≠ []) (a : α) :
    Placed (nodes ++ [.data a]) where
  closed hm := by
    apply h.closed
    simpa using hm
  sleep hm := by
    have hs : .sleepMarker ∈ nodes := by simpa using hm
    obtain ⟨hfirst, hend⟩ := h.sleep hs
    refine ⟨?_, by simpa using hend⟩
    rw [List.head?_append_of_ne_nil _ hne, hfirst]

theorem placed_end : Placed [(.endMarker : Ptr α)] where
  closed := by simp
  sleep hm := by simp at hm

end Placed

/-- `nodes` is the queue from the tail to the head. -/
structure Consistent {α : Type u} (q : QueueInner α) (nodes : List (Ptr α)) : Prop where
  linked : Linked q.mem q.tail nodes
  placed : Placed nodes

/-- The queue holds `queued`, in order, and whatever markers it has. -/
def Holds {α : Type u} (q : QueueInner α) (queued : List α) : Prop :=
  ∃ nodes, Consistent q nodes ∧ nodes.filter Ptr.isData = queued.map .data

/-! ## What the calls do -/

section Calls
variable {α : Type u} {q : QueueInner α} {nodes rest : List (Ptr α)} {x : Ptr α} {queued : List α}

theorem Consistent.ne_nil (h : Consistent q nodes) : nodes ≠ [] := by
  intro hnil
  have hfirst := h.linked.first
  rw [hnil] at hfirst
  cases hfirst

theorem Consistent.head_open (h : Consistent q nodes) : q.mem.head ≠ .closedMarker :=
  fun he => h.placed.closed (he ▸ h.linked.head_mem)

theorem Consistent.tail_eq (h : Consistent q (x :: rest)) : q.tail = x :=
  (Option.some.inj h.linked.first).symm

theorem Consistent.advance {y : Ptr α} (h : Consistent q (x :: y :: rest)) :
    Consistent { q with tail := y } (y :: rest) where
  linked := h.linked.advance
  placed := h.placed.tail h.linked.nodup

/-- What is held is held once. -/
theorem Holds.nodup (h : Holds q queued) : queued.Nodup := by
  obtain ⟨nodes, hc, hq⟩ := h
  have hnd : (queued.map Ptr.data).Nodup := hq ▸ hc.linked.nodup.filter _
  exact List.Nodup.of_map _ hnd

theorem holds_new : Holds (QueueInner.new : QueueInner α) [] :=
  ⟨[.endMarker], ⟨broken_single fun _ => rfl, placed_end⟩, rfl⟩

variable [DecidableEq α]

/-- **An enqueue** of a node that is not held puts it last. -/
theorem Holds.enqueueNode (h : Holds q queued) {a : α} (ha : a ∉ queued) :
    Holds (q.enqueueNode (.data a)).1 (queued ++ [a]) := by
  obtain ⟨nodes, hc, hq⟩ := h
  have hout : Ptr.data a ∉ nodes := by
    intro hm
    have hm' : Ptr.data a ∈ queued.map .data := hq ▸ List.mem_filter.mpr ⟨hm, rfl⟩
    obtain ⟨b, hb, he⟩ := List.mem_map.mp hm'
    exact ha (Ptr.data.inj he ▸ hb)
  unfold QueueInner.enqueueNode
  rw [if_neg hc.head_open]
  refine ⟨nodes ++ [.data a], ⟨hc.linked.enqueue hout, hc.placed.append_data hc.ne_nil a⟩, ?_⟩
  rw [List.filter_append, hq, List.map_append]
  rfl

/-- The sleep marker at rest is swapped for the end marker; nothing else changes. -/
theorem Consistent.clearSleepMarker (h : Consistent q nodes) :
    ∃ nodes', Consistent q.clearSleepMarker nodes' ∧
      nodes'.filter Ptr.isData = nodes.filter Ptr.isData := by
  unfold QueueInner.clearSleepMarker
  split
  · rename_i htail
    have hend : .endMarker ∉ nodes := (h.placed.sleep (htail ▸ h.linked.tail_mem)).2
    split
    · rename_i hhead
      have hsingle : nodes = [.sleepMarker] := htail ▸ h.linked.single (hhead.trans htail.symm)
      have hlinked := h.linked
      rw [htail, hsingle] at hlinked
      refine ⟨[.endMarker], ⟨hlinked.replace (by simp), placed_end⟩, ?_⟩
      rw [hsingle]
      rfl
    · exact ⟨nodes, ⟨Broken.clear h.linked hend, h.placed⟩, rfl⟩
  · exact ⟨nodes, h, rfl⟩

theorem Holds.clearSleepMarker (h : Holds q queued) : Holds q.clearSleepMarker queued := by
  obtain ⟨nodes, hc, hq⟩ := h
  obtain ⟨nodes', hc', hq'⟩ := hc.clearSleepMarker
  exact ⟨nodes', hc', hq'.trans hq⟩

theorem Consistent.dequeueTail {a : α} (h : Consistent q (.data a :: rest)) {limit : Option (Ptr α)}
    (hlimit : limit ≠ some (.data a)) :
    (q.dequeueTail limit).2 = .data (.data a) ∧ ∃ nodes', Consistent (q.dequeueTail limit).1 nodes' ∧
      nodes'.filter Ptr.isData = rest.filter Ptr.isData := by
  have htail := h.tail_eq
  have hnext := h.linked.next_tail
  unfold QueueInner.dequeueTail
  rw [htail] at hnext ⊢
  rw [if_neg hlimit, hnext]
  cases rest with
  | cons y rest => exact ⟨rfl, y :: rest, h.advance, rfl⟩
  | nil =>
    have hhead : q.mem.head = .data a := (h.linked.head_eq_tail_iff.mpr rfl).trans htail
    have hopen := h.head_open
    have hpushed := h.linked.enqueue (y := .endMarker) (by simp)
    have hlink : (q.mem.enqueue .endMarker).next q.tail = some .endMarker := hpushed.next_tail
    rw [htail] at hlink
    simp only [List.head?_nil, hhead, if_true, QueueInner.enqueueNode, if_neg (hhead ▸ hopen),
      QueueInner.dequeueLast, htail, hlink]
    exact ⟨trivial, [.endMarker], ⟨hpushed.advance, placed_end⟩, rfl⟩

theorem Holds.dequeue_nil (h : Holds q []) (limit : Option (Ptr α)) :
    (q.dequeueNode limit).2 = .empty ∧ Holds (q.dequeueNode limit).1 [] := by
  have hcleared := h.clearSleepMarker
  obtain ⟨nodes, hc, hq⟩ := h
  have hmarkers : ∀ x ∈ nodes, x.isData = false := by
    intro x hx
    have hnone := List.filter_eq_nil_iff.mp hq x hx
    simpa using hnone
  cases nodes with
  | nil => exact absurd rfl hc.ne_nil
  | cons x rest =>
    have hx : x.isData = false := hmarkers x List.mem_cons_self
    have hrest : rest = [] := by
      cases rest with
      | nil => rfl
      | cons y rest =>
        have hy := hc.placed.data_of_marker hc.linked.nodup hx
        rw [hmarkers y (by simp)] at hy
        cases hy
    subst hrest
    have hnext := hc.linked.next_tail
    unfold QueueInner.dequeueNode
    rw [hnext, hc.tail_eq, hx]
    exact ⟨rfl, hcleared⟩

/-- Past a marker, if there is one, `dequeue_node` has the first data node at the tail. -/
theorem Holds.first {a : α} (h : Holds q (a :: queued)) : ∃ q' rest,
    Consistent q' (.data a :: rest) ∧ rest.filter Ptr.isData = queued.map .data ∧
      ∀ limit, q.dequeueNode limit = q'.dequeueTail limit := by
  obtain ⟨nodes, hc, hq⟩ := h
  cases nodes with
  | nil => exact absurd rfl hc.ne_nil
  | cons x rest =>
    have htail := hc.tail_eq
    cases hx : x.isData with
    | true =>
      rw [List.filter_cons_of_pos hx, List.map_cons] at hq
      obtain ⟨rfl, hrest⟩ := List.cons.inj hq
      refine ⟨q, rest, hc, hrest, fun limit => ?_⟩
      unfold QueueInner.dequeueNode
      rw [if_pos (htail ▸ hx)]
    | false =>
      rw [List.filter_cons_of_neg (by simp [hx])] at hq
      cases rest with
      | nil => cases hq
      | cons y rest =>
        have hy := hc.placed.data_of_marker hc.linked.nodup hx
        rw [List.filter_cons_of_pos hy, List.map_cons] at hq
        obtain ⟨rfl, hrest⟩ := List.cons.inj hq
        have hnext := hc.linked.next_tail
        refine ⟨_, rest, hc.advance, hrest, fun limit => ?_⟩
        unfold QueueInner.dequeueNode
        rw [if_neg (by simp [htail, hx]), hnext]
        rfl

theorem Holds.dequeue_limit {a : α} (h : Holds q (a :: queued)) :
    (q.dequeueNode (some (.data a))).2 = .empty ∧
      Holds (q.dequeueNode (some (.data a))).1 (a :: queued) := by
  obtain ⟨q', rest, hc, hrest, hcall⟩ := h.first
  rw [hcall]
  unfold QueueInner.dequeueTail
  rw [if_pos (by rw [hc.tail_eq])]
  refine ⟨rfl, .data a :: rest, hc, ?_⟩
  rw [List.filter_cons_of_pos rfl, hrest, List.map_cons]

/-- **`dequeue_node`** takes the first node, unless that is the limit. -/
theorem Holds.dequeue_data {a : α} (h : Holds q (a :: queued)) {limit : Option (Ptr α)}
    (hlimit : limit ≠ some (.data a)) :
    (q.dequeueNode limit).2 = .data (.data a) ∧ Holds (q.dequeueNode limit).1 queued := by
  obtain ⟨q', rest, hc, hrest, hcall⟩ := h.first
  obtain ⟨hret, nodes', hc', hq'⟩ := hc.dequeueTail hlimit
  rw [hcall]
  exact ⟨hret, nodes', hc', hq'.trans hrest⟩

end Calls

/-! ## The accesses one by one -/

section Accesses
variable {ι : Type v} {α : Type u}

def Queue.inner (q : Queue ι α) : QueueInner α := ⟨q.mem, q.tail⟩

/-- What the accesses leave with nobody inside `enqueue_node` is consistent. -/
theorem Sound.consistent {q : Queue ι α} {nodes : List (Ptr α)} (h : Sound q nodes)
    (hbusy : ∀ o, q.busy o = none) : Consistent q.inner nodes where
  linked := h.broken.linked hbusy
  placed := by
    refine ⟨h.closed, fun hm => ?_⟩
    obtain ⟨htail, hend⟩ := h.sleep hm
    exact ⟨by rw [h.broken.first, htail], hend⟩

theorem Sound.holds {q : Queue ι α} {nodes : List (Ptr α)} (h : Sound q nodes)
    (hbusy : ∀ o, q.busy o = none) : Holds q.inner (q.enqueued.drop q.dequeued.length) := by
  refine ⟨nodes, h.consistent hbusy, ?_⟩
  rw [List.map_drop, h.content, List.drop_left]

variable [DecidableEq ι] [DecidableEq α]

/-- The consumer alone brings its call to an end. -/
def Completes (q : Queue ι α) (inner : QueueInner α) (ret : Ret α) : Prop :=
  ∃ n q', run queueStep q (List.replicate n .consumer) = some q' ∧ q'.inner = inner ∧
    q'.consumer = .returned ret

variable {q m : Queue ι α} {inner : QueueInner α} {ret : Ret α}

theorem Completes.returned (hinner : q.inner = inner) (hret : q.consumer = .returned ret) :
    Completes q inner ret :=
  ⟨0, q, rfl, hinner, hret⟩

theorem Completes.step (hs : q.consumerStep = some m) (h : Completes m inner ret) :
    Completes q inner ret := by
  obtain ⟨n, q', hrun, hinner, hret⟩ := h
  refine ⟨n + 1, q', ?_, hinner, hret⟩
  rw [List.replicate_succ, run_cons_eq (show queueStep q .consumer = some m from hs), hrun]

theorem clear_completes (q : Queue ι α) (ret : Ret α) :
    Completes (q.clear ret) q.inner.clearSleepMarker ret := by
  unfold Queue.clear QueueInner.clearSleepMarker
  by_cases htail : q.tail = .sleepMarker
  · rw [if_pos htail, if_pos (show q.inner.tail = .sleepMarker from htail)]
    refine Completes.step rfl ?_
    by_cases hhead : q.mem.head = .sleepMarker
    · refine Completes.step (if_pos hhead) (.returned ?_ rfl)
      exact (if_pos hhead).symm
    · refine Completes.step (if_neg hhead) (.returned ?_ rfl)
      exact (if_neg hhead).symm
  · rw [if_neg htail, if_neg (show q.inner.tail ≠ .sleepMarker from htail)]
    exact .returned rfl rfl

/-- The accesses of `enqueue_node`, whatever the consumer makes of each (`after`): they leave the
queue as the call does, and then the consumer goes on. -/
theorem enqueue_completes (node : Ptr α) (after : EnqueueNext α → Consumer α)
    (hstep : ∀ (m : Queue ι α) (phase : Phase (Ptr α)), m.consumer = after (.goOn phase) →
      ∃ enqueued, m.consumerStep = some { m with
        mem := (enqueueNode m.mem node phase).1
        consumer := after (enqueueNode m.mem node phase).2
        enqueued := enqueued })
    (hc : q.consumer = after (.goOn .start))
    (hdone : ∀ m : Queue ι α, m.inner = (q.inner.enqueueNode node).1 →
      m.consumer = after (.done (q.inner.enqueueNode node).2.ret) → Completes m inner ret) :
    Completes q inner ret := by
  let cleared : Mem (Ptr α) := (enqueueNode q.mem node .start).1
  obtain ⟨e, hstart⟩ := hstep q .start hc
  refine .step hstart ?_
  obtain ⟨e', hload⟩ :=
    hstep { q with mem := cleared, consumer := after (.goOn .load), enqueued := e } .load rfl
  refine .step hload ?_
  obtain ⟨e, hexchange⟩ := hstep
    { q with mem := cleared, consumer := after (.goOn (.exchange q.mem.head)), enqueued := e' } _ rfl
  refine .step hexchange ?_
  unfold QueueInner.enqueueNode at hdone
  by_cases hclosed : q.mem.head = .closedMarker
  · rw [if_pos (show q.inner.mem.head = .closedMarker from hclosed)] at hdone
    simp only [enqueueNode, if_pos hclosed]
    exact hdone _ rfl rfl
  · rw [if_neg (show q.inner.mem.head ≠ .closedMarker from hclosed)] at hdone
    have hswap : cleared.head = q.mem.head := rfl
    simp only [enqueueNode, if_neg hclosed, if_pos hswap]
    obtain ⟨e', hlink⟩ := hstep
      { q with
        mem := { cleared with head := node }
        consumer := after (.goOn (.link q.mem.head))
        enqueued := e } _ rfl
    refine .step hlink ?_
    exact hdone _ rfl rfl

theorem dequeueLast_completes (hc : q.consumer = .dequeueLast) :
    Completes q q.inner.dequeueLast.1 (.dequeue q.inner.dequeueLast.2) := by
  unfold QueueInner.dequeueLast
  rw [show q.inner.mem.next q.inner.tail = q.mem.next q.tail from rfl]
  cases hnext : q.mem.next q.tail with
  | some next =>
    refine .step (m := q.takeTail next) ?_ (.returned rfl rfl)
    unfold Queue.consumerStep
    rw [hc]
    simp only [hnext]
  | none =>
    refine .step (m := { q with consumer := .returned (.dequeue .inconsistent) }) ?_
      (.returned rfl rfl)
    unfold Queue.consumerStep
    rw [hc]
    simp only [hnext]

theorem checkTail_completes (q : Queue ι α) (limit : Option (Ptr α)) :
    Completes (q.checkTail limit (q.mem.next q.tail)) (q.inner.dequeueTail limit).1
      (.dequeue (q.inner.dequeueTail limit).2) := by
  unfold Queue.checkTail QueueInner.dequeueTail
  by_cases hlimit : limit = some q.tail
  · rw [if_pos hlimit, if_pos (show limit = some q.inner.tail from hlimit)]
    exact .returned rfl rfl
  · rw [if_neg hlimit, if_neg (show limit ≠ some q.inner.tail from hlimit)]
    rw [show q.inner.mem.next q.inner.tail = q.mem.next q.tail from rfl]
    cases q.mem.next q.tail with
    | some next => exact .returned rfl rfl
    | none =>
      by_cases hhead : q.mem.head = q.tail
      · rw [if_pos (show q.inner.mem.head = q.inner.tail from hhead)]
        refine .step (m := { q with consumer := .dequeueEnd .start }) (if_pos hhead) ?_
        refine enqueue_completes .endMarker .afterEnd (fun m phase hm => ?_) rfl
          fun m hinner hm => ?_
        · refine ⟨m.enqueued, ?_⟩
          unfold Queue.consumerStep
          rw [hm]
          rfl
        · rw [show (q.inner.enqueueNode .endMarker).1 = m.inner from hinner.symm]
          exact dequeueLast_completes hm
      · rw [if_neg (show q.inner.mem.head ≠ q.inner.tail from hhead)]
        refine .step (if_neg hhead) ?_
        exact .returned rfl rfl

/-- **`dequeue_node`** is what its accesses come to. -/
theorem dequeueNode_completes (q : Queue ι α) (limit : Option (Ptr α)) :
    Completes { q with consumer := .dequeueTail limit } (q.inner.dequeueNode limit).1
      (.dequeue (q.inner.dequeueNode limit).2) := by
  unfold QueueInner.dequeueNode
  by_cases hdata : q.tail.isData = true
  · rw [if_pos (show q.inner.tail.isData = true from hdata)]
    refine .step (if_pos hdata) ?_
    exact checkTail_completes _ limit
  · rw [if_neg (show ¬ q.inner.tail.isData = true from hdata)]
    rw [show q.inner.mem.next q.inner.tail = q.mem.next q.tail from rfl]
    cases hnext : q.mem.next q.tail with
    | none =>
      refine .step (m := q.clear (.dequeue .empty)) ?_ (clear_completes q _)
      simp only [Queue.consumerStep, if_neg hdata, hnext]
      rfl
    | some next =>
      refine .step (m := { q with tail := next, consumer := .dequeueNext limit }) ?_ ?_
      · simp only [Queue.consumerStep, if_neg hdata, hnext]
      · refine .step rfl ?_
        exact checkTail_completes { q with tail := next, consumer := .dequeueNext limit } limit

/-- **`enqueue_node`** for a node that was dequeued is what its accesses come to. -/
theorem requeue_completes (q : Queue ι α) (a : α) :
    Completes { q with consumer := .requeue a .start } (q.inner.enqueueNode (.data a)).1 .unit := by
  refine enqueue_completes (.data a) (.afterRequeue a) (fun m phase hm => ?_) rfl
    fun m hinner hm => .returned hinner hm
  refine ⟨if swaps m.mem phase then m.enqueued ++ [a] else m.enqueued, ?_⟩
  unfold Queue.consumerStep
  rw [hm]
  rfl

end Accesses

end MyMio

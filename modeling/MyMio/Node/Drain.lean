import MyMio.Node.Tokens
import MyMio.Queue.Sequential
import MyMio.Selector.Buffer

/-! # One drain of the queue

`ReadinessQueue::poll` in `src/poll.rs` with no producer at work: it takes nodes from the queue, settles
the word of each, puts a node back that is level-triggered and ready, and pushes an event for each ready
one. It stops at the first node it has put back (`until`), when the queue is empty, or when the buffer
is full.

`pollLoop_spec` says what a pass does to whatever it gets through, with any room in the buffer: the
nodes it has gone through are a prefix of those that were queued, and what is in the queue afterwards
is the rest and, behind it, the nodes put back. The markers do not appear in it: where they are is
the queue's own business (`Holds`).
-/

namespace MyMio
set_option autoImplicit false

open BrokenQueue

universe u v w

variable {α : Type u} {J : Type w}

/-! ## `poll` -/

structure Drain (α : Type u) (J : Type w) where
  queue : QueueInner α
  nodes : α → Node J
  dst : Events (Option J)
  /-- what has been handed to `release_node` -/
  released : List α

namespace Drain
variable [DecidableEq α]

/-- The body of the loop, from the node `a` it has dequeued on; it also leaves the new `until`. Nobody
makes the `compare_and_swap` fail. -/
def turn (d : Drain α J) (limit : Option (Ptr α)) (a : α) : Option (Drain α J × Option (Ptr α)) :=
  let node := d.nodes a
  let state := node.state
  if state.isDropped then some ({ d with released := d.released ++ [a] }, limit)
  else
    let next := state.afterPoll
    let readiness := state.effectiveReadiness
    let limit := if next.isQueued then some (limit.getD (.data a)) else limit
    let d := { d with
      nodes := Function.update d.nodes a { node with state := next }
      queue := if next.isQueued then (d.queue.enqueueNode (.data a)).1 else d.queue }
    if readiness.isEmpty then some (d, limit)
    else
      (node.token next.tokenReadPos).map fun token =>
        ({ d with
          dst := d.dst.pushEvent ⟨readiness, token⟩ node.job
          nodes := Function.update d.nodes a { node with state := next, job := none } }, limit)

/-- The loop, for `fuel` turns at most. A marker is not a node with a word, so none can be returned as
data. -/
def pollLoop (d : Drain α J) (limit : Option (Ptr α)) : ℕ → Option (Drain α J)
  | 0 => none
  | fuel + 1 =>
    if d.dst.len < d.dst.capacity then
      match d.queue.dequeueNode limit with
      | (queue, .data (.data a)) =>
        ({ d with queue := queue }.turn limit a).bind fun r => r.1.pollLoop r.2 fuel
      | (_, .data _) => none
      | (queue, _) => some { d with queue := queue }
    else some d

def poll (d : Drain α J) (fuel : ℕ) : Option (Drain α J) :=
  if d.dst.len = d.dst.capacity then
    { d with queue := d.queue.clearSleepMarker }.pollLoop none fuel
  else d.pollLoop none fuel

end Drain

/-- Events pushed one after the other. -/
def Events.pushAll (dst : Events J) (l : List (Event × J)) : Events J :=
  l.foldl (fun dst e => dst.pushEvent e.1 e.2) dst

/-! ## What becomes of a node -/

namespace Node

/-- Whether `poll` puts the node back. -/
def stays (node : Node J) : Bool :=
  !node.state.isDropped && !node.state.effectiveReadiness.isEmpty && !node.state.pollOpt.isEdge

/-- The event `poll` pushes for the node, with its job. -/
def delivery (node : Node J) : Option (Event × Option J) :=
  if node.state.isDropped || node.state.effectiveReadiness.isEmpty then none
  else
    (node.token node.state.tokenWritePos).map fun token =>
      (⟨node.state.effectiveReadiness, token⟩, node.job)

/-- The node when `poll` has been through it. -/
def drained (node : Node J) : Node J :=
  if node.state.isDropped then node
  else
    { node with
      state := node.state.afterPoll
      job := if node.state.effectiveReadiness.isEmpty then node.job else none }

/-- A node that is in the queue: its word says so, and one of its slots has the latest token. -/
structure Queued (node : Node J) : Prop where
  queued : node.state.isQueued = true
  position : Position node.state.tokenWritePos

end Node

namespace ReadinessState
variable (s : ReadinessState)

/-- The word `poll` leaves has the queued flag if the node was level-triggered and ready. -/
theorem isQueued_afterPoll :
    s.afterPoll.isQueued = (s.isQueued && !s.effectiveReadiness.isEmpty && !s.pollOpt.isEdge) := by
  have hmoved : s.consumed.updateTokenReadPos.field .queued = s.consumed.field .queued :=
    s.consumed.field_set_of_holds (f := .tokenRead) (by decide) (Field.holds_get _ .tokenWrite)
  have hdisarm : s.setDequeued.disarm.isQueued = s.setDequeued.isQueued := by
    rw [isQueued_eq_field, isQueued_eq_field, field_disarm _ (by decide)]
  rw [afterPoll_eq, isQueued_eq_field, hmoved, ← isQueued_eq_field]
  unfold consumed
  cases s.pollOpt.isEdge with
  | true =>
    simp only [if_true, Bool.not_true, Bool.and_false]
    split
    · rw [hdisarm, isQueued_setDequeued]
    · exact s.isQueued_setDequeued
  | false =>
    cases s.effectiveReadiness.isEmpty with
    | true => simp
    | false => simp

end ReadinessState

/-! ## Passes -/

section Pass
variable [DecidableEq α]

/-- The loop has gone through the nodes `done`, in that order. -/
structure Pass (d d' : Drain α J) (done : List α) : Prop where
  nodes : ∀ a, d'.nodes a = if a ∈ done then (d.nodes a).drained else d.nodes a
  dst : d'.dst = d.dst.pushAll (done.filterMap fun a => (d.nodes a).delivery)
  released : d'.released = d.released ++ done.filter fun a => (d.nodes a).state.isDropped

variable {d m d' : Drain α J} {a : α} {done queued requeued : List α} {limit : Option (Ptr α)}

theorem Pass.nil (d : Drain α J) (queue : QueueInner α) : Pass d { d with queue := queue } [] where
  nodes a := by simp
  dst := rfl
  released := by simp

/-- A turn, then the rest of the loop. -/
theorem Pass.cons (h : Pass d m [a]) (h' : Pass m d' done) (ha : a ∉ done) :
    Pass d d' (a :: done) := by
  have hkept : ∀ b ∈ done, m.nodes b = d.nodes b := by
    intro b hb
    have hne : b ≠ a := fun he => ha (he ▸ hb)
    rw [h.nodes b, if_neg (by simpa using hne)]
  refine ⟨fun b => ?_, ?_, ?_⟩
  · rw [h'.nodes b]
    by_cases hb : b ∈ done
    · rw [if_pos hb, hkept b hb, if_pos (List.mem_cons_of_mem a hb)]
    · rw [if_neg hb, h.nodes b]
      simp [hb]
  · have hsame : done.filterMap (fun b => (m.nodes b).delivery) =
        done.filterMap fun b => (d.nodes b).delivery :=
      List.filterMap_congr fun b hb => by rw [hkept b hb]
    rw [h'.dst, h.dst, hsame, Events.pushAll, Events.pushAll, ← List.foldl_append,
      ← List.filterMap_append]
    rfl
  · have hsame : done.filter (fun b => (m.nodes b).state.isDropped) =
        done.filter fun b => (d.nodes b).state.isDropped :=
      List.filter_congr fun b hb => by rw [hkept b hb]
    rw [h'.released, h.released, hsame, List.append_assoc, ← List.filter_append]
    rfl

/-- The nodes of `l` that `poll` puts back. -/
def Drain.staying (d : Drain α J) (l : List α) : List α := l.filter fun a => (d.nodes a).stays

theorem turn_pass (hdst : m.dst = d.dst.pushAll (d.nodes a).delivery.toList)
    (hnodes : m.nodes = Function.update d.nodes a (d.nodes a).drained)
    (hreleased : m.released =
      d.released ++ if (d.nodes a).state.isDropped then [a] else []) : Pass d m [a] where
  nodes b := by
    rw [hnodes]
    by_cases hb : b = a
    · rw [hb, Function.update_self, if_pos (by simp)]
    · rw [Function.update_of_ne hb, if_neg (by simpa using hb)]
  dst := by
    rw [hdst]
    cases h : (d.nodes a).delivery <;> simp [h]
  released := by
    rw [hreleased]
    cases h : (d.nodes a).state.isDropped <;> simp [h]

omit [DecidableEq α] in
/-- Where the node goes. -/
theorem stays_of_not_dropped (hnode : (d.nodes a).Queued)
    (hdropped : (d.nodes a).state.isDropped = false) :
    (d.nodes a).stays = (d.nodes a).state.afterPoll.isQueued := by
  unfold Node.stays
  rw [ReadinessState.isQueued_afterPoll, hnode.queued, hdropped]
  rfl

/-- **One turn of the loop**: the node is settled, and goes behind the others if it stays. -/
theorem turn_spec (limit : Option (Ptr α)) (hq : Holds d.queue queued) (ha : a ∉ queued)
    (hnode : (d.nodes a).Queued) :
    ∃ m, d.turn limit a = some (m, if (d.nodes a).stays then some (limit.getD (.data a)) else limit) ∧
      Pass d m [a] ∧ Holds m.queue (queued ++ d.staying [a]) := by
  cases hdropped : (d.nodes a).state.isDropped with
  | true =>
    have hstays : (d.nodes a).stays = false := by simp [Node.stays, hdropped]
    refine ⟨{ d with released := d.released ++ [a] }, ?_, turn_pass ?_ ?_ ?_, ?_⟩
    · simp [Drain.turn, hdropped, hstays]
    · simp [Node.delivery, hdropped, Events.pushAll]
    · simp [Node.drained, hdropped]
    · simp [hdropped]
    · simpa [Drain.staying, hstays] using hq
  | false =>
    have hstays := stays_of_not_dropped hnode hdropped
    obtain ⟨token, htoken⟩ := Option.isSome_iff_exists.mp (token_isSome (d.nodes a) hnode.position)
    let queue := if (d.nodes a).state.afterPoll.isQueued then (d.queue.enqueueNode (.data a)).1
      else d.queue
    have hqueue : Holds queue (queued ++ d.staying [a]) := by
      show Holds (if (d.nodes a).state.afterPoll.isQueued then _ else _) _
      rw [← hstays]
      cases h : (d.nodes a).stays with
      | true => simpa [Drain.staying, h] using hq.enqueueNode ha
      | false => simpa [Drain.staying, h] using hq
    cases hempty : (d.nodes a).state.effectiveReadiness.isEmpty with
    | true =>
      refine ⟨{ d with queue := queue, nodes := Function.update d.nodes a (d.nodes a).drained }, ?_,
        turn_pass ?_ rfl ?_, hqueue⟩
      · simp only [Drain.turn, hdropped, hempty, hstays, Node.drained]
        rfl
      · simp [Node.delivery, hempty, Events.pushAll]
      · simp [hdropped]
    | false =>
      have hpos := (d.nodes a).state.tokenReadPos_afterPoll
      refine ⟨{ d with
        queue := queue
        nodes := Function.update d.nodes a (d.nodes a).drained
        dst := d.dst.pushEvent ⟨(d.nodes a).state.effectiveReadiness, token⟩ (d.nodes a).job }, ?_,
        turn_pass ?_ rfl ?_, hqueue⟩
      · simp only [Drain.turn, hdropped, hempty, hstays, Node.drained, hpos, htoken,
          Function.update_idem]
        rfl
      · simp [Node.delivery, hdropped, hempty, htoken, Events.pushAll]
      · simp [hdropped]

theorem pollLoop_full (hfull : d.dst.capacity ≤ d.dst.len) (fuel : ℕ) :
    d.pollLoop limit (fuel + 1) = some d := by
  unfold Drain.pollLoop
  exact if_neg (Nat.not_lt_of_le hfull)

theorem pollLoop_empty (hroom : d.dst.len < d.dst.capacity)
    (hret : (d.queue.dequeueNode limit).2 = .empty) (fuel : ℕ) :
    d.pollLoop limit (fuel + 1) = some { d with queue := (d.queue.dequeueNode limit).1 } := by
  unfold Drain.pollLoop
  rw [if_pos hroom, ← Prod.eta (d.queue.dequeueNode limit), hret]

/-- The loop takes the first node, unless that is where it stops, and goes on. -/
theorem pollLoop_data (hroom : d.dst.len < d.dst.capacity) (hq : Holds d.queue (a :: queued))
    (hnode : (d.nodes a).Queued) (hlimit : limit ≠ some (.data a)) :
    ∃ m, (∀ fuel, d.pollLoop limit (fuel + 1) =
        m.pollLoop (if (d.nodes a).stays then some (limit.getD (.data a)) else limit) fuel) ∧
      Pass d m [a] ∧ Holds m.queue (queued ++ d.staying [a]) := by
  obtain ⟨hret, hrest⟩ := hq.dequeue_data hlimit
  obtain ⟨m, hturn, hpass, hm⟩ :=
    turn_spec (d := { d with queue := (d.queue.dequeueNode limit).1 }) limit hrest
      (List.nodup_cons.mp hq.nodup).1 hnode
  refine ⟨m, fun fuel => ?_, ⟨hpass.nodes, hpass.dst, hpass.released⟩, hm⟩
  rw [Drain.pollLoop, if_pos hroom, ← Prod.eta (d.queue.dequeueNode limit), hret]
  simp only [hturn, Option.bind_some]

/-- The loop stops at the first node that has been put back, or at the end of the queue. -/
theorem dequeue_requeued {queue : QueueInner α} (hq : Holds queue requeued)
    (hlimit : limit = requeued.head?.map .data) :
    (queue.dequeueNode limit).2 = .empty ∧ Holds (queue.dequeueNode limit).1 requeued := by
  cases requeued with
  | nil => exact hq.dequeue_nil limit
  | cons b requeued =>
    rw [hlimit]
    exact hq.dequeue_limit

/-- **The loop**, by induction on the nodes it has not come to yet. Behind them in the queue are those
it has put back, and it knows the first of these. -/
theorem pollLoop_spec (queued : List α) : ∀ {d : Drain α J} {limit : Option (Ptr α)}
    {requeued : List α}, Holds d.queue (queued ++ requeued) →
    (∀ a ∈ queued, (d.nodes a).Queued) → limit = requeued.head?.map .data →
    ∃ d' done rest, queued = done ++ rest ∧ (rest ≠ [] → d'.dst.capacity ≤ d'.dst.len) ∧
      (∀ fuel, queued.length < fuel → d.pollLoop limit fuel = some d') ∧ Pass d d' done ∧
      Holds d'.queue (rest ++ (requeued ++ d.staying done)) := by
  induction queued with
  | nil =>
    intro d limit requeued hq _ hlimit
    by_cases hroom : d.dst.len < d.dst.capacity
    · obtain ⟨hret, hq'⟩ := dequeue_requeued hq hlimit
      refine ⟨{ d with queue := (d.queue.dequeueNode limit).1 }, [], [], rfl,
        fun hne => absurd rfl hne, fun fuel hfuel => ?_, Pass.nil d _, ?_⟩
      · cases fuel with
        | zero => cases hfuel
        | succ fuel => exact pollLoop_empty hroom hret fuel
      · simpa [Drain.staying] using hq'
    · refine ⟨d, [], [], rfl, fun hne => absurd rfl hne, fun fuel hfuel => ?_, Pass.nil d d.queue, ?_⟩
      · cases fuel with
        | zero => cases hfuel
        | succ fuel => exact pollLoop_full (Nat.le_of_not_lt hroom) fuel
      · simpa [Drain.staying] using hq
  | cons a queued ih =>
    intro d limit requeued hq hnodes hlimit
    by_cases hroom : d.dst.len < d.dst.capacity
    · have hq : Holds d.queue (a :: (queued ++ requeued)) := hq
      have ha : a ∉ queued ++ requeued := (List.nodup_cons.mp hq.nodup).1
      -- the node is not where the loop stops
      have hne : limit ≠ some (.data a) := by
        rw [hlimit]
        intro he
        obtain ⟨b, hb, hba⟩ := Option.map_eq_some_iff.mp he
        obtain rfl : b = a := Ptr.data.inj hba
        exact ha (List.mem_append_right _ (List.mem_of_head? hb))
      obtain ⟨m, hloop, hpass, hm⟩ :=
        pollLoop_data hroom hq (hnodes a List.mem_cons_self) hne
      have hkept : ∀ b ∈ queued, m.nodes b = d.nodes b := by
        intro b hb
        have hba : b ≠ a := fun he => ha (he ▸ List.mem_append_left _ hb)
        rw [hpass.nodes b, if_neg (by simpa using hba)]
      have hlimit' : (if (d.nodes a).stays then some (limit.getD (.data a)) else limit) =
          (requeued ++ d.staying [a]).head?.map .data := by
        rw [hlimit]
        cases h : (d.nodes a).stays <;> cases requeued <;> simp [Drain.staying, h]
      rw [List.append_assoc] at hm
      obtain ⟨d', done, rest, rfl, hfull, hrest, hpass', hd'⟩ := ih hm
        (fun b hb => by rw [hkept b hb]; exact hnodes b (List.mem_cons_of_mem a hb)) hlimit'
      have hdone : a ∉ done := fun hb =>
        ha (List.mem_append_left _ (List.mem_append_left _ hb))
      refine ⟨d', a :: done, rest, rfl, hfull, fun fuel hfuel => ?_, hpass.cons hpass' hdone, ?_⟩
      · cases fuel with
        | zero => cases hfuel
        | succ fuel =>
          rw [hloop]
          exact hrest fuel (by simpa using hfuel)
      · have hstaying : m.staying done = d.staying done :=
          List.filter_congr fun b hb => by rw [hkept b (List.mem_append_left _ hb)]
        rw [hstaying, List.append_assoc, Drain.staying, Drain.staying, ← List.filter_append] at hd'
        exact hd'
    · refine ⟨d, [], a :: queued, rfl, fun _ => Nat.le_of_not_lt hroom, fun fuel hfuel => ?_,
        Pass.nil d d.queue, ?_⟩
      · cases fuel with
        | zero => cases hfuel
        | succ fuel => exact pollLoop_full (Nat.le_of_not_lt hroom) fuel
      · simpa [Drain.staying] using hq

theorem delivery_isSome {node : Node J} (h : node.Queued) : node.delivery.isSome =
    (!node.state.isDropped && !node.state.effectiveReadiness.isEmpty) := by
  unfold Node.delivery
  rw [← Bool.not_or]
  cases node.state.isDropped || node.state.effectiveReadiness.isEmpty with
  | true => rfl
  | false => simpa using token_isSome node h.position

theorem isQueued_drained {node : Node J} (h : node.Queued) :
    node.drained.state.isQueued = (node.state.isDropped || node.stays) := by
  unfold Node.drained Node.stays
  cases hdropped : node.state.isDropped with
  | true => simpa using h.queued
  | false => simp [ReadinessState.isQueued_afterPoll, h.queued]

/-- A node that is put back has its flag, and the poller now reads where the last update wrote. -/
theorem drained_queued {node : Node J} (h : node.Queued) (hstays : node.stays = true) :
    node.drained.Queued where
  queued := by rw [isQueued_drained h, hstays, Bool.or_true]
  position := by
    unfold Node.drained
    split
    · exact h.position
    · show Position node.state.afterPoll.tokenWritePos
      rw [ReadinessState.tokenWritePos_afterPoll]
      exact h.position

end Pass

/-! ## With room for all -/

section Room
variable {dst : Events J}

theorem pushEvent_room (hroom : dst.len < dst.capacity) (e : Event × J) :
    (dst.pushEvent e.1 e.2).len = dst.len + 1 ∧ (dst.pushEvent e.1 e.2).capacity = dst.capacity := by
  have hne : dst.entries.items.length ≠ dst.entries.capacity := Nat.ne_of_lt hroom
  refine ⟨?_, if_neg hne⟩
  show (dst.entries.items ++ [_]).length = dst.entries.items.length + 1
  simp

/-- With room for all of them, that is what the buffer is filled with. -/
theorem pushAll_room (l : List (Event × J)) : ∀ {dst : Events J},
    dst.len + l.length ≤ dst.capacity →
    dst.pushAll l = dst.fill l ∧ (dst.pushAll l).len = dst.len + l.length ∧
      (dst.pushAll l).capacity = dst.capacity ∧ (dst.pushAll l).entries.items =
        dst.entries.items ++ l.map fun e => ⟨e.1.token, e.2, Ready.empty⟩ := by
  induction l with
  | nil =>
    intro dst _
    simp [Events.pushAll, Events.fill]
  | cons e l ih =>
    intro dst hroom
    rw [List.length_cons] at hroom
    obtain ⟨hlen, hcap⟩ := pushEvent_room (show dst.len < dst.capacity by omega) e
    have hrest : (dst.pushEvent e.1 e.2).len + l.length ≤ (dst.pushEvent e.1 e.2).capacity := by omega
    obtain ⟨hfill, hlen', hcap', hitems⟩ := ih hrest
    refine ⟨?_, ?_, hcap'.trans hcap, ?_⟩
    · unfold Events.fill
      rw [if_pos (by omega)]
      exact hfill
    · rw [List.length_cons]
      show ((dst.pushEvent e.1 e.2).pushAll l).len = _
      omega
    · show ((dst.pushEvent e.1 e.2).pushAll l).entries.items = _
      rw [hitems]
      simp [Events.pushEvent]

variable [DecidableEq α]

theorem poll_pass {d : Drain α J} {queued : List α} (hq : Holds d.queue queued)
    (hnodes : ∀ a ∈ queued, (d.nodes a).Queued)
    (hroom : d.dst.len + queued.length ≤ d.dst.capacity) :
    ∃ d', (∀ fuel, queued.length < fuel → d.poll fuel = some d') ∧ Pass d d' queued ∧
      Holds d'.queue (d.staying queued) := by
  let queue := if d.dst.len = d.dst.capacity then d.queue.clearSleepMarker else d.queue
  have hqueue : Holds queue (queued ++ []) := by
    rw [List.append_nil]
    show Holds (if d.dst.len = d.dst.capacity then _ else _) _
    split
    · exact hq.clearSleepMarker
    · exact hq
  have hpoll : ∀ fuel, d.poll fuel = { d with queue := queue }.pollLoop none fuel := by
    intro fuel
    unfold Drain.poll
    by_cases hfull : d.dst.len = d.dst.capacity
    · rw [if_pos hfull, show queue = d.queue.clearSleepMarker from if_pos hfull]
    · rw [if_neg hfull, show queue = d.queue from if_neg hfull]
  obtain ⟨d', done, rest, rfl, hfull, hloop, hpass, hd'⟩ :=
    pollLoop_spec (d := { d with queue := queue }) queued hqueue hnodes rfl
  have hrest : rest = [] := by
    by_contra hne
    have hlen := List.length_filterMap_le (fun a => (d.nodes a).delivery) done
    have hpos := List.length_pos_iff.mpr hne
    rw [List.length_append] at hroom
    obtain ⟨-, hlen', hcap, -⟩ :=
      pushAll_room (done.filterMap fun a => (d.nodes a).delivery) (show d.dst.len + _ ≤ _ by omega)
    have hfull := hfull hne
    rw [hpass.dst] at hfull
    dsimp only at hfull
    omega
  subst hrest
  rw [List.append_nil] at hloop ⊢
  refine ⟨d', fun fuel hfuel => ?_, ⟨hpass.nodes, hpass.dst, hpass.released⟩, hd'⟩
  rw [hpoll]
  exact hloop fuel hfuel

/-- **One drain pass.** From a consistent queue of any nodes, wherever its markers are, and with room for
an event of each, `poll` ends; it has pushed one event for each node that is not dropped and is ready,
in order, released the dropped ones, and taken the queued flag from those that are not dropped and are
edge-triggered or not ready. What it leaves in the queue are the ready ones that are not edge-triggered,
in their order, and the queue is consistent again. -/
theorem poll_drains (d : Drain α J) (queued : List α) (hq : Holds d.queue queued)
    (hnodes : ∀ a ∈ queued, (d.nodes a).Queued)
    (hroom : d.dst.len + queued.length ≤ d.dst.capacity) :
    ∃ d', (∀ fuel, queued.length < fuel → d.poll fuel = some d') ∧
      (d'.dst = d.dst.fill (queued.filterMap fun a => (d.nodes a).delivery) ∧
        d'.dst.entries.items = d.dst.entries.items ++ (queued.filterMap fun a =>
          (d.nodes a).delivery).map fun e => ⟨e.1.token, e.2, Ready.empty⟩) ∧
      (∀ a ∈ queued, (d.nodes a).delivery.isSome =
        (!(d.nodes a).state.isDropped && !(d.nodes a).state.effectiveReadiness.isEmpty)) ∧
      d'.released = d.released ++ queued.filter (fun a => (d.nodes a).state.isDropped) ∧
      (∀ a ∈ queued, (d'.nodes a).state.isQueued = false ↔ (d.nodes a).state.isDropped = false ∧
        ((d.nodes a).state.pollOpt.isEdge = true ∨
          (d.nodes a).state.effectiveReadiness.isEmpty = true)) ∧
      (∀ a ∉ queued, d'.nodes a = d.nodes a) ∧
      Holds d'.queue (queued.filter fun a => (d.nodes a).stays) ∧
      ∀ a ∈ queued.filter fun a => (d.nodes a).stays, (d'.nodes a).Queued := by
  obtain ⟨d', hpoll, hpass, hd'⟩ := poll_pass hq hnodes hroom
  have hlen := List.length_filterMap_le (fun a => (d.nodes a).delivery) queued
  obtain ⟨hfill, -, -, hitems⟩ :=
    pushAll_room (queued.filterMap fun a => (d.nodes a).delivery) (show d.dst.len + _ ≤ _ by omega)
  have hdrained : ∀ a ∈ queued, d'.nodes a = (d.nodes a).drained := by
    intro a ha
    rw [hpass.nodes a, if_pos ha]
  refine ⟨d', hpoll, ⟨hpass.dst.trans hfill, ?_⟩, fun a ha => delivery_isSome (hnodes a ha),
    hpass.released, fun a ha => ?_, fun a ha => ?_, hd', fun a ha => ?_⟩
  · rw [hpass.dst, hitems]
  · rw [hdrained a ha, isQueued_drained (hnodes a ha)]
    cases hdropped : (d.nodes a).state.isDropped <;>
      cases hempty : (d.nodes a).state.effectiveReadiness.isEmpty <;>
        simp [Node.stays, hdropped, hempty]
  · rw [hpass.nodes a, if_neg ha]
  · obtain ⟨hmem, hstays⟩ := List.mem_filter.mp ha
    rw [hdrained a hmem]
    exact drained_queued (hnodes a hmem) hstays

omit [DecidableEq α] in
/-- What the accesses of any number of threads leave, with nobody inside `enqueue_node`, is such a
queue. -/
theorem Tokens.Ok.drains {ι : Type v} [DecidableEq ι] {s : Tokens ι α J} (h : s.Ok)
    (hbusy : ∀ o, s.regs.polling.queue.busy o = none) :
    Holds s.regs.polling.queue.inner s.regs.polling.queue.pending ∧
      ∀ a ∈ s.regs.polling.queue.pending, (s.regs.nodes a).Queued := by
  obtain ⟨nodes, hsound⟩ := h.owned.sound
  refine ⟨hsound.holds hbusy, fun a ha => ⟨?_, h.write a⟩⟩
  exact h.owned.books.flagged a .queue ha

/-- A level-triggered and an edge-triggered node that are ready, a dropped one, and one that is not
ready. -/
def mixedNode : ℕ → Node ℕ
  | 0 => { Node.new ⟨.tokenEvent, ⟨7⟩⟩ .readable .level with
      state := ((ReadinessState.new .readable .level).setReadiness .readable).setQueued }
  | 1 => { Node.new ⟨.tokenEvent, ⟨8⟩⟩ .readable .edge with
      state := ((ReadinessState.new .readable .edge).setReadiness .readable).setQueued }
  | 2 => { Node.new ⟨.tokenEvent, ⟨9⟩⟩ .readable .level with
      state := (ReadinessState.new .readable .level).flagAsDropped }
  | _ => { Node.new ⟨.tokenEvent, ⟨10⟩⟩ .readable .level with
      state := (ReadinessState.new .readable .level).setQueued }

def mixedDrain : Drain ℕ ℕ where
  queue := ((((QueueInner.new.enqueueNode (.data 0)).1.enqueueNode (.data 1)).1.enqueueNode
    (.data 2)).1.enqueueNode (.data 3)).1
  nodes := mixedNode
  dst := Events.withCapacity 4
  released := []

theorem poll_drains_mixed : ∃ d', mixedDrain.poll 5 = some d' ∧ d'.released = [2] ∧
    d'.dst.entries.items.length = 2 ∧ Holds d'.queue [0] := by
  have hq : Holds mixedDrain.queue [0, 1, 2, 3] :=
    (((holds_new.enqueueNode (a := 0) (by decide)).enqueueNode (a := 1) (by decide)).enqueueNode
      (a := 2) (by decide)).enqueueNode (a := 3) (by decide)
  have hwords : ∀ a ∈ [0, 1, 2, 3], (mixedDrain.nodes a).state.isQueued = true ∧
      (mixedDrain.nodes a).state.tokenWritePos = 0 := by decide
  have hnodes : ∀ a ∈ [0, 1, 2, 3], (mixedDrain.nodes a).Queued := fun a ha =>
    ⟨(hwords a ha).1, .inl (hwords a ha).2⟩
  obtain ⟨d', hpoll, ⟨-, hitems⟩, -, hreleased, -, -, hd', -⟩ :=
    poll_drains mixedDrain [0, 1, 2, 3] hq hnodes (by decide)
  refine ⟨d', hpoll 5 (by decide), hreleased.trans (by decide), ?_, ?_⟩
  · rw [hitems, List.length_append, List.length_map]
    decide
  · exact hd'

end Room

end MyMio

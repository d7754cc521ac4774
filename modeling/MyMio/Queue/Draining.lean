import MyMio.Queue.Pending

/-! # A queue that is being drained

Once `ReadinessQueue::drop` in `src/poll.rs` has swapped the head for the closed marker, nobody swaps it
any more: a producer that comes later finds the closed marker there, and so does `dequeue_node` with
the end marker. What is left is to link what has been swapped in, and to take it out.
-/

namespace MyMio
set_option autoImplicit false

open BrokenQueue StepSystem

universe u v

variable {ι : Type v} {α : Type u}

/-! ## The invariant -/

/-- Who is inside `enqueue_node` and got past the closed marker; `none` is `drop`, about to link the
marker. -/
def Queue.draining (q : Queue ι α) (edge : Option (Ptr α)) : Busy (Ptr α) (Option ι)
  | some i => (q.producers i).busy
  | none => edge.map fun prev => (.closedMarker, .link prev)

/-- Where the loop of `drop` can be in `dequeue_node`. -/
def Consumer.Drains (tail : Ptr α) : Consumer α → Prop
  | .returned _ | .dequeueTail none | .dequeueNext none | .dequeueHead => True
  | .dequeueEnd phase => tail = .closedMarker ∧
      (phase = .start ∨ phase = .load ∨ phase = .exchange .closedMarker)
  | .dequeueLast => tail = .closedMarker
  | _ => False

structure Draining (q : Queue ι α) (edge : Option (Ptr α)) (nodes : List (Ptr α)) : Prop where
  broken : Broken q.mem q.tail (q.draining edge) nodes
  content : q.enqueued.map .data = q.dequeued ++ nodes.filter Ptr.isData
  head : q.mem.head = .closedMarker
  consumer : q.consumer.Drains q.tail

section Facts
variable {q q' : Queue ι α} {edge : Option (Ptr α)} {nodes : List (Ptr α)} {i : ι} {a : α}

theorem Draining.pending_eq (h : Draining q edge nodes) :
    q.pending.map .data = nodes.filter Ptr.isData := by
  unfold Queue.pending
  rw [List.map_drop, h.content, List.drop_left]

theorem Draining.mem_pending (h : Draining q edge nodes) (ha : .data a ∈ nodes) : a ∈ q.pending := by
  have hfilter : Ptr.data a ∈ nodes.filter Ptr.isData := List.mem_filter.mpr ⟨ha, rfl⟩
  rw [← h.pending_eq] at hfilter
  obtain ⟨b, hb, he⟩ := List.mem_map.mp hfilter
  exact Ptr.data.inj he ▸ hb

theorem Draining.pending_nodup (h : Draining q edge nodes) : q.pending.Nodup := by
  have hnodup : (nodes.filter Ptr.isData).Nodup := h.broken.nodup.filter _
  rw [← h.pending_eq] at hnodup
  exact hnodup.of_map _

/-- With the tail at the closed marker the queue is empty. -/
theorem Draining.pending_nil (h : Draining q edge nodes) (htail : q.tail = .closedMarker) :
    q.pending = [] := by
  have hpending := h.pending_eq
  rw [h.broken.single (h.head.trans htail.symm), htail] at hpending
  exact List.map_eq_nil_iff.mp hpending

section Producer
variable [DecidableEq ι] (mem : Mem (Ptr α)) (tail : Ptr α) (enqueued : List α)
  (dequeued : List (Ptr α))

theorem draining_producer (p : Producer α) :
    (Queue.mk mem tail (Function.update q.producers i p) q.consumer enqueued dequeued).draining edge =
      Function.update (q.draining edge) (some i) p.busy := by
  funext o
  cases o with
  | none =>
    rw [Function.update_of_ne (by simp)]
    rfl
  | some j =>
    show (Function.update q.producers i p j).busy = _
    by_cases hj : j = i
    · subst hj
      rw [Function.update_self, Function.update_self]
    · rw [Function.update_of_ne hj, Function.update_of_ne fun he => hj (Option.some.inj he)]
      rfl

end Producer

/-! ## The swap -/

/-- **The closed marker is swapped in.** -/
theorem Sound.close (h : Sound q nodes) (hrest : q.consumer.AtRest)
    (hnext : q.mem.next .closedMarker = none) :
    Draining { q with mem := { q.mem with head := .closedMarker } } (some q.mem.head)
      (nodes ++ [.closedMarker]) := by
  classical
  obtain ⟨ret, hret⟩ := hrest
  have hidle : q.busy none = none := by rw [busy_none, hret]; rfl
  have hfree : ∀ o p, q.busy o ≠ some (.closedMarker, p) := by
    intro o p ho
    cases o with
    | none =>
      rw [hidle] at ho
      cases ho
    | some j =>
      rw [busy_some] at ho
      cases hj : q.producers j <;> rw [hj] at ho <;> simp [Producer.busy] at ho
  have hwaiting := h.broken.wait (o := none) (p := .exchange q.mem.head) trivial
    (by simp [hidle]) (fun o p _ => hfree o p) h.closed fun _ => hnext
  have hpushed := hwaiting.push (Function.update_self _ _ _)
  have hbusy : Function.update (Function.update q.busy none (some (.closedMarker, .exchange q.mem.head)))
      none (some (.closedMarker, .link q.mem.head)) = q.draining (some q.mem.head) := by
    funext o
    cases o with
    | none => rw [Function.update_self]; rfl
    | some j => rw [Function.update_of_ne (by simp), Function.update_of_ne (by simp)]; rfl
  rw [hbusy] at hpushed
  refine ⟨hpushed, ?_, rfl, ?_⟩
  · rw [List.filter_append]
    exact h.content.trans (by simp [Ptr.isData])
  · show q.consumer.Drains q.tail
    rw [hret]
    trivial

theorem Draining.link [DecidableEq α] {prev : Ptr α} (h : Draining q (some prev) nodes) :
    Draining { q with mem := { q.mem with next := Function.update q.mem.next prev (some .closedMarker) } }
      none nodes := by
  classical
  have hlinked := h.broken.link (o := none) (x := prev) (y := .closedMarker) rfl
  have hbusy : Function.update (q.draining (some prev)) none none = q.draining none := by
    funext o
    cases o with
    | none => rw [Function.update_self]; rfl
    | some j => rw [Function.update_of_ne (by simp)]; rfl
  rw [hbusy] at hlinked
  exact ⟨hlinked, h.content, h.head, h.consumer⟩

end Facts

/-! ## The producers -/

section Producers
variable [DecidableEq ι] {q q' : Queue ι α} {edge : Option (Ptr α)} {nodes : List (Ptr α)} {i : ι}
  {a : α}

/-- A producer sets out with a node that is neither in the queue nor with another one. -/
theorem Draining.begin (h : Draining q edge nodes) (hi : q.producers i = .idle) (ha : a ∉ q.pending)
    (howed : ∀ j, (q.producers j).owed ≠ some a) :
    Draining { q with producers := Function.update q.producers i (.enqueue a .start) } edge nodes := by
  have hnot : .data a ∉ nodes := fun hm => ha (h.mem_pending hm)
  have hidle : q.draining edge (some i) = none := by
    show (q.producers i).busy = none
    rw [hi]
    rfl
  have hfree : ∀ o p, q.draining edge o ≠ some (.data a, p) := by
    intro o p ho
    cases o with
    | none =>
      obtain ⟨prev, -, he⟩ := Option.map_eq_some_iff.mp ho
      cases he
    | some j =>
      change (q.producers j).busy = _ at ho
      have hj := howed j
      cases hp : q.producers j with
      | enqueue b phase =>
        rw [hp] at ho hj
        obtain ⟨he, rfl⟩ := Prod.mk.inj (Option.some.inj ho)
        obtain rfl := Ptr.data.inj he
        cases phase with
        | link prev =>
          obtain ⟨-, xs, ys, hl⟩ := h.broken.linking (some j) prev (.data b) (by
            show (q.producers j).busy = _
            rw [hp]
            rfl)
          exact hnot (by rw [hl]; simp)
        | _ => exact hj rfl
      | _ =>
        rw [hp] at ho
        cases ho
  refine ⟨?_, h.content, h.head, h.consumer⟩
  rw [draining_producer]
  exact h.broken.wait (p := .start) trivial (by simp [hidle]) (fun o p _ => hfree o p) hnot
    fun hp => absurd rfl hp

/-- What an access of a producer does: it finds the closed marker, or its node stays where it is. -/
inductive DrainProducer (q q' : Queue ι α) (i : ι) : Prop
  | refused (a : α) : q.producers i = .enqueue a (.exchange .closedMarker) →
      (∀ j, (q'.producers j).owed = if j = i then none else (q.producers j).owed) →
      DrainProducer q q' i
  | stays : (∀ a, q.producers i ≠ .enqueue a (.exchange .closedMarker)) →
      (∀ j, (q'.producers j).owed = (q.producers j).owed) → DrainProducer q q' i

variable [DecidableEq α]

theorem Draining.producerStep (h : Draining q edge nodes) (hs : q.producerStep i = some q') :
    Draining q' edge nodes ∧ q'.consumer = q.consumer ∧ q'.pending = q.pending ∧ q'.tail = q.tail ∧
      DrainProducer q q' i := by
  have howed : ∀ (p : Producer α), p.owed = (q.producers i).owed → ∀ j,
      (Function.update q.producers i p j).owed = (q.producers j).owed := by
    intro p hp j
    by_cases hj : j = i
    · rw [hj, Function.update_self, hp]
    · rw [Function.update_of_ne hj]
  unfold Queue.producerStep at hs
  cases hi : q.producers i with
  | idle => simp [hi] at hs
  | wakeup =>
    simp only [hi, Option.some.injEq] at hs
    subst hs
    refine ⟨⟨?_, h.content, h.head, h.consumer⟩, rfl, rfl, rfl, .stays (by simp [hi]) ?_⟩
    · rw [draining_producer]
      have hidle : q.draining edge (some i) = (Producer.idle : Producer α).busy := by
        show (q.producers i).busy = _
        rw [hi]
        rfl
      rw [← hidle, Function.update_eq_self]
      exact h.broken
    · exact howed _ (by rw [hi]; rfl)
  | enqueue a phase =>
    simp only [hi, Option.some.injEq] at hs
    have ho : q.draining edge (some i) = some (.data a, phase) := by
      show (q.producers i).busy = _
      rw [hi]
      rfl
    have hlink : phase.Waiting → ∀ x z, q.draining edge (some i) ≠ some (z, .link x) := by
      intro hw x z he
      rw [ho] at he
      obtain ⟨-, rfl⟩ := Prod.mk.inj (Option.some.inj he)
      exact hw
    have hfree := h.broken.not_busy ho
    cases phase with
    | start =>
      subst hs
      obtain ⟨hnot, -⟩ := h.broken.waiting _ _ _ ho trivial
      refine ⟨⟨?_, h.content, h.head, h.consumer⟩, rfl, rfl, rfl, .stays (by simp [hi]) ?_⟩
      · rw [draining_producer]
        exact (h.broken.clear hnot).wait (p := .load) trivial (hlink trivial) hfree hnot
          fun _ => Function.update_self _ _ _
      · exact howed _ (by rw [hi]; rfl)
    | load =>
      subst hs
      obtain ⟨hnot, hnext⟩ := h.broken.waiting _ _ _ ho trivial
      refine ⟨⟨?_, h.content, h.head, h.consumer⟩, rfl, rfl, rfl, .stays (by simp [hi]) ?_⟩
      · rw [draining_producer]
        exact h.broken.wait (p := .exchange q.mem.head) trivial (hlink trivial) hfree hnot
          fun _ => hnext (by simp)
      · exact howed _ (by rw [hi]; rfl)
    | exchange prev =>
      obtain ⟨hnot, hnext⟩ := h.broken.waiting _ _ _ ho trivial
      by_cases hprev : prev = .closedMarker
      · subst hprev
        simp only [enqueueNode, swaps, if_true, ne_eq, not_true_eq_false, decide_false, Bool.false_and,
          Bool.false_eq_true, if_false] at hs
        subst hs
        refine ⟨⟨?_, h.content, h.head, h.consumer⟩, rfl, rfl, rfl, .refused a hi fun j => ?_⟩
        · rw [draining_producer]
          exact h.broken.leave (hlink trivial)
        · show (Function.update q.producers i _ j).owed = _
          by_cases hj : j = i
          · rw [hj, Function.update_self, if_pos rfl]
            rfl
          · rw [Function.update_of_ne hj, if_neg hj]
      · have hmoved : q.mem.head ≠ prev := fun he => hprev (he.symm.trans h.head)
        simp only [enqueueNode, swaps, hprev, hmoved, if_false, decide_false, Bool.and_false,
          Bool.false_eq_true] at hs
        subst hs
        refine ⟨⟨?_, h.content, h.head, h.consumer⟩, rfl, rfl, rfl, .stays (by simp [hi, hprev]) ?_⟩
        · rw [draining_producer]
          exact h.broken.wait (p := .exchange q.mem.head) trivial (hlink trivial) hfree hnot
            fun _ => hnext (by simp)
        · exact howed _ (by rw [hi]; rfl)
    | link prev =>
      subst hs
      refine ⟨⟨?_, h.content, h.head, h.consumer⟩, rfl, rfl, rfl, .stays (by simp [hi]) ?_⟩
      · rw [draining_producer]
        have hidle : (Producer.after a (.done (decide (prev = Ptr.sleepMarker)))).busy = none := by
          unfold Producer.after
          dsimp only
          split <;> rfl
        exact hidle ▸ h.broken.link ho
      · refine howed _ ?_
        rw [hi]
        unfold Producer.after
        dsimp only [enqueueNode]
        split <;> rfl

end Producers

/-! ## The loop of `drop` -/

/-- What an access of `drop` to the queue does to the nodes in it. -/
inductive DrainMove (q q' : Queue ι α) : Prop
  | stays : q'.pending = q.pending → (∀ ptr, q'.consumer ≠ .returned (.dequeue (.data ptr))) →
      DrainMove q q'
  | takes (a : α) : q.pending = a :: q'.pending →
      q'.consumer = .returned (.dequeue (.data (.data a))) → DrainMove q q'

section Loop
variable {q q' : Queue ι α} {edge : Option (Ptr α)} {nodes : List (Ptr α)}

theorem Draining.move (h : Draining q edge nodes) {c : Consumer α} (hc : c.Drains q.tail) :
    Draining { q with consumer := c } edge nodes :=
  ⟨h.broken, h.content, h.head, hc⟩

/-- A node with one after it is left behind; a data node is dequeued. -/
theorem Draining.advance (h : Draining q edge nodes) {next : Ptr α} {c : Consumer α}
    {o : List (Ptr α)} (hnext : q.mem.next q.tail = some next)
    (hout : o = q.dequeued ++ [q.tail].filter Ptr.isData) (hc : c.Drains next) :
    ∃ nodes', Draining { q with tail := next, consumer := c, dequeued := o } edge nodes' := by
  obtain ⟨rest, rfl⟩ := h.broken.next_eq hnext
  refine ⟨next :: rest, h.broken.advance hnext, ?_, h.head, hc⟩
  show q.enqueued.map .data = o ++ (next :: rest).filter Ptr.isData
  rw [h.content, hout, List.append_assoc, ← List.filter_append]
  rfl

variable [DecidableEq α]

theorem Draining.checkTail (h : Draining q edge nodes)
    (hs : q' = q.checkTail none (q.mem.next q.tail))
    (hdata : ∀ ptr, q'.consumer = .returned (.dequeue (.data ptr)) → ptr.isData = true) :
    (∃ nodes', Draining q' edge nodes') ∧ q'.producers = q.producers ∧ DrainMove q q' ∧
      q'.consumer ≠ .returned (.dequeue .empty) := by
  unfold Queue.checkTail at hs
  rw [if_neg (by simp)] at hs
  cases hnext : q.mem.next q.tail with
  | none =>
    rw [hnext] at hs
    subst hs
    exact ⟨⟨nodes, h.move trivial⟩, rfl, .stays rfl (by simp), by simp⟩
  | some next =>
    rw [hnext] at hs
    subst hs
    have htail : q.tail.isData = true := hdata q.tail rfl
    obtain ⟨nodes', h'⟩ := h.advance (c := .returned (.dequeue (.data q.tail)))
      (o := q.dequeued ++ [q.tail]) hnext (by simp [htail]) trivial
    obtain ⟨a, ha, hpending⟩ := takeTail_pending (q := q) next h'.content
    refine ⟨⟨nodes', h'⟩, rfl, .takes a hpending ?_, by simp [Queue.takeTail]⟩
    show Consumer.returned (.dequeue (.data q.tail)) = _
    rw [ha]

/-- **One access of `drop` to the queue**, unless it finds a marker whose next node is still to be
linked. It only sees the queue empty with the tail at the closed marker. -/
theorem Draining.consumerStep (h : Draining q edge nodes) (hs : q.consumerStep = some q')
    (hlinked : q.consumer = .dequeueTail none → q.tail.isData = false →
      q.mem.next q.tail = none → q.tail = .closedMarker)
    (hdata : ∀ ptr, q'.consumer = .returned (.dequeue (.data ptr)) → ptr.isData = true) :
    (∃ nodes', Draining q' edge nodes') ∧ q'.producers = q.producers ∧ DrainMove q q' ∧
      (q'.consumer = .returned (.dequeue .empty) → q'.tail = .closedMarker) := by
  have hat := h.consumer
  unfold Queue.consumerStep at hs
  cases hc : q.consumer with
  | returned ret => simp [hc] at hs
  | dequeueTail limit =>
    rw [hc] at hat
    obtain rfl : limit = none := by
      cases limit with
      | none => rfl
      | some ptr => exact hat.elim
    simp only [hc] at hs
    split at hs
    · obtain ⟨hq, hproducers, hmove, hempty⟩ := h.checkTail (Option.some.inj hs).symm hdata
      exact ⟨hq, hproducers, hmove, fun he => absurd he hempty⟩
    · rename_i hmark
      cases hnext : q.mem.next q.tail with
      | none =>
        rw [hnext] at hs
        have htail := hlinked hc (by simpa using hmark) hnext
        have hclear : q.clear (.dequeue .empty) = { q with consumer := .returned (.dequeue .empty) } := by
          unfold Queue.clear
          rw [if_neg (by simp [htail])]
        rw [hclear] at hs
        obtain rfl := Option.some.inj hs
        exact ⟨⟨nodes, h.move trivial⟩, rfl, .stays rfl (by simp), fun _ => htail⟩
      | some next =>
        rw [hnext] at hs
        obtain rfl := Option.some.inj hs
        exact ⟨h.advance (c := .dequeueNext none) hnext (by simp [hmark]) trivial, rfl,
          .stays rfl (by simp), fun he => by cases he⟩
  | dequeueNext limit =>
    rw [hc] at hat
    obtain rfl : limit = none := by
      cases limit with
      | none => rfl
      | some ptr => exact hat.elim
    simp only [hc] at hs
    obtain ⟨hq, hproducers, hmove, hempty⟩ := h.checkTail (Option.some.inj hs).symm hdata
    exact ⟨hq, hproducers, hmove, fun he => absurd he hempty⟩
  | dequeueHead =>
    simp only [hc] at hs
    split at hs
    · rename_i hhead
      obtain rfl := Option.some.inj hs
      exact ⟨⟨nodes, h.move ⟨hhead.symm.trans h.head, .inl rfl⟩⟩, rfl, .stays rfl (by simp),
        fun he => by cases he⟩
    · obtain rfl := Option.some.inj hs
      exact ⟨⟨nodes, h.move trivial⟩, rfl, .stays rfl (by simp), fun he => by cases he⟩
  | dequeueEnd phase =>
    rw [hc] at hat
    simp only [hc] at hs
    obtain ⟨htail, rfl | rfl | rfl⟩ := hat
    · obtain rfl := Option.some.inj hs
      have hend : .endMarker ∉ nodes := by
        rw [h.broken.single (h.head.trans htail.symm), htail]
        simp
      exact ⟨⟨nodes, h.broken.clear hend, h.content, h.head, htail, .inr (.inl rfl)⟩, rfl,
        .stays rfl (by simp [enqueueNode, Consumer.afterEnd]), fun he => by cases he⟩
    · obtain rfl := Option.some.inj hs
      refine ⟨⟨nodes, h.broken, h.content, h.head, htail, .inr (.inr ?_)⟩, rfl,
        .stays rfl (by simp [enqueueNode, Consumer.afterEnd]), fun he => by cases he⟩
      rw [h.head]
    · simp only [enqueueNode, if_true] at hs
      obtain rfl := Option.some.inj hs
      exact ⟨⟨nodes, h.move htail⟩, rfl, .stays rfl (by simp [Consumer.afterEnd]),
        fun he => by cases he⟩
  | dequeueLast =>
    rw [hc] at hat
    have htail : q.tail = .closedMarker := hat
    have hnext : q.mem.next q.tail = none := by
      rw [htail, ← h.head]
      exact h.broken.ends
    simp only [hc, hnext] at hs
    obtain rfl := Option.some.inj hs
    exact ⟨⟨nodes, h.move trivial⟩, rfl, .stays rfl (by simp), fun he => by cases he⟩
  | clearStore | clearExchange | sleepHead | sleepStore | sleepExchange | requeue =>
    rw [hc] at hat
    exact hat.elim

end Loop

end MyMio

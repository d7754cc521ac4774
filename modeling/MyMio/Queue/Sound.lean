import MyMio.Queue.Model

/-! # The queue is sound

`Sound q nodes`: `nodes` is the queue from the tail to the head, broken where an enqueuer is between
its swap and its link; its data nodes are what has been enqueued and not dequeued yet, in order; and
of the two markers the sleep marker is only ever at the tail, and then the end marker is not in
the queue. `queueStep_sound` keeps this over every access of every party.
-/

namespace MyMio
set_option autoImplicit false

open BrokenQueue StepSystem

universe u v

variable {ι : Type v} {α : Type u}

/-! ## Who is busy -/

@[simp] theorem busy_some (q : Queue ι α) (i : ι) : q.busy (some i) = (q.producers i).busy := rfl

@[simp] theorem busy_none (q : Queue ι α) : q.busy none = q.consumer.busy := rfl

section Busy
variable (q : Queue ι α) (mem : Mem (Ptr α)) (tail : Ptr α) (enqueued : List α)
  (dequeued : List (Ptr α))

theorem busy_idle {c : Consumer α} (hb : q.consumer.busy = none) (hb' : c.busy = none) :
    (Queue.mk mem tail q.producers c enqueued dequeued).busy = q.busy := by
  funext o
  cases o with
  | none => rw [busy_none, busy_none, hb, hb']
  | some j => rfl

variable [DecidableEq ι]

theorem busy_producer (i : ι) (p : Producer α) :
    (Queue.mk mem tail (Function.update q.producers i p) q.consumer enqueued dequeued).busy =
      Function.update q.busy (some i) p.busy := by
  funext o
  cases o with
  | none => rw [Function.update_of_ne (by simp), busy_none, busy_none]
  | some j =>
    show (Function.update q.producers i p j).busy = _
    by_cases hj : j = i
    · subst hj
      rw [Function.update_self, Function.update_self]
    · rw [Function.update_of_ne hj, Function.update_of_ne fun h => hj (Option.some.inj h), busy_some]

theorem busy_consumer (c : Consumer α) :
    (Queue.mk mem tail q.producers c enqueued dequeued).busy =
      Function.update q.busy none c.busy := by
  funext o
  cases o with
  | none => rw [Function.update_self, busy_none]
  | some j => rw [Function.update_of_ne (by simp), busy_some, busy_some]

end Busy

/-! ## The invariant -/

def Consumer.At (mem : Mem (Ptr α)) (tail : Ptr α) : Consumer α → Prop
  | .dequeueNext _ | .dequeueHead | .dequeueEnd _ | .dequeueLast => tail.isData = true
  | .clearStore _ | .sleepHead => tail = .sleepMarker
  | .clearExchange _ => tail = .sleepMarker ∧ mem.next .endMarker = none
  | .sleepStore => tail = .endMarker
  | .sleepExchange => tail = .endMarker ∧ mem.next .sleepMarker = none
  | .returned _ | .dequeueTail _ | .requeue _ _ => True

structure Sound (q : Queue ι α) (nodes : List (Ptr α)) : Prop where
  broken : Broken q.mem q.tail q.busy nodes
  content : q.enqueued.map .data = q.dequeued ++ nodes.filter Ptr.isData
  closed : .closedMarker ∉ nodes
  sleep : .sleepMarker ∈ nodes → q.tail = .sleepMarker ∧ .endMarker ∉ nodes
  prev : ∀ o y prev, q.busy o = some (y, .exchange prev) → prev ≠ .closedMarker
  consumer : q.consumer.At q.mem q.tail

section Facts
variable {q q' : Queue ι α} {nodes : List (Ptr α)}

theorem sound_new : Sound (Queue.new : Queue ι α) [.endMarker] where
  broken := broken_single fun o => by cases o <;> rfl
  content := rfl
  closed := by simp
  sleep h := by simp at h
  prev o y prev h := by cases o <;> cases h
  consumer := trivial

theorem Sound.head_ne_closed (h : Sound q nodes) : q.mem.head ≠ .closedMarker :=
  fun he => h.closed (he ▸ h.broken.head_mem)

theorem Sound.not_mem (h : Sound q nodes) {a : α} (ha : q.Free a) : .data a ∉ nodes := by
  intro hm
  have hfilter : Ptr.data a ∈ nodes.filter Ptr.isData := List.mem_filter.mpr ⟨hm, rfl⟩
  have hdrop : (q.enqueued.drop q.dequeued.length).map .data = nodes.filter Ptr.isData := by
    rw [List.map_drop, h.content, List.drop_left]
  rw [← hdrop] at hfilter
  obtain ⟨b, hb, he⟩ := List.mem_map.mp hfilter
  exact ha.1 (Ptr.data.inj he ▸ hb)

theorem end_free (hb : q.consumer.busy = none) (o : Option ι) (p : Phase (Ptr α)) :
    q.busy o ≠ some (.endMarker, p) := by
  cases o with
  | none => simp [hb]
  | some i =>
    rw [busy_some]
    cases q.producers i <;> simp [Producer.busy]

theorem sleep_free (o : Option ι) (p : Phase (Ptr α)) :
    q.busy o ≠ some (.sleepMarker, p) := by
  cases o with
  | none =>
    rw [busy_none]
    cases q.consumer <;> simp [Consumer.busy]
  | some i =>
    rw [busy_some]
    cases q.producers i <;> simp [Producer.busy]

/-- What the consumer knows is about nodes outside the queue that producers do not touch. -/
theorem Sound.at_frame (h : Sound q nodes) {mem : Mem (Ptr α)}
    (hnext : ∀ z, z ∉ nodes → z.isData = false → mem.next z = q.mem.next z) :
    q.consumer.At mem q.tail := by
  have hat := h.consumer
  have htail := h.broken.tail_mem
  cases hc : q.consumer with
  | clearExchange ret =>
    rw [hc] at hat
    obtain ⟨ht, hn⟩ := hat
    exact ⟨ht, (hnext _ (h.sleep (ht ▸ htail)).2 rfl).trans hn⟩
  | sleepExchange =>
    rw [hc] at hat
    obtain ⟨ht, hn⟩ := hat
    refine ⟨ht, (hnext _ (fun hm => ?_) rfl).trans hn⟩
    have := (h.sleep hm).1
    rw [ht] at this
    cases this
  | _ =>
    rw [hc] at hat
    exact hat

end Facts

/-! ## One access of `enqueue_node` -/

def EnqueueNext.busy (node : Ptr α) : EnqueueNext α → Option (Ptr α × Phase (Ptr α))
  | .goOn phase => some (node, phase)
  | .done _ => none

section EnqueueNode
variable [DecidableEq α] {q q' : Queue ι α} {nodes : List (Ptr α)} {o : Option ι} {node : Ptr α}
  {phase : Phase (Ptr α)}

/-- `enqueue_node` writes the pointers of its own node and of nodes of the queue only. -/
theorem Sound.access_next (h : Sound q nodes) (ho : q.busy o = some (node, phase)) {z : Ptr α}
    (hz : z ∉ nodes) (hne : z ≠ node) : (enqueueNode q.mem node phase).1.next z = q.mem.next z := by
  cases phase with
  | start => exact Function.update_of_ne hne _ _
  | load => rfl
  | exchange prev =>
    simp only [enqueueNode]
    split
    · rfl
    · split <;> rfl
  | link prev =>
    obtain ⟨-, xs, ys, hl⟩ := h.broken.linking o prev node ho
    exact Function.update_of_ne (fun he : z = prev => hz (by rw [hl, he]; simp)) _ _

/-- The next `compare_exchange` is against a head that was loaded, so not against the closed
marker. -/
theorem Sound.access_prev (h : Sound q nodes) {prev : Ptr α}
    (hb : (enqueueNode q.mem node phase).2.busy node = some (node, .exchange prev)) :
    prev ≠ .closedMarker := by
  have hhead := h.head_ne_closed
  cases phase with
  | start => simp [enqueueNode, EnqueueNext.busy] at hb
  | load =>
    simp only [enqueueNode, EnqueueNext.busy, Option.some.injEq, Prod.mk.injEq,
      Phase.exchange.injEq, true_and] at hb
    exact hb ▸ hhead
  | exchange prev' =>
    simp only [enqueueNode] at hb
    split at hb
    · cases hb
    · split at hb
      · simp [EnqueueNext.busy] at hb
      · simp only [EnqueueNext.busy, Option.some.injEq, Prod.mk.injEq, Phase.exchange.injEq,
          true_and] at hb
        exact hb ▸ hhead
  | link prev' => cases hb

variable [DecidableEq ι]

/-- The queue after an access of `enqueue_node`, which has grown if the access swapped the head. -/
theorem Sound.grows (h : Sound q nodes) (ho : q.busy o = some (node, phase)) :
    Broken (enqueueNode q.mem node phase).1 q.tail
      (Function.update q.busy o ((enqueueNode q.mem node phase).2.busy node))
      (if swaps q.mem phase then nodes ++ [node] else nodes) := by
  have hlink : phase.Waiting → ∀ x z, q.busy o ≠ some (z, .link x) := by
    intro hw x z he
    rw [ho] at he
    obtain ⟨-, rfl⟩ := Prod.mk.inj (Option.some.inj he)
    exact hw
  have hfree := h.broken.not_busy ho
  cases phase with
  | start =>
    obtain ⟨hnot, -⟩ := h.broken.waiting o node _ ho trivial
    exact (h.broken.clear hnot).wait (p := .load) trivial (hlink trivial) hfree hnot
      fun _ => Function.update_self _ _ _
  | load =>
    obtain ⟨hnot, hnext⟩ := h.broken.waiting o node _ ho trivial
    exact h.broken.wait (p := .exchange q.mem.head) trivial (hlink trivial) hfree hnot
      fun _ => hnext (by simp)
  | exchange prev =>
    have hprev := h.prev o node prev ho
    by_cases he : q.mem.head = prev
    · subst he
      simpa [enqueueNode, swaps, hprev, EnqueueNext.busy] using h.broken.push ho
    · obtain ⟨hnot, hnext⟩ := h.broken.waiting o node _ ho trivial
      simpa [enqueueNode, swaps, hprev, he, EnqueueNext.busy] using
        h.broken.wait (p := .exchange q.mem.head) trivial (hlink trivial) hfree hnot
          fun _ => hnext (by simp)
  | link prev => exact h.broken.link ho

/-- An access of `enqueue_node`, whoever makes it, keeps the queue sound. -/
theorem Sound.enqueued (h : Sound q nodes) (ho : q.busy o = some (node, phase))
    (hnode : node.isData = true ∨ node = .endMarker ∧ .sleepMarker ∉ nodes)
    (hmem : q'.mem = (enqueueNode q.mem node phase).1) (htail : q'.tail = q.tail)
    (hbusy : q'.busy = Function.update q.busy o ((enqueueNode q.mem node phase).2.busy node))
    (hdeq : q'.dequeued = q.dequeued)
    (henq : q'.enqueued.map .data =
      q.enqueued.map .data ++ (if swaps q.mem phase then [node] else []).filter Ptr.isData)
    (hcons : q'.consumer.At q'.mem q'.tail) :
    Sound q' (if swaps q.mem phase then nodes ++ [node] else nodes) := by
  have hmem' : ∀ z, z ∈ (if swaps q.mem phase then nodes ++ [node] else nodes) →
      z ∈ nodes ∨ z = node := by
    intro z hz
    split at hz
    · simpa using hz
    · exact .inl hz
  refine ⟨?_, ?_, fun hm => ?_, fun hm => ?_, fun o' y prev ho' => ?_, hcons⟩
  · rw [hmem, htail, hbusy]
    exact h.grows ho
  · rw [henq, h.content, hdeq]
    split <;> simp
  · rcases hmem' _ hm with hm | rfl
    · exact h.closed hm
    · rcases hnode with hd | ⟨he, -⟩
      · cases hd
      · cases he
  · rw [htail]
    rcases hmem' _ hm with hold | rfl
    · obtain ⟨ht, he⟩ := h.sleep hold
      refine ⟨ht, fun hend => ?_⟩
      rcases hmem' _ hend with hend | rfl
      · exact he hend
      · rcases hnode with hd | ⟨-, hs⟩
        · cases hd
        · exact hs hold
    · rcases hnode with hd | ⟨he, -⟩
      · cases hd
      · cases he
  · rw [hbusy] at ho'
    rcases of_update ho' with ⟨-, e⟩ | ⟨-, e⟩
    · have hy : node = y := by
        cases hn : (enqueueNode q.mem node phase).2 with
        | goOn p =>
          rw [hn] at e
          exact (Prod.mk.inj (Option.some.inj e)).1
        | done wakes =>
          rw [hn] at e
          cases e
      subst hy
      exact h.access_prev e
    · exact h.prev o' y prev e

end EnqueueNode

/-! ## The steps -/

section Steps
variable {q q' : Queue ι α} {nodes : List (Ptr α)}

theorem Sound.move (h : Sound q nodes) {c : Consumer α} (hb : q.consumer.busy = none)
    (hb' : c.busy = none) (hc : c.At q.mem q.tail) : Sound { q with consumer := c } nodes := by
  have hbusy : ({ q with consumer := c } : Queue ι α).busy = q.busy := busy_idle _ _ _ _ _ hb hb'
  exact ⟨hbusy ▸ h.broken, h.content, h.closed, h.sleep, fun o y prev ho =>
    h.prev o y prev (hbusy ▸ ho), hc⟩

/-- The consumer moves on to the node its tail points at; a data node it leaves is dequeued. -/
theorem Sound.advance (h : Sound q nodes) {next : Ptr α} {c : Consumer α} {out : List (Ptr α)}
    (hnext : q.mem.next q.tail = some next) (hb : q.consumer.busy = none) (hb' : c.busy = none)
    (hout : out = q.dequeued ++ [q.tail].filter Ptr.isData)
    (hc : next.isData = true ∨ q.tail.isData = true → c.At q.mem next) :
    ∃ nodes', Sound { q with tail := next, consumer := c, dequeued := out } nodes' := by
  obtain ⟨rest, rfl⟩ := h.broken.next_eq hnext
  have hnd := h.broken.nodup
  have htail : q.tail ∉ next :: rest := (List.nodup_cons.mp hnd).1
  have hbusy : ({ q with tail := next, consumer := c, dequeued := out } : Queue ι α).busy = q.busy :=
    busy_idle _ _ _ _ _ hb hb'
  -- the sleep marker can only have been the tail that is left
  have hsleep : .sleepMarker ∉ next :: rest := by
    intro hm
    have ht := (h.sleep (List.mem_cons_of_mem q.tail hm)).1
    exact htail (ht ▸ hm)
  have hdata : q.tail.isData = false → next.isData = true := by
    intro hmark
    cases hn : next with
    | data a => rfl
    | sleepMarker => exact absurd (hn ▸ List.mem_cons_self) hsleep
    | closedMarker => exact absurd (hn ▸ by simp) h.closed
    | endMarker =>
      cases ht : q.tail with
      | data a => simp [ht, Ptr.isData] at hmark
      | endMarker => exact absurd (ht ▸ hn ▸ List.mem_cons_self) htail
      | sleepMarker => exact absurd (hn ▸ by simp) (h.sleep (ht ▸ List.mem_cons_self)).2
      | closedMarker => exact absurd (ht ▸ List.mem_cons_self) h.closed
  refine ⟨next :: rest, hbusy ▸ h.broken.advance hnext, ?_, fun hm => h.closed
    (List.mem_cons_of_mem q.tail hm), fun hm => absurd hm hsleep, fun o y prev ho =>
    h.prev o y prev (hbusy ▸ ho), hc ?_⟩
  · show q.enqueued.map .data = out ++ (next :: rest).filter Ptr.isData
    rw [h.content, hout, List.append_assoc, ← List.filter_append]
    rfl
  · cases ht : q.tail.isData with
    | true => exact .inr rfl
    | false => exact .inl (hdata ht)

theorem Sound.returns (h : Sound q nodes) (hb : q.consumer.busy = none) (ret : Ret α) :
    Sound { q with consumer := .returned ret } nodes :=
  h.move hb rfl trivial

/-- A marker that is the whole queue is swapped for the other one. -/
theorem Sound.replace (h : Sound q nodes) {m m' : Ptr α} {ret : Ret α} (hb : q.consumer.busy = none)
    (hm : m.isData = false) (hm' : m' = .endMarker ∨ m' = .sleepMarker) (htail : q.tail = m)
    (hhead : q.mem.head = m) (hnext : q.mem.next m' = none) :
    Sound { q with mem := { q.mem with head := m' }, tail := m', consumer := .returned ret } [m'] := by
  have hsingle := h.broken.single (hhead.trans htail.symm)
  have hbroken := h.broken
  rw [hsingle, htail] at hbroken
  have hfree : ∀ o p, q.busy o ≠ some (m', p) := by
    rcases hm' with rfl | rfl
    · exact end_free hb
    · exact sleep_free
  have hcontent := h.content
  rw [hsingle, htail] at hcontent
  have hbusy : (Queue.mk { q.mem with head := m' } m' q.producers (.returned ret) q.enqueued
      q.dequeued).busy = q.busy := busy_idle _ _ _ _ _ hb rfl
  refine ⟨hbusy ▸ hbroken.replace hnext hfree, ?_, ?_, ?_, fun o y prev ho =>
    h.prev o y prev (hbusy ▸ ho), trivial⟩
  · rcases hm' with rfl | rfl <;> simpa [List.filter_cons, hm] using hcontent
  · rcases hm' with rfl | rfl <;> simp
  · rcases hm' with rfl | rfl <;> simp

theorem Sound.takeTail (h : Sound q nodes) {next : Ptr α} (hb : q.consumer.busy = none)
    (hdata : q.tail.isData = true) (hnext : q.mem.next q.tail = some next) :
    ∃ nodes', Sound (q.takeTail next) nodes' :=
  h.advance hnext hb rfl (by simp [hdata]) fun _ => trivial

theorem Sound.begin [DecidableEq ι] (h : Sound q nodes) {i : ι} {a : α} (hi : q.producers i = .idle)
    (ha : q.Free a) :
    Sound { q with producers := Function.update q.producers i (.enqueue a .start) } nodes := by
  have hbusy := busy_producer q q.mem q.tail q.enqueued q.dequeued i (.enqueue a .start)
  have hidle : q.busy (some i) = none := by rw [busy_some, hi]; rfl
  refine ⟨?_, h.content, h.closed, h.sleep, fun o y prev ho => ?_, h.consumer⟩
  · rw [hbusy]
    exact h.broken.wait (p := .start) trivial (by simp [hidle]) (fun o p _ => ha.2 o p) (h.not_mem ha)
      fun hp => absurd rfl hp
  · rw [hbusy] at ho
    rcases of_update ho with ⟨-, e⟩ | ⟨-, e⟩
    · cases e
    · exact h.prev o y prev e

variable [DecidableEq α]

theorem Sound.clear (h : Sound q nodes) (hb : q.consumer.busy = none) (ret : Ret α) :
    Sound (q.clear ret) nodes := by
  unfold Queue.clear
  split
  · exact h.move hb rfl ‹_›
  · exact h.returns hb ret

theorem Sound.checkTail (h : Sound q nodes) (hb : q.consumer.busy = none)
    (hdata : q.tail.isData = true) (limit : Option (Ptr α)) :
    ∃ nodes', Sound (q.checkTail limit (q.mem.next q.tail)) nodes' := by
  unfold Queue.checkTail
  split
  · exact ⟨nodes, h.returns hb _⟩
  · cases hnext : q.mem.next q.tail with
    | none => exact ⟨nodes, h.move hb rfl hdata⟩
    | some next => exact h.takeTail hb hdata hnext

theorem Sound.clearMarker (h : Sound q nodes) {m : Ptr α} {c : Consumer α} (hm : m ∉ nodes)
    (hb : q.consumer.busy = none) (hb' : c.busy = none)
    (hc : c.At { q.mem with next := Function.update q.mem.next m none } q.tail) :
    Sound { q with mem := { q.mem with next := Function.update q.mem.next m none }, consumer := c }
      nodes := by
  have hbusy : (Queue.mk { q.mem with next := Function.update q.mem.next m none } q.tail q.producers c
      q.enqueued q.dequeued).busy = q.busy := busy_idle _ _ _ _ _ hb hb'
  exact ⟨hbusy ▸ h.broken.clear hm, h.content, h.closed, h.sleep, fun o y prev ho =>
    h.prev o y prev (hbusy ▸ ho), hc⟩

theorem swaps_append (mem : Mem (Ptr α)) (phase : Phase (Ptr α)) (l : List α) (a : α) :
    (if swaps mem phase then l ++ [a] else l).map Ptr.data =
      l.map .data ++ (if swaps mem phase then [Ptr.data a] else []).filter Ptr.isData := by
  split
  · rw [List.map_append]
    rfl
  · simp

variable [DecidableEq ι]

theorem Sound.producerStep (h : Sound q nodes) {i : ι} (hs : q.producerStep i = some q') :
    ∃ nodes', Sound q' nodes' := by
  unfold Queue.producerStep at hs
  cases hi : q.producers i with
  | idle => simp [hi] at hs
  | wakeup =>
    simp only [hi, Option.some.injEq] at hs
    subst hs
    have hbusy := busy_producer q q.mem q.tail q.enqueued q.dequeued i .idle
    have hnone : q.busy (some i) = (Producer.idle : Producer α).busy := by rw [busy_some, hi]; rfl
    rw [← hnone, Function.update_eq_self] at hbusy
    exact ⟨nodes, hbusy ▸ h.broken, h.content, h.closed, h.sleep, fun o y prev ho =>
      h.prev o y prev (hbusy ▸ ho), h.consumer⟩
  | enqueue a phase =>
    simp only [hi, Option.some.injEq] at hs
    subst hs
    have ho : q.busy (some i) = some (.data a, phase) := by rw [busy_some, hi]; rfl
    refine ⟨_, h.enqueued ho (.inl rfl) rfl rfl ?_ rfl (swaps_append _ _ _ _) ?_⟩
    · rw [busy_producer]
      congr 1
      cases (enqueueNode q.mem (.data a) phase).2 with
      | goOn phase' => rfl
      | done wakes => cases wakes <;> rfl
    · refine h.at_frame fun z hz hd => h.access_next ho hz ?_
      rintro rfl
      cases hd

theorem Sound.consumerStep (h : Sound q nodes) (hs : q.consumerStep = some q') :
    ∃ nodes', Sound q' nodes' := by
  have hat := h.consumer
  unfold Queue.consumerStep at hs
  cases hc : q.consumer with
  | returned ret => simp [hc] at hs
  | dequeueTail limit =>
    have hb : q.consumer.busy = none := by rw [hc]; rfl
    simp only [hc] at hs
    split at hs
    · obtain rfl := Option.some.inj hs
      exact h.checkTail hb ‹_› limit
    · rename_i hmark
      cases hnext : q.mem.next q.tail with
      | none =>
        rw [hnext] at hs
        obtain rfl := Option.some.inj hs
        exact ⟨nodes, h.clear hb _⟩
      | some next =>
        rw [hnext] at hs
        obtain rfl := Option.some.inj hs
        exact h.advance hnext hb rfl (by simp [hmark]) fun hd => hd.resolve_right hmark
  | dequeueNext limit =>
    have hb : q.consumer.busy = none := by rw [hc]; rfl
    rw [hc] at hat
    simp only [hc] at hs
    obtain rfl := Option.some.inj hs
    exact h.checkTail hb hat limit
  | dequeueHead =>
    have hb : q.consumer.busy = none := by rw [hc]; rfl
    rw [hc] at hat
    simp only [hc] at hs
    split at hs
    · rename_i hhead
      obtain rfl := Option.some.inj hs
      -- the tail is the whole queue, so the end marker is not in it
      have hsingle := h.broken.single hhead
      have hend : .endMarker ∉ nodes := by
        rw [hsingle]
        intro hm
        rw [← List.mem_singleton.mp hm] at hat
        cases hat
      refine ⟨nodes, ?_, h.content, h.closed, h.sleep, fun o y prev ho => ?_, hat⟩
      · rw [busy_consumer]
        exact h.broken.wait (p := .start) trivial (by simp [hb])
          (fun o p _ => end_free hb o p) hend fun hp => absurd rfl hp
      · rw [busy_consumer] at ho
        rcases of_update ho with ⟨-, e⟩ | ⟨-, e⟩
        · cases e
        · exact h.prev o y prev e
    · obtain rfl := Option.some.inj hs
      exact ⟨nodes, h.returns hb _⟩
  | dequeueEnd phase =>
    rw [hc] at hat
    simp only [hc] at hs
    obtain rfl := Option.some.inj hs
    have ho : q.busy none = some (.endMarker, phase) := by rw [busy_none, hc]; rfl
    have hsleep : .sleepMarker ∉ nodes := by
      intro hm
      rw [(h.sleep hm).1] at hat
      cases hat
    refine ⟨_, h.enqueued ho (.inr ⟨rfl, hsleep⟩) rfl rfl ?_ rfl ?_ ?_⟩
    · rw [busy_consumer]
      congr 1
      cases (enqueueNode q.mem .endMarker phase).2 <;> rfl
    · split <;> simp
    · cases (enqueueNode q.mem .endMarker phase).2 <;> exact hat
  | dequeueLast =>
    have hb : q.consumer.busy = none := by rw [hc]; rfl
    rw [hc] at hat
    simp only [hc] at hs
    cases hnext : q.mem.next q.tail with
    | none =>
      rw [hnext] at hs
      obtain rfl := Option.some.inj hs
      exact ⟨nodes, h.returns hb _⟩
    | some next =>
      rw [hnext] at hs
      obtain rfl := Option.some.inj hs
      exact h.takeTail hb hat hnext
  | clearStore ret =>
    have hb : q.consumer.busy = none := by rw [hc]; rfl
    rw [hc] at hat
    simp only [hc] at hs
    obtain rfl := Option.some.inj hs
    have hend : .endMarker ∉ nodes := (h.sleep (hat ▸ h.broken.tail_mem)).2
    exact ⟨nodes, h.clearMarker hend hb rfl ⟨hat, by simp⟩⟩
  | clearExchange ret =>
    have hb : q.consumer.busy = none := by rw [hc]; rfl
    rw [hc] at hat
    simp only [hc] at hs
    split at hs
    · obtain rfl := Option.some.inj hs
      exact ⟨_, h.replace hb rfl (.inl rfl) hat.1 ‹_› hat.2⟩
    · obtain rfl := Option.some.inj hs
      exact ⟨nodes, h.returns hb _⟩
  | sleepHead =>
    have hb : q.consumer.busy = none := by rw [hc]; rfl
    simp only [hc] at hs
    obtain rfl := Option.some.inj hs
    exact ⟨nodes, h.returns hb _⟩
  | sleepStore =>
    have hb : q.consumer.busy = none := by rw [hc]; rfl
    rw [hc] at hat
    simp only [hc] at hs
    obtain rfl := Option.some.inj hs
    have hsleep : .sleepMarker ∉ nodes := by
      intro hm
      have ht := (h.sleep hm).1
      rw [hat] at ht
      cases ht
    exact ⟨nodes, h.clearMarker hsleep hb rfl ⟨hat, by simp⟩⟩
  | sleepExchange =>
    have hb : q.consumer.busy = none := by rw [hc]; rfl
    rw [hc] at hat
    simp only [hc] at hs
    split at hs
    · obtain rfl := Option.some.inj hs
      exact ⟨_, h.replace hb rfl (.inr rfl) hat.1 ‹_› hat.2⟩
    · obtain rfl := Option.some.inj hs
      exact ⟨nodes, h.returns hb _⟩
  | requeue a phase =>
    simp only [hc] at hs
    obtain rfl := Option.some.inj hs
    have ho : q.busy none = some (.data a, phase) := by rw [busy_none, hc]; rfl
    refine ⟨_, h.enqueued ho (.inl rfl) rfl rfl ?_ rfl (swaps_append _ _ _ _) ?_⟩
    · rw [busy_consumer]
      congr 1
      cases (enqueueNode q.mem (.data a) phase).2 <;> rfl
    · cases (enqueueNode q.mem (.data a) phase).2 <;> exact trivial

theorem Sound.consumerCall (h : Sound q nodes) {op : QueueOp ι α} (hok : Unqueued q op)
    (hb : q.consumer.busy = none) (hs : q.consumerCall op = some q') : Sound q' nodes := by
  cases op with
  | dequeueNode limit =>
    obtain rfl := Option.some.inj hs
    exact h.move hb rfl trivial
  | clearSleepMarker =>
    obtain rfl := Option.some.inj hs
    exact h.clear hb _
  | prepareForSleep =>
    obtain rfl := Option.some.inj hs
    unfold Queue.prepare
    split
    · exact h.move hb rfl ‹_›
    · split
      · exact h.move hb rfl ‹_›
      · exact h.returns hb _
  | requeue a =>
    obtain rfl := Option.some.inj hs
    refine ⟨?_, h.content, h.closed, h.sleep, fun o y prev ho => ?_, trivial⟩
    · rw [busy_consumer]
      exact h.broken.wait (p := .start) trivial (by simp [hb]) (fun o p _ => hok.2 o p)
        (h.not_mem hok) fun hp => absurd rfl hp
    · rw [busy_consumer] at ho
      rcases of_update ho with ⟨-, e⟩ | ⟨-, e⟩
      · cases e
      · exact h.prev o y prev e
  | begin i a => cases hs
  | producer i => cases hs
  | consumer => cases hs

/-- **Every access keeps the queue sound.** -/
theorem queueStep_sound {op : QueueOp ι α} (h : Sound q nodes) (hok : Unqueued q op)
    (hs : queueStep q op = some q') : ∃ nodes', Sound q' nodes' := by
  have hcall (hop : op.isCall = true) : ∃ nodes', Sound q' nodes' := by
    obtain ⟨⟨ret, hc⟩, hs⟩ := queueStep_call hop hs
    exact ⟨nodes, h.consumerCall hok (by rw [hc]; rfl) hs⟩
  cases op with
  | begin i a =>
    simp only [queueStep] at hs
    split at hs
    · obtain rfl := Option.some.inj hs
      exact ⟨nodes, h.begin ‹_› hok⟩
    · cases hs
  | producer i => exact h.producerStep hs
  | consumer => exact h.consumerStep hs
  | dequeueNode | clearSleepMarker | prepareForSleep | requeue => exact hcall rfl

end Steps

theorem queue_sound {q : Queue ι α} [DecidableEq ι] [DecidableEq α]
    (hq : ReachableIf queueStep Unqueued (· = Queue.new) q) : ∃ nodes, Sound q nodes :=
  hq.invariant (P := fun q => ∃ nodes, Sound q nodes) (fun _ hinit => ⟨_, hinit ▸ sound_new⟩)
    (fun _ _ _ ⟨_, h⟩ hok hs => queueStep_sound h hok hs)

end MyMio

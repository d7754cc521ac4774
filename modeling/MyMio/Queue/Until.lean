import MyMio.Queue.Order

/-! # The first node put back

`ReadinessQueue::poll` puts a node back in the queue it is draining, and would go round for ever on a
level-triggered one. The first node it puts back is its `until` from then on: `dequeue_node` returns
`Empty` when that node is at the tail. So whatever is behind that node stays in the queue until `poll`
returns, the nodes put back later and those enqueued meanwhile included (`Fence.step`).
-/

namespace MyMio
set_option autoImplicit false

open BrokenQueue StepSystem

universe u v

variable {ι : Type v} {α : Type u}

/-! ## The limit -/

/-- The `until` of the loop, once a node has been put back. -/
def Poller.limit : Poller α → Option (Ptr α)
  | .dequeue _ _ limit | .requeue _ _ limit _ => limit
  | _ => none

/-- The node the consumer is putting back and has not swapped in yet. -/
def Consumer.putting : Consumer α → Option α
  | .requeue a phase => owed a phase
  | _ => none

/-- `dequeue_node` has been called with the node `x` for `until`, and is not past it. -/
def Queue.Heeds (q : Queue ι α) (x : α) : Prop :=
  match q.consumer with
  | .dequeueTail limit | .dequeueNext limit => limit = some (.data x)
  | .dequeueHead | .dequeueEnd _ | .dequeueLast => q.tail ≠ .data x
  | _ => True

section Access
variable [DecidableEq α] {q q' : Queue ι α} {x : α}

theorem heeds_checkTail {next : Option (Ptr α)} :
    (q.checkTail (some (.data x)) next).Heeds x ∧
      ∀ a, (q.checkTail (some (.data x)) next).consumer = .returned (.dequeue (.data (.data a))) →
        a ≠ x := by
  unfold Queue.checkTail
  split
  · exact ⟨trivial, fun a ha => by cases ha⟩
  · rename_i hlimit
    have htail : q.tail ≠ .data x := fun he => hlimit (by rw [he])
    cases next with
    | none => exact ⟨htail, fun a ha => by cases ha⟩
    | some next =>
      refine ⟨trivial, fun a ha he => htail ?_⟩
      rw [← he]
      exact Dequeue.data.inj (Ret.dequeue.inj (Consumer.returned.inj ha))

/-- An access of `dequeue_node` does not get past its `until`. -/
theorem heeds_consumerStep (h : q.Heeds x) (hs : q.consumerStep = some q') :
    q'.Heeds x ∧ (q.consumer.Dequeuing →
      ∀ a, q'.consumer = .returned (.dequeue (.data (.data a))) → a ≠ x) := by
  unfold Queue.consumerStep at hs
  unfold Queue.Heeds at h
  cases hc : q.consumer with
  | returned ret => simp [hc] at hs
  | dequeueTail limit =>
    rw [hc] at h
    subst h
    simp only [hc] at hs
    split at hs
    · obtain rfl := Option.some.inj hs
      exact ⟨heeds_checkTail.1, fun _ => heeds_checkTail.2⟩
    · cases hnext : q.mem.next q.tail with
      | none =>
        rw [hnext] at hs
        obtain rfl := Option.some.inj hs
        unfold Queue.clear
        split <;> exact ⟨trivial, fun _ a ha => by cases ha⟩
      | some next =>
        rw [hnext] at hs
        obtain rfl := Option.some.inj hs
        exact ⟨rfl, fun _ a ha => by cases ha⟩
  | dequeueNext limit =>
    rw [hc] at h
    subst h
    simp only [hc] at hs
    obtain rfl := Option.some.inj hs
    exact ⟨heeds_checkTail.1, fun _ => heeds_checkTail.2⟩
  | dequeueHead =>
    rw [hc] at h
    simp only [hc] at hs
    split at hs <;> obtain rfl := Option.some.inj hs
    · exact ⟨h, fun _ a ha => by cases ha⟩
    · exact ⟨trivial, fun _ a ha => by cases ha⟩
  | dequeueEnd phase =>
    rw [hc] at h
    simp only [hc] at hs
    obtain rfl := Option.some.inj hs
    unfold Queue.Heeds
    cases hnext : (enqueueNode q.mem .endMarker phase).2 with
    | goOn next => exact ⟨h, fun _ a ha => by cases ha⟩
    | done wakes => exact ⟨h, fun _ a ha => by cases ha⟩
  | dequeueLast =>
    rw [hc] at h
    simp only [hc] at hs
    cases hnext : q.mem.next q.tail with
    | none =>
      rw [hnext] at hs
      obtain rfl := Option.some.inj hs
      exact ⟨trivial, fun _ a ha => by cases ha⟩
    | some next =>
      rw [hnext] at hs
      obtain rfl := Option.some.inj hs
      refine ⟨trivial, fun _ a ha he => h ?_⟩
      rw [← he]
      exact Dequeue.data.inj (Ret.dequeue.inj (Consumer.returned.inj ha))
  | requeue a phase =>
    simp only [hc] at hs
    obtain rfl := Option.some.inj hs
    unfold Queue.Heeds
    cases (enqueueNode q.mem (.data a) phase).2 <;> exact ⟨trivial, fun hd => hd.elim⟩
  | clearStore | sleepHead | sleepStore =>
    simp only [hc] at hs
    obtain rfl := Option.some.inj hs
    exact ⟨trivial, fun hd => hd.elim⟩
  | clearExchange | sleepExchange =>
    simp only [hc] at hs
    split at hs <;>
    · obtain rfl := Option.some.inj hs
      exact ⟨trivial, fun hd => hd.elim⟩

theorem checkTail_not_requeue {a : α} {phase : Phase (Ptr α)} (limit next : Option (Ptr α)) :
    (q.checkTail limit next).consumer ≠ .requeue a phase := by
  unfold Queue.checkTail
  split
  · exact nofun
  · cases next <;> exact nofun

omit [DecidableEq α] in
theorem Queue.Heeds.congr (h : q.Heeds x) (hconsumer : q'.consumer = q.consumer)
    (htail : q'.tail = q.tail) : q'.Heeds x := by
  unfold Queue.Heeds at *
  rw [hconsumer, htail]
  exact h

end Access

/-! ## A step of the loop -/

/-- The loop has `x` for its `until`, and the queue heeds it. -/
structure Fence (p : Polling ι α) (x : α) : Prop where
  limit : p.poller.limit = some (.data x)
  heeds : p.queue.Heeds x

/-- What a step does to the lists while `x` is the `until` of the loop. -/
inductive FenceMove (p p' : Polling ι α) (x : α) : Prop
  | returns : p'.poller = .idle → p'.queue = p.queue → FenceMove p p' x
  | stays (added : List α) : Fence p' x → p'.queue.pending = p.queue.pending ++ added →
      p'.queue.taken = p.queue.taken → p'.queue.consumer.putting = p.queue.consumer.putting →
      (∀ a, p'.queue.consumer = .returned (.dequeue (.data (.data a))) →
        p.queue.consumer = .returned (.dequeue (.data (.data a)))) → FenceMove p p' x
  | takes (a : α) : Fence p' x → a ≠ x → p.queue.pending = a :: p'.queue.pending →
      p'.queue.taken = p.queue.taken ++ [a] → p.queue.consumer.putting = none →
      p'.queue.consumer = .returned (.dequeue (.data (.data a))) → FenceMove p p' x
  | starts (a : α) : Fence p' x → p.queue.consumer = .returned (.dequeue (.data (.data a))) →
      p'.queue.pending = p.queue.pending → p'.queue.taken = p.queue.taken →
      p'.queue.consumer = .requeue a .start → FenceMove p p' x
  | putsBack (a : α) : Fence p' x → p.queue.consumer.putting = some a →
      p'.queue.pending = p.queue.pending ++ [a] → p'.queue.taken = p.queue.taken →
      p'.queue.consumer.putting = none →
      (∀ ptr, p'.queue.consumer ≠ .returned (.dequeue (.data ptr))) → FenceMove p p' x

section Steps
variable [DecidableEq ι] [DecidableEq α] {p p' : Polling ι α} {op : PollingOp ι α} {x : α}
  {call : Call} {len : ℕ} {limit : Option (Ptr α)} {nodes : List (Ptr α)}

/-- The head of the loop calls `dequeue_node`, or the buffer is full. -/
theorem pollLoop_cases (hrest : p.queue.consumer.AtRest) (hs : p.pollLoop call len limit = some p') :
    p'.poller = .idle ∧ p'.queue = p.queue ∨ p'.poller = .dequeue call len limit ∧
      p'.queue = { p.queue with consumer := .dequeueTail limit } := by
  obtain ⟨ret, hret⟩ := hrest
  unfold Polling.pollLoop at hs
  split at hs
  · obtain ⟨q, hq, rfl⟩ := Option.map_eq_some_iff.mp hs
    simp only [queueStep, hret] at hq
    obtain rfl := Option.some.inj hq
    exact .inr ⟨rfl, rfl⟩
  · obtain rfl := Option.some.inj hs
    exact .inl ⟨rfl, rfl⟩

theorem pollLoop_fence {ret : Ret α} (hret : p.queue.consumer = .returned ret)
    (hs : p.pollLoop call len (some (.data x)) = some p') : FenceMove p p' x := by
  rcases pollLoop_cases ⟨ret, hret⟩ hs with ⟨hidle, hqueue⟩ | ⟨hpoller, hqueue⟩
  · exact .returns hidle hqueue
  · refine .stays [] ⟨by rw [hpoller]; rfl, by rw [hqueue]; exact rfl⟩ ?_ ?_ ?_ fun a ha => ?_
    · rw [hqueue, List.append_nil]
      rfl
    · rw [hqueue]
      rfl
    · rw [hqueue, hret]
      rfl
    · rw [hqueue] at ha
      cases ha

omit [DecidableEq ι] [DecidableEq α] in
theorem putting_of_moving (h : ∀ ret, p.queue.consumer ≠ .returned ret) :
    p.queue.consumer.putting = p.queue.consumer.holds := by
  cases hc : p.queue.consumer with
  | returned ret => exact absurd hc (h ret)
  | _ => rfl

omit [DecidableEq ι] [DecidableEq α] in
theorem putting_of_not_data {q : Queue ι α} (h : ∀ ptr, q.consumer ≠ .returned (.dequeue (.data ptr))) :
    q.consumer.putting = q.consumer.holds := by
  cases hc : q.consumer with
  | returned ret =>
    cases ret with
    | dequeue d =>
      cases d with
      | data ptr => exact absurd hc (h ptr)
      | _ => rfl
    | _ => rfl
  | _ => rfl

theorem Fence.access (h : Fence p x) (hsound : Sound p.queue nodes) (hrec : Recorded p.queue)
    (hs : pollingStep p .consumer = some p') : FenceMove p p' x := by
  obtain ⟨q, hq, rfl⟩ := Option.map_eq_some_iff.mp hs
  obtain ⟨nodes', hsound'⟩ := hsound.consumerStep hq
  obtain ⟨-, hmove⟩ := hsound.consumer_move hsound' hrec hq
  obtain ⟨hheeds, hnot⟩ := heeds_consumerStep h.heeds hq
  have hmoving : ∀ ret, p.queue.consumer ≠ .returned ret := by
    intro ret hret
    unfold Queue.consumerStep at hq
    simp [hret] at hq
  have hputting := putting_of_moving hmoving
  have hdequeued := consumerStep_dequeued hrec hq
  have hkeeps : (∀ ptr, q.consumer ≠ .returned (.dequeue (.data ptr))) → q.taken = p.queue.taken := by
    intro hnone
    rcases hdequeued with ⟨hd, -⟩ | ⟨ptr, -, hc⟩
    · exact taken_congr hd
    · exact absurd hc (hnone ptr)
  cases hmove with
  | stays hpending hholds hnone =>
    refine .stays [] ⟨h.limit, hheeds⟩ (by rw [List.append_nil]; exact hpending) (hkeeps hnone) ?_
      fun a ha => absurd ha (hnone _)
    exact (putting_of_not_data hnone).trans (hholds.trans hputting.symm)
  | takes a hd hpending hret =>
    have htaken : q.taken = p.queue.taken ++ [a] := by
      rcases hdequeued with ⟨-, hnone⟩ | ⟨ptr, hdeq, hc⟩
      · exact absurd hret (hnone _)
      · obtain rfl : ptr = .data a := by
          simpa using hc.symm.trans hret
        exact taken_concat hdeq
    refine .takes a ⟨h.limit, hheeds⟩ (hnot hd a hret) hpending htaken ?_ hret
    cases hc : p.queue.consumer <;> rw [hc] at hd <;> first | rfl | exact hd.elim
  | putsBack a hholds hpending hnone hnot =>
    refine .putsBack a ⟨h.limit, hheeds⟩ (hputting.trans hholds) hpending (hkeeps hnot) ?_ hnot
    exact (putting_of_not_data hnot).trans hnone

/-- **Once there is an `until`** it stays until `poll` returns, and what is behind it stays in the
queue. -/
theorem Fence.step (h : Fence p x) (hsound : Sound p.queue nodes) (hrec : Recorded p.queue)
    (hs : pollingStep p op = some p') : FenceMove p p' x := by
  have hlimit := h.limit
  by_cases hconsumer : op = .consumer
  · subst hconsumer
    exact h.access hsound hrec hs
  unfold pollingStep at hs
  split at hs
  · rename_i i a
    obtain ⟨q, hq, rfl⟩ := Option.map_eq_some_iff.mp hs
    simp only [queueStep] at hq
    split at hq
    · obtain rfl := Option.some.inj hq
      exact .stays [] ⟨hlimit, h.heeds⟩ (List.append_nil _).symm rfl rfl fun a ha => ha
    · cases hq
  · rename_i i wouldBlock
    obtain ⟨hq, hpoller⟩ := producerStep_queue hs
    obtain ⟨hsame, hplaces⟩ := hsound.producer_places hq
    have hfence : Fence p' x :=
      ⟨by rw [hpoller]; exact hlimit, h.heeds.congr hsame (producerStep_tail hq)⟩
    have htaken := taken_congr (producerStep_others hq).1
    rcases hplaces with ⟨hpending, -⟩ | ⟨a, -, hpending, -⟩
    · exact .stays [] hfence (by rw [List.append_nil]; exact hpending) htaken (by rw [hsame])
        fun a ha => hsame ▸ ha
    · exact .stays [a] hfence hpending htaken (by rw [hsame]) fun a ha => hsame ▸ ha
  · exact absurd rfl hconsumer
  · rename_i hp
    rw [hp] at hlimit
    cases hlimit
  · rename_i hp _
    rw [hp] at hlimit
    cases hlimit
  · rename_i hp
    rw [hp] at hlimit
    cases hlimit
  · rename_i hp
    rw [hp] at hlimit
    cases hlimit
  · rename_i hp _
    rw [hp] at hlimit
    cases hlimit
  · rename_i requeue readiness call len limit d hp hc
    rw [hp] at hlimit
    obtain rfl : limit = some (.data x) := hlimit
    cases d with
    | data ptr =>
      cases ptr with
      | data a =>
        cases requeue with
        | true =>
          obtain ⟨q, hq, rfl⟩ := Option.map_eq_some_iff.mp hs
          simp only [queueStep, hc] at hq
          obtain rfl := Option.some.inj hq
          exact .starts a ⟨rfl, trivial⟩ hc rfl rfl rfl
        | false => exact pollLoop_fence hc hs
      | _ => cases hs
    | _ =>
      obtain rfl := Option.some.inj hs
      exact .returns rfl rfl
  · rename_i hp hc
    rw [hp] at hlimit
    obtain rfl := hlimit
    exact pollLoop_fence hc hs
  · cases hs

/-! ## Where the limit comes from -/

theorem limit_of_pollLoop (hs : p.pollLoop call len limit = some p') :
    p'.poller.limit = none ∨ p'.poller.limit = limit := by
  unfold Polling.pollLoop at hs
  split at hs
  · obtain ⟨q, -, rfl⟩ := Option.map_eq_some_iff.mp hs
    exact .inr rfl
  · obtain rfl := Option.some.inj hs
    exact .inl rfl

theorem limit_of_pollQueue (hs : p.pollQueue call len = some p') : p'.poller.limit = none := by
  unfold Polling.pollQueue at hs
  split at hs
  · obtain ⟨q, -, rfl⟩ := Option.map_eq_some_iff.mp hs
    rfl
  · exact (limit_of_pollLoop hs).elim id id

theorem limit_of_selected {timeout : Option ℕ} {res : SelectResult} (hp : p.poller = .select call timeout)
    (hs : p.selected call timeout res = some p') : p'.poller.limit = none := by
  cases res with
  | ok notify len =>
    cases notify with
    | true =>
      obtain rfl := Option.some.inj hs
      rfl
    | false => exact limit_of_pollQueue hs
  | interrupted elapsed =>
    simp only [Polling.selected] at hs
    split at hs
    · obtain rfl := Option.some.inj hs
      rfl
    · split at hs
      · split at hs
        · exact limit_of_pollQueue hs
        · obtain rfl := Option.some.inj hs
          rfl
      · obtain rfl := Option.some.inj hs
        rw [hp]
        rfl
  | failed =>
    obtain rfl := Option.some.inj hs
    rfl

/-- The loop gets its `until` with the first node it puts back. -/
theorem limit_step (hnone : p.poller.limit = none) (hs : pollingStep p op = some p') :
    p'.poller.limit = none ∨ ∃ a, p.queue.consumer = .returned (.dequeue (.data (.data a))) ∧
      p'.poller.limit = some (.data a) ∧ p'.queue.consumer = .requeue a .start := by
  unfold pollingStep at hs
  split at hs
  · obtain ⟨q, -, rfl⟩ := Option.map_eq_some_iff.mp hs
    exact .inl hnone
  · exact .inl ((congrArg Poller.limit (producerStep_queue hs).2).trans hnone)
  · obtain ⟨q, -, rfl⟩ := Option.map_eq_some_iff.mp hs
    exact .inl hnone
  · unfold Polling.poll2 at hs
    split at hs
    · obtain rfl := Option.some.inj hs
      exact .inl rfl
    · obtain ⟨q, -, rfl⟩ := Option.map_eq_some_iff.mp hs
      exact .inl rfl
  · obtain rfl := Option.some.inj hs
    exact .inl rfl
  · rename_i hp
    exact .inl (limit_of_selected hp hs)
  · split at hs
    · obtain rfl := Option.some.inj hs
      exact .inl hnone
    · exact .inl (limit_of_pollQueue hs)
  · obtain rfl := Option.some.inj hs
    exact .inl rfl
  · rename_i requeue readiness call len limit d hp hc
    rw [hp] at hnone
    obtain rfl : limit = none := hnone
    cases d with
    | data ptr =>
      cases ptr with
      | data a =>
        cases requeue with
        | true =>
          obtain ⟨q, hq, rfl⟩ := Option.map_eq_some_iff.mp hs
          simp only [queueStep, hc] at hq
          obtain rfl := Option.some.inj hq
          exact .inr ⟨a, hc, rfl, rfl⟩
        | false => exact .inl ((limit_of_pollLoop hs).elim id id)
      | _ => cases hs
    | _ =>
      obtain rfl := Option.some.inj hs
      exact .inl rfl
  · rename_i hp _
    rw [hp] at hnone
    obtain rfl := hnone
    exact .inl ((limit_of_pollLoop hs).elim id id)
  · cases hs

end Steps

/-! ## What is behind the limit -/

/-- The node `a` is `x` or behind it, or about to be put there; so is `x` itself. -/
def Behind (q : Queue ι α) (x a : α) : Prop :=
  (∃ ahead rest, q.pending = ahead ++ x :: rest ∧ (a ∈ x :: rest ∨ q.consumer.putting = some a)) ∨
    q.consumer.putting = some x ∧ a = x

section Runs
variable [DecidableEq ι] [DecidableEq α] {p p' : Polling ι α} {op : PollingOp ι α} {a x : α}

omit [DecidableEq ι] [DecidableEq α] in
theorem Behind.move (h : Behind p.queue x a) (hnodup : p.queue.pending.Nodup)
    (hnot : p.queue.consumer ≠ .returned (.dequeue (.data (.data a)))) (hp : FenceMove p p' x) :
    p'.poller = .idle ∨ Fence p' x ∧ Behind p'.queue x a ∧
      p'.queue.consumer ≠ .returned (.dequeue (.data (.data a))) := by
  cases hp with
  | returns hidle _ => exact .inl hidle
  | stays added hfence hpending _ hputting hdata =>
    refine .inr ⟨hfence, ?_, fun hc => hnot (hdata a hc)⟩
    rcases h with ⟨ahead, rest, hsplit, ha⟩ | ⟨hx, rfl⟩
    · refine .inl ⟨ahead, rest ++ added, by rw [hpending, hsplit, List.append_assoc, List.cons_append], ?_⟩
      exact ha.imp (fun hm => by rw [← List.cons_append]; exact List.mem_append_left _ hm)
        fun hm => hputting.trans hm
    · exact .inr ⟨hputting.trans hx, rfl⟩
  | takes b hfence hb hpending _ hputting hret =>
    rcases h with ⟨ahead, rest, hsplit, ha⟩ | ⟨hx, -⟩
    · have ha : a ∈ x :: rest := ha.resolve_right (by rw [hputting]; exact nofun)
      rw [hsplit] at hpending hnodup
      cases ahead with
      | nil => exact absurd (List.cons.inj hpending).1.symm hb
      | cons c ahead =>
        obtain ⟨rfl, htail⟩ := List.cons.inj hpending
        refine .inr ⟨hfence, .inl ⟨ahead, rest, htail.symm, .inl ha⟩, fun hc => ?_⟩
        have hsame : c = a := by simpa using hret.symm.trans hc
        exact (List.nodup_cons.mp hnodup).1 (hsame ▸ List.mem_append_right ahead ha)
    · rw [hputting] at hx
      cases hx
  | starts b hfence hret hpending _ hconsumer =>
    have hnone : p.queue.consumer.putting = none := by rw [hret]; rfl
    refine .inr ⟨hfence, ?_, by rw [hconsumer]; exact nofun⟩
    rcases h with ⟨ahead, rest, hsplit, ha⟩ | ⟨hx, -⟩
    · exact .inl ⟨ahead, rest, hpending.trans hsplit, .inl (ha.resolve_right (by rw [hnone]; exact nofun))⟩
    · rw [hnone] at hx
      cases hx
  | putsBack b hfence hputting hpending _ _ hdata =>
    refine .inr ⟨hfence, .inl ?_, hdata _⟩
    rcases h with ⟨ahead, rest, hsplit, ha⟩ | ⟨hx, rfl⟩
    · refine ⟨ahead, rest ++ [b], by rw [hpending, hsplit, List.append_assoc, List.cons_append], .inl ?_⟩
      rw [← List.cons_append, List.mem_append]
      refine ha.imp id fun hm => ?_
      rw [hputting] at hm
      exact List.mem_singleton.mpr (Option.some.inj hm).symm
    · rw [hputting] at hx
      obtain rfl := Option.some.inj hx
      exact ⟨p.queue.pending, [], hpending, .inl List.mem_cons_self⟩

/-- The `until` of the loop is a node that has been put back, and nobody has got past it. -/
def Polling.Fenced (p : Polling ι α) : Prop :=
  ∀ l, p.poller.limit = some l → ∃ x, l = .data x ∧ Fence p x ∧ Behind p.queue x x ∧
    p.queue.consumer ≠ .returned (.dequeue (.data (.data x)))

theorem Polling.Fenced.step {nodes : List (Ptr α)} (h : p.Fenced) (hsound : Sound p.queue nodes)
    (hrec : Recorded p.queue) (hs : pollingStep p op = some p') : p'.Fenced := by
  intro l hl
  cases hlimit : p.poller.limit with
  | none =>
    rcases limit_step hlimit hs with hnone | ⟨a, hret, hsome, hconsumer⟩
    · rw [hnone] at hl
      cases hl
    · rw [hsome] at hl
      obtain rfl := Option.some.inj hl
      refine ⟨a, rfl, ⟨hsome, ?_⟩, .inr ⟨by rw [hconsumer]; rfl, rfl⟩, by rw [hconsumer]; exact nofun⟩
      unfold Queue.Heeds
      rw [hconsumer]
      trivial
  | some l₀ =>
    obtain ⟨x, rfl, hfence, hbehind, hnot⟩ := h l₀ hlimit
    rcases hbehind.move hsound.pending_nodup hnot (hfence.step hsound hrec hs) with hidle | hstays
    · rw [hidle] at hl
      cases hl
    · have hsame := hstays.1.limit
      rw [hl] at hsame
      exact ⟨x, Option.some.inj hsame, hstays⟩

omit [DecidableEq ι] in
theorem requeue_of_consumerStep {q q' : Queue ι α} {phase : Phase (Ptr α)} (hs : q.consumerStep = some q')
    (hc : q'.consumer = .requeue a phase) : ∃ b phase', q.consumer = .requeue b phase' := by
  unfold Queue.consumerStep at hs
  cases hq : q.consumer with
  | requeue b phase' => exact ⟨b, phase', rfl⟩
  | returned ret => simp [hq] at hs
  | dequeueTail limit =>
    simp only [hq] at hs
    split at hs
    · obtain rfl := Option.some.inj hs
      exact absurd hc (checkTail_not_requeue _ _)
    · split at hs <;> obtain rfl := Option.some.inj hs
      · unfold Queue.clear at hc
        split at hc <;> cases hc
      · cases hc
  | dequeueNext limit =>
    simp only [hq] at hs
    obtain rfl := Option.some.inj hs
    exact absurd hc (checkTail_not_requeue _ _)
  | dequeueEnd phase' =>
    simp only [hq] at hs
    obtain rfl := Option.some.inj hs
    change Consumer.afterEnd (enqueueNode q.mem .endMarker phase').2 = _ at hc
    cases hnext : (enqueueNode q.mem .endMarker phase').2 <;> rw [hnext] at hc <;> cases hc
  | dequeueLast | dequeueHead | clearExchange | sleepExchange =>
    simp only [hq] at hs
    split at hs <;> obtain rfl := Option.some.inj hs <;> cases hc
  | clearStore | sleepHead | sleepStore =>
    simp only [hq] at hs
    obtain rfl := Option.some.inj hs
    cases hc

/-- The consumer only puts a node back in a loop that has an `until`. -/
def Polling.Limited (p : Polling ι α) : Prop :=
  ∀ a phase, p.queue.consumer = .requeue a phase → p.poller.limit ≠ none

theorem Polling.Limited.step (h : p.Limited) (hok : p.Ok) (hs : pollingStep p op = some p') :
    p'.Limited := by
  intro b phase hb
  have houtside : op.Outside p → p'.poller.limit ≠ none := fun hop =>
    absurd hb ((pollingStep_called hok hop hs).free.1 b phase)
  cases op with
  | begin i c =>
    obtain ⟨q, hq, rfl⟩ := Option.map_eq_some_iff.mp hs
    simp only [queueStep] at hq
    split at hq
    · obtain rfl := Option.some.inj hq
      exact h b phase hb
    · cases hq
  | producer i wouldBlock =>
    obtain ⟨hq, hpoller⟩ := producerStep_queue hs
    rw [hpoller]
    exact h b phase ((producerStep_frame hq).1 ▸ hb)
  | consumer =>
    obtain ⟨q, hq, rfl⟩ := Option.map_eq_some_iff.mp hs
    obtain ⟨c, phase', hc⟩ := requeue_of_consumerStep hq hb
    exact h c phase' hc
  | dequeued requeue readiness =>
    cases requeue with
    | false => exact houtside (fun h => by cases h)
    | true =>
      unfold pollingStep at hs
      split at hs <;> first | contradiction | skip
      rename_i hop hp hc
      obtain ⟨rfl, rfl⟩ := PollingOp.dequeued.inj hop
      rename_i d
      cases d with
      | data ptr =>
        cases ptr with
        | data c =>
          obtain ⟨q, -, rfl⟩ := Option.map_eq_some_iff.mp hs
          exact Option.some_ne_none _
        | _ => cases hs
      | _ =>
        obtain rfl := Option.some.inj hs
        cases hc.symm.trans hb
  | _ => exact houtside trivial

theorem polling_limited (hp : Reachable pollingStep (· = Polling.new) p) : p.Limited := by
  have h : p.Ok ∧ p.Limited := hp.invariant (P := fun p => p.Ok ∧ p.Limited)
    (fun p hinit => ⟨polling_ok (.start hinit), by subst hinit; exact nofun⟩)
    fun _ _ _ ⟨hok, h⟩ hs => ⟨pollingStep_ok hok hs, h.step hok hs⟩
  exact h.2

theorem polling_sound (hp : ReachableIf pollingStep PollsUnqueued (· = Polling.new) p) :
    (∃ nodes, Sound p.queue nodes) ∧ Recorded p.queue :=
  ⟨queue_sound (polling_queue hp), (polling_queue hp).reachable.invariant (P := Recorded)
    (fun q hinit => by subst hinit; exact fun ptr he => by cases he)
    (fun _ _ _ h hs => queueStep_recorded h hs)⟩

theorem polling_fenced (hp : ReachableIf pollingStep PollsUnqueued (· = Polling.new) p) : p.Fenced := by
  induction hp with
  | start hinit =>
    subst hinit
    exact fun l hl => by cases hl
  | next op hp _ hs ih =>
    obtain ⟨⟨nodes, hsound⟩, hrec⟩ := polling_sound hp
    exact ih.step hsound hrec hs

end Runs

end MyMio

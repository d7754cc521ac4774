import MyMio.Net.JobOrder

/-! # The jobs in the event loop

The side of the poller: what it dequeues, what it pushes, and what `io_process` and `events.clear()` do
with the batch. Every job dequeued is due in that order, and what is due has been called or is still
to be called in the batch (`JobLoop.BatchOk.calls`).
-/

namespace MyMio
set_option autoImplicit false

open BrokenQueue StepSystem Firsts Registrations

universe u v w

variable {ι : Type v} {α : Type u} {C : Type w}

/-! ## Closures -/

theorem ran_of_capture {e : JobEntry (Option (Closure α C))} (h : capture e.job = none) : ran e = [] := by
  unfold ran
  split
  · rfl
  · simp_all [capture]
  · rfl

theorem ran_other (event : Event) (job : Option C) :
    ran (pushEvent event (job.map (.other : C → Closure α C))) = [] := by
  refine ran_of_capture ?_
  cases job <;> rfl

section Lists
variable {s : JobLoop ι α C}

/-- What is still to be called in the batch comes from what has been pushed. -/
theorem events_ran (s : JobLoop ι α C) : s.events.flatMap ran =
    (s.regs.pushed.drop s.base).flatMap fun e => ran (pushEvent e.2.1 e.2.2) := by
  unfold JobLoop.events
  rw [List.flatMap_append, List.flatMap_map, List.flatMap_map]
  have hselected : (s.selected.flatMap fun e => ran (pushEvent e.1 (e.2.map .other))) =
      ([] : List (α × C)) := List.flatMap_eq_nil_iff.mpr fun e _ => ran_other e.1 e.2
  rw [hselected, List.nil_append]

theorem events_suffix (s : JobLoop ι α C) : s.events.flatMap ran <:+ s.due := by
  rw [events_ran]
  refine ⟨(s.regs.pushed.take s.base).flatMap fun e => ran (pushEvent e.2.1 e.2.2), ?_⟩
  rw [← List.flatMap_append, List.take_append_drop]
  rfl

theorem JobLoop.BatchOk.entry (h : s.BatchOk) {e : JobEntry (Option (Closure α C))}
    (he : e ∈ s.events) : (ran e).map Prod.fst = (capture e.job).toList := by
  unfold JobLoop.events at he
  rcases List.mem_append.mp he with hm | hm
  · obtain ⟨d, -, rfl⟩ := List.mem_map.mp hm
    rw [ran_other]
    cases d.2 <;> rfl
  · obtain ⟨d, hd, rfl⟩ := List.mem_map.mp hm
    exact h.entries d (List.mem_of_mem_drop hd)

end Lists

/-! ## The queue -/

section Poll
variable [DecidableEq ι] [DecidableEq α] {s s' t : JobLoop ι α C} {a : α}
  {p : Polling (Option ι) α}

/-- A step of the poller on the queue, with what it does to the order of the jobs. -/
theorem JobLoop.Ok.moved (h : s.Ok) (ht : { s with regs := { s.regs with polling := p } } = t)
    (howned : t.regs.Owned) (hhand : t.regs.HandTaken)
    (hproducers : p.queue.producers = s.regs.polling.queue.producers)
    (hmem : ∀ a, a ∈ p.queue.enqueued ↔ a ∈ s.regs.polling.queue.enqueued)
    (hswapped : t.swapped = s.swapped) (horder : t.taken = s.due.map Prod.fst ++ t.handJobs)
    (hphase : s.phase = .polling)
    (hearly : p.poller.early = true → s.base = s.regs.pushed.length ∧ s.uncalled.flatMap ran = []) :
    t.Ok := by
  have hsame : ∀ a, NodeSame s t a := fun a => by
    subst ht
    exact ⟨rfl, rfl, rfl, hmem a⟩
  have hthreads : ∀ o, ThreadSame s t o := fun o => by
    subst ht
    exact ⟨rfl, congrArg Producer.owed (congrFun hproducers o)⟩
  have hcallers : ∀ j, t.callers j = s.callers j := fun j => by
    subst ht
    rfl
  have hmaking : ∀ j a, StillMaking s t j a := fun j a =>
    stillMaking (hsame a) (hthreads _) (hcallers j)
  refine ⟨howned, ?_, hhand, fun a => ?_, fun o => ?_, fun j => ?_, ?_, ?_, ?_, fun j => ?_, ?_,
    fun a ha => ?_⟩
  · subst ht
    exact h.examined
  · refine (h.nodes a).same (hsame a) (.inl ?_) ?_ ?_ fun j => hmaking j a
    all_goals subst ht
    · rfl
    · exact Iff.rfl
    · exact fun _ => id
  · refine (h.threads o).same (hthreads o) (fun a _ => (hsame a).uses) (fun a _ ha => ?_)
      fun j a _ => hmaking j a
    subst ht
    exact ha
  · exact (h.callers j).same (hcallers j) (fun a _ => (hsame a).uses)
      (fun a => (hsame a).enqueued.mpr) fun a cb hu hm hn => .inl (hmaking j a cb hu hm hn)
  · subst ht
    exact h.arcs
  · subst ht
    exact horder
  · have hb := h.batch
    subst ht
    exact ⟨hb.base, .inl hphase, hearly, hb.count, hb.calls, hb.entries, hb.due⟩
  · have hold := h.made j
    have hunswapped : t.unswapped j = s.unswapped j := by
      unfold JobLoop.unswapped
      rw [hcallers j]
      refine List.filter_congr fun a _ => ?_
      rw [decide_eq_decide.mpr (hsame a).enqueued]
    rw [hswapped, hunswapped]
    subst ht
    exact hold
  · subst ht
    exact h.makers
  · have hb : s.returned a = true := by
      subst ht
      exact ha
    obtain ⟨hjob, he⟩ := h.returned a hb
    refine ⟨?_, (hsame a).enqueued.mpr he⟩
    subst ht
    exact hjob

theorem JobLoop.Ok.pollRegs (h : s.Ok) {op : PollingOp (Option ι) α} (hop : s.regs.polls op = true)
    (hs : pollingStep s.regs.polling op = some p) (hphase : s.phase = .polling)
    (hearly : p.poller.early = true → s.base = s.regs.pushed.length ∧ s.uncalled.flatMap ran = []) :
    ({ s with regs := { s.regs with polling := p } } : JobLoop ι α C).Ok := by
  obtain ⟨hproducers, hmove⟩ := poll_move h.owned hop hs
  have howned := h.owned.poll hop hs
  have hhand := hmove.handTaken h.hand
  cases hmove with
  | stays henqueued htaken _ hinHand =>
    refine h.moved rfl howned hhand hproducers (fun a => by rw [henqueued]) ?_ ?_ hphase hearly
    · show (p.queue.enqueued.filter s.isJob).eraseDups = _
      rw [henqueued]
      rfl
    · have hold := h.order
      unfold JobLoop.taken JobLoop.handJobs at hold ⊢
      dsimp only
      rw [htaken, hinHand]
      exact hold
  | takes a henqueued htaken _ hnone _ hinHand =>
    refine h.moved rfl howned hhand hproducers (fun a => by rw [henqueued]) ?_ ?_ hphase hearly
    · show (p.queue.enqueued.filter s.isJob).eraseDups = _
      rw [henqueued]
      rfl
    · -- a job that has been dequeued before is due already
      have hold := h.order
      unfold JobLoop.taken JobLoop.handJobs at hold ⊢
      dsimp only
      rw [hnone, Option.toList_none, List.filter_nil, List.append_nil] at hold
      have hiff : s.isJob a = true → (a ∈ s.regs.polling.queue.taken ↔ a ∈ s.due.map Prod.fst) := by
        intro hjob
        rw [← hold, List.mem_eraseDups, List.mem_filter]
        exact ⟨fun ha => ⟨ha, hjob⟩, And.left⟩
      rw [htaken, hinHand]
      refine (swapped_concat s a).trans ?_
      rw [hold]
      show _ = s.due.map Prod.fst ++ [a].filter fun a => s.isJob a && !decide (a ∈ s.due.map Prod.fst)
      by_cases hnew : s.isJob a = true ∧ a ∉ s.regs.polling.queue.taken
      · have hdue : a ∉ s.due.map Prod.fst := fun hd => hnew.2 ((hiff hnew.1).mpr hd)
        rw [if_pos hnew, List.filter_cons_of_pos (by simp only [hnew.1, decide_eq_false hdue]; rfl),
          List.filter_nil]
      · have hnil : ([a].filter fun a => s.isJob a && !decide (a ∈ s.due.map Prod.fst)) = [] := by
          refine List.filter_eq_nil_iff.mpr (List.forall_mem_singleton.mpr fun hyes => ?_)
          obtain ⟨hjob, hdue⟩ := Bool.and_eq_true_iff.mp hyes
          have hdue' : a ∉ s.due.map Prod.fst := by simpa using hdue
          exact hnew ⟨hjob, fun ha => hdue' ((hiff hjob).mp ha)⟩
        rw [if_neg hnew, hnil, List.append_nil]
  | putsBack a ha henqueued htaken _ hinHand =>
    -- the node has been in the queue before
    have hin : a ∈ s.regs.polling.queue.enqueued := h.enqueued_of_taken (h.hand a ha)
    refine h.moved rfl howned hhand hproducers (fun b => ?_) ?_ ?_ hphase hearly
    · rw [henqueued, List.mem_append, List.mem_singleton]
      exact ⟨fun hb => hb.elim id fun he => he ▸ hin, .inl⟩
    · show (p.queue.enqueued.filter s.isJob).eraseDups = _
      rw [henqueued, swapped_concat, if_neg fun hnew => hnew.2 hin]
      rfl
    · have hold := h.order
      unfold JobLoop.taken JobLoop.handJobs at hold ⊢
      dsimp only
      rw [htaken, hinHand]
      exact hold

end Poll

/-! ## The node in hand -/

section Node
variable [DecidableEq ι] [DecidableEq α] {s s' t : JobLoop ι α C} {i : ι} {a : α} {cb : C}
  {regs : Registrations (Option ι) α (Closure α C)}

/-- `prepare_for_sleep` and `select` only come at the beginning. -/
theorem pollingStep_early {p p' : Polling (Option ι) α} {op : PollingOp (Option ι) α}
    (hs : pollingStep p op = some p') (he : p'.poller.early = true) :
    p.poller.early = true ∨ p.poller = .idle := by
  have hloop : ∀ {q q' : Polling (Option ι) α} {call len limit}, q.pollLoop call len limit = some q' →
      q'.poller.early = false := by
    intro q q' call len limit hq
    unfold Polling.pollLoop at hq
    split at hq
    · obtain ⟨r, -, rfl⟩ := Option.map_eq_some_iff.mp hq
      rfl
    · obtain rfl := Option.some.inj hq
      rfl
  cases hp : p.poller with
  | idle => exact .inr rfl
  | prepare | select | cleanup => exact .inl rfl
  | clear | dequeue call len limit | requeue call len limit readiness =>
    exfalso
    unfold pollingStep at hs
    split at hs
    · obtain ⟨q, -, rfl⟩ := Option.map_eq_some_iff.mp hs
      rw [show _ = _ from hp] at he
      cases he
    · rw [(producerStep_queue (p := p) hs).2, hp] at he
      cases he
    · obtain ⟨q, -, rfl⟩ := Option.map_eq_some_iff.mp hs
      rw [show _ = _ from hp] at he
      cases he
    · rename_i hq
      cases hp.symm.trans hq
    · rename_i hq _
      cases hp.symm.trans hq
    · rename_i hq
      cases hp.symm.trans hq
    · rename_i hq
      cases hp.symm.trans hq
    · obtain rfl := Option.some.inj hs
      cases he
    · rename_i requeue readiness call len limit d _ _
      unfold Polling.dequeued at hs
      split at hs
      · split at hs
        · obtain ⟨q, -, rfl⟩ := Option.map_eq_some_iff.mp hs
          cases he
        · rw [hloop hs] at he
          cases he
      · cases hs
      · obtain rfl := Option.some.inj hs
        cases he
      · obtain rfl := Option.some.inj hs
        cases he
    · rw [hloop hs] at he
      cases he
    · cases hs

omit [DecidableEq ι] [DecidableEq α] in
theorem late_of_hold (h : s.regs.Owned) (hload : s.regs.hold ≠ .load) :
    s.regs.polling.poller.early = false := by
  rcases h.hold with hl | ⟨_, _, _, _, hp⟩ | ⟨⟨_, _, _, hp⟩, -⟩
  · exact absurd hl hload
  · rw [hp]
    rfl
  · rw [hp]
    rfl

theorem nodeStep_late (h : s.regs.Owned) (hs : s.regs.nodeStep = some regs) :
    regs.polling.poller.early = false := by
  have hlate : s.regs.polling.poller.early = false ∧ s.regs.polling.poller ≠ .idle := by
    refine ⟨?_, (nodeStep_move h hs).1.poller⟩
    unfold Registrations.nodeStep at hs
    split at hs
    · rename_i hp _
      rw [hp]
      rfl
    · rename_i hp _
      rw [hp]
      rfl
    · rename_i hh _
      exact late_of_hold h (by rw [hh]; simp)
    · rename_i hh _
      exact late_of_hold h (by rw [hh]; simp)
    · rename_i hp _
      rw [hp]
      rfl
    · rename_i hp _
      rw [hp]
      rfl
    · cases hs
  cases he : regs.polling.poller.early with
  | false => rfl
  | true =>
    rcases nodeStep_advances h hs with hp | ⟨op, -, hp⟩
    · rw [hp] at he
      cases hlate.1.symm.trans he
    · rcases pollingStep_early hp he with he' | hidle
      · cases hlate.1.symm.trans he'
      · exact absurd hidle hlate.2

omit [DecidableEq ι] [DecidableEq α] in
/-- Whoever enqueues a job does not mind what the poller does with the nodes in the queue. -/
theorem stillMaking_node (ht : { s with regs := regs } = t) (hframe : NodeFrame s.regs regs)
    (hmoved : ∀ b i cb, s.uses b = .job i cb → b ∉ s.regs.polling.queue.enqueued →
      regs.nodes b = s.regs.nodes b) (j : ι) (b : α) : StillMaking s t j b := by
  intro cb hu hm hnot
  have hsame : NodeSame s t b := by
    subst ht
    exact ⟨rfl, rfl, hmoved b j cb hu hnot, by rw [hframe.lists.enqueued]⟩
  refine stillMaking hsame ?_ ?_ cb hu hm hnot
  all_goals subst ht
  · exact ⟨congrFun hframe.threads _, congrArg Producer.owed (congrFun hframe.producers _)⟩
  · rfl

/-- An access of the poller to the node in hand, with what it does to the nodes and the batch. -/
theorem JobLoop.Ok.nodeRegs (h : s.Ok) (ht : { s with regs := regs } = t) (howned : regs.Owned)
    (hframe : NodeFrame s.regs regs) (hmove : NodeMove s.regs regs)
    (hmoved : ∀ b i cb, s.uses b = .job i cb → b ∉ s.regs.polling.queue.enqueued →
      regs.nodes b = s.regs.nodes b) (hnodes : ∀ b, t.NodeOk b)
    (hshares : ∀ b i cb, s.uses b = .job i cb → s.arcs b = t.shares i b)
    (horder : s.taken = t.due.map Prod.fst ++ t.handJobs) (hbatch : t.BatchOk) : t.Ok := by
  have hmaking := stillMaking_node ht hframe hmoved
  have hthreads : ∀ o, ThreadSame s t o := fun o => by
    subst ht
    exact ⟨congrFun hframe.threads o, congrArg Producer.owed (congrFun hframe.producers o)⟩
  refine ⟨?_, ?_, ?_, hnodes, fun o => ?_, fun j => ?_, ?_, ?_, hbatch, fun j => ?_, ?_, fun b hb => ?_⟩
  · subst ht
    exact howned
  · subst ht
    exact hmove.examined
  · subst ht
    exact hmove.handTaken hframe.lists h.hand
  · refine (h.threads o).same (hthreads o) (fun b _ => ?_) (fun b _ hb => ?_) fun j b _ => hmaking j b
    all_goals subst ht
    · rfl
    · exact hb
  · refine (h.callers j).same ?_ (fun b _ => ?_) (fun b hb => ?_) fun b cb hu hm hn =>
      .inl (hmaking j b cb hu hm hn)
    all_goals subst ht
    · rfl
    · rfl
    · rw [show _ = _ from hframe.lists.enqueued]
      exact hb
  · have huses : t.uses = s.uses ∧ t.arcs = s.arcs := by
      subst ht
      exact ⟨rfl, rfl⟩
    rw [huses.1, huses.2]
    exact hshares
  · refine Eq.trans ?_ horder
    unfold JobLoop.taken
    subst ht
    rw [show _ = _ from taken_congr hframe.lists.dequeued]
    rfl
  · have hold := h.made j
    unfold JobLoop.swapped JobLoop.unswapped at hold ⊢
    subst ht
    rw [show _ = _ from hframe.lists.enqueued]
    exact hold
  · subst ht
    exact h.makers
  · have henqueued : t.regs.polling.queue.enqueued = s.regs.polling.queue.enqueued := by
      subst ht
      exact hframe.lists.enqueued
    rw [henqueued]
    subst ht
    exact h.returned b hb

theorem JobLoop.Ok.nodeQuiet (h : s.Ok) (ht : { s with regs := regs } = t)
    (hs : s.regs.nodeStep = some regs) (hpushed : regs.pushed = s.regs.pushed)
    (hmoved : ∀ b i cb, s.uses b = .job i cb → b ∉ s.regs.polling.queue.enqueued →
      regs.nodes b = s.regs.nodes b) (hnodes : ∀ b, t.NodeOk b) (hhand : t.handJobs = s.handJobs) :
    t.Ok := by
  obtain ⟨hframe, hmove⟩ := nodeStep_move h.owned hs
  have hdue : t.due = s.due := by
    unfold JobLoop.due
    subst ht
    rw [show _ = _ from hpushed]
  have hevents : t.events = s.events := by
    unfold JobLoop.events
    subst ht
    rw [show _ = _ from hpushed]
  have hbatch : t.uncalled = s.uncalled ∧ t.uncleared = s.uncleared := by
    unfold JobLoop.uncalled JobLoop.uncleared
    rw [hevents]
    subst ht
    exact ⟨rfl, rfl⟩
  refine h.nodeRegs ht (h.owned.nodeStep hs) hframe hmove hmoved hnodes (fun b i cb hu => ?_) ?_ ?_
  · refine (h.arcs b i cb hu).trans ?_
    unfold JobLoop.shares
    rw [hdue, hbatch.2]
    subst ht
    rfl
  · rw [hdue, hhand]
    exact h.order
  · have hb := h.batch
    have hphase : s.phase = .polling := hb.poller.resolve_right hframe.poller
    have hlate := nodeStep_late h.owned hs
    refine ⟨?_, ?_, fun he => ?_, fun k cnt hk => ?_, ?_, ?_, ?_⟩
    · subst ht
      rw [show _ = _ from hpushed]
      exact hb.base
    · subst ht
      exact .inl hphase
    · subst ht
      cases hlate.symm.trans he
    · subst ht
      cases hphase.symm.trans hk
    · rw [hdue, hbatch.1]
      subst ht
      exact hb.calls
    · subst ht
      rw [show _ = _ from hpushed]
      exact hb.entries
    · rw [hdue]
      subst ht
      exact hb.due

/-- A job that the poller has dequeued and whose word it has not settled: it is new, or its registration
is gone. -/
theorem JobLoop.Ok.held (h : s.Ok) (hu : s.uses a = .job i cb) (ha : s.regs.holding = some a)
    (hh : s.regs.hold = .load ∨ ∃ state, s.regs.hold = .exchange state) :
    s.regs.nodes a = jobNode queuedWord true false (some (.job a cb)) ∧ a ∉ s.due.map Prod.fst ∨
      s.regs.nodes a = jobNode droppedWord true false none ∧ a ∈ s.due.map Prod.fst := by
  have hin : a ∈ s.regs.polling.queue.enqueued := h.enqueued_of_taken (h.hand a ha)
  have hflag : (s.regs.nodes a).state.isQueued = true := h.owned.books.flagged a .poller ha
  have hon : s.regs.hold.node ≠ some a := by
    rcases hh with hh | ⟨state, hh⟩ <;> rw [hh] <;> exact fun he => by cases he
  have hnode := h.nodes a
  unfold JobLoop.NodeOk at hnode
  rw [hu] at hnode
  cases hnode.2 with
  | making _ hnot => exact absurd hin hnot
  | queued _ _ hn hd => exact .inl ⟨hn, hd⟩
  | taken event _ _ hh' =>
    refine absurd ?_ hon
    rcases hh' with hh' | hh' <;> rw [hh'] <;> rfl
  | pushed _ hh' =>
    refine absurd ?_ hon
    rw [hh']
    rfl
  | delivered _ _ hn hd =>
    rcases hn with hn | hn
    · rw [hn] at hflag
      cases queued_polled.2.2.2.1.symm.trans hflag
    · exact .inr ⟨hn, hd⟩

theorem JobLoop.Ok.at_hand (h : s.Ok) (hu : s.uses a = .job i cb) (ha : s.regs.hold.node = some a) :
    a ∈ s.regs.polling.queue.enqueued ∧
      s.regs.nodes a = jobNode pushedWord true false (some (.job a cb)) ∧
      ((∃ event, event.token = ⟨.otherEvent, ⟨0⟩⟩ ∧
          (s.regs.hold = .token a event.kind 1 ∨ s.regs.hold = .push a event) ∧ a ∉ s.due.map Prod.fst) ∨
        s.regs.hold = .clear a ∧ a ∈ s.due.map Prod.fst) := by
  have hnode := h.nodes a
  unfold JobLoop.NodeOk at hnode
  rw [hu] at hnode
  cases hnode.2 with
  | making _ _ hh => exact absurd ha hh
  | queued _ hh => exact absurd ha hh
  | taken event hin htoken hh hn hd => exact ⟨hin, hn, .inl ⟨event, htoken, hh, hd⟩⟩
  | pushed hin hh hn hd => exact ⟨hin, hn, .inr ⟨hh, hd⟩⟩
  | delivered _ hh => exact absurd ha hh

omit [DecidableEq ι] [DecidableEq α] in
theorem nodeOk_other (hu : t.uses a = .other) (hassociated : t.associated a = true)
    (hjob : capture (t.regs.nodes a).job = none) : t.NodeOk a := by
  unfold JobLoop.NodeOk
  rw [hu]
  exact ⟨hassociated, hjob⟩

omit [DecidableEq ι] [DecidableEq α] in
theorem nodeOk_job (hu : t.uses a = .job i cb) (hassociated : t.associated a = true)
    (hjourney : t.Journey a i cb) : t.NodeOk a := by
  unfold JobLoop.NodeOk
  rw [hu]
  exact ⟨fun _ => hassociated, hjourney⟩

theorem JobLoop.Ok.other (h : s.Ok) (hu : s.uses a = .other) :
    s.associated a = true ∧ capture (s.regs.nodes a).job = none := by
  have hnode := h.nodes a
  unfold JobLoop.NodeOk at hnode
  rw [hu] at hnode
  exact hnode

theorem JobLoop.Ok.unmade (h : s.Ok) (hu : s.uses a = .unmade) :
    a ∉ s.regs.polling.queue.enqueued ∧ s.regs.hold.node ≠ some a := by
  have hnode := h.nodes a
  unfold JobLoop.NodeOk at hnode
  rw [hu] at hnode
  exact hnode.2

theorem JobLoop.Ok.associated (h : s.Ok) (hu : s.uses a = .job i cb)
    (ha : a ∈ s.regs.polling.queue.enqueued) : s.associated a = true := by
  have hnode := h.nodes a
  unfold JobLoop.NodeOk at hnode
  rw [hu] at hnode
  exact hnode.1 ha

omit [DecidableEq ι] in
theorem handJobs_eq (hinHand : s.regs.inHand = some a) :
    s.handJobs = if s.isJob a = true ∧ a ∉ s.due.map Prod.fst then [a] else [] := by
  unfold JobLoop.handJobs
  rw [hinHand]
  show ([a].filter fun a => s.isJob a && !decide (a ∈ s.due.map Prod.fst)) = _
  rw [List.filter_singleton, Bool.cond_eq_ite]
  refine if_congr ?_ rfl rfl
  simp

omit [DecidableEq ι] in
theorem handJobs_none (hinHand : s.regs.inHand = none) : s.handJobs = [] := by
  unfold JobLoop.handJobs
  rw [hinHand]
  rfl

omit [DecidableEq ι] [DecidableEq α] in
theorem uses_of_isJob (h : s.isJob a = true) : ∃ i cb, s.uses a = .job i cb := by
  unfold JobLoop.isJob at h
  split at h
  · exact ⟨_, _, ‹_›⟩
  · cases h

theorem JobLoop.Ok.nodeElse (h : s.Ok) (hs : s.regs.nodeStep = some regs)
    (hpushed : regs.pushed = s.regs.pushed)
    (hmoved : ∀ b i cb, s.uses b = .job i cb → b ∉ s.regs.polling.queue.enqueued →
      regs.nodes b = s.regs.nodes b) (hnode : regs.nodes a = s.regs.nodes a)
    (hhold : s.regs.hold.node ≠ some a) (hhold' : regs.hold.node ≠ some a) :
    ({ s with regs := regs } : JobLoop ι α C).NodeOk a := by
  have hframe := (nodeStep_move h.owned hs).1
  have hsame : NodeSame s { s with regs := regs } a :=
    ⟨rfl, rfl, hnode, by rw [show _ = _ from hframe.lists.enqueued]⟩
  refine (h.nodes a).same hsame (.inr ⟨hhold, hhold'⟩) ?_ ?_ fun j =>
    stillMaking_node rfl hframe hmoved j a
  · unfold JobLoop.due
    rw [show _ = _ from hpushed]
  · unfold JobLoop.uncleared JobLoop.events
    rw [show _ = _ from hpushed]
    exact fun _ => id

theorem JobLoop.Ok.examines (h : s.Ok) (hs : s.regs.nodeStep = some regs)
    (hpushed : regs.pushed = s.regs.pushed) (hnodes : regs.nodes = s.regs.nodes)
    (hhold : s.regs.hold.node = none) (hhold' : regs.hold.node = none)
    (hhand : ({ s with regs := regs } : JobLoop ι α C).handJobs = s.handJobs) :
    ({ s with regs := regs } : JobLoop ι α C).Ok := by
  have hmoved : ∀ b i cb, s.uses b = .job i cb → b ∉ s.regs.polling.queue.enqueued →
      regs.nodes b = s.regs.nodes b := fun b _ _ _ _ => by rw [hnodes]
  refine h.nodeQuiet rfl hs hpushed hmoved (fun b => ?_) hhand
  exact h.nodeElse hs hpushed hmoved (by rw [hnodes]) (by rw [hhold]; simp) (by rw [hhold']; simp)

/-- The word of the node in hand is settled: the one of a job gives its token. -/
theorem JobLoop.Ok.settles (h : s.Ok) (hs : s.regs.nodeStep = some regs)
    (hpushed : regs.pushed = s.regs.pushed) (ha : s.regs.holding = some a)
    (hinHand : s.regs.inHand = some a)
    (hh : s.regs.hold = .load ∨ ∃ state, s.regs.hold = .exchange state)
    (hword : (s.regs.word a).isDropped = false ∨ s.regs.hold = .exchange (s.regs.word a))
    (hnodes : regs.nodes =
      Function.update s.regs.nodes a { s.regs.nodes a with state := (s.regs.word a).afterPoll })
    (hh' : regs.hold = if (s.regs.word a).effectiveReadiness.isEmpty then .load
      else .token a (s.regs.word a).effectiveReadiness (s.regs.word a).afterPoll.tokenReadPos)
    (hinHand' : regs.inHand = if (s.regs.word a).effectiveReadiness.isEmpty then none else some a) :
    ({ s with regs := regs } : JobLoop ι α C).Ok := by
  have hin : a ∈ s.regs.polling.queue.enqueued := h.enqueued_of_taken (h.hand a ha)
  have henqueued : a ∈ regs.polling.queue.enqueued := by
    rw [(nodeStep_move h.owned hs).1.lists.enqueued]
    exact hin
  have hdue : ({ s with regs := regs } : JobLoop ι α C).due = s.due := by
    unfold JobLoop.due
    rw [show _ = _ from hpushed]
  have hne : ∀ b, b ≠ a → regs.nodes b = s.regs.nodes b := fun b hb => by
    rw [hnodes]
    exact Function.update_of_ne hb ..
  have hnodea : regs.nodes a = { s.regs.nodes a with state := (s.regs.word a).afterPoll } := by
    rw [hnodes]
    exact Function.update_self ..
  have hmoved : ∀ b i cb, s.uses b = .job i cb → b ∉ s.regs.polling.queue.enqueued →
      regs.nodes b = s.regs.nodes b := fun b _ _ _ hnot => hne b fun he => hnot (he ▸ hin)
  -- a job in hand is new
  have hnew : ∀ i cb, s.uses a = .job i cb →
      s.regs.nodes a = jobNode queuedWord true false (some (.job a cb)) ∧ a ∉ s.due.map Prod.fst := by
    intro i cb hu
    refine (h.held hu ha hh).resolve_right fun ⟨hn, _⟩ => ?_
    have hwordn : s.regs.word a = droppedWord := congrArg Node.state hn
    rcases hword with hlive | hex
    · rw [hwordn] at hlive
      cases dropped_word.1.symm.trans hlive
    · have hlive := h.examined _ hex
      rw [hwordn] at hlive
      cases dropped_word.1.symm.trans hlive
  refine h.nodeQuiet rfl hs hpushed hmoved (fun b => ?_) ?_
  · by_cases hb : b = a
    · subst hb
      cases hu : s.uses b with
      | unmade => exact absurd hin (h.unmade hu).1
      | other =>
        obtain ⟨hassociated, hjob⟩ := h.other hu
        exact nodeOk_other hu hassociated ((congrArg (fun n => capture (Node.job n)) hnodea).trans hjob)
      | job i cb =>
        obtain ⟨hn, hd⟩ := hnew i cb hu
        have hwordn : s.regs.word b = queuedWord := congrArg Node.state hn
        obtain ⟨-, -, hready, -, hpos⟩ := queued_polled
        refine nodeOk_job hu (h.associated hu hin) (.taken
          ⟨queuedWord.effectiveReadiness, ⟨.otherEvent, ⟨0⟩⟩⟩ henqueued rfl (.inl ?_) ?_
          (by rw [hdue]; exact hd))
        · refine hh'.trans ?_
          rw [hwordn, hready]
          show Hold.token b _ pushedWord.tokenReadPos = _
          rw [hpos]
        · refine hnodea.trans ?_
          rw [hn, hwordn]
          rfl
    · refine h.nodeElse hs hpushed hmoved (hne b hb) ?_ ?_
      · rcases hh with hh | ⟨state, hh⟩ <;> rw [hh] <;> exact fun he => by cases he
      · rw [hh']
        split
        · exact fun he => by cases he
        · exact fun he => hb (Option.some.inj he).symm
  · rw [handJobs_eq hinHand]
    by_cases hempty : (s.regs.word a).effectiveReadiness.isEmpty = true
    · rw [if_pos hempty] at hinHand'
      rw [handJobs_none (s := { s with regs := regs }) hinHand', if_neg]
      rintro ⟨hjob, -⟩
      obtain ⟨i, cb, hu⟩ := uses_of_isJob hjob
      rw [show s.regs.word a = queuedWord from congrArg Node.state (hnew i cb hu).1] at hempty
      cases queued_polled.2.2.1.symm.trans hempty
    · rw [if_neg hempty] at hinHand'
      rw [handJobs_eq (s := { s with regs := regs }) hinHand', hdue]
      rfl

/-- The poller reads the token, the one `register` has stored for a job. -/
theorem JobLoop.Ok.reads (h : s.Ok) (hs : s.regs.nodeStep = some regs)
    (hpushed : regs.pushed = s.regs.pushed) {readiness : Ready} {pos : Usize} {token : TokenEntry}
    (hh : s.regs.hold = .token a readiness pos) (htoken : (s.regs.nodes a).token pos = some token)
    (hnodes : regs.nodes = s.regs.nodes) (hh' : regs.hold = .push a ⟨readiness, token⟩) :
    ({ s with regs := regs } : JobLoop ι α C).Ok := by
  have hat : s.regs.hold.node = some a := by
    rw [hh]
    rfl
  have hdue : ({ s with regs := regs } : JobLoop ι α C).due = s.due := by
    unfold JobLoop.due
    rw [show _ = _ from hpushed]
  have hinHand : s.regs.inHand = some a := inHand_of_node hat fun b hb => by cases hh.symm.trans hb
  have hinHand' : regs.inHand = some a := inHand_of_node (by rw [hh']; rfl) fun b hb => by
    cases hh'.symm.trans hb
  have hmoved : ∀ b i cb, s.uses b = .job i cb → b ∉ s.regs.polling.queue.enqueued →
      regs.nodes b = s.regs.nodes b := fun b _ _ _ _ => by rw [hnodes]
  refine h.nodeQuiet rfl hs hpushed hmoved (fun b => ?_) ?_
  · by_cases hb : b = a
    · subst hb
      cases hu : s.uses b with
      | unmade => exact absurd hat (h.unmade hu).2
      | other =>
        obtain ⟨hassociated, hjob⟩ := h.other hu
        refine nodeOk_other hu hassociated ?_
        show capture (regs.nodes b).job = none
        rw [hnodes]
        exact hjob
      | job i cb =>
        obtain ⟨hin, hn, ⟨event, -, hor, hd⟩ | ⟨hclear, -⟩⟩ := h.at_hand hu hat
        · have hpos : pos = 1 := by
            rcases hor with hor | hor
            · exact (Hold.token.inj (hh.symm.trans hor)).2.2
            · cases hh.symm.trans hor
          subst hpos
          have htok : token = ⟨.otherEvent, ⟨0⟩⟩ := by
            rw [hn] at htoken
            exact (Option.some.inj htoken).symm
          have henqueued : b ∈ regs.polling.queue.enqueued := by
            rw [(nodeStep_move h.owned hs).1.lists.enqueued]
            exact hin
          refine nodeOk_job hu (h.associated hu hin) (.taken ⟨readiness, token⟩ henqueued htok (.inr hh')
            ?_ (by rw [hdue]; exact hd))
          show regs.nodes b = _
          rw [hnodes]
          exact hn
        · cases hh.symm.trans hclear
    · refine h.nodeElse hs hpushed hmoved (by rw [hnodes]) ?_ ?_
      · rw [hat]
        exact fun he => hb (Option.some.inj he).symm
      · rw [hh']
        exact fun he => hb (Option.some.inj he).symm
  · rw [handJobs_eq hinHand, handJobs_eq (s := { s with regs := regs }) hinHand', hdue]
    rfl

theorem JobLoop.Ok.clears (h : s.Ok) (hs : s.regs.nodeStep = some regs)
    (hpushed : regs.pushed = s.regs.pushed) (hh : s.regs.hold = .clear a)
    (hnodes : regs.nodes = Function.update s.regs.nodes a { s.regs.nodes a with job := none })
    (hh' : regs.hold = .load) (hholding : regs.holding = none) :
    ({ s with regs := regs } : JobLoop ι α C).Ok := by
  have hat : s.regs.hold.node = some a := by
    rw [hh]
    rfl
  have hdue : ({ s with regs := regs } : JobLoop ι α C).due = s.due := by
    unfold JobLoop.due
    rw [show _ = _ from hpushed]
  have hne : ∀ b, b ≠ a → regs.nodes b = s.regs.nodes b := fun b hb => by
    rw [hnodes]
    exact Function.update_of_ne hb ..
  have hnodea : regs.nodes a = { s.regs.nodes a with job := none } := by
    rw [hnodes]
    exact Function.update_self ..
  have hmoved : ∀ b i cb, s.uses b = .job i cb → b ∉ s.regs.polling.queue.enqueued →
      regs.nodes b = s.regs.nodes b := by
    intro b i cb hu hnot
    refine hne b fun he => hnot ?_
    subst he
    exact (h.at_hand hu hat).1
  refine h.nodeQuiet rfl hs hpushed hmoved (fun b => ?_) ?_
  · by_cases hb : b = a
    · subst hb
      cases hu : s.uses b with
      | unmade => exact absurd hat (h.unmade hu).2
      | other =>
        exact nodeOk_other hu (h.other hu).1 (congrArg (fun n => capture (Node.job n)) hnodea)
      | job i cb =>
        obtain ⟨hin, hn, ⟨event, -, hor, -⟩ | ⟨-, hd⟩⟩ := h.at_hand hu hat
        · rcases hor with hor | hor <;> cases hh.symm.trans hor
        · have henqueued : b ∈ regs.polling.queue.enqueued := by
            rw [(nodeStep_move h.owned hs).1.lists.enqueued]
            exact hin
          refine nodeOk_job hu (h.associated hu hin) (.delivered henqueued ?_ (.inl ?_)
            (by rw [hdue]; exact hd))
          · show regs.hold.node ≠ _
            rw [hh']
            exact fun he => by cases he
          · refine hnodea.trans ?_
            rw [hn]
            rfl
    · refine h.nodeElse hs hpushed hmoved (hne b hb) ?_ ?_
      · rw [hat]
        exact fun he => hb (Option.some.inj he).symm
      · rw [hh']
        exact fun he => by cases he
  · have hinHand : s.regs.inHand = none := by
      unfold Registrations.inHand
      rw [hh]
    rw [handJobs_none hinHand, handJobs_none (s := { s with regs := regs }) (inHand_of_load hh' hholding)]

omit [DecidableEq ι] [DecidableEq α] in
theorem batch_pushed (hb : s.BatchOk) {e : α × Event × Option (Closure α C)}
    (hphase : s.phase = .polling) (hpushed : regs.pushed = s.regs.pushed ++ [e])
    (ht : { s with regs := regs } = t) :
    t.due = s.due ++ ran (pushEvent e.2.1 e.2.2) ∧
      t.uncalled = s.uncalled ++ [pushEvent e.2.1 e.2.2] ∧
      t.uncleared = s.uncleared ++ [pushEvent e.2.1 e.2.2] := by
  have hevents : t.events = s.events ++ [pushEvent e.2.1 e.2.2] := by
    unfold JobLoop.events
    subst ht
    rw [show _ = _ from hpushed, List.drop_append_of_le_length hb.base, List.map_append,
      List.append_assoc]
    rfl
  refine ⟨?_, ?_, ?_⟩
  · unfold JobLoop.due
    subst ht
    rw [show _ = _ from hpushed, List.flatMap_append, List.flatMap_singleton]
  · unfold JobLoop.uncalled
    rw [hevents, show t.phase = .polling by subst ht; exact hphase, hphase]
  · unfold JobLoop.uncleared
    rw [hevents, show t.phase = .polling by subst ht; exact hphase, hphase]

theorem JobLoop.Ok.pushes (h : s.Ok) (hs : s.regs.nodeStep = some regs) {event : Event}
    (hh : s.regs.hold = .push a event) (hnodes : regs.nodes = s.regs.nodes)
    (hh' : regs.hold = .clear a)
    (hpushed : regs.pushed = s.regs.pushed ++ [(a, event, (s.regs.nodes a).job)]) :
    ({ s with regs := regs } : JobLoop ι α C).Ok := by
  obtain ⟨hframe, hmove⟩ := nodeStep_move h.owned hs
  have hb := h.batch
  have hphase : s.phase = .polling := hb.poller.resolve_right hframe.poller
  generalize ht : ({ s with regs := regs } : JobLoop ι α C) = t
  obtain ⟨hdue, huncalled, huncleared⟩ := batch_pushed hb hphase hpushed ht
  dsimp only at hdue huncalled huncleared
  have hat : s.regs.hold.node = some a := by
    rw [hh]
    rfl
  have hmoved : ∀ b i cb, s.uses b = .job i cb → b ∉ s.regs.polling.queue.enqueued →
      regs.nodes b = s.regs.nodes b := fun b _ _ _ _ => by rw [hnodes]
  have hinHand : s.regs.inHand = some a := inHand_of_node hat fun b hb => by cases hh.symm.trans hb
  have hhand : t.handJobs = [] := by
    refine handJobs_none ?_
    subst ht
    unfold Registrations.inHand
    rw [show _ = _ from hh']
  -- the entry is of the job, which is not due yet, or of no job
  have hentry : (∃ i cb, s.uses a = .job i cb ∧
        s.regs.nodes a = jobNode pushedWord true false (some (.job a cb)) ∧
        a ∈ s.regs.polling.queue.enqueued ∧ a ∉ s.due.map Prod.fst ∧
        ran (pushEvent event (s.regs.nodes a).job) = [(a, cb)]) ∨
      s.uses a = .other ∧ capture (s.regs.nodes a).job = none ∧
        ran (pushEvent event (s.regs.nodes a).job) = [] := by
    cases hu : s.uses a with
    | unmade => exact absurd hat (h.unmade hu).2
    | other => exact .inr ⟨rfl, (h.other hu).2, ran_of_capture (h.other hu).2⟩
    | job i cb =>
      obtain ⟨hin, hn, ⟨event', htoken, hor, hd⟩ | ⟨hclear, -⟩⟩ := h.at_hand hu hat
      · have hevent : event.token = ⟨.otherEvent, ⟨0⟩⟩ := by
          rcases hor with hor | hor
          · cases hh.symm.trans hor
          · rw [(Hold.push.inj (hh.symm.trans hor)).2]
            exact htoken
        refine .inl ⟨i, cb, rfl, hn, hin, hd, ?_⟩
        rw [hn]
        unfold ran pushEvent
        rw [hevent]
        rfl
      · cases hh.symm.trans hclear
  have hadds : (ran (pushEvent event (s.regs.nodes a).job)).map Prod.fst =
      (capture (s.regs.nodes a).job).toList := by
    rcases hentry with ⟨i, cb, -, hn, -, -, hran⟩ | ⟨-, hcapture, hran⟩
    · rw [hran, hn]
      rfl
    · rw [hran, hcapture]
      rfl
  have hothers : ∀ b, b ≠ a → (b ∈ t.due.map Prod.fst ↔ b ∈ s.due.map Prod.fst) ∧
      (b ∈ (t.uncleared.flatMap ran).map Prod.fst ↔ b ∈ (s.uncleared.flatMap ran).map Prod.fst) := by
    intro b hba
    have hno : b ∉ (ran (pushEvent event (s.regs.nodes a).job)).map Prod.fst := by
      rcases hentry with ⟨i, cb, -, -, -, -, hran⟩ | ⟨-, -, hran⟩
      · rw [hran]
        exact fun hm => hba (List.mem_singleton.mp hm)
      · rw [hran]
        exact List.not_mem_nil
    rw [hdue, huncleared, List.flatMap_append, List.flatMap_singleton, List.map_append, List.map_append,
      List.mem_append, List.mem_append]
    exact ⟨or_iff_left hno, or_iff_left hno⟩
  refine h.nodeRegs ht (h.owned.nodeStep hs) hframe hmove hmoved (fun b => ?_) (fun b i cb hu => ?_) ?_ ?_
  · by_cases hba : b = a
    · subst hba
      rcases hentry with ⟨i, cb, hu, hn, hin, hd, hran⟩ | ⟨hu, hcapture, hran⟩
      · have hmem : b ∈ t.due.map Prod.fst ∧ b ∈ (t.uncleared.flatMap ran).map Prod.fst := by
          rw [hdue, huncleared, List.flatMap_append, List.flatMap_singleton, hran]
          simp
        refine nodeOk_job (by subst ht; exact hu) (by subst ht; exact h.associated hu hin)
          (.pushed ?_ ?_ ?_ hmem.1 hmem.2)
        all_goals subst ht
        · rw [show _ = _ from hframe.lists.enqueued]
          exact hin
        · exact hh'
        · show regs.nodes b = _
          rw [hnodes]
          exact hn
      · refine nodeOk_other (by subst ht; exact hu) (by subst ht; exact (h.other hu).1) ?_
        subst ht
        show capture (regs.nodes b).job = none
        rw [hnodes]
        exact hcapture
    · have hsame : NodeSame s t b := by
        subst ht
        exact ⟨rfl, rfl, by rw [hnodes], by rw [hframe.lists.enqueued]⟩
      refine (h.nodes b).same hsame (.inr ⟨?_, ?_⟩) (hothers b hba).1 (fun _ => (hothers b hba).2.mpr)
        fun j => stillMaking_node ht hframe hmoved j b
      · rw [hat]
        exact fun he => hba (Option.some.inj he).symm
      · subst ht
        rw [show _ = _ from hh']
        exact fun he => hba (Option.some.inj he).symm
  · refine (h.arcs b i cb hu).trans ?_
    unfold JobLoop.shares
    rw [show t.callers = s.callers by subst ht; rfl]
    refine congrArg _ (if_congr ?_ rfl rfl)
    by_cases hba : b = a
    · subst hba
      rcases hentry with ⟨i', cb', -, -, -, hd, hran⟩ | ⟨hu', -⟩
      · have hmem : b ∈ (t.uncleared.flatMap ran).map Prod.fst := by
          rw [huncleared, List.flatMap_append, List.flatMap_singleton, hran]
          simp
        exact iff_of_true (.inl hd) (.inr hmem)
      · cases hu.symm.trans hu'
    · rw [(hothers b hba).1, (hothers b hba).2]
  · rw [h.order, hhand, List.append_nil, hdue, List.map_append, hadds, handJobs_eq hinHand]
    refine congrArg _ ?_
    rcases hentry with ⟨i, cb, hu, hn, -, hd, -⟩ | ⟨hu, hcapture, -⟩
    · rw [if_pos ⟨isJob_of_uses hu, hd⟩, hn]
      rfl
    · rw [hcapture, if_neg]
      · rfl
      · rintro ⟨hjob, -⟩
        obtain ⟨i, cb, hu'⟩ := uses_of_isJob hjob
        cases hu.symm.trans hu'
  · refine ⟨?_, ?_, fun he => ?_, fun k cnt hk => ?_, ?_, ?_, fun b cb hm => ?_⟩
    · subst ht
      rw [show _ = _ from hpushed, List.length_append]
      exact hb.base.trans (Nat.le_add_right _ _)
    · subst ht
      exact .inl hphase
    · subst ht
      cases (nodeStep_late h.owned hs).symm.trans he
    · subst ht
      cases hphase.symm.trans hk
    · rw [hdue, huncalled, List.flatMap_append, List.flatMap_singleton, ← hb.calls, ← List.append_assoc]
      subst ht
      rfl
    · intro e he
      have hm : e ∈ s.regs.pushed ++ [(a, event, (s.regs.nodes a).job)] := by
        subst ht
        rwa [show _ = _ from hpushed] at he
      rcases List.mem_append.mp hm with hold | hnew
      · exact hb.entries e hold
      · rw [List.mem_singleton.mp hnew]
        exact hadds
    · rw [show t.uses = s.uses by subst ht; rfl]
      rw [hdue] at hm
      rcases List.mem_append.mp hm with hold | hnew
      · exact hb.due b cb hold
      · rcases hentry with ⟨i, cb', hu, -, -, -, hran⟩ | ⟨-, -, hran⟩
        · rw [hran] at hnew
          obtain ⟨rfl, rfl⟩ := Prod.mk.inj (List.mem_singleton.mp hnew)
          exact ⟨i, hu⟩
        · rw [hran] at hnew
          cases hnew

/-- **An access of the poller to the node in hand.** -/
theorem JobLoop.Ok.node (h : s.Ok) (hs : s.regs.nodeStep = some regs) :
    ({ s with regs := regs } : JobLoop ι α C).Ok := by
  have hpast : s.regs.hold = .load ∨ (∃ state, s.regs.hold = .exchange state) →
      s.regs.hold.node = none := by
    rintro (hh | ⟨state, hh⟩) <;> rw [hh] <;> rfl
  have hdue : regs.pushed = s.regs.pushed → ({ s with regs := regs } : JobLoop ι α C).due = s.due := by
    intro hpushed
    unfold JobLoop.due
    rw [show _ = _ from hpushed]
  cases (nodeStep_move h.owned hs).2 with
  | releases a ha hinHand hh hdropped hnodes hh' _ hinHand' hpushed =>
    refine h.examines hs hpushed hnodes (hpast hh) (by rw [hh']; rfl) ?_
    -- a job whose registration is gone is due
    rw [handJobs_none (s := { s with regs := regs }) hinHand', handJobs_eq hinHand, if_neg]
    rintro ⟨hjob, hnot⟩
    obtain ⟨i, cb, hu⟩ := uses_of_isJob hjob
    rcases h.held hu ha hh with ⟨hn, -⟩ | ⟨-, hd⟩
    · rw [show s.regs.word a = queuedWord from congrArg Node.state hn] at hdropped
      cases queued_polled.1.symm.trans hdropped
    · exact hnot hd
  | examines a ha hinHand hh _ hnodes hh' _ hinHand' hpushed =>
    refine h.examines hs hpushed hnodes (hpast hh) (by rw [hh']; rfl) ?_
    rw [handJobs_eq (s := { s with regs := regs }) hinHand', handJobs_eq hinHand, hdue hpushed]
    rfl
  | settles a ha hinHand hh hword hnodes hh' _ hinHand' hpushed =>
    exact h.settles hs hpushed ha hinHand hh hword hnodes hh' hinHand'
  | reads a readiness pos token hh htoken hnodes hh' _ hpushed =>
    exact h.reads hs hpushed hh htoken hnodes hh'
  | pushes a event hh hnodes hh' _ hpushed => exact h.pushes hs hh hnodes hh' hpushed
  | clears a hh hnodes hh' hholding hpushed => exact h.clears hs hpushed hh hnodes hh' hholding

end Node

end MyMio

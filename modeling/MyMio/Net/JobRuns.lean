import MyMio.Net.JobBatch

/-! # The jobs over whole runs

`io_process` and `events.clear()` go through the batch, and the invariant holds in every state that an
event loop reaches.
-/

namespace MyMio
set_option autoImplicit false

open BrokenQueue StepSystem Firsts Registrations

universe u v w

variable {ι : Type v} {α : Type u} {C : Type w} [DecidableEq ι] [DecidableEq α]

/-! ## The turns of the event loop -/

section Turns
variable {s s' t : JobLoop ι α C} {i : ι} {a : α} {cb : C}

theorem JobLoop.Ok.turn (h : s.Ok) {phase : LoopPhase} {selected : List (Event × Option C)} {base : ℕ}
    {called : List (α × C)} {arcs : α → ℕ}
    (ht : { s with
      phase := phase, selected := selected, base := base, called := called, arcs := arcs } = t)
    (hbatch : t.BatchOk) (harcs : ∀ a, s.arcs a = 0 → arcs a = 0)
    (hshares : ∀ a i cb, s.uses a = .job i cb → arcs a = t.shares i a)
    (huncleared : ∀ a, s.regs.hold = .clear a → a ∈ (s.uncleared.flatMap ran).map Prod.fst →
      a ∈ (t.uncleared.flatMap ran).map Prod.fst) : t.Ok := by
  have hsame : ∀ a, NodeSame s t a := fun a => by
    subst ht
    exact ⟨rfl, rfl, rfl, Iff.rfl⟩
  have hthreads : ∀ o, ThreadSame s t o := fun o => by
    subst ht
    exact ⟨rfl, rfl⟩
  have hcallers : ∀ j, t.callers j = s.callers j := fun j => by
    subst ht
    rfl
  have hmaking : ∀ j a, StillMaking s t j a := fun j a =>
    stillMaking (hsame a) (hthreads _) (hcallers j)
  refine ⟨?_, ?_, ?_, fun a => ?_, fun o => ?_, fun j => ?_, ?_, ?_, hbatch, ?_, ?_, ?_⟩
  · subst ht
    exact h.owned
  · subst ht
    exact h.examined
  · subst ht
    exact h.hand
  · refine (h.nodes a).same (hsame a) (.inl ?_) ?_ (huncleared a) fun j => hmaking j a
    all_goals subst ht
    · rfl
    · exact Iff.rfl
  · refine (h.threads o).same (hthreads o) (fun a _ => (hsame a).uses) (fun a _ ha => ?_)
      fun j a _ => hmaking j a
    subst ht
    exact harcs a ha
  · exact (h.callers j).same (hcallers j) (fun a _ => (hsame a).uses)
      (fun a => (hsame a).enqueued.mpr) fun a cb hu hm hn => .inl (hmaking j a cb hu hm hn)
  · intro a i cb hu
    have hu' : s.uses a = .job i cb := (hsame a).uses.symm.trans hu
    rw [show t.arcs = arcs by subst ht; rfl]
    exact hshares a i cb hu'
  · subst ht
    exact h.order
  · subst ht
    exact h.made
  · subst ht
    exact h.makers
  · subst ht
    exact h.returned

theorem JobLoop.Ok.turnQuiet (h : s.Ok) {phase : LoopPhase} {selected : List (Event × Option C)}
    {base : ℕ} {called : List (α × C)}
    (ht : { s with phase := phase, selected := selected, base := base, called := called } = t)
    (hbatch : t.BatchOk) (huncleared : t.uncleared.flatMap ran = s.uncleared.flatMap ran) : t.Ok := by
  have ht' : { s with
    phase := phase, selected := selected, base := base, called := called, arcs := s.arcs } = t := ht
  refine h.turn ht' hbatch (fun _ => id) (fun a i cb hu => ?_) fun a _ ha => by rw [huncleared]; exact ha
  refine (h.arcs a i cb hu).trans ?_
  unfold JobLoop.shares
  rw [huncleared]
  subst ht
  rfl

omit [DecidableEq ι] [DecidableEq α] in
/-- Before anything has been pushed, nothing in the batch is a job. -/
theorem events_empty (h : s.base = s.regs.pushed.length) : s.events.flatMap ran = [] := by
  rw [events_ran, h, List.drop_length]
  rfl

theorem JobLoop.Ok.polling (h : s.Ok) (hidle : s.phase = .idle) :
    ({ s with phase := .polling, selected := [], base := s.regs.pushed.length } : JobLoop ι α C).Ok := by
  have hb := h.batch
  have hempty : ({ s with phase := .polling, selected := [], base := s.regs.pushed.length } :
      JobLoop ι α C).events.flatMap ran = [] := events_empty rfl
  have hcalls := hb.calls
  unfold JobLoop.uncalled at hcalls
  rw [hidle] at hcalls
  refine h.turnQuiet rfl ⟨le_refl _, .inl rfl, fun _ => ⟨rfl, hempty⟩, fun _ _ he => (by cases he), ?_,
    hb.entries, hb.due⟩ ?_
  · refine Eq.trans ?_ hcalls
    exact congrArg _ hempty
  · unfold JobLoop.uncleared
    rw [hidle]
    exact hempty

theorem JobLoop.Ok.runOnce (h : s.Ok) {timeout : Option ℕ}
    (hs : jobLoopStep s (.runOnce timeout) = some s') : s'.Ok := by
  simp only [jobLoopStep] at hs
  split at hs
  · rename_i hidle
    obtain ⟨regs, hregs, rfl⟩ := Option.map_eq_some_iff.mp hs
    simp only [registrationsStep, Registrations.polls, if_true] at hregs
    obtain ⟨p, hp, rfl⟩ := Option.map_eq_some_iff.mp hregs
    exact (h.polling hidle).pollRegs rfl hp rfl fun _ => ⟨rfl, events_empty rfl⟩
  · cases hs

theorem JobLoop.Ok.pollOp (h : s.Ok) {op : PollingOp (Option ι) α} {p : Polling (Option ι) α}
    (hop : s.regs.polls op = true) (hpoll2 : ∀ call timeout, op ≠ .poll2 call timeout)
    (hs : pollingStep s.regs.polling op = some p) :
    s.phase = .polling ∧ ({ s with regs := { s.regs with polling := p } } : JobLoop ι α C).Ok := by
  have hbusy : s.regs.polling.poller ≠ .idle := by
    intro hidle
    have hrest := h.owned.ok.poller
    unfold Polling.PollerOk at hrest
    rw [hidle] at hrest
    obtain ⟨ret, hret⟩ := hrest
    cases op with
    | begin | producer => cases hop
    | poll2 call timeout => exact hpoll2 call timeout rfl
    | consumer =>
      obtain ⟨q, hq, -⟩ := Option.map_eq_some_iff.mp hs
      unfold Queue.consumerStep at hq
      rw [hret] at hq
      cases hq
    | _ => simp [pollingStep, hidle] at hs
  have hphase : s.phase = .polling := h.batch.poller.resolve_right hbusy
  refine ⟨hphase, h.pollRegs hop hs hphase fun he => ?_⟩
  rcases pollingStep_early hs he with he' | hidle
  · exact h.batch.early he'
  · exact absurd hidle hbusy

omit [DecidableEq ι] in
theorem selected_eq {p p' : Polling ι α} {res : SelectResult} [DecidableEq ι]
    (hs : pollingStep p (.selected res) = some p') :
    ∃ call timeout, p.poller = .select call timeout ∧ p.selected call timeout res = some p' := by
  cases hp : p.poller with
  | select call timeout =>
    simp only [pollingStep, hp] at hs
    exact ⟨call, timeout, rfl, hs⟩
  | _ => simp [pollingStep, hp] at hs

theorem JobLoop.Ok.selectedStep (h : s.Ok) {res : SelectResult} {events : List (Event × Option C)}
    (hs : s.selectedStep res events = some s') : s'.Ok := by
  have hselect : ∀ {regs}, registrationsStep s.regs (.poll (.selected res)) = some regs →
      ∃ p call timeout, pollingStep s.regs.polling (.selected res) = some p ∧
        s.regs.polling.poller = .select call timeout ∧
        s.regs.polling.selected call timeout res = some p ∧ regs = { s.regs with polling := p } := by
    intro regs hregs
    simp only [registrationsStep, Registrations.polls, if_true] at hregs
    obtain ⟨p, hp, rfl⟩ := Option.map_eq_some_iff.mp hregs
    obtain ⟨call, timeout, hpoller, hsel⟩ := selected_eq hp
    exact ⟨p, call, timeout, hp, hpoller, hsel, rfl⟩
  have hop : s.regs.polls (.selected res) = true := rfl
  have hpoll2 : ∀ call timeout, (.selected res : PollingOp (Option ι) α) ≠ .poll2 call timeout :=
    fun _ _ he => by cases he
  unfold JobLoop.selectedStep at hs
  cases res with
  | ok notify len =>
    dsimp only at hs
    split at hs
    · obtain ⟨regs, hregs, rfl⟩ := Option.map_eq_some_iff.mp hs
      obtain ⟨p, call, timeout, hp, hpoller, -, rfl⟩ := hselect hregs
      have hphase := (h.pollOp hop hpoll2 hp).1
      have hb := h.batch
      obtain ⟨hbase, hempty⟩ := hb.early (by rw [hpoller]; rfl)
      -- the events of the selector carry no job
      have hempty' : ({ s with selected := events } : JobLoop ι α C).events.flatMap ran = [] :=
        events_empty hbase
      have huncalled : ({ s with selected := events } : JobLoop ι α C).uncalled.flatMap ran = [] := by
        unfold JobLoop.uncalled
        rw [hphase]
        exact hempty'
      have hok : ({ s with selected := events } : JobLoop ι α C).Ok := by
        refine h.turnQuiet rfl ⟨hb.base, .inl hphase, fun _ => ⟨hbase, huncalled⟩,
          fun _ _ he => (by cases hphase.symm.trans he), ?_, hb.entries, hb.due⟩ ?_
        · refine Eq.trans ?_ hb.calls
          rw [huncalled, hempty]
        · unfold JobLoop.uncleared
          rw [hphase]
          exact hempty'.trans (events_empty hbase).symm
      exact hok.pollRegs rfl hp hphase fun _ => ⟨hbase, huncalled⟩
    · cases hs
  | failed =>
    obtain ⟨regs, hregs, rfl⟩ := Option.map_eq_some_iff.mp hs
    obtain ⟨p, call, timeout, hp, hpoller, hsel, rfl⟩ := hselect hregs
    obtain ⟨hphase, hok⟩ := h.pollOp hop hpoll2 hp
    obtain ⟨hbase, hempty⟩ := h.batch.early (by rw [hpoller]; rfl)
    obtain rfl := Option.some.inj hsel
    have hb := hok.batch
    refine hok.turnQuiet rfl ⟨hb.base, .inr rfl, fun he => (by cases he), fun _ _ he => (by cases he), ?_,
      hb.entries, hb.due⟩ ?_
    · refine Eq.trans ?_ h.batch.calls
      rw [hempty]
      rfl
    · unfold JobLoop.uncleared
      rw [show _ = _ from hphase]
      exact (events_empty (s := { s with regs := _ }) hbase).symm
  | interrupted elapsed =>
    obtain ⟨regs, hregs, rfl⟩ := Option.map_eq_some_iff.mp hs
    obtain ⟨p, call, timeout, hp, -, -, rfl⟩ := hselect hregs
    exact (h.pollOp hop hpoll2 hp).2

theorem JobLoop.Ok.polled (h : s.Ok) (hs : jobLoopStep s .polled = some s') : s'.Ok := by
  simp only [jobLoopStep] at hs
  split at hs
  · rename_i hphase hidle
    obtain rfl := Option.some.inj hs
    have hb := h.batch
    have hcalls := hb.calls
    unfold JobLoop.uncalled at hcalls
    rw [hphase] at hcalls
    refine h.turnQuiet rfl ⟨hb.base, .inr hidle, fun he => ?_, fun _ _ he => ?_, hcalls, hb.entries,
      hb.due⟩ ?_
    · change s.regs.polling.poller.early = true at he
      rw [hidle] at he
      cases he
    · exact (LoopPhase.processing.inj he).2.symm
    · unfold JobLoop.uncleared
      rw [hphase]
      rfl
  · cases hs

theorem JobLoop.Ok.process (h : s.Ok) (hs : jobLoopStep s .process = some s') : s'.Ok := by
  simp only [jobLoopStep] at hs
  split at hs
  · rename_i k cnt hphase
    obtain rfl := Option.some.inj hs
    have hb := h.batch
    have hidle : s.regs.polling.poller = .idle :=
      hb.poller.resolve_left fun he => by cases he.symm.trans hphase
    have hearly : s.regs.polling.poller.early = true → False := by
      rw [hidle]
      exact fun he => by cases he
    have hcnt := hb.count k cnt hphase
    have hcalls := hb.calls
    unfold JobLoop.uncalled at hcalls
    rw [hphase] at hcalls
    dsimp only at hcalls
    have huncleared : s.uncleared = s.events := by
      unfold JobLoop.uncleared
      rw [hphase]
    unfold JobLoop.processStep
    split
    · rename_i hlt
      have hlt' : k < s.events.length := hcnt ▸ hlt
      split
      · rename_i e he
        obtain ⟨-, rfl⟩ := List.getElem?_eq_some_iff.mp he
        refine h.turnQuiet rfl ⟨hb.base, .inr hidle, fun he => (hearly he).elim, fun _ _ hk => ?_, ?_,
          hb.entries, hb.due⟩ (by rw [huncleared]; rfl)
        · exact (LoopPhase.processing.inj hk).2.symm.trans hcnt
        · rw [List.drop_eq_getElem_cons hlt', List.flatMap_cons, ← List.append_assoc] at hcalls
          exact hcalls
      · rename_i he
        exact absurd hlt' (Nat.not_lt.mpr (List.getElem?_eq_none_iff.mp he))
    · rename_i hge
      rw [List.drop_eq_nil_of_le (by omega)] at hcalls
      exact h.turnQuiet rfl ⟨hb.base, .inr hidle, fun he => (hearly he).elim, fun _ _ hk => (by cases hk),
        hcalls, hb.entries, hb.due⟩ (by rw [huncleared]; rfl)
  · cases hs

theorem JobLoop.Ok.due_nodup (h : s.Ok) : (s.due.map Prod.fst).Nodup := by
  have hnodup : s.taken.Nodup := nodup_eraseDups _
  rw [h.order] at hnodup
  exact (List.nodup_append.mp hnodup).1

theorem JobLoop.Ok.batch_nodup (h : s.Ok) (k : ℕ) :
    (((s.events.drop k).flatMap ran).map Prod.fst).Nodup := by
  have hsuffix : (s.events.drop k).flatMap ran <:+ s.due := by
    refine List.IsSuffix.trans ⟨(s.events.take k).flatMap ran, ?_⟩ (events_suffix s)
    rw [← List.flatMap_append, List.take_append_drop]
  exact h.due_nodup.sublist (hsuffix.sublist.map _)

/-- The entry of a job is dropped: nothing else holds the closure by then. -/
theorem JobLoop.Ok.unshared (h : s.Ok) {k : ℕ} {e : JobEntry (Option (Closure α C))}
    (hphase : s.phase = .clearing k) (he : s.events[k]? = some e) (hcapture : capture e.job = some a) :
    s.shared a k = false ∧ a ∉ ((s.events.drop (k + 1)).flatMap ran).map Prod.fst ∧
      a ∈ (ran e).map Prod.fst ∧ a ∈ s.due.map Prod.fst ∧ ∃ i cb, s.uses a = .job i cb := by
  obtain ⟨hlt, rfl⟩ := List.getElem?_eq_some_iff.mp he
  have hran : (ran s.events[k]).map Prod.fst = [a] := by
    rw [h.batch.entry (List.getElem_mem hlt), hcapture]
    rfl
  have hin : a ∈ (ran s.events[k]).map Prod.fst := by
    rw [hran]
    exact List.mem_singleton_self a
  have hnodup := h.batch_nodup k
  rw [List.drop_eq_getElem_cons hlt, List.flatMap_cons, List.map_append, hran] at hnodup
  have hnot : a ∉ ((s.events.drop (k + 1)).flatMap ran).map Prod.fst :=
    (List.nodup_cons.mp hnodup).1
  have hevents : a ∈ (s.events.flatMap ran).map Prod.fst := by
    obtain ⟨c, hc, hca⟩ := List.mem_map.mp hin
    exact List.mem_map.mpr ⟨c, List.mem_flatMap.mpr ⟨_, List.getElem_mem hlt, hc⟩, hca⟩
  have hdue : a ∈ s.due.map Prod.fst := ((events_suffix s).map Prod.fst).subset hevents
  obtain ⟨⟨a', cb⟩, hm, rfl⟩ := List.mem_map.mp hdue
  obtain ⟨i, hu⟩ := h.batch.due a' cb hm
  refine ⟨?_, hnot, hin, hdue, i, cb, hu⟩
  unfold JobLoop.shared
  rw [Bool.or_eq_false_iff]
  refine ⟨?_, List.any_eq_false.mpr fun d hd hda => ?_⟩
  · -- the poller has put an empty job in place
    have hidle : s.regs.polling.poller = .idle :=
      h.batch.poller.resolve_left fun hp => by cases hp.symm.trans hphase
    have hjob : (s.regs.nodes a').job = none := by
      have hnode := h.nodes a'
      unfold JobLoop.NodeOk at hnode
      rw [hu] at hnode
      cases hnode.2 with
      | making _ hno => exact absurd (h.enqueued_of_due hdue) hno
      | queued _ _ _ hd => exact absurd hdue hd
      | taken _ _ _ _ _ hd => exact absurd hdue hd
      | pushed _ hh =>
        rcases h.owned.hold with hl | ⟨_, _, _, _, hp⟩ | ⟨⟨_, _, _, hp⟩, -⟩
        · cases hh.symm.trans hl
        · cases hidle.symm.trans hp
        · cases hidle.symm.trans hp
      | delivered _ _ hn =>
        rcases hn with hn | hn <;> rw [hn] <;> rfl
    rw [hjob]
    rfl
  · have hcap : capture d.job = some a' := by simpa using hda
    have hmem : a' ∈ (ran d).map Prod.fst := by
      rw [h.batch.entry (List.mem_of_mem_drop hd), hcap]
      exact List.mem_singleton_self a'
    obtain ⟨c, hc, hca⟩ := List.mem_map.mp hmem
    exact hnot (List.mem_map.mpr ⟨c, List.mem_flatMap.mpr ⟨d, hd, hc⟩, hca⟩)

/-- The poller is outside a poll while the batch is dropped. -/
theorem JobLoop.Ok.clearing (h : s.Ok) {k : ℕ} (hphase : s.phase = .clearing k) :
    s.regs.polling.poller = .idle ∧ s.regs.hold = .load ∧ s.uncleared = s.events.drop k ∧
      s.called ++ [] = s.due := by
  have hidle : s.regs.polling.poller = .idle :=
    h.batch.poller.resolve_left fun he => by cases he.symm.trans hphase
  have hcalls := h.batch.calls
  unfold JobLoop.uncalled at hcalls
  rw [hphase] at hcalls
  refine ⟨hidle, ?_, ?_, hcalls⟩
  · rcases h.owned.hold with hl | ⟨_, _, _, _, hp⟩ | ⟨⟨_, _, _, hp⟩, -⟩
    · exact hl
    · cases hidle.symm.trans hp
    · cases hidle.symm.trans hp
  · unfold JobLoop.uncleared
    rw [hphase]

/-- An entry of the batch is dropped, and perhaps the registration of its job. -/
theorem JobLoop.Ok.dropEntry (h : s.Ok) {k : ℕ} {e : JobEntry (Option (Closure α C))}
    (hphase : s.phase = .clearing k) (he : s.events[k]? = some e) (hs : s.dropEntry k e = some s') :
    ({ s' with phase := .clearing (k + 1) } : JobLoop ι α C).Ok := by
  have hb := h.batch
  obtain ⟨hidle, hload, huncleared, hcalls⟩ := h.clearing hphase
  obtain ⟨hlt, hek⟩ := List.getElem?_eq_some_iff.mp he
  have hdrop : s.uncleared.flatMap ran = ran e ++ (s.events.drop (k + 1)).flatMap ran := by
    rw [huncleared, List.drop_eq_getElem_cons hlt, List.flatMap_cons, hek]
  have hbatch : ∀ arcs, ({ s with arcs := arcs, phase := .clearing (k + 1) } : JobLoop ι α C).BatchOk := by
    refine fun arcs => ⟨hb.base, .inr hidle, fun hearly => ?_, fun _ _ hk => (by cases hk), hcalls,
      hb.entries, hb.due⟩
    change s.regs.polling.poller.early = true at hearly
    rw [hidle] at hearly
    cases hearly
  unfold JobLoop.dropEntry at hs
  split at hs
  · rename_i a hcapture
    obtain ⟨hshared, hnot, hin, hdue, i, cb, hu⟩ := h.unshared hphase he hcapture
    rw [if_neg (by rw [hshared]; simp)] at hs
    have hothers : ∀ b, b ≠ a → (b ∈ (s.uncleared.flatMap ran).map Prod.fst ↔
        b ∈ ((s.events.drop (k + 1)).flatMap ran).map Prod.fst) := by
      intro b hba
      have hno : b ∉ (ran e).map Prod.fst := by
        rw [hb.entry (List.mem_of_getElem? he), hcapture]
        exact fun hm => hba (List.mem_singleton.mp hm)
      rw [hdrop, List.map_append, List.mem_append]
      exact or_iff_right hno
    -- the share of the closure goes
    have hok : ∀ arcs, Function.update s.arcs a (s.arcs a - 1) = arcs →
        ({ s with arcs := arcs, phase := .clearing (k + 1) } : JobLoop ι α C).Ok := by
      rintro arcs rfl
      have hbatch' := hbatch (Function.update s.arcs a (s.arcs a - 1))
      generalize ht : ({ s with
        arcs := Function.update s.arcs a (s.arcs a - 1), phase := .clearing (k + 1) } :
        JobLoop ι α C) = t at hbatch' ⊢
      have hsame : t.callers = s.callers ∧ t.due = s.due ∧ t.uncleared = s.events.drop (k + 1) := by
        subst ht
        exact ⟨rfl, rfl, rfl⟩
      obtain ⟨hcallers, hdue', huncleared'⟩ := hsame
      refine h.turn ht hbatch' (fun b hb0 => ?_) (fun b j cb' hu' => ?_) fun b hclear => ?_
      · by_cases hba : b = a
        · subst hba
          rw [Function.update_self, hb0]
        · rw [Function.update_of_ne hba, hb0]
      · have hold := h.arcs b j cb' hu'
        unfold JobLoop.shares at hold ⊢
        rw [hcallers, hdue', huncleared']
        by_cases hba : b = a
        · subst hba
          have huncl : b ∈ (s.uncleared.flatMap ran).map Prod.fst := by
            rw [hdrop, List.map_append]
            exact List.mem_append_left _ hin
          have hgone : ¬ (b ∉ s.due.map Prod.fst ∨
              b ∈ ((s.events.drop (k + 1)).flatMap ran).map Prod.fst) := fun hor =>
            hor.elim (fun hno => hno hdue) hnot
          rw [if_pos (c := _ ∨ _) (.inr huncl)] at hold
          rw [Function.update_self, hold, if_neg hgone]
          rfl
        · rw [Function.update_of_ne hba, hold]
          exact congrArg _ (if_congr (or_congr Iff.rfl (hothers b hba)) rfl rfl)
      · cases hload.symm.trans hclear
    unfold JobLoop.dropArc at hs
    dsimp only at hs
    generalize harcs : Function.update s.arcs a (s.arcs a - 1) = arcs at hs
    have hok' := hok arcs harcs
    split at hs
    · rename_i hlast
      obtain ⟨-, -, hstep, rfl⟩ := begin_eq hs
      have hbegin : ({ s with arcs := arcs, phase := .clearing (k + 1) } : JobLoop ι α C).begin none
          (.drop a) = some { s with
            arcs := arcs, phase := .clearing (k + 1), regs := s.regs.goto none (.dropOr a) } := by
        unfold JobLoop.begin
        rw [show _ = _ from hstep]
        rfl
      refine hok'.begin hbegin (fun _ _ hno => by cases hno) (.dropping i cb hu ?_ (.inl ?_))
      · subst harcs
        show Function.update s.arcs a (s.arcs a - 1) a = 0
        rw [Function.update_self, hlast]
      · exact Function.update_self none (.dropOr a) s.regs.threads
    · obtain rfl := Option.some.inj hs
      exact hok'
  · rename_i hcapture
    obtain rfl := Option.some.inj hs
    have hnone : ran e = [] := ran_of_capture hcapture
    rw [hnone, List.nil_append] at hdrop
    exact h.turnQuiet rfl (hbatch s.arcs) hdrop.symm

theorem JobLoop.Ok.clear (h : s.Ok) (hs : jobLoopStep s .clear = some s') : s'.Ok := by
  simp only [jobLoopStep] at hs
  split at hs
  · rename_i k hphase
    have hb := h.batch
    obtain ⟨hidle, -, huncleared, hcalls⟩ := h.clearing hphase
    unfold JobLoop.clearStep at hs
    split at hs
    · split at hs
      · rename_i e he
        obtain ⟨s₁, hs₁, rfl⟩ := Option.map_eq_some_iff.mp hs
        exact h.dropEntry hphase he hs₁
      · rename_i he
        obtain rfl := Option.some.inj hs
        refine h.turnQuiet rfl ⟨le_refl _, .inr hidle, fun hearly => ?_,
          fun _ _ hk => (by cases hk), hcalls, hb.entries, hb.due⟩ ?_
        · change s.regs.polling.poller.early = true at hearly
          rw [hidle] at hearly
          cases hearly
        · rw [huncleared, List.drop_eq_nil_of_le (List.getElem?_eq_none_iff.mp he)]
          rfl
    · cases hs
  · cases hs

end Turns

/-! ## Runs -/

section Runs
variable {s s' : JobLoop ι α C}

theorem JobLoop.Starts.ok (h : s.Starts) : s.Ok := by
  have hqueue : s.regs.polling.queue = .new := by rw [h.regs.polling]; rfl
  have hpoller : s.regs.polling.poller = .idle := by rw [h.regs.polling]; rfl
  have henqueued : s.regs.polling.queue.enqueued = [] := by rw [hqueue]; rfl
  have htaken : s.regs.polling.queue.taken = [] := by rw [hqueue]; rfl
  have hholding : s.regs.holding = none := by
    unfold Registrations.holding
    rw [hqueue]
    rfl
  have hdue : s.due = [] := by
    unfold JobLoop.due
    rw [h.pushed]
    rfl
  have hjob : ∀ a i cb, s.uses a ≠ .job i cb := by
    intro a i cb hu
    rcases h.uses a with ⟨hu', -⟩ | ⟨hu', -⟩ <;> cases hu.symm.trans hu'
  have hswapped : s.swapped = [] := by
    unfold JobLoop.swapped
    rw [henqueued]
    rfl
  refine ⟨h.regs.owned, fun state hh => ?_, fun a ha => ?_, fun a => ?_, fun o => ?_, fun i => ?_,
    fun a i cb hu => absurd hu (hjob a i cb), ?_, ?_, fun i => ?_, fun i a => ?_, fun a ha => ?_⟩
  · cases h.regs.hold.symm.trans hh
  · cases hholding.symm.trans ha
  · unfold JobLoop.NodeOk
    rcases h.uses a with ⟨hu, hn⟩ | ⟨hu, hassociated⟩
    · rw [hu]
      refine ⟨hn, by rw [henqueued]; exact List.not_mem_nil, ?_⟩
      rw [h.regs.hold]
      exact fun he => by cases he
    · rw [hu]
      obtain ⟨token, interest, opt, hn, -⟩ := h.regs.nodes a
      refine ⟨hassociated, ?_⟩
      rw [hn]
      rfl
  · refine ⟨fun a ha => ?_, fun a ha => ?_⟩
    · rw [h.regs.threads o] at ha
      cases ha
    · rw [hqueue] at ha
      cases ha
  · unfold JobLoop.CallerOk
    rw [h.callers i]
    exact trivial
  · rw [hdue, handJobs_none (inHand_of_load h.regs.hold hholding)]
    unfold JobLoop.taken
    rw [htaken]
    rfl
  · refine ⟨by rw [h.base]; exact Nat.zero_le _, .inr hpoller, fun he => ?_, fun _ _ hp => ?_, ?_, ?_, ?_⟩
    · rw [hpoller] at he
      cases he
    · cases h.phase.symm.trans hp
    · unfold JobLoop.uncalled
      rw [h.phase, h.called, hdue]
      rfl
    · rw [h.pushed]
      exact fun _ he => by cases he
    · rw [hdue]
      exact fun _ _ he => by cases he
  · unfold JobLoop.unswapped
    rw [hswapped, h.callers i, h.made i]
    rfl
  · have hno : s.isMaker i a = false := by
      unfold JobLoop.isMaker
      rcases h.uses a with ⟨hu, -⟩ | ⟨hu, -⟩ <;> rw [hu]
    rw [h.made i, hno]
    simp
  · cases (h.returned a).symm.trans ha

/-- **Every step keeps the invariant.** -/
theorem jobLoopStep_ok {op : JobLoopOp ι α C} (h : s.Ok) (hs : jobLoopStep s op = some s') : s'.Ok := by
  cases op with
  | call i c =>
    simp only [jobLoopStep] at hs
    split at hs
    · exact h.call ‹_› ‹_› hs
    · cases hs
  | enqueueJob i a cb => exact h.enqueueJob hs
  | caller i => exact h.callerStep hs
  | thread o => exact h.threadStep hs
  | producer o wouldBlock =>
    obtain ⟨regs, hregs, rfl⟩ := Option.map_eq_some_iff.mp hs
    obtain ⟨p, hp, rfl⟩ := Option.map_eq_some_iff.mp hregs
    exact h.producer hp
  | runOnce timeout => exact h.runOnce hs
  | selected res events => exact h.selectedStep hs
  | poll op =>
    simp only [jobLoopStep] at hs
    split at hs
    · cases hs
    · cases hs
    · rename_i hpoll2 hselected
      obtain ⟨regs, hregs, rfl⟩ := Option.map_eq_some_iff.mp hs
      simp only [registrationsStep] at hregs
      split at hregs
      · rename_i hop
        obtain ⟨p, hp, rfl⟩ := Option.map_eq_some_iff.mp hregs
        exact (h.pollOp hop hpoll2 hp).2
      · cases hregs
  | node =>
    obtain ⟨regs, hregs, rfl⟩ := Option.map_eq_some_iff.mp hs
    exact h.node hregs
  | polled => exact h.polled hs
  | process => exact h.process hs
  | clear => exact h.clear hs

theorem jobLoop_ok (hs : Reachable jobLoopStep JobLoop.Starts s) : s.Ok :=
  hs.invariant (fun _ hinit => hinit.ok) fun _ _ _ h hstep => jobLoopStep_ok h hstep

theorem JobLoop.Ok.inPoll (h : s.Ok) {a : α} (ha : s.regs.inHand = some a) :
    s.regs.polling.poller.InPoll := by
  by_contra hin
  rcases inHand_cases ha with hh | hh
  · cases (h.owned.holding_none hin).symm.trans hh
  · rcases h.owned.hold with hl | ⟨_, _, _, _, hp⟩ | ⟨⟨_, _, _, hp⟩, -⟩
    · rw [hl] at hh
      cases hh
    · rw [hp] at hin
      exact hin trivial
    · rw [hp] at hin
      exact hin trivial

theorem JobLoop.Ok.called_prefix (h : s.Ok) : s.called <+: s.due :=
  ⟨_, h.batch.calls⟩

theorem JobLoop.Ok.called_order (h : s.Ok) : s.called.map Prod.fst <+: s.swapped := by
  have htaken : s.taken <+: s.swapped := by
    obtain ⟨nodes, hsound⟩ := h.owned.sound
    exact eraseDups_isPrefix (List.IsPrefix.filter s.isJob ⟨_, hsound.taken_append_pending⟩)
  have hdue : s.due.map Prod.fst <+: s.taken := ⟨_, h.order.symm⟩
  exact (h.called_prefix.map Prod.fst).trans (hdue.trans htaken)

theorem JobLoop.Ok.on_its_way (h : s.Ok) {a : α} (hjob : s.isJob a = true)
    (ha : a ∈ s.regs.polling.queue.enqueued) :
    a ∈ s.due.map Prod.fst ∨ a ∈ s.regs.polling.queue.pending ∨ s.regs.inHand = some a := by
  obtain ⟨nodes, hsound⟩ := h.owned.sound
  rw [← hsound.taken_append_pending] at ha
  rcases List.mem_append.mp ha with htaken | hpending
  · have hmem : a ∈ s.taken := List.mem_eraseDups.mpr (List.mem_filter.mpr ⟨htaken, hjob⟩)
    rw [h.order] at hmem
    rcases List.mem_append.mp hmem with hdue | hhand
    · exact .inl hdue
    · exact .inr (.inr (Option.mem_toList.mp (List.mem_filter.mp hhand).1))
  · exact .inr (.inl hpending)

theorem JobLoop.Ok.called_or_batch (h : s.Ok) {a : α} (ha : a ∈ s.due.map Prod.fst) :
    ∃ i cb, s.uses a = .job i cb ∧ ((a, cb) ∈ s.called ∨ ∃ e ∈ s.events, (a, cb) ∈ ran e) := by
  obtain ⟨⟨a', cb⟩, hm, rfl⟩ := List.mem_map.mp ha
  obtain ⟨i, hu⟩ := h.batch.due a' cb hm
  refine ⟨i, cb, hu, ?_⟩
  rw [← h.batch.calls] at hm
  rcases List.mem_append.mp hm with hcalled | huncalled
  · exact .inl hcalled
  · obtain ⟨e, he, hran⟩ := List.mem_flatMap.mp huncalled
    refine .inr ⟨e, ?_, hran⟩
    unfold JobLoop.uncalled at he
    split at he
    · exact he
    · exact List.mem_of_mem_drop he
    · cases he

end Runs

/-- **Every job once and in order.** In every interleaved run, no `cb` is called twice and none that was
not enqueued; a `cb` whose `enqueue_job` has returned has been called, or is in the batch, or its node
is in the readiness queue or in the hand of a `ReadinessQueue::poll`; and the calls are in the order in
which the head was exchanged for the nodes, and so for each thread in the order of its calls. -/
theorem jobs_once_in_order (s : JobLoop ι α C) (hs : Reachable jobLoopStep JobLoop.Starts s) :
    (s.called.map Prod.fst).Nodup ∧ (∀ a cb, (a, cb) ∈ s.called → ∃ i, s.uses a = .job i cb) ∧
    (∀ a, s.returned a = true → ∃ i cb, s.uses a = .job i cb ∧
      ((a, cb) ∈ s.called ∨ (∃ e ∈ s.events, (a, cb) ∈ ran e) ∨ a ∈ s.regs.polling.queue.pending ∨
        s.regs.inHand = some a ∧ s.regs.polling.poller.InPoll)) ∧
    s.called.map Prod.fst <+: s.swapped ∧
    ∀ i, (s.called.map Prod.fst).filter (s.isMaker i) <+: s.made i := by
  have h := jobLoop_ok hs
  have hcalled := h.called_prefix
  refine ⟨h.due_nodup.sublist (hcalled.sublist.map _), fun a cb hm => h.batch.due a cb (hcalled.subset hm),
    fun a ha => ?_, h.called_order, fun i => ?_⟩
  · obtain ⟨hjob, he⟩ := h.returned a ha
    rcases h.on_its_way hjob he with hdue | hpending | hhand
    · obtain ⟨i, cb, hu, hor⟩ := h.called_or_batch hdue
      exact ⟨i, cb, hu, hor.imp_right .inl⟩
    · obtain ⟨i, cb, hu⟩ := uses_of_isJob hjob
      exact ⟨i, cb, hu, .inr (.inr (.inl hpending))⟩
    · obtain ⟨i, cb, hu⟩ := uses_of_isJob hjob
      exact ⟨i, cb, hu, .inr (.inr (.inr ⟨hhand, h.inPoll hhand⟩))⟩
  · exact (h.called_order.filter _).trans ⟨_, h.made i⟩

/-- A new event loop, with nothing on its poll. -/
def newLoop : JobLoop Unit ℕ ℕ where
  regs :=
    { polling := .new
      nodes := fun _ => .new ⟨.tokenEvent, ⟨0⟩⟩ .empty .empty
      threads := fun _ => .idle
      hold := .load
      pushed := []
      released := fun _ => false
      signalled := fun _ => false }
  uses := fun _ => .unmade
  callers := fun _ => .idle
  associated := fun _ => false
  arcs := fun _ => 0
  phase := .idle
  selected := []
  base := 0
  called := []
  returned := fun _ => false
  made := fun _ => []

theorem newLoop_starts : newLoop.Starts where
  regs := ⟨rfl, fun _ => ⟨_, _, _, rfl, by decide, by decide⟩, fun _ => rfl, rfl, fun _ => rfl,
    fun _ => rfl⟩
  pushed := rfl
  uses _ := .inl ⟨rfl, rfl⟩
  callers _ := rfl
  phase := rfl
  selected := rfl
  base := rfl
  called := rfl
  returned _ := rfl
  made _ := rfl

/-- `n` accesses of the caller of `enqueue_job` outside `enqueue_node`. -/
def accessOps (n : ℕ) : List (JobLoopOp Unit ℕ ℕ) := List.replicate n (.thread (some ()))

/-- `enqueue_job` from its call up to its return. -/
def enqueueJobOps (a cb : ℕ) : List (JobLoopOp Unit ℕ ℕ) :=
  [.enqueueJob () a cb] ++ accessOps 2 ++ List.replicate 3 (.caller ()) ++ accessOps 7 ++
    List.replicate 4 (.producer (some ()) false) ++ [.caller ()]

/-- `run_once` up to the drain of the queue. -/
def selectOps : List (JobLoopOp Unit ℕ ℕ) := [.runOnce (some 0), .selected (.ok false 0) []]

/-- The drain with one node in the queue, up to the call of its `cb`. -/
def deliverOps : List (JobLoopOp Unit ℕ ℕ) :=
  List.replicate 8 (.poll .consumer) ++ List.replicate 5 .node ++
    [.poll .consumer, .poll (.dequeued false false), .polled, .process]

def oneJobOps : List (JobLoopOp Unit ℕ ℕ) := enqueueJobOps 0 7 ++ selectOps ++ deliverOps

/-- Two jobs are enqueued, and a `run_once` calls both. -/
def twoJobsOps : List (JobLoopOp Unit ℕ ℕ) :=
  enqueueJobOps 0 7 ++ enqueueJobOps 1 8 ++ selectOps ++
    List.replicate 2 (.poll .consumer) ++ List.replicate 5 .node ++
    List.replicate 7 (.poll .consumer) ++ List.replicate 5 .node ++
    [.poll .consumer, .poll (.dequeued false false), .polled, .process, .process]

theorem jobs_once_in_order_two : ∃ s : JobLoop Unit ℕ ℕ, s.called = [(0, 7), (1, 8)] ∧
    s.called.map Prod.fst <+: s.swapped ∧
    (s.called.map Prod.fst).filter (s.isMaker ()) <+: s.made () := by
  obtain ⟨s, hs, hcalled⟩ : ∃ s : JobLoop Unit ℕ ℕ, run jobLoopStep newLoop twoJobsOps = some s ∧
      s.called = [(0, 7), (1, 8)] := Option.map_eq_some_iff.mp (by decide +kernel)
  have hreach : Reachable jobLoopStep JobLoop.Starts s := (Reachable.start newLoop_starts).run hs
  obtain ⟨-, -, -, hswapped, hmade⟩ := jobs_once_in_order s hreach
  exact ⟨s, hcalled, hswapped, hmade ()⟩

end MyMio

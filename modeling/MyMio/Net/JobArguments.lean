import MyMio.Net.JobRuns

/-! # The argument of a job

What `io_process` calls a job with is the readiness of its entry. `select` writes the readiness of the
kernel's mask into the entry, `push_event` an empty one: so the job of a registration is called with
zero, whatever `ReadinessQueue::poll` has decided on (`registration_jobs_see_nothing`).

The runs are those of the event loop, with two ghosts: what the poller has decided on, event by event,
and the calls of jobs for pushed events.
-/

namespace MyMio
set_option autoImplicit false

open BrokenQueue StepSystem

universe u v w

variable {ι : Type v} {α : Type u} {C : Type w}

/-! ## Calls -/

/-- `ready_as_usize(ready) as i64`. -/
def jobArgument (ready : Ready) : ℤ := (readyAsUsize ready).toInt

theorem jobArgument_empty : jobArgument .empty = 0 := rfl

theorem jobArgument_ne_zero {ready : Ready} (h : ready.isEmpty = false) : jobArgument ready ≠ 0 := by
  intro hzero
  have hbits : ready.bits = 0 := BitVec.eq_of_toInt_eq hzero
  have hempty : ready = .empty := congrArg Ready.mk hbits
  rw [hempty] at h
  cases h

/-- The argument of the call for an entry; for a timer event there is none. -/
def callArgument {J : Type w} (e : JobEntry J) : Option ℤ :=
  match e.tokenEntry.ttype with
  | .timersEvent => none
  | _ => some (jobArgument e.ready)

theorem callArgument_pushEvent {event : Event} {job : Option (Closure α C)} {argument : ℤ}
    (h : callArgument (pushEvent event job) = some argument) : argument = 0 := by
  unfold callArgument at h
  split at h
  · cases h
  · rw [← Option.some.inj h]
    exact jobArgument_empty

/-- A call of the job of a pushed event: the node and the effective readiness that the poller has
decided on, and the argument. -/
structure PushedCall (α : Type u) where
  decision : Option (α × Ready)
  argument : ℤ
  deriving DecidableEq, Repr

/-- The job is called with the effective readiness of its node at the deciding step. -/
def PushedCall.Receives (c : PushedCall α) : Prop :=
  ∃ a readiness, c.decision = some (a, readiness) ∧ c.argument = jobArgument readiness

/-- What the poller has decided on and not pushed yet. -/
def Hold.decision : Hold α → Option (α × Ready)
  | .token a readiness _ => some (a, readiness)
  | .push a event => some (a, event.kind)
  | _ => none

/-! ## Runs -/

/-- The event loop, the effective readiness of each node at the step on which the poller decided to
deliver it, and the calls of jobs for pushed events, both in order. -/
structure Arguments (ι : Type v) (α : Type u) (C : Type w) where
  loop : JobLoop ι α C
  decisions : List (α × Ready)
  calls : List (PushedCall α)

namespace Arguments

/-- The step to `regs` is the deciding step of an event. -/
def decisionsAfter (s : Arguments ι α C) (regs : Registrations (Option ι) α (Closure α C)) :
    List (α × Ready) :=
  match s.loop.regs.hold.decision, regs.hold.decision with
  | none, some (a, _) => s.decisions ++ [(a, (s.loop.regs.word a).effectiveReadiness)]
  | _, _ => s.decisions

/-- A turn of `io_process`, which calls the job of entry `i`; the entries from the selector come
first. -/
def callsAfter (s : Arguments ι α C) : JobLoopOp ι α C → List (PushedCall α)
  | .process =>
    match s.loop.phase with
    | .processing i cnt =>
      if s.loop.selected.length ≤ i ∧ i < cnt then
        match s.loop.events[i]?.bind callArgument with
        | some argument =>
          s.calls ++ [⟨s.decisions[s.loop.base + (i - s.loop.selected.length)]?, argument⟩]
        | none => s.calls
      else s.calls
    | _ => s.calls
  | _ => s.calls

variable [DecidableEq ι] [DecidableEq α]

structure Starts (s : Arguments ι α C) : Prop where
  loop : s.loop.Starts
  decisions : s.decisions = []
  calls : s.calls = []

structure Ok (s : Arguments ι α C) : Prop where
  loop : s.loop.Ok
  decisions : s.decisions =
    s.loop.regs.pushed.map (fun e => (e.1, e.2.1.kind)) ++ s.loop.regs.hold.decision.toList
  effective : ∀ d ∈ s.decisions, d.2.isEmpty = false
  calls : ∀ c ∈ s.calls, c.argument = 0 ∧ ∃ a readiness, c.decision = some (a, readiness) ∧
    readiness.isEmpty = false

end Arguments

variable [DecidableEq ι] [DecidableEq α]

def argumentsStep (s : Arguments ι α C) (op : JobLoopOp ι α C) : Option (Arguments ι α C) :=
  (jobLoopStep s.loop op).map fun loop => ⟨loop, s.decisionsAfter loop.regs, s.callsAfter op⟩

/-! ## The events in order -/

section Quiet
variable {s s' : JobLoop ι α C} {o : Option ι} {a : α}

/-- The poller's hand and the pushed events stay. -/
def SameEvents {κ : Type v} {J : Type w} (r r' : Registrations κ α J) : Prop :=
  r'.hold = r.hold ∧ r'.pushed = r.pushed

omit [DecidableEq ι] in
theorem registrationsStep_quiet {κ : Type v} [DecidableEq κ] {J : Type w} {r r' : Registrations κ α J}
    {op : RegistrationsOp κ α J} (hop : op ≠ .node) (hs : registrationsStep r op = some r') :
    SameEvents r r' := by
  cases op with
  | call i c =>
    simp only [registrationsStep] at hs
    split at hs
    · obtain rfl := Option.some.inj hs
      exact ⟨rfl, rfl⟩
    · cases hs
  | thread i =>
    have hframe := threadStep_frame hs
    exact ⟨hframe.hold, hframe.pushed⟩
  | producer i wouldBlock =>
    obtain ⟨p, -, rfl⟩ := Option.map_eq_some_iff.mp hs
    exact ⟨rfl, rfl⟩
  | poll op =>
    simp only [registrationsStep] at hs
    split at hs
    · obtain ⟨p, -, rfl⟩ := Option.map_eq_some_iff.mp hs
      exact ⟨rfl, rfl⟩
    · cases hs
  | node => exact absurd rfl hop

theorem begin_quiet {c : NodeCall α (Closure α C)} (hs : s.begin o c = some s') :
    SameEvents s.regs s'.regs := by
  obtain ⟨regs, hregs, rfl⟩ := Option.map_eq_some_iff.mp hs
  exact registrationsStep_quiet (fun he => by cases he) hregs

theorem dropArc_quiet (hs : s.dropArc o a = some s') : SameEvents s.regs s'.regs := by
  unfold JobLoop.dropArc at hs
  dsimp only at hs
  split at hs
  · exact (begin_quiet hs :)
  · obtain rfl := Option.some.inj hs
    exact ⟨rfl, rfl⟩

theorem callerStep_quiet {i : ι} (hs : s.callerStep i = some s') : SameEvents s.regs s'.regs := by
  unfold JobLoop.callerStep at hs
  split at hs
  · split at hs
    · cases hs
    · obtain rfl := Option.some.inj hs
      exact ⟨rfl, rfl⟩
    · split at hs
      · exact (begin_quiet hs :)
      · obtain rfl := Option.some.inj hs
        exact ⟨rfl, rfl⟩
    · exact (begin_quiet hs :)
    · split at hs
      · exact (dropArc_quiet hs :)
      · obtain ⟨m, hm, rfl⟩ := Option.map_eq_some_iff.mp hs
        exact (dropArc_quiet hm :)
    · obtain rfl := Option.some.inj hs
      exact ⟨rfl, rfl⟩
  · cases hs

/-- Only an access of the poller to a node decides on an event or pushes one. -/
theorem jobLoopStep_quiet {op : JobLoopOp ι α C} (hop : op ≠ .node) (hs : jobLoopStep s op = some s') :
    SameEvents s.regs s'.regs := by
  cases op with
  | call i c =>
    simp only [jobLoopStep] at hs
    split at hs
    · exact (begin_quiet hs :)
    · cases hs
  | enqueueJob i a cb =>
    simp only [jobLoopStep, JobLoop.enqueueJob] at hs
    split at hs
    · exact (begin_quiet hs :)
    · cases hs
  | caller i => exact callerStep_quiet hs
  | thread o =>
    simp only [jobLoopStep, JobLoop.threadStep] at hs
    split at hs
    · split at hs
      · obtain ⟨regs, hregs, rfl⟩ := Option.map_eq_some_iff.mp hs
        exact registrationsStep_quiet (fun he => by cases he) hregs
      · obtain rfl := Option.some.inj hs
        exact ⟨rfl, rfl⟩
    · obtain ⟨regs, hregs, rfl⟩ := Option.map_eq_some_iff.mp hs
      exact registrationsStep_quiet (fun he => by cases he) hregs
  | producer o wouldBlock =>
    obtain ⟨regs, hregs, rfl⟩ := Option.map_eq_some_iff.mp hs
    exact registrationsStep_quiet (fun he => by cases he) hregs
  | runOnce timeout =>
    simp only [jobLoopStep] at hs
    split at hs
    · obtain ⟨regs, hregs, rfl⟩ := Option.map_eq_some_iff.mp hs
      exact registrationsStep_quiet (fun he => by cases he) hregs
    · cases hs
  | selected res events =>
    simp only [jobLoopStep, JobLoop.selectedStep] at hs
    split at hs
    · split at hs
      · obtain ⟨regs, hregs, rfl⟩ := Option.map_eq_some_iff.mp hs
        exact registrationsStep_quiet (fun he => by cases he) hregs
      · cases hs
    · obtain ⟨regs, hregs, rfl⟩ := Option.map_eq_some_iff.mp hs
      exact registrationsStep_quiet (fun he => by cases he) hregs
    · obtain ⟨regs, hregs, rfl⟩ := Option.map_eq_some_iff.mp hs
      exact registrationsStep_quiet (fun he => by cases he) hregs
  | poll op =>
    simp only [jobLoopStep] at hs
    split at hs
    · cases hs
    · cases hs
    · obtain ⟨regs, hregs, rfl⟩ := Option.map_eq_some_iff.mp hs
      exact registrationsStep_quiet (fun he => by cases he) hregs
  | node => exact absurd rfl hop
  | polled =>
    simp only [jobLoopStep] at hs
    split at hs
    · obtain rfl := Option.some.inj hs
      exact ⟨rfl, rfl⟩
    · cases hs
  | process =>
    simp only [jobLoopStep] at hs
    split at hs
    · obtain rfl := Option.some.inj hs
      unfold JobLoop.processStep
      split
      · split <;> exact ⟨rfl, rfl⟩
      · exact ⟨rfl, rfl⟩
    · cases hs
  | clear =>
    simp only [jobLoopStep, JobLoop.clearStep] at hs
    split at hs
    · split at hs
      · split at hs
        · obtain ⟨m, hm, rfl⟩ := Option.map_eq_some_iff.mp hs
          unfold JobLoop.dropEntry at hm
          split at hm
          · split at hm
            · obtain rfl := Option.some.inj hm
              exact ⟨rfl, rfl⟩
            · exact (dropArc_quiet hm :)
          · obtain rfl := Option.some.inj hm
            exact ⟨rfl, rfl⟩
        · obtain rfl := Option.some.inj hs
          exact ⟨rfl, rfl⟩
      · cases hs
    · cases hs

end Quiet

/-! ## The invariant -/

section Runs
variable {s s' : Arguments ι α C}

omit [DecidableEq ι] [DecidableEq α] in
theorem decisionsAfter_same {regs : Registrations (Option ι) α (Closure α C)}
    (hhold : regs.hold = s.loop.regs.hold) : s.decisionsAfter regs = s.decisions := by
  unfold Arguments.decisionsAfter
  rw [hhold]
  cases s.loop.regs.hold.decision <;> rfl

theorem Arguments.Ok.node (h : s.Ok) {regs : Registrations (Option ι) α (Closure α C)}
    (hs : s.loop.regs.nodeStep = some regs) :
    s.decisionsAfter regs =
      regs.pushed.map (fun e => (e.1, e.2.1.kind)) ++ regs.hold.decision.toList ∧
    ∀ d ∈ s.decisionsAfter regs, d.2.isEmpty = false := by
  have hload : s.loop.regs.hold = .load ∨ (∃ state, s.loop.regs.hold = .exchange state) →
      s.loop.regs.hold.decision = none := by
    rintro (hl | ⟨state, hl⟩) <;> rw [hl] <;> rfl
  have hdecisions := h.decisions
  unfold Arguments.decisionsAfter
  cases (nodeStep_move h.loop.owned hs).2 with
  | releases b _ _ hl _ _ hhold _ _ hpushed _ | examines b _ _ hl _ _ hhold _ _ hpushed _ =>
    rw [hload hl] at hdecisions ⊢
    rw [hhold, hpushed]
    exact ⟨hdecisions, h.effective⟩
  | settles b _ _ hl _ _ hhold _ _ hpushed _ =>
    rw [hload hl] at hdecisions ⊢
    rw [hpushed]
    cases hready : (s.loop.regs.word b).effectiveReadiness.isEmpty with
    | true =>
      rw [hready, if_pos rfl] at hhold
      rw [hhold]
      exact ⟨hdecisions, h.effective⟩
    | false =>
      rw [hready, if_neg (by decide)] at hhold
      rw [hhold]
      refine ⟨?_, fun d hd => ?_⟩
      · show s.decisions ++ _ = _
        rw [hdecisions, List.append_assoc]
        rfl
      · rcases List.mem_append.mp hd with hd | hd
        · exact h.effective d hd
        · rw [List.mem_singleton.mp hd]
          exact hready
  | reads b readiness pos token hl _ _ hhold _ hpushed _ =>
    rw [hl] at hdecisions ⊢
    rw [hhold, hpushed]
    exact ⟨hdecisions, h.effective⟩
  | pushes b event hl _ hhold _ hpushed _ =>
    rw [hl] at hdecisions ⊢
    rw [hhold, hpushed]
    refine ⟨?_, h.effective⟩
    show s.decisions = _
    rw [hdecisions, List.map_append]
    exact (List.append_nil _).symm
  | clears b hl _ hhold _ hpushed _ =>
    rw [hl] at hdecisions ⊢
    rw [hhold, hpushed]
    exact ⟨hdecisions, h.effective⟩

omit [DecidableEq ι] [DecidableEq α] in
theorem events_pushed {l : JobLoop ι α C} {i : ℕ} {e : JobEntry (Option (Closure α C))}
    (hle : l.selected.length ≤ i) (he : l.events[i]? = some e) :
    ∃ b event job, l.regs.pushed[l.base + (i - l.selected.length)]? = some (b, event, job) ∧
      e = pushEvent event job := by
  unfold JobLoop.events at he
  rw [List.getElem?_append_right (by rwa [List.length_map]), List.length_map, List.getElem?_map,
    List.getElem?_drop] at he
  obtain ⟨⟨b, event, job⟩, hb, rfl⟩ := Option.map_eq_some_iff.mp he
  exact ⟨b, event, job, hb, rfl⟩

theorem Arguments.Ok.called (h : s.Ok) (op : JobLoopOp ι α C) : ∀ c ∈ s.callsAfter op,
    c.argument = 0 ∧ ∃ a readiness, c.decision = some (a, readiness) ∧ readiness.isEmpty = false := by
  intro c hc
  unfold Arguments.callsAfter at hc
  split at hc
  · split at hc
    · rename_i i cnt _
      split at hc
      · rename_i hi
        split at hc
        · rename_i argument hargument
          rcases List.mem_append.mp hc with hc | hc
          · exact h.calls c hc
          · obtain ⟨e, he, hcall⟩ := Option.bind_eq_some_iff.mp hargument
            obtain ⟨b, event, job, hpushed, rfl⟩ := events_pushed hi.1 he
            have hdecision :
                s.decisions[s.loop.base + (i - s.loop.selected.length)]? = some (b, event.kind) := by
              have hlt := (List.getElem?_eq_some_iff.mp hpushed).1
              rw [h.decisions, List.getElem?_append_left ((List.length_map _).symm ▸ hlt),
                List.getElem?_map, hpushed]
              rfl
            rw [List.mem_singleton.mp hc]
            exact ⟨callArgument_pushEvent hcall, b, event.kind, hdecision,
              h.effective _ (List.mem_of_getElem? hdecision)⟩
        · exact h.calls c hc
      · exact h.calls c hc
    · exact h.calls c hc
  · exact h.calls c hc

theorem argumentsStep_ok {op : JobLoopOp ι α C} (h : s.Ok) (hs : argumentsStep s op = some s') :
    s'.Ok := by
  obtain ⟨loop, hloop, rfl⟩ := Option.map_eq_some_iff.mp hs
  have hok := jobLoopStep_ok h.loop hloop
  by_cases hop : op = .node
  · subst hop
    obtain ⟨regs, hregs, rfl⟩ := Option.map_eq_some_iff.mp hloop
    obtain ⟨hdecisions, heffective⟩ := h.node hregs
    exact ⟨hok, hdecisions, heffective, h.called .node⟩
  · obtain ⟨hhold, hpushed⟩ := jobLoopStep_quiet hop hloop
    have hsame := decisionsAfter_same hhold
    refine ⟨hok, ?_, ?_, h.called op⟩
    · show s.decisionsAfter loop.regs = _
      rw [hsame, hhold, hpushed]
      exact h.decisions
    · show ∀ d ∈ s.decisionsAfter loop.regs, _
      rw [hsame]
      exact h.effective

theorem Arguments.Starts.ok (h : s.Starts) : s.Ok := by
  refine ⟨h.loop.ok, ?_, ?_, ?_⟩
  · rw [h.decisions, h.loop.pushed, h.loop.regs.hold]
    rfl
  · rw [h.decisions]
    simp
  · rw [h.calls]
    simp

theorem arguments_ok (hs : Reachable argumentsStep Arguments.Starts s) : s.Ok :=
  hs.invariant (fun _ hinit => hinit.ok) fun _ _ _ h hstep => argumentsStep_ok h hstep

end Runs

/-- **The jobs of registrations see no readiness.** In every run, each call of a job for a pushed event
has argument zero, while the poller had decided on a non-empty readiness of its node: so the calls
receive what was decided on exactly when there are none. -/
theorem registration_jobs_see_nothing (s : Arguments ι α C)
    (hs : Reachable argumentsStep Arguments.Starts s) :
    (∀ c ∈ s.calls, c.argument = 0 ∧
      ∃ a readiness, c.decision = some (a, readiness) ∧ readiness.isEmpty = false) ∧
      ((∀ c ∈ s.calls, c.Receives) ↔ s.calls = []) := by
  have h := arguments_ok hs
  refine ⟨h.calls, fun hall => ?_, fun hnone => by simp [hnone]⟩
  apply List.eq_nil_iff_forall_not_mem.mpr
  intro c hc
  obtain ⟨hzero, a, readiness, hdecision, hready⟩ := h.calls c hc
  obtain ⟨a', readiness', hdecision', hargument⟩ := hall c hc
  obtain ⟨rfl, rfl⟩ := Prod.mk.inj (Option.some.inj (hdecision.symm.trans hdecision'))
  exact jobArgument_ne_zero hready (hargument.symm.trans hzero)

theorem newArguments_starts : (⟨newLoop, [], []⟩ : Arguments Unit ℕ ℕ).Starts :=
  ⟨newLoop_starts, rfl, rfl⟩

theorem registration_jobs_see_nothing_one :
    ∃ s : Arguments Unit ℕ ℕ, s.calls = [⟨some (0, .readable), 0⟩] ∧
      ((∀ c ∈ s.calls, c.Receives) ↔ s.calls = []) := by
  obtain ⟨s, hs, hcalls⟩ : ∃ s : Arguments Unit ℕ ℕ,
      run argumentsStep ⟨newLoop, [], []⟩ oneJobOps = some s ∧ s.calls = [⟨some (0, .readable), 0⟩] :=
    Option.map_eq_some_iff.mp (by decide +kernel)
  have hreach := (Reachable.start newArguments_starts).run hs
  exact ⟨s, hcalls, (registration_jobs_see_nothing s hreach).2⟩

/-- The job of a node that is `readable` is called with zero. -/
theorem readable_job_sees_nothing :
    ∃ s : Arguments Unit ℕ ℕ, Reachable argumentsStep Arguments.Starts s ∧
      (⟨some (0, .readable), 0⟩ : PushedCall ℕ) ∈ s.calls ∧
      ¬ (⟨some (0, .readable), 0⟩ : PushedCall ℕ).Receives := by
  obtain ⟨s, hs, hcalls⟩ : ∃ s : Arguments Unit ℕ ℕ,
      run argumentsStep ⟨newLoop, [], []⟩ oneJobOps = some s ∧ s.calls = [⟨some (0, .readable), 0⟩] :=
    Option.map_eq_some_iff.mp (by decide +kernel)
  refine ⟨s, (Reachable.start newArguments_starts).run hs, hcalls ▸ List.mem_singleton_self _, ?_⟩
  rintro ⟨a, readiness, hdecision, hargument⟩
  obtain ⟨rfl, rfl⟩ := Prod.mk.inj (Option.some.inj hdecision)
  exact absurd hargument (by decide)

end MyMio

import MyMio.Foundations.EdgeTriggered
import MyMio.Foundations.StepSystem
import Mathlib.Tactic.Common

/-! # Accepting connections

`Acceptor` in `src/net/acceptor.rs` over `TcpListener::accept` in `src/net/tcp.rs`. The listener is
registered edge-triggered, and `handle_read` accepts until `accept` would block, going on when it is
interrupted. Any other error also ends the loop: then what is in the backlog waits for the next
connection to arrive (`backlog_waits`).

Each connection that arrives is in the backlog or has been accepted, in order, and each one accepted is
handed to `acceptor_job` once, unless it could not be made non-blocking and is closed. With no event of
the listener on its way, the backlog is empty, unless the last loop has ended on an error
(`all_accepted`).
-/

namespace MyMio
set_option autoImplicit false

open EdgeTriggered StepSystem

universe u

variable {C : Type u}

/-! ## The loop -/

/-- What the system call answers, and for a connection whether `set_nonblocking` succeeds on it. -/
inductive AcceptAnswer (C : Type u)
  | ok (c : C) (nonblocking : Bool)
  | interrupted
  | wouldBlock
  | err
  deriving DecidableEq, Repr

inductive AcceptError
  | interrupted
  | wouldBlock
  | other
  deriving DecidableEq, Repr

/-- `TcpListener::accept`: `accept_std`, then `TcpStream::from_stream`. -/
def TcpListener.accept : AcceptAnswer C → Except AcceptError C
  | .ok c nonblocking => if nonblocking then .ok c else .error .other
  | .interrupted => .error .interrupted
  | .wouldBlock => .error .wouldBlock
  | .err => .error .other

/-- `Acceptor::handle_read`: the calls of `acceptor_job`. `none` when the answers run out before the loop
ends. -/
def Acceptor.handleRead (calls : List C) : List (AcceptAnswer C) → Option (List C)
  | [] => none
  | answer :: answers =>
    match TcpListener.accept answer with
    | .ok c => handleRead (calls ++ [c]) answers
    | .error .interrupted => handleRead calls answers
    | .error .wouldBlock => some calls
    | .error .other => some calls

/-- The connection that an answer takes out of the backlog, and whether it is handed on. -/
def AcceptAnswer.took : AcceptAnswer C → List (C × Bool)
  | .ok c nonblocking => [(c, nonblocking)]
  | _ => []

/-- The loop ends with this answer. -/
def AcceptAnswer.ends : AcceptAnswer C → Bool
  | .ok _ nonblocking => !nonblocking
  | .interrupted => false
  | .wouldBlock | .err => true

/-- The loop has ended on an error other than `WouldBlock`. -/
def gaveUp [DecidableEq C] (answers : List (AcceptAnswer C)) : Bool :=
  decide (answers.getLast? ≠ some .wouldBlock)

/-! ## The listener -/

section Listener
variable [DecidableEq C]

/-- What the answer leaves of the backlog; `none` if `accept` cannot answer so. -/
def backlogAfter (backlog : List C) : AcceptAnswer C → Option (List C)
  | .ok c _ =>
    match backlog with
    | [] => none
    | head :: rest => if head = c then some rest else none
  | .wouldBlock => if backlog.isEmpty then some backlog else none
  | .interrupted | .err => some backlog

/-- The calls of one loop, each after what has arrived since the one before. -/
def serveAll (backlog : List C) (answers : List (List C × AcceptAnswer C)) : Option (List C) :=
  serve (fun backlog c => backlog ++ [c]) backlogAfter backlog answers

/-- A listening socket and its acceptor. Of the run so far, `arrived` are all connections in order,
`taken` those accepted with whether they could be made non-blocking, and `failed` tells that the last
loop has ended on an error and nothing has arrived since. -/
structure Listener (C : Type u) where
  backlog : List C
  edge : Edge Unit
  isListening : Bool
  jobCalls : List C
  arrived : List C
  taken : List (C × Bool)
  failed : Bool
  deriving DecidableEq, Repr

def Listener.new : Listener C := ⟨[], ⟨false, []⟩, false, [], [], [], false⟩

inductive ListenerOp (C : Type u)
  | arrive (c : C)
  /-- `Acceptor::bind` -/
  | bind
  /-- `epoll_wait` reports the listener, or finds nothing to report -/
  | report
  | lapse
  /-- `io_process` calls the job of the next event -/
  | handleRead (answers : List (List C × AcceptAnswer C))
  deriving DecidableEq, Repr

def listenerStep (s : Listener C) : ListenerOp C → Option (Listener C)
  | .arrive c =>
    some { s with
      backlog := s.backlog ++ [c]
      edge := s.edge.raise
      arrived := s.arrived ++ [c]
      failed := false }
  | .bind =>
    some { s with isListening := true, edge := if s.backlog.isEmpty then s.edge else s.edge.raise }
  | .report =>
    if s.isListening = true ∧ s.edge.raised = true then some { s with edge := s.edge.report () } else none
  | .lapse =>
    if s.backlog.isEmpty then some { s with edge := { s.edge with raised := false } } else none
  | .handleRead answers =>
    match s.edge.reported with
    | [] => none
    | _ :: rest =>
      if EndsAtLast AcceptAnswer.ends (answers.map Prod.snd) then
        (serveAll s.backlog answers).bind fun backlog =>
          (Acceptor.handleRead s.jobCalls (answers.map Prod.snd)).map fun jobCalls =>
            { s with
              backlog := backlog
              edge := ⟨s.edge.raised || answers.any fun a => !a.1.isEmpty, rest⟩
              jobCalls := jobCalls
              arrived := s.arrived ++ answers.flatMap Prod.fst
              taken := s.taken ++ answers.flatMap fun a => a.2.took
              failed := gaveUp (answers.map Prod.snd) }
      else none

/-- The connections handed on among those accepted. -/
def handedOn (taken : List (C × Bool)) : List C := (taken.filter Prod.snd).map Prod.fst

structure Listener.Ok (s : Listener C) : Prop where
  arrived : s.taken.map Prod.fst ++ s.backlog = s.arrived
  jobs : s.jobCalls = handedOn s.taken
  told : s.isListening = true → s.backlog ≠ [] → s.edge.Tells (fun _ => True) ∨ s.failed = true

/-! ## One loop -/

variable {backlog backlog' : List C} {answers : List (List C × AcceptAnswer C)}

omit [DecidableEq C] in
theorem handedOn_append (taken taken' : List (C × Bool)) :
    handedOn (taken ++ taken') = handedOn taken ++ handedOn taken' := by
  unfold handedOn
  rw [List.filter_append, List.map_append]

theorem backlogAfter_took {answer : AcceptAnswer C} (h : backlogAfter backlog answer = some backlog') :
    answer.took.map Prod.fst ++ backlog' = backlog := by
  cases answer with
  | ok c nonblocking =>
    cases backlog with
    | nil => cases h
    | cons head rest =>
      simp only [backlogAfter] at h
      split at h
      · rename_i hhead
        obtain rfl := Option.some.inj h
        exact congrArg (· :: rest) hhead.symm
      · cases h
  | wouldBlock =>
    simp only [backlogAfter] at h
    split at h
    · exact (Option.some.inj h).symm
    · cases h
  | interrupted | err => exact (Option.some.inj h).symm

theorem serveAll_took (h : serveAll backlog answers = some backlog') :
    (answers.flatMap fun a => a.2.took).map Prod.fst ++ backlog' = backlog ++ answers.flatMap Prod.fst := by
  have hfifo := serve_fifo id (fun c => [c]) (fun answer => answer.took.map Prod.fst) (fun _ _ => rfl)
    (fun _ _ _ => backlogAfter_took) h
  simpa [List.map_flatMap] using hfifo

omit [DecidableEq C] in
theorem handleRead_calls {calls calls' : List C} {answers : List (AcceptAnswer C)}
    (hloop : EndsAtLast AcceptAnswer.ends answers = true)
    (h : Acceptor.handleRead calls answers = some calls') :
    calls' = calls ++ handedOn (answers.flatMap AcceptAnswer.took) := by
  induction answers generalizing calls with
  | nil => cases h
  | cons answer answers ih =>
    rw [List.flatMap_cons, handedOn_append]
    cases answer with
    | ok c nonblocking =>
      cases nonblocking with
      | true =>
        rw [ih (endsAtLast_cons hloop rfl) h, List.append_assoc]
        rfl
      | false =>
        obtain rfl := eq_nil_of_ends hloop rfl
        obtain rfl := Option.some.inj h
        exact (List.append_nil _).symm
    | interrupted => exact ih (endsAtLast_cons hloop rfl) h
    | wouldBlock | err =>
      obtain rfl := eq_nil_of_ends hloop rfl
      obtain rfl := Option.some.inj h
      exact (List.append_nil _).symm

/-- A loop that is left on `WouldBlock` has emptied the backlog. -/
theorem serveAll_empty (hloop : EndsAtLast AcceptAnswer.ends (answers.map Prod.snd) = true)
    (h : serveAll backlog answers = some backlog') (hgave : gaveUp (answers.map Prod.snd) = false) :
    backlog' = [] := by
  obtain ⟨m, last, hlast, -, hanswer⟩ := serve_last hloop h
  unfold gaveUp at hgave
  rw [hlast] at hgave
  obtain rfl : last = .wouldBlock := by simpa using hgave
  simp only [backlogAfter] at hanswer
  split at hanswer
  · rename_i hempty
    obtain rfl := Option.some.inj hanswer
    exact List.isEmpty_iff.mp hempty
  · cases hanswer

/-! ## Runs -/

variable {s s' : Listener C}

theorem Listener.Ok.handleRead {answers : List (List C × AcceptAnswer C)} (h : s.Ok)
    (hs : listenerStep s (.handleRead answers) = some s') : s'.Ok := by
  simp only [listenerStep] at hs
  split at hs
  · cases hs
  rename_i rest _
  split at hs
  · rename_i hloop
    obtain ⟨backlog, hserve, hs⟩ := Option.bind_eq_some_iff.mp hs
    obtain ⟨jobCalls, hcalls, rfl⟩ := Option.map_eq_some_iff.mp hs
    refine ⟨?_, ?_, fun _ hwaits => ?_⟩
    · show (s.taken ++ answers.flatMap fun a => a.2.took).map Prod.fst ++ backlog = s.arrived ++ _
      rw [List.map_append, List.append_assoc, serveAll_took hserve, ← List.append_assoc, h.arrived]
    · show jobCalls = handedOn (s.taken ++ answers.flatMap fun a => a.2.took)
      rw [handleRead_calls hloop hcalls, handedOn_append, h.jobs, List.flatMap_map]
    · right
      cases hgave : gaveUp (answers.map Prod.snd) with
      | true => rfl
      | false => exact absurd (serveAll_empty hloop hserve hgave) hwaits
  · cases hs

theorem listenerStep_ok {op : ListenerOp C} (h : s.Ok) (hs : listenerStep s op = some s') : s'.Ok := by
  cases op with
  | arrive c =>
    obtain rfl := Option.some.inj hs
    refine ⟨?_, h.jobs, fun _ _ => .inl Edge.tells_raise⟩
    show s.taken.map Prod.fst ++ (s.backlog ++ [c]) = s.arrived ++ [c]
    rw [← List.append_assoc, h.arrived]
  | bind =>
    obtain rfl := Option.some.inj hs
    refine ⟨h.arrived, h.jobs, fun _ hwaits => .inl ?_⟩
    show (if s.backlog.isEmpty then s.edge else s.edge.raise).Tells _
    rw [if_neg fun hempty => hwaits (List.isEmpty_iff.mp hempty)]
    exact Edge.tells_raise
  | report =>
    simp only [listenerStep] at hs
    split at hs
    · obtain rfl := Option.some.inj hs
      exact ⟨h.arrived, h.jobs, fun _ _ => .inl (Edge.tells_report trivial)⟩
    · cases hs
  | lapse =>
    simp only [listenerStep] at hs
    split at hs
    · rename_i hempty
      obtain rfl := Option.some.inj hs
      exact ⟨h.arrived, h.jobs, fun _ hwaits => absurd (List.isEmpty_iff.mp hempty) hwaits⟩
    · cases hs
  | handleRead answers => exact h.handleRead hs

end Listener

/-- **Every connection is accepted.** In every run of a listening socket and its acceptor, with whatever
arrives between any two steps and any two calls of `accept`: the connections accepted and the backlog
are all that have arrived, in order; `acceptor_job` has been called once for each that could be made
non-blocking, in order; and while no event of the listener is on its way, the backlog is empty, unless
the last loop has ended on an error and nothing has arrived since. -/
theorem all_accepted [DecidableEq C] (s : Listener C) (hs : Reachable listenerStep (· = Listener.new) s) :
    s.taken.map Prod.fst ++ s.backlog = s.arrived ∧ s.jobCalls = handedOn s.taken ∧
      (s.isListening = true → ¬ s.edge.Tells (fun _ => True) → s.failed = false → s.backlog = []) := by
  have h : s.Ok := hs.invariant
    (fun _ hinit => hinit ▸ ⟨rfl, rfl, fun hlistening => by cases hlistening⟩)
    fun _ _ _ h hstep => listenerStep_ok h hstep
  refine ⟨h.arrived, h.jobs, fun hlistening hquiet hsound => ?_⟩
  by_contra hwaits
  rcases h.told hlistening hwaits with htells | hfailed
  · exact hquiet htells
  · exact absurd (hsound.symm.trans hfailed) (by decide)

/-- Three connections, one of them while the loop runs, and one that cannot be made non-blocking. -/
theorem all_accepted_three : ∃ s : Listener ℕ, s.arrived = [1, 2, 3] ∧ s.backlog = [] ∧
    s.jobCalls = [1, 3] ∧ s.taken.map Prod.fst ++ s.backlog = s.arrived := by
  obtain ⟨s, hs, hview⟩ : ∃ s : Listener ℕ, run listenerStep .new [.bind, .arrive 1, .report,
      .handleRead [([], .ok 1 true), ([2], .interrupted), ([], .ok 2 false)], .arrive 3, .report,
      .handleRead [([], .ok 3 true), ([], .wouldBlock)]] = some s ∧
      (s.arrived, s.backlog, s.jobCalls) = ([1, 2, 3], [], [1, 3]) :=
    Option.map_eq_some_iff.mp (by decide +kernel)
  simp only [Prod.mk.injEq] at hview
  obtain ⟨harrived, hbacklog, hjobs⟩ := hview
  have hstart : Reachable listenerStep (· = Listener.new) (Listener.new : Listener ℕ) := .start rfl
  exact ⟨s, harrived, hbacklog, hjobs, (all_accepted s (hstart.run hs)).1⟩

/-- An error leaves a connection in the backlog, with no event on its way. -/
theorem backlog_waits : ∃ s : Listener ℕ, Reachable listenerStep (· = Listener.new) s ∧
    s.isListening = true ∧ s.backlog = [1] ∧ s.edge = ⟨false, []⟩ := by
  obtain ⟨s, hs, hview⟩ : ∃ s : Listener ℕ,
      run listenerStep .new [.bind, .arrive 1, .report, .handleRead [([], .err)]] = some s ∧
      (s.isListening, s.backlog, s.edge) = (true, [1], ⟨false, []⟩) :=
    Option.map_eq_some_iff.mp (by decide)
  simp only [Prod.mk.injEq] at hview
  have hstart : Reachable listenerStep (· = Listener.new) (Listener.new : Listener ℕ) := .start rfl
  exact ⟨s, hstart.run hs, hview⟩

end MyMio

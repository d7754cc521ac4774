import MyMio.Node.Ownership

/-! # Jobs enqueued on an event loop

`enqueue_job`, `EventLoop::run_once` and `EventLoop::io_process` in `src/net/event_loop.rs`, over the
registrations of `MyMio.Node.Model`: any number of threads in `enqueue_job`, each call with a `cb`
and a node of its own; any number of threads that use other registrations of the poll; and the
thread of the event loop. The steps are the accesses to shared memory, each turn of the loop in
`io_process`, and each entry dropped by `events.clear()`.

The other registrations are associated with the poll from the start. A node that is not made yet is
as `new2` makes it. What a `cb` does is left out: it returns, and where it enqueues a job itself, this
is a call like that of any other thread.
-/

namespace MyMio
set_option autoImplicit false

open StepSystem

universe u v w

/-! ## Closures -/

/-- What is in a node or in an event: the closure `enqueue_job` makes of a `cb`, which holds the two
handles of its node, or any other one. -/
inductive Closure (α : Type u) (C : Type w)
  | job (a : α) (cb : C)
  | other (c : C)
  deriving DecidableEq, Repr

variable {ι : Type v} {α : Type u} {C : Type w}

/-- The node whose handles the closure holds. -/
def capture : Option (Closure α C) → Option α
  | some (.job a _) => some a
  | _ => none

/-- What running an entry of the batch calls: the `cb` of `enqueue_job`, with its node. For a timer
event `io_process` polls the timer and leaves the closure alone. -/
def ran (e : JobEntry (Option (Closure α C))) : List (α × C) :=
  match e.tokenEntry.ttype, e.job with
  | .timersEvent, _ => []
  | _, some (.job a cb) => [(a, cb)]
  | _, _ => []

def pushEvent (event : Event) (job : Option (Closure α C)) : JobEntry (Option (Closure α C)) :=
  ⟨event.token, job, .empty⟩

/-- A call on another registration. -/
def NodeCall.other : NodeCall α C → NodeCall α (Closure α C)
  | .setReadiness a ready => .setReadiness a ready
  | .update a u => .update a ⟨u.token, u.interest, u.opt, u.job.map .other⟩
  | .drop a => .drop a

def NodeCall.node {J : Type w} : NodeCall α J → α
  | .setReadiness a _ | .update a _ | .drop a => a

/-! ## The parties -/

/-- Where a thread is in `enqueue_job`. -/
inductive Caller (α : Type u) (C : Type w)
  | idle
  /-- in `set_readiness` -/
  | setting (a : α) (cb : C)
  /-- in `update`, about to load `readiness_queue` -/
  | loading (a : α) (cb : C)
  /-- about to exchange a null `readiness_queue` for the queue of the poll -/
  | associating (a : α) (cb : C)
  /-- in the rest of `update` -/
  | registering (a : α) (cb : C)
  /-- in `Registration::drop` -/
  | dropping (a : α)
  deriving DecidableEq, Repr

/-- Where the event loop is in `run_once`. -/
inductive LoopPhase
  | idle
  | polling
  /-- at the head of the loop of `io_process` -/
  | processing (i cnt : ℕ)
  /-- in `events.clear()`, the entries up to `k` dropped -/
  | clearing (k : ℕ)
  deriving DecidableEq, Repr

/-- What a node is used for; `job` has the thread and the `cb` of the call that made it. -/
inductive NodeUse (ι : Type v) (C : Type w)
  | unmade
  | other
  | job (i : ι) (cb : C)
  deriving DecidableEq, Repr

/-- Everything. `none` is the thread of the event loop. `arcs` is the strong count of the
`Arc<Registration>` of a node. The ghosts are the calls of a `cb` with its node, the nodes whose
`enqueue_job` has returned, and for each thread the nodes it has made, in order. -/
structure JobLoop (ι : Type v) (α : Type u) (C : Type w) where
  regs : Registrations (Option ι) α (Closure α C)
  uses : α → NodeUse ι C
  callers : ι → Caller α C
  associated : α → Bool
  arcs : α → ℕ
  phase : LoopPhase
  /-- the events from the selector, and how many had been pushed when the poll began -/
  selected : List (Event × Option C)
  base : ℕ
  called : List (α × C)
  returned : α → Bool
  made : ι → List α

inductive JobLoopOp (ι : Type v) (α : Type u) (C : Type w)
  /-- a thread outside `enqueue_job` uses another registration -/
  | call (i : ι) (c : NodeCall α C)
  | enqueueJob (i : ι) (a : α) (cb : C)
  /-- a thread in `enqueue_job` goes on once the call it is in has returned -/
  | caller (i : ι)
  | thread (o : Option ι)
  | producer (o : Option ι) (wouldBlock : Bool)
  | runOnce (timeout : Option ℕ)
  | selected (res : SelectResult) (events : List (Event × Option C))
  /-- any other step of the poller that does not touch a node -/
  | poll (op : PollingOp (Option ι) α)
  | node
  | polled
  /-- the next turn of the loop in `io_process` -/
  | process
  /-- the next entry dropped by `events.clear()` -/
  | clear

namespace JobLoop

def events (s : JobLoop ι α C) : List (JobEntry (Option (Closure α C))) :=
  (s.selected.map fun e => pushEvent e.1 (e.2.map .other)) ++
    (s.regs.pushed.drop s.base).map fun e => pushEvent e.2.1 e.2.2

variable [DecidableEq ι] [DecidableEq α]

/-- A thread is in no call on a node. -/
def resting (s : JobLoop ι α C) (o : Option ι) : Bool :=
  match s.regs.threads o, s.regs.polling.queue.producers o with
  | .idle, .idle => true
  | _, _ => false

/-- A thread begins a call on a node. -/
def begin (s : JobLoop ι α C) (o : Option ι) (c : NodeCall α (Closure α C)) :
    Option (JobLoop ι α C) :=
  (registrationsStep s.regs (.call o c)).map fun regs => { s with regs := regs }

def gotoCaller (s : JobLoop ι α C) (i : ι) (pc : Caller α C) : JobLoop ι α C :=
  { s with callers := Function.update s.callers i pc }

/-- What `enqueue_job` passes to `register`. -/
def jobUpdate (a : α) (cb : C) : Update (Closure α C) :=
  ⟨⟨.otherEvent, ⟨0⟩⟩, .readable, .edge, some (.job a cb)⟩

/-- A share of the `Arc<Registration>` goes; the last one runs `Registration::drop`. -/
def dropArc (s : JobLoop ι α C) (o : Option ι) (a : α) : Option (JobLoop ι α C) :=
  let s' := { s with arcs := Function.update s.arcs a (s.arcs a - 1) }
  if s.arcs a = 1 then s'.begin o (.drop a) else some s'

def enqueueJob (s : JobLoop ι α C) (i : ι) (a : α) (cb : C) : Option (JobLoop ι α C) :=
  match s.callers i, s.uses a with
  | .idle, .unmade =>
    -- `new2`, and one more share of the registration for the closure
    { s.gotoCaller i (.setting a cb) with
      uses := Function.update s.uses a (.job i cb)
      arcs := Function.update s.arcs a 2
      made := Function.update s.made i (s.made i ++ [a]) }.begin (some i) (.setReadiness a .readable)
  | _, _ => none

/-- From the association on, `update` is that of `MyMio.Node.Model`. -/
def register (s : JobLoop ι α C) (i : ι) (a : α) (cb : C) : Option (JobLoop ι α C) :=
  { s.gotoCaller i (.registering a cb) with
    associated := Function.update s.associated a true }.begin (some i) (.update a (jobUpdate a cb))

def return_ (s : JobLoop ι α C) (i : ι) (a : α) : JobLoop ι α C :=
  { s.gotoCaller i .idle with returned := Function.update s.returned a true }

def callerStep (s : JobLoop ι α C) (i : ι) : Option (JobLoop ι α C) :=
  if s.resting (some i) then
    match s.callers i with
    | .idle => none
    | .setting a cb => some (s.gotoCaller i (.loading a cb))
    | .loading a cb =>
      if s.associated a then s.register i a cb else some (s.gotoCaller i (.associating a cb))
    | .associating a cb => s.register i a cb
    | .registering a _ =>
      -- the locals of `enqueue_job` go
      if s.arcs a = 1 then (s.gotoCaller i (.dropping a)).dropArc (some i) a
      else (s.dropArc (some i) a).map fun s' => s'.return_ i a
    | .dropping a => some (s.return_ i a)
  else none

/-- The closure that `update` drops with this access, because it does not store it. -/
def unstored (s : JobLoop ι α C) (o : Option ι) : Option (Closure α C) :=
  match s.regs.threads o with
  | .updateLock a u => if (s.regs.nodes a).updateLock then u.job else none
  | .updateUnlock _ u false => u.job
  | _ => none

/-- A share of a closure goes that is not the last share of its registration. -/
def forget (s : JobLoop ι α C) (job : Option (Closure α C)) : α → ℕ :=
  match capture job with
  | some a => Function.update s.arcs a (s.arcs a - 1)
  | none => s.arcs

def threadStep (s : JobLoop ι α C) (o : Option ι) : Option (JobLoop ι α C) :=
  match s.regs.threads o with
  | .enqueue a =>
    if s.associated a then
      (registrationsStep s.regs (.thread o)).map fun regs => { s with regs := regs }
    else
      -- `readiness_queue` is null
      some { s with regs := s.regs.goto o .idle }
  | _ =>
    (registrationsStep s.regs (.thread o)).map fun regs =>
      { s with regs := regs, arcs := s.forget (s.unstored o) }

def selectedStep (s : JobLoop ι α C) (res : SelectResult) (events : List (Event × Option C)) :
    Option (JobLoop ι α C) :=
  let step := registrationsStep s.regs (.poll (.selected res))
  match res with
  | .ok _ len =>
    if len = events.length then step.map fun regs => { s with regs := regs, selected := events }
    else none
  -- `run_once` returns the error
  | .failed => step.map fun regs => { s with regs := regs, phase := .idle }
  | .interrupted _ => step.map fun regs => { s with regs := regs }

/-- Whether something else than the entry `k` of the batch holds the closure of a node. -/
def shared (s : JobLoop ι α C) (a : α) (k : ℕ) : Bool :=
  capture (s.regs.nodes a).job == some a ||
    (s.events.drop (k + 1)).any fun e => capture e.job == some a

/-- An entry of the batch goes, and with it, as a rule, the last share of its closure. -/
def dropEntry (s : JobLoop ι α C) (k : ℕ) (e : JobEntry (Option (Closure α C))) :
    Option (JobLoop ι α C) :=
  match capture e.job with
  | some a => if s.shared a k then some s else s.dropArc none a
  | none => some s

def clearStep (s : JobLoop ι α C) (k : ℕ) : Option (JobLoop ι α C) :=
  if s.resting none then
    match s.events[k]? with
    | some e => (s.dropEntry k e).map fun s' => { s' with phase := .clearing (k + 1) }
    | none => some { s with phase := .idle, selected := [], base := s.regs.pushed.length }
  else none

/-- A turn of the loop in `io_process`. -/
def processStep (s : JobLoop ι α C) (i cnt : ℕ) : JobLoop ι α C :=
  if i < cnt then
    match s.events[i]? with
    | some e => { s with called := s.called ++ ran e, phase := .processing (i + 1) cnt }
    | none => { s with phase := .processing (i + 1) cnt }
  else { s with phase := .clearing 0 }

end JobLoop

variable [DecidableEq ι] [DecidableEq α]

def jobLoopStep (s : JobLoop ι α C) : JobLoopOp ι α C → Option (JobLoop ι α C)
  | .call i c =>
    match s.callers i, s.uses c.node with
    | .idle, .other => s.begin (some i) c.other
    | _, _ => none
  | .enqueueJob i a cb => s.enqueueJob i a cb
  | .caller i => s.callerStep i
  | .thread o => s.threadStep o
  | .producer o wouldBlock =>
    (registrationsStep s.regs (.producer o wouldBlock)).map fun regs => { s with regs := regs }
  | .runOnce timeout =>
    match s.phase with
    | .idle =>
      (registrationsStep s.regs (.poll (.poll2 ⟨1024 * 4, false⟩ timeout))).map fun regs =>
        { s with regs := regs, phase := .polling, selected := [], base := s.regs.pushed.length }
    | _ => none
  | .selected res events => s.selectedStep res events
  | .poll op =>
    match op with
    | .poll2 _ _ | .selected _ => none
    | _ => (registrationsStep s.regs (.poll op)).map fun regs => { s with regs := regs }
  | .node => (registrationsStep s.regs .node).map fun regs => { s with regs := regs }
  | .polled =>
    match s.phase, s.regs.polling.poller with
    | .polling, .idle => some { s with phase := .processing 0 s.events.length }
    | _, _ => none
  | .process =>
    match s.phase with
    | .processing i cnt => some (s.processStep i cnt)
    | _ => none
  | .clear =>
    match s.phase with
    | .clearing k => s.clearStep k
    | _ => none

/-- A new event loop, with other registrations on its poll and none made by `enqueue_job`. -/
structure JobLoop.Starts (s : JobLoop ι α C) : Prop where
  regs : s.regs.Starts
  pushed : s.regs.pushed = []
  uses : ∀ a, s.uses a = .unmade ∧ s.regs.nodes a = .new ⟨.tokenEvent, ⟨0⟩⟩ .empty .empty ∨
    s.uses a = .other ∧ s.associated a = true
  callers : ∀ i, s.callers i = .idle
  phase : s.phase = .idle
  selected : s.selected = []
  base : s.base = 0
  called : s.called = []
  returned : ∀ a, s.returned a = false
  made : ∀ i, s.made i = []

end MyMio

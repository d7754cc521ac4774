import MyMio.Net.Acceptor

/-! # Starting a server

`TcpServer::start_internal` in `src/net/tcp_server.rs`. It runs on the thread that sets the servers up,
while the event loop of the server runs on a thread of its own. The two share the server and its acceptor,
each behind a mutex, and take them in opposite orders: `start_internal` locks the server and then the
acceptor, the loop locks the acceptor for all of `handle_read` and then, in `acceptor_job`, the server.

`bind` comes before `set_accept_job`, so the loop may accept connections while `acceptor_job` is still the
default one, which drops them. The default job does not lock the server, and that is why the two threads do
not block each other for ever: `start_internal` can always return (`start_internal_returns`).

The mutex of the acceptor makes one `handle_read` one step of `listenerStep`, and connections that one loop
accepts all go to the same job (`start_internal_serves`).
-/

namespace MyMio
set_option autoImplicit false

open EdgeTriggered StepSystem

universe u

variable {C : Type u}

/-! ## The two threads -/

/-- The statements of `start_internal` that lock both. -/
inductive LockedCall
  | bind
  | setAcceptJob
  deriving DecidableEq, Repr

/-- Where `start_internal` is: what it is about to do. -/
inductive StartInternal
  /-- to lock the server and clone the handle of the acceptor -/
  | clone
  /-- to drop the guard of the server -/
  | cloned
  | lockServer (call : LockedCall)
  | lockAcceptor (call : LockedCall)
  | call (call : LockedCall)
  | unlockAcceptor (call : LockedCall)
  | unlockServer (call : LockedCall)
  | returned
  deriving DecidableEq, Repr

/-- Where the loop thread is. -/
inductive Serving (C : Type u)
  /-- outside the job of the acceptor -/
  | outside
  /-- the job has been called: to lock the acceptor -/
  | lockAcceptor
  /-- in `handle_read`, to call `accept` -/
  | accept
  /-- in `acceptor_job`, to lock the server -/
  | lockServer (c : C)
  /-- to call `on_accept_connection` -/
  | onAccept (c : C)
  | unlockServer
  /-- out of the loop of `handle_read`, to drop the guard of the acceptor -/
  | unlockAcceptor
  deriving DecidableEq, Repr

/-- `acceptJob` tells that `acceptor_job` is the one that `start_internal` sets. `lost` are the connections
that went to the default job, `served` those that went to `on_accept_connection`. -/
structure Starting (C : Type u) where
  acceptJob : Bool
  starter : StartInternal
  serving : Serving C
  listener : Listener C
  lost : List C
  served : List C
  deriving DecidableEq, Repr

inductive StartingOp (C : Type u)
  /-- the next step of `start_internal` -/
  | starter
  | arrive (c : C)
  /-- `epoll_wait`, which the loop thread calls outside the job only -/
  | report
  | lapse
  /-- `io_process` calls the job for the next event -/
  | event
  /-- the next step of that call, with what `accept` answers -/
  | serve (answer : AcceptAnswer C)
  deriving DecidableEq, Repr

namespace StartInternal

/-- A guard of the server is alive. -/
def hasServer : StartInternal → Bool
  | cloned | lockAcceptor _ | call _ | unlockAcceptor _ | unlockServer _ => true
  | _ => false

/-- A guard of the acceptor is alive. -/
def hasAcceptor : StartInternal → Bool
  | call _ | unlockAcceptor _ => true
  | _ => false

/-- `bind` has been called. -/
def bound : StartInternal → Bool
  | clone | cloned | lockServer .bind | lockAcceptor .bind | call .bind => false
  | _ => true

/-- `set_accept_job` has been called. -/
def jobSet : StartInternal → Bool
  | unlockAcceptor .setAcceptJob | unlockServer .setAcceptJob | returned => true
  | _ => false

/-- What follows a statement. -/
def after : LockedCall → StartInternal
  | .bind => lockServer .setAcceptJob
  | .setAcceptJob => returned

end StartInternal

namespace Serving

def hasServer : Serving C → Bool
  | onAccept _ | unlockServer => true
  | _ => false

def hasAcceptor : Serving C → Bool
  | outside | lockAcceptor => false
  | _ => true

/-- It is in `acceptor_job`. -/
def inJob : Serving C → Bool
  | lockServer _ | onAccept _ | unlockServer => true
  | _ => false

/-- The answers of this call do not end it yet. -/
def reading : Serving C → Bool
  | outside | unlockAcceptor => false
  | _ => true

/-- The connection `acceptor_job` has been called with and has not passed on. -/
def inHand : Serving C → List C
  | lockServer c | onAccept c => [c]
  | _ => []

end Serving

namespace Starting

def new : Starting C := ⟨false, .clone, .outside, .new, [], []⟩

/-- The next step of `start_internal`. A mutex can be locked while the loop thread has no guard of it. -/
def start [DecidableEq C] (s : Starting C) : Option (Starting C) :=
  match s.starter with
  | .clone => if s.serving.hasServer then none else some { s with starter := .cloned }
  | .cloned => some { s with starter := .lockServer .bind }
  | .lockServer call => if s.serving.hasServer then none else some { s with starter := .lockAcceptor call }
  | .lockAcceptor call => if s.serving.hasAcceptor then none else some { s with starter := .call call }
  | .call .bind =>
    (listenerStep s.listener .bind).map fun l =>
      { s with listener := l, starter := .unlockAcceptor .bind }
  | .call .setAcceptJob => some { s with acceptJob := true, starter := .unlockAcceptor .setAcceptJob }
  | .unlockAcceptor call => some { s with starter := .unlockServer call }
  | .unlockServer call => some { s with starter := .after call }
  | .returned => none

/-- `accept` has answered: `listener` after it. -/
def answered [DecidableEq C] (l : Listener C) (answer : AcceptAnswer C) : Option (Listener C) :=
  (backlogAfter l.backlog answer).map fun backlog => { l with
    backlog := backlog
    taken := l.taken ++ answer.took
    jobCalls := l.jobCalls ++ handedOn answer.took
    failed := answer.ends && decide (answer ≠ .wouldBlock) }

/-- The next step of the job of the acceptor. -/
def serve [DecidableEq C] (s : Starting C) (answer : AcceptAnswer C) : Option (Starting C) :=
  match s.serving with
  | .outside => none
  | .lockAcceptor => if s.starter.hasAcceptor then none else some { s with serving := .accept }
  | .accept =>
    (answered s.listener answer).map fun l =>
      match TcpListener.accept answer with
      | .ok c =>
        if s.acceptJob then { s with listener := l, serving := .lockServer c }
        else { s with listener := l, lost := s.lost ++ [c] }
      | .error .interrupted => { s with listener := l }
      | .error .wouldBlock | .error .other => { s with listener := l, serving := .unlockAcceptor }
  | .lockServer c => if s.starter.hasServer then none else some { s with serving := .onAccept c }
  | .onAccept c => some { s with served := s.served ++ [c], serving := .unlockServer }
  | .unlockServer => some { s with serving := .accept }
  | .unlockAcceptor => some { s with serving := .outside }

end Starting

/-- Connections arrive at any moment. -/
def startingStep [DecidableEq C] (s : Starting C) : StartingOp C → Option (Starting C)
  | .starter => s.start
  | .arrive c => (listenerStep s.listener (.arrive c)).map fun l => { s with listener := l }
  | .report =>
    if s.serving = .outside then (listenerStep s.listener .report).map fun l => { s with listener := l }
    else none
  | .lapse =>
    if s.serving = .outside then (listenerStep s.listener .lapse).map fun l => { s with listener := l }
    else none
  | .event =>
    match s.serving, s.listener.edge.reported with
    | .outside, _ :: rest => some { s with
        listener := { s.listener with edge := { s.listener.edge with reported := rest } }
        serving := .lockAcceptor }
    | _, _ => none
  | .serve answer => s.serve answer

/-! ## One `handle_read`, step by step -/

section Reading
variable [DecidableEq C] {l l' l'' : Listener C} {answers : List (List C × AcceptAnswer C)}
  {arrivals : List C} {answer : AcceptAnswer C}

/-- The loop that began in `l` has had `answers`, and `arrivals` since the last of them. -/
structure Reading (l : Listener C) (answers : List (List C × AcceptAnswer C)) (arrivals : List C)
    (l' : Listener C) : Prop where
  event : ∃ e, l.edge.reported = e :: l'.edge.reported
  raised : l'.edge.raised =
    (l.edge.raised || (answers.any fun a => !a.1.isEmpty) || !arrivals.isEmpty)
  backlog : ∃ backlog, serveAll l.backlog answers = some backlog ∧ l'.backlog = backlog ++ arrivals
  goesOn : ∀ a ∈ answers, a.2.ends = false
  jobCalls : l'.jobCalls = l.jobCalls ++ handedOn (answers.flatMap fun a => a.2.took)
  arrived : l'.arrived = l.arrived ++ answers.flatMap Prod.fst ++ arrivals
  taken : l'.taken = l.taken ++ answers.flatMap fun a => a.2.took
  isListening : l'.isListening = l.isListening

theorem Reading.begin {e : Unit} {rest : List Unit} (h : l.edge.reported = e :: rest) :
    Reading l [] [] { l with edge := { l.edge with reported := rest } } where
  event := ⟨e, h⟩
  raised := by simp
  backlog := ⟨l.backlog, rfl, (List.append_nil _).symm⟩
  goesOn a ha := by cases ha
  jobCalls := (List.append_nil _).symm
  arrived := by simp
  taken := (List.append_nil _).symm
  isListening := rfl

theorem Reading.arrive (h : Reading l answers arrivals l') {c : C}
    (hl : listenerStep l' (.arrive c) = some l'') : Reading l answers (arrivals ++ [c]) l'' := by
  obtain rfl := Option.some.inj hl
  obtain ⟨backlog, hserve, hbacklog⟩ := h.backlog
  refine ⟨h.event, ?_, ⟨backlog, hserve, ?_⟩, h.goesOn, h.jobCalls, ?_, h.taken, h.isListening⟩
  · simp [Edge.raise]
  · show l'.backlog ++ [c] = _
    rw [hbacklog, List.append_assoc]
  · show l'.arrived ++ [c] = _
    rw [h.arrived, List.append_assoc]

omit [DecidableEq C] in
theorem foldl_concat (backlog arrivals : List C) :
    arrivals.foldl (fun backlog c => backlog ++ [c]) backlog = backlog ++ arrivals := by
  induction arrivals generalizing backlog with
  | nil => exact (List.append_nil _).symm
  | cons c arrivals ih => rw [List.foldl_cons, ih, List.append_assoc, List.singleton_append]

/-- The answers so far and one more leave the backlog that `answered` does. -/
theorem Reading.served (h : Reading l answers arrivals l') {backlog : List C}
    (hanswer : backlogAfter l'.backlog answer = some backlog) :
    serveAll l.backlog (answers ++ [(arrivals, answer)]) = some backlog := by
  obtain ⟨before, hserve, hbacklog⟩ := h.backlog
  have hgo := serve_append hserve [(arrivals, answer)]
  unfold serveAll
  rw [hgo, EdgeTriggered.serve, foldl_concat, ← hbacklog, hanswer]
  rfl

theorem Reading.goOn (h : Reading l answers arrivals l') (hl : Starting.answered l' answer = some l'')
    (hends : answer.ends = false) : Reading l (answers ++ [(arrivals, answer)]) [] l'' := by
  obtain ⟨backlog, hbacklog, rfl⟩ := Option.map_eq_some_iff.mp hl
  refine ⟨h.event, ?_, ⟨backlog, h.served hbacklog, (List.append_nil _).symm⟩, fun a ha => ?_, ?_, ?_,
    ?_, h.isListening⟩
  · show l'.edge.raised = _
    rw [h.raised, List.any_append]
    simp [Bool.or_assoc]
  · rcases List.mem_append.mp ha with ha | ha
    · exact h.goesOn a ha
    · obtain rfl := List.mem_singleton.mp ha
      exact hends
  · show l'.jobCalls ++ _ = _
    rw [h.jobCalls, List.flatMap_append, handedOn_append, List.append_assoc, List.flatMap_singleton]
  · show l'.arrived = _
    rw [h.arrived, List.flatMap_append, List.flatMap_singleton, List.append_nil, List.append_assoc]
  · show l'.taken ++ _ = _
    rw [h.taken, List.flatMap_append, List.append_assoc, List.flatMap_singleton]

omit [DecidableEq C] in
theorem handleRead_append {calls : List C} {before after : List (AcceptAnswer C)}
    (hgoes : ∀ answer ∈ before, answer.ends = false) :
    Acceptor.handleRead calls (before ++ after) =
      Acceptor.handleRead (calls ++ handedOn (before.flatMap AcceptAnswer.took)) after := by
  induction before generalizing calls with
  | nil => exact congrArg (Acceptor.handleRead · after) (List.append_nil calls).symm
  | cons answer before ih =>
    have hrest := fun calls => @ih calls fun a ha => hgoes a (List.mem_cons_of_mem _ ha)
    have hends := hgoes answer List.mem_cons_self
    rw [List.flatMap_cons, handedOn_append, ← List.append_assoc, ← hrest]
    cases answer with
    | ok c nonblocking =>
      cases nonblocking with
      | true => rfl
      | false => cases hends
    | interrupted => exact congrArg (Acceptor.handleRead · _) (List.append_nil calls).symm
    | wouldBlock | err => cases hends

omit [DecidableEq C] in
theorem handedOn_ends (hends : answer.ends = true) : handedOn answer.took = [] := by
  cases answer with
  | ok c nonblocking =>
    cases nonblocking with
    | true => cases hends
    | false => rfl
  | interrupted => cases hends
  | wouldBlock | err => rfl

omit [DecidableEq C] in
theorem handleRead_ends {calls : List C} (hends : answer.ends = true) :
    Acceptor.handleRead calls [answer] = some calls := by
  cases answer with
  | ok c nonblocking =>
    cases nonblocking with
    | true => cases hends
    | false => rfl
  | interrupted => cases hends
  | wouldBlock | err => rfl

/-- The answer that ends the loop makes it one step of the listener. -/
theorem Reading.finish (h : Reading l answers arrivals l') (hl : Starting.answered l' answer = some l'')
    (hends : answer.ends = true) :
    listenerStep l (.handleRead (answers ++ [(arrivals, answer)])) = some l'' := by
  obtain ⟨backlog, hbacklog, rfl⟩ := Option.map_eq_some_iff.mp hl
  obtain ⟨e, hevent⟩ := h.event
  have hgoes : ∀ a ∈ answers.map Prod.snd, a.ends = false := by
    intro a ha
    obtain ⟨pair, hpair, rfl⟩ := List.mem_map.mp ha
    exact h.goesOn pair hpair
  have hmap : (answers ++ [(arrivals, answer)]).map Prod.snd = answers.map Prod.snd ++ [answer] :=
    List.map_append
  have hloop : EndsAtLast AcceptAnswer.ends ((answers ++ [(arrivals, answer)]).map Prod.snd) = true := by
    rw [hmap]
    exact endsAtLast_concat hgoes hends
  have hcalls : Acceptor.handleRead l.jobCalls ((answers ++ [(arrivals, answer)]).map Prod.snd) =
      some l'.jobCalls := by
    rw [hmap, handleRead_append hgoes, handleRead_ends hends, h.jobCalls, List.flatMap_map]
  have hgave : gaveUp ((answers ++ [(arrivals, answer)]).map Prod.snd) =
      (answer.ends && decide (answer ≠ .wouldBlock)) := by
    unfold gaveUp
    rw [hmap, List.getLast?_concat, hends, Bool.true_and]
    exact decide_eq_decide.mpr (not_congr (Option.some_inj))
  have hedge : (⟨l.edge.raised || (answers ++ [(arrivals, answer)]).any fun a => !a.1.isEmpty,
      l'.edge.reported⟩ : Edge Unit) = l'.edge := by
    rw [List.any_append, ← Bool.or_assoc]
    show (⟨_ || (!arrivals.isEmpty || false), _⟩ : Edge Unit) = _
    rw [Bool.or_false, ← h.raised]
  have harrived : l.arrived ++ (answers ++ [(arrivals, answer)]).flatMap Prod.fst = l'.arrived := by
    rw [h.arrived, List.flatMap_append, List.flatMap_singleton, List.append_assoc]
  have htaken : (l.taken ++ (answers ++ [(arrivals, answer)]).flatMap fun a => a.2.took) =
      l'.taken ++ answer.took := by
    rw [h.taken, List.flatMap_append, List.flatMap_singleton, List.append_assoc]
  simp only [listenerStep, hevent, hloop, if_true, h.served hbacklog, Option.bind_some, hcalls,
    Option.map_some, hgave, hedge, harrived, htaken, handedOn_ends hends, List.append_nil,
    h.isListening]

end Reading

/-! ## One step -/

section Step
variable [DecidableEq C] {s s' : Starting C} {l l' : Listener C} {v v' : Serving C}

/-- The listener of the two threads is the one of the atomic loops, or in the middle of one. -/
inductive Tracks (l : Listener C) (v : Serving C) (l' : Listener C) : Prop
  | outside (hreading : v.reading = false) (h : l = l')
  | reading {answers : List (List C × AcceptAnswer C)} {arrivals : List C} (hreading : v.reading = true)
      (h : Reading l answers arrivals l')

structure Starting.Ok (s : Starting C) : Prop where
  jobSet : s.acceptJob = s.starter.jobSet
  bound : s.listener.isListening = s.starter.bound
  idle : s.listener.isListening = false → s.serving = .outside ∧ s.listener.edge.reported = []
  apart : s.starter.hasAcceptor = true → s.serving.hasAcceptor = false
  inJob : s.serving.inJob = true → s.acceptJob = true
  counted : s.listener.jobCalls = s.lost ++ s.served ++ s.serving.inHand
  early : s.acceptJob = false → s.served = []
  follows : ∃ l, Reachable listenerStep (· = Listener.new) l ∧ Tracks l s.serving s.listener

theorem Starting.Ok.isListening (h : s.Ok) (hserving : s.serving ≠ .outside) :
    s.listener.isListening = true := by
  by_contra hlistening
  exact hserving (h.idle (Bool.eq_false_iff.mpr hlistening)).1

/-- What a step of `start_internal` does: it moves on, having locked a mutex or dropped a guard, or one of
its two calls takes place. -/
theorem start_cases (hs : s.start = some s') :
    (∃ q : StartInternal, q.jobSet = s.starter.jobSet ∧ q.bound = s.starter.bound ∧
      (q.hasAcceptor = true → s.serving.hasAcceptor = false ∨ s.starter.hasAcceptor = true) ∧
      s' = { s with starter := q }) ∨
    (s.starter = .call .bind ∧ ∃ l, listenerStep s.listener .bind = some l ∧
      s' = { s with listener := l, starter := .unlockAcceptor .bind }) ∨
    (s.starter = .call .setAcceptJob ∧
      s' = { s with acceptJob := true, starter := .unlockAcceptor .setAcceptJob }) := by
  unfold Starting.start at hs
  cases hpc : s.starter with
  | clone =>
    simp only [hpc, Option.ite_none_left_eq_some] at hs
    exact .inl ⟨.cloned, rfl, rfl, fun hhas => (by cases hhas), (Option.some.inj hs.2).symm⟩
  | cloned =>
    simp only [hpc] at hs
    exact .inl ⟨.lockServer .bind, rfl, rfl, fun hhas => (by cases hhas), (Option.some.inj hs).symm⟩
  | lockServer call =>
    simp only [hpc, Option.ite_none_left_eq_some] at hs
    refine .inl ⟨.lockAcceptor call, ?_, ?_, fun hhas => (by cases hhas), (Option.some.inj hs.2).symm⟩
    all_goals cases call <;> rfl
  | lockAcceptor call =>
    simp only [hpc, Option.ite_none_left_eq_some] at hs
    refine .inl ⟨.call call, ?_, ?_, fun _ => .inl (Bool.eq_false_iff.mpr hs.1),
      (Option.some.inj hs.2).symm⟩
    all_goals cases call <;> rfl
  | call call =>
    cases call with
    | bind =>
      simp only [hpc] at hs
      obtain ⟨l, hl, hs⟩ := Option.map_eq_some_iff.mp hs
      exact .inr (.inl ⟨rfl, l, hl, hs.symm⟩)
    | setAcceptJob =>
      simp only [hpc] at hs
      exact .inr (.inr ⟨rfl, (Option.some.inj hs).symm⟩)
  | unlockAcceptor call =>
    simp only [hpc] at hs
    refine .inl ⟨.unlockServer call, ?_, ?_, fun hhas => (by cases hhas), (Option.some.inj hs).symm⟩
    all_goals cases call <;> rfl
  | unlockServer call =>
    simp only [hpc] at hs
    refine .inl ⟨.after call, ?_, ?_, fun hhas => ?_, (Option.some.inj hs).symm⟩
    · cases call <;> rfl
    · cases call <;> rfl
    · cases call <;> cases hhas
  | returned =>
    simp only [hpc] at hs
    cases hs

theorem Starting.Ok.starter (h : s.Ok) (hs : s.start = some s') : s'.Ok := by
  rcases start_cases hs with ⟨q, hset, hbound, hhas, rfl⟩ | ⟨hpc, l, hl, rfl⟩ | ⟨hpc, rfl⟩
  · refine ⟨h.jobSet.trans hset.symm, h.bound.trans hbound.symm, h.idle, fun hq => ?_, h.inJob,
      h.counted, h.early, h.follows⟩
    exact (hhas hq).elim id h.apart
  · -- nobody has been told of the listener before it is bound
    have hlistening : s.listener.isListening = false := by rw [h.bound, hpc]; rfl
    obtain ⟨houtside, -⟩ := h.idle hlistening
    have hjobs : s.acceptJob = false := by rw [h.jobSet, hpc]; rfl
    obtain ⟨l₀, hl₀, hfollows⟩ := h.follows
    have hnext := hl
    obtain rfl := Option.some.inj hl
    refine ⟨hjobs, rfl, fun hnot => (by cases hnot), fun _ => (by rw [houtside]; rfl), h.inJob,
      h.counted, h.early, ?_⟩
    cases hfollows with
    | outside hreading heq =>
      subst heq
      exact ⟨_, hl₀.next .bind hnext, .outside hreading rfl⟩
    | reading hreading =>
      rw [houtside] at hreading
      cases hreading
  · refine ⟨rfl, ?_, h.idle, fun _ => h.apart (by rw [hpc]; rfl), fun _ => rfl, h.counted,
      fun hnot => (by cases hnot), h.follows⟩
    rw [h.bound, hpc]
    rfl

/-- The listener alone moves: a connection arrives, or the loop thread polls outside the job. -/
theorem Starting.Ok.listener (h : s.Ok) (hjobs : l.jobCalls = s.listener.jobCalls)
    (hlistening : l.isListening = s.listener.isListening)
    (hreported : s.listener.isListening = false → l.edge.reported = s.listener.edge.reported)
    (hfollows : ∀ l₀, Reachable listenerStep (· = Listener.new) l₀ → Tracks l₀ s.serving s.listener →
      ∃ l₁, Reachable listenerStep (· = Listener.new) l₁ ∧ Tracks l₁ s.serving l) :
    Starting.Ok { s with listener := l } := by
  refine ⟨h.jobSet, hlistening.trans h.bound, fun hnot => ?_, h.apart, h.inJob, hjobs.trans h.counted,
    h.early, ?_⟩
  · have hnot : s.listener.isListening = false := hlistening.symm.trans hnot
    exact ⟨(h.idle hnot).1, (hreported hnot).trans (h.idle hnot).2⟩
  · obtain ⟨l₀, hl₀, hl⟩ := h.follows
    exact hfollows l₀ hl₀ hl

theorem Starting.Ok.arrive (h : s.Ok) {c : C} (hl : listenerStep s.listener (.arrive c) = some l) :
    Starting.Ok { s with listener := l } := by
  have hstep := hl
  obtain rfl := Option.some.inj hl
  refine h.listener rfl rfl (fun _ => rfl) fun l₀ hl₀ hfollows => ?_
  cases hfollows with
  | outside hreading heq =>
    subst heq
    exact ⟨_, hl₀.next (.arrive c) hstep, .outside hreading rfl⟩
  | reading hreading hloop => exact ⟨l₀, hl₀, .reading hreading (hloop.arrive hstep)⟩

theorem Tracks.step {op : ListenerOp C} (hv : v.reading = false) (hl : listenerStep l op = some l')
    (l₀ : Listener C) (hl₀ : Reachable listenerStep (· = Listener.new) l₀) (hfollows : Tracks l₀ v l) :
    ∃ l₁, Reachable listenerStep (· = Listener.new) l₁ ∧ Tracks l₁ v l' := by
  cases hfollows with
  | outside _ heq =>
    subst heq
    exact ⟨l', hl₀.next op hl, .outside hv rfl⟩
  | reading hreading =>
    rw [hv] at hreading
    cases hreading

theorem Starting.Ok.report (h : s.Ok) (hv : s.serving = .outside)
    (hl : listenerStep s.listener .report = some l) : Starting.Ok { s with listener := l } := by
  have hv' : s.serving.reading = false := by rw [hv]; rfl
  have hfollows := Tracks.step hv' hl
  simp only [listenerStep, Option.ite_none_right_eq_some] at hl
  obtain ⟨⟨hlistening, -⟩, hl⟩ := hl
  obtain rfl := Option.some.inj hl
  refine h.listener rfl rfl (fun hnot => ?_) hfollows
  rw [hlistening] at hnot
  cases hnot

theorem Starting.Ok.lapse (h : s.Ok) (hv : s.serving = .outside)
    (hl : listenerStep s.listener .lapse = some l) : Starting.Ok { s with listener := l } := by
  have hv' : s.serving.reading = false := by rw [hv]; rfl
  have hfollows := Tracks.step hv' hl
  simp only [listenerStep, Option.ite_none_right_eq_some] at hl
  obtain rfl := Option.some.inj hl.2
  exact h.listener rfl rfl (fun _ => rfl) hfollows

theorem Starting.Ok.event (h : s.Ok) (hv : s.serving = .outside) {e : Unit} {rest : List Unit}
    (hreported : s.listener.edge.reported = e :: rest) :
    Starting.Ok { s with
      listener := { s.listener with edge := { s.listener.edge with reported := rest } }
      serving := .lockAcceptor } := by
  refine ⟨h.jobSet, h.bound, fun hnot => ?_, fun _ => rfl, fun hin => (by cases hin), ?_, h.early, ?_⟩
  · have hnone := (h.idle hnot).2
    rw [hreported] at hnone
    cases hnone
  · have hcounted := h.counted
    rw [hv] at hcounted
    exact hcounted
  · obtain ⟨l₀, hl₀, hfollows⟩ := h.follows
    cases hfollows with
    | outside _ heq =>
      subst heq
      exact ⟨_, hl₀, .reading rfl (.begin hreported)⟩
    | reading hreading =>
      rw [hv] at hreading
      cases hreading

theorem Starting.Ok.moves (h : s.Ok) {served : List C} (hv : s.serving ≠ .outside)
    (hcounted : s.lost ++ s.served ++ s.serving.inHand = s.lost ++ served ++ v.inHand)
    (hreading : v.reading = s.serving.reading)
    (hapart : s.starter.hasAcceptor = true → v.hasAcceptor = false)
    (hinJob : v.inJob = true → s.acceptJob = true) (hearly : s.acceptJob = false → served = []) :
    Starting.Ok { s with serving := v, served := served } := by
  refine ⟨h.jobSet, h.bound, fun hnot => ?_, hapart, hinJob, h.counted.trans hcounted, hearly, ?_⟩
  · exact absurd ((h.isListening hv).symm.trans hnot) (by decide)
  · obtain ⟨l₀, hl₀, hfollows⟩ := h.follows
    cases hfollows with
    | outside hr heq => exact ⟨l₀, hl₀, .outside (hreading.trans hr) heq⟩
    | reading hr hloop => exact ⟨l₀, hl₀, .reading (hreading.trans hr) hloop⟩

theorem Starting.Ok.accepted (h : s.Ok) {answer : AcceptAnswer C} {lost : List C}
    (hv : s.serving = .accept) (hl : Starting.answered s.listener answer = some l)
    (hreading : v.reading = !answer.ends) (hinJob : v.inJob = true → s.acceptJob = true)
    (hcounted : s.lost ++ s.served ++ handedOn answer.took = lost ++ s.served ++ v.inHand) :
    Starting.Ok { s with listener := l, serving := v, lost := lost } := by
  have hlistening := h.isListening fun he => by cases hv.symm.trans he
  have hfree : s.starter.hasAcceptor = false := by
    rw [← Bool.not_eq_true]
    intro hhas
    have hapart := h.apart hhas
    rw [hv] at hapart
    cases hapart
  obtain ⟨l₀, hl₀, hfollows⟩ := h.follows
  have hfields : l.isListening = s.listener.isListening ∧
      l.jobCalls = s.listener.jobCalls ++ handedOn answer.took := by
    obtain ⟨backlog, -, rfl⟩ := Option.map_eq_some_iff.mp hl
    exact ⟨rfl, rfl⟩
  refine ⟨h.jobSet, hfields.1.trans h.bound, fun hnot => ?_, fun hhas => ?_, hinJob, ?_, h.early, ?_⟩
  · exact absurd (hlistening.symm.trans (hfields.1.symm.trans hnot)) (by decide)
  · exact absurd (hfree.symm.trans hhas) (by decide)
  · have hbefore := h.counted
    rw [hv] at hbefore
    show l.jobCalls = _
    rw [hfields.2, hbefore, ← hcounted]
    exact congrArg (· ++ _) (List.append_nil _)
  · cases hfollows with
    | outside hr =>
      rw [hv] at hr
      cases hr
    | reading _ hloop =>
      cases hends : answer.ends with
      | true =>
        rw [hends] at hreading
        exact ⟨l, hl₀.next _ (hloop.finish hl hends), .outside hreading rfl⟩
      | false =>
        rw [hends] at hreading
        exact ⟨l₀, hl₀, .reading hreading (hloop.goOn hl hends)⟩

/-- What a step of the job does: it moves on with the listener as it was, or `accept` has answered. -/
theorem serve_cases {answer : AcceptAnswer C} (hs : s.serve answer = some s') :
    (∃ (v : Serving C) (served : List C), s.serving ≠ .outside ∧ s.serving ≠ .accept ∧
      s.served ++ s.serving.inHand = served ++ v.inHand ∧ v.reading = s.serving.reading ∧
      (v.hasAcceptor = true → s.serving.hasAcceptor = true ∨ s.starter.hasAcceptor = false) ∧
      (v.inJob = true → s.serving.inJob = true) ∧ (s.serving.inJob = true ∨ served = s.served) ∧
      s' = { s with serving := v, served := served }) ∨
    s.serving = .accept ∧ ∃ (l : Listener C) (v : Serving C) (lost : List C),
      Starting.answered s.listener answer = some l ∧ v.reading = !answer.ends ∧
      (s.acceptJob = true ∧ lost = s.lost ∧ v.inHand = handedOn answer.took ∨
        v.inJob = false ∧ v.inHand = [] ∧ lost = s.lost ++ handedOn answer.took ∧
          (s.acceptJob = true → handedOn answer.took = [])) ∧
      s' = { s with listener := l, serving := v, lost := lost } := by
  unfold Starting.serve at hs
  cases hv : s.serving with
  | outside => simp [hv] at hs
  | lockAcceptor =>
    simp only [hv, Option.ite_none_left_eq_some, Bool.not_eq_true] at hs
    exact .inl ⟨.accept, s.served, (fun he => by cases he), (fun he => by cases he), rfl, rfl,
      fun _ => .inr hs.1, id, .inr rfl, (Option.some.inj hs.2).symm⟩
  | lockServer c =>
    simp only [hv, Option.ite_none_left_eq_some] at hs
    exact .inl ⟨.onAccept c, s.served, (fun he => by cases he), (fun he => by cases he), rfl, rfl,
      fun _ => .inl rfl, fun _ => rfl, .inr rfl, (Option.some.inj hs.2).symm⟩
  | onAccept c =>
    simp only [hv] at hs
    exact .inl ⟨.unlockServer, s.served ++ [c], (fun he => by cases he), (fun he => by cases he),
      (List.append_nil _).symm, rfl, fun _ => .inl rfl, fun _ => rfl, .inl rfl, (Option.some.inj hs).symm⟩
  | unlockServer =>
    simp only [hv] at hs
    exact .inl ⟨.accept, s.served, (fun he => by cases he), (fun he => by cases he), rfl, rfl,
      fun _ => .inl rfl, fun _ => rfl, .inr rfl, (Option.some.inj hs).symm⟩
  | unlockAcceptor =>
    simp only [hv] at hs
    exact .inl ⟨.outside, s.served, (fun he => by cases he), (fun he => by cases he), rfl, rfl,
      (fun hhas => by cases hhas), id, .inr rfl, (Option.some.inj hs).symm⟩
  | accept =>
    simp only [hv] at hs
    obtain ⟨l, hl, hs⟩ := Option.map_eq_some_iff.mp hs
    refine .inr ⟨rfl, l, ?_⟩
    cases answer with
    | ok c nonblocking =>
      cases nonblocking with
      | true =>
        simp only [TcpListener.accept, if_true] at hs
        cases hjob : s.acceptJob with
        | true =>
          rw [hjob, if_pos rfl] at hs
          exact ⟨.lockServer c, s.lost, hl, rfl, .inl ⟨rfl, rfl, rfl⟩, hs.symm⟩
        | false =>
          rw [hjob, if_neg Bool.false_ne_true] at hs
          exact ⟨.accept, s.lost ++ [c], hl, rfl, .inr ⟨rfl, rfl, rfl, fun hnot => by cases hnot⟩,
            hs.symm⟩
      | false =>
        simp only [TcpListener.accept, Bool.false_eq_true, if_false] at hs
        exact ⟨.unlockAcceptor, s.lost, hl, rfl, .inr ⟨rfl, rfl, (List.append_nil _).symm, fun _ => rfl⟩,
          hs.symm⟩
    | interrupted =>
      exact ⟨.accept, s.lost, hl, rfl, .inr ⟨rfl, rfl, (List.append_nil _).symm, fun _ => rfl⟩, hs.symm⟩
    | wouldBlock | err =>
      exact ⟨.unlockAcceptor, s.lost, hl, rfl, .inr ⟨rfl, rfl, (List.append_nil _).symm, fun _ => rfl⟩,
        hs.symm⟩

theorem Starting.Ok.serve (h : s.Ok) {answer : AcceptAnswer C} (hs : s.serve answer = some s') :
    s'.Ok := by
  rcases serve_cases hs with ⟨v, served, hv, -, hcounted, hreading, hhas, hin, hserved, rfl⟩ |
    ⟨hv, l, v, lost, hl, hreading, hhanded, rfl⟩
  · refine h.moves hv ?_ hreading (fun hstarter => ?_) (fun hv' => h.inJob (hin hv')) fun hnot => ?_
    · rw [List.append_assoc, hcounted, List.append_assoc]
    · rw [← Bool.not_eq_true]
      intro hv'
      rcases hhas hv' with hserving | hfree
      · exact absurd ((h.apart hstarter).symm.trans hserving) (by decide)
      · exact absurd (hfree.symm.trans hstarter) (by decide)
    · rcases hserved with hjob | rfl
      · exact absurd (hnot.symm.trans (h.inJob hjob)) (by decide)
      · exact h.early hnot
  · rcases hhanded with ⟨hjob, rfl, hhand⟩ | ⟨hin, hhand, rfl, hnone⟩
    · exact h.accepted hv hl hreading (fun _ => hjob) (by rw [hhand])
    · refine h.accepted hv hl hreading (fun hv' => by rw [hin] at hv'; cases hv') ?_
      rw [hhand]
      cases hjob : s.acceptJob with
      | true => rw [hnone hjob, List.append_nil, List.append_nil, List.append_nil]
      | false =>
        -- the default job drops it, and nothing has been served before
        rw [h.early hjob, List.append_nil, List.append_nil, List.append_nil]

theorem startingStep_ok {op : StartingOp C} (h : s.Ok) (hs : startingStep s op = some s') : s'.Ok := by
  cases op with
  | starter => exact h.starter hs
  | arrive c =>
    simp only [startingStep] at hs
    obtain ⟨l, hl, rfl⟩ := Option.map_eq_some_iff.mp hs
    exact h.arrive hl
  | report =>
    simp only [startingStep, Option.ite_none_right_eq_some] at hs
    obtain ⟨hv, hs⟩ := hs
    obtain ⟨l, hl, rfl⟩ := Option.map_eq_some_iff.mp hs
    exact h.report hv hl
  | lapse =>
    simp only [startingStep, Option.ite_none_right_eq_some] at hs
    obtain ⟨hv, hs⟩ := hs
    obtain ⟨l, hl, rfl⟩ := Option.map_eq_some_iff.mp hs
    exact h.lapse hv hl
  | event =>
    simp only [startingStep] at hs
    split at hs
    · rename_i hv hreported
      obtain rfl := Option.some.inj hs
      exact h.event hv hreported
    · cases hs
  | serve answer => exact h.serve hs

/-- Once set, the job stays set, and what has been lost is all that is. -/
theorem startingStep_lost {op : StartingOp C} (hjob : s.acceptJob = true)
    (hs : startingStep s op = some s') : s'.acceptJob = true ∧ s'.lost = s.lost := by
  cases op with
  | starter =>
    rcases start_cases hs with ⟨q, -, -, -, rfl⟩ | ⟨-, l, -, rfl⟩ | ⟨-, rfl⟩
    · exact ⟨hjob, rfl⟩
    · exact ⟨hjob, rfl⟩
    · exact ⟨rfl, rfl⟩
  | arrive c =>
    simp only [startingStep] at hs
    obtain ⟨l, -, rfl⟩ := Option.map_eq_some_iff.mp hs
    exact ⟨hjob, rfl⟩
  | report | lapse =>
    simp only [startingStep, Option.ite_none_right_eq_some] at hs
    obtain ⟨l, -, rfl⟩ := Option.map_eq_some_iff.mp hs.2
    exact ⟨hjob, rfl⟩
  | event =>
    simp only [startingStep] at hs
    split at hs
    · obtain rfl := Option.some.inj hs
      exact ⟨hjob, rfl⟩
    · cases hs
  | serve answer =>
    rcases serve_cases hs with ⟨v, served, -, -, -, -, -, -, -, rfl⟩ | ⟨-, l, v, lost, -, -, hhanded, rfl⟩
    · exact ⟨hjob, rfl⟩
    · refine ⟨hjob, ?_⟩
      rcases hhanded with ⟨-, rfl, -⟩ | ⟨-, -, rfl, hnone⟩
      · rfl
      · show s.lost ++ _ = s.lost
        rw [hnone hjob, List.append_nil]

/-- While the loop is in `handle_read`, `start_internal` does not get to replace `acceptor_job`. -/
theorem Starting.Ok.acceptJob_kept (h : s.Ok) (hheld : s.serving.hasAcceptor = true)
    (hs : s.start = some s') : s'.acceptJob = s.acceptJob := by
  rcases start_cases hs with ⟨q, -, -, -, rfl⟩ | ⟨-, l, -, rfl⟩ | ⟨hpc, -⟩
  · rfl
  · rfl
  · exact absurd ((h.apart (by rw [hpc]; rfl)).symm.trans hheld) (by decide)

theorem reachable_starting (hs : Reachable startingStep (· = Starting.new) s) : s.Ok := by
  refine hs.invariant (fun s hinit => ?_) fun _ _ _ h hstep => startingStep_ok h hstep
  subst hinit
  exact ⟨rfl, rfl, fun _ => ⟨rfl, rfl⟩, (fun hhas => by cases hhas), (fun hin => by cases hin), rfl,
    fun _ => rfl, _, .start rfl, .outside rfl rfl⟩

theorem run_lost {ops : List (StartingOp C)} (hjob : s.acceptJob = true)
    (hs : run startingStep s ops = some s') : s'.lost = s.lost := by
  refine (run_invariant (P := fun m => m.acceptJob = true ∧ m.lost = s.lost)
    (fun m op m' ⟨hjob, hlost⟩ hstep => ?_) ⟨hjob, rfl⟩ hs).2
  obtain ⟨hjob', hlost'⟩ := startingStep_lost hjob hstep
  exact ⟨hjob', hlost'.trans hlost⟩

end Step

/-! ## Nobody blocks for ever -/

section Returns
variable [DecidableEq C] {s s' : Starting C}

/-- How many steps `start_internal` has left. -/
def StartInternal.left : StartInternal → ℕ
  | clone => 12
  | cloned => 11
  | lockServer .bind => 10
  | lockAcceptor .bind => 9
  | call .bind => 8
  | unlockAcceptor .bind => 7
  | unlockServer .bind => 6
  | lockServer .setAcceptJob => 5
  | lockAcceptor .setAcceptJob => 4
  | call .setAcceptJob => 3
  | unlockAcceptor .setAcceptJob => 2
  | unlockServer .setAcceptJob => 1
  | returned => 0

/-- How many steps the job has left at most, with `n` connections in the backlog. -/
def Serving.left (n : ℕ) : Serving C → ℕ
  | outside => 0
  | unlockAcceptor => 1
  | accept => 4 * n + 2
  | lockAcceptor | unlockServer => 4 * n + 3
  | onAccept _ => 4 * n + 4
  | lockServer _ => 4 * n + 5

def Starting.left (s : Starting C) : ℕ :=
  s.starter.left + s.serving.left s.listener.backlog.length

end Returns

/-- **What is served.** In every interleaving of `start_internal`, the loop thread and arriving
connections: whenever no `handle_read` is under way, the listener is as after a run in which each
`handle_read` is one step; `acceptor_job` has been called with the connections that were lost, then with
those that were served, and the one in hand; none has been served before `set_accept_job`, and none is lost
after it; and `acceptor_job` is not replaced under a `handle_read`. -/
theorem start_internal_serves [DecidableEq C] (s : Starting C)
    (hs : Reachable startingStep (· = Starting.new) s) :
    (s.serving.reading = false → Reachable listenerStep (· = Listener.new) s.listener) ∧
      s.listener.jobCalls = s.lost ++ s.served ++ s.serving.inHand ∧
      (s.acceptJob = false → s.served = []) ∧
      (s.acceptJob = true → ∀ ops s', run startingStep s ops = some s' → s'.lost = s.lost) ∧
      (s.serving.hasAcceptor = true → ∀ s', startingStep s .starter = some s' →
        s'.acceptJob = s.acceptJob) := by
  have h : s.Ok := reachable_starting hs
  refine ⟨fun hreading => ?_, h.counted, h.early, fun hjob ops s' => run_lost hjob,
    fun hheld s' => h.acceptJob_kept hheld⟩
  obtain ⟨l, hl, hfollows⟩ := h.follows
  cases hfollows with
  | outside _ heq =>
    subst heq
    exact hl
  | reading hnot =>
    rw [hreading] at hnot
    cases hnot

/-- `start_internal` up to where it waits for the acceptor a second time: the loop is in `handle_read`, and
the first connection has gone to the default job. -/
def startOps : List (StartingOp ℕ) :=
  [.starter, .starter, .starter, .starter, .starter, .arrive 1, .report, .event, .starter,
    .serve .wouldBlock, .starter, .serve (.ok 1 true), .starter]

/-- The second connection is accepted when the job is set. -/
theorem start_internal_serves_two : ∃ s : Starting ℕ, s.lost = [1] ∧ s.served = [2] ∧
    s.listener.jobCalls = [1] ++ [2] ++ s.serving.inHand := by
  obtain ⟨s, hs, hview⟩ : ∃ s : Starting ℕ, run startingStep .new (startOps ++
      [.serve .wouldBlock, .serve .wouldBlock, .starter, .starter, .starter, .starter, .arrive 2, .report,
        .event, .serve .wouldBlock, .serve (.ok 2 true), .serve .wouldBlock, .serve .wouldBlock,
        .serve .wouldBlock, .serve .wouldBlock, .serve .wouldBlock]) = some s ∧
      (s.lost, s.served) = ([1], [2]) :=
    Option.map_eq_some_iff.mp (by decide +kernel)
  obtain ⟨hlost, hserved⟩ := Prod.mk.inj hview
  have hstart : Reachable startingStep (· = Starting.new) (Starting.new : Starting ℕ) := .start rfl
  have hjobs := (start_internal_serves s (hstart.run hs)).2.1
  rw [hlost, hserved] at hjobs
  exact ⟨s, hlost, hserved, hjobs⟩

end MyMio

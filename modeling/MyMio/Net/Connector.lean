import MyMio.Foundations.StepSystem
import MyMio.Timer.Represent

/-! # A connect attempt and its timeout

`Connector::connect` starts the attempt: it opens the stream, sets a timeout on the loop's timer, if one is
asked for, and registers the stream with `PollOpt::edge() | PollOpt::oneshot()`. The attempt ends in
`handle_event`, which clears the timeout and hands the stream to `on_conn_job`, or in the job of the
timeout, which deregisters the stream. Both unwrap what they find; `connect` itself unwraps the address,
the stream and the result of `register`.

Neither could stand the other having come first. What keeps them apart is the order of a batch of events:
`Poll::poll2` calls `select` before `ReadinessQueue::poll`, so the event of a stream always stands before
the event of the timer. Other code on the loop sets and cancels timeouts of its own; the handle that
`connect` leaves in the connector stays there after the attempt.

Each attempt ends at most once, without a panic but for those in `connect`, and until it does, an event of
the stream is on its way, and the timeout is pending (`attempt_ends_once`).
-/

namespace MyMio
set_option autoImplicit false

open StepSystem

universe u

/-! ## The connector -/

/-- The jobs of the timeouts on the loop's timer. -/
inductive TimeoutJob (T : Type u)
  /-- the one `Connector::connect` sets -/
  | connect
  | other (job : T)
  deriving DecidableEq, Repr

/-- The events of a batch, by the job they run; `timers` has the token type `TimersEvent`. -/
inductive Dispatched
  /-- the job that calls `Connector::handle_event` -/
  | connect (event : Usize)
  | timers
  | other
  deriving DecidableEq, Repr

def Dispatched.isConnect : Dispatched → Bool
  | .connect _ => true
  | _ => false

/-- How an attempt ends. -/
inductive Outcome
  /-- `on_conn_job` has been called -/
  | connected
  /-- the event was not writable, and nobody has been told -/
  | ignored
  | timedOut
  /-- `connect` has got no stream -/
  | unopened
  /-- the `register` in `connect` has failed -/
  | refused
  deriving DecidableEq, Repr

/-- What `TcpStream::connect(&(addr.parse().unwrap()))` comes to. -/
inductive Opened
  | stream
  /-- `addr` is no socket address -/
  | unparsed
  /-- no socket, or `connect` failed other than with `EINPROGRESS` -/
  | failed
  deriving DecidableEq, Repr

/-- A connector and its loop, which is the current one of the thread. `tcpStream` tells whether the field
holds a stream; `interest`, whether epoll has that stream on its list, and armed; `polling`, whether
`io_process` is in the loop on `timer.poll()`. Of the run so far: the attempts started and how they ended,
and whether the last one had a timeout. -/
structure Dialing (T : Type u) where
  wheel : Timer (TimeoutJob T)
  timer : Option Timeout
  tcpStream : Bool
  interest : Option Bool
  batch : List Dispatched
  polling : Bool
  panicked : Bool
  started : ℕ
  outcomes : List Outcome
  timed : Bool

namespace Dialing
variable {T : Type u}

def new (tickMs numSlots : ℕ) : Dialing T where
  wheel := .new tickMs numSlots
  timer := none
  tcpStream := false
  interest := none
  batch := []
  polling := false
  panicked := false
  started := 0
  outcomes := []
  timed := false

def finish (s : Dialing T) (o : Outcome) : Dialing T := { s with outcomes := s.outcomes ++ [o] }

/-- `connect` from its second line on. -/
def register (s : Dialing T) (timeout : Option (Duration × Duration × Token)) (refused : Bool) :
    Option (Dialing T) :=
  let s := { s with tcpStream := true, started := s.started + 1, timed := timeout.isSome }
  let set := match timeout with
    | none => some s
    | some (elapsed, delay, key) =>
      (s.wheel.setTimeout elapsed delay .connect key).map fun (wheel, timer) =>
        { s with wheel := wheel, timer := some timer }
  set.map fun s =>
    if refused then { s.finish .refused with panicked := true } else { s with interest := some true }

def connect (s : Dialing T) (opened : Opened) (timeout : Option (Duration × Duration × Token))
    (refused : Bool) : Option (Dialing T) :=
  match opened with
  | .stream => s.register timeout refused
  | .unparsed | .failed =>
    some { ({ s with started := s.started + 1 }).finish .unopened with panicked := true }

def handleOnConnect (s : Dialing T) : Dialing T :=
  if s.tcpStream then { s.finish .connected with tcpStream := false } else { s with panicked := true }

/-- `clear_timeout` on the handle in the connector, if there is one. -/
def clearOwn (s : Dialing T) : Option (Dialing T) :=
  match s.timer with
  | none => some s
  | some timeout => (s.wheel.cancelTimeout timeout).map fun (wheel, _) => { s with wheel := wheel }

/-- What its `debug!` prints unwraps the stream. -/
def handleEvent (s : Dialing T) (event : Usize) : Option (Dialing T) :=
  if s.tcpStream then
    s.clearOwn.map fun s =>
      if (readyFromUsize event).isWritable then s.handleOnConnect else s.finish .ignored
  else some { s with panicked := true }

/-- A batch: the kernel reports the stream while it is armed, once; the timer's event comes from the
readiness queue. -/
def mayPoll (s : Dialing T) (selected queued : List Dispatched) : Bool :=
  !s.polling && s.batch.isEmpty && selected.all (· ≠ .timers) && queued.all (fun e => !e.isConnect) &&
    decide (selected.countP Dispatched.isConnect ≤ if s.interest = some true then 1 else 0)

end Dialing

variable {T : Type u}

/-- An attempt is under way. -/
def Dialing.Waiting (s : Dialing T) : Prop := s.outcomes.length < s.started

structure Timer.Holds (t : Timer (TimeoutJob T)) (own : Option Timeout) : Prop where
  cursor : HasCursor t
  own : ∀ k tick, t.pending k = some (tick, .connect) ↔ own = some ⟨k, tick⟩

namespace Timer.Holds
variable {t t' : Timer (TimeoutJob T)} {own : Option Timeout} {h : Timeout}

theorem new (tickMs numSlots : ℕ) : (Timer.new tickMs numSlots : Timer (TimeoutJob T)).Holds none :=
  ⟨⟨_, _, _, cursor_new tickMs numSlots⟩, fun _ _ => ⟨fun hk => (by cases hk), fun hk => (by cases hk)⟩⟩

/-- The key of a new entry was vacant. -/
theorem inserted {elapsed delay : Duration} {job : TimeoutJob T} {key : Token} (hh : t.Holds own)
    (hs : t.setTimeout elapsed delay job key = some (t', h)) :
    HasCursor t' ∧ t.pending key = none ∧ h.token = key ∧
      t'.pending = Function.update t.pending key (some (h.tick, job)) := by
  obtain ⟨lists, behind, ahead, c⟩ := hh.cursor
  obtain ⟨_, tick, -, -, hins⟩ := setTimeout_spec hs
  obtain ⟨lists', c', hpend, -, rfl⟩ := c.inserted hins
  exact ⟨⟨_, _, _, c'⟩, pendingOf_eq_none.mpr (insert_vacant hins).1, rfl, hpend⟩

theorem setOwn {elapsed delay : Duration} {key : Token} (hh : t.Holds none)
    (hs : t.setTimeout elapsed delay .connect key = some (t', h)) : t'.Holds (some h) := by
  obtain ⟨hcursor, -, rfl, hpend⟩ := hh.inserted hs
  refine ⟨hcursor, fun k tick => ?_⟩
  rw [hpend]
  by_cases hk : k = h.token
  · subst hk
    obtain ⟨token, tick'⟩ := h
    simp
  · have hnot := hh.own k tick
    rw [Function.update_of_ne hk, hnot]
    refine ⟨fun he => (by cases he), fun he => absurd ?_ hk⟩
    exact (congrArg Timeout.token (Option.some.inj he)).symm

/-- Cancelling takes the timeout out, and nothing else of the connector's. -/
theorem cancel {r : Option (TimeoutJob T)} (hh : t.Holds own) (hs : t.cancelTimeout h = some (t', r)) :
    t'.Holds (if own = some h then none else own) := by
  obtain ⟨lists, behind, ahead, c⟩ := hh.cursor
  rcases cancelTimeout_cases c hs with ⟨e, lists', he, htick, -, c', hpend, -⟩ | ⟨hidle, -, rfl⟩
  · have hentry : t.pending h.token = some (h.tick, e.state) := htick ▸ pendingOf_of_entry he
    refine ⟨⟨_, _, _, c'⟩, fun k tick => ?_⟩
    rw [hpend]
    by_cases hk : k = h.token
    · subst hk
      rw [Function.update_self]
      refine ⟨fun hsome => (by cases hsome), fun hown => ?_⟩
      split at hown
      · cases hown
      · rename_i hne
        have hp := (hh.own h.token tick).mpr hown
        obtain ⟨rfl, -⟩ := Prod.mk.inj (Option.some.inj (hentry.symm.trans hp))
        exact absurd hown hne
    · rw [Function.update_of_ne hk, hh.own]
      split
      · rename_i hown
        rw [hown]
        refine ⟨fun hsame => absurd ?_ hk, fun hsome => (by cases hsome)⟩
        exact (congrArg Timeout.token (Option.some.inj hsame)).symm
      · rfl
  · rw [if_neg]
    · exact hh
    · intro hown
      obtain ⟨e, he, htick, -⟩ := pendingOf_eq_some.mp ((hh.own h.token h.tick).mpr hown)
      exact hidle e he htick

/-- What `poll` returns is the timeout of the connector, or it stays. -/
theorem poll {fuel target : ℕ} {e : Option (Entry (TimeoutJob T))} (hh : t.Holds own)
    (hs : t.pollTo fuel target = some (t', e)) :
    (e.map Entry.state = some .connect ∧ own ≠ none ∧ t'.Holds none) ∨
      e.map Entry.state ≠ some .connect ∧ t'.Holds own := by
  have hstep : timerStep t (.pollTo fuel target) = some t' := Option.map_eq_some_iff.mpr ⟨_, hs, rfl⟩
  have hcursor : HasCursor t' := timerStep_cursor hh.cursor hstep
  cases e with
  | none =>
    refine .inr ⟨by simp, hcursor, ?_⟩
    rw [hh.cursor.conserves.notPolled fuel target t' hs]
    exact hh.own
  | some e =>
    obtain ⟨k, hk, hpend, -⟩ := hh.cursor.conserves.polled fuel target t' e hs
    cases hstate : e.state with
    | connect =>
      rw [hstate] at hk
      have hown := (hh.own k e.links.tick).mp hk
      refine .inl ⟨by simp [hstate], by simp [hown], hcursor, fun k' tick => ?_⟩
      rw [hpend]
      by_cases he : k' = k
      · subst he
        simp
      · rw [Function.update_of_ne he, hh.own, hown]
        refine ⟨fun hsame => absurd ?_ he, fun hsome => (by cases hsome)⟩
        exact (congrArg Timeout.token (Option.some.inj hsame)).symm
    | other job =>
      rw [hstate] at hk
      refine .inr ⟨by simp [hstate], hcursor, fun k' tick => ?_⟩
      rw [hpend, ← hh.own]
      by_cases he : k' = k
      · subst he
        simp [hk]
      · rw [Function.update_of_ne he]

end Timer.Holds

/-! ## A batch -/

/-- There is one event of the stream in the batch, and only events of other streams stand before it. -/
def Ahead : List Dispatched → Bool
  | .connect _ :: rest => !rest.any Dispatched.isConnect
  | .other :: rest => Ahead rest
  | .timers :: _ | [] => false

/-- The events of `select` stand before those of the readiness queue. -/
theorem ahead_batch {selected queued : List Dispatched} (hselected : selected.all (· ≠ .timers) = true)
    (hqueued : queued.all (fun e => !e.isConnect) = true)
    (hone : selected.countP Dispatched.isConnect = 1) : Ahead (selected ++ queued) = true := by
  induction selected with
  | nil => cases hone
  | cons e rest ih =>
    rw [List.all_cons, Bool.and_eq_true] at hselected
    cases e with
    | connect event =>
      have hnone : rest.countP Dispatched.isConnect = 0 := by
        rw [List.countP_cons_of_pos rfl] at hone
        omega
      simp only [List.countP_eq_zero] at hnone
      simp only [List.all_eq_true] at hqueued
      simp only [List.cons_append, Ahead, Bool.not_eq_true', List.any_append, Bool.or_eq_false_iff,
        List.any_eq_false]
      exact ⟨hnone, fun e he => by simpa using hqueued e he⟩
    | timers => exact absurd hselected.1 (by decide)
    | other =>
      rw [List.countP_cons_of_neg (by decide)] at hone
      exact ih hselected.2 hone

theorem ahead_mem {batch : List Dispatched} (h : Ahead batch = true) :
    ∃ event, Dispatched.connect event ∈ batch := by
  induction batch with
  | nil => cases h
  | cons e rest ih =>
    cases e with
    | connect event => exact ⟨event, List.mem_cons_self⟩
    | timers => cases h
    | other =>
      obtain ⟨event, hevent⟩ := ih h
      exact ⟨event, List.mem_cons_of_mem _ hevent⟩

/-! ## What holds at every step -/

namespace Dialing

/-- The timeout of the attempt under way, if it has one. -/
def own (s : Dialing T) : Option Timeout :=
  if s.outcomes.length < s.started ∧ s.timed = true then s.timer else none

/-- What an attempt under way relies on. -/
structure Waits (s : Dialing T) : Prop where
  stream : s.tcpStream = true
  timer : s.timed = true → s.timer ≠ none
  event : s.interest = some true ∧ s.batch.any Dispatched.isConnect = false ∨
    s.interest = some false ∧ s.polling = false ∧ Ahead s.batch = true

structure Good (s : Dialing T) : Prop where
  wheel : s.wheel.Holds s.own
  waits : s.Waiting → s.Waits
  idle : ¬ s.Waiting → s.interest ≠ some true ∧ s.batch.any Dispatched.isConnect = false

structure Ok (s : Dialing T) : Prop where
  count : s.outcomes.length ≤ s.started ∧ s.started ≤ s.outcomes.length + 1
  good : s.panicked = false → s.Good
  panicked : s.panicked = true → .unopened ∈ s.outcomes ∨ .refused ∈ s.outcomes

end Dialing

section Steps
variable {s s' : Dialing T}

namespace Dialing

theorem own_of_not_waiting (h : ¬ s.Waiting) : s.own = none := if_neg fun hw => h hw.1

/-- The handle in the connector is cleared: the attempt has no timeout any more. -/
theorem clearOwn_holds {own : Option Timeout} (hh : s.wheel.Holds own) (hown : own = none ∨ own = s.timer)
    (hs : s.clearOwn = some s') : ∃ wheel, s' = { s with wheel := wheel } ∧ wheel.Holds none := by
  unfold clearOwn at hs
  cases htimer : s.timer with
  | none =>
    rw [htimer] at hs hown
    obtain rfl := Option.some.inj hs
    have hnone : own = none := hown.elim id id
    refine ⟨s.wheel, ?_, hnone ▸ hh⟩
    rw [← htimer]
  | some timeout =>
    rw [htimer] at hs hown
    obtain ⟨⟨wheel, r⟩, hcancel, rfl⟩ := Option.map_eq_some_iff.mp hs
    refine ⟨wheel, rfl, ?_⟩
    have hafter := hh.cancel hcancel
    rcases hown with hown | hown
    · rwa [hown, if_neg (by simp)] at hafter
    · rwa [if_pos hown] at hafter

theorem own_cases (s : Dialing T) : s.own = none ∨ s.own = s.timer := by
  unfold own
  split
  · exact .inr rfl
  · exact .inl rfl

theorem over_good {wheel : Timer (TimeoutJob T)} (hh : wheel.Holds none) (hwheel : s.wheel = wheel)
    (hcount : s.started ≤ s.outcomes.length) (hinterest : s.interest ≠ some true)
    (hbatch : s.batch.any Dispatched.isConnect = false) : s.Good := by
  have hnot : ¬ s.Waiting := Nat.not_lt.mpr hcount
  refine ⟨?_, fun hw => absurd hw hnot, fun _ => ⟨hinterest, hbatch⟩⟩
  rw [hwheel, own_of_not_waiting hnot]
  exact hh

theorem Ok.register (h : s.Ok) (hp : s.panicked = false) (hidle : ¬ s.Waiting)
    {timeout : Option (Duration × Duration × Token)} {refused : Bool}
    (hs : s.register timeout refused = some s') : s'.Ok := by
  have hstarted : s.started = s.outcomes.length := by
    have := h.count
    unfold Waiting at hidle
    omega
  obtain ⟨hinterest, hbatch⟩ := (h.good hp).idle hidle
  have hwheel := (h.good hp).wheel
  rw [own_of_not_waiting hidle] at hwheel
  obtain ⟨m, hm, rfl⟩ := Option.map_eq_some_iff.mp hs
  obtain ⟨hstream, hcount, houtcomes, hpanicked, htimed, hb, hholds⟩ :
      m.tcpStream = true ∧ m.started = s.started + 1 ∧ m.outcomes = s.outcomes ∧ m.panicked = false ∧
        (m.timed = true → m.timer ≠ none) ∧ m.batch.any Dispatched.isConnect = false ∧
          m.wheel.Holds (if m.timed = true then m.timer else none) := by
    cases timeout with
    | none =>
      obtain rfl := Option.some.inj hm
      exact ⟨rfl, rfl, rfl, hp, fun ht => (by cases ht), hbatch, hwheel⟩
    | some timeout =>
      obtain ⟨elapsed, delay, key⟩ := timeout
      obtain ⟨⟨wheel, timer⟩, hset, rfl⟩ := Option.map_eq_some_iff.mp hm
      exact ⟨rfl, rfl, rfl, hp, fun _ => (by simp), hbatch, hwheel.setOwn hset⟩
  cases refused with
  | true =>
    refine ⟨?_, fun hgood => (by cases hgood), fun _ => ?_⟩
    · show (m.outcomes ++ [_]).length ≤ m.started ∧ m.started ≤ (m.outcomes ++ [_]).length + 1
      simp only [List.length_append, List.length_singleton, hcount, houtcomes]
      omega
    · exact .inr (List.mem_append_right _ List.mem_cons_self)
  | false =>
    have hw : m.outcomes.length < m.started := by
      rw [houtcomes]
      omega
    refine ⟨?_, fun _ => ⟨?_, fun _ => ⟨hstream, htimed, .inl ⟨rfl, hb⟩⟩, fun hnot => absurd hw hnot⟩,
      fun hpanic => absurd (hpanicked.symm.trans hpanic) (by decide)⟩
    · show m.outcomes.length ≤ m.started ∧ m.started ≤ m.outcomes.length + 1
      rw [houtcomes]
      omega
    · show m.wheel.Holds (if m.outcomes.length < m.started ∧ m.timed = true then m.timer else none)
      simpa only [hw, true_and] using hholds

theorem Ok.connect (h : s.Ok) (hp : s.panicked = false) (hidle : ¬ s.Waiting) {opened : Opened}
    {timeout : Option (Duration × Duration × Token)} {refused : Bool}
    (hs : s.connect opened timeout refused = some s') : s'.Ok := by
  have hcount := h.count
  have hunopened : Ok { ({ s with started := s.started + 1 }).finish .unopened with panicked := true } := by
    refine ⟨?_, fun hgood => (by cases hgood), fun _ => .inl (List.mem_append_right _ List.mem_cons_self)⟩
    show (s.outcomes ++ [_]).length ≤ s.started + 1 ∧ s.started + 1 ≤ (s.outcomes ++ [_]).length + 1
    simp only [List.length_append, List.length_singleton]
    omega
  cases opened with
  | stream => exact h.register hp hidle hs
  | unparsed | failed =>
    obtain rfl := Option.some.inj hs
    exact hunopened

theorem Ok.poll (h : s.Ok) (hp : s.panicked = false) {selected queued : List Dispatched}
    (hmay : s.mayPoll selected queued = true) :
    Ok { s with
      batch := selected ++ queued
      interest := if selected.any Dispatched.isConnect then some false else s.interest } := by
  have hg := h.good hp
  simp only [mayPoll, Bool.and_eq_true, Bool.not_eq_true', List.isEmpty_iff, decide_eq_true_eq] at hmay
  obtain ⟨⟨⟨⟨hpolling, hempty⟩, hselected⟩, hqueued⟩, hcount⟩ := hmay
  have hnone : queued.any Dispatched.isConnect = false := by
    rw [List.any_eq_false]
    intro e he
    simpa using List.all_eq_true.mp hqueued e he
  refine ⟨h.count, fun _ => ⟨hg.wheel, fun hw => ?_, fun hnot => ?_⟩,
    fun hpanic => absurd (hp.symm.trans hpanic) (by decide)⟩
  · have hwaits := hg.waits hw
    -- the batch before was empty, so the stream is armed
    have harmed : s.interest = some true := by
      rcases hwaits.event with hevent | hevent
      · exact hevent.1
      · rw [hempty] at hevent
        cases hevent.2.2
    rw [if_pos harmed] at hcount
    refine ⟨hwaits.stream, hwaits.timer, ?_⟩
    cases hany : selected.any Dispatched.isConnect with
    | true =>
      have hpos : 0 < selected.countP Dispatched.isConnect := by
        rw [List.countP_pos_iff]
        exact List.any_eq_true.mp hany
      exact .inr ⟨rfl, hpolling, ahead_batch hselected hqueued (by omega)⟩
    | false =>
      refine .inl ⟨harmed, ?_⟩
      show (selected ++ queued).any _ = false
      rw [List.any_append, hany, hnone]
      rfl
  · obtain ⟨hinterest, -⟩ := hg.idle hnot
    rw [if_neg hinterest] at hcount
    have hany : selected.any Dispatched.isConnect = false := by
      rw [List.any_eq_false]
      exact List.countP_eq_zero.mp (Nat.le_zero.mp hcount)
    refine ⟨?_, ?_⟩
    · show (if selected.any Dispatched.isConnect = true then some false else s.interest) ≠ some true
      rw [hany]
      exact hinterest
    · show (selected ++ queued).any _ = false
      rw [List.any_append, hany, hnone]
      rfl

/-- **`handle_event`** finds the stream, and leaves no timeout behind. -/
theorem Ok.handleEvent (h : s.Ok) (hp : s.panicked = false) {event : Usize} {rest : List Dispatched}
    (hbatch : s.batch = .connect event :: rest)
    (hs : ({ s with batch := rest }).handleEvent event = some s') : s'.Ok := by
  have hg := h.good hp
  have hw : s.Waiting := by
    by_contra hnot
    have hnone := (hg.idle hnot).2
    rw [hbatch] at hnone
    cases hnone
  obtain ⟨hstream, -, hevent⟩ := hg.waits hw
  rw [hbatch] at hevent
  obtain ⟨hinterest, -, hrest⟩ := hevent.resolve_left fun hnone => by cases hnone.2
  have hrest : rest.any Dispatched.isConnect = false := by simpa [Ahead] using hrest
  have hcount := h.count
  have hlt : s.outcomes.length < s.started := hw
  unfold Dialing.handleEvent at hs
  rw [if_pos hstream] at hs
  obtain ⟨m, hm, rfl⟩ := Option.map_eq_some_iff.mp hs
  obtain ⟨wheel, rfl, hh⟩ := clearOwn_holds (s := { s with batch := rest }) hg.wheel s.own_cases hm
  have hended : ∀ o, s.started ≤ (s.outcomes ++ [o]).length ∧ (s.outcomes ++ [o]).length ≤ s.started := by
    intro o
    simp only [List.length_append, List.length_singleton]
    omega
  have hdisarmed : s.interest ≠ some true := by
    rw [hinterest]
    decide
  dsimp only
  split
  · unfold handleOnConnect
    rw [if_pos hstream]
    exact ⟨⟨(hended .connected).2, (hended .connected).1.trans (Nat.le_succ _)⟩,
      fun _ => over_good hh rfl (hended .connected).1 hdisarmed hrest,
      fun hpanic => absurd (hp.symm.trans hpanic) (by decide)⟩
  · exact ⟨⟨(hended .ignored).2, (hended .ignored).1.trans (Nat.le_succ _)⟩,
      fun _ => over_good hh rfl (hended .ignored).1 hdisarmed hrest,
      fun hpanic => absurd (hp.symm.trans hpanic) (by decide)⟩

theorem Ok.skip (h : s.Ok) (hp : s.panicked = false) {e : Dispatched} {rest : List Dispatched}
    {polling : Bool} (hbatch : s.batch = e :: rest) (hother : e.isConnect = false)
    (hahead : Ahead s.batch = true → Ahead rest = true ∧ polling = false) :
    Ok { s with batch := rest, polling := polling } := by
  have hg := h.good hp
  have hrest : s.batch.any Dispatched.isConnect = false → rest.any Dispatched.isConnect = false := by
    rw [hbatch, List.any_cons, hother, Bool.false_or]
    exact id
  refine ⟨h.count, fun _ => ⟨hg.wheel, fun hw => ?_, fun hnot => ?_⟩,
    fun hpanic => absurd (hp.symm.trans hpanic) (by decide)⟩
  · have hwaits := hg.waits hw
    refine ⟨hwaits.stream, hwaits.timer, ?_⟩
    rcases hwaits.event with ⟨harmed, hnone⟩ | ⟨hdisarmed, -, hin⟩
    · exact .inl ⟨harmed, hrest hnone⟩
    · exact .inr ⟨hdisarmed, (hahead hin).2, (hahead hin).1⟩
  · exact ⟨(hg.idle hnot).1, hrest (hg.idle hnot).2⟩

theorem Ok.polled (h : s.Ok) (hpolling : s.polling = true) :
    Ok { s with polling := false } := by
  refine ⟨h.count, fun hp => ?_, h.panicked⟩
  have hg := h.good hp
  refine ⟨hg.wheel, fun hw => ?_, hg.idle⟩
  have hwaits := hg.waits hw
  refine ⟨hwaits.stream, hwaits.timer, .inl (hwaits.event.resolve_right fun hahead => ?_)⟩
  rw [hpolling] at hahead
  cases hahead.2.1

end Dialing

end Steps

end MyMio

import Mathlib.Logic.Function.Iterate
import MyMio.Net.Close
import MyMio.Selector.Handle

/-! # From accept or connect to close

`TcpServer::on_accept_connection` and the connect callback of `TcpClient::start_connect`, one
connection each, on the selector of its event loop. Both hand the connection to the user before they
register it, and the user may `send` from any callback that runs with the connection unlocked. `close_stream`
deregisters the fd and unwraps the result; so does the connect callback, which has found the fd
registered by `Connector::connect`.

An `advance` is what the code does between two of these callbacks. A panic ends the run: the call that
panics is the last thing the connection's thread does.

The table and the connection agree in every run in which nothing written before the registration fails
and the connect attempt succeeds (`lifecycle_agrees`).
-/

namespace MyMio
set_option autoImplicit false

open StepSystem

universe u

variable {J : Type u}

/-! ## `close_stream` in the log of a session -/

/-- A call on a connection, from `s` to `s'`, runs `close_stream` once if it sets `closed`, and
otherwise not at all. -/
structure ClosesOnce (s s' : Session) : Prop where
  stays : s.conn.closed = true → s'.conn.closed = true
  deregisters : s'.calls.count .deregister =
    s.calls.count .deregister + if s'.conn.closed && !s.conn.closed then 1 else 0

namespace ClosesOnce
variable {s s' s'' : Session}

/-- Anything that leaves `closed` and the number of `close_stream`s alone. -/
theorem of_frame (hc : s'.conn.closed = s.conn.closed)
    (hd : s'.calls.count .deregister = s.calls.count .deregister) : ClosesOnce s s' := by
  refine ⟨fun h => hc.trans h, ?_⟩
  rw [hd, hc]
  cases s.conn.closed <;> rfl

theorem trans (h : ClosesOnce s s') (h' : ClosesOnce s' s'') : ClosesOnce s s'' := by
  refine ⟨fun hc => h'.stays (h.stays hc), ?_⟩
  rw [h'.deregisters, h.deregisters]
  cases hs : s.conn.closed with
  | true =>
    rw [h.stays hs, h'.stays (h.stays hs)]
    rfl
  | false =>
    cases hs' : s'.conn.closed with
    | true =>
      rw [h'.stays hs']
      rfl
    | false => simp

theorem handleClose (s : Session) : ClosesOnce s (handleClose s) := by
  unfold MyMio.handleClose
  split
  next hclosed => exact of_frame rfl rfl
  next hopen =>
    refine ⟨fun _ => rfl, ?_⟩
    have hfalse : s.conn.closed = false := by simpa using hopen
    simp [hfalse, List.count_append]

theorem thenClose (h : ClosesOnce s s') : ClosesOnce s (MyMio.handleClose s') :=
  h.trans (ClosesOnce.handleClose s')

theorem readJob (s : Session) (bytes : BytesMut) (consumed : ℕ) :
    ClosesOnce s (readJob s bytes consumed) := by
  refine of_frame rfl ?_
  show (s.calls ++ [JobCall.read _]).count JobCall.deregister = _
  rw [List.count_append]
  rfl

theorem handleRead {turns : List ReadTurn} (hs : handleRead s turns = some s') :
    ClosesOnce s s' := by
  induction turns generalizing s with
  | nil => cases hs
  | cons turn turns ih =>
    obtain ⟨result, consumed⟩ := turn
    cases result with
    | wouldBlock =>
      cases hs
      exact of_frame rfl rfl
    | err =>
      cases hs
      exact thenClose (of_frame rfl rfl)
    | ok bytes =>
      have hjob := ClosesOnce.readJob s bytes consumed
      rw [MyMio.handleRead] at hs
      split at hs
      next => exact hjob.trans (ih hs)
      next =>
        cases hs
        exact thenClose (hjob.trans (of_frame rfl rfl))

theorem writeData (s : Session) (answer : WriteResult) (writJob : Bool) :
    ClosesOnce s (writeData s answer writJob) := by
  have hclosed := takeChunk_closed s.conn
  unfold MyMio.writeData
  dsimp only
  split
  · exact of_frame hclosed rfl
  · cases answer with
    | wouldBlock => exact of_frame hclosed rfl
    | err =>
      exact thenClose (of_frame hclosed rfl)
    | ok cnt =>
      dsimp only
      have hwrit : (s.calls ++ [JobCall.writ]).count .deregister = s.calls.count .deregister := by
        rw [List.count_append]
        rfl
      split
      · exact of_frame hclosed rfl
      · split
        · exact of_frame hclosed hwrit
        · exact thenClose (of_frame hclosed hwrit)

theorem send (s : Session) (bytes : BytesMut) (answer : WriteResult) (writJob : Bool) :
    ClosesOnce s (send s bytes answer writJob).1 := by
  unfold MyMio.send
  split
  · exact of_frame rfl rfl
  · split
    · exact of_frame rfl rfl
    · refine ClosesOnce.trans ?_ (ClosesOnce.writeData _ answer writJob)
      exact of_frame rfl rfl

theorem handleWrite (s : Session) (answer : WriteResult) (writJob : Bool) :
    ClosesOnce s (handleWrite s answer writJob) := by
  unfold MyMio.handleWrite
  split
  · exact of_frame rfl rfl
  · exact ClosesOnce.writeData s answer writJob

theorem handleEvent {event : Usize} {reads : List ReadTurn} {answer : WriteResult} {writJob : Bool}
    (hs : handleEvent s event reads answer writJob = some s') : ClosesOnce s s' := by
  obtain ⟨m, hm, rfl⟩ := Option.map_eq_some_iff.mp hs
  have hread : ClosesOnce s m := by
    split at hm
    · refine ClosesOnce.trans ?_ (ClosesOnce.handleRead hm)
      exact of_frame rfl rfl
    · obtain rfl := Option.some.inj hm
      exact of_frame rfl rfl
  refine hread.trans ?_
  dsimp only
  have hwrite : ClosesOnce m (if (readyFromUsize event).isWritable = true then
      MyMio.handleWrite { m with conn := { m.conn with writeTriggered := true } } answer writJob
      else m) := by
    split
    · refine ClosesOnce.trans ?_ (ClosesOnce.handleWrite _ answer writJob)
      exact of_frame rfl rfl
    · exact of_frame rfl rfl
  split
  · exact hwrite.trans (thenClose (of_frame rfl rfl))
  · exact hwrite

end ClosesOnce

/-- A `send` on an open connection only closes it on an error of the socket, `writ_job` being the
default one. -/
theorem send_open {s : Session} {bytes : BytesMut} {answer : WriteResult}
    (hopen : s.conn.closed = false) (hok : bytes = [] ∨ answer ≠ .err) :
    (send s bytes answer true).1.conn.closed = false := by
  unfold send
  split
  · exact hopen
  · split
    · exact hopen
    · rename_i hlen
      have hanswer : answer ≠ .err := by
        refine hok.resolve_left fun he => hlen ?_
        rw [he]
        rfl
      dsimp only
      generalize hs' : ({ s with conn := { s.conn with
        writeBufferWaiting := s.conn.writeBufferWaiting.put bytes } } : Session) = s'
      have hopen' : s'.conn.closed = false := hs' ▸ hopen
      have hclosed := (takeChunk_closed s'.conn).trans hopen'
      unfold writeData
      dsimp only
      split
      · exact hclosed
      · cases answer with
        | wouldBlock => exact hclosed
        | err => exact absurd rfl hanswer
        | ok cnt =>
          dsimp only
          split
          · exact hclosed
          · rw [if_pos rfl]
            exact hclosed

/-! ## The runs -/

/-- Where the code is with the connection. -/
inductive Stage
  /-- `on_accept_connection`, in `attach_connection` -/
  | attaching
  /-- in `on_accept` -/
  | accepting
  /-- the jobs are set -/
  | accepted
  /-- `Connector::connect`, before its `register` -/
  | dialing
  /-- waiting for `Connector::handle_event` -/
  | connecting
  /-- the connect callback, in `attach_connection` -/
  | attached
  /-- the jobs are set -/
  | leaving
  /-- deregistered, about to enable the connection and register it again -/
  | entering
  /-- registered with its own job: events, `on_connect` and later jobs -/
  | live
  /-- the connect callback has returned `false` -/
  | over
  deriving DecidableEq, Repr

/-- What `take_error` returns: `Ok(None)`, `Ok(Some(_))` or `Err(_)`. -/
inductive TakeError
  | none
  | some
  | err
  deriving DecidableEq, Repr

/-- One connection and the selector of its loop. The last four record what has happened: an `unwrap`
has panicked, an unwrapped `deregister` was made for an fd that is not registered, a closed connection
was registered, the connect attempt has failed. -/
structure Lifecycle (J : Type u) where
  selector : Selector J
  socket : Socket
  session : Session
  stage : Stage
  socketTokenId : Usize
  panicked : Bool
  stray : Bool
  reopened : Bool
  failed : Bool

inductive LifecycleOp (J : Type u)
  /-- the user sends from a callback; the write is answered if there is one -/
  | send (bytes : BytesMut) (answer : WriteResult) (writJob : Bool)
  | handleEvent (event : Usize) (reads : List ReadTurn) (answer : WriteResult) (writJob : Bool)
  /-- the code goes on, up to the next callback of the user -/
  | advance (job : J) (refused : Bool)
  | connectEvent (event : Usize) (error : TakeError)
  /-- other fds come and go -/
  | others (list : InterestList) (map : RawFd → Option (JobEntry J))

namespace Lifecycle

/-- The fd is in the interest list. -/
def registered (s : Lifecycle J) : Bool := (s.selector.interestList s.socket.fd).isSome

/-- `event_loop.deregister(..).unwrap()`. -/
def unwrapDeregister (s : Lifecycle J) : Lifecycle J :=
  match s.selector.deregister s.socket.fd false with
  | (selector, .ok ()) => { s with selector := selector, stray := s.stray || !s.registered }
  | (selector, .error _) =>
    { s with selector := selector, stray := s.stray || !s.registered, panicked := true }

/-- `event_loop.register(..).unwrap()`. -/
def unwrapRegister (s : Lifecycle J) (token : Token) (opts : PollOpt) (job : J) (refused : Bool) :
    Lifecycle J :=
  match s.socket.register s.selector
      ⟨⟨.socketEvent, token⟩, Ready.readable.union Ready.writable, opts, job⟩ refused with
  | (socket, selector, .ok ()) =>
    { s with socket := socket, selector := selector, reopened := s.reopened || s.session.conn.closed }
  | (socket, selector, .error _) => { s with
      socket := socket
      selector := selector
      reopened := s.reopened || s.session.conn.closed
      panicked := true }

/-- A call on the connection, with the `close_stream`s it has run. -/
def become (s : Lifecycle J) (session : Session) : Lifecycle J :=
  Nat.iterate unwrapDeregister
    (session.calls.count .deregister - s.session.calls.count .deregister)
    { s with session := session }

/-- `send`; the default `writ_job` returns `true`. -/
def send (s : Lifecycle J) (bytes : BytesMut) (answer : WriteResult) (writJob : Bool) :
    Option (Lifecycle J) :=
  match s.stage with
  | .attaching | .accepting | .attached =>
    some (s.become (MyMio.send s.session bytes answer true).1)
  | .live => some (s.become (MyMio.send s.session bytes answer writJob).1)
  | _ => none

def advance (s : Lifecycle J) (job : J) (refused : Bool) : Option (Lifecycle J) :=
  match s.stage with
  | .attaching => some { s with stage := .accepting }
  | .accepting => some { s with stage := .accepted }
  | .accepted =>
    let id := s.socketTokenId + 1
    some ({ s with socketTokenId := id, stage := .live }.unwrapRegister ⟨id⟩ .edge job refused)
  | .dialing =>
    some ({ s with stage := .connecting }.unwrapRegister ⟨9999999⟩
      ⟨PollOpt.edge.bits ||| PollOpt.oneshot.bits⟩ job refused)
  | .attached => some { s with stage := .leaving }
  | .leaving => some { s with stage := .entering }.unwrapDeregister
  | .entering =>
    let session := { s.session with conn := s.session.conn.setEnabled true }
    some ({ s with session := session, stage := .live }.unwrapRegister
      ⟨userDataOfFd s.socket.fd⟩ .edge job refused)
  | .connecting | .live | .over => none

/-- `Connector::handle_event` and the connect callback up to `attach_connection`. A stream that is
dropped leaves the interest list. -/
def connectEvent (s : Lifecycle J) (event : Usize) (error : TakeError) : Lifecycle J :=
  let ready := readyFromUsize event
  if ready.isWritable then
    match error with
    | .some => { s with
        selector := { s.selector with
          interestList := Function.update s.selector.interestList s.socket.fd none }
        stage := .over
        failed := true }
    | .none | .err => { s with session := .new, stage := .attached }
  else if ready.isError || ready.isHup then { s with failed := true }
  else s

end Lifecycle

def lifecycleStep (s : Lifecycle J) (op : LifecycleOp J) : Option (Lifecycle J) :=
  if s.panicked then none
  else
    match op with
    | .send bytes answer writJob => s.send bytes answer writJob
    | .handleEvent event reads answer writJob =>
      if s.stage = .live then (handleEvent s.session event reads answer writJob).map s.become
      else none
    | .advance job refused => s.advance job refused
    | .connectEvent event error =>
      if s.stage = .connecting then some (s.connectEvent event error) else none
    | .others list map =>
      some { s with selector := { s.selector with
        interestList := Function.update list s.socket.fd (s.selector.interestList s.socket.fd)
        eventsMap := Function.update map s.socket.fd (s.selector.eventsMap s.socket.fd) } }

/-- A stream that is just accepted, or about to be connected: its fd is new. -/
structure Lifecycle.Starts (s : Lifecycle J) : Prop where
  stage : s.stage = .attaching ∨ s.stage = .dialing
  session : s.session = .new
  selectorId : s.socket.selectorId = 0
  unlisted : s.selector.interestList s.socket.fd = none
  flags : s.panicked = false ∧ s.stray = false ∧ s.reopened = false ∧ s.failed = false

/-- The lifecycle and the table of callbacks agree. -/
structure Lifecycle.Agrees (s : Lifecycle J) : Prop where
  noStray : s.stray = false
  notReopened : s.reopened = false
  noEntry : s.session.conn.closed = true ∨ s.failed = true → s.selector.eventsMap s.socket.fd = none

/-- The connection is not registered with its own job yet. -/
def Stage.early : Stage → Bool
  | .live | .over => false
  | _ => true

/-- No write before the registration gets an error from the socket, and the connect attempt does not
fail. -/
def Orderly (s : Lifecycle J) : LifecycleOp J → Prop
  | .send bytes answer _ => s.stage.early = true → bytes = [] ∨ answer ≠ .err
  | .connectEvent event error =>
    if (readyFromUsize event).isWritable then error ≠ .some
    else (readyFromUsize event).isError = false ∧ (readyFromUsize event).isHup = false
  | _ => True

instance (s : Lifecycle J) (op : LifecycleOp J) : Decidable (Orderly s op) :=
  match op with
  | .send _ _ _ => inferInstanceAs (Decidable (_ → _ ∨ _))
  | .connectEvent event error =>
    inferInstanceAs (Decidable (if (readyFromUsize event).isWritable then error ≠ .some
      else (readyFromUsize event).isError = false ∧ (readyFromUsize event).isHup = false))
  | .handleEvent _ _ _ _ | .advance _ _ | .others _ _ => .isTrue trivial

/-! ## The table of callbacks -/

def Stage.Fits (stage : Stage) (registered closed : Bool) : Prop :=
  match stage with
  | .attaching | .accepting | .accepted | .dialing | .entering => registered = false ∧ closed = false
  | .connecting | .attached | .leaving => registered = true ∧ closed = false
  | .live => closed = false → registered = true
  | .over => False

structure Kept (s : Lifecycle J) : Prop where
  id : s.socket.selectorId = 0 ∨ s.socket.selectorId = s.selector.id
  noStray : s.stray = false
  notReopened : s.reopened = false
  notFailed : s.failed = false
  place : s.panicked = false → s.stage.Fits s.registered s.session.conn.closed
  cleared : s.session.conn.closed = true → s.selector.eventsMap s.socket.fd = none

section Steps
variable {s s' : Lifecycle J}

theorem Kept.agrees (h : Kept s) : s.Agrees := by
  refine ⟨h.noStray, h.notReopened, fun hor => h.cleared (hor.resolve_right ?_)⟩
  rw [h.notFailed]
  exact Bool.false_ne_true

theorem registered_iff : s.registered = true ↔ ∃ info, s.selector.interestList s.socket.fd = some info :=
  Option.isSome_iff_exists

theorem unwrapDeregister_of_registered (h : s.registered = true) :
    s.unwrapDeregister = { s with selector := { s.selector with
      interestList := Function.update s.selector.interestList s.socket.fd none
      eventsMap := Function.update s.selector.eventsMap s.socket.fd none } } := by
  obtain ⟨info, hinfo⟩ := registered_iff.mp h
  have hdel : s.selector.deregister s.socket.fd false = ({ s.selector with
      interestList := Function.update s.selector.interestList s.socket.fd none
      eventsMap := Function.update s.selector.eventsMap s.socket.fd none }, .ok ()) := by
    simp [Selector.deregister, epollCtl, hinfo]
  unfold Lifecycle.unwrapDeregister
  rw [hdel, h, Bool.not_true, Bool.or_false]

/-- Registering an open connection leaves the fd registered, or panics. -/
theorem kept_register
    (hid : s.socket.selectorId = 0 ∨ s.socket.selectorId = s.selector.id)
    (hflags : s.stray = false ∧ s.reopened = false ∧ s.failed = false)
    (hopen : s.session.conn.closed = false) (hfits : s.stage.Fits true false) (token : Token) (opts : PollOpt) (job : J)
    (refused : Bool) : Kept (s.unwrapRegister token opts job refused) := by
  have hrefuses : refuses s.socket.selectorId s.selector.id = false := by
    unfold refuses
    rcases hid with hid | hid
    · rw [hid]
      rfl
    · rw [hid, bne_self_eq_false, Bool.and_false]
  obtain ⟨hstray, hreopened, hfailed⟩ := hflags
  have hnever : ∀ {p : Prop}, s.session.conn.closed = true → p := fun hc => by
    rw [hopen] at hc
    cases hc
  have hreopened' : (s.reopened || s.session.conn.closed) = false := by
    rw [hreopened, hopen]
    rfl
  unfold Lifecycle.unwrapRegister Socket.register
  rw [hrefuses, if_neg Bool.false_ne_true]
  unfold Selector.register
  dsimp only
  cases hctl : epollCtl s.selector.interestList .add s.socket.fd
      ⟨ioeventToEpoll (Ready.readable.union Ready.writable) opts, userDataOfFd s.socket.fd⟩ refused with
  | error e =>
    exact ⟨.inr rfl, hstray, hreopened', hfailed, fun hp => (by cases hp), fun hc => hnever hc⟩
  | ok list =>
    have hlist : (list s.socket.fd).isSome = true := by
      unfold epollCtl at hctl
      split at hctl
      · cases hctl
      · cases hfd : s.selector.interestList s.socket.fd with
        | some info => simp [hfd] at hctl
        | none =>
          simp only [hfd] at hctl
          obtain rfl := Except.ok.inj hctl
          rw [Function.update_self]
          rfl
    refine ⟨.inr rfl, hstray, hreopened', hfailed, fun _ => ?_, fun hc => hnever hc⟩
    show s.stage.Fits (list s.socket.fd).isSome s.session.conn.closed
    rw [hopen, hlist]
    exact hfits

theorem become_open {session : Session} (h : ClosesOnce s.session session)
    (hsame : session.conn.closed = s.session.conn.closed) :
    s.become session = { s with session := session } := by
  have hd := h.deregisters
  rw [hsame] at hd
  have hcount : session.calls.count .deregister - s.session.calls.count .deregister = 0 := by
    cases hc : s.session.conn.closed <;> simp [hc] at hd <;> omega
  unfold Lifecycle.become
  rw [hcount]
  rfl

theorem become_close {session : Session} (h : ClosesOnce s.session session)
    (hopen : s.session.conn.closed = false) (hclosed : session.conn.closed = true) :
    s.become session = Lifecycle.unwrapDeregister { s with session := session } := by
  have hd := h.deregisters
  rw [hclosed, hopen] at hd
  have hcount : session.calls.count .deregister - s.session.calls.count .deregister = 1 := by
    simp at hd
    omega
  unfold Lifecycle.become
  rw [hcount]
  rfl

/-- A call on an open connection, early or late, that leaves it open. -/
theorem Kept.becomeOpen (h : Kept s) {session : Session} (hc : ClosesOnce s.session session)
    (hopen : s.session.conn.closed = false) (hsame : session.conn.closed = false) :
    Kept (s.become session) := by
  rw [become_open hc (hsame.trans hopen.symm)]
  refine ⟨h.id, h.noStray, h.notReopened, h.notFailed, fun hp => ?_, fun hcl => ?_⟩
  · show s.stage.Fits s.registered session.conn.closed
    rw [hsame, ← hopen]
    exact h.place hp
  · have hcl' : session.conn.closed = true := hcl
    rw [hsame] at hcl'
    cases hcl'

theorem Kept.becomeLive (h : Kept s) {session : Session} (hc : ClosesOnce s.session session)
    (hlive : s.stage = .live) (hp : s.panicked = false) : Kept (s.become session) := by
  have hplace := h.place hp
  rw [hlive] at hplace
  cases hs : s.session.conn.closed with
  | true =>
    rw [become_open hc ((hc.stays hs).trans hs.symm)]
    refine ⟨h.id, h.noStray, h.notReopened, h.notFailed, fun _ => ?_, fun _ => h.cleared hs⟩
    show s.stage.Fits s.registered session.conn.closed
    rw [hlive, hc.stays hs]
    exact fun hf => by cases hf
  | false =>
    have hreg : s.registered = true := hplace hs
    cases hs' : session.conn.closed with
    | false => exact h.becomeOpen hc hs hs'
    | true =>
      rw [become_close hc hs hs', unwrapDeregister_of_registered (s := { s with session := session }) hreg]
      refine ⟨h.id, h.noStray, h.notReopened, h.notFailed, fun _ => ?_, fun _ => ?_⟩
      · show s.stage.Fits _ session.conn.closed
        rw [hlive, hs']
        exact fun hf => by cases hf
      · exact Function.update_self _ _ _

theorem Kept.send (h : Kept s) (hp : s.panicked = false) {bytes : BytesMut} {answer : WriteResult}
    {writJob : Bool} (hok : Orderly s (.send bytes answer writJob))
    (hs : s.send bytes answer writJob = some s') : Kept s' := by
  have hplace := h.place hp
  have hearly : s.stage.early = true → s.session.conn.closed = false →
      Kept (s.become (MyMio.send s.session bytes answer true).1) := fun hstage hopen =>
    h.becomeOpen (ClosesOnce.send ..) hopen (send_open hopen (hok hstage))
  unfold Lifecycle.send at hs
  cases hstage : s.stage with
  | attaching | accepting | attached =>
    rw [hstage] at hs hplace hearly
    obtain rfl := Option.some.inj hs
    exact hearly rfl hplace.2
  | live =>
    rw [hstage] at hs
    obtain rfl := Option.some.inj hs
    exact h.becomeLive (ClosesOnce.send ..) hstage hp
  | _ =>
    rw [hstage] at hs
    cases hs

theorem Kept.moveOn (h : Kept s) {stage : Stage}
    (hfits : s.panicked = false → stage.Fits s.registered s.session.conn.closed) :
    Kept { s with stage := stage } :=
  ⟨h.id, h.noStray, h.notReopened, h.notFailed, hfits, h.cleared⟩

theorem Kept.advance (h : Kept s) (hp : s.panicked = false) {job : J} {refused : Bool}
    (hs : s.advance job refused = some s') : Kept s' := by
  have hplace := h.place hp
  have hflags : s.stray = false ∧ s.reopened = false ∧ s.failed = false :=
    ⟨h.noStray, h.notReopened, h.notFailed⟩
  unfold Lifecycle.advance at hs
  cases hstage : s.stage with
  | attaching | accepting | attached =>
    rw [hstage] at hs hplace
    obtain rfl := Option.some.inj hs
    exact h.moveOn fun _ => hplace
  | accepted =>
    rw [hstage] at hs hplace
    obtain rfl := Option.some.inj hs
    exact kept_register (s := { s with socketTokenId := s.socketTokenId + 1, stage := .live }) h.id
      hflags hplace.2 (fun _ => rfl) _ _ job refused
  | dialing =>
    rw [hstage] at hs hplace
    obtain rfl := Option.some.inj hs
    exact kept_register (s := { s with stage := .connecting }) h.id hflags hplace.2 ⟨rfl, rfl⟩ _ _ job
      refused
  | leaving =>
    rw [hstage] at hs hplace
    obtain rfl := Option.some.inj hs
    rw [unwrapDeregister_of_registered (s := { s with stage := .entering }) hplace.1]
    refine ⟨h.id, h.noStray, h.notReopened, h.notFailed, fun _ => ⟨?_, hplace.2⟩, fun _ => ?_⟩
    · show (Function.update s.selector.interestList s.socket.fd none s.socket.fd).isSome = false
      rw [Function.update_self]
      rfl
    · exact Function.update_self _ _ _
  | entering =>
    rw [hstage] at hs hplace
    obtain rfl := Option.some.inj hs
    exact kept_register (s := { s with
      session := { s.session with conn := s.session.conn.setEnabled true }
      stage := .live }) h.id hflags hplace.2 (fun _ => rfl) _ _ job refused
  | _ =>
    rw [hstage] at hs
    cases hs

theorem Kept.connectEvent (h : Kept s) (hstage : s.stage = .connecting) (hp : s.panicked = false)
    {event : Usize} {error : TakeError} (hok : Orderly s (.connectEvent event error)) :
    Kept (s.connectEvent event error) := by
  have hplace := h.place hp
  rw [hstage] at hplace
  have hok' : if (readyFromUsize event).isWritable then error ≠ .some
      else (readyFromUsize event).isError = false ∧ (readyFromUsize event).isHup = false := hok
  unfold Lifecycle.connectEvent
  dsimp only
  split
  · rename_i hw
    rw [if_pos hw] at hok'
    have hattached : Kept { s with session := .new, stage := .attached } :=
      ⟨h.id, h.noStray, h.notReopened, h.notFailed, fun _ => ⟨hplace.1, rfl⟩, fun hc => by cases hc⟩
    cases error with
    | some => exact absurd rfl hok'
    | none | err => exact hattached
  · rename_i hw
    rw [if_neg hw] at hok'
    rw [hok'.1, hok'.2]
    exact h

theorem lifecycleStep_kept {op : LifecycleOp J} (h : Kept s) (hok : Orderly s op)
    (hs : lifecycleStep s op = some s') : Kept s' := by
  unfold lifecycleStep at hs
  split at hs
  · cases hs
  rename_i hp
  have hp' : s.panicked = false := by simpa using hp
  cases op with
  | send bytes answer writJob => exact h.send hp' hok hs
  | handleEvent event reads answer writJob =>
    dsimp only at hs
    split at hs
    · rename_i hlive
      obtain ⟨session, hevent, rfl⟩ := Option.map_eq_some_iff.mp hs
      exact h.becomeLive (ClosesOnce.handleEvent hevent) hlive hp'
    · cases hs
  | advance job refused => exact h.advance hp' hs
  | connectEvent event error =>
    dsimp only at hs
    split at hs
    · rename_i hstage
      obtain rfl := Option.some.inj hs
      exact h.connectEvent hstage hp' hok
    · cases hs
  | others list map =>
    obtain rfl := Option.some.inj hs
    have hlist : Function.update list s.socket.fd (s.selector.interestList s.socket.fd) s.socket.fd =
        s.selector.interestList s.socket.fd := Function.update_self _ _ _
    refine ⟨h.id, h.noStray, h.notReopened, h.notFailed, fun _ => ?_, fun hc => ?_⟩
    · show s.stage.Fits (Function.update list s.socket.fd _ s.socket.fd).isSome _
      rw [hlist]
      exact h.place hp'
    · exact (Function.update_self _ _ _).trans (h.cleared hc)

theorem kept_starts (h : s.Starts) : Kept s := by
  obtain ⟨hpanic, hstray, hreopened, hfailed⟩ := h.flags
  have hclosed : s.session.conn.closed = false := by
    rw [h.session]
    rfl
  refine ⟨.inl h.selectorId, hstray, hreopened, hfailed, fun _ => ?_, fun hc => ?_⟩
  · have hreg : s.registered = false := by
      unfold Lifecycle.registered
      rw [h.unlisted]
      rfl
    rw [hreg, hclosed]
    rcases h.stage with hstage | hstage <;> rw [hstage] <;> exact ⟨rfl, rfl⟩
  · rw [hclosed] at hc
    cases hc

end Steps

/-- **The connection and the table of callbacks agree.** In every run in which no write before the
registration gets an error and the connect attempt does not fail, each `deregister` that is unwrapped
finds the fd registered, no closed connection is registered, and a closed one has no entry. -/
theorem lifecycle_agrees (s : Lifecycle J) (hs : ReachableIf lifecycleStep Orderly Lifecycle.Starts s) :
    s.Agrees :=
  (hs.invariant (P := Kept) (fun _ h => kept_starts h)
    fun _ _ _ h hok hstep => lifecycleStep_kept h hok hstep).agrees

/-- A new stream on fd 7. -/
def newStream (stage : Stage) : Lifecycle Bool :=
  ⟨.new 1, ⟨7, 0⟩, .new, stage, 0, false, false, false, false⟩

theorem newStream_starts {stage : Stage} (h : stage = .attaching ∨ stage = .dialing) :
    (newStream stage).Starts :=
  ⟨h, rfl, rfl, rfl, rfl, rfl, rfl, rfl⟩

def servedOps : List (LifecycleOp Bool) :=
  [.send [1] (.ok 1) true, .advance true false, .advance true false, .advance true false,
    .handleEvent Ready.writable.bits [] (.ok 0) true, .handleEvent Ready.hup.bits [] (.ok 0) true]

/-- A server's connection that greets, is registered, and is hung up. -/
theorem lifecycle_agrees_served :
    ∃ s, run lifecycleStep (newStream .attaching) servedOps = some s ∧ s.session.conn.closed = true ∧
      s.Agrees := by
  obtain ⟨s, hrun, hclosed⟩ : ∃ s, run lifecycleStep (newStream .attaching) servedOps = some s ∧
      s.session.conn.closed = true := Option.map_eq_some_iff.mp rfl
  have hok : Along lifecycleStep Orderly (newStream .attaching) servedOps := by decide
  have hstart : ReachableIf lifecycleStep Orderly Lifecycle.Starts (newStream .attaching) :=
    .start (newStream_starts (.inl rfl))
  exact ⟨s, hrun, hclosed, lifecycle_agrees s (hstart.run hok hrun)⟩

/-- A server that greets a client which is gone: `close_stream` panics on an fd that is not
registered yet. A client that does: the connect callback finds the fd deregistered and panics. A
connect attempt that fails: its callback stays in the table. -/
theorem early_error_panics :
    (∃ s, run lifecycleStep (newStream .attaching) [.send [1] .err true] = some s ∧
      s.panicked = true ∧ ¬ s.Agrees) ∧
    (∃ s, run lifecycleStep (newStream .dialing) [.advance true false,
        .connectEvent Ready.writable.bits .none, .send [1] .err true, .advance true false,
        .advance true false] = some s ∧ s.panicked = true ∧ ¬ s.Agrees) ∧
    ∃ s, run lifecycleStep (newStream .dialing) [.advance true false,
        .connectEvent Ready.writable.bits .some] = some s ∧ s.failed = true ∧ ¬ s.Agrees := by
  refine ⟨?_, ?_, ?_⟩
  · obtain ⟨s, hrun, hview⟩ : ∃ s, run lifecycleStep (newStream .attaching)
        [.send [1] .err true] = some s ∧ (s.panicked, s.stray) = (true, true) :=
      Option.map_eq_some_iff.mp rfl
    obtain ⟨hpanicked, hstray⟩ := Prod.mk.inj hview
    exact ⟨s, hrun, hpanicked, fun h => by rw [h.noStray] at hstray; cases hstray⟩
  · obtain ⟨s, hrun, hview⟩ : ∃ s, run lifecycleStep (newStream .dialing) [.advance true false,
        .connectEvent Ready.writable.bits .none, .send [1] .err true, .advance true false,
        .advance true false] = some s ∧ (s.panicked, s.stray) = (true, true) :=
      Option.map_eq_some_iff.mp rfl
    obtain ⟨hpanicked, hstray⟩ := Prod.mk.inj hview
    exact ⟨s, hrun, hpanicked, fun h => by rw [h.noStray] at hstray; cases hstray⟩
  · obtain ⟨s, hrun, hview⟩ : ∃ s, run lifecycleStep (newStream .dialing) [.advance true false,
        .connectEvent Ready.writable.bits .some] = some s ∧
        (s.failed, (s.selector.eventsMap s.socket.fd).isSome) = (true, true) :=
      Option.map_eq_some_iff.mp rfl
    obtain ⟨hfailed, hentry⟩ := Prod.mk.inj hview
    exact ⟨s, hrun, hfailed, fun h => by rw [h.noEntry (.inr hfailed)] at hentry; cases hentry⟩

end MyMio

import MyMio.Selector.Epoll

/-! # Handles and their poll

`SelectorId` in `src/poll.rs` and the `Evented` implementation of `TcpStream` and `TcpListener` in
`src/net/tcp.rs`, the same in both: `register` first associates the handle with the poll and then
asks its selector, the other two calls only ask the selector.

A call that fails should leave no trace. `reregister` and `deregister` keep to that; `register` has
written the id and the callback before the kernel is asked, and does not take them back
(`failed_call_traceless_iff`).
-/

namespace MyMio
set_option autoImplicit false

universe u

/-- A stream or a listener. -/
structure Socket where
  fd : RawFd
  selectorId : Usize
  deriving DecidableEq, Repr

inductive SocketError
  /-- "Socket already registered" -/
  | otherPoll
  | os (e : Errno)
  deriving DecidableEq, Repr

/-- The arguments of a `register`. -/
structure RegisterArgs (J : Type u) where
  token : TokenEntry
  interest : Ready
  opts : PollOpt
  job : J

inductive SocketCall (J : Type u)
  | register (args : RegisterArgs J)
  | reregister (token : TokenEntry) (interest : Ready) (opts : PollOpt)
  | deregister

/-- Whether `associate_selector` refuses the poll, with the id it has loaded. -/
def refuses (selectorId id : Usize) : Bool := selectorId != 0 && selectorId != id

variable {J : Type u}

def osError : Except Errno Unit → Except SocketError Unit
  | .ok () => .ok ()
  | .error e => .error (.os e)

namespace Socket

/-- `register`, alone on the handle. -/
def register (h : Socket) (sel : Selector J) (args : RegisterArgs J) (refused : Bool) :
    Socket × Selector J × Except SocketError Unit :=
  if refuses h.selectorId sel.id then (h, sel, .error .otherPoll)
  else
    let (sel', res) := sel.register h.fd args.token args.interest args.opts args.job refused
    ({ h with selectorId := sel.id }, sel', osError res)

def call (h : Socket) (sel : Selector J) (refused : Bool) :
    SocketCall J → Socket × Selector J × Except SocketError Unit
  | .register args => h.register sel args refused
  | .reregister token interest opts =>
    let (sel', res) := sel.reregister h.fd token interest opts refused
    (h, sel', osError res)
  | .deregister =>
    let (sel', res) := sel.deregister h.fd refused
    (h, sel', osError res)

/-- Nothing the call could write is different: it only asks the kernel, or it is refused at once, or
the id and the callback it writes are there already. -/
def Harmless (h : Socket) (sel : Selector J) : SocketCall J → Prop
  | .register args =>
    refuses h.selectorId sel.id = true ∨
      h.selectorId = sel.id ∧ sel.eventsMap h.fd = some ⟨args.token, args.job, Ready.empty⟩
  | .reregister _ _ _ | .deregister => True

end Socket

/-! ## Failing calls -/

theorem osError_error {res : Except Errno Unit} {e : SocketError} (h : osError res = .error e) :
    ∃ errno, res = .error errno := by
  cases res with
  | ok =>
    cases h
  | error errno => exact ⟨errno, rfl⟩

theorem reregister_error {sel : Selector J} {fd : RawFd} {token : TokenEntry} {interest : Ready}
    {opts : PollOpt} {refused : Bool} {errno : Errno}
    (h : (sel.reregister fd token interest opts refused).2 = .error errno) :
    (sel.reregister fd token interest opts refused).1 = sel := by
  unfold Selector.reregister at *
  dsimp only at *
  split at h
  next => rfl
  next => cases h

theorem deregister_error {sel : Selector J} {fd : RawFd} {refused : Bool} {errno : Errno}
    (h : (sel.deregister fd refused).2 = .error errno) : (sel.deregister fd refused).1 = sel := by
  unfold Selector.deregister at *
  split at h
  next => rfl
  next => cases h

/-- The kernel has refused the fd, and the callback is in the map. -/
theorem register_error {sel : Selector J} {fd : RawFd} {args : RegisterArgs J} {refused : Bool}
    {errno : Errno}
    (h : (sel.register fd args.token args.interest args.opts args.job refused).2 = .error errno) :
    (sel.register fd args.token args.interest args.opts args.job refused).1 =
      { sel with
        eventsMap := Function.update sel.eventsMap fd (some ⟨args.token, args.job, Ready.empty⟩) } := by
  unfold Selector.register at *
  dsimp only at *
  split at h
  next => rfl
  next => cases h

/-- **When a failed call leaves no trace.** The map, the interest list and the id are as before a
call that fails exactly if the call is harmless. -/
theorem failed_call_traceless_iff (h : Socket) (sel : Selector J) (c : SocketCall J) (refused : Bool)
    (e : SocketError) (herr : (h.call sel refused c).2.2 = .error e) :
    (h.call sel refused c).1 = h ∧ (h.call sel refused c).2.1 = sel ↔ h.Harmless sel c := by
  cases c with
  | reregister token interest opts =>
    obtain ⟨errno, hres⟩ := osError_error herr
    exact ⟨fun _ => trivial, fun _ => ⟨rfl, reregister_error hres⟩⟩
  | deregister =>
    obtain ⟨errno, hres⟩ := osError_error herr
    exact ⟨fun _ => trivial, fun _ => ⟨rfl, deregister_error hres⟩⟩
  | register args =>
    unfold Socket.call Socket.register at *
    unfold Socket.Harmless
    dsimp only at *
    by_cases hrefuses : refuses h.selectorId sel.id = true
    · rw [if_pos hrefuses]
      exact ⟨fun _ => .inl hrefuses, fun _ => ⟨rfl, rfl⟩⟩
    · rw [if_neg hrefuses] at *
      obtain ⟨errno, hres⟩ := osError_error herr
      rw [register_error hres]
      refine ⟨fun ⟨hhandle, hsel⟩ => .inr ⟨?_, ?_⟩, fun hor => ?_⟩
      · exact (congrArg Socket.selectorId hhandle).symm
      · have hmap := congrFun (congrArg Selector.eventsMap hsel) h.fd
        dsimp only at hmap
        rw [Function.update_self] at hmap
        exact hmap.symm
      · obtain ⟨hid, hmap⟩ := hor.resolve_left hrefuses
        refine ⟨?_, ?_⟩
        · rw [← hid]
        · rw [← hmap, Function.update_eq_self]

/-! ## A callback that is replaced by a call that fails -/

section Replaced

/-- A stream on fd 7, and a poll. -/
def stream : Socket := ⟨7, 0⟩

def registerCallback (job : Bool) : SocketCall Bool :=
  .register ⟨⟨.socketEvent, ⟨1⟩⟩, .readable, .edge, job⟩

/-- The second `register` of a stream fails, the fd being registered, and its callback takes the
place of the first one. -/
theorem failed_register_replaces_callback :
    let first := stream.call (.new 1) false (registerCallback false)
    let second := first.1.call first.2.1 false (registerCallback true)
    first.2.2.isOk = true ∧ second.2.2 = .error (.os .exist) ∧
      (first.2.1.eventsMap 7).map JobEntry.job = some false ∧
      (second.2.1.eventsMap 7).map JobEntry.job = some true := by
  decide

/-- The first `register` fails for another reason: the callback of a socket that is not in the
interest list stays in the map, and the socket is bound to the poll. -/
theorem failed_register_traced :
    ¬ ((stream.call (.new 1) true (registerCallback false)).1 = stream ∧
      (stream.call (.new 1) true (registerCallback false)).2.1 = .new 1) := by
  rw [failed_call_traceless_iff stream (.new 1) (registerCallback false) true (.os .refused) rfl]
  rintro (hrefuses | ⟨hid, -⟩)
  · cases hrefuses
  · cases hid

end Replaced

end MyMio

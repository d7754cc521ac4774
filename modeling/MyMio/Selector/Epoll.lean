import Mathlib.Logic.Function.Basic
import MyMio.Event.Ready

/-! # The epoll selector

`src/sys/unix/epoll.rs`. A `Selector` keeps two tables keyed by file descriptor: the kernel's
interest list behind `epfd`, which stores for each fd a mask and 64 bits of user data, and its own
`events_map` from fds to job entries. The kernel is a map that returns the user data it was given:
`ADD` fails when the fd is present, `MOD` and `DEL` when it is absent, and any of them may be refused
for another reason (`refused`).
-/

namespace MyMio
set_option autoImplicit false

universe u

/-! ## Vectors -/

/-- A `Vec` with its capacity: `push` grows a full one as the allocator of the standard library does. -/
structure Vec (α : Type u) where
  items : List α
  capacity : ℕ

namespace Vec
variable {α : Type u}

def withCapacity (c : ℕ) : Vec α := ⟨[], c⟩

def len (v : Vec α) : ℕ := v.items.length

def push (v : Vec α) (x : α) : Vec α where
  items := v.items ++ [x]
  capacity :=
    if v.items.length = v.capacity then max 4 (max (2 * v.capacity) (v.items.length + 1))
    else v.capacity

def clear (v : Vec α) : Vec α := { v with items := [] }

def remove (v : Vec α) (i : ℕ) : Vec α := { v with items := v.items.eraseIdx i }

@[simp] theorem push_items (v : Vec α) (x : α) : (v.push x).items = v.items ++ [x] := rfl

@[simp] theorem clear_items (v : Vec α) : v.clear.items = [] := rfl

end Vec

/-! ## The kernel side -/

/-- `RawFd`, a `c_int`. -/
abbrev RawFd := BitVec 32

structure EpollEvent where
  events : BitVec 32
  u64 : BitVec 64
  deriving DecidableEq, Repr

abbrev EPOLLIN : BitVec 32 := 0x001
abbrev EPOLLPRI : BitVec 32 := 0x002
abbrev EPOLLOUT : BitVec 32 := 0x004
abbrev EPOLLERR : BitVec 32 := 0x008
abbrev EPOLLHUP : BitVec 32 := 0x010
abbrev EPOLLONESHOT : BitVec 32 := 0x40000000
abbrev EPOLLET : BitVec 32 := 0x80000000

inductive Errno
  | exist
  | noEnt
  | refused
  deriving DecidableEq, Repr

abbrev InterestList := RawFd → Option EpollEvent

inductive CtlOp
  | add
  | mod
  | del
  deriving DecidableEq, Repr

def epollCtl (list : InterestList) (op : CtlOp) (fd : RawFd) (info : EpollEvent) (refused : Bool) :
    Except Errno InterestList :=
  if refused then .error .refused
  else
    match op, list fd with
    | .add, some _ => .error .exist
    | .add, none => .ok (Function.update list fd (some info))
    | .mod, none => .error .noEnt
    | .mod, some _ => .ok (Function.update list fd (some info))
    | .del, none => .error .noEnt
    | .del, some _ => .ok (Function.update list fd none)

/-- `fd as u64`. -/
def userDataOfFd (fd : RawFd) : BitVec 64 := fd.signExtend 64

/-- `u64 as usize as i32`. -/
def fdOfUserData (data : BitVec 64) : RawFd := data.setWidth 32

@[simp] theorem fdOfUserData_userDataOfFd (fd : RawFd) : fdOfUserData (userDataOfFd fd) = fd := by
  refine BitVec.eq_of_getLsbD_eq fun i hi => ?_
  have hi64 : i < 64 := by omega
  simp only [fdOfUserData, userDataOfFd, BitVec.getLsbD_setWidth, BitVec.getLsbD_signExtend, hi,
    hi64, decide_true, Bool.true_and, if_true]

/-! ## Masks -/

def ioeventToEpoll (interest : Ready) (opts : PollOpt) : BitVec 32 :=
  let kind : BitVec 32 := 0
  let kind := if interest.isReadable then kind ||| EPOLLIN else kind
  let kind := if interest.isWritable then kind ||| EPOLLOUT else kind
  let kind := if UnixReady.isPriority interest then kind ||| EPOLLPRI else kind
  let kind := if opts.isEdge then kind ||| EPOLLET else kind
  let kind := if opts.isLevel then kind &&& ~~~EPOLLET else kind
  if opts.isOneshot then kind ||| EPOLLONESHOT else kind

/-- The body of `Events::get_ready` on one event's mask. -/
def epollToReady (epoll : BitVec 32) : Ready :=
  let kind := Ready.empty
  let kind := if epoll &&& EPOLLIN ≠ 0 then kind.union Ready.readable else kind
  let kind := if epoll &&& EPOLLOUT ≠ 0 then kind.union Ready.writable else kind
  let kind := if epoll &&& EPOLLPRI ≠ 0 then
      (kind.union Ready.readable).union UnixReady.priority
    else kind
  let kind := if epoll &&& EPOLLERR ≠ 0 then kind.union UnixReady.error else kind
  if epoll &&& EPOLLHUP ≠ 0 then kind.union UnixReady.hup else kind

/-! ## The event buffer -/

structure Events (J : Type u) where
  events : Vec EpollEvent
  entries : Vec (JobEntry J)

namespace Events
variable {J : Type u}

def withCapacity (c : ℕ) : Events J := ⟨Vec.withCapacity c, Vec.withCapacity c⟩

def len (evts : Events J) : ℕ := evts.entries.len

def capacity (evts : Events J) : ℕ := evts.entries.capacity

def clear (evts : Events J) : Events J := ⟨evts.events.clear, evts.entries.clear⟩

def pushEvent (evts : Events J) (event : Event) (job : J) : Events J where
  events := evts.events.push
    ⟨ioeventToEpoll event.kind PollOpt.empty, event.token.token.val⟩
  entries := evts.entries.push ⟨event.token, job, Ready.empty⟩

end Events

/-! ## The selector -/

structure Selector (J : Type u) where
  id : Usize
  interestList : InterestList
  eventsMap : RawFd → Option (JobEntry J)

namespace Selector
variable {J : Type u}

def new (id : Usize) : Selector J := ⟨id, fun _ => none, fun _ => none⟩

/-- `register`: the map entry is written first, then the kernel is asked. -/
def register (sel : Selector J) (fd : RawFd) (token : TokenEntry) (interests : Ready) (opts : PollOpt)
    (job : J) (refused : Bool) : Selector J × Except Errno Unit :=
  let info : EpollEvent := ⟨ioeventToEpoll interests opts, userDataOfFd fd⟩
  let sel := { sel with
    eventsMap := Function.update sel.eventsMap fd (some ⟨token, job, Ready.empty⟩) }
  match epollCtl sel.interestList .add fd info refused with
  | .error e => (sel, .error e)
  | .ok list => ({ sel with interestList := list }, .ok ())

/-- `reregister`: the user data becomes the token's number, and the map entry stays as it is. -/
def reregister (sel : Selector J) (fd : RawFd) (token : TokenEntry) (interests : Ready)
    (opts : PollOpt) (refused : Bool) : Selector J × Except Errno Unit :=
  let info : EpollEvent := ⟨ioeventToEpoll interests opts, token.token.val⟩
  match epollCtl sel.interestList .mod fd info refused with
  | .error e => (sel, .error e)
  | .ok list => ({ sel with interestList := list }, .ok ())

def deregister (sel : Selector J) (fd : RawFd) (refused : Bool) : Selector J × Except Errno Unit :=
  match epollCtl sel.interestList .del fd ⟨0, 0⟩ refused with
  | .error e => (sel, .error e)
  | .ok list =>
    ({ sel with interestList := list, eventsMap := Function.update sel.eventsMap fd none }, .ok ())

/-- What the loop of `select` carries. -/
structure Scan (J : Type u) where
  eventsMap : RawFd → Option (JobEntry J)
  entries : Vec (JobEntry J)
  notifyIdx : ℕ
  hasNotify : Bool

/-- One turn of the loop, at event number `i`. -/
def scanEvent (acc : Scan J) (i : ℕ) (event : EpollEvent) : Scan J :=
  let fd := fdOfUserData event.u64
  match acc.eventsMap fd with
  | none => acc
  | some jobEntry =>
    if jobEntry.tokenEntry.ttype = .notifyEvent then
      { acc with notifyIdx := i, hasNotify := true }
    else
      let jobEntry := { jobEntry with ready := epollToReady event.events }
      { acc with
        eventsMap := Function.update acc.eventsMap fd (some jobEntry)
        entries := acc.entries.push jobEntry }

/-- The loop of `select` over the events from number `i` on. -/
def scan (acc : Scan J) : ℕ → List EpollEvent → Scan J
  | _, [] => acc
  | i, event :: events => scan (scanEvent acc i event) (i + 1) events

/-- `select`, once `epoll_wait` has filled the buffer with `answer`. -/
def select (sel : Selector J) (evts : Events J) (answer : List EpollEvent) :
    Selector J × Events J × Bool :=
  let evts := evts.clear
  let events : Vec EpollEvent := { evts.events with items := answer }
  let acc := scan ⟨sel.eventsMap, evts.entries, 0, false⟩ 0 answer
  let sel := { sel with eventsMap := acc.eventsMap }
  if acc.hasNotify then (sel, ⟨events.remove acc.notifyIdx, acc.entries⟩, true)
  else (sel, ⟨events, acc.entries⟩, false)

end Selector

end MyMio

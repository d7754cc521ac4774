import Mathlib.Tactic.Common

/-! # Readiness sets, poll options and job entries

`src/event_imp.rs`, `src/token.rs` and `src/sys/unix/ready.rs`. The target is 64-bit: `usize` is a
64-bit word and `usize`/`i64`/`u64` casts keep the bits. A `Ready` or a `PollOpt` is the word it
wraps; nothing restricts it to the named flags.

A `Job` is a shared closure; the model never looks inside one, so it is a type parameter `J`.
-/

namespace MyMio
set_option autoImplicit false

universe u

/-- `usize` on the 64-bit target. -/
abbrev Usize := BitVec 64

/-! ## Readiness -/

structure Ready where
  bits : Usize
  deriving DecidableEq, Repr

namespace Ready

def empty : Ready := ⟨0⟩
def readable : Ready := ⟨0b00001⟩
def writable : Ready := ⟨0b00010⟩
def error : Ready := ⟨0b00100⟩
def hup : Ready := ⟨0b01000⟩

def isEmpty (r : Ready) : Bool := r == empty

/-- `self | other`. -/
def union (r other : Ready) : Ready := ⟨r.bits ||| other.bits⟩

/-- `self & other`. -/
def inter (r other : Ready) : Ready := ⟨r.bits &&& other.bits⟩

def contains (r other : Ready) : Bool := r.inter other == other

def isReadable (r : Ready) : Bool := r.contains readable
def isWritable (r : Ready) : Bool := r.contains writable
def isError (r : Ready) : Bool := r.contains error
def isHup (r : Ready) : Bool := r.contains hup

end Ready

def readyAsUsize (events : Ready) : Usize := events.bits

def readyFromUsize (events : Usize) : Ready := ⟨events⟩

/-! ## The unix extensions of `Ready` -/

namespace UnixReady

def ERROR : Usize := 0b000100
def HUP : Usize := 0b001000
def AIO : Usize := 0b000000
def LIO : Usize := 0b101000
def PRI : Usize := 0b1001000
def READY_ALL : Usize := ERROR ||| HUP ||| AIO ||| LIO ||| PRI

def hup : Ready := readyFromUsize HUP
def error : Ready := readyFromUsize ERROR
def priority : Ready := readyFromUsize PRI

def isPriority (r : Ready) : Bool := r.contains (readyFromUsize PRI)

end UnixReady

def Ready.all : Ready := ⟨Ready.readable.bits ||| Ready.writable.bits ||| UnixReady.READY_ALL⟩

/-! ## Poll options -/

structure PollOpt where
  bits : Usize
  deriving DecidableEq, Repr

namespace PollOpt

def empty : PollOpt := ⟨0⟩
def edge : PollOpt := ⟨0b0001⟩
def level : PollOpt := ⟨0b0010⟩
def oneshot : PollOpt := ⟨0b0100⟩

def inter (o other : PollOpt) : PollOpt := ⟨o.bits &&& other.bits⟩

def contains (o other : PollOpt) : Bool := o.inter other == other

def isEdge (o : PollOpt) : Bool := o.contains edge
def isLevel (o : PollOpt) : Bool := o.contains level
def isOneshot (o : PollOpt) : Bool := o.contains oneshot

end PollOpt

def optAsUsize (opt : PollOpt) : Usize := opt.bits

def optFromUsize (opt : Usize) : PollOpt := ⟨opt⟩

/-! ## Tokens, events and jobs -/

structure Token where
  val : Usize
  deriving DecidableEq, Repr

inductive TokenType
  | socketEvent
  | notifyEvent
  | timersEvent
  | jobsEvent
  | tokenEvent
  | acceptEvent
  | otherEvent
  deriving DecidableEq, Repr

structure TokenEntry where
  ttype : TokenType
  token : Token
  deriving DecidableEq, Repr

structure Event where
  kind : Ready
  token : TokenEntry
  deriving DecidableEq, Repr

/-- What the poller hands to the event loop: whose event it is, the callback, and its argument. -/
structure JobEntry (J : Type u) where
  tokenEntry : TokenEntry
  job : J
  ready : Ready
  deriving DecidableEq, Repr

end MyMio

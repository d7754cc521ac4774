import Mathlib.Algebra.Group.Nat.Defs
import Mathlib.Data.Nat.Bits
import Mathlib.Data.List.MinMax
import Mathlib.Logic.Function.Basic
import Mathlib.Tactic.Common
import MyMio.Event.Ready

/-! # The hashed timer wheel

`src/timer.rs`. A `Timer` keeps its entries in a slab and threads each through the doubly linked list
of the wheel slot its tick falls into; `EMPTY` ends a list. `tick` and `next` are the cursor of
`poll_to`: the slot being scanned and the entry it looks at next.

A tick, a `u64`, is a natural number here: an addition that would overflow, an index into a vacant slab key
and a division by zero are panics, and a call that panics is `none`. The key that `Slab::insert`
picks is an argument of the calls that insert, any vacant key will do. `start.elapsed()` is an
argument of the calls that read the clock.
-/

namespace MyMio
set_option autoImplicit false

universe u

/-! ## Durations and ticks -/

/-- The largest `u64`. -/
def U64_MAX : ℕ := 2 ^ 64 - 1

/-- `Duration`: whole seconds and the nanoseconds beyond them. -/
structure Duration where
  secs : ℕ
  subsecNanos : ℕ
  secs_le : secs ≤ U64_MAX
  subsecNanos_lt : subsecNanos < 1000000000
  deriving DecidableEq, Repr

namespace Duration

def fromMillis (ms : ℕ) (h : ms ≤ U64_MAX) : Duration where
  secs := ms / 1000
  subsecNanos := ms % 1000 * 1000000
  secs_le := (Nat.div_le_self ms 1000).trans h
  subsecNanos_lt := by
    have := Nat.mod_lt ms (by decide : 0 < 1000)
    omega

/-- `Duration + Duration`, which panics on overflow. -/
def add (d e : Duration) : Option Duration :=
  let nanos := d.subsecNanos + e.subsecNanos
  if h : d.secs + e.secs + nanos / 1000000000 ≤ U64_MAX then
    some ⟨d.secs + e.secs + nanos / 1000000000, nanos % 1000000000, h, Nat.mod_lt _ (by decide)⟩
  else none

end Duration

def saturatingAdd (a b : ℕ) : ℕ := min (a + b) U64_MAX

def saturatingMul (a b : ℕ) : ℕ := min (a * b) U64_MAX

/-- `convert::millis`: a started millisecond counts as a whole one. -/
def millis (duration : Duration) : ℕ :=
  saturatingAdd (saturatingMul duration.secs 1000) ((duration.subsecNanos + 1000000 - 1) / 1000000)

abbrev TICK_MAX : ℕ := U64_MAX

/-- `a + 1` on `u64`. -/
def checkedSucc (a : ℕ) : Option ℕ := if a < U64_MAX then some (a + 1) else none

theorem checkedSucc_eq_some {a b : ℕ} (h : checkedSucc a = some b) : a < U64_MAX ∧ b = a + 1 := by
  unfold checkedSucc at h
  split at h
  · exact ⟨‹_›, (Option.some.inj h).symm⟩
  · cases h

def nextPowerOfTwo (n : ℕ) : ℕ := if n ≤ 1 then 1 else 2 ^ (Nat.log2 (n - 1) + 1)

theorem nextPowerOfTwo_pos (n : ℕ) : 0 < nextPowerOfTwo n := by
  unfold nextPowerOfTwo
  split
  · exact Nat.one_pos
  · exact Nat.two_pow_pos _

def durationToTick (elapsed : Duration) (tickMs : ℕ) : Option ℕ :=
  if tickMs = 0 then none else some (saturatingAdd (millis elapsed) (tickMs / 2) / tickMs)

/-! ## Entries -/

/-- The token that ends a list. -/
def EMPTY : Token := ⟨BitVec.allOnes 64⟩

structure EntryLinks where
  tick : ℕ
  prev : Token
  next : Token
  deriving DecidableEq, Repr

structure Entry (T : Type u) where
  state : T
  links : EntryLinks
  deriving DecidableEq, Repr

def Entry.new {T : Type u} (state : T) (tick : ℕ) (next : Token) : Entry T :=
  ⟨state, ⟨tick, EMPTY, next⟩⟩

/-- The handle `set_timeout` returns. -/
structure Timeout where
  token : Token
  tick : ℕ
  deriving DecidableEq, Repr

abbrev Slab (α : Type u) := Token → Option α

/-- `self.entries[x].links.prev = p`. -/
def setPrev {T : Type u} (entries : Slab (Entry T)) (x p : Token) : Option (Slab (Entry T)) :=
  (entries x).map fun e =>
    Function.update entries x (some { e with links := { e.links with prev := p } })

/-- `self.entries[x].links.next = q`. -/
def setNext {T : Type u} (entries : Slab (Entry T)) (x q : Token) : Option (Slab (Entry T)) :=
  (entries x).map fun e =>
    Function.update entries x (some { e with links := { e.links with next := q } })

/-- What `insert` does to the old head of a list, if there is one. -/
def linkBack {T : Type u} (entries : Slab (Entry T)) (x p : Token) : Option (Slab (Entry T)) :=
  if x ≠ EMPTY then setPrev entries x p else some entries

/-! ## The wheel -/

structure WheelEntry where
  nextTick : ℕ
  head : Token
  deriving DecidableEq, Repr

/-- The vector of slots with the mask that turns a tick into an index of it. -/
structure Wheel where
  slots : List WheelEntry
  mask : ℕ
  length_eq : slots.length = mask + 1

namespace Wheel

def slotFor (w : Wheel) (tick : ℕ) : ℕ := w.mask &&& tick

/-- `self.wheel[slot]`; the slots asked for are in bounds (`slotFor_lt`). -/
def slot (w : Wheel) (s : ℕ) : WheelEntry := w.slots.getD s ⟨TICK_MAX, EMPTY⟩

def set (w : Wheel) (s : ℕ) (e : WheelEntry) : Wheel where
  slots := w.slots.set s e
  mask := w.mask
  length_eq := by rw [List.length_set, w.length_eq]

/-- `self.wheel[slot].head = head`. -/
def setHead (w : Wheel) (s : ℕ) (head : Token) : Wheel := w.set s { w.slot s with head := head }

/-- `self.wheel[slot].next_tick = tick`. -/
def setNextTick (w : Wheel) (s : ℕ) (tick : ℕ) : Wheel :=
  w.set s { w.slot s with nextTick := tick }

/-- The least `next_tick` of the wheel. -/
def minNextTick (w : Wheel) : Option ℕ := (w.slots.map WheelEntry.nextTick).min?

theorem slotFor_lt (w : Wheel) (tick : ℕ) : w.slotFor tick < w.slots.length := by
  have hle : w.slotFor tick ≤ w.mask := Nat.and_le_left
  rw [w.length_eq]
  omega

theorem slot_set (w : Wheel) {s : ℕ} (hs : s < w.slots.length) (e : WheelEntry) (s' : ℕ) :
    (w.set s e).slot s' = if s' = s then e else w.slot s' := by
  simp only [slot, set, List.getD_eq_getElem?_getD, List.getElem?_set]
  by_cases h : s = s'
  · subst h
    simp [hs]
  · have h' : s' ≠ s := fun e => h e.symm
    simp [h, h']

@[simp] theorem set_mask (w : Wheel) (s : ℕ) (e : WheelEntry) : (w.set s e).mask = w.mask := rfl

@[simp] theorem slotFor_set (w : Wheel) (s : ℕ) (e : WheelEntry) (tick : ℕ) :
    (w.set s e).slotFor tick = w.slotFor tick := rfl

@[simp] theorem length_set (w : Wheel) (s : ℕ) (e : WheelEntry) :
    (w.set s e).slots.length = w.slots.length := List.length_set

end Wheel

/-! ## The timer -/

structure Timer (T : Type u) where
  tickMs : ℕ
  entries : Slab (Entry T)
  wheel : Wheel
  tick : ℕ
  next : Token

namespace Timer
variable {T : Type u}

def slotFor (t : Timer T) (tick : ℕ) : ℕ := t.wheel.slotFor tick

def new (tickMs numSlots : ℕ) : Timer T where
  tickMs := tickMs
  entries := fun _ => none
  wheel :=
    { slots := List.replicate (nextPowerOfTwo numSlots) ⟨TICK_MAX, EMPTY⟩
      mask := nextPowerOfTwo numSlots - 1
      length_eq := by
        rw [List.length_replicate, Nat.sub_add_cancel (nextPowerOfTwo_pos numSlots)] }
  tick := 0
  next := EMPTY

/-- `insert`, which also hands the tick of the timeout to `schedule_readiness`. -/
def insert (t : Timer T) (tick : ℕ) (state : T) (key : Token) : Option (Timer T × Timeout) :=
  if (t.entries key).isSome ∨ key = EMPTY then none
  else
    let slot := t.slotFor tick
    let curr := t.wheel.slot slot
    let entries := Function.update t.entries key (some (Entry.new state tick curr.head))
    (linkBack entries curr.head key).map fun entries =>
      ({ t with entries := entries, wheel := t.wheel.set slot ⟨min tick curr.nextTick, key⟩ },
        ⟨key, tick⟩)

/-- The tick `set_timeout_at` asks for: one that is past is moved to the next one. -/
def clampTick (t : Timer T) (tick : ℕ) : Option ℕ :=
  if tick < t.tick then checkedSucc t.tick else some tick

def setTimeoutAt (t : Timer T) (delayFromStart : Duration) (state : T) (key : Token) :
    Option (Timer T × Timeout) :=
  match durationToTick delayFromStart t.tickMs with
  | none => none
  | some tick =>
    match t.clampTick tick with
    | none => none
    | some tick => t.insert tick state key

def setTimeout (t : Timer T) (elapsed delayFromNow : Duration) (state : T) (key : Token) :
    Option (Timer T × Timeout) :=
  match elapsed.add delayFromNow with
  | none => none
  | some delayFromStart => t.setTimeoutAt delayFromStart state key

/-- The first half of `unlink`: what points to the entry from behind points past it. -/
def unlinkBehind (t : Timer T) (links : EntryLinks) : Option (Timer T) :=
  if links.prev = EMPTY then
    some { t with wheel := t.wheel.setHead (t.slotFor links.tick) links.next }
  else (setNext t.entries links.prev links.next).map fun entries => { t with entries := entries }

/-- The second half of `unlink`: what points to the entry from ahead points past it, and the cursor
moves on. -/
def unlinkAhead (t : Timer T) (links : EntryLinks) (token : Token) : Option (Timer T) :=
  if links.next ≠ EMPTY then
    (setPrev t.entries links.next links.prev).map fun entries =>
      { t with entries := entries, next := if token = t.next then links.next else t.next }
  else some { t with next := if token = t.next then EMPTY else t.next }

def unlink (t : Timer T) (links : EntryLinks) (token : Token) : Option (Timer T) :=
  match t.unlinkBehind links with
  | none => none
  | some t => t.unlinkAhead links token

/-- `unlink` followed by `entries.remove`. -/
def take (t : Timer T) (links : EntryLinks) (token : Token) : Option (Timer T × Entry T) :=
  match t.unlink links token with
  | none => none
  | some t => (t.entries token).map fun e =>
      ({ t with entries := Function.update t.entries token none }, e)

def cancelTimeout (t : Timer T) (timeout : Timeout) : Option (Timer T × Option T) :=
  match t.entries timeout.token with
  | none => some (t, none)
  | some e =>
    if e.links.tick ≠ timeout.tick then some (t, none)
    else (t.take e.links timeout.token).map fun (t, e) => (t, some e.state)

/-- `poll_to` at the end of a list: the cursor goes to the head of the slot of the next tick. -/
def enterSlot (t : Timer T) (tick : ℕ) : Timer T :=
  let slot := t.slotFor tick
  let next := (t.wheel.slot slot).head
  { t with
    tick := tick
    next := next
    wheel := if next = EMPTY then t.wheel.setNextTick slot TICK_MAX else t.wheel }

/-- `poll_to` at an entry: the cached tick of a slot is computed anew from its head on. -/
def resetAtHead (t : Timer T) (curr : Token) : Timer T :=
  let slot := t.slotFor t.tick
  { t with
    wheel := if curr = (t.wheel.slot slot).head then t.wheel.setNextTick slot TICK_MAX else t.wheel }

/-- `poll_to` at an entry that is not due. -/
def stepOver (t : Timer T) (links : EntryLinks) : Timer T :=
  let slot := t.slotFor t.tick
  { t with
    wheel := t.wheel.setNextTick slot (min (t.wheel.slot slot).nextTick links.tick)
    next := links.next }

/-- One turn of the loop of `poll_to`; with an entry when the loop returns it. -/
def pollTurn (t : Timer T) : Option (Timer T × Option (Entry T)) :=
  let curr := t.next
  if curr = EMPTY then (checkedSucc t.tick).map fun tick => (t.enterSlot tick, none)
  else
    let t := t.resetAtHead curr
    match t.entries curr with
    | none => none
    | some e =>
      if e.links.tick ≤ t.tick then (t.take e.links curr).map fun (t, e) => (t, some e)
      else some (t.stepOver e.links, none)

/-- The loop of `poll_to`, for at most `fuel` turns. -/
def pollLoop : ℕ → Timer T → ℕ → Option (Timer T × Option (Entry T))
  | 0, _, _ => none
  | fuel + 1, t, target =>
    if t.tick ≤ target then
      match t.pollTurn with
      | none => none
      | some (t, some e) => some (t, some e)
      | some (t, none) => pollLoop fuel t target
    else some (t, none)

/-- `poll_to`, with the entry whose state it returns. -/
def pollTo (fuel : ℕ) (t : Timer T) (target : ℕ) : Option (Timer T × Option (Entry T)) :=
  pollLoop fuel t (if target < t.tick then t.tick else target)

def poll (fuel : ℕ) (t : Timer T) (elapsed : Duration) : Option (Timer T × Option T) :=
  match durationToTick elapsed t.tickMs with
  | none => none
  | some target => (t.pollTo fuel target).map fun (t, e) => (t, e.map Entry.state)

def nextTick (t : Timer T) : Option (Option ℕ) :=
  if t.next ≠ EMPTY then
    (t.entries t.next).map fun e =>
      if (t.wheel.slot (t.slotFor e.links.tick)).nextTick = t.tick then some t.tick
      else t.wheel.minNextTick
  else some t.wheel.minNextTick

end Timer

/-! ## The builder -/

namespace TimerBuilder

end TimerBuilder

end MyMio

import Mathlib.Algebra.Group.Nat.Defs
import Mathlib.Logic.Function.Basic
import Mathlib.Tactic.Common

/-! # The lock word of a poll

`Poll::poll1` in `src/poll.rs`: any number of threads, each in one call or none. The steps are the
atomic accesses to `lock_state` and the operations on the mutex and the condition variable. A thread
that waits can come back at any moment, be it notified, timed out or woken for no reason;
`notify_one` picks any thread that waits and has not been picked.

Bit 0 of `lock_state` is set while a thread is in the critical section, and the rest counts the
threads that wait for it. Timeouts are in nanoseconds. `poll_interruptible` differs in `poll2` only.
-/

namespace MyMio
set_option autoImplicit false

universe u

/-- Where a thread is in `poll1`: the access it is about to make. -/
inductive Poll1
  | idle
  /-- about to `compare_exchange(0, 1)` -/
  | fast (timeout : Option ℕ)
  /-- about to lock the mutex, `curr` being what the last access returned -/
  | lock (timeout : Option ℕ) (curr : ℕ)
  /-- about to take bit 0, and to take itself off the count if it is counted -/
  | acquire (timeout : Option ℕ) (curr : ℕ) (inc : Bool)
  /-- about to count itself -/
  | register (timeout : Option ℕ) (curr : ℕ)
  /-- timed out: about to take itself off the count -/
  | leave
  /-- about to wait -/
  | wait (timeout : Option ℕ)
  | waiting (timeout : Option ℕ) (notified : Bool)
  /-- back from the wait: about to lock the mutex again -/
  | relock (timeout : Option ℕ)
  /-- about to load `lock_state` -/
  | reload (timeout : Option ℕ)
  /-- about to drop the guard, and to enter `poll2` or to return -/
  | unlock (enters : Bool)
  | poll2
  /-- about to `fetch_and(!1)` -/
  | release
  /-- about to lock the mutex in order to notify -/
  | notifyLock
  | notify
  | notifyUnlock
  deriving DecidableEq, Repr

/-- `timeout` once `wait_timeout` has returned. -/
def remaining (elapsed : ℕ) : Option ℕ → Option ℕ
  | none => none
  | some rest => if rest ≤ elapsed then some 0 else some (rest - elapsed)

/-- The loop of `poll1`, at its head. -/
def examine (timeout : Option ℕ) (inc : Bool) (curr : ℕ) : Poll1 :=
  if curr &&& 1 = 0 then .acquire timeout curr inc
  else if timeout = some 0 then if inc then .leave else .unlock false
  else if inc then .wait timeout
  else .register timeout curr

structure PollLock (ι : Type u) where
  lockState : ℕ
  mutex : Option ι
  /-- the threads that wait and have not been notified -/
  condvar : List ι
  pc : ι → Poll1

inductive Poll1Op (ι : Type u)
  | call (i : ι) (timeout : Option ℕ)
  | step (i : ι)
  /-- a thread comes back from the wait -/
  | wake (i : ι)
  /-- it has the mutex again -/
  | relock (i : ι) (elapsed : ℕ)
  /-- `notify_one`, with the thread it picks if there is one -/
  | notify (i j : ι)
  deriving DecidableEq, Repr

namespace PollLock
variable {ι : Type u}

def new : PollLock ι := ⟨0, none, [], fun _ => .idle⟩

variable [DecidableEq ι]

def goto (s : PollLock ι) (i : ι) (p : Poll1) : PollLock ι :=
  { s with pc := Function.update s.pc i p }

/-- `lock().unwrap()`, possible when nobody has the mutex. -/
def locked (s : PollLock ι) (i : ι) (p : Poll1) : Option (PollLock ι) :=
  if s.mutex = none then some { s.goto i p with mutex := some i } else none

def step (s : PollLock ι) (i : ι) : Option (PollLock ι) :=
  match s.pc i with
  | .fast timeout =>
    if s.lockState = 0 then some { s.goto i .poll2 with lockState := 1 }
    else some (s.goto i (.lock timeout s.lockState))
  | .lock timeout curr => s.locked i (examine timeout false curr)
  | .acquire timeout curr inc =>
    let next := if inc then (curr ||| 1) - 2 else curr ||| 1
    if s.lockState = curr then some { s.goto i (.unlock true) with lockState := next }
    else some (s.goto i (examine timeout inc s.lockState))
  | .register timeout curr =>
    -- `checked_add` on a 64-bit word
    if curr + 2 < 2 ^ 64 then
      if s.lockState = curr then some { s.goto i (.wait timeout) with lockState := curr + 2 }
      else some (s.goto i (examine timeout false s.lockState))
    else none
  | .leave => some { s.goto i (.unlock false) with lockState := s.lockState - 2 }
  | .wait timeout =>
    some { s.goto i (.waiting timeout false) with mutex := none, condvar := s.condvar ++ [i] }
  | .reload timeout => some (s.goto i (examine timeout true s.lockState))
  | .unlock enters => some { s.goto i (if enters then .poll2 else .idle) with mutex := none }
  | .poll2 => some (s.goto i .release)
  | .release =>
    -- `fetch_and(!1)`
    some { s.goto i (if s.lockState = 1 then .idle else .notifyLock) with
      lockState := s.lockState / 2 * 2 }
  | .notifyLock => s.locked i .notify
  | .notifyUnlock => some { s.goto i .idle with mutex := none }
  | .idle | .waiting _ _ | .relock _ | .notify => none

end PollLock

variable {ι : Type u} [DecidableEq ι]

def poll1Step (s : PollLock ι) : Poll1Op ι → Option (PollLock ι)
  | .call i timeout =>
    match s.pc i with
    | .idle => some (s.goto i (.fast timeout))
    | _ => none
  | .step i => s.step i
  | .wake i =>
    match s.pc i with
    | .waiting timeout _ =>
      some { s.goto i (.relock timeout) with condvar := s.condvar.erase i }
    | _ => none
  | .relock i elapsed =>
    match s.pc i with
    | .relock timeout => s.locked i (.reload (remaining elapsed timeout))
    | _ => none
  | .notify i j =>
    match s.pc i with
    | .notify =>
      if s.condvar = [] then some (s.goto i .notifyUnlock)
      else if j ∈ s.condvar then
        match s.pc j with
        | .waiting timeout _ =>
          some { (s.goto j (.waiting timeout true)).goto i .notifyUnlock with
            condvar := s.condvar.erase j }
        | _ => none
      else none
    | _ => none

end MyMio

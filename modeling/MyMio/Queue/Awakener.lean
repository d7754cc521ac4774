import MyMio.Queue.Sleep

/-! # The edge-triggered awakener

`Poll::new` registers the reader of the awakener's pipe with `PollOpt::edge()`. epoll reports it once
after a write, and not again until another one; a byte that is left in the pipe is not reported by
itself. So `Awakener::cleanup` reads until nothing is left, whatever is written meanwhile.

Outside of `cleanup` a pipe that holds bytes is on epoll's ready list (`Awakening.Heard`). A poller
that sleeps in `select` therefore returns from it once the producer that found the sleep marker has
written (`sleeping_poller_is_told`).
-/

namespace MyMio
set_option autoImplicit false

open BrokenQueue StepSystem

universe u v

/-- The poller with its awakener; `raised` while epoll has the reader of the pipe on its ready list. -/
structure Awakening (ι : Type v) (α : Type u) where
  polling : Polling ι α
  raised : Bool

inductive AwakeningOp (ι : Type v) (α : Type u)
  /-- a step in which epoll does not report the awakener; `news` when epoll counts a write to a pipe that
  holds bytes already -/
  | step (op : PollingOp ι α) (news : Bool)
  /-- `select` returns, and one of the events is the awakener's -/
  | report (len : ℕ)
  /-- epoll looks at the pipe and finds it empty -/
  | lapse
  deriving DecidableEq, Repr

variable {ι : Type v} {α : Type u} [DecidableEq ι] [DecidableEq α]

/-- A byte is written into the pipe. -/
def Polling.writes (s : Polling ι α) : PollingOp ι α → Bool
  | .producer i wouldBlock => decide (s.queue.producers i = .wakeup) && !wouldBlock
  | _ => false

/-- `select` has seen a `NotifyEvent`, as which only the awakener is registered. -/
def PollingOp.notified : PollingOp ι α → Bool
  | .selected (.ok notify _) => notify
  | _ => false

namespace Awakening

def new : Awakening ι α := ⟨.new, false⟩

end Awakening

def awakeningStep (s : Awakening ι α) : AwakeningOp ι α → Option (Awakening ι α)
  | .step op news =>
    if op.notified then none
    else
      (pollingStep s.polling op).map fun polling =>
        ⟨polling, s.raised || s.polling.writes op && (decide (s.polling.pipe = 0) || news)⟩
  | .report len =>
    if s.raised = true ∧ 0 < s.polling.pipe then
      (pollingStep s.polling (.selected (.ok true len))).map fun polling => ⟨polling, false⟩
    else none
  | .lapse => if s.polling.pipe = 0 then some { s with raised := false } else none

/-- `PollsUnqueued`, under epoll. -/
def AwakensUnqueued (s : Awakening ι α) : AwakeningOp ι α → Prop
  | .step op _ => PollsUnqueued s.polling op
  | _ => True

/-! ## The pipe -/

def Poller.cleaning : Poller α → Bool
  | .cleanup _ _ => true
  | _ => false

def Polling.Cleaning (s : Polling ι α) : Prop := s.poller.cleaning = true

section Pipe
variable {s s' : Polling ι α} {call : Call} {len : ℕ} {limit : Option (Ptr α)}

theorem pollLoop_pipe (hs : s.pollLoop call len limit = some s') : s'.pipe = s.pipe := by
  unfold Polling.pollLoop at hs
  split at hs
  · obtain ⟨q, -, rfl⟩ := Option.map_eq_some_iff.mp hs
    rfl
  · obtain rfl := Option.some.inj hs
    rfl

theorem pollQueue_pipe (hs : s.pollQueue call len = some s') : s'.pipe = s.pipe := by
  unfold Polling.pollQueue at hs
  split at hs
  · obtain ⟨q, -, rfl⟩ := Option.map_eq_some_iff.mp hs
    rfl
  · exact pollLoop_pipe hs

theorem poll2_pipe {timeout : Option ℕ} (hs : s.poll2 call timeout = some s') : s'.pipe = s.pipe := by
  unfold Polling.poll2 at hs
  split at hs
  · obtain rfl := Option.some.inj hs
    rfl
  · obtain ⟨q, -, rfl⟩ := Option.map_eq_some_iff.mp hs
    rfl

theorem selected_pipe {timeout : Option ℕ} {res : SelectResult}
    (hs : s.selected call timeout res = some s') : s'.pipe = s.pipe := by
  cases res with
  | ok notify len =>
    cases notify with
    | true =>
      obtain rfl := Option.some.inj hs
      rfl
    | false => exact pollQueue_pipe hs
  | interrupted elapsed =>
    simp only [Polling.selected] at hs
    split at hs
    · obtain rfl := Option.some.inj hs
      rfl
    · split at hs
      · split at hs
        · exact pollQueue_pipe hs
        · obtain rfl := Option.some.inj hs
          rfl
      · obtain rfl := Option.some.inj hs
        rfl
  | failed =>
    obtain rfl := Option.some.inj hs
    rfl

theorem dequeued_pipe {requeue readiness : Bool} {d : Dequeue α}
    (hs : s.dequeued call len limit requeue readiness d = some s') : s'.pipe = s.pipe := by
  cases d with
  | data ptr =>
    cases ptr with
    | data a =>
      cases requeue with
      | true =>
        obtain ⟨q, -, rfl⟩ := Option.map_eq_some_iff.mp hs
        rfl
      | false => exact pollLoop_pipe hs
    | _ => cases hs
  | _ =>
    obtain rfl := Option.some.inj hs
    rfl

/-- A producer fills the pipe by a write only, and leaves the poller where it is. -/
theorem producerStep_pipe {i : ι} {wouldBlock : Bool} (hs : s.producerStep i wouldBlock = some s') :
    (s'.pipe ≤ s.pipe ∨ s.writes (.producer i wouldBlock) = true) ∧ s'.poller = s.poller := by
  unfold Polling.producerStep at hs
  split at hs
  · rename_i hwakeup
    split at hs
    · cases hs
    · obtain ⟨q, -, rfl⟩ := Option.map_eq_some_iff.mp hs
      refine ⟨?_, rfl⟩
      cases wouldBlock with
      | true => exact .inl le_rfl
      | false => exact .inr (by simp [Polling.writes, hwakeup])
  · obtain ⟨q, -, rfl⟩ := Option.map_eq_some_iff.mp hs
    exact ⟨.inl le_rfl, rfl⟩

/-- **The pipe in one step.** Only a write fills it, and `cleanup` leaves it empty. -/
theorem pollingStep_pipe {op : PollingOp ι α} (hs : pollingStep s op = some s') :
    (s'.pipe ≤ s.pipe ∨ s.writes op = true) ∧ (s.Cleaning → s'.Cleaning ∨ s'.pipe = 0) := by
  have still : s'.pipe = s.pipe → ¬ s.Cleaning →
      (s'.pipe ≤ s.pipe ∨ s.writes op = true) ∧ (s.Cleaning → s'.Cleaning ∨ s'.pipe = 0) :=
    fun hpipe hnot => ⟨.inl hpipe.le, fun h => absurd h hnot⟩
  have elsewhere : ∀ p, s.poller = p → p.cleaning = false → ¬ s.Cleaning := by
    rintro p rfl hnot hcleaning
    exact absurd (hnot.symm.trans hcleaning) (by decide)
  unfold pollingStep at hs
  split at hs
  · obtain ⟨q, -, rfl⟩ := Option.map_eq_some_iff.mp hs
    exact ⟨.inl le_rfl, fun h => .inl h⟩
  · obtain ⟨hpipe, hpoller⟩ := producerStep_pipe hs
    exact ⟨hpipe, fun h => .inl (by
      unfold Polling.Cleaning
      rw [hpoller]
      exact h)⟩
  · obtain ⟨q, -, rfl⟩ := Option.map_eq_some_iff.mp hs
    exact ⟨.inl le_rfl, fun h => .inl h⟩
  · rename_i hp
    exact still (poll2_pipe hs) (elsewhere _ hp rfl)
  · rename_i hp _
    obtain rfl := Option.some.inj hs
    exact still rfl (elsewhere _ hp rfl)
  · rename_i hp
    exact still (selected_pipe hs) (elsewhere _ hp rfl)
  · rename_i hp
    split at hs
    · obtain rfl := Option.some.inj hs
      refine ⟨.inl (Nat.sub_le _ _), fun _ => .inl ?_⟩
      unfold Polling.Cleaning
      rw [hp]
      rfl
    · rename_i hempty
      have hpipe := pollQueue_pipe hs
      exact ⟨.inl hpipe.le, fun _ => .inr (hpipe.trans (Nat.eq_zero_of_not_pos hempty))⟩
  · rename_i hp _
    obtain rfl := Option.some.inj hs
    exact still rfl (elsewhere _ hp rfl)
  · rename_i hp _
    exact still (dequeued_pipe hs) (elsewhere _ hp rfl)
  · rename_i hp _
    exact still (pollLoop_pipe hs) (elsewhere _ hp rfl)
  · cases hs

theorem notified_cleaning {len : ℕ} (hs : pollingStep s (.selected (.ok true len)) = some s') :
    s'.Cleaning := by
  unfold pollingStep at hs
  cases hp : s.poller with
  | select call timeout =>
    simp only [hp, Polling.selected, Option.some.injEq] at hs
    subst hs
    rfl
  | _ => simp [hp] at hs

end Pipe

/-! ## Runs -/

/-- Bytes in the pipe are on epoll's ready list, unless they are just being read. -/
def Awakening.Heard (s : Awakening ι α) : Prop :=
  0 < s.polling.pipe → s.raised = true ∨ s.polling.Cleaning

section Runs
variable {s s' : Awakening ι α}

theorem awakeningStep_heard {op : AwakeningOp ι α} (h : s.Heard) (hs : awakeningStep s op = some s') :
    s'.Heard := by
  cases op with
  | step op news =>
    simp only [awakeningStep] at hs
    split at hs
    · cases hs
    · obtain ⟨polling, hpolling, rfl⟩ := Option.map_eq_some_iff.mp hs
      obtain ⟨hfills, hcleaning⟩ := pollingStep_pipe hpolling
      intro hpos
      have hpos : 0 < polling.pipe := hpos
      by_cases hempty : s.polling.pipe = 0
      · have hwrites : s.polling.writes op = true := hfills.resolve_left (by omega)
        exact .inl (by simp [hwrites, hempty])
      · rcases h (Nat.pos_of_ne_zero hempty) with hraised | hc
        · exact .inl (by simp [hraised])
        · exact .inr ((hcleaning hc).resolve_right (by omega))
  | report len =>
    simp only [awakeningStep] at hs
    split at hs
    · obtain ⟨polling, hpolling, rfl⟩ := Option.map_eq_some_iff.mp hs
      exact fun _ => .inr (notified_cleaning hpolling)
    · cases hs
  | lapse =>
    simp only [awakeningStep] at hs
    split at hs
    · rename_i hempty
      obtain rfl := Option.some.inj hs
      exact fun hpos => absurd hempty (Nat.pos_iff_ne_zero.mp hpos)
    · cases hs

theorem awakening_heard (hs : Reachable awakeningStep (· = Awakening.new) s) : s.Heard :=
  hs.invariant
    (fun s hinit => by
      subst hinit
      exact fun hpos => absurd hpos (Nat.lt_irrefl 0))
    fun _ _ _ h hstep => awakeningStep_heard h hstep

/-- Under epoll the poller only runs as it does. -/
theorem awakening_polling (hs : ReachableIf awakeningStep AwakensUnqueued (· = Awakening.new) s) :
    ReachableIf pollingStep PollsUnqueued (· = Polling.new) s.polling := by
  refine hs.simulation Awakening.polling (fun _ hinit => hinit ▸ rfl) fun s op s' hok hstep => ?_
  cases op with
  | step op news =>
    simp only [awakeningStep] at hstep
    split at hstep
    · cases hstep
    · obtain ⟨polling, hpolling, rfl⟩ := Option.map_eq_some_iff.mp hstep
      exact .inr ⟨op, hok, hpolling⟩
  | report len =>
    simp only [awakeningStep] at hstep
    split at hstep
    · obtain ⟨polling, hpolling, rfl⟩ := Option.map_eq_some_iff.mp hstep
      exact .inr ⟨.selected (.ok true len), trivial, hpolling⟩
    · cases hstep
  | lapse =>
    simp only [awakeningStep] at hstep
    split at hstep
    · obtain rfl := Option.some.inj hstep
      exact .inl rfl
    · cases hstep

end Runs

/-- **A sleeping poller is told.** In every run, while the poller is in `select` with the timeout it was
called with: nothing is enqueued; or the one producer that found the sleep marker has yet to write the
pipe; or it has written, and `select` can return with the awakener's event. -/
theorem sleeping_poller_is_told (s : Awakening ι α)
    (hs : ReachableIf awakeningStep AwakensUnqueued (· = Awakening.new) s) (call : Call)
    (timeout : Option ℕ) (hselect : s.polling.poller = .select call timeout) (htimeout : timeout ≠ some 0) :
    (s.polling.queue.mem.head = .sleepMarker ∧ s.polling.took = [] ∧ s.polling.queue.Drained) ∨
      (∃ i, s.polling.took = [(i, false)] ∧ s.polling.Answers i false) ∨
      ∃ i, s.polling.took = [(i, true)] ∧
        ∀ len, ∃ s', awakeningStep s (.report len) = some s' ∧ s'.polling.poller = .cleanup call len := by
  have hpolling := awakening_polling hs
  have hok := (polling_ok hpolling.reachable).poller
  unfold Polling.PollerOk at hok
  rw [hselect] at hok
  rcases hok.2 htimeout with ⟨hhead, htook⟩ | ⟨-, i, written, htook, hanswers⟩
  · obtain ⟨nodes, hsound⟩ := queue_sound (polling_queue hpolling)
    exact .inl ⟨hhead, htook, hsound.drained_of_sleep hhead⟩
  · right
    cases written with
    | false => exact .inl ⟨i, htook, hanswers⟩
    | true =>
      have hpos : 0 < s.polling.pipe := hanswers
      have hraised : s.raised = true := by
        rcases awakening_heard hs.reachable hpos with hraised | hcleaning
        · exact hraised
        · unfold Polling.Cleaning at hcleaning
          rw [hselect] at hcleaning
          cases hcleaning
      refine .inr ⟨i, htook, fun len => ?_⟩
      simp [awakeningStep, hraised, hpos, pollingStep, hselect, Polling.selected]

/-- A poller that sleeps without a timeout, a node enqueued, and the pipe written. -/
theorem sleeping_poller_is_told_one : ∃ s : Awakening Unit ℕ, s.polling.poller = .select ⟨8, false⟩ none ∧
    s.polling.queue.mem.head = .data 5 ∧ ∃ i, s.polling.took = [(i, true)] ∧
      ∀ len, ∃ s', awakeningStep s (.report len) = some s' ∧
        s'.polling.poller = .cleanup ⟨8, false⟩ len := by
  have hstart : ReachableIf awakeningStep AwakensUnqueued (· = Awakening.new)
      (Awakening.new : Awakening Unit ℕ) := .start rfl
  let asleep : List (AwakeningOp Unit ℕ) :=
    [.step (.poll2 ⟨8, false⟩ none) false, .step .consumer false, .step .consumer false,
      .step .prepared false]
  obtain ⟨s, hs⟩ := Option.isSome_iff_exists.mp
    (by decide : (run awakeningStep (Awakening.new : Awakening Unit ℕ) asleep).isSome)
  have hfree : ∀ s ∈ run awakeningStep (Awakening.new : Awakening Unit ℕ) asleep,
      s.polling.queue.Free 5 := by decide
  have hs' := hstart.run
    (.of_forall fun op hop s => by
      simp only [asleep, List.mem_cons, List.not_mem_nil, or_false] at hop
      rcases hop with rfl | rfl | rfl | rfl <;> exact trivial) hs
  obtain ⟨t, ht, hlast⟩ : ∃ t : Awakening Unit ℕ, run awakeningStep Awakening.new (asleep ++
        .step (.begin () 5) false :: List.replicate 5 (.step (.producer () false) false)) = some t ∧
      (t.polling.poller, t.polling.queue.mem.head, t.polling.took) =
        (.select ⟨8, false⟩ none, .data 5, [((), true)]) :=
    Option.map_eq_some_iff.mp (by decide)
  rw [run_append hs] at ht
  have hok : Along awakeningStep AwakensUnqueued s
      (.step (.begin () 5) false :: List.replicate 5 (.step (.producer () false) false)) :=
    ⟨hfree s hs, fun _ _ => .of_forall fun op hop s => by
      obtain rfl := List.eq_of_mem_replicate hop
      exact trivial⟩
  have ht' := hs'.run hok ht
  simp only [Prod.mk.injEq] at hlast
  obtain ⟨hselect, hhead, htook⟩ := hlast
  refine ⟨t, hselect, hhead, ?_⟩
  rcases sleeping_poller_is_told t ht' _ _ hselect (by simp) with ⟨-, hnone, -⟩ | ⟨i, hwaits, -⟩ | htold
  · simp [htook] at hnone
  · simp [htook] at hwaits
  · exact htold

end MyMio

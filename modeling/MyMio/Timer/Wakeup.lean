import MyMio.Timer.Arithmetic

/-! # The wakeup thread

A registered timer shares one word, `wakeup_state`, with a thread that sleeps until the tick in it.
`usize::MAX` means that nothing is due, and 0, `TERMINATE_THREAD`, ends the thread. The owner of the
timer lowers the word in `schedule_readiness` by a load and a loop of `compare_exchange`; the thread
takes a due tick out of it with one. The steps below are the atomic accesses of both, in any order,
and parking may end at any time.

No tick 0 may therefore be scheduled. `NoZero` is the invariant: the ticks the wheel caches and the ticks
in flight are positive. It holds from the registration on unless a timeout is set for tick 0, which
`set_timeout_at` lets through while the scan is still at tick 0. The thread also divides by the length of a
tick, so it panics at once on a timer whose tick has none, which `Builder` accepts.
-/

namespace MyMio
set_option autoImplicit false

open StepSystem

universe u

variable {T : Type u}

/-! ## The two parties -/

abbrev TERMINATE_THREAD : ℕ := 0

abbrev USIZE_MAX : ℕ := U64_MAX

/-- Where the loop of `spawn_wakeup_thread` is. -/
inductive ThreadPc
  /-- about to load the word: at the start, or after parking -/
  | load
  /-- at the head of the loop -/
  | loop (sleepUntilTick : ℕ)
  /-- in `park_timeout`, for so many milliseconds, or in `park` -/
  | parked (sleepDuration : Option ℕ)
  /-- about to take the due tick out of the word -/
  | exchange (sleepUntilTick : ℕ)
  | returned
  | panicked
  deriving DecidableEq, Repr

inductive OwnerPc
  | idle
  | load (tick : ℕ)
  | exchange (curr tick : ℕ)
  deriving DecidableEq, Repr

structure Inner where
  wakeupState : ℕ
  thread : ThreadPc
  deriving DecidableEq, Repr

/-- A timer, what it shares with its thread once registered, and whether `Inner::drop` has run. -/
structure Wakeup (T : Type u) where
  timer : Timer T
  inner : Option Inner
  owner : OwnerPc
  dropped : Bool

def Wakeup.new (tickMs numSlots : ℕ) : Wakeup T := ⟨Timer.new tickMs numSlots, none, .idle, false⟩

inductive WakeupOp (T : Type u)
  | setTimeout (elapsed delayFromNow : Duration) (state : T) (key : Token)
  | cancelTimeout (timeout : Timeout)
  | poll (fuel : ℕ) (elapsed : Duration)
  | register
  | drop
  | ownerLoad
  | ownerExchange
  | threadLoad
  | threadLoop (elapsed : Duration)
  | threadUnpark
  | threadExchange

/-- Entering `schedule_readiness`, which does nothing on a timer that is not registered. -/
def Wakeup.schedule (w : Wakeup T) (tick : ℕ) : Wakeup T :=
  if w.inner.isSome then { w with owner := .load tick } else w

/-- A call of the owner that only touches the timer, or schedules a tick at its end. -/
def ownerCall (w : Wakeup T) : WakeupOp T → Option (Wakeup T)
  | .setTimeout elapsed delayFromNow state key =>
    (w.timer.setTimeout elapsed delayFromNow state key).map fun (t, timeout) =>
      { w with timer := t }.schedule timeout.tick
  | .cancelTimeout timeout => (w.timer.cancelTimeout timeout).map fun (t, _) => { w with timer := t }
  | .poll fuel elapsed =>
    match w.timer.poll fuel elapsed with
    | none => none
    | some (t, some _) => some { w with timer := t }
    | some (t, none) =>
      if w.inner.isSome then
        t.nextTick.map fun next =>
          match next with
          | some tick => { w with timer := t }.schedule tick
          | none => { w with timer := t }
      else some { w with timer := t }
  | .register =>
    if w.inner.isSome then some w
    else
      w.timer.nextTick.map fun next =>
        match next with
        | some tick => { w with inner := some ⟨USIZE_MAX, .load⟩ }.schedule tick
        | none => { w with inner := some ⟨USIZE_MAX, .load⟩ }
  | .drop =>
    w.inner.map fun inner =>
      { w with inner := some { inner with wakeupState := TERMINATE_THREAD }, dropped := true }
  | _ => none

def ownerStep (w : Wakeup T) (inner : Inner) : WakeupOp T → Option (Wakeup T)
  | .ownerLoad =>
    match w.owner with
    | .load tick => some { w with owner := .exchange inner.wakeupState tick }
    | _ => none
  | .ownerExchange =>
    match w.owner with
    | .exchange curr tick =>
      if curr ≤ tick then some { w with owner := .idle }
      else if inner.wakeupState = curr then
        some { w with inner := some { inner with wakeupState := tick }, owner := .idle }
      else some { w with owner := .exchange inner.wakeupState tick }
    | _ => none
  | _ => none

def threadStep (tickMs : ℕ) (inner : Inner) : WakeupOp T → Option Inner
  | .threadLoad =>
    match inner.thread with
    | .load => some { inner with thread := .loop inner.wakeupState }
    | _ => none
  | .threadLoop elapsed =>
    match inner.thread with
    | .loop sleepUntilTick =>
      if sleepUntilTick = TERMINATE_THREAD then some { inner with thread := .returned }
      else
        match durationToTick elapsed tickMs with
        | none => some { inner with thread := .panicked }
        | some nowTick =>
          if nowTick < sleepUntilTick then
            let ms := tickMs * (sleepUntilTick - nowTick)
            some { inner with thread := .parked (if ms ≤ U64_MAX then some ms else none) }
          else some { inner with thread := .exchange sleepUntilTick }
    | _ => none
  | .threadUnpark =>
    match inner.thread with
    | .parked _ => some { inner with thread := .load }
    | _ => none
  | .threadExchange =>
    match inner.thread with
    | .exchange sleepUntilTick =>
      if inner.wakeupState = sleepUntilTick then some ⟨USIZE_MAX, .loop USIZE_MAX⟩
      else some { inner with thread := .loop inner.wakeupState }
    | _ => none
  | _ => none

def wakeupStep (w : Wakeup T) (op : WakeupOp T) : Option (Wakeup T) :=
  match op with
  | .ownerLoad | .ownerExchange => w.inner.bind fun inner => ownerStep w inner op
  | .threadLoad | .threadLoop _ | .threadUnpark | .threadExchange =>
    w.inner.bind fun inner =>
      (threadStep w.timer.tickMs inner op).map fun inner => { w with inner := some inner }
  | _ => if w.owner = .idle ∧ w.dropped = false then ownerCall w op else none

/-- No timeout is set for tick 0 on a registered timer whose scan is at tick 0; a timer that is registered
has a tick that is not zero long, and caches 0 in no slot. -/
def AvoidsZero (w : Wakeup T) : WakeupOp T → Prop
  | .setTimeout elapsed delayFromNow _ _ =>
    w.inner.isSome → w.timer.tick = 0 →
      (elapsed.add delayFromNow).bind (durationToTick · w.timer.tickMs) ≠ some 0
  | .register =>
    w.inner = none → w.timer.tickMs ≠ 0 ∧ ∀ e ∈ w.timer.wheel.slots, e.nextTick ≠ 0
  | _ => True

instance (w : Wakeup T) (op : WakeupOp T) : Decidable (AvoidsZero w op) :=
  match op with
  | .setTimeout _ _ _ _ => inferInstanceAs (Decidable (_ → _ → _ ≠ _))
  | .register =>
    inferInstanceAs (Decidable (_ = none → _ ≠ 0 ∧ ∀ e ∈ w.timer.wheel.slots, e.nextTick ≠ 0))
  | .cancelTimeout _ | .poll _ _ | .drop | .ownerLoad | .ownerExchange => .isTrue trivial
  | .threadLoad | .threadLoop _ | .threadUnpark | .threadExchange => .isTrue trivial

/-- Until the timer is dropped the word does not say "terminate", and the thread is there. -/
def Alive (w : Wakeup T) : Prop :=
  w.dropped = false → ∀ inner, w.inner = some inner →
    inner.wakeupState ≠ TERMINATE_THREAD ∧ inner.thread ≠ .returned ∧ inner.thread ≠ .panicked

/-! ## Cached ticks -/

def Wheel.Positive (w : Wheel) : Prop := ∀ e ∈ w.slots, e.nextTick ≠ 0

section Positive
variable {w : Wheel} {t t' : Timer T}

theorem Wheel.Positive.slot (h : w.Positive) (s : ℕ) : (w.slot s).nextTick ≠ 0 := by
  unfold Wheel.slot
  rw [List.getD_eq_getElem?_getD]
  cases hs : w.slots[s]? with
  | none => exact (by decide : TICK_MAX ≠ 0)
  | some e => exact h e (List.mem_of_getElem? hs)

theorem Wheel.Positive.set (h : w.Positive) (s : ℕ) {e : WheelEntry} (he : e.nextTick ≠ 0) :
    (w.set s e).Positive := by
  intro e' hm
  rcases List.mem_or_eq_of_mem_set hm with hm | rfl
  · exact h e' hm
  · exact he

theorem Wheel.Positive.setHead (h : w.Positive) (s : ℕ) (head : Token) : (w.setHead s head).Positive :=
  h.set s (h.slot s)

theorem insert_positive {tick : ℕ} {state : T} {key : Token} {timeout : Timeout}
    (h : t.wheel.Positive) (htick : tick ≠ 0)
    (hins : t.insert tick state key = some (t', timeout)) : t'.wheel.Positive := by
  unfold Timer.insert at hins
  split at hins
  · cases hins
  · obtain ⟨entries, -, hins⟩ := Option.map_eq_some_iff.mp hins
    obtain ⟨rfl, -⟩ := Prod.mk.inj hins
    have hslot := h.slot (t.slotFor tick)
    exact h.set _ (by
      show min tick (t.wheel.slot (t.slotFor tick)).nextTick ≠ 0
      omega)

theorem take_positive {links : EntryLinks} {k : Token} {e : Entry T} (h : t.wheel.Positive)
    (htake : t.take links k = some (t', e)) : t'.wheel.Positive := by
  unfold Timer.take at htake
  cases hu : t.unlink links k with
  | none => simp [hu] at htake
  | some t₂ =>
    rw [hu] at htake
    obtain ⟨_, -, htake⟩ := Option.map_eq_some_iff.mp htake
    obtain ⟨rfl, -⟩ := Prod.mk.inj htake
    unfold Timer.unlink at hu
    cases hb : t.unlinkBehind links with
    | none => simp [hb] at hu
    | some t₁ =>
      have h₁ : t₁.wheel.Positive := by
        unfold Timer.unlinkBehind at hb
        split at hb
        · obtain rfl := Option.some.inj hb
          exact h.setHead _ _
        · obtain ⟨_, -, rfl⟩ := Option.map_eq_some_iff.mp hb
          exact h
      simp only [hb] at hu
      unfold Timer.unlinkAhead at hu
      split at hu
      · obtain ⟨_, -, rfl⟩ := Option.map_eq_some_iff.mp hu
        exact h₁
      · obtain rfl := Option.some.inj hu
        exact h₁

theorem cancelTimeout_positive {timeout : Timeout} {r : Option T} (h : t.wheel.Positive)
    (hcancel : t.cancelTimeout timeout = some (t', r)) : t'.wheel.Positive := by
  unfold Timer.cancelTimeout at hcancel
  split at hcancel
  · obtain ⟨rfl, -⟩ := Prod.mk.inj (Option.some.inj hcancel)
    exact h
  · split at hcancel
    · obtain ⟨rfl, -⟩ := Prod.mk.inj (Option.some.inj hcancel)
      exact h
    · obtain ⟨⟨t₁, e⟩, htake, hcancel⟩ := Option.map_eq_some_iff.mp hcancel
      obtain ⟨rfl, -⟩ := Prod.mk.inj hcancel
      exact take_positive h htake

theorem pollTurn_positive {r : Option (Entry T)} (h : t.wheel.Positive)
    (hturn : t.pollTurn = some (t', r)) : t'.wheel.Positive := by
  unfold Timer.pollTurn at hturn
  dsimp only at hturn
  split at hturn
  · obtain ⟨tick, -, hturn⟩ := Option.map_eq_some_iff.mp hturn
    obtain ⟨rfl, -⟩ := Prod.mk.inj hturn
    unfold Timer.enterSlot
    dsimp only
    split
    · exact h.set _ (by decide : TICK_MAX ≠ 0)
    · exact h
  · have hreset : (t.resetAtHead t.next).wheel.Positive := by
      unfold Timer.resetAtHead
      dsimp only
      split
      · exact h.set _ (by decide : TICK_MAX ≠ 0)
      · exact h
    split at hturn
    · cases hturn
    · split at hturn
      · obtain ⟨⟨t₁, e⟩, htake, hturn⟩ := Option.map_eq_some_iff.mp hturn
        obtain ⟨rfl, -⟩ := Prod.mk.inj hturn
        exact take_positive hreset htake
      · rename_i e he hlate
        obtain ⟨rfl, -⟩ := Prod.mk.inj (Option.some.inj hturn)
        have hslot := hreset.slot ((t.resetAtHead t.next).slotFor (t.resetAtHead t.next).tick)
        exact hreset.set _ (by
          show min _ e.links.tick ≠ 0
          omega)

end Positive

/-! ## What is scheduled -/

/-- The cursor is in a list, and only once the scan has left tick 0. -/
def Started (t : Timer T) : Prop :=
  ∃ lists behind ahead, Cursor t lists behind ahead ∧ (ahead ≠ [] → t.tick ≠ 0)

section Started
variable {t t' : Timer T}

theorem started_new (tickMs numSlots : ℕ) : Started (Timer.new tickMs numSlots : Timer T) :=
  ⟨_, _, _, cursor_new tickMs numSlots, fun h => absurd rfl h⟩

theorem Started.insert {tick : ℕ} {state : T} {key : Token} {timeout : Timeout} (h : Started t)
    (hins : t.insert tick state key = some (t', timeout)) : Started t' ∧ timeout.tick = tick := by
  obtain ⟨lists, behind, ahead, c, hs⟩ := h
  obtain ⟨lists', c', -, htick, htimeout⟩ := c.inserted hins
  exact ⟨⟨_, _, _, c', fun ha => htick ▸ hs ha⟩, congrArg Timeout.tick htimeout⟩

theorem Started.cancelTimeout {timeout : Timeout} {r : Option T} (h : Started t)
    (hcancel : t.cancelTimeout timeout = some (t', r)) : Started t' := by
  obtain ⟨lists, behind, ahead, c, hs⟩ := h
  rcases cancelTimeout_cases c hcancel with ⟨e, lists', -, -, -, c', -, htick⟩ | ⟨-, -, rfl⟩
  · refine ⟨_, _, _, c', fun ha => htick ▸ hs fun he => ha ?_⟩
    rw [he]
    rfl
  · exact ⟨_, _, _, c, hs⟩

theorem Started.pollTurn {r : Option (Entry T)} (h : Started t)
    (hturn : t.pollTurn = some (t', r)) : Started t' := by
  obtain ⟨lists, behind, ahead, c, hs⟩ := h
  rcases c.pollTurn hturn with ⟨-, -, htick, -, c'⟩ | ⟨_, _, _, _, rfl, -, -, -, htick, -, c'⟩ |
    ⟨_, _, _, rfl, -, -, -, htick, -, c'⟩
  · exact ⟨_, _, _, c', fun _ => by omega⟩
  · exact ⟨_, _, _, c', fun _ => htick ▸ hs (List.cons_ne_nil _ _)⟩
  · exact ⟨_, _, _, c', fun _ => htick ▸ hs (List.cons_ne_nil _ _)⟩

theorem poll_keeps {fuel : ℕ} {elapsed : Duration} {r : Option T} (h : Started t)
    (hpoll : t.poll fuel elapsed = some (t', r)) :
    Started t' ∧ (t.wheel.Positive → t'.wheel.Positive) ∧ t'.tickMs = t.tickMs := by
  unfold Timer.poll at hpoll
  cases hd : durationToTick elapsed t.tickMs with
  | none => simp [hd] at hpoll
  | some target =>
    rw [hd] at hpoll
    obtain ⟨⟨t₁, e⟩, hto, hpoll⟩ := Option.map_eq_some_iff.mp hpoll
    obtain ⟨rfl, -⟩ := Prod.mk.inj hpoll
    exact (pollLoop_rule
      (P := fun t₀ => Started t₀ ∧ (t.wheel.Positive → t₀.wheel.Positive) ∧ t₀.tickMs = t.tickMs)
      (fun _ _ _ hP _ hturn => ⟨hP.1.pollTurn hturn, fun hw => pollTurn_positive (hP.2.1 hw) hturn,
        (pollTurn_tickMs hturn).trans hP.2.2⟩)
      ⟨h, id, rfl⟩ hto).1

/-- The tick `set_timeout` inserts is 0 only if it asks for 0 while the scan is at 0. -/
theorem clampTick_ne_zero {tick₀ tick : ℕ} (h : t.clampTick tick₀ = some tick)
    (hzero : t.tick = 0 → tick₀ ≠ 0) : tick ≠ 0 := by
  unfold Timer.clampTick at h
  split at h
  · have := (checkedSucc_eq_some h).2
    omega
  · obtain rfl := Option.some.inj h
    omega

theorem nextTick_ne_zero {tick : ℕ} (h : Started t) (hw : t.wheel.Positive)
    (hnext : t.nextTick = some (some tick)) : tick ≠ 0 := by
  obtain ⟨lists, behind, ahead, c, hs⟩ := h
  have hmin : ∀ {m : ℕ}, t.wheel.minNextTick = some m → m ≠ 0 := by
    intro m hm
    obtain ⟨e, he, rfl⟩ := List.mem_map.mp (List.min?_mem hm)
    exact hw e he
  unfold Timer.nextTick at hnext
  split at hnext
  · rename_i hne
    have hahead : ahead ≠ [] := by
      rintro rfl
      exact hne c.next
    obtain ⟨e, -, hnext⟩ := Option.map_eq_some_iff.mp hnext
    split at hnext
    · obtain rfl := Option.some.inj hnext
      exact hs hahead
    · exact hmin hnext
  · exact hmin (Option.some.inj hnext)

end Started

/-! ## The invariant -/

def OwnerPc.Positive : OwnerPc → Prop
  | .idle => True
  | .load tick => tick ≠ 0
  | .exchange _ tick => tick ≠ 0

def ThreadPc.Awake : ThreadPc → Prop
  | .loop sleepUntilTick => sleepUntilTick ≠ TERMINATE_THREAD
  | .returned | .panicked => False
  | _ => True

/-- The word is not 0, and the thread has not read a 0 and is there. -/
def Inner.Awake (inner : Inner) : Prop :=
  inner.wakeupState ≠ TERMINATE_THREAD ∧ inner.thread.Awake

structure NoZero (w : Wakeup T) : Prop where
  started : Started w.timer
  cached : w.inner.isSome → w.timer.wheel.Positive
  tickMs : w.inner.isSome → w.timer.tickMs ≠ 0
  owner : w.owner.Positive
  awake : w.dropped = false → ∀ inner, w.inner = some inner → inner.Awake

section Steps
variable {w w' : Wakeup T} {op : WakeupOp T}

theorem NoZero.alive (h : NoZero w) : Alive w := by
  intro hd inner hi
  obtain ⟨hword, hthread⟩ := h.awake hd inner hi
  refine ⟨hword, fun hr => ?_, fun hp => ?_⟩
  · rw [hr] at hthread
    exact hthread
  · rw [hp] at hthread
    exact hthread

theorem NoZero.schedule (h : NoZero w) {tick : ℕ} (htick : tick ≠ 0) : NoZero (w.schedule tick) := by
  unfold Wakeup.schedule
  split
  · exact ⟨h.started, h.cached, h.tickMs, htick, h.awake⟩
  · exact h

theorem NoZero.ownerCall (h : NoZero w) (hok : AvoidsZero w op)
    (hstep : ownerCall w op = some w') : NoZero w' := by
  cases op with
  | setTimeout elapsed delayFromNow state key =>
    obtain ⟨⟨t, timeout⟩, hset, rfl⟩ := Option.map_eq_some_iff.mp hstep
    obtain ⟨tick₀, tick, hround, hclamp, hins⟩ := setTimeout_spec hset
    obtain ⟨hstarted, rfl⟩ := h.started.insert hins
    by_cases hreg : w.inner.isSome
    · have htick : timeout.tick ≠ 0 := by
        refine clampTick_ne_zero hclamp fun hzero he => ?_
        exact hok hreg hzero (he ▸ hround)
      have h' : NoZero { w with timer := t } :=
        ⟨hstarted, fun _ => insert_positive (h.cached hreg) htick hins,
          fun hi => (insert_tickMs hins).symm ▸ h.tickMs hi, h.owner, h.awake⟩
      exact h'.schedule htick
    · show NoZero (Wakeup.schedule _ _)
      simp only [Wakeup.schedule, hreg, Bool.false_eq_true, if_false]
      exact ⟨hstarted, fun hi => absurd hi hreg, fun hi => absurd hi hreg, h.owner, h.awake⟩
  | cancelTimeout timeout =>
    obtain ⟨⟨t, v⟩, hcancel, rfl⟩ := Option.map_eq_some_iff.mp hstep
    exact ⟨h.started.cancelTimeout hcancel, fun hi => cancelTimeout_positive (h.cached hi) hcancel,
      fun hi => (cancelTimeout_tickMs hcancel).symm ▸ h.tickMs hi, h.owner, h.awake⟩
  | poll fuel elapsed =>
    simp only [MyMio.ownerCall] at hstep
    cases hpoll : w.timer.poll fuel elapsed with
    | none => simp [hpoll] at hstep
    | some p =>
      obtain ⟨t, v⟩ := p
      obtain ⟨hstarted, hpos, htickMs⟩ := poll_keeps h.started hpoll
      have h' : NoZero { w with timer := t } :=
        ⟨hstarted, fun hi => hpos (h.cached hi), fun hi => htickMs.symm ▸ h.tickMs hi, h.owner, h.awake⟩
      rw [hpoll] at hstep
      cases v with
      | some v =>
        obtain rfl := Option.some.inj hstep
        exact h'
      | none =>
        dsimp only at hstep
        split at hstep
        · rename_i hreg
          obtain ⟨next, hnext, rfl⟩ := Option.map_eq_some_iff.mp hstep
          cases next with
          | some tick => exact h'.schedule (nextTick_ne_zero hstarted (hpos (h.cached hreg)) hnext)
          | none => exact h'
        · obtain rfl := Option.some.inj hstep
          exact h'
  | register =>
    simp only [MyMio.ownerCall] at hstep
    split at hstep
    · obtain rfl := Option.some.inj hstep
      exact h
    · rename_i hreg
      have hnone : w.inner = none := by simpa using hreg
      obtain ⟨htickMs, hpos⟩ := hok hnone
      have h' : NoZero { w with inner := some ⟨USIZE_MAX, .load⟩ } := by
        refine ⟨h.started, fun _ => hpos, fun _ => htickMs, h.owner, fun _ inner hi => ?_⟩
        obtain rfl := Option.some.inj hi
        exact ⟨(by decide : USIZE_MAX ≠ 0), trivial⟩
      obtain ⟨next, hnext, rfl⟩ := Option.map_eq_some_iff.mp hstep
      cases next with
      | some tick => exact h'.schedule (nextTick_ne_zero h.started hpos hnext)
      | none => exact h'
  | drop =>
    obtain ⟨inner, hi, rfl⟩ := Option.map_eq_some_iff.mp hstep
    have hreg : w.inner.isSome := by
      rw [hi]
      rfl
    exact ⟨h.started, fun _ => h.cached hreg, fun _ => h.tickMs hreg, h.owner, fun hd => by cases hd⟩
  | ownerLoad => cases hstep
  | ownerExchange => cases hstep
  | threadLoad => cases hstep
  | threadLoop elapsed => cases hstep
  | threadUnpark => cases hstep
  | threadExchange => cases hstep

theorem NoZero.ownerStep {inner : Inner} (h : NoZero w) (hi : w.inner = some inner)
    (hstep : ownerStep w inner op = some w') : NoZero w' := by
  have hreg : w.inner.isSome := by
    rw [hi]
    rfl
  cases op with
  | ownerLoad =>
    simp only [MyMio.ownerStep] at hstep
    split at hstep
    · rename_i tick ho
      obtain rfl := Option.some.inj hstep
      have htick : tick ≠ 0 := by simpa [ho, OwnerPc.Positive] using h.owner
      exact ⟨h.started, h.cached, h.tickMs, htick, h.awake⟩
    · cases hstep
  | ownerExchange =>
    simp only [MyMio.ownerStep] at hstep
    split at hstep
    · rename_i curr tick ho
      have htick : tick ≠ 0 := by simpa [ho, OwnerPc.Positive] using h.owner
      split at hstep
      · obtain rfl := Option.some.inj hstep
        exact ⟨h.started, h.cached, h.tickMs, trivial, h.awake⟩
      · split at hstep
        · obtain rfl := Option.some.inj hstep
          refine ⟨h.started, fun _ => h.cached hreg, fun _ => h.tickMs hreg, trivial,
            fun hd inner' hi' => ?_⟩
          obtain rfl := Option.some.inj hi'
          exact ⟨htick, (h.awake hd inner hi).2⟩
        · obtain rfl := Option.some.inj hstep
          exact ⟨h.started, h.cached, h.tickMs, htick, h.awake⟩
    · cases hstep
  | _ => cases hstep

theorem Inner.Awake.threadStep {tickMs : ℕ} {inner inner' : Inner} (h : inner.Awake)
    (htickMs : tickMs ≠ 0) (hstep : threadStep (T := T) tickMs inner op = some inner') : inner'.Awake := by
  obtain ⟨hword, hthread⟩ := h
  cases op with
  | threadLoad =>
    simp only [MyMio.threadStep] at hstep
    split at hstep
    · obtain rfl := Option.some.inj hstep
      exact ⟨hword, hword⟩
    · cases hstep
  | threadLoop elapsed =>
    simp only [MyMio.threadStep] at hstep
    split at hstep
    · rename_i sleepUntilTick hpc
      split at hstep
      · rename_i hzero
        rw [hpc, hzero] at hthread
        exact absurd rfl hthread
      · obtain ⟨nowTick, hnow⟩ := durationToTick_isSome htickMs elapsed
        rw [hnow] at hstep
        dsimp only at hstep
        split at hstep
        · obtain rfl := Option.some.inj hstep
          exact ⟨hword, trivial⟩
        · obtain rfl := Option.some.inj hstep
          exact ⟨hword, trivial⟩
    · cases hstep
  | threadUnpark =>
    simp only [MyMio.threadStep] at hstep
    split at hstep
    · obtain rfl := Option.some.inj hstep
      exact ⟨hword, trivial⟩
    · cases hstep
  | threadExchange =>
    simp only [MyMio.threadStep] at hstep
    split at hstep
    · split at hstep
      · obtain rfl := Option.some.inj hstep
        exact ⟨(by decide : USIZE_MAX ≠ 0), (by decide : USIZE_MAX ≠ 0)⟩
      · obtain rfl := Option.some.inj hstep
        exact ⟨hword, hword⟩
    · cases hstep
  | _ => cases hstep

theorem wakeupStep_noZero (h : NoZero w) (hok : AvoidsZero w op)
    (hstep : wakeupStep w op = some w') : NoZero w' := by
  have hcall : (if w.owner = .idle ∧ w.dropped = false then ownerCall w op else none) = some w' →
      NoZero w' := by
    intro hstep
    split at hstep
    · exact h.ownerCall hok hstep
    · cases hstep
  have howner : (w.inner.bind fun inner => ownerStep w inner op) = some w' → NoZero w' := by
    intro hstep
    obtain ⟨inner, hi, hstep⟩ := Option.bind_eq_some_iff.mp hstep
    exact h.ownerStep hi hstep
  have hthread : (w.inner.bind fun inner => (threadStep w.timer.tickMs inner op).map fun inner =>
      { w with inner := some inner }) = some w' → NoZero w' := by
    intro hstep
    obtain ⟨inner, hi, hstep⟩ := Option.bind_eq_some_iff.mp hstep
    obtain ⟨inner₁, hthread, rfl⟩ := Option.map_eq_some_iff.mp hstep
    have hreg : w.inner.isSome := by
      rw [hi]
      rfl
    refine ⟨h.started, fun _ => h.cached hreg, fun _ => h.tickMs hreg, h.owner, fun hd inner' hi' => ?_⟩
    obtain rfl := Option.some.inj hi'
    exact (h.awake hd inner hi).threadStep (h.tickMs hreg) hthread
  cases op with
  | setTimeout | cancelTimeout | poll | register | drop => exact hcall hstep
  | ownerLoad | ownerExchange => exact howner hstep
  | threadLoad | threadLoop | threadUnpark | threadExchange => exact hthread hstep

end Steps

/-- **The wakeup thread outlives the timer's calls.** In every interleaved run that never sets tick 0
on a registered timer at tick 0 nor registers one that caches it or has a tick of no length, the word is 0
and the thread is gone only after the timer is dropped. -/
theorem wakeup_thread_alive (tickMs numSlots : ℕ) (w : Wakeup T)
    (hw : ReachableIf wakeupStep AvoidsZero (· = Wakeup.new tickMs numSlots) w) : Alive w := by
  have hinv : NoZero w := hw.invariant
    (fun w hinit => by
      subst hinit
      exact ⟨started_new tickMs numSlots, fun hi => (by cases hi), fun hi => (by cases hi), trivial,
        fun _ _ hi => by cases hi⟩)
    (fun w op w' h hok hstep => wakeupStep_noZero h hok hstep)
  exact hinv.alive

theorem now_le : 0 ≤ U64_MAX := by decide

theorem oneTick_le : 100 ≤ U64_MAX := by decide

def oneTickOps : List (WakeupOp Bool) :=
  [.register, .ownerLoad, .ownerExchange,
    .setTimeout (.fromMillis 0 now_le) (.fromMillis 100 oneTick_le) true ⟨0⟩,
    .ownerLoad, .ownerExchange, .threadLoad, .threadLoop (.fromMillis 0 now_le)]

/-- A timeout of one tick on a registered timer. -/
theorem wakeup_thread_alive_one_tick :
    ∃ w : Wakeup Bool, run wakeupStep (Wakeup.new 100 4) oneTickOps = some w ∧ Alive w := by
  have hrun : (run wakeupStep (Wakeup.new 100 4) oneTickOps).isSome := by decide
  obtain ⟨w, hw⟩ := Option.isSome_iff_exists.mp hrun
  have hok : Along wakeupStep AvoidsZero (Wakeup.new 100 4) oneTickOps := by decide
  have hstart : ReachableIf wakeupStep AvoidsZero (· = Wakeup.new 100 4)
      (Wakeup.new 100 4 : Wakeup Bool) := .start rfl
  exact ⟨w, hw, wakeup_thread_alive 100 4 w (hstart.run hok hw)⟩

/-- A timeout for now, right after the registration, ends the thread; and so does a tick of no length,
without any timeout. -/
theorem wakeup_thread_ends :
    (∃ w : Wakeup Bool, run wakeupStep (Wakeup.new 100 4)
        [.register, .ownerLoad, .ownerExchange,
          .setTimeout (.fromMillis 0 (by decide)) (.fromMillis 0 (by decide)) true ⟨0⟩,
          .ownerLoad, .ownerExchange, .threadLoad, .threadLoop (.fromMillis 0 (by decide))] = some w ∧
      w.dropped = false ∧ w.inner = some ⟨TERMINATE_THREAD, .returned⟩) ∧
    ∃ w : Wakeup Bool, run wakeupStep (Wakeup.new 0 4)
        [.register, .threadLoad, .threadLoop (.fromMillis 0 (by decide))] = some w ∧
      w.dropped = false ∧ w.inner = some ⟨USIZE_MAX, .panicked⟩ := by
  have hzero : (run wakeupStep (Wakeup.new 100 4)
      [.register, .ownerLoad, .ownerExchange,
        .setTimeout (.fromMillis 0 (by decide)) (.fromMillis 0 (by decide)) true ⟨0⟩,
        .ownerLoad, .ownerExchange, .threadLoad, .threadLoop (.fromMillis 0 (by decide))]).map
      (fun w : Wakeup Bool => (w.dropped, w.inner)) = some (false, some ⟨TERMINATE_THREAD, .returned⟩) := by
    decide
  have hlength : (run wakeupStep (Wakeup.new 0 4)
      [.register, .threadLoad, .threadLoop (.fromMillis 0 (by decide))]).map
      (fun w : Wakeup Bool => (w.dropped, w.inner)) = some (false, some ⟨USIZE_MAX, .panicked⟩) := by
    decide
  obtain ⟨w, hw, hview⟩ := Option.map_eq_some_iff.mp hzero
  obtain ⟨w', hw', hview'⟩ := Option.map_eq_some_iff.mp hlength
  exact ⟨⟨w, hw, Prod.mk.inj hview⟩, w', hw', Prod.mk.inj hview'⟩

end MyMio

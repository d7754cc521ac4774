import MyMio.Timer.Cached
import MyMio.Timer.Wakeup

/-! # No wakeup is lost

The owner of a registered timer and its wakeup thread share two cells, the word `wakeup_state` and the
readiness of the registration. The thread takes a due tick out of the word and then sets the readiness;
a `poll_to` that finds nothing clears the readiness and then schedules the next tick. Each of these is
a step here, between any two steps of the other party.

Two facts together rule out a lost wakeup. `LowerBound`: once the timer is drained, each slot caches a
tick no later than those of its entries; within the slot being scanned this only holds of the entries
behind the cursor until the scan leaves the slot (`Scanning`). `Watching`: every pending timeout is
covered by the word, or the owner is about to cover it, or the thread has moved the word to
`usize::MAX` since the readiness was last cleared.
-/

namespace MyMio
set_option autoImplicit false

open StepSystem

universe u

variable {T : Type u}

/-! ## The two parties and their two cells -/

/-- A timer, what it shares with its thread once registered, and where the two are beyond `owner` and
the thread's own position: `clearing` when `poll_to` is about to clear the readiness, `setting` when
the thread is about to set it. Of the run so far, `drained` tells that the last `poll_to` found nothing,
`moved` that the thread has taken a tick out of the word since the readiness was cleared. -/
structure Alarm (T : Type u) where
  timer : Timer T
  inner : Option Inner
  readiness : Ready
  owner : OwnerPc
  clearing : Bool
  setting : Bool
  drained : Bool
  moved : Bool

def Alarm.new (tickMs numSlots : ℕ) : Alarm T :=
  ⟨Timer.new tickMs numSlots, none, Ready.empty, .idle, false, false, true, false⟩

inductive AlarmOp (T : Type u)
  | insert (tick : ℕ) (state : T) (key : Token)
  | cancelTimeout (timeout : Timeout)
  | pollTo (fuel : ℕ) (target : ℕ)
  | register
  | ownerClear
  | ownerLoad
  | ownerExchange
  | threadLoad
  | threadLoop (elapsed : Duration)
  | threadUnpark
  | threadExchange
  | threadSet

/-- Entering `schedule_readiness`. -/
def Alarm.schedule (a : Alarm T) (tick : ℕ) : Alarm T :=
  if a.inner.isSome then { a with owner := .load tick } else a

/-- `if let Some(tick) = self.next_tick() { self.schedule_readiness(tick) }`. -/
def Alarm.scheduleNext (a : Alarm T) : Option (Alarm T) :=
  a.timer.nextTick.map fun next =>
    match next with
    | some tick => a.schedule tick
    | none => a

/-- A call of the owner, up to its first access to a shared cell. -/
def alarmCall (a : Alarm T) : AlarmOp T → Option (Alarm T)
  | .insert tick state key =>
    (a.timer.insert tick state key).map fun (t, _) => { a with timer := t }.schedule tick
  | .cancelTimeout timeout => (a.timer.cancelTimeout timeout).map fun (t, _) => { a with timer := t }
  | .pollTo fuel target =>
    (a.timer.pollTo fuel target).map fun (t, e) =>
      { a with timer := t, drained := e.isNone, clearing := e.isNone && a.inner.isSome }
  | .register =>
    if a.inner.isSome then some a
    else Alarm.scheduleNext { a with inner := some ⟨USIZE_MAX, .load⟩ }
  | _ => none

/-- An access of the owner inside `schedule_readiness`. -/
def alarmOwner (a : Alarm T) (op : WakeupOp T) : Option (Alarm T) :=
  a.inner.bind fun inner =>
    (ownerStep ⟨a.timer, a.inner, a.owner, false⟩ inner op).map fun w =>
      { a with inner := w.inner, owner := w.owner }

/-- A step of the thread; when its exchange succeeds, setting the readiness is what it does next. -/
def alarmThread (a : Alarm T) (op : WakeupOp T) : Option (Alarm T) :=
  if a.setting then none
  else
    a.inner.bind fun inner =>
      (threadStep a.timer.tickMs inner op).map fun inner' =>
        let taken := decide (inner.thread = .exchange inner.wakeupState)
        { a with inner := some inner', setting := taken, moved := a.moved || taken }

def alarmStep (a : Alarm T) (op : AlarmOp T) : Option (Alarm T) :=
  match op with
  | .ownerClear =>
    if a.clearing then
      Alarm.scheduleNext { a with readiness := Ready.empty, clearing := false, moved := false }
    else none
  | .ownerLoad => alarmOwner a .ownerLoad
  | .ownerExchange => alarmOwner a .ownerExchange
  | .threadLoad => alarmThread a .threadLoad
  | .threadLoop elapsed => alarmThread a (.threadLoop elapsed)
  | .threadUnpark => alarmThread a .threadUnpark
  | .threadExchange => alarmThread a .threadExchange
  | .threadSet =>
    if a.setting then some { a with readiness := Ready.readable, setting := false } else none
  | _ => if a.owner = .idle ∧ a.clearing = false then alarmCall a op else none

/-! ## The cached ticks are lower bounds -/

/-- No entry is due before the tick its slot caches. -/
def LowerBound (t : Timer T) : Prop :=
  ∀ k tick v, t.pending k = some (tick, v) → t.cached (t.slotFor tick) ≤ tick

/-- The same, but for the entries the scan has still to come to. -/
def Scanning (t : Timer T) : Prop :=
  ∃ lists behind ahead, Cursor t lists behind ahead ∧
    ∀ k tick v, t.pending k = some (tick, v) → t.cached (t.slotFor tick) ≤ tick ∨ k ∈ ahead

section Bounds
variable {t t' : Timer T} {lists : ℕ → List Token} {behind ahead : List Token}

theorem scanning_new (tickMs numSlots : ℕ) : Scanning (Timer.new tickMs numSlots : Timer T) :=
  ⟨_, _, _, cursor_new tickMs numSlots, fun _ _ _ hk => by cases hk⟩

/-- A timeout is pending after `insert` if it is the new one or was pending before. -/
theorem pending_inserted {p : Token → Option (ℕ × T)} {key : Token} {tick : ℕ} {state : T}
    (hpend : t.pending = Function.update p key (some (tick, state))) {k : Token} {tick' : ℕ} {v : T}
    (hk : t.pending k = some (tick', v)) : tick' = tick ∨ p k = some (tick', v) := by
  rw [hpend] at hk
  by_cases he : k = key
  · subst he
    rw [Function.update_self] at hk
    exact .inl (Prod.mk.inj (Option.some.inj hk)).1.symm
  · rw [Function.update_of_ne he] at hk
    exact .inr hk

theorem pending_removed {p : Token → Option (ℕ × T)} {key : Token}
    (hpend : t.pending = Function.update p key none) {k : Token} {x : ℕ × T}
    (hk : t.pending k = some x) : k ≠ key ∧ p k = some x := by
  rw [hpend] at hk
  by_cases he : k = key
  · subst he
    simp at hk
  · rw [Function.update_of_ne he] at hk
    exact ⟨he, hk⟩

/-- `insert` lowers the tick of one slot, enough for the new timeout. -/
theorem insert_lower {tick : ℕ} {state : T} {key : Token} {timeout : Timeout}
    (h : t.insert tick state key = some (t', timeout)) :
    (∀ s, t'.cached s ≤ t.cached s) ∧ t'.cached (t.slotFor tick) ≤ tick := by
  have hre := insert_cached h
  refine ⟨fun s => ?_, ?_⟩
  · rw [hre.cached s]
    split
    · exact Nat.min_le_right _ _
    · exact Nat.le_refl _
  · rw [hre.cached, if_pos rfl]
    exact Nat.min_le_left _ _

theorem Scanning.insert (h : Scanning t) {tick : ℕ} {state : T} {key : Token} {timeout : Timeout}
    (hins : t.insert tick state key = some (t', timeout)) :
    Scanning t' ∧ (LowerBound t → LowerBound t') ∧
      t'.pending = Function.update t.pending key (some (tick, state)) ∧ t'.tick = t.tick := by
  obtain ⟨lists, behind, ahead, c, hbound⟩ := h
  obtain ⟨lists', c', hpend, htick, -⟩ := c.inserted hins
  obtain ⟨hle, hnew⟩ := insert_lower hins
  have hslot := (insert_cached hins).slotFor
  refine ⟨⟨lists', _, ahead, c', fun k tick' v hk => ?_⟩, fun hlow k tick' v hk => ?_, hpend,
    htick⟩
  · rw [hslot]
    rcases pending_inserted hpend hk with rfl | hk
    · exact .inl hnew
    · exact (hbound k tick' v hk).imp_left fun hb => (hle _).trans hb
  · rw [hslot]
    rcases pending_inserted hpend hk with rfl | hk
    · exact hnew
    · exact (hle _).trans (hlow k tick' v hk)

theorem Scanning.cancelTimeout (h : Scanning t) {timeout : Timeout} {r : Option T}
    (hcancel : t.cancelTimeout timeout = some (t', r)) :
    Scanning t' ∧ (LowerBound t → LowerBound t') ∧
      (∀ k x, t'.pending k = some x → t.pending k = some x) ∧ t'.tick = t.tick := by
  obtain ⟨lists, behind, ahead, c, hbound⟩ := h
  have hre := cancelTimeout_cached hcancel
  rcases cancelTimeout_cases c hcancel with ⟨e, lists', -, -, -, c', hpend, htick⟩ | ⟨-, -, rfl⟩
  · refine ⟨⟨lists', _, _, c', fun k tick v hk => ?_⟩, fun hlow k tick v hk => ?_, fun k x hk => ?_,
      htick⟩
    · obtain ⟨hne, hk⟩ := pending_removed hpend hk
      rw [hre.slotFor, hre.cached]
      exact (hbound k tick v hk).imp_right fun ha => (List.mem_erase_of_ne hne).mpr ha
    · obtain ⟨-, hk⟩ := pending_removed hpend hk
      rw [hre.slotFor, hre.cached]
      exact hlow k tick v hk
    · exact (pending_removed hpend hk).2
  · exact ⟨⟨lists, behind, ahead, c, hbound⟩, fun h => h, fun _ _ hk => hk, rfl⟩

/-- A turn of the loop. When it leaves a slot it has come to all its entries. -/
theorem Scanning.pollTurn (h : Scanning t) {r : Option (Entry T)}
    (hturn : t.pollTurn = some (t', r)) :
    Scanning t' ∧ (t.tick < t'.tick → LowerBound t') := by
  obtain ⟨lists, behind, ahead, c, hbound⟩ := h
  rcases c.pollTurn hturn with ⟨rfl, -, htick, hpend, c'⟩ |
    ⟨k, rest, e, lists', rfl, he, hdue, -, htick, hpend, c'⟩ |
    ⟨k, rest, e, rfl, he, hlate, -, htick, hpend, c'⟩
  · have hre := c.enter_cached hturn
    have hlow : LowerBound t' := by
      intro k tick v hk
      rw [hpend] at hk
      have hmem : k ∈ lists (t.slotFor tick) := c.pending_mem hk
      rw [hre.slotFor, hre.cached, if_neg fun hc => by rw [hc.2] at hmem; cases hmem]
      exact (hbound k tick v hk).resolve_right List.not_mem_nil
    exact ⟨⟨_, _, _, c', fun k tick v hk => .inl (hlow k tick v hk)⟩, fun _ => hlow⟩
  · have hre := c.due_cached he hdue hturn
    refine ⟨⟨_, _, _, c', fun k' tick v hk => ?_⟩, fun hlt => by omega⟩
    obtain ⟨hne, hk⟩ := pending_removed hpend hk
    have hold := hbound k' tick v hk
    rw [hre.slotFor, hre.cached]
    split
    · -- the tick of the slot is forgotten: all its entries are still ahead
      rename_i hreset
      obtain ⟨hslot, rfl⟩ := hreset
      have hmem : k' ∈ lists (t.slotFor tick) := c.pending_mem hk
      rw [hslot, c.split, List.nil_append] at hmem
      exact .inr ((List.mem_cons.mp hmem).resolve_left hne)
    · exact hold.imp_right fun ha => (List.mem_cons.mp ha).resolve_left hne
  · have hre := c.stepOver_cached he hlate hturn
    refine ⟨⟨_, _, _, c', fun k' tick v hk => ?_⟩, fun hlt => by omega⟩
    rw [hpend] at hk
    have hold := hbound k' tick v hk
    have hmem : k' ∈ lists (t.slotFor tick) := c.pending_mem hk
    rw [hre.slotFor, hre.cached]
    by_cases hslot : t.slotFor tick = t.slotFor t.tick
    · rw [if_pos hslot]
      rw [hslot, c.split] at hmem
      by_cases hkk : k' = k
      · subst hkk
        have htick' := (pendingOf_of_entry he).symm.trans hk
        obtain ⟨rfl, -⟩ := Prod.mk.inj (Option.some.inj htick')
        exact .inl (Nat.min_le_right _ _)
      · by_cases hb : behind = []
        · subst hb
          exact .inr ((List.mem_cons.mp hmem).resolve_left hkk)
        · rw [if_neg hb]
          refine hold.imp (fun hle => ?_) fun ha => (List.mem_cons.mp ha).resolve_left hkk
          exact (Nat.min_le_left _ _).trans hle
    · rw [if_neg hslot]
      refine hold.imp_right fun ha => ?_
      exact absurd (c.slot_unique hmem (c.ahead_mem ha)) hslot

/-- A `poll_to` that finds nothing leaves lower bounds behind: it has left a slot last. -/
theorem Scanning.pollTo (h : Scanning t) {fuel target : ℕ} {r : Option (Entry T)}
    (hpoll : t.pollTo fuel target = some (t', r)) :
    Scanning t' ∧ (r = none → LowerBound t') := by
  obtain ⟨⟨hscan, hlow⟩, hend, -⟩ := pollLoop_rule
    (P := fun t₀ => Scanning t₀ ∧ ((if target < t.tick then t.tick else target) < t₀.tick →
      LowerBound t₀))
    (fun t₀ t₁ r₁ hP hle hturn => by
      obtain ⟨hscan, hlow⟩ := hP.1.pollTurn hturn
      exact ⟨hscan, fun hlt => hlow (Nat.lt_of_le_of_lt hle hlt)⟩)
    ⟨h, fun hlt => by split at hlt <;> omega⟩ hpoll
  exact ⟨hscan, fun hr => hlow (hend hr)⟩

/-- The next tick of a drained timer is early enough for every pending timeout. -/
theorem Scanning.nextTick (h : Scanning t) (hlow : LowerBound t) {tick : ℕ}
    (hnext : t.nextTick = some (some tick)) {k : Token} {tick' : ℕ} {v : T}
    (hk : t.pending k = some (tick', v)) : tick ≤ max tick' t.tick := by
  obtain ⟨lists, behind, ahead, c, -⟩ := h
  obtain ⟨m, hm, hcases⟩ := c.nextTick_spec
  obtain rfl : m = tick := Option.some.inj (Option.some.inj (hm.symm.trans hnext))
  rcases hcases with rfl | ⟨-, hle⟩
  · exact Nat.le_max_right _ _
  · exact ((hle _ (t.slotFor_lt tick')).trans (hlow k tick' v hk)).trans (Nat.le_max_left _ _)

end Bounds

/-! ## The handshake -/

/-- The owner is about to move the word to `x` or an earlier tick. -/
def OwnerPc.Lowers (owner : OwnerPc) (x : ℕ) : Prop :=
  match owner with
  | .idle => False
  | .load tick => tick ≤ x
  | .exchange curr tick => tick ≤ x ∧ tick < curr

structure Watching (a : Alarm T) : Prop where
  scanning : Scanning a.timer
  bound : a.drained = true → LowerBound a.timer
  fires : a.moved = true → a.readiness = Ready.readable ∨ a.setting = true
  covered : a.drained = true → a.clearing = false → ∀ inner, a.inner = some inner →
    ∀ k tick v, a.timer.pending k = some (tick, v) →
      inner.wakeupState ≤ max tick a.timer.tick ∨ a.moved = true ∨
        a.owner.Lowers (max tick a.timer.tick)

section Steps
variable {a a' : Alarm T}

theorem Alarm.schedule_of_inner {inner : Inner} (hi : a.inner = some inner) (tick : ℕ) :
    a.schedule tick = { a with owner := .load tick } := by
  rw [Alarm.schedule, hi]
  exact if_pos rfl

theorem Alarm.schedule_of_none (hi : a.inner = none) (tick : ℕ) : a.schedule tick = a := by
  rw [Alarm.schedule, hi]
  exact if_neg Bool.false_ne_true

/-- Scheduling the next tick is about to cover every pending timeout, whatever the word. -/
theorem watching_scheduleNext (hscan : Scanning a.timer) (hbound : a.drained = true → LowerBound a.timer)
    (hfires : a.moved = true → a.readiness = Ready.readable ∨ a.setting = true)
    (h : a.scheduleNext = some a') : Watching a' := by
  obtain ⟨next, hnext, rfl⟩ := Option.map_eq_some_iff.mp h
  cases next with
  | none =>
    obtain ⟨lists, behind, ahead, c, -⟩ := hscan
    obtain ⟨m, hm, -⟩ := c.nextTick_spec
    rw [hm] at hnext
    cases hnext
  | some tick =>
    show Watching (a.schedule tick)
    rcases Option.eq_none_or_eq_some a.inner with hi | ⟨inner, hi⟩
    · rw [Alarm.schedule_of_none hi]
      exact ⟨hscan, hbound, hfires, fun _ _ inner hi' => by rw [hi] at hi'; cases hi'⟩
    · rw [Alarm.schedule_of_inner hi]
      refine ⟨hscan, hbound, hfires, fun hd _ inner' _ k tick' v hk => ?_⟩
      exact .inr (.inr (hscan.nextTick (hbound hd) hnext hk))

theorem Watching.insert (h : Watching a) (hidle : a.owner = .idle) {tick : ℕ} {state : T}
    {key : Token} (hstep : alarmCall a (.insert tick state key) = some a') : Watching a' := by
  obtain ⟨⟨t, timeout⟩, hins, rfl⟩ := Option.map_eq_some_iff.mp hstep
  obtain ⟨hscan, hlow, hpend, htick⟩ := h.scanning.insert hins
  show Watching (Alarm.schedule { a with timer := t } tick)
  rcases Option.eq_none_or_eq_some a.inner with hi | ⟨inner, hi⟩
  · rw [Alarm.schedule_of_none (a := { a with timer := t }) hi]
    refine ⟨hscan, fun hd => hlow (h.bound hd), h.fires, fun _ _ inner hi' => ?_⟩
    have hi'' : a.inner = some inner := hi'
    rw [hi] at hi''
    cases hi''
  · rw [Alarm.schedule_of_inner (a := { a with timer := t }) hi]
    refine ⟨hscan, fun hd => hlow (h.bound hd), h.fires, fun hd hc inner hi' k tick' v hk => ?_⟩
    show inner.wakeupState ≤ max tick' t.tick ∨ a.moved = true ∨ tick ≤ max tick' t.tick
    rcases pending_inserted hpend hk with rfl | hk
    · exact .inr (.inr (Nat.le_max_left _ _))
    · rw [htick]
      rcases h.covered hd hc inner hi' k tick' v hk with hw | hm | ho
      · exact .inl hw
      · exact .inr (.inl hm)
      · rw [hidle] at ho
        exact ho.elim

theorem Watching.cancelTimeout (h : Watching a) {timeout : Timeout}
    (hstep : alarmCall a (.cancelTimeout timeout) = some a') : Watching a' := by
  obtain ⟨⟨t, v⟩, hcancel, rfl⟩ := Option.map_eq_some_iff.mp hstep
  obtain ⟨hscan, hlow, hpend, htick⟩ := h.scanning.cancelTimeout hcancel
  refine ⟨hscan, fun hd => hlow (h.bound hd), h.fires, fun hd hc inner hi k tick v hk => ?_⟩
  have hcov := h.covered hd hc inner hi k tick v (hpend k _ hk)
  rw [← htick] at hcov
  exact hcov

theorem Watching.pollTo (h : Watching a) {fuel target : ℕ}
    (hstep : alarmCall a (.pollTo fuel target) = some a') : Watching a' := by
  obtain ⟨⟨t, e⟩, hpoll, rfl⟩ := Option.map_eq_some_iff.mp hstep
  obtain ⟨hscan, hlow⟩ := h.scanning.pollTo hpoll
  refine ⟨hscan, fun hd => hlow (Option.isNone_iff_eq_none.mp hd), h.fires,
    fun hd hc inner hi => ?_⟩
  have hnone : e.isNone = true := hd
  have hsome : a.inner.isSome = true := by
    have hi' : a.inner = some inner := hi
    rw [hi']
    rfl
  have hclear : (e.isNone && a.inner.isSome) = false := hc
  rw [hnone, hsome] at hclear
  cases hclear

theorem Watching.register (h : Watching a) (hstep : alarmCall a .register = some a') :
    Watching a' := by
  simp only [alarmCall] at hstep
  split at hstep
  · obtain rfl := Option.some.inj hstep
    exact h
  · exact watching_scheduleNext (a := { a with inner := some ⟨USIZE_MAX, .load⟩ }) h.scanning
      h.bound h.fires hstep

/-- **The owner's accesses to the word.** What the owner was about to cover it covers, or the word is
early enough already. -/
theorem Watching.ownerStep (h : Watching a) {op : WakeupOp T}
    (hstep : alarmOwner a op = some a') : Watching a' := by
  obtain ⟨inner, hi, hstep⟩ := Option.bind_eq_some_iff.mp hstep
  obtain ⟨w, how, rfl⟩ := Option.map_eq_some_iff.mp hstep
  have hloaded : ∀ tick, (∀ x, a.owner.Lowers x → tick ≤ x) →
      Watching { a with inner := a.inner, owner := .exchange inner.wakeupState tick } := by
    intro tick hlow
    refine ⟨h.scanning, h.bound, h.fires, fun hd hc inner' hi' k tick' v hk => ?_⟩
    obtain rfl : inner = inner' := Option.some.inj (hi.symm.trans hi')
    rcases h.covered hd hc inner hi k tick' v hk with hw | hm | ho
    · exact .inl hw
    · exact .inr (.inl hm)
    · rcases Nat.lt_or_ge tick inner.wakeupState with hlt | hge
      · exact .inr (.inr ⟨hlow _ ho, hlt⟩)
      · exact .inl (hge.trans (hlow _ ho))
  cases op with
  | ownerLoad =>
    simp only [MyMio.ownerStep] at how
    split at how
    · rename_i tick ho
      obtain rfl := Option.some.inj how
      exact hloaded tick fun x hx => by rwa [show a.owner = .load tick from ho] at hx
    · cases how
  | ownerExchange =>
    simp only [MyMio.ownerStep] at how
    split at how
    · rename_i curr tick ho
      have ho' : a.owner = .exchange curr tick := ho
      have hlow : ∀ x, a.owner.Lowers x → tick ≤ x ∧ tick < curr := fun x hx => by rwa [ho'] at hx
      split at how
      · rename_i hle
        obtain rfl := Option.some.inj how
        refine ⟨h.scanning, h.bound, h.fires, fun hd hc inner' hi' k tick' v hk => ?_⟩
        refine (h.covered hd hc inner' hi' k tick' v hk).imp_right fun hcov => hcov.imp_right ?_
        exact fun hx => absurd (hlow _ hx).2 (Nat.not_lt_of_le hle)
      · rename_i hgt
        split at how
        · rename_i hword
          obtain rfl := Option.some.inj how
          refine ⟨h.scanning, h.bound, h.fires, fun hd hc inner' hi' k tick' v hk => ?_⟩
          obtain rfl := Option.some.inj hi'
          show tick ≤ max tick' a.timer.tick ∨ a.moved = true ∨ False
          rcases h.covered hd hc inner hi k tick' v hk with hw | hm | hx
          · exact .inl (by omega)
          · exact .inr (.inl hm)
          · exact .inl (hlow _ hx).1
        · obtain rfl := Option.some.inj how
          exact hloaded tick fun x hx => (hlow x hx).1
    · cases how
  | _ => cases how

/-- **The thread's steps.** Only its exchange changes the word, and then it is about to set the
readiness. -/
theorem Watching.threadStep (h : Watching a) {op : WakeupOp T}
    (hstep : alarmThread a op = some a') : Watching a' := by
  unfold alarmThread at hstep
  split at hstep
  · cases hstep
  rename_i hsetting
  obtain ⟨inner, hi, hstep⟩ := Option.bind_eq_some_iff.mp hstep
  obtain ⟨inner₁, hthread, rfl⟩ := Option.map_eq_some_iff.mp hstep
  have hword : inner₁.wakeupState = inner.wakeupState ∨
      inner.thread = .exchange inner.wakeupState := by
    cases op with
    | threadLoad =>
      simp only [MyMio.threadStep] at hthread
      split at hthread
      · obtain rfl := Option.some.inj hthread
        exact .inl rfl
      · cases hthread
    | threadLoop elapsed =>
      simp only [MyMio.threadStep] at hthread
      split at hthread
      · split at hthread
        · obtain rfl := Option.some.inj hthread
          exact .inl rfl
        · split at hthread
          · obtain rfl := Option.some.inj hthread
            exact .inl rfl
          · split at hthread <;>
            · obtain rfl := Option.some.inj hthread
              exact .inl rfl
      · cases hthread
    | threadUnpark =>
      simp only [MyMio.threadStep] at hthread
      split at hthread
      · obtain rfl := Option.some.inj hthread
        exact .inl rfl
      · cases hthread
    | threadExchange =>
      simp only [MyMio.threadStep] at hthread
      split at hthread
      · rename_i sleepUntilTick hpc
        split at hthread
        · rename_i hequal
          exact .inr (hequal ▸ hpc)
        · obtain rfl := Option.some.inj hthread
          exact .inl rfl
      · cases hthread
    | _ => cases hthread
  refine ⟨h.scanning, h.bound, fun hm => ?_, fun hd hc inner' hi' k tick v hk => ?_⟩
  · show a.readiness = Ready.readable ∨ decide (inner.thread = .exchange inner.wakeupState) = true
    rcases Bool.or_eq_true_iff.mp hm with hm | htaken
    · exact .inl ((h.fires hm).resolve_right hsetting)
    · exact .inr htaken
  · obtain rfl := Option.some.inj hi'
    show inner₁.wakeupState ≤ max tick a.timer.tick ∨
      (a.moved || decide (inner.thread = .exchange inner.wakeupState)) = true ∨
        a.owner.Lowers (max tick a.timer.tick)
    rcases hword with hsame | htaken
    · rw [hsame]
      refine (h.covered hd hc inner hi k tick v hk).imp_right fun hcov => hcov.imp_left fun hm => ?_
      rw [hm, Bool.true_or]
    · exact .inr (.inl (by rw [decide_eq_true htaken, Bool.or_true]))

theorem alarmStep_watching {op : AlarmOp T} (h : Watching a) (hstep : alarmStep a op = some a') :
    Watching a' := by
  have hcall : (if a.owner = .idle ∧ a.clearing = false then alarmCall a op else none) = some a' →
      a.owner = .idle ∧ alarmCall a op = some a' := by
    intro hc
    split at hc
    · rename_i hidle
      exact ⟨hidle.1, hc⟩
    · cases hc
  cases op with
  | insert tick state key => exact h.insert (hcall hstep).1 (hcall hstep).2
  | cancelTimeout timeout => exact h.cancelTimeout (hcall hstep).2
  | pollTo fuel target => exact h.pollTo (hcall hstep).2
  | register => exact h.register (hcall hstep).2
  | ownerClear =>
    simp only [alarmStep] at hstep
    split at hstep
    · exact watching_scheduleNext
        (a := { a with readiness := Ready.empty, clearing := false, moved := false }) h.scanning
        h.bound (fun hm => by cases hm) hstep
    · cases hstep
  | ownerLoad => exact h.ownerStep hstep
  | ownerExchange => exact h.ownerStep hstep
  | threadLoad => exact h.threadStep hstep
  | threadLoop elapsed => exact h.threadStep hstep
  | threadUnpark => exact h.threadStep hstep
  | threadExchange => exact h.threadStep hstep
  | threadSet =>
    simp only [alarmStep] at hstep
    split at hstep
    · obtain rfl := Option.some.inj hstep
      exact ⟨h.scanning, h.bound, fun _ => .inl rfl, h.covered⟩
    · cases hstep

end Steps

/-- **No timer wakeup is lost.** In every interleaving, outside the calls of the owner and after a
`poll_to` that found nothing, each pending timeout is covered by the word, or the thread has taken a
tick out of it since the readiness was cleared, and has set the readiness or is about to. -/
theorem no_lost_wakeup (tickMs numSlots : ℕ) (a : Alarm T)
    (ha : Reachable alarmStep (· = Alarm.new tickMs numSlots) a) (inner : Inner)
    (hinner : a.inner = some inner) (howner : a.owner = .idle) (hclearing : a.clearing = false)
    (hdrained : a.drained = true) (k : Token) (tick : ℕ) (v : T)
    (hk : a.timer.pending k = some (tick, v)) :
    inner.wakeupState ≤ max tick a.timer.tick ∨
      a.moved = true ∧ (a.readiness = Ready.readable ∨ a.setting = true) := by
  have hw : Watching a := ha.invariant
    (fun a hinit => by
      subst hinit
      exact ⟨scanning_new tickMs numSlots, fun _ _ _ _ hk => (by cases hk), fun hm => (by cases hm),
        fun _ _ _ hi => by cases hi⟩)
    (fun a op a' hw hstep => alarmStep_watching hw hstep)
  rcases hw.covered hdrained hclearing inner hinner k tick v hk with hword | hm | ho
  · exact .inl hword
  · exact .inr ⟨hm, hw.fires hm⟩
  · rw [howner] at ho
    exact ho.elim

def dueTickOps : List (AlarmOp Bool) :=
  [.register, .ownerLoad, .ownerExchange, .insert 1 true ⟨0⟩, .ownerLoad, .ownerExchange, .threadLoad,
    .threadLoop (.fromMillis 100 oneTick_le), .threadExchange]

/-- The thread has taken the only tick out of the word and not yet set the readiness. -/
theorem no_lost_wakeup_due :
    ∃ (a : Alarm Bool) (inner : Inner), run alarmStep (Alarm.new 100 4) dueTickOps = some a ∧
      a.inner = some inner ∧ a.timer.pending ⟨0⟩ = some (1, true) ∧
      (inner.wakeupState ≤ max 1 a.timer.tick ∨
        a.moved = true ∧ (a.readiness = Ready.readable ∨ a.setting = true)) := by
  obtain ⟨a, hrun, hview⟩ : ∃ a, run alarmStep (Alarm.new 100 4) dueTickOps = some a ∧
      (a.inner, a.owner, a.clearing, a.drained, a.timer.pending ⟨0⟩) =
        (some ⟨USIZE_MAX, .loop USIZE_MAX⟩, .idle, false, true, some (1, true)) :=
    Option.map_eq_some_iff.mp rfl
  simp only [Prod.mk.injEq] at hview
  obtain ⟨hinner, howner, hclearing, hdrained, hk⟩ := hview
  have hstart : Reachable alarmStep (· = Alarm.new 100 4) (Alarm.new 100 4 : Alarm Bool) := .start rfl
  exact ⟨a, _, hrun, hinner, hk, no_lost_wakeup 100 4 a (hstart.run hrun) _ hinner howner hclearing
    hdrained ⟨0⟩ 1 true hk⟩

end MyMio

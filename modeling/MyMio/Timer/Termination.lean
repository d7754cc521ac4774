import MyMio.Timer.Arithmetic

/-! # `poll_to` ends

A turn of the loop of `poll_to` goes to the next tick, moves the cursor one entry down the list of its
slot, or returns. That list ends and has no key twice, whatever was set and cancelled before, so there
are no more turns than ticks up to the target, each with one turn for every entry.

A target below the last tick is not enough for that: `poll_to` raises it to the tick of the scan, and
with the scan at the last tick and no entry ahead of the cursor `self.tick += 1` overflows.
-/

namespace MyMio
set_option autoImplicit false

open StepSystem PartialMap

universe u

variable {T : Type u} {t t' : Timer T} {lists : ℕ → List Token} {behind ahead : List Token}

/-! ## One turn -/

/-- The keys from `k` to the end of the list of the slot being scanned, by `links.next`. -/
inductive Timer.Rest (t : Timer T) : Token → List Token → Prop
  | nil : t.Rest EMPTY []
  | cons {k : Token} {e : Entry T} {ks : List Token} : k ≠ EMPTY → t.entries k = some e →
      t.slotFor e.links.tick = t.slotFor t.tick → t.Rest e.links.next ks → t.Rest k (k :: ks)

/-- A turn goes to the next tick, moves the cursor one entry down a list without repetition, or
returns an entry and leaves the cursor off it. -/
inductive Progress (t t' : Timer T) : Option (Entry T) → Prop
  | tick : t.next = EMPTY → t'.tick = t.tick + 1 → t'.pending = t.pending → Progress t t' none
  | cursor (k : Token) (ks : List Token) : t.Rest t.next (k :: ks) → (k :: ks).Nodup →
      t'.tick = t.tick → t'.pending = t.pending → t'.Rest t'.next ks → Progress t t' none
  | returns (e : Entry T) : t.entries t.next = some e → t'.tick = t.tick → t'.next = e.links.next →
      t'.entries t.next = none → Progress t t' (some e)

theorem Cursor.rest_of_split (c : Cursor t lists behind ahead) :
    ∀ xs ys : List Token, lists (t.slotFor t.tick) = xs ++ ys → t.Rest (ys.headD EMPTY) ys := by
  intro xs ys
  induction ys generalizing xs with
  | nil =>
    intro _
    exact .nil
  | cons k ys ih =>
    intro hl
    have hmem : k ∈ lists (t.slotFor t.tick) := by simp [hl]
    have hne : k ≠ EMPTY := fun hempty => c.empty_not_mem _ (hempty ▸ hmem)
    obtain ⟨e, he, hslot⟩ := c.entry_of_mem hmem
    refine .cons hne he hslot ?_
    rw [(c.toThreaded.neighbours he hl).2]
    exact ih (xs ++ [k]) (by simp [hl])

theorem Cursor.rest (c : Cursor t lists behind ahead) : t.Rest t.next ahead := by
  rw [c.next]
  exact c.rest_of_split behind ahead c.split

theorem Cursor.ahead_nodup (c : Cursor t lists behind ahead) : ahead.Nodup := by
  have hnodup := c.nodup (t.slotFor t.tick)
  rw [c.split] at hnodup
  exact (List.nodup_append.mp hnodup).2.1

/-- **Every turn gets on.** -/
theorem Cursor.progress (c : Cursor t lists behind ahead) {r : Option (Entry T)}
    (h : t.pollTurn = some (t', r)) : Progress t t' r := by
  rcases c.pollTurn h with ⟨rfl, rfl, htick, hpend, -⟩ |
    ⟨k, rest, e, lists', rfl, he, -, rfl, htick, hpend, c'⟩ |
    ⟨k, rest, e, rfl, -, -, rfl, htick, hpend, c'⟩
  · exact .tick c.next htick hpend
  · have hnext : t.next = k := c.next
    have hlink := (c.toThreaded.neighbours he c.split).2
    refine .returns e (hnext ▸ he) htick (c'.next.trans hlink.symm) ?_
    rw [hnext]
    refine pendingOf_eq_none.mp ?_
    show t'.pending k = none
    rw [hpend, Function.update_self]
  · exact .cursor k rest c.rest c.ahead_nodup htick hpend c'.rest

/-! ## The turns that are left -/

theorem Cursor.length_le (c : Cursor t lists behind ahead) {s : ℕ} :
    (lists s).length ≤ t.timeouts.card := by
  refine length_le_card_values (c.nodup s) fun k hk => ?_
  obtain ⟨tick, v, hpend, -⟩ := (c.mem s k).mp hk
  rw [hpend]
  rfl

theorem timeouts_congr (h : t'.pending = t.pending) : t'.timeouts = t.timeouts := by
  rw [Timer.timeouts, h]
  rfl

/-- The loop ends within one turn for each entry ahead of the cursor and, for each tick up to the
target, one more than there are entries. -/
theorem Cursor.pollLoop_within {target : ℕ} (htarget : target < U64_MAX) {fuel : ℕ}
    (c : Cursor t lists behind ahead)
    (hfuel : (target + 1 - t.tick) * (t.timeouts.card + 1) + ahead.length < fuel) :
    ∃ p, Timer.pollLoop fuel t target = some p := by
  induction fuel generalizing t lists behind ahead with
  | zero => omega
  | succ fuel ih =>
    by_cases hle : t.tick ≤ target
    · obtain ⟨t₁, r, hturn⟩ := c.pollTurn_isSome (Nat.lt_of_le_of_lt hle htarget)
      rcases c.pollTurn hturn with ⟨rfl, rfl, htick, hpend, c'⟩ | ⟨_, _, e, _, -, -, -, rfl, -⟩ |
        ⟨k, rest, e, rfl, -, -, rfl, htick, hpend, c'⟩
      · -- the next tick: its list is no longer than what is pending
        have hlength := c.length_le (s := t.slotFor (t.tick + 1))
        have hleft : target + 1 - t.tick = (target + 1 - t₁.tick) + 1 := by omega
        rw [hleft, Nat.succ_mul] at hfuel
        have hcard := congrArg Multiset.card (timeouts_congr hpend)
        obtain ⟨p, hp⟩ := ih c' (by rw [hcard]; omega)
        exact ⟨p, by simp only [Timer.pollLoop, hle, if_true, hturn, hp]⟩
      · exact ⟨(t₁, some e), by simp only [Timer.pollLoop, hle, if_true, hturn]⟩
      · have hcard := congrArg Multiset.card (timeouts_congr hpend)
        rw [List.length_cons] at hfuel
        obtain ⟨p, hp⟩ := ih c' (by rw [hcard, htick]; omega)
        exact ⟨p, by simp only [Timer.pollLoop, hle, if_true, hturn, hp]⟩
    · exact ⟨(t, none), by simp [Timer.pollLoop, hle]⟩

theorem clamp_eq (t : Timer T) (target : ℕ) :
    (if target < t.tick then t.tick else target) = max target t.tick := by
  split <;> omega

/-- What a call may take: for each tick up to the target and one more, a turn for each entry and one
more. -/
noncomputable def Timer.turnsLeft (t : Timer T) (target : ℕ) : ℕ :=
  (max target t.tick + 2 - t.tick) * (t.timeouts.card + 1)

theorem HasCursor.pollTo_within (ht : HasCursor t) {target : ℕ} (htarget : target < U64_MAX)
    (htick : t.tick < U64_MAX) : ∃ p, t.pollTo (t.turnsLeft target) target = some p := by
  obtain ⟨lists, behind, ahead, c⟩ := ht
  unfold Timer.pollTo
  rw [clamp_eq]
  refine c.pollLoop_within (by omega) ?_
  have hahead : ahead.length ≤ t.timeouts.card := by
    have hlength := c.length_le (s := t.slotFor t.tick)
    rw [c.split, List.length_append] at hlength
    omega
  have hleft : max target t.tick + 2 - t.tick = (max target t.tick + 1 - t.tick) + 1 := by omega
  rw [Timer.turnsLeft, hleft, Nat.succ_mul]
  omega

/-! ## Polling until there is nothing -/

/-- Called with this target again and again, `poll_to` returns `None` in the `n`th call at the
latest. -/
inductive RunsOut (target : ℕ) : ℕ → Timer T → Prop
  | nothing {n fuel : ℕ} {t t' : Timer T} : t.pollTo fuel target = some (t', none) →
      RunsOut target (n + 1) t
  | entry {n fuel : ℕ} {t t' : Timer T} {e : Entry T} : t.pollTo fuel target = some (t', some e) →
      RunsOut target n t' → RunsOut target (n + 1) t

/-- Each call that returns an entry leaves one fewer. -/
theorem HasCursor.runsOut (ht : HasCursor t) {target : ℕ} (htarget : target < U64_MAX)
    (htick : t.tick < U64_MAX) : RunsOut target (t.timeouts.card + 1) t := by
  induction hn : t.timeouts.card generalizing t with
  | zero =>
    obtain ⟨⟨t', r⟩, hpoll⟩ := ht.pollTo_within htarget htick
    cases r with
    | none => exact .nothing hpoll
    | some e =>
      obtain ⟨k, -, -, htimeouts⟩ := ht.conserves.polled _ _ _ _ hpoll
      rw [htimeouts, Multiset.card_cons] at hn
      omega
  | succ n ih =>
    obtain ⟨⟨t', r⟩, hpoll⟩ := ht.pollTo_within htarget htick
    cases r with
    | none => exact .nothing hpoll
    | some e =>
      obtain ⟨k, -, -, htimeouts⟩ := ht.conserves.polled _ _ _ _ hpoll
      rw [htimeouts, Multiset.card_cons] at hn
      obtain ⟨hc, hle, -⟩ := pollTo_tick ht hpoll
      simp only [Option.isNone_some, Bool.false_eq_true, if_false] at hle
      exact .entry hpoll (ih hc (by omega) (by omega))

/-! ## The last tick -/

/-- The scan and the timeouts are at ticks there are. -/
structure InRange (t : Timer T) : Prop where
  cursor : HasCursor t
  tick_le : t.tick ≤ U64_MAX
  pending_le : ∀ k tick v, t.pending k = some (tick, v) → tick ≤ U64_MAX

theorem inRange_new (tickMs numSlots : ℕ) : InRange (Timer.new tickMs numSlots : Timer T) :=
  ⟨⟨_, _, _, cursor_new tickMs numSlots⟩, Nat.zero_le _, fun _ _ _ hk => by cases hk⟩

theorem InRange.inserted (h : InRange t) (hc : HasCursor t') {key : Token} {tick : ℕ} {v : T}
    (hle : tick ≤ U64_MAX) (hpend : t'.pending = Function.update t.pending key (some (tick, v)))
    (htick : t'.tick = t.tick) : InRange t' := by
  refine ⟨hc, htick ▸ h.tick_le, fun k tick' v' hk => ?_⟩
  rw [hpend] at hk
  by_cases he : k = key
  · rw [he, Function.update_self] at hk
    obtain ⟨rfl, -⟩ := Prod.mk.inj (Option.some.inj hk)
    exact hle
  · rw [Function.update_of_ne he] at hk
    exact h.pending_le k tick' v' hk

theorem InRange.kept (h : InRange t) (hc : HasCursor t') (htick : t'.tick ≤ U64_MAX)
    (hpend : t'.pending = t.pending ∨ ∃ key, t'.pending = Function.update t.pending key none) :
    InRange t' := by
  refine ⟨hc, htick, fun k tick v hk => ?_⟩
  rcases hpend with hpend | ⟨key, hpend⟩
  · rw [hpend] at hk
    exact h.pending_le k tick v hk
  · rw [hpend] at hk
    by_cases he : k = key
    · simp [he] at hk
    · rw [Function.update_of_ne he] at hk
      exact h.pending_le k tick v hk

theorem InRange.pollTurn (h : InRange t) {r : Option (Entry T)} (hturn : t.pollTurn = some (t', r)) :
    InRange t' ∧ t.tick ≤ t'.tick := by
  have hc := hasCursor_turn h.cursor hturn
  have htick_le := h.tick_le
  obtain ⟨lists, behind, ahead, c⟩ := h.cursor
  rcases c.pollTurn hturn with ⟨rfl, -, htick, hpend, -⟩ | ⟨k, _, _, _, -, -, -, -, htick, hpend, -⟩ |
    ⟨_, _, _, -, -, -, -, htick, hpend, -⟩
  · have hlt := c.enter_lt hturn
    exact ⟨h.kept hc (by omega) (.inl hpend), by omega⟩
  · exact ⟨h.kept hc (by omega) (.inr ⟨k, hpend⟩), by omega⟩
  · exact ⟨h.kept hc (by omega) (.inl hpend), by omega⟩

/-- The scan never goes back, and without an entry it has gone beyond the target. -/
theorem InRange.pollTo (h : InRange t) {fuel target : ℕ} {r : Option (Entry T)}
    (hpoll : t.pollTo fuel target = some (t', r)) :
    InRange t' ∧ t.tick ≤ t'.tick ∧ (r = none → max target t.tick < t'.tick) := by
  rw [Timer.pollTo, clamp_eq] at hpoll
  obtain ⟨⟨h', hle⟩, hend, -⟩ := pollLoop_rule (P := fun t₀ => InRange t₀ ∧ t.tick ≤ t₀.tick)
    (fun t₀ t₁ r₁ hP _ hturn =>
      ⟨(hP.1.pollTurn hturn).1, hP.2.trans (hP.1.pollTurn hturn).2⟩) ⟨h, Nat.le_refl _⟩ hpoll
  exact ⟨h', hle, hend⟩

theorem clampTick_le {tick₀ tick : ℕ} (hle : tick₀ ≤ U64_MAX) (h : t.clampTick tick₀ = some tick) :
    tick ≤ U64_MAX := by
  unfold Timer.clampTick at h
  split at h
  · have hlt := checkedSucc_eq_some h
    omega
  · obtain rfl := Option.some.inj h
    exact hle

theorem timerStep_inRange {op : TimerOp T} (h : InRange t) (hs : timerStep t op = some t') :
    InRange t' := by
  have hc := timerStep_cursor h.cursor hs
  cases op with
  | setTimeoutAt delayFromStart state key =>
    obtain ⟨⟨t₁, timeout⟩, hset, rfl⟩ := Option.map_eq_some_iff.mp hs
    obtain ⟨tick₀, tick, hround, hclamp, hins⟩ := setTimeoutAt_spec hset
    obtain ⟨lists, behind, ahead, c⟩ := h.cursor
    obtain ⟨lists', -, hpend, htick, -⟩ := c.inserted hins
    exact h.inserted hc (clampTick_le (durationToTick_le hround) hclamp) hpend htick
  | cancelTimeout timeout =>
    obtain ⟨⟨t₁, r⟩, hcancel, rfl⟩ := Option.map_eq_some_iff.mp hs
    obtain ⟨lists, behind, ahead, c⟩ := h.cursor
    rcases cancelTimeout_cases c hcancel with ⟨_, _, -, -, -, -, hpend, htick⟩ | ⟨-, -, rfl⟩
    · exact h.kept hc (htick ▸ h.tick_le) (.inr ⟨_, hpend⟩)
    · exact h
  | pollTo fuel target =>
    obtain ⟨⟨t₁, r⟩, hpoll, rfl⟩ := Option.map_eq_some_iff.mp hs
    exact (h.pollTo hpoll).1

/-- At the last tick with no entry ahead, the loop has nowhere to go. -/
theorem pollTo_stuck (hlast : t.tick = U64_MAX) (hnext : t.next = EMPTY) {target : ℕ}
    (htarget : target ≤ U64_MAX) (fuel : ℕ) : t.pollTo fuel target = none := by
  have hmax : max target t.tick = U64_MAX := by omega
  rw [Timer.pollTo, clamp_eq, hmax]
  cases fuel with
  | zero => rfl
  | succ fuel =>
    have hturn : t.pollTurn = none := by simp [Timer.pollTurn, hnext, checkedSucc, hlast]
    simp [Timer.pollLoop, hturn, hlast]

theorem HasCursor.next_eq_empty (ht : HasCursor t) (hpend : ∀ k, t.pending k = none) :
    t.next = EMPTY := by
  obtain ⟨lists, behind, ahead, c⟩ := ht
  cases ahead with
  | nil => exact c.next
  | cons k ks =>
    obtain ⟨e, he, -⟩ := c.entry_of_mem (c.ahead_mem (k := k) List.mem_cons_self)
    rw [pendingOf_eq_none.mp (hpend k)] at he
    cases he

theorem InRange.pollTo_due (h : InRange t) (hlast : t.tick = U64_MAX) (hnext : t.next ≠ EMPTY)
    (target : ℕ) : ∃ p, t.pollTo 1 target = some p := by
  obtain ⟨lists, behind, ahead, c⟩ := h.cursor
  have hsome : t.pollTurn ≠ none := fun hnone => hnext (c.pollTurn_eq_none hnone).1
  obtain ⟨⟨t₁, r⟩, hturn⟩ := Option.ne_none_iff_exists'.mp hsome
  have hle : t.tick ≤ max target t.tick := Nat.le_max_right ..
  unfold Timer.pollTo
  rw [clamp_eq]
  rcases c.pollTurn hturn with ⟨rfl, -⟩ | ⟨_, _, e, _, -, -, -, rfl, -⟩ | ⟨k, _, e, -, he, hlate, -⟩
  · exact absurd c.next hnext
  · exact ⟨(t₁, some e), by simp only [Timer.pollLoop, hle, if_true, hturn]⟩
  · have hentry := h.pending_le k _ _ (pendingOf_of_entry he)
    omega

theorem InRange.ends_iff (h : InRange t) {target : ℕ} (htarget : target < U64_MAX) :
    (∃ fuel p, t.pollTo fuel target = some p) ↔ t.tick < U64_MAX ∨ t.next ≠ EMPTY := by
  have htick := h.tick_le
  by_cases hlt : t.tick < U64_MAX
  · exact ⟨fun _ => .inl hlt, fun _ => ⟨_, h.cursor.pollTo_within htarget hlt⟩⟩
  · have hlast : t.tick = U64_MAX := by omega
    refine ⟨fun ⟨fuel, p, hp⟩ => .inr fun hnext => ?_, fun hor => ?_⟩
    · rw [pollTo_stuck hlast hnext (Nat.le_of_lt htarget)] at hp
      cases hp
    · exact ⟨1, h.pollTo_due hlast (hor.resolve_left hlt) target⟩

/-- At the last tick no call returns `None`. -/
theorem RunsOut.tick_lt {target n : ℕ} (hr : RunsOut target n t) (h : InRange t) :
    t.tick < U64_MAX := by
  induction hr with
  | nothing hpoll =>
    obtain ⟨h', -, hend⟩ := h.pollTo hpoll
    have hlt := hend rfl
    have hle := h'.tick_le
    omega
  | entry hpoll _ ih =>
    obtain ⟨h', hle, -⟩ := h.pollTo hpoll
    have hlt := ih h'
    omega

/-! ## Termination -/

/-- Every turn of the loop gets on, the loop ends, and the calls run out of entries. -/
structure Terminates (t : Timer T) (target : ℕ) : Prop where
  turns : ∀ t₀, Passes (max target t.tick) t t₀ → t₀.tick ≤ max target t.tick →
    ∃ t₁ r, t₀.pollTurn = some (t₁, r) ∧ Progress t₀ t₁ r
  ends : ∃ p, t.pollTo (t.turnsLeft target) target = some p
  runsOut : RunsOut target (t.timeouts.card + 1) t

theorem HasCursor.terminates (ht : HasCursor t) {target : ℕ} (htarget : target < U64_MAX)
    (htick : t.tick < U64_MAX) : Terminates t target where
  turns t₀ hp hle := by
    obtain ⟨⟨lists, behind, ahead, c⟩, -⟩ := hp.pending ht
    obtain ⟨t₁, r, hturn⟩ := c.pollTurn_isSome (by omega)
    exact ⟨t₁, r, hturn, c.progress hturn⟩
  ends := ht.pollTo_within htarget htick
  runsOut := ht.runsOut htarget htick

/-- **`poll_to` terminates unless the scan is at the last tick.** In every state that calls lead to, for
every target below the last tick; a single call also ends at the last tick when there is an entry ahead
of the cursor. -/
theorem poll_to_terminates_iff (tickMs numSlots : ℕ) (t : Timer T)
    (ht : Reachable timerStep (· = Timer.new tickMs numSlots) t) (target : ℕ)
    (htarget : target < U64_MAX) :
    (Terminates t target ↔ t.tick < U64_MAX) ∧
      ((∃ fuel p, t.pollTo fuel target = some p) ↔ t.tick < U64_MAX ∨ t.next ≠ EMPTY) := by
  have h : InRange t := ht.invariant (fun t hinit => hinit ▸ inRange_new tickMs numSlots)
    (fun t op t' h hstep => timerStep_inRange h hstep)
  exact ⟨⟨fun hterm => hterm.runsOut.tick_lt h, h.cursor.terminates htarget⟩, h.ends_iff htarget⟩

/-- Two timeouts in one slot, the cursor on the later one when the other has been returned. -/
theorem poll_to_terminates_iff_two :
    ∃ t : Timer Bool, run timerStep (Timer.new 100 4)
        [.setTimeoutAt (.fromMillis 500 (by decide)) false ⟨1⟩,
          .setTimeoutAt (.fromMillis 100 (by decide)) true ⟨0⟩, .pollTo 9 1] = some t ∧
      t.next = ⟨1⟩ ∧ Terminates t 7 :=
  ⟨_, rfl, rfl, (poll_to_terminates_iff 100 4 _
    (.next (.pollTo 9 1)
      (.next (.setTimeoutAt (.fromMillis 100 (by decide)) true ⟨0⟩)
        (.next (.setTimeoutAt (.fromMillis 500 (by decide)) false ⟨1⟩) (.start rfl) rfl) rfl) rfl)
    7 (by decide)).1.mpr (by decide)⟩

/-- A new timer, polled for the last tick but one: the next poll, for tick 0, does not end. -/
theorem poll_to_runs_over :
    ∃ (fuel : ℕ) (t : Timer Bool),
      run timerStep (Timer.new 100 4) [.pollTo fuel (U64_MAX - 1)] = some t ∧
        ¬ Terminates t 0 ∧ ∀ fuel, t.pollTo fuel 0 = none := by
  have hnew : InRange (Timer.new 100 4 : Timer Bool) := inRange_new 100 4
  obtain ⟨⟨t, r⟩, hpoll⟩ := hnew.cursor.pollTo_within (show U64_MAX - 1 < U64_MAX by decide) (by decide)
  obtain ⟨h, -, hend⟩ := hnew.pollTo hpoll
  have hnone : r = none := by
    cases r with
    | none => rfl
    | some e =>
      obtain ⟨k, hk, -⟩ := hnew.cursor.conserves.polled _ _ _ _ hpoll
      cases hk
  subst hnone
  have hpend := hnew.cursor.conserves.notPolled _ _ _ hpoll
  have hlast : t.tick = U64_MAX := by
    have hlt := hend rfl
    have hle := h.tick_le
    omega
  have hnext : t.next = EMPTY := h.cursor.next_eq_empty fun k => congrFun hpend k
  have hstep : timerStep (Timer.new 100 4) (.pollTo _ (U64_MAX - 1)) = some t :=
    Option.map_eq_some_iff.mpr ⟨_, hpoll, rfl⟩
  refine ⟨_, t, run_cons_eq hstep [], fun hterm => ?_, pollTo_stuck hlast hnext (Nat.zero_le _)⟩
  have hlt := hterm.runsOut.tick_lt h
  omega

end MyMio

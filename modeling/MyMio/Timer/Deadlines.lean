import MyMio.Foundations.StepSystem
import MyMio.Timer.Cursor

/-! # No timeout is missed, and none fires early

`Unmissed` is the invariant behind `poll_to`: no pending tick is below the tick being scanned, and the
entries behind the cursor are for later ticks. A turn of the loop keeps it, and leaves nothing due
when the loop ends (`poll_leaves_nothing_due`). `set_timeout_at` keeps it as long as the tick it rounds to
is not the one being scanned: a past tick is moved to the next one, but the current one is let
through, and its entry lands behind the cursor.

An entry is only returned at a tick of the scan. The scan gets past the clock when `poll_to` is called again
for a target that has been drained, by one tick for each such call that finds nothing, and the next target
that is not behind the scan makes up for all of them (`returned_by_then`).
-/

namespace MyMio
set_option autoImplicit false

open StepSystem

universe u

variable {T : Type u}

/-! ## Runs of a timer -/

inductive TimerOp (T : Type u)
  | setTimeoutAt (delayFromStart : Duration) (state : T) (key : Token)
  | cancelTimeout (timeout : Timeout)
  | pollTo (fuel : ℕ) (target : ℕ)

def timerStep (t : Timer T) : TimerOp T → Option (Timer T)
  | .setTimeoutAt delayFromStart state key => (t.setTimeoutAt delayFromStart state key).map Prod.fst
  | .cancelTimeout timeout => (t.cancelTimeout timeout).map Prod.fst
  | .pollTo fuel target => (t.pollTo fuel target).map Prod.fst

/-- A `set_timeout_at` does not round to the tick being scanned. -/
def OffCursor (t : Timer T) : TimerOp T → Prop
  | .setTimeoutAt delayFromStart _ _ => durationToTick delayFromStart t.tickMs ≠ some t.tick
  | _ => True

instance (t : Timer T) (op : TimerOp T) : Decidable (OffCursor t op) :=
  match op with
  | .setTimeoutAt _ _ _ => inferInstanceAs (Decidable (_ ≠ _))
  | .cancelTimeout _ => .isTrue trivial
  | .pollTo _ _ => .isTrue trivial

/-! ## The loop of `poll_to` -/

section Loop
variable {t t' : Timer T} {lists lists' : ℕ → List Token} {behind behind' ahead ahead' : List Token}

/-- **The loop rule.** What every turn at a tick up to the target keeps holds when the loop ends; it
ends beyond the target, or with the entry the last turn returned. -/
theorem pollLoop_rule {P : Timer T → Prop} {target : ℕ}
    (hturn : ∀ t t' r, P t → t.tick ≤ target → t.pollTurn = some (t', r) → P t') {fuel : ℕ}
    {r : Option (Entry T)} (ht : P t) (h : Timer.pollLoop fuel t target = some (t', r)) :
    P t' ∧ (r = none → target < t'.tick) ∧
      ∀ e, r = some e → ∃ t₀, P t₀ ∧ t₀.tick ≤ target ∧ t₀.pollTurn = some (t', some e) := by
  induction fuel generalizing t with
  | zero => cases h
  | succ fuel ih =>
    unfold Timer.pollLoop at h
    by_cases hle : t.tick ≤ target
    · rw [if_pos hle] at h
      cases hone : t.pollTurn with
      | none => simp [hone] at h
      | some p =>
        obtain ⟨t₁, r₁⟩ := p
        have ht₁ := hturn t t₁ r₁ ht hle hone
        rw [hone] at h
        cases r₁ with
        | none => exact ih ht₁ h
        | some e =>
          obtain ⟨rfl, rfl⟩ := Prod.mk.inj (Option.some.inj h)
          refine ⟨ht₁, fun hr => (by cases hr), fun e' he' => ⟨t, ht, hle, ?_⟩⟩
          rw [← he', hone]
    · rw [if_neg hle] at h
      obtain ⟨rfl, rfl⟩ := Prod.mk.inj (Option.some.inj h)
      exact ⟨ht, fun _ => Nat.lt_of_not_le hle, fun e he => by cases he⟩

def HasCursor (t : Timer T) : Prop := ∃ lists behind ahead, Cursor t lists behind ahead

theorem hasCursor_turn {r : Option (Entry T)} (ht : HasCursor t) (h : t.pollTurn = some (t', r)) :
    HasCursor t' := by
  obtain ⟨lists, behind, ahead, c⟩ := ht
  rcases c.pollTurn h with ⟨-, -, -, -, c'⟩ | ⟨_, _, _, _, -, -, -, -, -, -, c'⟩ |
    ⟨_, _, _, -, -, -, -, -, -, c'⟩
  · exact ⟨_, _, _, c'⟩
  · exact ⟨_, _, _, c'⟩
  · exact ⟨_, _, _, c'⟩

/-- The loop ends: at most one turn for each entry of a slot and one for each slot up to the
target. -/
theorem Cursor.pollLoop_total {target : ℕ} (htarget : target < U64_MAX) (n : ℕ) :
    ∀ {t : Timer T} {lists : ℕ → List Token} {behind ahead : List Token},
      Cursor t lists behind ahead → target < t.tick + n →
      ∃ fuel t' r, Timer.pollLoop fuel t target = some (t', r) := by
  induction n with
  | zero =>
    intro t lists behind ahead c hn
    have hlt : ¬ t.tick ≤ target := by omega
    exact ⟨1, t, none, by simp [Timer.pollLoop, hlt]⟩
  | succ n ih =>
    intro t lists behind ahead
    induction ahead generalizing t lists behind with
    | nil =>
      intro c hn
      by_cases hle : t.tick ≤ target
      · obtain ⟨hturn, c'⟩ := c.enterSlot (Nat.lt_of_le_of_lt hle htarget)
        have htick : (t.enterSlot (t.tick + 1)).tick = t.tick + 1 := rfl
        obtain ⟨fuel, t', r, hr⟩ := ih c' (by omega)
        exact ⟨fuel + 1, t', r, by simp only [Timer.pollLoop, hle, if_true, hturn, hr]⟩
      · exact ⟨1, t, none, by simp [Timer.pollLoop, hle]⟩
    | cons k rest ihl =>
      intro c hn
      by_cases hle : t.tick ≤ target
      · obtain ⟨t₁, r₁, hturn⟩ := c.pollTurn_isSome (Nat.lt_of_le_of_lt hle htarget)
        rcases c.pollTurn hturn with ⟨he, -⟩ | ⟨_, _, e, _, -, -, -, rfl, -⟩ |
          ⟨_, _, _, he, -, -, rfl, htick, -, c'⟩
        · cases he
        · exact ⟨1, t₁, some e, by simp only [Timer.pollLoop, hle, if_true, hturn]⟩
        · obtain ⟨rfl, rfl⟩ := List.cons.inj he
          obtain ⟨fuel, t', r, hr⟩ := ihl c' (by omega)
          exact ⟨fuel + 1, t', r, by simp only [Timer.pollLoop, hle, if_true, hturn, hr]⟩
      · exact ⟨1, t, none, by simp [Timer.pollLoop, hle]⟩

/-- `poll_to` returns, with an entry or without. -/
theorem pollTo_total (ht : HasCursor t) {target : ℕ} (htarget : target < U64_MAX)
    (htick : t.tick < U64_MAX) : ∃ fuel t' r, t.pollTo fuel target = some (t', r) := by
  obtain ⟨lists, behind, ahead, c⟩ := ht
  unfold Timer.pollTo
  split
  · exact c.pollLoop_total htick 1 (by omega)
  · exact c.pollLoop_total htarget (target + 1) (by omega)

end Loop

/-! ## The other calls -/

section Calls
variable {t t' : Timer T} {timeout : Timeout}

theorem insert_vacant {tick : ℕ} {state : T} {key : Token} {p : Timer T × Timeout}
    (h : t.insert tick state key = some p) : t.entries key = none ∧ key ≠ EMPTY := by
  unfold Timer.insert at h
  split at h
  · cases h
  · rename_i hk
    obtain ⟨hk, hne⟩ := not_or.mp hk
    exact ⟨by simpa using hk, hne⟩

/-- **`insert` at a cursor**, from what it returned. -/
theorem Cursor.inserted {lists : ℕ → List Token} {behind ahead : List Token}
    (c : Cursor t lists behind ahead) {tick : ℕ} {state : T} {key : Token}
    (h : t.insert tick state key = some (t', timeout)) :
    ∃ lists', Cursor t' lists' (if t.slotFor tick = t.slotFor t.tick then key :: behind else behind)
        ahead ∧
      t'.pending = Function.update t.pending key (some (tick, state)) ∧ t'.tick = t.tick ∧
      timeout = ⟨key, tick⟩ := by
  obtain ⟨hkey, hne⟩ := insert_vacant h
  obtain ⟨t₁, lists', hins, c', hpend, htick⟩ := c.insert tick state hkey hne
  obtain ⟨rfl, rfl⟩ := Prod.mk.inj (Option.some.inj (hins.symm.trans h))
  exact ⟨lists', c', hpend, htick, rfl⟩

theorem setTimeoutAt_spec {delayFromStart : Duration} {state : T} {key : Token}
    (h : t.setTimeoutAt delayFromStart state key = some (t', timeout)) :
    ∃ tick₀ tick, durationToTick delayFromStart t.tickMs = some tick₀ ∧
      t.clampTick tick₀ = some tick ∧ t.insert tick state key = some (t', timeout) := by
  unfold Timer.setTimeoutAt at h
  cases hd : durationToTick delayFromStart t.tickMs with
  | none => simp [hd] at h
  | some tick₀ =>
    rw [hd] at h
    cases hc : t.clampTick tick₀ with
    | none => simp [hc] at h
    | some tick =>
      simp only [hc] at h
      exact ⟨tick₀, tick, rfl, hc, h⟩

theorem setTimeout_spec {elapsed delayFromNow : Duration} {state : T} {key : Token}
    (h : t.setTimeout elapsed delayFromNow state key = some (t', timeout)) :
    ∃ tick₀ tick, (elapsed.add delayFromNow).bind (durationToTick · t.tickMs) = some tick₀ ∧
      t.clampTick tick₀ = some tick ∧ t.insert tick state key = some (t', timeout) := by
  unfold Timer.setTimeout at h
  cases hd : elapsed.add delayFromNow with
  | none => simp [hd] at h
  | some delayFromStart =>
    simp only [hd] at h
    exact setTimeoutAt_spec h

/-- A tick other than the one being scanned is moved beyond it if it is not there already. -/
theorem clampTick_gt {tick₀ tick : ℕ} (h : t.clampTick tick₀ = some tick) (hne : tick₀ ≠ t.tick) :
    t.tick < tick := by
  unfold Timer.clampTick at h
  split at h
  · have := (checkedSucc_eq_some h).2
    omega
  · obtain rfl := Option.some.inj h
    omega

/-- A handle that finds its own tick under its key takes that entry; any other does nothing. -/
theorem cancelTimeout_cases {lists : ℕ → List Token} {behind ahead : List Token} {r : Option T}
    (c : Cursor t lists behind ahead) (h : t.cancelTimeout timeout = some (t', r)) :
    (∃ e lists', t.entries timeout.token = some e ∧ e.links.tick = timeout.tick ∧
      r = some e.state ∧
      Cursor t' lists' (behind.erase timeout.token) (ahead.erase timeout.token) ∧
      t'.pending = Function.update t.pending timeout.token none ∧ t'.tick = t.tick) ∨
    ((∀ e, t.entries timeout.token = some e → e.links.tick ≠ timeout.tick) ∧ r = none ∧ t' = t) := by
  by_cases hmatch : ∃ e, t.entries timeout.token = some e ∧ e.links.tick = timeout.tick
  · obtain ⟨e, he, htick⟩ := hmatch
    obtain ⟨t₁, lists', hcancel, c', hpend, ht⟩ := c.cancelTimeout he htick
    obtain ⟨rfl, rfl⟩ := Prod.mk.inj (Option.some.inj (hcancel.symm.trans h))
    exact .inl ⟨e, lists', he, htick, rfl, c', hpend, ht⟩
  · have hidle : ∀ e, t.entries timeout.token = some e → e.links.tick ≠ timeout.tick :=
      fun e he htick => hmatch ⟨e, he, htick⟩
    obtain ⟨rfl, rfl⟩ := Prod.mk.inj (Option.some.inj ((cancelTimeout_idle hidle).symm.trans h))
    exact .inr ⟨hidle, rfl, rfl⟩

theorem timerStep_cursor {op : TimerOp T} (ht : HasCursor t) (h : timerStep t op = some t') :
    HasCursor t' := by
  cases op with
  | setTimeoutAt delayFromStart state key =>
    obtain ⟨lists, behind, ahead, c⟩ := ht
    obtain ⟨⟨t₁, timeout⟩, hset, rfl⟩ := Option.map_eq_some_iff.mp h
    obtain ⟨tick₀, tick, -, -, hins⟩ := setTimeoutAt_spec hset
    obtain ⟨lists', c', -⟩ := c.inserted hins
    exact ⟨_, _, _, c'⟩
  | cancelTimeout timeout =>
    obtain ⟨lists, behind, ahead, c⟩ := ht
    obtain ⟨⟨t₁, r⟩, hcancel, rfl⟩ := Option.map_eq_some_iff.mp h
    rcases cancelTimeout_cases c hcancel with ⟨e, lists', -, -, -, c', -⟩ | ⟨-, -, rfl⟩
    · exact ⟨_, _, _, c'⟩
    · exact ⟨_, _, _, c⟩
  | pollTo fuel target =>
    obtain ⟨⟨t₁, r⟩, hpoll, rfl⟩ := Option.map_eq_some_iff.mp h
    exact (pollLoop_rule (fun _ _ _ ht _ => hasCursor_turn ht) ht hpoll).1

end Calls

/-! ## Nothing due is left behind -/

structure Unmissed (t : Timer T) (lists : ℕ → List Token) (behind ahead : List Token) : Prop
    extends Cursor t lists behind ahead where
  notPast : ∀ k tick v, t.pending k = some (tick, v) → t.tick ≤ tick
  later : ∀ k tick v, k ∈ behind → t.pending k = some (tick, v) → t.tick < tick

section Invariant
variable {t t' : Timer T} {lists lists' : ℕ → List Token} {behind behind' ahead ahead' : List Token}

theorem unmissed_new (tickMs numSlots : ℕ) :
    Unmissed (Timer.new tickMs numSlots : Timer T) (fun _ => []) [] [] :=
  ⟨cursor_new tickMs numSlots, fun _ _ _ _ => Nat.zero_le _, fun _ _ _ hk => by cases hk⟩

theorem Unmissed.inserted (u : Unmissed t lists behind ahead) (c : Cursor t' lists' behind' ahead')
    {key : Token} {tick : ℕ} {v : T} (htick : t.tick < tick)
    (hpend : t'.pending = Function.update t.pending key (some (tick, v))) (ht : t'.tick = t.tick)
    (hb : ∀ k ∈ behind', k = key ∨ k ∈ behind) : Unmissed t' lists' behind' ahead' := by
  have hnew : ∀ k tick' v', t'.pending k = some (tick', v') →
      (k = key ∧ tick' = tick) ∨ (k ≠ key ∧ t.pending k = some (tick', v')) := by
    intro k tick' v' hk
    rw [hpend] at hk
    by_cases he : k = key
    · subst he
      rw [Function.update_self] at hk
      exact .inl ⟨rfl, (Prod.mk.inj (Option.some.inj hk)).1.symm⟩
    · rw [Function.update_of_ne he] at hk
      exact .inr ⟨he, hk⟩
  refine ⟨c, fun k tick' v' hk => ?_, fun k tick' v' hm hk => ?_⟩
  · rw [ht]
    rcases hnew k tick' v' hk with ⟨-, rfl⟩ | ⟨-, hk⟩
    · exact Nat.le_of_lt htick
    · exact u.notPast k tick' v' hk
  · rw [ht]
    rcases hnew k tick' v' hk with ⟨-, rfl⟩ | ⟨hne, hk⟩
    · exact htick
    · exact u.later k tick' v' ((hb k hm).resolve_left hne) hk

theorem Unmissed.removed (u : Unmissed t lists behind ahead) (c : Cursor t' lists' behind' ahead')
    {key : Token} (hpend : t'.pending = Function.update t.pending key none) (ht : t'.tick = t.tick)
    (hb : ∀ k ∈ behind', k ∈ behind) : Unmissed t' lists' behind' ahead' := by
  have hold : ∀ k p, t'.pending k = some p → t.pending k = some p := by
    intro k p hk
    rw [hpend] at hk
    by_cases he : k = key
    · subst he
      simp at hk
    · rwa [Function.update_of_ne he] at hk
  refine ⟨c, fun k tick v hk => ?_, fun k tick v hm hk => ?_⟩
  · rw [ht]
    exact u.notPast k tick v (hold k _ hk)
  · rw [ht]
    exact u.later k tick v (hb k hm) (hold k _ hk)

/-- At the end of a list nothing is left for the tick of the scan. -/
theorem Unmissed.exhausted (u : Unmissed t lists behind []) {k : Token} {tick : ℕ} {v : T}
    (hk : t.pending k = some (tick, v)) : t.tick < tick := by
  refine Nat.lt_of_le_of_ne (u.notPast k tick v hk) fun he => ?_
  have hmem : k ∈ lists (t.slotFor t.tick) := he ▸ u.pending_mem hk
  rw [u.split, List.append_nil] at hmem
  exact absurd he (Nat.ne_of_lt (u.later k tick v hmem hk))

theorem Unmissed.pollTurn (u : Unmissed t lists behind ahead) {r : Option (Entry T)}
    (h : t.pollTurn = some (t', r)) :
    ∃ lists' behind' ahead', Unmissed t' lists' behind' ahead' := by
  rcases u.toCursor.pollTurn h with ⟨rfl, -, htick, hpend, c⟩ |
    ⟨k, rest, e, lists', rfl, he, hdue, -, htick, hpend, c⟩ |
    ⟨k, rest, e, rfl, he, hlate, -, htick, hpend, c⟩
  · refine ⟨_, _, _, c, fun k tick v hk => ?_, fun k _ _ hk => by cases hk⟩
    rw [hpend] at hk
    rw [htick]
    exact u.exhausted hk
  · exact ⟨_, _, _, u.removed c hpend htick fun _ hk => hk⟩
  · refine ⟨_, _, _, c, fun k' tick v hk => ?_, fun k' tick v hm hk => ?_⟩
    · rw [hpend] at hk
      rw [htick]
      exact u.notPast k' tick v hk
    · rw [hpend] at hk
      rw [htick]
      rcases List.mem_append.mp hm with hm | hm
      · exact u.later k' tick v hm hk
      · obtain rfl := List.mem_singleton.mp hm
        have hke := (pendingOf_of_entry he).symm.trans hk
        exact (Prod.mk.inj (Option.some.inj hke)).1 ▸ hlate

/-- Some reading of the wheel is `Unmissed`. -/
def NothingMissed (t : Timer T) : Prop := ∃ lists behind ahead, Unmissed t lists behind ahead

theorem timerStep_unmissed {op : TimerOp T} (ht : NothingMissed t) (hok : OffCursor t op)
    (h : timerStep t op = some t') : NothingMissed t' := by
  cases op with
  | setTimeoutAt delayFromStart state key =>
    obtain ⟨lists, behind, ahead, u⟩ := ht
    obtain ⟨⟨t₁, timeout⟩, hset, rfl⟩ := Option.map_eq_some_iff.mp h
    obtain ⟨tick₀, tick, hround, hclamp, hins⟩ := setTimeoutAt_spec hset
    obtain ⟨lists', c', hpend, htick, -⟩ := u.toCursor.inserted hins
    have hlater : t.tick < tick := clampTick_gt hclamp fun he => hok (he ▸ hround)
    refine ⟨_, _, _, u.inserted c' hlater hpend htick fun k hk => ?_⟩
    split at hk
    · exact List.mem_cons.mp hk
    · exact .inr hk
  | cancelTimeout timeout =>
    obtain ⟨lists, behind, ahead, u⟩ := ht
    obtain ⟨⟨t₁, r⟩, hcancel, rfl⟩ := Option.map_eq_some_iff.mp h
    rcases cancelTimeout_cases u.toCursor hcancel with
      ⟨e, lists', -, -, -, c', hpend, htick⟩ | ⟨-, -, rfl⟩
    · exact ⟨_, _, _, u.removed c' hpend htick fun k hk => List.mem_of_mem_erase hk⟩
    · exact ⟨_, _, _, u⟩
  | pollTo fuel target =>
    obtain ⟨⟨t₁, r⟩, hpoll, rfl⟩ := Option.map_eq_some_iff.mp h
    exact (pollLoop_rule (fun _ _ _ ⟨_, _, _, u⟩ _ hturn => u.pollTurn hturn) ht hpoll).1

theorem NothingMissed.pollTo {fuel : ℕ} {target : ℕ} (ht : NothingMissed t)
    (h : t.pollTo fuel target = some (t', none)) {k : Token} {e : Entry T}
    (he : t'.entries k = some e) : target < e.links.tick := by
  obtain ⟨⟨lists, behind, ahead, u⟩, hend, -⟩ :=
    pollLoop_rule (fun _ _ _ ⟨_, _, _, u⟩ _ hturn => u.pollTurn hturn) ht h
  have htick := hend rfl
  have hpast := u.notPast k _ _ (pendingOf_of_entry he)
  split at htick <;> omega

end Invariant

/-- **No timeout is missed.** In every run that sets no timeout for the very tick being scanned, a
`poll_to` that finds nothing leaves no entry due. -/
theorem poll_leaves_nothing_due (tickMs numSlots : ℕ) (t t' : Timer T)
    (ht : ReachableIf timerStep OffCursor (· = Timer.new tickMs numSlots) t) (fuel : ℕ)
    (target : ℕ) (h : t.pollTo fuel target = some (t', none)) (k : Token) (e : Entry T)
    (he : t'.entries k = some e) : target < e.links.tick := by
  have hun : NothingMissed t := ht.invariant
    (fun t hinit => ⟨_, _, _, hinit ▸ unmissed_new tickMs numSlots⟩)
    (fun t op t' hun hok hstep => timerStep_unmissed hun hok hstep)
  exact hun.pollTo h he

/-- Two timeouts, the first of them cancelled, on a wheel of four slots. -/
theorem poll_leaves_nothing_due_two :
    ∃ t t' : Timer Bool, run timerStep (Timer.new 100 4)
        [.setTimeoutAt (.fromMillis 100 (by decide)) true ⟨0⟩,
          .setTimeoutAt (.fromMillis 500 (by decide)) false ⟨1⟩, .cancelTimeout ⟨⟨0⟩, 1⟩] = some t ∧
      t.pollTo 9 2 = some (t', none) ∧ ∃ e, t'.entries ⟨1⟩ = some e ∧ 2 < e.links.tick :=
  ⟨_, _, rfl, rfl, _, rfl, poll_leaves_nothing_due 100 4 _ _
    (.next (.cancelTimeout ⟨⟨0⟩, 1⟩)
      (.next (.setTimeoutAt (.fromMillis 500 (by decide)) false ⟨1⟩)
        (.next (.setTimeoutAt (.fromMillis 100 (by decide)) true ⟨0⟩) (.start rfl)
          (by decide) rfl) (by decide) rfl) trivial rfl) 9 2 rfl ⟨1⟩ _ rfl⟩

/-- A timeout for now, on a timer that has not been polled, is not found by the poll. -/
theorem current_tick_missed :
    ∃ t t' : Timer Bool, run timerStep (Timer.new 100 4)
        [.setTimeoutAt (.fromMillis 0 (by decide)) true ⟨0⟩] = some t ∧
      t.pollTo 2 0 = some (t', none) ∧ ∃ e, t'.entries ⟨0⟩ = some e ∧ e.links.tick ≤ 0 :=
  ⟨_, _, rfl, rfl, _, rfl, by decide⟩

/-! ## The order of the timeouts -/

/-- What a poll returns is due at the tick of the scan, and so not after anything that is left. -/
theorem NothingMissed.ordered {t t' : Timer T} {fuel target : ℕ} {e e' : Entry T} {k : Token}
    (ht : NothingMissed t) (h : t.pollTo fuel target = some (t', some e))
    (he' : t'.entries k = some e') : e.links.tick ≤ e'.links.tick := by
  obtain ⟨⟨lists, behind, ahead, u⟩, -, hsome⟩ :=
    pollLoop_rule (fun _ _ _ ⟨_, _, _, u⟩ _ hturn => u.pollTurn hturn) ht h
  obtain ⟨t₀, ⟨_, _, _, u₀⟩, -, hturn⟩ := hsome e rfl
  have hleft : t'.tick ≤ e'.links.tick := u.notPast k _ _ (pendingOf_of_entry he')
  rcases u₀.toCursor.pollTurn hturn with ⟨-, hr, -⟩ | ⟨_, _, e₀, _, -, -, hdue, hr, htick, -⟩ |
    ⟨_, _, _, -, -, -, hr, -⟩
  · cases hr
  · obtain rfl := Option.some.inj hr
    omega
  · cases hr

/-- **The timeouts come in the order of their deadlines.** In every run that sets no timeout for the very
tick being scanned, an entry that `poll_to` returns is not for a later tick than any that is still
pending. -/
theorem delivered_in_order (tickMs numSlots : ℕ) (t t' : Timer T)
    (ht : ReachableIf timerStep OffCursor (· = Timer.new tickMs numSlots) t) (fuel target : ℕ)
    (e : Entry T) (h : t.pollTo fuel target = some (t', some e)) (k : Token) (e' : Entry T)
    (he' : t'.entries k = some e') : e.links.tick ≤ e'.links.tick := by
  have hun : NothingMissed t := ht.invariant
    (fun t hinit => ⟨_, _, _, hinit ▸ unmissed_new tickMs numSlots⟩)
    (fun t op t' hun hok hstep => timerStep_unmissed hun hok hstep)
  exact hun.ordered h he'

/-- Two timeouts in one slot, the later one at its head. -/
theorem delivered_in_order_two :
    ∃ (t t' : Timer Bool) (e e' : Entry Bool), run timerStep (Timer.new 100 4)
        [.setTimeoutAt (.fromMillis 100 (by decide)) true ⟨0⟩,
          .setTimeoutAt (.fromMillis 500 (by decide)) false ⟨1⟩] = some t ∧
      t.pollTo 9 2 = some (t', some e) ∧ t'.entries ⟨1⟩ = some e' ∧ e.links.tick ≤ e'.links.tick :=
  ⟨_, _, _, _, rfl, rfl, rfl, delivered_in_order 100 4 _ _
    (.next (.setTimeoutAt (.fromMillis 500 (by decide)) false ⟨1⟩)
      (.next (.setTimeoutAt (.fromMillis 100 (by decide)) true ⟨0⟩) (.start rfl)
        (by decide) rfl) (by decide) rfl) 9 2 _ rfl ⟨1⟩ _ rfl⟩

/-- A timeout for now is still pending when the one for the next tick is returned. -/
theorem delivered_out_of_order :
    ∃ (t t' : Timer Bool) (e e' : Entry Bool), run timerStep (Timer.new 100 4)
        [.setTimeoutAt (.fromMillis 0 (by decide)) true ⟨0⟩,
          .setTimeoutAt (.fromMillis 100 (by decide)) false ⟨1⟩] = some t ∧
      t.pollTo 3 1 = some (t', some e) ∧ t'.entries ⟨0⟩ = some e' ∧ e'.links.tick < e.links.tick :=
  ⟨_, _, _, _, rfl, rfl, rfl, by decide⟩

/-! ## The scan and the clock -/

/-- A timer, the latest target it was polled for, and the targets for which a poll found nothing. `again`
tells that some poll was for a target for which an earlier one had found nothing, and `lead` is how many
found nothing since the last whose target the scan was not past. -/
structure Clocked (T : Type u) where
  timer : Timer T
  clock : ℕ
  drained : List ℕ
  again : Bool
  lead : ℕ

def Clocked.new (tickMs numSlots : ℕ) : Clocked T := ⟨Timer.new tickMs numSlots, 0, [], false, 0⟩

/-- A call; the targets of the polls do not decrease. -/
def clockedStep (r : Clocked T) : TimerOp T → Option (Clocked T)
  | .pollTo fuel target =>
    if target < r.clock then none
    else
      (r.timer.pollTo fuel target).map fun (t, e) =>
        let lead := if r.timer.tick ≤ target then 0 else r.lead
        { timer := t
          clock := target
          drained := if e.isNone then target :: r.drained else r.drained
          again := r.again || r.drained.contains target
          lead := if e.isNone then lead + 1 else lead }
  | op => (timerStep r.timer op).map fun t => { r with timer := t }

section Scan
variable {t t' : Timer T}

theorem pollTo_tick {fuel target : ℕ} {r : Option (Entry T)} (ht : HasCursor t)
    (h : t.pollTo fuel target = some (t', r)) :
    HasCursor t' ∧ t'.tick ≤ max target t.tick + (if r.isNone then 1 else 0) ∧
      ∀ e, r = some e → e.links.tick ≤ max target t.tick := by
  have hmax : (if target < t.tick then t.tick else target) = max target t.tick := by
    split <;> omega
  rw [Timer.pollTo, hmax] at h
  obtain ⟨⟨hc, hle⟩, -, hsome⟩ := pollLoop_rule
    (P := fun t₀ => HasCursor t₀ ∧ t₀.tick ≤ max target t.tick + 1)
    (fun t₀ t₁ r₁ hP hle hturn => by
      refine ⟨hasCursor_turn hP.1 hturn, ?_⟩
      obtain ⟨_, _, _, c⟩ := hP.1
      rcases c.pollTurn hturn with ⟨-, -, htick, -⟩ | ⟨_, _, _, _, -, -, -, -, htick, -⟩ |
        ⟨_, _, _, -, -, -, -, htick, -⟩ <;> omega) ⟨ht, by omega⟩ h
  cases r with
  | none => exact ⟨hc, hle, fun e he => by cases he⟩
  | some e =>
    obtain ⟨t₀, ⟨⟨_, _, _, c⟩, -⟩, hle₀, hturn⟩ := hsome e rfl
    rcases c.pollTurn hturn with ⟨-, hr, -⟩ | ⟨_, _, e', _, -, -, hdue, hr, htick, -⟩ |
      ⟨_, _, _, -, -, -, hr, -⟩
    · cases hr
    · obtain rfl := Option.some.inj hr
      refine ⟨hc, (htick ▸ hle₀ : t'.tick ≤ _), fun e' he' => ?_⟩
      obtain rfl := Option.some.inj he'
      omega
    · cases hr

/-- How far the scan may be ahead of the clock. -/
structure Clocked.Drift (r : Clocked T) : Prop where
  cursor : HasCursor r.timer
  lead : r.timer.tick ≤ r.clock + r.lead
  once : r.again = false →
    r.timer.tick ≤ r.clock ∨ r.clock ∈ r.drained ∧ r.timer.tick ≤ r.clock + 1

theorem Clocked.Drift.call {r : Clocked T} (hr : r.Drift) (hcursor : HasCursor t')
    (htick : t'.tick = r.timer.tick) : Clocked.Drift { r with timer := t' } where
  cursor := hcursor
  lead := htick ▸ hr.lead
  once := htick ▸ hr.once

/-- A target that has not been drained is not behind the scan, if there never was such a one. -/
theorem Clocked.Drift.caught_up {r : Clocked T} (hr : r.Drift) {target : ℕ} (hagain : r.again = false)
    (hclock : r.clock ≤ target) (hnew : target ∉ r.drained) : r.timer.tick ≤ target := by
  rcases hr.once hagain with hle | ⟨hmem, hle⟩
  · exact hle.trans hclock
  · have hne : r.clock ≠ target := fun he => hnew (he ▸ hmem)
    omega

theorem setTimeoutAt_tick {delayFromStart : Duration} {state : T} {key : Token} {timeout : Timeout}
    (h : t.setTimeoutAt delayFromStart state key = some (t', timeout)) (ht : HasCursor t) :
    t'.tick = t.tick := by
  obtain ⟨lists, behind, ahead, c⟩ := ht
  obtain ⟨tick₀, tick, -, -, hins⟩ := setTimeoutAt_spec h
  obtain ⟨lists', -, -, htick, -⟩ := c.inserted hins
  exact htick

theorem clockedStep_drift {r r' : Clocked T} {op : TimerOp T} (hr : r.Drift)
    (h : clockedStep r op = some r') : r'.Drift := by
  have ht := hr.cursor
  cases op with
  | setTimeoutAt delayFromStart state key =>
    obtain ⟨t₁, hstep, rfl⟩ := Option.map_eq_some_iff.mp h
    have hcursor := timerStep_cursor ht hstep
    obtain ⟨⟨t₂, timeout⟩, hset, rfl⟩ := Option.map_eq_some_iff.mp hstep
    exact hr.call hcursor (setTimeoutAt_tick hset ht)
  | cancelTimeout timeout =>
    obtain ⟨t₁, hstep, rfl⟩ := Option.map_eq_some_iff.mp h
    have hcursor := timerStep_cursor ht hstep
    obtain ⟨⟨t₂, v⟩, hcancel, rfl⟩ := Option.map_eq_some_iff.mp hstep
    refine hr.call hcursor ?_
    obtain ⟨lists, behind, ahead, c⟩ := ht
    rcases cancelTimeout_cases c hcancel with ⟨_, _, -, -, -, -, -, htick⟩ | ⟨-, -, rfl⟩
    · exact htick
    · rfl
  | pollTo fuel target =>
    by_cases hmono : target < r.clock
    · simp [clockedStep, hmono] at h
    · have hclock := Nat.le_of_not_lt hmono
      have hlead := hr.lead
      simp only [clockedStep, hmono, if_false] at h
      obtain ⟨⟨t₁, e⟩, hpoll, rfl⟩ := Option.map_eq_some_iff.mp h
      obtain ⟨hcursor, htick, -⟩ := pollTo_tick ht hpoll
      refine ⟨hcursor, ?_, fun hagain => ?_⟩
      · show t₁.tick ≤ target + if e.isNone then (if r.timer.tick ≤ target then 0 else r.lead) + 1
          else if r.timer.tick ≤ target then 0 else r.lead
        split at htick <;> split <;> split <;> omega
      · obtain ⟨hagain, hnew⟩ := Bool.or_eq_false_iff.mp hagain
        have hcaught := hr.caught_up hagain hclock (by simpa using hnew)
        cases e with
        | none =>
          refine .inr ⟨List.mem_cons_self, ?_⟩
          simp only [Option.isNone_none, if_true] at htick
          show t₁.tick ≤ target + 1
          omega
        | some e =>
          refine .inl ?_
          simp only [Option.isNone_some, Bool.false_eq_true, if_false] at htick
          show t₁.tick ≤ target
          omega

end Scan

/-- **An entry is returned for a tick of the scan**, which the clock has reached unless this target has been
drained, or one before it twice. What the scan is ahead then counts from when the clock last caught up. -/
theorem returned_by_then (tickMs numSlots : ℕ) (r : Clocked T)
    (hr : Reachable clockedStep (· = Clocked.new tickMs numSlots) r) (fuel target : ℕ)
    (htarget : r.clock ≤ target) (t' : Timer T) (e : Entry T)
    (h : r.timer.pollTo fuel target = some (t', some e)) :
    (r.timer.tick ≤ target → e.links.tick ≤ target) ∧
      (target < r.timer.tick → e.links.tick ≤ r.timer.tick ∧ r.timer.tick ≤ target + r.lead) ∧
      (r.again = false → target ∉ r.drained → e.links.tick ≤ target) := by
  have hdrift : r.Drift := hr.invariant
    (fun r hinit => by
      subst hinit
      exact ⟨⟨_, _, _, cursor_new tickMs numSlots⟩, Nat.le_refl _, fun _ => .inl (Nat.le_refl _)⟩)
    (fun r op r' hr hstep => clockedStep_drift hr hstep)
  have hdue := (pollTo_tick hdrift.cursor h).2.2 e rfl
  have hlead := hdrift.lead
  refine ⟨fun hle => ?_, fun hlt => ⟨?_, ?_⟩, fun hagain hnew => ?_⟩
  · omega
  · omega
  · omega
  · have hle := hdrift.caught_up hagain htarget hnew
    omega

/-- Timeouts for the two ticks after the one being scanned. The first is found by a second poll for the same
tick, the second by a poll for its own. -/
theorem returned_by_then_twice :
    ∃ (r r' : Clocked Bool) (t t' : Timer Bool) (e e' : Entry Bool),
      run clockedStep (Clocked.new 100 4)
        [.setTimeoutAt (.fromMillis 100 (by decide)) true ⟨0⟩,
          .setTimeoutAt (.fromMillis 200 (by decide)) false ⟨1⟩, .pollTo 2 0] = some r ∧
      r.timer.pollTo 2 0 = some (t, some e) ∧ e.links.tick ≤ r.timer.tick ∧
      r.timer.tick ≤ 0 + r.lead ∧ run clockedStep r [.pollTo 2 0] = some r' ∧
      r'.timer.pollTo 9 2 = some (t', some e') ∧ e'.links.tick ≤ 2 := by
  have hstart : Reachable clockedStep (· = Clocked.new 100 4) (Clocked.new 100 4 : Clocked Bool) :=
    .start rfl
  have hr := ((hstart.next (.setTimeoutAt (.fromMillis 100 (by decide)) true ⟨0⟩) rfl).next
    (.setTimeoutAt (.fromMillis 200 (by decide)) false ⟨1⟩) rfl).next (.pollTo 2 0) rfl
  obtain ⟨-, hpast, -⟩ := returned_by_then 100 4 _ hr 2 0 (Nat.le_refl 0) _ _ rfl
  obtain ⟨hdue, hlead⟩ := hpast (by decide)
  obtain ⟨hnow, -, -⟩ := returned_by_then 100 4 _ (hr.next (.pollTo 2 0) rfl) 9 2 (by decide) _ _ rfl
  exact ⟨_, _, _, _, _, _, rfl, rfl, hdue, hlead, rfl, rfl, hnow (by decide)⟩

/-- The second poll for tick 0 returns the entry of tick 1. -/
theorem second_poll_fires_early :
    ∃ (r : Clocked Bool) (t' : Timer Bool) (e : Entry Bool),
      run clockedStep (Clocked.new 100 4)
        [.setTimeoutAt (.fromMillis 100 (by decide)) true ⟨0⟩, .pollTo 2 0] = some r ∧
      r.timer.pollTo 2 0 = some (t', some e) ∧ ¬ e.links.tick ≤ 0 :=
  ⟨_, _, _, rfl, rfl, by decide⟩

end MyMio

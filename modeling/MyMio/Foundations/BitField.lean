import Mathlib.Data.BitVec
import Mathlib.Tactic.Common

/-! # Fields and flags of a packed word

A field is the bits of a mask at a shift; a flag is one bit. What the rest of a development needs
about them is which bits of the word an operation leaves alone, so every lemma is about one bit of
the result.
-/

set_option autoImplicit false

namespace BitField

variable {w : ℕ}

theorem getLsbD_of_fits {x : BitVec w} {n i : ℕ} (hx : x.toNat < 2 ^ n) (hi : n ≤ i) :
    x.getLsbD i = false :=
  Nat.testBit_lt_two_pow (Nat.lt_of_lt_of_le hx (Nat.pow_le_pow_right (by decide) hi))

/-! ## Flags -/

/-- The word with bit `n` only. -/
def flag (w n : ℕ) : BitVec w := 1#w <<< n

theorem getLsbD_flag {n i : ℕ} (hi : i < w) : (flag w n).getLsbD i = decide (i = n) := by
  show (BitVec.twoPow w n).getLsbD i = _
  rw [BitVec.getLsbD_twoPow]
  by_cases he : i = n
  · subst he
    simp [hi]
  · simp [he, Ne.symm he]

theorem getLsbD_or_flag (x : BitVec w) {n i : ℕ} (hi : i < w) :
    (x ||| flag w n).getLsbD i = (x.getLsbD i || decide (i = n)) := by
  rw [BitVec.getLsbD_or, getLsbD_flag hi]

theorem getLsbD_and_not_flag (x : BitVec w) {n i : ℕ} (hi : i < w) :
    (x &&& ~~~ flag w n).getLsbD i = (x.getLsbD i && !decide (i = n)) := by
  rw [BitVec.getLsbD_and, BitVec.getLsbD_not, getLsbD_flag hi, decide_eq_true hi, Bool.true_and]

theorem and_flag_eq (x : BitVec w) {n : ℕ} (hn : n < w) :
    (x &&& flag w n == flag w n) = x.getLsbD n := by
  rw [Bool.eq_iff_iff, beq_iff_eq]
  refine ⟨fun h => ?_, fun h => BitVec.eq_of_getLsbD_eq fun i hi => ?_⟩
  · have hbit := congrArg (·.getLsbD n) h
    simp only [BitVec.getLsbD_and, getLsbD_flag hn, decide_true, Bool.and_true] at hbit
    exact hbit
  · rw [BitVec.getLsbD_and, getLsbD_flag hi]
    by_cases he : i = n
    · subst he
      rw [h, Bool.true_and]
    · simp [he]

theorem and_flag_ne_zero (x : BitVec w) {n : ℕ} (hn : n < w) :
    x &&& flag w n ≠ 0 ↔ x.getLsbD n = true := by
  rw [← and_flag_eq x hn, beq_iff_eq]
  refine ⟨fun h => BitVec.eq_of_getLsbD_eq fun i hi => ?_, fun h => ?_⟩
  · rw [BitVec.getLsbD_and, getLsbD_flag hi]
    by_cases he : i = n
    · subst he
      by_contra hbit
      refine h (BitVec.eq_of_getLsbD_eq fun j hj => ?_)
      rw [BitVec.getLsbD_and, getLsbD_flag hj]
      by_cases hj' : j = i
      · subst hj'
        simpa using hbit
      · simp [hj']
    · simp [he]
  · intro hzero
    have hbit := congrArg (·.getLsbD n) (h.symm.trans hzero)
    simp [getLsbD_flag hn] at hbit

/-- A word whose bits are all in another. -/
theorem getLsbD_of_within {x y : BitVec w} (h : x &&& ~~~y = 0) {i : ℕ} (hi : i < w)
    (hx : x.getLsbD i = true) : y.getLsbD i = true := by
  have hbit := congrArg (·.getLsbD i) h
  simpa [hi, hx] using hbit

/-! ## Fields -/

def get (x mask : BitVec w) (shift : ℕ) : BitVec w := (x >>> shift) &&& mask

/-- Put `val` where the mask is; nothing cuts `val` down to the mask. -/
def set (x val mask : BitVec w) (shift : ℕ) : BitVec w :=
  (x &&& ~~~(mask <<< shift)) ||| (val <<< shift)

theorem getLsbD_get (x mask : BitVec w) (shift i : ℕ) :
    (get x mask shift).getLsbD i = (x.getLsbD (shift + i) && mask.getLsbD i) := by
  unfold get
  rw [BitVec.getLsbD_and, BitVec.getLsbD_ushiftRight]

theorem getLsbD_set_outside (x val : BitVec w) {mask : BitVec w} {shift i : ℕ} (hi : i < w)
    (hmask : mask.getLsbD (i - shift) = false) :
    (set x val mask shift).getLsbD i =
      (x.getLsbD i || !decide (i < shift) && val.getLsbD (i - shift)) := by
  unfold set
  rw [BitVec.getLsbD_or, BitVec.getLsbD_and, BitVec.getLsbD_not, BitVec.getLsbD_shiftLeft,
    BitVec.getLsbD_shiftLeft, hmask]
  simp [hi]

theorem getLsbD_set_below (x val mask : BitVec w) {shift i : ℕ} (hi : i < w) (hlt : i < shift) :
    (set x val mask shift).getLsbD i = x.getLsbD i := by
  unfold set
  rw [BitVec.getLsbD_or, BitVec.getLsbD_and, BitVec.getLsbD_not, BitVec.getLsbD_shiftLeft,
    BitVec.getLsbD_shiftLeft]
  simp [hi, hlt]

theorem getLsbD_set_inside (x val : BitVec w) {mask : BitVec w} {shift i : ℕ} (hi : shift + i < w)
    (hmask : mask.getLsbD i = true) : (set x val mask shift).getLsbD (shift + i) = val.getLsbD i := by
  unfold set
  rw [BitVec.getLsbD_or, BitVec.getLsbD_and, BitVec.getLsbD_not, BitVec.getLsbD_shiftLeft,
    BitVec.getLsbD_shiftLeft, Nat.add_sub_cancel_left, hmask]
  have hge : ¬ shift + i < shift := by omega
  simp [hi, hge]

/-- Setting a field clears nothing outside it. -/
theorem set_keeps {x val mask : BitVec w} {shift i : ℕ} (hi : i < w)
    (hmask : mask.getLsbD (i - shift) = false) (hx : x.getLsbD i = true) :
    (set x val mask shift).getLsbD i = true := by
  rw [getLsbD_set_outside x val hi hmask, hx, Bool.true_or]

theorem set_fits {x val mask : BitVec w} {shift i : ℕ} (hi : i < w)
    (hmask : mask.getLsbD (i - shift) = false) (hval : val.getLsbD (i - shift) = false) :
    (set x val mask shift).getLsbD i = x.getLsbD i := by
  rw [getLsbD_set_outside x val hi hmask, hval, Bool.and_false, Bool.or_false]

theorem get_congr {x y mask : BitVec w} {shift : ℕ}
    (h : ∀ i, mask.getLsbD i = true → x.getLsbD (shift + i) = y.getLsbD (shift + i)) :
    get x mask shift = get y mask shift := by
  apply BitVec.eq_of_getLsbD_eq
  intro i _
  rw [getLsbD_get, getLsbD_get]
  cases hmask : mask.getLsbD i with
  | false => rw [Bool.and_false, Bool.and_false]
  | true => rw [h i hmask]

/-! ## Two fields -/

/-- The masks of two fields have no bit of the word in common. -/
def Apart (mask : BitVec w) (shift : ℕ) (mask' : BitVec w) (shift' : ℕ) : Prop :=
  (mask <<< shift) &&& (mask' <<< shift') = 0#w

instance (mask : BitVec w) (shift : ℕ) (mask' : BitVec w) (shift' : ℕ) :
    Decidable (Apart mask shift mask' shift') := inferInstanceAs (Decidable (_ = _))

/-- The part of a value that its field has no room for, where `set` puts it. -/
def spill (val mask : BitVec w) (shift : ℕ) : BitVec w := (val &&& ~~~mask) <<< shift

theorem spill_eq_zero {val mask : BitVec w} (h : val &&& ~~~mask = 0#w) (shift : ℕ) :
    spill val mask shift = 0#w := by
  unfold spill
  rw [h, BitVec.zero_shiftLeft]

@[simp] theorem get_zero (mask : BitVec w) (shift : ℕ) : get 0#w mask shift = 0#w := by
  simp [get]

theorem Apart.getLsbD {mask mask' : BitVec w} {shift shift' i : ℕ}
    (h : Apart mask shift mask' shift') (hi : shift' + i < w) (hmask' : mask'.getLsbD i = true) :
    ¬ shift' + i < shift → mask.getLsbD (shift' + i - shift) = false := by
  intro hge
  have hbit : ((mask <<< shift) &&& (mask' <<< shift')).getLsbD (shift' + i) = false := by
    rw [h]
    exact BitVec.getLsbD_zero
  simpa only [BitVec.getLsbD_and, BitVec.getLsbD_shiftLeft, hi, hge, hmask', decide_true, decide_false,
    Bool.not_false, Bool.true_and, Bool.and_true, Nat.not_lt.mpr (Nat.le_add_right shift' i),
    Nat.add_sub_cancel_left] using hbit

/-- **Setting one field changes another one** by the spilled bits only. -/
theorem get_set_of_apart (x val : BitVec w) {mask mask' : BitVec w} {shift shift' : ℕ}
    (h : Apart mask shift mask' shift') :
    get (set x val mask shift) mask' shift' = get x mask' shift' ||| get (spill val mask shift) mask' shift' := by
  apply BitVec.eq_of_getLsbD_eq
  intro i _
  rw [BitVec.getLsbD_or, getLsbD_get, getLsbD_get, getLsbD_get]
  cases hmask' : mask'.getLsbD i with
  | false => simp
  | true =>
    by_cases hi : shift' + i < w
    · have hset : (set x val mask shift).getLsbD (shift' + i) =
          (x.getLsbD (shift' + i) || (spill val mask shift).getLsbD (shift' + i)) := by
        unfold set spill
        simp only [BitVec.getLsbD_or, BitVec.getLsbD_and, BitVec.getLsbD_not,
          BitVec.getLsbD_shiftLeft, hi, decide_true, Bool.true_and]
        by_cases hlt : shift' + i < shift
        · simp only [hlt, decide_true, Bool.not_true, Bool.false_and, Bool.not_false, Bool.and_true]
        · have hval : shift' + i - shift < w := by omega
          simp only [h.getLsbD hi hmask' hlt, hval, decide_true, Bool.and_false, Bool.not_false,
            Bool.and_true]
      rw [hset, Bool.and_true, Bool.and_true, Bool.and_true]
    · simp [BitVec.getLsbD_of_ge _ _ (Nat.le_of_not_lt hi)]

theorem get_set_self (x val : BitVec w) {mask : BitVec w} {shift : ℕ}
    (hmask : ∀ i, mask.getLsbD i = true → shift + i < w) :
    get (set x val mask shift) mask shift = val &&& mask := by
  apply BitVec.eq_of_getLsbD_eq
  intro i _
  rw [getLsbD_get, BitVec.getLsbD_and]
  cases hbit : mask.getLsbD i with
  | false => simp
  | true => rw [getLsbD_set_inside x val (hmask i hbit) hbit]

/-- A bit of a field that is there already changes nothing. -/
theorem or_eq_left_iff (x y : BitVec w) : x ||| y = x ↔ y &&& ~~~x = 0#w := by
  constructor
  · intro h
    apply BitVec.eq_of_getLsbD_eq
    intro i hi
    have hbit := congrArg (·.getLsbD i) h
    simp only [BitVec.getLsbD_or] at hbit
    cases hx : x.getLsbD i <;> cases hy : y.getLsbD i <;> simp_all
  · intro h
    apply BitVec.eq_of_getLsbD_eq
    intro i hi
    have hbit := congrArg (·.getLsbD i) h
    simp only [BitVec.getLsbD_and, BitVec.getLsbD_not, BitVec.getLsbD_zero] at hbit
    rw [BitVec.getLsbD_or]
    cases hx : x.getLsbD i <;> cases hy : y.getLsbD i <;> simp_all

end BitField

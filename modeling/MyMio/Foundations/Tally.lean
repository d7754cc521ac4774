import Mathlib.Algebra.BigOperators.Group.Finset.Piecewise
import Mathlib.Data.Fintype.Basic
import Mathlib.Tactic.Common

/-! # Counting the parties of a system

Finitely many parties, each in some phase: `tally f pc` is how many are in a phase that `f` accepts.
When one party moves, the tally changes by what its two phases say.
-/

set_option autoImplicit false

namespace Tally

universe u v

variable {ι : Type u} {P : Type v} [Fintype ι] {f : P → Bool} {pc : ι → P} {i j : ι}

def tally (f : P → Bool) (pc : ι → P) : ℕ := (Finset.univ.filter fun i => f (pc i) = true).card

theorem tally_update [DecidableEq ι] (f : P → Bool) (pc : ι → P) (i : ι) (p : P) :
    tally f (Function.update pc i p) + (f (pc i)).toNat = tally f pc + (f p).toNat := by
  have hsum : ∀ pc : ι → P, tally f pc = ∑ j, (f (pc j)).toNat := by
    intro pc
    unfold tally
    rw [Finset.card_filter]
    refine Finset.sum_congr rfl fun j _ => ?_
    cases f (pc j) <;> rfl
  have hsplit : ∀ pc : ι → P,
      ∑ j, (f (pc j)).toNat = (f (pc i)).toNat + ∑ j ∈ Finset.univ.erase i, (f (pc j)).toNat :=
    fun pc => (Finset.add_sum_erase _ _ (Finset.mem_univ i)).symm
  have hrest : ∑ j ∈ Finset.univ.erase i, (f (Function.update pc i p j)).toNat =
      ∑ j ∈ Finset.univ.erase i, (f (pc j)).toNat := by
    refine Finset.sum_congr rfl fun j hj => ?_
    rw [Function.update_of_ne (Finset.ne_of_mem_erase hj)]
  rw [hsum, hsum, hsplit, hsplit pc, hrest, Function.update_self]
  omega

theorem tally_pos (hi : f (pc i) = true) : 0 < tally f pc :=
  Finset.card_pos.mpr ⟨i, Finset.mem_filter.mpr ⟨Finset.mem_univ i, hi⟩⟩

theorem tally_unique (h : tally f pc ≤ 1) (hi : f (pc i) = true) (hj : f (pc j) = true) : i = j :=
  Finset.card_le_one.mp h i (Finset.mem_filter.mpr ⟨Finset.mem_univ i, hi⟩) j
    (Finset.mem_filter.mpr ⟨Finset.mem_univ j, hj⟩)

theorem tally_eq_zero (h : ∀ i, f (pc i) = false) : tally f pc = 0 := by
  unfold tally
  rw [Finset.card_eq_zero, Finset.filter_eq_empty_iff]
  intro i _
  rw [h i]
  exact Bool.false_ne_true

end Tally

import Mathlib.Data.Fintype.Basic
import Mathlib.Data.Multiset.Filter
import Mathlib.Logic.Function.Basic

/-! # The values of a partial map

A partial map on finitely many keys holds a multiset of values, one for each key that has one. Setting
a vacant key adds its value, clearing a key takes its value away.
-/

set_option autoImplicit false

namespace PartialMap

universe u v

variable {κ : Type u} {α : Type v}

theorem filterMap_congr {f g : κ → Option α} (s : Multiset κ) (h : ∀ k ∈ s, f k = g k) :
    s.filterMap f = s.filterMap g := by
  induction s using Quotient.inductionOn with
  | h l => exact congrArg Multiset.ofList (List.filterMap_congr h)

variable [Fintype κ] {f : κ → Option α} {k : κ} {a : α}

def values (f : κ → Option α) : Multiset α := (Finset.univ : Finset κ).val.filterMap f

variable [DecidableEq κ]

theorem values_split (f : κ → Option α) (k : κ) :
    values f = (k ::ₘ (Finset.univ.erase k).val).filterMap f := by
  rw [values, ← Finset.insert_val_of_notMem (Finset.notMem_erase k _),
    Finset.insert_erase (Finset.mem_univ k)]

theorem values_update_none (h : f k = some a) :
    values f = a ::ₘ values (Function.update f k none) := by
  rw [values_split f k, Multiset.filterMap_cons_some f k _ h, values_split _ k,
    Multiset.filterMap_cons_none k _ (Function.update_self k none f)]
  refine congrArg (a ::ₘ ·) (filterMap_congr _ fun j hj => ?_)
  exact (Function.update_of_ne (Finset.ne_of_mem_erase hj) none f).symm

theorem length_le_card_values {l : List κ} (hl : l.Nodup) (h : ∀ k ∈ l, (f k).isSome = true) :
    l.length ≤ (values f).card := by
  induction l generalizing f with
  | nil => exact Nat.zero_le _
  | cons k l ih =>
    obtain ⟨hk, hl⟩ := List.nodup_cons.mp hl
    obtain ⟨a, ha⟩ := Option.isSome_iff_exists.mp (h k List.mem_cons_self)
    rw [values_update_none ha, List.length_cons, Multiset.card_cons]
    refine Nat.succ_le_succ (ih hl fun j hj => ?_)
    have hne : j ≠ k := fun he => hk (he ▸ hj)
    rw [Function.update_of_ne hne]
    exact h j (List.mem_cons_of_mem k hj)

theorem values_update_some (h : f k = none) :
    values (Function.update f k (some a)) = a ::ₘ values f := by
  rw [values_update_none (Function.update_self k (some a) f), Function.update_idem, ← h,
    Function.update_eq_self]

end PartialMap

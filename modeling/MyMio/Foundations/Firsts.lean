import Mathlib.Data.List.Induction
import Mathlib.Data.List.Nodup
import Mathlib.Tactic.Common

/-! # First occurrences

`List.eraseDups` keeps the first occurrence of each element. A list that grows at its end keeps the
elements it has and gains one at most, so that the order in which things happened for the first time
never changes.
-/

set_option autoImplicit false

namespace Firsts

universe u

variable {α : Type u} [DecidableEq α]

theorem eraseDups_concat (l : List α) (a : α) :
    (l ++ [a]).eraseDups = if a ∈ l then l.eraseDups else l.eraseDups ++ [a] := by
  rw [List.eraseDups_append]
  by_cases ha : a ∈ l
  · rw [if_pos ha]
    simp [List.removeAll, ha]
  · rw [if_neg ha]
    simp [List.removeAll, ha, List.eraseDups_cons]

theorem nodup_eraseDups (l : List α) : l.eraseDups.Nodup := by
  induction l using List.reverseRecOn with
  | nil => exact List.nodup_nil
  | append_singleton l a ih =>
    rw [eraseDups_concat]
    by_cases ha : a ∈ l
    · rw [if_pos ha]
      exact ih
    · rw [if_neg ha]
      refine ih.append (List.nodup_singleton a) fun b hb hb' => ?_
      exact ha (List.mem_singleton.mp hb' ▸ List.mem_eraseDups.mp hb)

theorem eraseDups_isPrefix {l l' : List α} (h : l <+: l') : l.eraseDups <+: l'.eraseDups := by
  obtain ⟨r, rfl⟩ := h
  rw [List.eraseDups_append]
  exact List.prefix_append _ _

end Firsts

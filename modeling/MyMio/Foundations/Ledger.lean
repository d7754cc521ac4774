import Mathlib.Tactic.Common

/-! # A flag with a single owner

Objects carry a flag, and whoever set it owes the object something: the flag is up exactly while
some one party owns the object. An object can also be retired with its flag left up, and is then
owned by nobody for ever.

`Books` is that discipline and the lemmas are its moves: an owner appears with the flag, ownership
passes on, an owner goes with the flag, an object is retired. Parties and objects are arbitrary.
-/

set_option autoImplicit false

namespace Ledger

universe u v

variable {κ : Type u} {ω : Type v}

structure Books (flag : κ → Bool) (owns : κ → ω → Prop) (retired : κ → Bool) : Prop where
  unique : ∀ k o o', owns k o → owns k o' → o = o'
  flagged : ∀ k o, owns k o → flag k = true
  owned : ∀ k, flag k = true → retired k = false → ∃ o, owns k o
  spent : ∀ k, retired k = true → flag k = true ∧ ∀ o, ¬ owns k o

section Moves
variable {flag flag' : κ → Bool} {owns owns' : κ → ω → Prop} {retired retired' : κ → Bool} {k : κ}
  {o r : ω}

theorem Books.iff_owned (h : Books flag owns retired) (hk : retired k = false) :
    flag k = true ↔ ∃ o, owns k o :=
  ⟨fun hf => h.owned k hf hk, fun ⟨o, ho⟩ => h.flagged k o ho⟩

theorem Books.empty (hflag : ∀ k, flag k = false) (howns : ∀ k o, ¬ owns k o)
    (hretired : ∀ k, retired k = false) : Books flag owns retired where
  unique k o _ ho := absurd ho (howns k o)
  flagged k o ho := absurd ho (howns k o)
  owned k hf := by
    rw [hflag k] at hf
    cases hf
  spent k hr := by
    rw [hretired k] at hr
    cases hr

theorem Books.congr (h : Books flag owns retired) (hflag : ∀ j, flag' j = flag j)
    (howns : ∀ j p, owns' j p ↔ owns j p) : Books flag' owns' retired := by
  have hf : flag' = flag := funext hflag
  have ho : owns' = owns := funext fun j => funext fun p => propext (howns j p)
  rw [hf, ho]
  exact h

theorem Books.claim (h : Books flag owns retired) (hk : flag k = false) (hup : flag' k = true)
    (hflag : ∀ j, j ≠ k → flag' j = flag j)
    (howns : ∀ j p, owns' j p ↔ owns j p ∨ j = k ∧ p = o) : Books flag' owns' retired := by
  have hnone : ∀ p, ¬ owns k p := fun p hp => by
    rw [h.flagged k p hp] at hk
    cases hk
  have hlive : retired k = false := by
    cases hr : retired k with
    | false => rfl
    | true =>
      rw [(h.spent k hr).1] at hk
      cases hk
  refine ⟨fun j p p' hp hp' => ?_, fun j p hp => ?_, fun j hf hr => ?_, fun j hr => ?_⟩
  · rcases (howns j p).mp hp with hold | ⟨rfl, rfl⟩
    · rcases (howns j p').mp hp' with hold' | ⟨rfl, rfl⟩
      · exact h.unique j p p' hold hold'
      · exact absurd hold (hnone p)
    · rcases (howns j p').mp hp' with hold' | ⟨-, rfl⟩
      · exact absurd hold' (hnone p')
      · rfl
  · rcases (howns j p).mp hp with hold | ⟨rfl, -⟩
    · by_cases hj : j = k
      · rw [hj]
        exact hup
      · rw [hflag j hj]
        exact h.flagged j p hold
    · exact hup
  · by_cases hj : j = k
    · exact ⟨o, (howns j o).mpr (.inr ⟨hj, rfl⟩)⟩
    · rw [hflag j hj] at hf
      obtain ⟨p, hp⟩ := h.owned j hf hr
      exact ⟨p, (howns j p).mpr (.inl hp)⟩
  · have hj : j ≠ k := fun hj => by
      rw [hj, hlive] at hr
      cases hr
    obtain ⟨hf, hno⟩ := h.spent j hr
    refine ⟨(hflag j hj).trans hf, fun p hp => ?_⟩
    rcases (howns j p).mp hp with hold | ⟨he, -⟩
    · exact hno p hold
    · exact hj he

theorem Books.transfer (h : Books flag owns retired) (hk : owns k o)
    (howns : ∀ j p, owns' j p ↔ j ≠ k ∧ owns j p ∨ j = k ∧ p = r) : Books flag owns' retired := by
  refine ⟨fun j p p' hp hp' => ?_, fun j p hp => ?_, fun j hf hr => ?_, fun j hr => ?_⟩
  · rcases (howns j p).mp hp with ⟨hj, hold⟩ | ⟨hj, rfl⟩
    · rcases (howns j p').mp hp' with ⟨-, hold'⟩ | ⟨he, -⟩
      · exact h.unique j p p' hold hold'
      · exact absurd he hj
    · rcases (howns j p').mp hp' with ⟨hne, -⟩ | ⟨-, rfl⟩
      · exact absurd hj hne
      · rfl
  · rcases (howns j p).mp hp with ⟨-, hold⟩ | ⟨rfl, -⟩
    · exact h.flagged j p hold
    · exact h.flagged j o hk
  · by_cases hj : j = k
    · exact ⟨r, (howns j r).mpr (.inr ⟨hj, rfl⟩)⟩
    · obtain ⟨p, hp⟩ := h.owned j hf hr
      exact ⟨p, (howns j p).mpr (.inl ⟨hj, hp⟩)⟩
  · obtain ⟨hf, hno⟩ := h.spent j hr
    refine ⟨hf, fun p hp => ?_⟩
    rcases (howns j p).mp hp with ⟨-, hold⟩ | ⟨rfl, -⟩
    · exact hno p hold
    · exact hno o hk

/-- Ownership passes from one party to another, told party by party. -/
theorem Books.pass (h : Books flag owns retired) (hk : owns k o) (hne : o ≠ r)
    (hsource : ∀ j, owns' j o ↔ j ≠ k ∧ owns j o) (htarget : ∀ j, owns' j r ↔ owns j r ∨ j = k)
    (hrest : ∀ j p, p ≠ o → p ≠ r → (owns' j p ↔ owns j p)) : Books flag owns' retired := by
  refine h.transfer hk (r := r) fun j p => ?_
  by_cases hp : p = o
  · subst hp
    rw [hsource j]
    exact ⟨.inl, fun hor => hor.elim id fun hpo => absurd hpo.2 hne⟩
  · by_cases hp' : p = r
    · subst hp'
      rw [htarget j]
      by_cases hj : j = k
      · exact ⟨fun _ => .inr ⟨hj, rfl⟩, fun _ => .inr hj⟩
      · exact ⟨fun hor => .inl ⟨hj, hor.resolve_right hj⟩, fun hor =>
          .inl (hor.elim And.right fun hpo => absurd hpo.1 hj)⟩
    · rw [hrest j p hp hp']
      refine ⟨fun hold => .inl ⟨fun hj => hp (h.unique k p o (hj ▸ hold) hk), hold⟩, fun hor => ?_⟩
      exact hor.elim And.right fun hpo => absurd hpo.2 hp'

theorem Books.clear (h : Books flag owns retired) (hk : owns k o) (hdown : flag' k = false)
    (hflag : ∀ j, j ≠ k → flag' j = flag j) (howns : ∀ j p, owns' j p ↔ j ≠ k ∧ owns j p) :
    Books flag' owns' retired := by
  refine ⟨fun j p p' hp hp' => ?_, fun j p hp => ?_, fun j hf hr => ?_, fun j hr => ?_⟩
  · exact h.unique j p p' ((howns j p).mp hp).2 ((howns j p').mp hp').2
  · obtain ⟨hj, hold⟩ := (howns j p).mp hp
    rw [hflag j hj]
    exact h.flagged j p hold
  · have hj : j ≠ k := fun hj => by
      rw [hj, hdown] at hf
      cases hf
    rw [hflag j hj] at hf
    obtain ⟨p, hp⟩ := h.owned j hf hr
    exact ⟨p, (howns j p).mpr ⟨hj, hp⟩⟩
  · obtain ⟨hf, hno⟩ := h.spent j hr
    have hj : j ≠ k := fun hj => hno o (hj ▸ hk)
    exact ⟨(hflag j hj).trans hf, fun p hp => hno p ((howns j p).mp hp).2⟩

/-- Once the owner of one object has nothing, everybody else owns what they did. -/
theorem Books.without (h : Books flag owns retired) (hk : owns k o) (honly : ∀ j, owns j o → j = k)
    (howns : ∀ j p, owns' j p ↔ p ≠ o ∧ owns j p) (j : κ) (p : ω) :
    owns' j p ↔ j ≠ k ∧ owns j p := by
  rw [howns j p]
  constructor
  · intro ⟨hp, hj⟩
    exact ⟨fun he => hp (h.unique k p o (he ▸ hj) hk), hj⟩
  · intro ⟨hne, hj⟩
    refine ⟨fun he => ?_, hj⟩
    subst he
    exact hne (honly j hj)

/-- The owner goes and the flag stays up, for ever. -/
theorem Books.retire (h : Books flag owns retired) (hk : owns k o) (hnow : retired' k = true)
    (hretired : ∀ j, j ≠ k → retired' j = retired j)
    (howns : ∀ j p, owns' j p ↔ j ≠ k ∧ owns j p) : Books flag owns' retired' := by
  refine ⟨fun j p p' hp hp' => ?_, fun j p hp => ?_, fun j hf hr => ?_, fun j hr => ?_⟩
  · exact h.unique j p p' ((howns j p).mp hp).2 ((howns j p').mp hp').2
  · exact h.flagged j p ((howns j p).mp hp).2
  · have hj : j ≠ k := fun hj => by
      rw [hj, hnow] at hr
      cases hr
    rw [hretired j hj] at hr
    obtain ⟨p, hp⟩ := h.owned j hf hr
    exact ⟨p, (howns j p).mpr ⟨hj, hp⟩⟩
  · by_cases hj : j = k
    · subst hj
      exact ⟨h.flagged j o hk, fun p hp => ((howns j p).mp hp).1 rfl⟩
    · rw [hretired j hj] at hr
      obtain ⟨hf, hno⟩ := h.spent j hr
      exact ⟨hf, fun p hp => hno p ((howns j p).mp hp).2⟩

end Moves

end Ledger

import Mathlib.Data.List.Basic

/-! # Edge-triggered sources

A source is watched edge-triggered when it is reported once after something has arrived, and not again
until something else does. Its reader takes from it turn by turn until it is empty, while more may
arrive between any two turns.

`Edge` is what is known of the source outside a loop of the reader; `Tells` says that a report is on its
way. `serve` is the source's side of one loop: what a loop takes and leaves is what was there and what
has arrived, in order (`serve_fifo`), and the turn that ends it sees what it leaves (`serve_last`).
-/

namespace EdgeTriggered
set_option autoImplicit false

universe u v w x

/-! ## Edges -/

/-- `raised` when there is something that has not been reported; the reports that have not been handled. -/
structure Edge (ε : Type u) where
  raised : Bool
  reported : List ε
  deriving DecidableEq, Repr

namespace Edge
variable {ε : Type u} {w : Edge ε} {tells : ε → Prop} {e : ε}

def raise (w : Edge ε) : Edge ε := { w with raised := true }

def report (w : Edge ε) (e : ε) : Edge ε := ⟨false, w.reported ++ [e]⟩

/-- A report that tells of what is there is on its way. -/
def Tells (w : Edge ε) (tells : ε → Prop) : Prop := w.raised = true ∨ ∃ e ∈ w.reported, tells e

theorem tells_raise : w.raise.Tells tells := .inl rfl

theorem tells_report (he : tells e) : (w.report e).Tells tells :=
  .inr ⟨e, List.mem_append_right _ List.mem_cons_self, he⟩

/-- The next report is the one that tells, or another is still on its way. -/
theorem Tells.next {raised : Bool} {rest : List ε} (h : (Edge.mk raised (e :: rest)).Tells tells) :
    tells e ∨ (Edge.mk raised rest).Tells tells := by
  rcases h with hraised | ⟨e', he', htells⟩
  · exact .inr (.inl hraised)
  · rcases List.mem_cons.mp he' with rfl | hrest
    · exact .inl htells
    · exact .inr (.inr ⟨e', hrest, htells⟩)

end Edge

/-! ## Loops -/

variable {σ : Type u} {α : Type v} {τ : Type w} {β : Type x}

/-- The turns of one loop: the last one ends it, and no other does. -/
def EndsAtLast (ends : τ → Bool) : List τ → Bool
  | [] => false
  | [turn] => ends turn
  | turn :: turns => !ends turn && EndsAtLast ends turns

section Ends
variable {ends : τ → Bool} {turn : τ} {turns : List τ}

theorem endsAtLast_cons (h : EndsAtLast ends (turn :: turns) = true) (hends : ends turn = false) :
    EndsAtLast ends turns = true := by
  cases turns with
  | nil => exact absurd (hends.symm.trans h) (by decide)
  | cons t turns => exact (Bool.and_eq_true_iff.mp h).2

theorem eq_nil_of_ends (h : EndsAtLast ends (turn :: turns) = true) (hends : ends turn = true) :
    turns = [] := by
  cases turns with
  | nil => rfl
  | cons t turns =>
    have hnot := (Bool.and_eq_true_iff.mp h).1
    rw [hends] at hnot
    cases hnot

theorem endsAtLast_concat (h : ∀ t ∈ turns, ends t = false) (hends : ends turn = true) :
    EndsAtLast ends (turns ++ [turn]) = true := by
  induction turns with
  | nil => exact hends
  | cons t turns ih =>
    have htail := ih fun t' ht' => h t' (List.mem_cons_of_mem t ht')
    have hgoes : (!ends t) = true := by rw [h t List.mem_cons_self]; rfl
    cases turns <;> exact Bool.and_eq_true_iff.mpr ⟨hgoes, htail⟩

end Ends

/-- The source's side of one loop: each turn comes after what has arrived since the one before. -/
def serve (arrive : σ → α → σ) (answer : σ → τ → Option σ) (s : σ) : List (List α × τ) → Option σ
  | [] => some s
  | (arrivals, turn) :: turns => (answer (arrivals.foldl arrive s) turn).bind (serve arrive answer · turns)

section Serve
variable {arrive : σ → α → σ} {answer : σ → τ → Option σ} {s s' : σ} {turns : List (List α × τ)}

theorem serve_append {m : σ} (h : serve arrive answer s turns = some m) (turns' : List (List α × τ)) :
    serve arrive answer s (turns ++ turns') = serve arrive answer m turns' := by
  induction turns generalizing s with
  | nil =>
    obtain rfl := Option.some.inj h
    rfl
  | cons head turns ih =>
    obtain ⟨arrivals, turn⟩ := head
    obtain ⟨m', hm, hrest⟩ := Option.bind_eq_some_iff.mp h
    rw [List.cons_append, serve, hm, Option.bind_some, ih hrest]

theorem serve_fifo (pending : σ → List β) (payload : α → List β) (took : τ → List β)
    (harrive : ∀ s a, pending (arrive s a) = pending s ++ payload a)
    (hanswer : ∀ s t s', answer s t = some s' → took t ++ pending s' = pending s)
    (h : serve arrive answer s turns = some s') :
    (turns.flatMap fun turn => took turn.2) ++ pending s' =
      pending s ++ turns.flatMap fun turn => turn.1.flatMap payload := by
  have harrivals : ∀ (arrivals : List α) (s : σ),
      pending (arrivals.foldl arrive s) = pending s ++ arrivals.flatMap payload := by
    intro arrivals
    induction arrivals with
    | nil => exact fun s => (List.append_nil _).symm
    | cons a arrivals ih =>
      intro s
      rw [List.foldl_cons, ih, harrive, List.flatMap_cons, List.append_assoc]
  induction turns generalizing s with
  | nil =>
    obtain rfl := Option.some.inj h
    exact (List.append_nil _).symm
  | cons head turns ih =>
    obtain ⟨arrivals, turn⟩ := head
    obtain ⟨m, hm, hrest⟩ := Option.bind_eq_some_iff.mp h
    rw [List.flatMap_cons, List.flatMap_cons, List.append_assoc, ih hrest, ← List.append_assoc,
      hanswer _ _ _ hm, harrivals, List.append_assoc]

/-- The turn that ends the loop answers for what the loop leaves. -/
theorem serve_last {ends : τ → Bool} (hends : EndsAtLast ends (turns.map Prod.snd) = true)
    (h : serve arrive answer s turns = some s') :
    ∃ m turn, (turns.map Prod.snd).getLast? = some turn ∧ ends turn = true ∧ answer m turn = some s' := by
  induction turns generalizing s with
  | nil => cases hends
  | cons head turns ih =>
    obtain ⟨arrivals, turn⟩ := head
    obtain ⟨m, hm, hrest⟩ := Option.bind_eq_some_iff.mp h
    cases hlast : ends turn with
    | true =>
      obtain rfl := List.map_eq_nil_iff.mp (eq_nil_of_ends hends hlast)
      obtain rfl := Option.some.inj hrest
      exact ⟨_, turn, rfl, hlast, hm⟩
    | false =>
      obtain ⟨m', t, ht, hanswer⟩ := ih (endsAtLast_cons hends hlast) hrest
      refine ⟨m', t, ?_, hanswer⟩
      rw [List.map_cons]
      cases turns with
      | nil => cases ht
      | cons u turns => exact ht

end Serve

end EdgeTriggered

import Mathlib.Logic.Relation
import Mathlib.Tactic.Common

/-! # Runs of a partial step function

A system is a step function `step : σ → ι → Option σ`: in state `s` the action `a` leads to the
state it returns, or is not possible there (`none`). The rules below are the ones every invariant
proof of this development is an instance of:

* `run` executes a list of actions, `Reachable` is every state some run arrives at, and
  `Reachable.invariant` turns a step lemma into a run lemma;
* `Along ok` says that every step of a run meets the condition `ok`, judged on the state before the
  step and on its action; `ReachableIf ok` is what such runs arrive at, and `Along.invariant` the rule
  for one of them;
* `ReachableIf.simulation` carries reachability over to a second system that answers every step of
  the first by one step of its own or by standing still.
-/

namespace StepSystem

universe u v w x

variable {σ : Type u} {ι : Type v} {τ : Type w} {κ : Type x}

/-- Execute a list of actions in order. -/
def run (step : σ → ι → Option σ) : σ → List ι → Option σ
  | s, [] => some s
  | s, a :: as => (step s a).bind fun s' => run step s' as

/-- The states some run arrives at. -/
inductive Reachable (step : σ → ι → Option σ) (init : σ → Prop) : σ → Prop
  | start {s : σ} : init s → Reachable step init s
  | next {s s' : σ} (a : ι) : Reachable step init s → step s a = some s' → Reachable step init s'

/-- The states some run arrives at all of whose steps meet `ok`. -/
inductive ReachableIf (step : σ → ι → Option σ) (ok : σ → ι → Prop) (init : σ → Prop) : σ → Prop
  | start {s : σ} : init s → ReachableIf step ok init s
  | next {s s' : σ} (a : ι) : ReachableIf step ok init s → ok s a → step s a = some s' →
      ReachableIf step ok init s'

/-- Every step of the run of `as` from `s` meets `ok`. -/
def Along (step : σ → ι → Option σ) (ok : σ → ι → Prop) : σ → List ι → Prop
  | _, [] => True
  | s, a :: as => ok s a ∧ ∀ s', step s a = some s' → Along step ok s' as

/-- Whether a given run meets a decidable condition can be computed. -/
instance Along.decidable (step : σ → ι → Option σ) (ok : σ → ι → Prop)
    [∀ s a, Decidable (ok s a)] : (s : σ) → (as : List ι) → Decidable (Along step ok s as)
  | _, [] => .isTrue trivial
  | s, a :: as =>
    match hs : step s a with
    | none => decidable_of_iff (ok s a) ⟨fun h => ⟨h, fun s' hs' => (by simp [hs] at hs')⟩, And.left⟩
    | some m =>
      have := Along.decidable step ok m as
      decidable_of_iff (ok s a ∧ Along step ok m as)
        (and_congr_right fun _ =>
          ⟨fun h s' hs' => Option.some.inj (hs.symm.trans hs') ▸ h, fun h => h m hs⟩)

section Runs
variable {step : σ → ι → Option σ} {ok : σ → ι → Prop} {init : σ → Prop}

@[simp] theorem run_nil (s : σ) : run step s [] = some s := rfl

theorem run_cons {s s' : σ} {a : ι} {as : List ι} (h : run step s (a :: as) = some s') :
    ∃ m, step s a = some m ∧ run step m as = some s' := by
  simpa [run, Option.bind_eq_some_iff] using h

theorem run_cons_eq {s m : σ} {a : ι} (h : step s a = some m) (as : List ι) :
    run step s (a :: as) = run step m as := by
  simp [run, h]

/-- What holds in all the states a run passes holds at its start, and in all that the rest passes. -/
theorem run_take_cons_iff {P : σ → Prop} {s m : σ} {a : ι} (h : step s a = some m) (as : List ι) :
    (∀ n t, run step s ((a :: as).take n) = some t → P t) ↔
      P s ∧ ∀ n t, run step m (as.take n) = some t → P t := by
  have hsucc : ∀ n, run step s ((a :: as).take (n + 1)) = run step m (as.take n) := fun n => by
    rw [List.take_succ_cons, run_cons_eq h]
  refine ⟨fun hall => ⟨hall 0 s rfl, fun n t ht => hall (n + 1) t ((hsucc n).trans ht)⟩,
    fun ⟨hs, hall⟩ n t ht => ?_⟩
  cases n with
  | zero =>
    obtain rfl : s = t := by simpa using ht
    exact hs
  | succ n => exact hall n t ((hsucc n).symm.trans ht)

theorem along_cons_iff {s m : σ} {a : ι} (h : step s a = some m) (as : List ι) :
    Along step ok s (a :: as) ↔ ok s a ∧ Along step ok m as := by
  refine and_congr_right fun _ => ⟨fun hall => hall m h, fun hall m' hm => ?_⟩
  obtain rfl : m = m' := Option.some.inj (h.symm.trans hm)
  exact hall

theorem run_append {s m : σ} {as : List ι} (h : run step s as = some m) (bs : List ι) :
    run step s (as ++ bs) = run step m bs := by
  induction as generalizing s with
  | nil =>
    obtain rfl : s = m := by simpa using h
    rfl
  | cons a as ih =>
    obtain ⟨n, hn, hr⟩ := run_cons h
    rw [List.cons_append, run_cons_eq hn, ih hr]

theorem Reachable.run {s s' : σ} {as : List ι} (hs : Reachable step init s)
    (h : run step s as = some s') : Reachable step init s' := by
  induction as generalizing s with
  | nil =>
    obtain rfl : s = s' := by simpa using h
    exact hs
  | cons a as ih =>
    obtain ⟨m, hm, hr⟩ := run_cons h
    exact ih (hs.next a hm) hr

/-- **The invariant rule.** What holds at the start and is kept by every step holds in every
reachable state. -/
theorem Reachable.invariant {P : σ → Prop} (hinit : ∀ s, init s → P s)
    (hstep : ∀ s a s', P s → step s a = some s' → P s') {s : σ} (hs : Reachable step init s) :
    P s := by
  induction hs with
  | start h => exact hinit _ h
  | next a _ ha ih => exact hstep _ a _ ih ha

theorem ReachableIf.reachable {s : σ} (hs : ReachableIf step ok init s) :
    Reachable step init s := by
  induction hs with
  | start h => exact .start h
  | next a _ _ ha ih => exact ih.next a ha

theorem ReachableIf.invariant {P : σ → Prop} (hinit : ∀ s, init s → P s)
    (hstep : ∀ s a s', P s → ok s a → step s a = some s' → P s') {s : σ}
    (hs : ReachableIf step ok init s) : P s := by
  induction hs with
  | start h => exact hinit _ h
  | next a _ hok ha ih => exact hstep _ a _ ih hok ha

theorem Along.of_forall {s : σ} {as : List ι} (h : ∀ a ∈ as, ∀ s, ok s a) : Along step ok s as := by
  induction as generalizing s with
  | nil => trivial
  | cons a as ih =>
    exact ⟨h a List.mem_cons_self s, fun _ _ => ih fun b hb => h b (List.mem_cons_of_mem a hb)⟩

theorem ReachableIf.run {s s' : σ} {as : List ι} (hs : ReachableIf step ok init s)
    (hok : Along step ok s as) (h : run step s as = some s') : ReachableIf step ok init s' := by
  induction as generalizing s with
  | nil =>
    obtain rfl : s = s' := by simpa using h
    exact hs
  | cons a as ih =>
    obtain ⟨m, hm, hr⟩ := run_cons h
    exact ih (hs.next a hok.1 hm) (hok.2 m hm) hr

/-- **The run rule.** What holds at the start of a run and is kept by every step that meets `ok` holds at
the end of a run all of whose steps do. -/
theorem Along.invariant {P : σ → Prop} (hstep : ∀ s a s', P s → ok s a → step s a = some s' → P s')
    {s s' : σ} {as : List ι} (hs : P s) (hok : Along step ok s as) (h : run step s as = some s') : P s' := by
  have hstart : ReachableIf step ok (· = s) s := .start rfl
  exact (hstart.run hok h).invariant (fun _ hinit => hinit ▸ hs) hstep

theorem run_invariant {P : σ → Prop} (hstep : ∀ s a s', P s → step s a = some s' → P s') {s s' : σ}
    {as : List ι} (hs : P s) (h : run step s as = some s') : P s' := by
  have hstart : Reachable step (· = s) s := .start rfl
  exact (hstart.run h).invariant (fun _ hinit => hinit ▸ hs) hstep

end Runs

/-- **The simulation rule.** A system each of whose steps is matched, through `f`, by one step of a
second system or by standing still only reaches states that `f` takes to reachable ones. -/
theorem ReachableIf.simulation {step : σ → ι → Option σ} {ok : σ → ι → Prop} {init : σ → Prop}
    {step' : τ → κ → Option τ} {ok' : τ → κ → Prop} {init' : τ → Prop} (f : σ → τ)
    (hinit : ∀ s, init s → init' (f s))
    (hsim : ∀ s a s', ok s a → step s a = some s' →
      f s' = f s ∨ ∃ b, ok' (f s) b ∧ step' (f s) b = some (f s')) {s : σ}
    (hs : ReachableIf step ok init s) : ReachableIf step' ok' init' (f s) := by
  induction hs with
  | start h => exact .start (hinit _ h)
  | @next s s' a _ hok ha ih =>
    rcases hsim s a s' hok ha with hstill | ⟨b, hokb, hb⟩
    · exact hstill ▸ ih
    · exact ih.next b hokb hb

end StepSystem

import MyMio.Foundations.StepSystem
import MyMio.Selector.Handle

/-! # Registering one handle from many threads

`associate_selector` loads the id of the handle and, if it does not refuse, stores the poll's. Here any
number of threads register one handle with any polls, and the load, the store and the call of the
selector are separate steps. The ghost `associated` lists the polls whose association succeeded.

A thread that stores over the id of another poll makes a second one; as long as none does, all name
the same poll and only its interest list has the fd (`one_poll_iff`).
-/

namespace MyMio
set_option autoImplicit false

open StepSystem

universe u v w

/-- Where a thread is in `register`. -/
inductive Registering (κ : Type v) (J : Type w)
  | idle
  /-- about to load the id -/
  | load (poll : κ) (args : RegisterArgs J)
  /-- about to store the poll's -/
  | store (poll : κ) (args : RegisterArgs J)
  /-- about to call the selector -/
  | select (poll : κ) (args : RegisterArgs J)

structure Sharing (ι : Type u) (κ : Type v) (J : Type w) where
  handle : Socket
  selectors : κ → Selector J
  threads : ι → Registering κ J
  associated : List κ

inductive SharingOp (ι : Type u) (κ : Type v) (J : Type w)
  | call (i : ι) (poll : κ) (args : RegisterArgs J)
  | step (i : ι) (refused : Bool)

section Step
variable {ι : Type u} {κ : Type v} {J : Type w} [DecidableEq ι] [DecidableEq κ]

namespace Sharing

def id (s : Sharing ι κ J) (k : κ) : Usize := (s.selectors k).id

def goto (s : Sharing ι κ J) (i : ι) (t : Registering κ J) : Sharing ι κ J :=
  { s with threads := Function.update s.threads i t }

def step (s : Sharing ι κ J) (i : ι) (refused : Bool) : Option (Sharing ι κ J) :=
  match s.threads i with
  | .idle => none
  | .load k args =>
    if refuses s.handle.selectorId (s.id k) then some (s.goto i .idle)
    else some (s.goto i (.store k args))
  | .store k args =>
    some { s.goto i (.select k args) with
      handle := { s.handle with selectorId := s.id k }
      associated := s.associated ++ [k] }
  | .select k args =>
    let sel := ((s.selectors k).register s.handle.fd args.token args.interest args.opts args.job
      refused).1
    some { s.goto i .idle with selectors := Function.update s.selectors k sel }

end Sharing

def sharingStep (s : Sharing ι κ J) : SharingOp ι κ J → Option (Sharing ι κ J)
  | .call i k args =>
    match s.threads i with
    | .idle => some (s.goto i (.load k args))
    | _ => none
  | .step i refused => s.step i refused

/-- A new handle, whose fd no poll has, and polls with ids of their own. -/
structure Sharing.Starts (s : Sharing ι κ J) : Prop where
  selectorId : s.handle.selectorId = 0
  ids : ∀ k, s.id k ≠ 0
  distinct : ∀ k k', s.id k = s.id k' → k = k'
  interest : ∀ k, (s.selectors k).interestList s.handle.fd = none
  threads : ∀ i, s.threads i = .idle
  associated : s.associated = []

/-- All associations name one poll, and one interest list at most has the fd. -/
def Sharing.OnePoll (s : Sharing ι κ J) : Prop :=
  (∀ k ∈ s.associated, ∀ k' ∈ s.associated, k = k') ∧
    ∀ k k', (s.selectors k).interestList s.handle.fd ≠ none →
      (s.selectors k').interestList s.handle.fd ≠ none → k = k'

/-- What a thread is about to do does not overwrite the id of another poll. -/
def Sharing.Keeps (s : Sharing ι κ J) : Registering κ J → Prop
  | .store k _ => s.handle.selectorId = 0 ∨ s.handle.selectorId = s.id k
  | _ => True

def Undisturbed (s : Sharing ι κ J) : SharingOp ι κ J → Prop
  | .call _ _ _ => True
  | .step i _ => s.Keeps (s.threads i)

instance (s : Sharing ι κ J) (t : Registering κ J) : Decidable (s.Keeps t) :=
  match t with
  | .store _ _ => inferInstanceAs (Decidable (_ ∨ _))
  | .idle | .load _ _ | .select _ _ => .isTrue trivial

instance (s : Sharing ι κ J) (op : SharingOp ι κ J) : Decidable (Undisturbed s op) :=
  match op with
  | .call _ _ _ => .isTrue trivial
  | .step i _ => inferInstanceAs (Decidable (s.Keeps (s.threads i)))

end Step

/-! ## What every step keeps -/

section Invariants
variable {ι : Type u} {κ : Type v} {J : Type w} [DecidableEq ι] [DecidableEq κ]
  {s s' : Sharing ι κ J} {op : SharingOp ι κ J} {i : ι} {refused : Bool}

theorem register_id (sel : Selector J) (fd : RawFd) (token : TokenEntry) (interest : Ready)
    (opts : PollOpt) (job : J) (refused : Bool) :
    (sel.register fd token interest opts job refused).1.id = sel.id := by
  unfold Selector.register
  dsimp only
  split <;> rfl

/-- The id of the handle is that of a poll it was associated with, if there is one. -/
structure Sharing.Bound (s : Sharing ι κ J) : Prop where
  ids : ∀ k, s.id k ≠ 0
  distinct : ∀ k k', s.id k = s.id k' → k = k'
  latest : s.handle.selectorId = 0 ∨ ∃ k ∈ s.associated, s.handle.selectorId = s.id k
  interest : ∀ k, (s.selectors k).interestList s.handle.fd ≠ none → k ∈ s.associated
  entered : ∀ i k args, s.threads i = .select k args → k ∈ s.associated

omit [DecidableEq ι] [DecidableEq κ] in
theorem Sharing.Starts.bound (h : s.Starts) : s.Bound where
  ids := h.ids
  distinct := h.distinct
  latest := .inl h.selectorId
  interest k hk := absurd (h.interest k) hk
  entered i k args hi := by
    rw [h.threads i] at hi
    cases hi

omit [DecidableEq κ] in
/-- A thread goes on to a phase in which it is not associated. -/
theorem Sharing.Bound.goto (h : s.Bound) {t : Registering κ J} (ht : ∀ k args, t ≠ .select k args) :
    (s.goto i t).Bound where
  ids := h.ids
  distinct := h.distinct
  latest := h.latest
  interest := h.interest
  entered j k args hj := by
    change Function.update s.threads i t j = _ at hj
    by_cases hji : j = i
    · subst hji
      rw [Function.update_self] at hj
      exact absurd hj (ht k args)
    · rw [Function.update_of_ne hji] at hj
      exact h.entered j k args hj

theorem Sharing.Bound.step (h : s.Bound) (hs : s.step i refused = some s') :
    s'.Bound ∧ s.associated <+: s'.associated := by
  unfold Sharing.step at hs
  cases hi : s.threads i with
  | idle =>
    rw [hi] at hs
    cases hs
  | load k args =>
    rw [hi] at hs
    dsimp only at hs
    split at hs
    next =>
      cases hs
      exact ⟨h.goto nofun, List.prefix_rfl⟩
    next =>
      cases hs
      exact ⟨h.goto nofun, List.prefix_rfl⟩
  | store k args =>
    rw [hi] at hs
    cases hs
    have hmem : k ∈ s.associated ++ [k] := List.mem_append_right _ (List.mem_singleton_self k)
    refine ⟨⟨h.ids, h.distinct, .inr ⟨k, hmem, rfl⟩, fun k' hk' => ?_, fun j k' args' hj => ?_⟩,
      List.prefix_append ..⟩
    · exact List.mem_append_left _ (h.interest k' hk')
    · change Function.update s.threads i _ j = _ at hj
      by_cases hji : j = i
      · subst hji
        rw [Function.update_self] at hj
        cases hj
        exact hmem
      · rw [Function.update_of_ne hji] at hj
        exact List.mem_append_left _ (h.entered j k' args' hj)
  | select k args =>
    rw [hi] at hs
    cases hs
    have hmem : k ∈ s.associated := h.entered i k args hi
    have hid : ∀ sel : Selector J, sel.id = s.id k →
        ∀ k', (Function.update s.selectors k sel k').id = s.id k' := by
      intro sel hsel k'
      by_cases hk : k' = k
      · subst hk
        rw [Function.update_self]
        exact hsel
      · rw [Function.update_of_ne hk]
        rfl
    have hids := hid _ (register_id (s.selectors k) s.handle.fd args.token args.interest args.opts
      args.job refused)
    refine ⟨⟨fun k' => ?_, fun k' k'' he => ?_, ?_, fun k' hk' => ?_, fun j k' args' hj => ?_⟩,
      List.prefix_rfl⟩
    · exact fun hzero => h.ids k' ((hids k').symm.trans hzero)
    · exact h.distinct k' k'' ((hids k').symm.trans (he.trans (hids k'')))
    · refine h.latest.imp_right fun ⟨k', hk', hl⟩ => ⟨k', hk', hl.trans (hids k').symm⟩
    · by_cases hk : k' = k
      · exact hk ▸ hmem
      · change (Function.update s.selectors k _ k').interestList _ ≠ none at hk'
        rw [Function.update_of_ne hk] at hk'
        exact h.interest k' hk'
    · change Function.update s.threads i _ j = _ at hj
      by_cases hji : j = i
      · subst hji
        rw [Function.update_self] at hj
        cases hj
      · rw [Function.update_of_ne hji] at hj
        exact h.entered j k' args' hj

theorem sharingStep_bound (h : s.Bound) (hs : sharingStep s op = some s') :
    s'.Bound ∧ s.associated <+: s'.associated := by
  cases op with
  | step i refused => exact h.step hs
  | call i k args =>
    rw [sharingStep] at hs
    split at hs
    next =>
      cases hs
      exact ⟨h.goto nofun, List.prefix_rfl⟩
    next => cases hs

/-- An undisturbed step of a handle whose associations all name the poll of its id keeps it so. -/
theorem sharingStep_agree (h : s.Bound) (hagree : ∀ k ∈ s.associated, s.handle.selectorId = s.id k)
    (hok : Undisturbed s op) (hs : sharingStep s op = some s') :
    ∀ k ∈ s'.associated, s'.handle.selectorId = s'.id k := by
  cases op with
  | call i k args =>
    rw [sharingStep] at hs
    split at hs
    next =>
      cases hs
      exact hagree
    next => cases hs
  | step i refused =>
    change s.step i refused = some s' at hs
    unfold Sharing.step at hs
    cases hi : s.threads i with
    | idle =>
      rw [hi] at hs
      cases hs
    | load k args =>
      rw [hi] at hs
      dsimp only at hs
      split at hs <;> cases hs <;> exact hagree
    | store k args =>
      rw [hi] at hs
      cases hs
      intro k' hk'
      show s.id k = s.id k'
      change s.Keeps (s.threads i) at hok
      rw [hi] at hok
      rcases List.mem_append.mp hk' with hold | hnew
      · rcases hok with hzero | hown
        · exact absurd ((hagree k' hold).symm.trans hzero) (h.ids k')
        · exact hown.symm.trans (hagree k' hold)
      · rw [List.mem_singleton.mp hnew]
    | select k args =>
      rw [hi] at hs
      cases hs
      intro k' hk'
      have hid : s.handle.selectorId = s.id k' := hagree k' hk'
      by_cases hk : k' = k
      · subst hk
        show s.handle.selectorId = (Function.update s.selectors k' _ k').id
        rw [Function.update_self, register_id]
        exact hid
      · show s.handle.selectorId = (Function.update s.selectors k _ k').id
        rw [Function.update_of_ne hk]
        exact hid

end Invariants

/-! ## Whole runs -/

section Runs
variable {ι : Type u} {κ : Type v} {J : Type w} [DecidableEq ι] [DecidableEq κ]
  {s s' : Sharing ι κ J} {ops : List (SharingOp ι κ J)}

theorem run_bound (h : s.Bound) (hrun : run sharingStep s ops = some s') :
    s'.Bound ∧ s.associated <+: s'.associated := by
  refine run_invariant (P := fun m => m.Bound ∧ s.associated <+: m.associated)
    (fun m op m' ⟨h, hgrown⟩ hstep => ?_) ⟨h, List.prefix_rfl⟩ hrun
  obtain ⟨hbound, hprefix⟩ := sharingStep_bound h hstep
  exact ⟨hbound, hgrown.trans hprefix⟩

theorem run_agree (h : s.Bound) (hagree : ∀ k ∈ s.associated, s.handle.selectorId = s.id k)
    (hok : Along sharingStep Undisturbed s ops) (hrun : run sharingStep s ops = some s') :
    ∀ k ∈ s'.associated, s'.handle.selectorId = s'.id k :=
  (hok.invariant (P := fun m => m.Bound ∧ ∀ k ∈ m.associated, m.handle.selectorId = m.id k)
    (fun _ _ _ ⟨h, hagree⟩ hok hstep =>
      ⟨(sharingStep_bound h hstep).1, sharingStep_agree h hagree hok hstep⟩) ⟨h, hagree⟩ hrun).2

/-- A run that ends with one poll has not overwritten the id of another one. -/
theorem along_of_onePoll (h : s.Bound) (hone : ∀ k ∈ s'.associated, ∀ k' ∈ s'.associated, k = k')
    (hrun : run sharingStep s ops = some s') : Along sharingStep Undisturbed s ops := by
  induction ops generalizing s with
  | nil => trivial
  | cons op ops ih =>
    obtain ⟨m, hm, hrest⟩ := run_cons hrun
    obtain ⟨hbound, -⟩ := sharingStep_bound h hm
    refine (along_cons_iff hm ops).mpr ⟨?_, ih hbound hrest⟩
    cases op with
    | call => trivial
    | step i refused =>
      show s.Keeps (s.threads i)
      cases hi : s.threads i with
      | idle | load | select => trivial
      | store k args =>
        refine h.latest.imp_right fun ⟨k', hk', hl⟩ => ?_
        have hassociated : m.associated = s.associated ++ [k] := by
          change s.step i refused = some m at hm
          unfold Sharing.step at hm
          rw [hi] at hm
          cases hm
          rfl
        have hsub := (run_bound hbound hrest).2.subset
        rw [hassociated] at hsub
        have he : k' = k := hone k' (hsub (List.mem_append_left _ hk')) k
          (hsub (List.mem_append_right _ (List.mem_singleton_self k)))
        rw [hl, he]

/-- **When one handle has one poll.** A run of any threads ends with all successful associations
naming one poll, and with the fd in one interest list at most, exactly if no store of the run
overwrites the id of another poll. -/
theorem one_poll_iff (h : s.Starts) (hrun : run sharingStep s ops = some s') :
    s'.OnePoll ↔ Along sharingStep Undisturbed s ops := by
  refine ⟨fun hone => along_of_onePoll h.bound hone.1 hrun, fun hok => ?_⟩
  have hagree := run_agree h.bound (by simp [h.associated]) hok hrun
  obtain ⟨hbound, -⟩ := run_bound h.bound hrun
  have hone : ∀ k ∈ s'.associated, ∀ k' ∈ s'.associated, k = k' := fun k hk k' hk' =>
    hbound.distinct k k' ((hagree k hk).symm.trans (hagree k' hk'))
  exact ⟨hone, fun k k' hk hk' => hone k (hbound.interest k hk) k' (hbound.interest k' hk')⟩

end Runs

/-! ## Two threads, two polls -/

section Race

/-- A new handle, and two polls. -/
def twoPolls : Sharing Bool Bool Unit where
  handle := stream
  selectors k := .new (if k then 2 else 1)
  threads _ := .idle
  associated := []

theorem twoPolls_starts : twoPolls.Starts where
  selectorId := rfl
  ids := by decide
  distinct := by decide
  interest _ := rfl
  threads _ := rfl
  associated := rfl

def readableArgs : RegisterArgs Unit := ⟨⟨.socketEvent, ⟨1⟩⟩, .readable, .edge, ()⟩

def race : List (SharingOp Bool Bool Unit) :=
  [.call false false readableArgs, .call true true readableArgs, .step false false, .step true false,
    .step false false, .step true false, .step false false, .step true false]

/-- Both threads load the id before either stores it: both associations succeed, and the socket is in
two interest lists. -/
theorem one_handle_two_polls : ∃ s, run sharingStep twoPolls race = some s ∧
    s.associated = [false, true] ∧
    ((s.selectors false).interestList 7).isSome = true ∧
    ((s.selectors true).interestList 7).isSome = true := by
  obtain ⟨s, hs, hlast⟩ : ∃ s, run sharingStep twoPolls race = some s ∧
      (s.associated, ((s.selectors false).interestList 7).isSome,
        ((s.selectors true).interestList 7).isSome) = ([false, true], true, true) :=
    Option.map_eq_some_iff.mp (by decide)
  simp only [Prod.mk.injEq] at hlast
  exact ⟨s, hs, hlast⟩

/-- One after the other, the second thread is refused. -/
theorem one_poll_in_turn : ∃ s, run sharingStep twoPolls
    [.call false false readableArgs, .step false false, .step false false, .step false false,
      .call true true readableArgs, .step true false] = some s ∧ s.OnePoll := by
  obtain ⟨s, hs, -⟩ : ∃ s, run sharingStep twoPolls
      [.call false false readableArgs, .step false false, .step false false, .step false false,
        .call true true readableArgs, .step true false] = some s ∧ s.associated = [false] :=
    Option.map_eq_some_iff.mp (by decide)
  exact ⟨s, hs, (one_poll_iff twoPolls_starts hs).mpr (by decide)⟩

end Race

end MyMio

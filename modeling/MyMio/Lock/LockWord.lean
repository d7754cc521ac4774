import MyMio.Foundations.StepSystem
import MyMio.Foundations.Tally
import MyMio.Lock.Poll1

/-! # What the lock word counts

In every interleaved run `lock_state` is twice the number of counted threads, plus one while a
thread is in the critical section, where there is never a second one. A thread that waits is never
left alone: while bit 0 is clear somebody is about to notify or to look at the word again
(`lock_word_counts`).

`Move` is what a step does to the thread that makes it; every step is one, or two for a
`notify_one` that picks somebody, and `Move.locked` says once why the invariant survives it.
-/

namespace MyMio
set_option autoImplicit false

open StepSystem Tally

universe u

variable {ι : Type u} [DecidableEq ι] [Fintype ι]

/-! ## Phases -/

namespace Poll1

/-- The thread has counted itself and not taken itself off. -/
def counted : Poll1 → Bool
  | .acquire _ _ inc => inc
  | .leave | .wait _ | .waiting _ _ | .relock _ | .reload _ => true
  | _ => false

/-- The thread has taken bit 0 and not cleared it. -/
def inside : Poll1 → Bool
  | .unlock enters => enters
  | .poll2 | .release => true
  | _ => false

def holdsMutex : Poll1 → Bool
  | .acquire _ _ _ | .register _ _ | .leave | .wait _ | .reload _ | .unlock _ | .notify
  | .notifyUnlock => true
  | _ => false

/-- The thread is on its way to look at `lock_state` again, or to notify. -/
def awake : Poll1 → Bool
  | .notifyLock | .notify | .waiting _ true | .relock _ | .reload _ | .acquire _ _ _ => true
  | _ => false

def blocked : Poll1 → Bool
  | .waiting _ false => true
  | _ => false

/-- What the thread knows of the value it read last. -/
def Seen : Poll1 → Prop
  | .acquire _ curr inc => curr % 2 = 0 ∧ (inc = true → 2 ≤ curr)
  | .register _ curr => curr % 2 = 1
  | _ => True

end Poll1

namespace PollLock

def counted (s : PollLock ι) : ℕ := tally Poll1.counted s.pc

def inside (s : PollLock ι) : ℕ := tally Poll1.inside s.pc

end PollLock

/-! ## The invariant -/

structure PollLock.Ok (s : PollLock ι) : Prop where
  word : s.lockState = 2 * s.counted + s.inside
  inside_le : s.inside ≤ 1
  mutex : ∀ i, (s.pc i).holdsMutex = true ↔ s.mutex = some i
  condvar : ∀ i, i ∈ s.condvar ↔ (s.pc i).blocked = true
  nodup : s.condvar.Nodup
  seen : ∀ i, (s.pc i).Seen
  wait : ∀ i timeout, s.pc i = .wait timeout → s.lockState % 2 = 1 ∨ ∃ j, s.pc j = .notifyLock
  awake : s.lockState % 2 = 0 → s.condvar ≠ [] → ∃ i, (s.pc i).awake = true

/-- What a step does to the thread that makes it. -/
structure Move (s : PollLock ι) (i : ι) (p : Poll1) (lockState : ℕ) (mutex : Option ι)
    (condvar : List ι) : Prop where
  word : lockState + 2 * (s.pc i).counted.toNat + (s.pc i).inside.toNat =
    s.lockState + 2 * p.counted.toNat + p.inside.toNat
  enters : p.inside = true → (s.pc i).inside = true ∨ s.lockState % 2 = 0
  onMutex : p.holdsMutex = (s.pc i).holdsMutex ∧ mutex = s.mutex ∨
    p.holdsMutex = true ∧ s.mutex = none ∧ mutex = some i ∨
    p.holdsMutex = false ∧ (s.pc i).holdsMutex = true ∧ mutex = none
  onCondvar : condvar = s.condvar ∧ p.blocked = (s.pc i).blocked ∨
    condvar = s.condvar ++ [i] ∧ (∃ timeout, s.pc i = .wait timeout) ∧ p.blocked = true ∨
    condvar = s.condvar.erase i ∧ p.blocked = false
  seen : p.Seen
  wait : ∀ timeout, p = .wait timeout → lockState % 2 = 1
  notify : s.pc i = .notifyLock → s.mutex = none
  clears : s.lockState % 2 = 1 → lockState % 2 = 0 → p = .notifyLock ∨ s.lockState = 1
  awake : lockState % 2 = 0 → condvar ≠ [] → (s.pc i).awake = true →
    p.awake = true ∨ ∃ j, j ≠ i ∧ (s.pc j).awake = true

section Moves
variable {s : PollLock ι} {i : ι} {p : Poll1} {lockState : ℕ} {mutex : Option ι} {condvar : List ι}

omit [DecidableEq ι] in
/-- Nobody is blocked who is not counted. -/
theorem PollLock.Ok.condvar_nil (h : s.Ok) (hone : s.lockState = 1) : s.condvar = [] := by
  have hword := h.word
  refine List.eq_nil_iff_forall_not_mem.mpr fun j hj => ?_
  have hcounted : (s.pc j).counted = true := by
    have hb := (h.condvar j).mp hj
    cases hp : s.pc j <;> rw [hp] at hb <;> first | rfl | cases hb
  have hpos : 0 < s.counted := tally_pos hcounted
  omega

/-- **A move keeps the invariant.** -/
theorem PollLock.Ok.move (h : s.Ok) (m : Move s i p lockState mutex condvar) :
    PollLock.Ok { lockState, mutex, condvar, pc := Function.update s.pc i p } := by
  have hcounted := tally_update Poll1.counted s.pc i p
  have hinside := tally_update Poll1.inside s.pc i p
  have hword := h.word
  have hle := h.inside_le
  have hmove := m.word
  unfold PollLock.counted PollLock.inside at hword
  unfold PollLock.inside at hle
  have hself : Function.update s.pc i p i = p := Function.update_self ..
  have hother : ∀ j, j ≠ i → Function.update s.pc i p j = s.pc j := fun j hj =>
    Function.update_of_ne hj ..
  refine ⟨?_, ?_, fun j => ?_, fun j => ?_, ?_, fun j => ?_, fun j timeout hj => ?_,
    fun heven hne => ?_⟩
  · show lockState = 2 * tally Poll1.counted (Function.update s.pc i p) +
      tally Poll1.inside (Function.update s.pc i p)
    omega
  · show tally Poll1.inside (Function.update s.pc i p) ≤ 1
    cases hp : p.inside with
    | false =>
      rw [hp, Bool.toNat_false] at hinside
      omega
    | true =>
      rw [hp, Bool.toNat_true] at hinside
      rcases m.enters hp with hi | heven
      · rw [hi, Bool.toNat_true] at hinside
        omega
      · omega
  · show (Function.update s.pc i p j).holdsMutex = true ↔ mutex = some j
    have hi := h.mutex i
    have hj := h.mutex j
    by_cases hji : j = i
    · subst hji
      rw [hself]
      rcases m.onMutex with ⟨he, hm⟩ | ⟨hp, -, hm⟩ | ⟨hp, -, hm⟩
      · rw [he, hm]
        exact hj
      · simp [hp, hm]
      · simp [hp, hm]
    · rw [hother j hji]
      rcases m.onMutex with ⟨-, hm⟩ | ⟨-, hnone, hm⟩ | ⟨-, hold, hm⟩
      · rw [hm]
        exact hj
      · rw [hj, hnone, hm]
        simp [Ne.symm hji]
      · rw [hj, hi.mp hold, hm]
        simp [Ne.symm hji]
  · show j ∈ condvar ↔ (Function.update s.pc i p j).blocked = true
    have hj := h.condvar j
    by_cases hji : j = i
    · subst hji
      rw [hself]
      rcases m.onCondvar with ⟨hc, hp⟩ | ⟨hc, -, hp⟩ | ⟨hc, hp⟩
      · rw [hc, hp]
        exact hj
      · simp [hc, hp]
      · simp [hc, hp, h.nodup.mem_erase_iff]
    · rw [hother j hji]
      rcases m.onCondvar with ⟨hc, -⟩ | ⟨hc, -, -⟩ | ⟨hc, -⟩
      · rw [hc]
        exact hj
      · simp [hc, hji, hj]
      · simp [hc, h.nodup.mem_erase_iff, hji, hj]
  · rcases m.onCondvar with ⟨hc, -⟩ | ⟨hc, ⟨timeout, hi⟩, -⟩ | ⟨hc, -⟩
    · exact hc ▸ h.nodup
    · have hni : i ∉ s.condvar := fun hmem => by
        have hb := (h.condvar i).mp hmem
        rw [hi] at hb
        cases hb
      rw [hc]
      exact List.Nodup.append h.nodup (List.nodup_singleton i) (by simpa using hni)
    · exact hc ▸ h.nodup.erase i
  · show (Function.update s.pc i p j).Seen
    by_cases hji : j = i
    · subst hji
      exact hself.symm ▸ m.seen
    · exact (hother j hji).symm ▸ h.seen j
  · -- whoever is about to wait has the mutex, so nobody gets past `notifyLock`
    by_cases hji : j = i
    · subst hji
      exact .inl (m.wait timeout (hself ▸ hj))
    · have hj' : s.pc j = .wait timeout := hother j hji ▸ hj
      have hmutex : s.mutex = some j := (h.mutex j).mp (by rw [hj']; rfl)
      have hcount : 0 < s.counted := tally_pos (i := j) (by rw [hj']; rfl)
      unfold PollLock.counted at hcount
      rcases h.wait j timeout hj' with hodd | ⟨k, hk⟩
      · by_cases hodd' : lockState % 2 = 1
        · exact .inl hodd'
        · rcases m.clears hodd (by omega) with hp | hone
          · exact .inr ⟨i, hself.trans hp⟩
          · omega
      · by_cases hki : k = i
        · subst hki
          cases hmutex.symm.trans (m.notify hk)
        · exact .inr ⟨k, (hother k hki).trans hk⟩
  · change lockState % 2 = 0 at heven
    change condvar ≠ [] at hne
    show ∃ k, (Function.update s.pc i p k).awake = true
    by_cases hodd : s.lockState % 2 = 1
    · rcases m.clears hodd heven with hp | hone
      · exact ⟨i, by rw [hself, hp]; rfl⟩
      · have hnil := h.condvar_nil hone
        have hni : ∀ timeout, s.pc i ≠ .wait timeout := fun timeout hi => by
          have hcount : 0 < s.counted := tally_pos (i := i) (by rw [hi]; rfl)
          unfold PollLock.counted at hcount
          omega
        rcases m.onCondvar with ⟨hc, -⟩ | ⟨-, ⟨timeout, hi⟩, -⟩ | ⟨hc, -⟩
        · exact absurd (hc.trans hnil) hne
        · exact absurd hi (hni timeout)
        · rw [hnil] at hc
          exact absurd hc hne
    · have hbefore : s.lockState % 2 = 0 := by omega
      have hkeep : (∃ k, (s.pc k).awake = true) → ∃ k, (Function.update s.pc i p k).awake = true := by
        rintro ⟨k, hk⟩
        by_cases hki : k = i
        · subst hki
          rcases m.awake heven hne hk with hp | ⟨j, hj, hja⟩
          · exact ⟨k, by rw [hself]; exact hp⟩
          · exact ⟨j, by rw [hother j hj]; exact hja⟩
        · exact ⟨k, by rw [hother k hki]; exact hk⟩
      rcases m.onCondvar with ⟨hc, -⟩ | ⟨-, ⟨timeout, hi⟩, -⟩ | ⟨hc, -⟩
      · exact hkeep (h.awake hbefore (hc ▸ hne))
      · rcases h.wait i timeout hi with hodd' | ⟨k, hk⟩
        · exact absurd hodd' hodd
        · exact hkeep ⟨k, by rw [hk]; rfl⟩
      · refine hkeep (h.awake hbefore fun hnil => hne ?_)
        rw [hc, hnil]
        rfl

omit [Fintype ι] in
theorem Move.quiet (hcounted : p.counted = (s.pc i).counted) (hinside : p.inside = (s.pc i).inside)
    (hmutex : p.holdsMutex = (s.pc i).holdsMutex ∧ mutex = s.mutex ∨
      p.holdsMutex = true ∧ s.mutex = none ∧ mutex = some i ∨
      p.holdsMutex = false ∧ (s.pc i).holdsMutex = true ∧ mutex = none)
    (hblocked : p.blocked = (s.pc i).blocked) (hseen : p.Seen)
    (hwait : ∀ timeout, p = .wait timeout → s.lockState % 2 = 1)
    (hnotify : s.pc i = .notifyLock → s.mutex = none)
    (hawake : s.lockState % 2 = 0 → (s.pc i).awake = true → p.awake = true) :
    Move s i p s.lockState mutex s.condvar where
  word := by rw [hcounted, hinside]
  enters hp := .inl (hinside ▸ hp)
  onMutex := hmutex
  onCondvar := .inl ⟨rfl, hblocked⟩
  seen := hseen
  wait := hwait
  notify := hnotify
  clears hodd heven := by omega
  awake heven _ hi := .inl (hawake heven hi)

end Moves

/-! ## The head of the loop -/

section Examine
variable (timeout : Option ℕ) (inc : Bool) (curr : ℕ)

theorem examine_counted : (examine timeout inc curr).counted = inc := by
  unfold examine
  split
  · rfl
  · cases inc <;> simp only [if_true, Bool.false_eq_true, if_false] <;> split <;> rfl

theorem examine_inside : (examine timeout inc curr).inside = false := by
  unfold examine
  split
  · rfl
  · cases inc <;> simp only [if_true, Bool.false_eq_true, if_false] <;> split <;> rfl

theorem examine_holdsMutex : (examine timeout inc curr).holdsMutex = true := by
  unfold examine
  split
  · rfl
  · cases inc <;> simp only [if_true, Bool.false_eq_true, if_false] <;> split <;> rfl

theorem examine_blocked : (examine timeout inc curr).blocked = false := by
  unfold examine
  split
  · rfl
  · cases inc <;> simp only [if_true, Bool.false_eq_true, if_false] <;> split <;> rfl

theorem examine_seen (hcurr : inc = true → curr ≠ 0) : (examine timeout inc curr).Seen := by
  unfold examine
  rw [Nat.and_one_is_mod]
  split
  next heven =>
    refine ⟨heven, fun hinc => ?_⟩
    have hne := hcurr hinc
    omega
  next hodd =>
    have hodd' : curr % 2 = 1 := by omega
    cases inc <;> simp only [if_true, Bool.false_eq_true, if_false] <;> split <;> trivial

theorem examine_wait {left : Option ℕ} (h : examine timeout inc curr = .wait left) :
    curr % 2 = 1 := by
  unfold examine at h
  rw [Nat.and_one_is_mod] at h
  split at h
  next => cases h
  next hodd => omega

theorem examine_awake (heven : curr % 2 = 0) : (examine timeout inc curr).awake = true := by
  unfold examine
  rw [Nat.and_one_is_mod, if_pos heven]
  rfl

end Examine

/-! ## Steps -/

section Steps
variable {s s' : PollLock ι} {i : ι}

omit [DecidableEq ι] in
theorem PollLock.Ok.word_ne_zero (h : s.Ok) (hi : (s.pc i).counted = true) : s.lockState ≠ 0 := by
  have hword := h.word
  have hpos : 0 < s.counted := tally_pos hi
  omega

theorem PollLock.Ok.move_examine (h : s.Ok) {timeout : Option ℕ} {inc : Bool}
    (hcounted : (s.pc i).counted = inc) (hinside : (s.pc i).inside = false)
    (hholds : (s.pc i).holdsMutex = true) (hblocked : (s.pc i).blocked = false)
    (hnotify : s.pc i ≠ .notifyLock) :
    PollLock.Ok (s.goto i (examine timeout inc s.lockState)) := by
  refine h.move (.quiet ?_ ?_ (.inl ⟨?_, rfl⟩) ?_ ?_ ?_ ?_ ?_)
  · rw [examine_counted, hcounted]
  · rw [examine_inside, hinside]
  · rw [examine_holdsMutex, hholds]
  · rw [examine_blocked, hblocked]
  · exact examine_seen _ _ _ fun hinc => h.word_ne_zero (hcounted.trans hinc)
  · exact fun _ hw => examine_wait _ _ _ hw
  · exact fun hi => absurd hi hnotify
  · exact fun heven _ => examine_awake _ _ _ heven

theorem PollLock.Ok.step_fast (h : s.Ok) {timeout : Option ℕ} (hi : s.pc i = .fast timeout)
    (hs : s.step i = some s') : s'.Ok := by
  rw [PollLock.step, hi] at hs
  dsimp only at hs
  split at hs
  next hzero =>
    cases hs
    refine h.move ⟨?_, fun _ => .inr (by rw [hzero]), .inl ⟨?_, rfl⟩, .inl ⟨rfl, ?_⟩, trivial,
      nofun, ?_, ?_, fun hodd => ?_⟩
    · rw [hi, hzero]
      rfl
    · rw [hi]
      rfl
    · rw [hi]
      rfl
    · rw [hi]
      exact nofun
    · intro hodd
      omega
    · omega
  next =>
    cases hs
    refine h.move (.quiet ?_ ?_ (.inl ⟨?_, rfl⟩) ?_ trivial nofun ?_ ?_) <;> rw [hi]
    iterate 4 rfl
    · exact nofun
    · exact nofun

theorem PollLock.Ok.step_lock (h : s.Ok) {timeout : Option ℕ} {curr : ℕ}
    (hi : s.pc i = .lock timeout curr) (hs : s.step i = some s') : s'.Ok := by
  rw [PollLock.step, hi] at hs
  dsimp only [PollLock.locked] at hs
  split at hs
  next hfree =>
    cases hs
    refine h.move (.quiet ?_ ?_ (.inr (.inl ⟨examine_holdsMutex _ _ _, hfree, rfl⟩)) ?_
      (examine_seen _ _ _ nofun) (fun left hw => ?_) ?_ ?_)
    · rw [examine_counted, hi]
      rfl
    · rw [examine_inside, hi]
      rfl
    · rw [examine_blocked, hi]
      rfl
    · -- an uncounted thread counts itself first
      have hc := examine_counted timeout false curr
      rw [hw] at hc
      cases hc
    · rw [hi]
      exact nofun
    · rw [hi]
      exact nofun
  next => cases hs

theorem PollLock.Ok.step_acquire (h : s.Ok) {timeout : Option ℕ} {curr : ℕ} {inc : Bool}
    (hi : s.pc i = .acquire timeout curr inc) (hs : s.step i = some s') : s'.Ok := by
  rw [PollLock.step, hi] at hs
  dsimp only at hs
  split at hs
  next hcurr =>
    cases hs
    have hseen := h.seen i
    rw [hi] at hseen
    obtain ⟨heven, hcounted⟩ := hseen
    have hor : curr ||| 1 = curr + 1 := by
      have hshift := Nat.shiftLeft_add_eq_or_of_lt (i := 1) (b := 1) (by decide) (curr / 2)
      rw [Nat.shiftLeft_eq] at hshift
      have hdiv : curr / 2 * 2 ^ 1 = curr := by omega
      rw [hdiv] at hshift
      exact hshift.symm
    have hodd : (if inc = true then (curr ||| 1) - 2 else curr ||| 1) % 2 = 1 := by
      cases inc with
      | false => simp only [hor, Bool.false_eq_true, if_false]; omega
      | true =>
        have hle := hcounted rfl
        simp only [hor, if_true]
        omega
    refine h.move ⟨?_, fun _ => .inr (by omega), .inl ⟨?_, rfl⟩, .inl ⟨rfl, ?_⟩, trivial, nofun,
      ?_, ?_, ?_⟩
    · rw [hi, hcurr, hor]
      cases inc with
      | false => rfl
      | true =>
        have hle := hcounted rfl
        show curr + 1 - 2 + 2 * 1 + 0 = curr + 2 * 0 + 1
        omega
    · rw [hi]
      rfl
    · rw [hi]
      rfl
    · rw [hi]
      exact nofun
    · intro hodd'
      omega
    · intro heven'
      omega
  next =>
    cases hs
    exact h.move_examine (by rw [hi]; rfl) (by rw [hi]; rfl) (by rw [hi]; rfl) (by rw [hi]; rfl)
      (by rw [hi]; exact nofun)

theorem PollLock.Ok.step_register (h : s.Ok) {timeout : Option ℕ} {curr : ℕ}
    (hi : s.pc i = .register timeout curr) (hs : s.step i = some s') : s'.Ok := by
  rw [PollLock.step, hi] at hs
  dsimp only at hs
  split at hs
  next =>
    split at hs
    next hcurr =>
      cases hs
      have hodd := h.seen i
      rw [hi] at hodd
      change curr % 2 = 1 at hodd
      refine h.move ⟨?_, nofun, .inl ⟨?_, rfl⟩, .inl ⟨rfl, ?_⟩, trivial, fun _ _ => by omega,
        ?_, ?_, ?_⟩
      · rw [hi, hcurr]
        rfl
      · rw [hi]
        rfl
      · rw [hi]
        rfl
      · rw [hi]
        exact nofun
      · intro _ heven
        omega
      · intro heven
        omega
    next =>
      cases hs
      exact h.move_examine (by rw [hi]; rfl) (by rw [hi]; rfl) (by rw [hi]; rfl)
        (by rw [hi]; rfl) (by rw [hi]; exact nofun)
  next => cases hs

theorem PollLock.Ok.step_leave (h : s.Ok) (hi : s.pc i = .leave) (hs : s.step i = some s') :
    s'.Ok := by
  rw [PollLock.step, hi] at hs
  cases hs
  have hword := h.word
  have hpos : 0 < s.counted := tally_pos (i := i) (by rw [hi]; rfl)
  refine h.move ⟨?_, nofun, .inl ⟨?_, rfl⟩, .inl ⟨rfl, ?_⟩, trivial, nofun, ?_, ?_, ?_⟩
  · rw [hi]
    show s.lockState - 2 + 2 * 1 + 0 = s.lockState + 2 * 0 + 0
    omega
  · rw [hi]
    rfl
  · rw [hi]
    rfl
  · rw [hi]
    exact nofun
  · intro _ heven
    omega
  · rw [hi]
    exact nofun

theorem PollLock.Ok.step_wait (h : s.Ok) {timeout : Option ℕ} (hi : s.pc i = .wait timeout)
    (hs : s.step i = some s') : s'.Ok := by
  rw [PollLock.step, hi] at hs
  cases hs
  refine h.move ⟨?_, nofun, .inr (.inr ⟨rfl, ?_, rfl⟩), .inr (.inl ⟨rfl, ⟨timeout, hi⟩, rfl⟩),
    trivial, nofun, ?_, ?_, ?_⟩
  · rw [hi]
    rfl
  · rw [hi]
    rfl
  · rw [hi]
    exact nofun
  · intro hodd heven
    change s.lockState % 2 = 0 at heven
    omega
  · rw [hi]
    exact nofun

theorem PollLock.Ok.step_unlock (h : s.Ok) {enters : Bool} (hi : s.pc i = .unlock enters)
    (hs : s.step i = some s') : s'.Ok := by
  rw [PollLock.step, hi] at hs
  cases enters with
  | true =>
    change some { s.goto i .poll2 with mutex := none } = some s' at hs
    cases hs
    refine h.move (.quiet ?_ ?_ (.inr (.inr ⟨rfl, ?_, rfl⟩)) ?_ trivial nofun ?_ ?_) <;> rw [hi]
    iterate 4 rfl
    · exact nofun
    · exact nofun
  | false =>
    change some { s.goto i .idle with mutex := none } = some s' at hs
    cases hs
    refine h.move (.quiet ?_ ?_ (.inr (.inr ⟨rfl, ?_, rfl⟩)) ?_ trivial nofun ?_ ?_) <;> rw [hi]
    iterate 4 rfl
    · exact nofun
    · exact nofun

theorem PollLock.Ok.step_release (h : s.Ok) (hi : s.pc i = .release) (hs : s.step i = some s') :
    s'.Ok := by
  rw [PollLock.step, hi] at hs
  cases hs
  have hword := h.word
  have hle := h.inside_le
  have hpos : 0 < s.inside := tally_pos (i := i) (by rw [hi]; rfl)
  refine h.move ⟨?_, ?_, .inl ⟨?_, rfl⟩, .inl ⟨rfl, ?_⟩, ?_, ?_, ?_, fun _ _ => ?_, ?_⟩
  · rw [hi]
    split
    · show s.lockState / 2 * 2 + 2 * 0 + 1 = s.lockState + 2 * 0 + 0
      omega
    · show s.lockState / 2 * 2 + 2 * 0 + 1 = s.lockState + 2 * 0 + 0
      omega
  · rw [hi]
    exact fun _ => .inl rfl
  · rw [hi]
    split <;> rfl
  · rw [hi]
    split <;> rfl
  · split <;> trivial
  · intro left hw
    split at hw <;> cases hw
  · rw [hi]
    exact nofun
  · by_cases hone : s.lockState = 1
    · exact .inr hone
    · exact .inl (if_neg hone)
  · rw [hi]
    exact nofun

theorem PollLock.Ok.step_notifyLock (h : s.Ok) (hi : s.pc i = .notifyLock)
    (hs : s.step i = some s') : s'.Ok := by
  rw [PollLock.step, hi] at hs
  dsimp only [PollLock.locked] at hs
  split at hs
  next hfree =>
    cases hs
    refine h.move (.quiet ?_ ?_ (.inr (.inl ⟨rfl, hfree, rfl⟩)) ?_ trivial nofun
      (fun _ => hfree) fun _ _ => rfl) <;> rw [hi] <;> rfl
  next => cases hs

theorem PollLock.Ok.step_notifyUnlock (h : s.Ok) (hi : s.pc i = .notifyUnlock)
    (hs : s.step i = some s') : s'.Ok := by
  rw [PollLock.step, hi] at hs
  cases hs
  refine h.move (.quiet ?_ ?_ (.inr (.inr ⟨rfl, ?_, rfl⟩)) ?_ trivial nofun ?_ ?_) <;> rw [hi]
  iterate 4 rfl
  · exact nofun
  · exact nofun

/-- **A step of a thread keeps the invariant.** -/
theorem PollLock.Ok.step (h : s.Ok) (hs : s.step i = some s') : s'.Ok := by
  cases hi : s.pc i with
  | fast => exact h.step_fast hi hs
  | lock => exact h.step_lock hi hs
  | acquire => exact h.step_acquire hi hs
  | register => exact h.step_register hi hs
  | leave => exact h.step_leave hi hs
  | wait => exact h.step_wait hi hs
  | unlock => exact h.step_unlock hi hs
  | release => exact h.step_release hi hs
  | notifyLock => exact h.step_notifyLock hi hs
  | notifyUnlock => exact h.step_notifyUnlock hi hs
  | reload =>
    rw [PollLock.step, hi] at hs
    cases hs
    exact h.move_examine (by rw [hi]; rfl) (by rw [hi]; rfl) (by rw [hi]; rfl) (by rw [hi]; rfl)
      (by rw [hi]; exact nofun)
  | poll2 =>
    rw [PollLock.step, hi] at hs
    cases hs
    refine h.move (.quiet ?_ ?_ (.inl ⟨?_, rfl⟩) ?_ trivial nofun ?_ ?_) <;> rw [hi]
    iterate 4 rfl
    · exact nofun
    · exact nofun
  | idle | waiting | relock | notify =>
    rw [PollLock.step, hi] at hs
    cases hs

/-- `notify_one` is two moves: the thread it picks is notified, and the one that calls it moves on
to unlock. -/
theorem PollLock.Ok.step_notify (h : s.Ok) {j : ι} (hs : poll1Step s (.notify i j) = some s') :
    s'.Ok := by
  rw [poll1Step] at hs
  split at hs
  case h_2 => cases hs
  case h_1 hi =>
  split at hs
  next hnil =>
    cases hs
    have hmove : Move s i .notifyUnlock s.lockState s.mutex s.condvar := by
      refine ⟨?_, nofun, .inl ⟨?_, rfl⟩, .inl ⟨rfl, ?_⟩, trivial, nofun, ?_, ?_, fun _ hne =>
        absurd hnil hne⟩
      · rw [hi]
        rfl
      · rw [hi]
        rfl
      · rw [hi]
        rfl
      · rw [hi]
        exact nofun
      · intro hodd heven
        omega
    exact h.move hmove
  next =>
    split at hs
    next hj =>
      split at hs
      case h_2 => cases hs
      case h_1 timeout flag hjp =>
      cases hs
      have hji : j ≠ i := fun he => by
        rw [he, hi] at hjp
        cases hjp
      have hfirst : PollLock.Ok { s.goto j (.waiting timeout true) with
          condvar := s.condvar.erase j } := by
        refine h.move (show Move s j (.waiting timeout true) s.lockState s.mutex _ from
          ⟨?_, nofun, .inl ⟨?_, rfl⟩, .inr (.inr ⟨rfl, rfl⟩), trivial, nofun, ?_, ?_,
            fun _ _ _ => .inl rfl⟩)
        · rw [hjp]
          rfl
        · rw [hjp]
          rfl
        · rw [hjp]
          exact nofun
        · intro hodd heven
          change s.lockState % 2 = 0 at heven
          omega
      have hi' : Function.update s.pc j (.waiting timeout true) i = .notify :=
        (Function.update_of_ne hji.symm ..).trans hi
      refine hfirst.move (show Move _ i .notifyUnlock s.lockState s.mutex _ from
        ⟨?_, nofun, .inl ⟨?_, rfl⟩, .inl ⟨rfl, ?_⟩, trivial, nofun, ?_, ?_, fun _ _ _ => .inr
          ⟨j, hji, ?_⟩⟩)
      · show _ + 2 * (Function.update s.pc j _ i).counted.toNat +
          (Function.update s.pc j _ i).inside.toNat = _
        rw [hi']
        rfl
      · show _ = (Function.update s.pc j _ i).holdsMutex
        rw [hi']
        rfl
      · show _ = (Function.update s.pc j _ i).blocked
        rw [hi']
        rfl
      · show Function.update s.pc j _ i = _ → _
        rw [hi']
        exact nofun
      · intro hodd heven
        change s.lockState % 2 = 1 at hodd
        change s.lockState % 2 = 0 at heven
        omega
      · show (Function.update s.pc j _ j).awake = true
        rw [Function.update_self]
        rfl
    next => cases hs

/-- **Every step keeps the invariant.** -/
theorem PollLock.Ok.poll1Step (h : s.Ok) {op : Poll1Op ι} (hs : poll1Step s op = some s') :
    s'.Ok := by
  cases op with
  | step i => exact h.step hs
  | notify i j => exact h.step_notify hs
  | call i timeout =>
    rw [MyMio.poll1Step] at hs
    split at hs
    next hi =>
      cases hs
      refine h.move (.quiet ?_ ?_ (.inl ⟨?_, rfl⟩) ?_ trivial nofun ?_ ?_) <;> rw [hi]
      iterate 4 rfl
      · exact nofun
      · exact nofun
    next => cases hs
  | wake i =>
    rw [MyMio.poll1Step] at hs
    split at hs
    next timeout flag hi =>
      cases hs
      refine h.move (show Move s i (.relock timeout) s.lockState s.mutex _ from
        ⟨?_, nofun, .inl ⟨?_, rfl⟩, .inr (.inr ⟨rfl, rfl⟩), trivial, nofun, ?_, ?_,
          fun _ _ _ => .inl rfl⟩)
      · rw [hi]
        rfl
      · rw [hi]
        rfl
      · rw [hi]
        exact nofun
      · intro hodd heven
        change s.lockState % 2 = 0 at heven
        omega
    next => cases hs
  | relock i elapsed =>
    rw [MyMio.poll1Step] at hs
    split at hs
    next timeout hi =>
      dsimp only [PollLock.locked] at hs
      split at hs
      next hfree =>
        cases hs
        refine h.move (.quiet ?_ ?_ (.inr (.inl ⟨rfl, hfree, rfl⟩)) ?_ trivial nofun ?_
          fun _ _ => rfl) <;> rw [hi]
        iterate 3 rfl
        · exact nofun
      next => cases hs
    next => cases hs

omit [DecidableEq ι] in
theorem PollLock.Ok.new : (PollLock.new : PollLock ι).Ok where
  word := by
    have hc : PollLock.counted (PollLock.new : PollLock ι) = 0 := tally_eq_zero fun _ => rfl
    have hi : PollLock.inside (PollLock.new : PollLock ι) = 0 := tally_eq_zero fun _ => rfl
    rw [hc, hi]
    rfl
  inside_le := by
    have hi : PollLock.inside (PollLock.new : PollLock ι) = 0 := tally_eq_zero fun _ => rfl
    omega
  mutex i := by simp [PollLock.new, Poll1.holdsMutex]
  condvar i := by simp [PollLock.new, Poll1.blocked]
  nodup := List.nodup_nil
  seen _ := trivial
  wait _ _ h := by cases h
  awake _ h := absurd rfl h

theorem pollLock_ok (h : Reachable poll1Step (· = PollLock.new) s) : s.Ok :=
  h.invariant (fun _ hinit => hinit ▸ PollLock.Ok.new) fun _ _ _ hok hs => hok.poll1Step hs

end Steps

/-! ## The word counts the threads -/

/-- **The lock word counts the threads, keeps them apart and leaves no waiter behind.** In every
interleaved run `lock_state` is twice the counted threads plus the ones in the critical section, of
which there is at most one; the two subtractions of 2 have 2 to take; and while bit 0 is clear and a
thread waits un-notified, another one is about to notify or to look at the word again. -/
theorem lock_word_counts {s : PollLock ι} (h : Reachable poll1Step (· = PollLock.new) s) :
    s.lockState = 2 * s.counted + s.inside ∧ s.inside ≤ 1 ∧
      (∀ i j, s.pc i = .poll2 → s.pc j = .poll2 → i = j) ∧
      (∀ i, s.pc i = .leave → 2 ≤ s.lockState) ∧
      (∀ i timeout curr, s.pc i = .acquire timeout curr true → 2 ≤ curr ||| 1) ∧
      ∀ i, (s.pc i).blocked = true → s.lockState % 2 = 0 →
        ∃ j, j ≠ i ∧ (s.pc j).awake = true := by
  have hok := pollLock_ok h
  have hword := hok.word
  refine ⟨hword, hok.inside_le, fun i j hi hj => ?_, fun i hi => ?_,
    fun i timeout curr hi => ?_, fun i hi heven => ?_⟩
  · exact tally_unique hok.inside_le (by rw [hi]; rfl) (by rw [hj]; rfl)
  · have hpos : 0 < s.counted := tally_pos (i := i) (by rw [hi]; rfl)
    omega
  · have hseen := hok.seen i
    rw [hi] at hseen
    exact (hseen.2 rfl).trans Nat.left_le_or
  · have hne : s.condvar ≠ [] := List.ne_nil_of_mem ((hok.condvar i).mpr hi)
    obtain ⟨j, hj⟩ := hok.awake heven hne
    refine ⟨j, fun he => ?_, hj⟩
    subst he
    cases hp : s.pc j <;> rw [hp] at hi hj
    case waiting left flag =>
      cases flag with
      | true => cases hi
      | false => cases hj
    all_goals cases hi

/-- A thread waits; the one in the critical section has left it and is about to notify. -/
theorem lock_word_counts_two : ∃ s : PollLock Bool,
    s.lockState = 2 * s.counted + s.inside ∧ s.lockState = 2 ∧
      ∃ j, j ≠ true ∧ (s.pc j).awake = true := by
  obtain ⟨s, hs, hlast⟩ : ∃ s : PollLock Bool, run poll1Step PollLock.new [.call false none,
      .step false, .call true none, .step true, .step true, .step true, .step true, .step false,
      .step false] = some s ∧ (s.lockState, s.pc true) = (2, .waiting none false) :=
    Option.map_eq_some_iff.mp (by decide)
  simp only [Prod.mk.injEq] at hlast
  obtain ⟨hstate, hpc⟩ := hlast
  have hstart : Reachable poll1Step (· = PollLock.new) (PollLock.new : PollLock Bool) := .start rfl
  obtain ⟨hword, -, -, -, -, hwaiter⟩ := lock_word_counts (hstart.run hs)
  exact ⟨s, hword, hstate, hwaiter true (by rw [hpc]; rfl) (by rw [hstate])⟩

end MyMio

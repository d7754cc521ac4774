import MyMio.Node.Shares

/-! # The account of a node

A node's `ref_count` is in balance with its handles and the poll's share, and each step that touches
the count keeps it so: `create`, `clone`, the ends of the handles, an association from its claim to
its count, and `release`, the poll giving its share back.
-/

namespace MyMio
set_option autoImplicit false

universe u v w

variable {ι : Type v} {α : Type u} {J : Type w} [DecidableEq ι] [DecidableEq α]

/-! ## One node -/

namespace Shares

/-- What is true of the count of one node. -/
structure Balanced (s : Shares ι α J) (a : α) : Prop where
  count : s.refCount a + (if s.owed a = true then 1 else 0) = s.handles a + s.share a
  freed : s.freed a = if s.registered a ≠ .absent ∧ s.refCount a = 0 then 1 else 0
  owed : s.owed a = true → s.registered a = .held ∧ s.share a = 1
  absent : s.registered a = .absent → s.associated a = false ∧ s.setters a = 0

structure Accounts (s : Shares ι α J) : Prop where
  balanced : ∀ a, s.Balanced a
  nodup : (s.releases.map Prod.fst).Nodup
  associated : ∀ a ∈ s.releases.map Prod.fst, s.associated a = true
  releasing : ∀ a, s.releasing = some a → s.share a = 1 ∧ s.owed a = false

end Shares

section Balance
variable {s s' : Shares ι α J} {a b : α}

omit [DecidableEq ι] in
theorem share_eq_one : s.share a = 1 ↔ s.associated a = true ∧ a ∉ s.releases.map Prod.fst := by
  unfold Shares.share
  split
  · exact ⟨fun _ => ‹_›, fun _ => rfl⟩
  · exact ⟨fun h => (by cases h), fun h => absurd h ‹_›⟩

omit [DecidableEq ι] in
theorem share_le (s : Shares ι α J) (a : α) : s.share a ≤ 1 := by
  unfold Shares.share
  split <;> omega

omit [DecidableEq ι] in
theorem Shares.Balanced.same (h : s.Balanced b) (hregistered : s'.registered b = s.registered b)
    (hsetters : s'.setters b = s.setters b) (hassociated : s'.associated b = s.associated b)
    (howed : s'.owed b = s.owed b) (hcount : s'.refCount b = s.refCount b)
    (hfreed : s'.freed b = s.freed b)
    (hreleases : b ∈ s'.releases.map Prod.fst ↔ b ∈ s.releases.map Prod.fst) : s'.Balanced b := by
  have hhandles : s'.handles b = s.handles b := by
    unfold Shares.handles
    rw [hregistered, hsetters]
  have hshare : s'.share b = s.share b := by
    unfold Shares.share
    simp only [hassociated, hreleases]
  refine ⟨?_, ?_, ?_, ?_⟩
  · rw [hcount, howed, hhandles, hshare]
    exact h.count
  · rw [hfreed, hregistered, hcount]
    exact h.freed
  · rw [howed, hregistered, hshare]
    exact h.owed
  · rw [hregistered, hassociated, hsetters]
    exact h.absent

omit [DecidableEq ι] in
/-- A count that is owed one is a count of something. -/
theorem Shares.Balanced.pos (h : s.Balanced a) (hheld : 0 < s.handles a ∨ s.share a = 1) :
    0 < s.refCount a := by
  have hcount := h.count
  cases ho : s.owed a with
  | false =>
    rw [if_neg (by simp [ho])] at hcount
    omega
  | true =>
    obtain ⟨hreg, hshare⟩ := h.owed ho
    have hhandles : 0 < s.handles a := by
      unfold Shares.handles
      rw [if_pos (.inl hreg)]
      omega
    rw [if_pos ho] at hcount
    omega

omit [DecidableEq ι] in
theorem Shares.Accounts.same (h : s.Accounts) (hregistered : s'.registered = s.registered)
    (hsetters : s'.setters = s.setters) (hassociated : s'.associated = s.associated)
    (howed : s'.owed = s.owed) (hcount : s'.refCount = s.refCount) (hfreed : s'.freed = s.freed)
    (hreleases : s'.releases = s.releases)
    (hreleasing : ∀ a, s'.releasing = some a → s.releasing = some a ∨ s.share a = 1 ∧ s.owed a = false) :
    s'.Accounts := by
  have hshare : ∀ a, s'.share a = s.share a := by
    intro a
    unfold Shares.share
    rw [hassociated, hreleases]
  refine ⟨fun b => ?_, hreleases ▸ h.nodup, fun a ha => ?_, fun a ha => ?_⟩
  · apply (h.balanced b).same <;> simp only [hregistered, hsetters, hassociated, howed, hcount,
      hfreed, hreleases]
  · rw [hassociated]
    exact h.associated a (hreleases ▸ ha)
  · rw [hshare, howed]
    exact (hreleasing a ha).elim (h.releasing a) id

omit [DecidableEq ι] in
theorem Shares.Accounts.not_mem (h : s.Accounts) (ha : s.associated a = false) :
    a ∉ s.releases.map Prod.fst := by
  intro hm
  rw [h.associated a hm] at ha
  cases ha

omit [DecidableEq ι] in
theorem Shares.Accounts.not_releasing (h : s.Accounts) (ha : s.share a = 0) : s.releasing ≠ some a := by
  intro hr
  have hshare := (h.releasing a hr).1
  omega

/-! ## The steps that count -/

omit [DecidableEq ι] in
theorem Shares.Accounts.create (h : s.Accounts) (ha : s.registered a = .absent) (node : Node J)
    (associated : Bool) :
    (s.create a node associated (if associated then 3 else 2)).Accounts := by
  have hbalanced := h.balanced a
  obtain ⟨hassociated, -⟩ := hbalanced.absent ha
  have hnot := h.not_mem hassociated
  have hother : ∀ b, b ≠ a → (s.create a node associated (if associated then 3 else 2)).share b =
      s.share b := by
    intro b hb
    simp only [Shares.share, Shares.create, Function.update_of_ne hb]
  refine ⟨fun b => ?_, h.nodup, fun b hb => ?_, fun b hb => ?_⟩
  · by_cases hb : b = a
    · subst hb
      have howed : s.owed b = false := by
        cases ho : s.owed b with
        | false => rfl
        | true => cases (hbalanced.owed ho).1.symm.trans ha
      have hfreed : s.freed b = 0 := by simpa [ha] using hbalanced.freed
      refine ⟨?_, ?_, ?_, ?_⟩
      · cases associated <;> simp [Shares.handles, Shares.share, Shares.create, howed, hnot]
      · cases associated <;> simp [Shares.create, hfreed]
      · simp [Shares.create, howed]
      · simp [Shares.create]
    · apply (h.balanced b).same <;> simp [Shares.create, hb]
  · have hne : b ≠ a := fun he => hnot (he ▸ hb)
    simpa [Shares.create, hne] using h.associated b hb
  · obtain ⟨hshare, howed⟩ := h.releasing b hb
    have hne : b ≠ a := by
      rintro rfl
      rw [(share_eq_one.mp hshare).1] at hassociated
      cases hassociated
    exact ⟨(hother b hne).trans hshare, howed⟩

omit [DecidableEq ι] in
theorem Shares.Accounts.clone (h : s.Accounts) (ha : 0 < s.setters a) :
    ({ s with
      refCount := Function.update s.refCount a (s.refCount a + 1)
      setters := Function.update s.setters a (s.setters a + 1) } : Shares ι α J).Accounts := by
  refine ⟨fun b => ?_, h.nodup, h.associated, h.releasing⟩
  by_cases hb : b = a
  · subst hb
    have hbalanced := h.balanced b
    have hpos := hbalanced.pos (.inl (by unfold Shares.handles; omega))
    have hcount := hbalanced.count
    have hfreed := hbalanced.freed
    rw [if_neg (by omega)] at hfreed
    refine ⟨?_, ?_, hbalanced.owed, ?_⟩
    · simp only [Shares.handles, Shares.share, Function.update_self] at hcount ⊢
      omega
    · simp [hfreed]
    · intro habsent
      have := (hbalanced.absent habsent).2
      omega
  · apply (h.balanced b).same <;> simp [hb]

omit [DecidableEq ι] in
theorem Shares.Balanced.release (h : s.Balanced a) (hheld : 0 < s.handles a ∨ s.share a = 1)
    (hregistered : s'.registered a = .absent ↔ s.registered a = .absent)
    (hcount : s'.refCount = Function.update s.refCount a (s.refCount a - 1))
    (hfreed : s'.freed = if s.refCount a = 1 then Function.update s.freed a (s.freed a + 1) else s.freed)
    (howed : s'.owed a = s.owed a)
    (hshares : s'.handles a + s'.share a + 1 = s.handles a + s.share a)
    (hkeeps : s.owed a = true → s'.registered a = .held ∧ s'.share a = 1)
    (habsent : s'.registered a = .absent → s'.associated a = false ∧ s'.setters a = 0) :
    s'.Balanced a := by
  have hpos := h.pos hheld
  have hold := h.count
  have holdFreed := h.freed
  rw [if_neg (by omega)] at holdFreed
  refine ⟨?_, ?_, by rw [howed]; exact hkeeps, habsent⟩
  · rw [hcount, howed, Function.update_self]
    omega
  · have hne : s'.registered a ≠ .absent := by
      intro he
      have habs := hregistered.mp he
      obtain ⟨hassoc, hset⟩ := h.absent habs
      rcases hheld with hhandles | hshare
      · unfold Shares.handles at hhandles
        rw [if_neg (by simp [habs]), hset] at hhandles
        omega
      · rw [(share_eq_one.mp hshare).1] at hassoc
        cases hassoc
    rw [hcount, Function.update_self, hfreed]
    by_cases hone : s.refCount a = 1
    · rw [if_pos hone, Function.update_self, holdFreed, if_pos ⟨hne, by omega⟩]
    · rw [if_neg hone, holdFreed, if_neg (by omega)]

omit [DecidableEq ι] in
theorem freed_releaseNode (s : Shares ι α J) (hb : b ≠ a) : (s.releaseNode a).freed b = s.freed b := by
  show (if s.refCount a = 1 then Function.update s.freed a (s.freed a + 1) else s.freed) b = _
  split
  · exact Function.update_of_ne hb ..
  · rfl

omit [DecidableEq ι] in
theorem Shares.Accounts.dropSetter (h : s.Accounts) (ha : 0 < s.setters a) :
    ({ s with setters := Function.update s.setters a (s.setters a - 1) }.releaseNode a :
      Shares ι α J).Accounts := by
  refine ⟨fun b => ?_, h.nodup, h.associated, h.releasing⟩
  by_cases hb : b = a
  · subst hb
    have hbalanced := h.balanced b
    refine hbalanced.release (.inl ?_) Iff.rfl rfl rfl rfl ?_ hbalanced.owed fun habsent => ?_
    · unfold Shares.handles
      omega
    · simp only [Shares.handles, Shares.share, Shares.releaseNode, Function.update_self]
      omega
    · have := (hbalanced.absent habsent).2
      omega
  · apply (h.balanced b).same
    case hfreed => exact freed_releaseNode _ hb
    all_goals simp [Shares.releaseNode, hb]

omit [DecidableEq ι] in
theorem Shares.Accounts.dropping (h : s.Accounts) (ha : s.registered a = .held)
    (howed : s.owed a = false) :
    ({ s with registered := Function.update s.registered a .dropping } : Shares ι α J).Accounts := by
  refine ⟨fun b => ?_, h.nodup, h.associated, h.releasing⟩
  by_cases hb : b = a
  · subst hb
    have hbalanced := h.balanced b
    have hcount := hbalanced.count
    have hfreed := hbalanced.freed
    refine ⟨?_, ?_, ?_, ?_⟩
    · simpa [Shares.handles, Shares.share, ha] using hcount
    · simpa [ha] using hfreed
    · simp [howed]
    · simp
  · apply (h.balanced b).same <;> simp [hb]

omit [DecidableEq ι] in
theorem Shares.Accounts.dropped (h : s.Accounts) (ha : s.registered a = .dropping) :
    ({ s with registered := Function.update s.registered a .gone }.releaseNode a :
      Shares ι α J).Accounts := by
  refine ⟨fun b => ?_, h.nodup, h.associated, h.releasing⟩
  by_cases hb : b = a
  · subst hb
    have hbalanced := h.balanced b
    have hhandles : s.handles b = 1 + s.setters b := by
      unfold Shares.handles
      rw [if_pos (.inr ha)]
    refine hbalanced.release (.inl (by omega)) ?_ rfl rfl rfl ?_ (fun howed => ?_) ?_
    · simp [Shares.releaseNode, ha]
    · have hafter : ({ s with registered := Function.update s.registered b .gone }.releaseNode b :
          Shares ι α J).handles b = s.setters b := by
        simp [Shares.handles, Shares.releaseNode]
      rw [hafter, hhandles]
      show s.setters b + s.share b + 1 = 1 + s.setters b + s.share b
      omega
    · cases (hbalanced.owed howed).1.symm.trans ha
    · simp [Shares.releaseNode]
  · apply (h.balanced b).same
    case hfreed => exact freed_releaseNode _ hb
    all_goals simp [Shares.releaseNode, hb]

omit [DecidableEq ι] in
theorem Shares.Accounts.claim (h : s.Accounts) (ha : s.registered a = .held)
    (hassociated : s.associated a = false) :
    ({ s with
      associated := Function.update s.associated a true
      owed := Function.update s.owed a true } : Shares ι α J).Accounts := by
  have hnot := h.not_mem hassociated
  have hzero : s.share a = 0 := by simp [Shares.share, hassociated]
  refine ⟨fun b => ?_, h.nodup, fun b hb => ?_, fun b hb => ?_⟩
  · by_cases hb : b = a
    · subst hb
      have hbalanced := h.balanced b
      have hcount := hbalanced.count
      have howed : s.owed b = false := by
        cases ho : s.owed b with
        | false => rfl
        | true =>
          have := (hbalanced.owed ho).2
          omega
      rw [if_neg (by simp [howed]), hzero] at hcount
      have hone : ({ s with
          associated := Function.update s.associated b true
          owed := Function.update s.owed b true } : Shares ι α J).share b = 1 :=
        share_eq_one.mpr ⟨Function.update_self .., hnot⟩
      refine ⟨?_, hbalanced.freed, fun _ => ⟨ha, hone⟩, ?_⟩
      · rw [hone, if_pos (Function.update_self ..)]
        simp only [Shares.handles] at hcount ⊢
        omega
      · intro habsent
        cases ha.symm.trans habsent
    · apply (h.balanced b).same <;> simp [hb]
  · have hne : b ≠ a := fun he => hnot (he ▸ hb)
    simpa [hne] using h.associated b hb
  · have hne : b ≠ a := fun he => h.not_releasing hzero (he ▸ hb)
    simpa [Shares.share, hne] using h.releasing b hb

omit [DecidableEq ι] in
theorem Shares.Accounts.counted (h : s.Accounts) (ha : s.owed a = true) :
    ({ s with
      refCount := Function.update s.refCount a (s.refCount a + 1)
      owed := Function.update s.owed a false } : Shares ι α J).Accounts := by
  refine ⟨fun b => ?_, h.nodup, h.associated, fun b hb => ?_⟩
  · by_cases hb : b = a
    · subst hb
      have hbalanced := h.balanced b
      have hcount := hbalanced.count
      have hpos := hbalanced.pos (.inr (hbalanced.owed ha).2)
      have hfreed := hbalanced.freed
      rw [if_pos ha] at hcount
      rw [if_neg (by omega)] at hfreed
      refine ⟨?_, ?_, ?_, hbalanced.absent⟩
      · simp only [Shares.handles, Shares.share, Function.update_self] at hcount ⊢
        simpa using hcount
      · simp [hfreed]
      · simp
    · apply (h.balanced b).same <;> simp [hb]
  · obtain ⟨hshare, howed⟩ := h.releasing b hb
    refine ⟨hshare, ?_⟩
    by_cases hne : b = a
    · rw [hne]
      exact Function.update_self ..
    · exact (Function.update_of_ne hne ..).trans howed

omit [DecidableEq ι] in
/-- **The poll gives its share back.** -/
theorem Shares.Accounts.release (h : s.Accounts) (hshare : s.share a = 1) (howed : s.owed a = false)
    (place : ReleasedBy) {r : Option α} (hr : ∀ b, r = some b → s.releasing = some b ∧ b ≠ a) :
    ({ s.releaseShare a place with releasing := r } : Shares ι α J).Accounts := by
  obtain ⟨hassociated, hnot⟩ := share_eq_one.mp hshare
  have hmem : ∀ b, b ∈ (s.releases ++ [(a, place)]).map Prod.fst ↔
      b ∈ s.releases.map Prod.fst ∨ b = a := by
    intro b
    rw [List.map_append, List.mem_append, List.map_singleton, List.mem_singleton]
  refine ⟨fun b => ?_, ?_, fun b hb => ?_, fun b hb => ?_⟩
  · by_cases hb : b = a
    · subst hb
      have hbalanced := h.balanced b
      have hzero : ({ s.releaseShare b place with releasing := r } : Shares ι α J).share b = 0 := by
        unfold Shares.share
        exact if_neg fun hand => hand.2 ((hmem b).mpr (.inr rfl))
      refine hbalanced.release (.inr hshare) Iff.rfl rfl rfl rfl ?_ (fun ho => ?_) hbalanced.absent
      · rw [hzero, hshare]
        rfl
      · rw [howed] at ho
        cases ho
    · apply (h.balanced b).same
      case hfreed => exact freed_releaseNode _ hb
      case hreleases =>
        refine (hmem b).trans ⟨fun hor => hor.resolve_right hb, .inl⟩
      all_goals simp [Shares.releaseShare, Shares.releaseNode, hb]
  · show ((s.releases ++ [(a, place)]).map Prod.fst).Nodup
    rw [List.map_append]
    refine List.nodup_append.mpr ⟨h.nodup, List.nodup_singleton a, fun b hb c hc he => ?_⟩
    obtain rfl : c = a := List.mem_singleton.mp hc
    exact hnot (he ▸ hb)
  · rcases (hmem b).mp hb with hb | rfl
    · exact h.associated b hb
    · exact hassociated
  · obtain ⟨hb, hne⟩ := hr b hb
    obtain ⟨hone, hfree⟩ := h.releasing b hb
    refine ⟨share_eq_one.mpr ⟨(share_eq_one.mp hone).1, fun hm => ?_⟩, hfree⟩
    rcases (hmem b).mp hm with hm | he
    · exact (share_eq_one.mp hone).2 hm
    · exact hne he

end Balance

end MyMio

import MyMio.Node.Sharing

/-! # The counts of the nodes

`ref_count` is the number of handles of a node, and one more while a poll has a share in it; the poll
gives its share back once, and a node is freed when its count becomes 0 and never again
(`shares_counted`). This is so in every run that meets `Shares.Regular`, and fails in a run in which
`ReadinessQueue::drop` comes upon a node whose enqueuer has not linked it yet (`share_leaks`).
-/

namespace MyMio
set_option autoImplicit false

open BrokenQueue StepSystem Ledger

universe u v w

variable {ι : Type v} {α : Type u} {J : Type w} [DecidableEq ι] [DecidableEq α]

section Invariant
variable {s s' : Shares ι α J} {a b : α} {i : ι}

/-! ## Calls, and the association -/

omit [DecidableEq α] in
theorem goto_idle {t : Registrations ι α J} (hi : t.threads i = .idle) : t.goto i .idle = t := by
  unfold Registrations.goto
  rw [← hi, Function.update_eq_self]

omit [DecidableEq α] in
/-- A thread that drops a node has not just turned to something else. -/
theorem drops_of_update {f : ι → Doing α J} {d : Doing α J} {j : ι}
    (h : (Function.update f i d j).drops = some b) (hd : d.drops = none) :
    j ≠ i ∧ (f j).drops = some b := by
  by_cases hj : j = i
  · rw [hj, Function.update_self, hd] at h
    cases h
  · rw [Function.update_of_ne hj] at h
    exact ⟨hj, h⟩

omit [DecidableEq α] in
theorem owing_of_idle {f : ι → Thread α J} {p : Thread α J} (hi : f i = .idle)
    (h : ∃ j, (f j).owing = some b) : ∃ j, (Function.update f i p j).owing = some b := by
  obtain ⟨j, hj⟩ := h
  have hne : j ≠ i := by
    rintro rfl
    rw [hi] at hj
    cases hj
  exact ⟨j, by rw [Function.update_of_ne hne, hj]⟩

omit [DecidableEq ι] in
/-- A `Registration` that is not where this one has just got to is another one. -/
theorem registered_of_update {f : α → RegistrationStage} {new old : RegistrationStage}
    (h : Function.update f a new b = old) (hne : new ≠ old) : b ≠ a ∧ f b = old := by
  by_cases hb : b = a
  · rw [hb, Function.update_self] at h
    exact absurd h hne
  · rw [Function.update_of_ne hb] at h
    exact ⟨hb, h⟩

theorem Shares.Doings.goto (h : s.Doings) {d : Doing α J}
    (hdoing : s'.doing = Function.update s.doing i d)
    (hthreads : ∀ j, j ≠ i → s'.regs.threads j = s.regs.threads j)
    (hproducers : s'.regs.polling = s.regs.polling) (hruns : (s'.regs.threads i).Runs d)
    (hborrows : ∀ a idle, d.borrows idle = some a → s'.registered a = .held ∧ s'.stage = .live)
    (hheld : ∀ j a, j ≠ i → s.Updating j a → s'.registered a = .held ∧ s'.stage = .live)
    (hupdated : ∀ a, d = .updating a → s'.associated a = true)
    (hassociated : ∀ a, s.associated a = true → s'.associated a = true)
    (howed : ∀ a, s'.owed a = true ↔ d.counts = some a ∨ ∃ j, j ≠ i ∧ (s.doing j).counts = some a)
    (hcounter : ∀ j a, j ≠ i → d.counts = some a → (s.doing j).counts ≠ some a)
    (hdropping : ∀ a, d.drops = some a → s'.registered a = .dropping)
    (hothers : ∀ j a, j ≠ i → (s.doing j).drops = some a →
      s'.registered a = .dropping ∧ d.drops ≠ some a)
    (hcreated : ∀ a, d.node = some a ∨ s.registered a ≠ .absent → s'.registered a ≠ .absent) :
    s'.Doings := by
  have hself : s'.doing i = d := by rw [hdoing, Function.update_self]
  have hother : ∀ j, j ≠ i → s'.doing j = s.doing j := fun j hj => by
    rw [hdoing, Function.update_of_ne hj]
  refine ⟨fun j => ?_, fun j a hu => ?_, fun j a hj => ?_, fun a => ?_, fun j k a hj hk => ?_,
    fun j a hj => ?_, fun j k a hj hk => ?_, fun j a hj => ?_⟩
  · by_cases hj : j = i
    · rw [hj, hself]
      exact hruns
    · rw [hother j hj, hthreads j hj]
      exact h.runs j
  · by_cases hj : j = i
    · subst hj
      unfold Shares.Updating at hu
      rw [hself] at hu
      exact hborrows a _ hu
    · refine hheld j a hj (hu.congr (hother j hj) (idle_other (hthreads j hj) ?_))
      rw [hproducers]
  · by_cases he : j = i
    · rw [he, hself] at hj
      exact hupdated a hj
    · rw [hother j he] at hj
      exact hassociated a (h.updated j a hj)
  · refine (howed a).trans ⟨fun hor => ?_, fun ⟨j, hj⟩ => ?_⟩
    · rcases hor with hd | ⟨j, hne, hj⟩
      · exact ⟨i, by rw [hself, hd]⟩
      · exact ⟨j, by rw [hother j hne, hj]⟩
    · by_cases he : j = i
      · rw [he, hself] at hj
        exact .inl hj
      · rw [hother j he] at hj
        exact .inr ⟨j, he, hj⟩
  · by_cases hji : j = i <;> by_cases hki : k = i
    · rw [hji, hki]
    · rw [hji, hself] at hj
      rw [hother k hki] at hk
      exact absurd hk (hcounter k a hki hj)
    · rw [hki, hself] at hk
      rw [hother j hji] at hj
      exact absurd hj (hcounter j a hji hk)
    · rw [hother j hji] at hj
      rw [hother k hki] at hk
      exact h.counter j k a hj hk
  · by_cases he : j = i
    · rw [he, hself] at hj
      exact hdropping a hj
    · rw [hother j he] at hj
      exact (hothers j a he hj).1
  · by_cases hji : j = i <;> by_cases hki : k = i
    · rw [hji, hki]
    · rw [hji, hself] at hj
      rw [hother k hki] at hk
      exact absurd hj (hothers k a hki hk).2
    · rw [hki, hself] at hk
      rw [hother j hji] at hj
      exact absurd hk (hothers j a hji hj).2
    · rw [hother j hji] at hj
      rw [hother k hki] at hk
      exact h.dropper j k a hj hk
  · by_cases he : j = i
    · rw [he, hself] at hj
      exact hcreated a (.inl hj)
    · rw [hother j he] at hj
      exact hcreated a (.inr (h.created j a hj))

omit [DecidableEq ι] in
/-- The association of a node is owed by a thread other than `i`, if by any. -/
theorem Shares.Doings.owed_other (h : s.Doings) (hi : (s.doing i).counts = none) (a : α) :
    s.owed a = true ↔ ∃ j, j ≠ i ∧ (s.doing j).counts = some a := by
  refine (h.owed a).trans (exists_congr fun j => ⟨fun hj => ⟨?_, hj⟩, And.right⟩)
  rintro rfl
  cases hi.symm.trans hj

omit [DecidableEq α] in
theorem Shares.At.goto (h : s.At) {pc : Thread α J} (hi : s.regs.threads i = .idle)
    (hpc : pc.owing = none) (hregs : s'.regs = s.regs.goto i pc) (hstage : s'.stage = s.stage)
    (hreleasing : s'.releasing = s.releasing) : s'.At := by
  have howing : pc.owing = (s.regs.threads i).owing := by rw [hpc, hi]; rfl
  refine h.moved hstage hreleasing (fun ho => ?_) (fun _ hd => ?_) ?_ ?_ (fun _ => ?_) ?_
  · rw [hregs]
    exact ho.quiet howing fun _ => rfl
  · rw [hregs]
    exact ⟨hd.queue, hd.poller,
      Registrations.Booked.quiet (n := s.regs.nodes) hd.books howing fun _ => rfl⟩
  all_goals
    rw [hregs]
    rfl

omit [DecidableEq α] in
theorem Shares.Words.goto [DecidableEq α] (h : s.Words) {d : Doing α J} {p : Thread α J}
    (hi : s.regs.threads i = .idle) (hdrops : d.drops = none) :
    ({ s.goto i d with regs := s.regs.goto i p } : Shares ι α J).Words := by
  refine ⟨h.absent, h.gone, fun j b hj => ?_, fun b hb hq hr => ?_, h.fresh, h.released⟩
  · obtain ⟨hne, hj⟩ := drops_of_update hj hdrops
    refine (h.dropping j b hj).imp_left fun hor => ?_
    exact (Function.update_of_ne hne ..).trans hor
  · exact owing_of_idle hi (h.owing b hb hq hr)

theorem Shares.Ok.goto (h : s.Ok) {d : Doing α J} {p : Thread α J}
    (hi : s.regs.threads i = .idle) (hpc : p.owing = none) (hruns : p.Runs d)
    (hcounts : d.counts = none) (hcounts' : (s.doing i).counts = none)
    (hdrops : d.drops = none)
    (hborrows : ∀ a idle, d.borrows idle = some a → s.registered a = .held ∧ s.stage = .live)
    (hupdated : ∀ a, d = .updating a → s.associated a = true)
    (hcreated : ∀ a, d.node = some a → s.registered a ≠ .absent) :
    ({ s.goto i d with regs := s.regs.goto i p } : Shares ι α J).Ok := by
  refine ⟨h.at_.goto hi hpc rfl rfl rfl, ?_, h.words.goto hi hdrops,
    h.accounts.same rfl rfl rfl rfl rfl rfl rfl fun _ => .inl⟩
  refine h.doings.goto rfl (fun j hj => Function.update_of_ne hj ..) rfl ?_ hborrows
    (fun j a _ hu => h.doings.borrows j a hu) hupdated (fun _ => id) (fun a => ?_)
    (fun j a _ hd => ?_) (fun a hd => ?_) (fun j a _ hj => ⟨h.doings.dropping j a hj, ?_⟩)
    fun a hor => hor.elim (hcreated a) id
  · show (Function.update s.regs.threads i p i).Runs d
    rw [Function.update_self]
    exact hruns
  · refine (h.doings.owed_other hcounts' a).trans ⟨.inr, fun hor => hor.resolve_left ?_⟩
    simp [hcounts]
  · cases hcounts.symm.trans hd
  · cases hdrops.symm.trans hd
  · simp [hdrops]

theorem Shares.Ok.claim (h : s.Ok) {u : Update J} (hi : s.doing i = .claim a u)
    (ha : s.associated a = false) :
    ({ s.goto i (.count a u) with
      associated := Function.update s.associated a true
      owed := Function.update s.owed a true } : Shares ι α J).Ok := by
  obtain ⟨hheld, hlive⟩ := h.doings.borrows i a (by unfold Shares.Updating; rw [hi]; rfl)
  have hidle : (s.regs.threads i).Runs (.claim a u) := hi ▸ h.doings.runs i
  have hcounts : (s.doing i).counts = none := by rw [hi]; rfl
  have howed : s.owed a = false := by
    cases ho : s.owed a with
    | false => rfl
    | true =>
      rw [(share_eq_one.mp ((h.accounts.balanced a).owed ho).2).1] at ha
      cases ha
  have hassociated : ∀ b, s.associated b = true → Function.update s.associated a true b = true := by
    intro b hb
    by_cases hba : b = a
    · rw [hba, Function.update_self]
    · rw [Function.update_of_ne hba, hb]
  refine ⟨h.at_.same rfl rfl rfl, ?_, ?_, ?_⟩
  · refine h.doings.goto (d := .count a u) rfl (fun _ _ => rfl) rfl ?_ (fun b _ hb => ?_)
      (fun j b _ hu => h.doings.borrows j b hu) (fun b hb => by cases hb) hassociated (fun b => ?_)
      (fun j b hj hb hb' => ?_) (fun b hb => by cases hb)
      (fun j b _ hj => ⟨h.doings.dropping j b hj, fun hb => by cases hb⟩)
      fun b hor => hor.elim (fun hb => ?_) id
    · show (s.regs.threads i).Runs _
      cases hpc : s.regs.threads i <;> rw [hpc] at hidle <;>
        first | trivial | (rcases hidle with he | he | he <;> cases he)
    · obtain rfl : a = b := Option.some.inj hb
      exact ⟨hheld, hlive⟩
    · show Function.update s.owed a true b = true ↔ some a = some b ∨ _
      by_cases hba : b = a
      · rw [hba, Function.update_self]
        exact ⟨fun _ => .inl rfl, fun _ => rfl⟩
      · rw [Function.update_of_ne hba]
        refine (h.doings.owed_other hcounts b).trans ⟨.inr, fun hor => hor.resolve_left ?_⟩
        exact fun he => hba (Option.some.inj he).symm
    · obtain rfl : a = b := Option.some.inj hb
      rw [(h.doings.owed a).mpr ⟨j, hb'⟩] at howed
      cases howed
    · obtain rfl : a = b := Option.some.inj hb
      show s.registered a ≠ .absent
      rw [hheld]
      simp
  · refine ⟨h.words.absent, h.words.gone, fun j b hj => ?_, fun b hb => ?_, fun b hb => ?_, fun b hb => ?_⟩
    · exact h.words.dropping j b (drops_of_update hj rfl).2
    · refine h.words.owing b ?_
      cases hold : s.associated b with
      | false => rfl
      | true => exact (hassociated b hold).symm.trans hb
    · refine h.words.fresh b ?_
      cases hold : s.associated b with
      | false => rfl
      | true => exact (hassociated b hold).symm.trans hb
    · change Function.update s.associated a true b = true at hb
      by_cases hba : b = a
      · subst hba
        have hfresh := h.words.fresh b ha (.inr hheld)
        have hnot := h.accounts.not_mem ha
        have hzero : s.share b = 0 := by simp [Shares.share, ha]
        have hnone := h.accounts.not_releasing hzero
        refine ⟨fun hr => ?_, fun hor => (hor.elim hnot hnone).elim⟩
        change s.regs.released b = true at hr
        rw [hfresh] at hr
        cases hr
      · rw [Function.update_of_ne hba] at hb
        exact h.words.released b hb
  · exact (h.accounts.claim hheld ha).same rfl rfl rfl rfl rfl rfl rfl fun _ => .inl

theorem Shares.Ok.count (h : s.Ok) {u : Update J} (hi : s.doing i = .count a u) :
    ({ s.enterUpdate i a u with
      refCount := Function.update s.refCount a (s.refCount a + 1)
      owed := Function.update s.owed a false } : Shares ι α J).Ok := by
  have hborrow : s.Updating i a := by unfold Shares.Updating; rw [hi]; rfl
  obtain ⟨hheld, hlive⟩ := h.doings.borrows i a hborrow
  have hcounts : (s.doing i).counts = some a := by rw [hi]; rfl
  have howed : s.owed a = true := (h.doings.owed a).mpr ⟨i, hcounts⟩
  have hassociated := (share_eq_one.mp ((h.accounts.balanced a).owed howed).2).1
  have hidle : s.regs.threads i = .idle := by
    have hruns := h.doings.runs i
    rw [hi] at hruns
    cases hpc : s.regs.threads i <;> rw [hpc] at hruns <;>
      first | rfl | (rcases hruns with he | he | he <;> cases he)
  refine ⟨h.at_.goto hidle rfl rfl rfl rfl, ?_, ?_, ?_⟩
  · refine h.doings.goto (d := .updating a) rfl (fun j hj => Function.update_of_ne hj ..) rfl ?_
      (fun b idle hb => ?_) (fun j b _ hu => h.doings.borrows j b hu) (fun b hb => ?_) (fun _ => id)
      (fun b => ?_) (fun j b _ hb => by cases hb) (fun b hb => by cases hb)
      (fun j b _ hj => ⟨h.doings.dropping j b hj, fun hb => by cases hb⟩)
      fun b hor => hor.elim (fun hb => ?_) id
    · show (Function.update s.regs.threads i _ i).Runs _
      rw [Function.update_self]
      rfl
    · obtain rfl : a = b := Option.some.inj (borrows_false hb)
      exact ⟨hheld, hlive⟩
    · obtain rfl : a = b := Doing.updating.inj hb
      exact hassociated
    · show Function.update s.owed a false b = true ↔ none = some b ∨ _
      by_cases hba : b = a
      · subst hba
        rw [Function.update_self]
        refine ⟨fun he => (by cases he), fun hor => ?_⟩
        rcases hor with he | ⟨j, hj, hc⟩
        · cases he
        · exact absurd (h.doings.counter j i b hc hcounts) hj
      · rw [Function.update_of_ne hba]
        refine (h.doings.owed b).trans ⟨fun ⟨j, hj⟩ => .inr ⟨j, ?_, hj⟩, fun hor => ?_⟩
        · rintro rfl
          exact hba (Option.some.inj (hj.symm.trans hcounts))
        · rcases hor with he | ⟨j, -, hc⟩
          · cases he
          · exact ⟨j, hc⟩
    · obtain rfl : a = b := Option.some.inj hb
      show s.registered a ≠ .absent
      rw [hheld]
      simp
  · exact { h.words.goto (p := .updateLock a u) hidle (d := .updating a) rfl with }
  · exact (h.accounts.counted howed).same rfl rfl rfl rfl rfl rfl rfl fun _ => .inl

/-! ## The handles -/

/-- A node of which nothing has been set nor dropped. -/
def ReadinessState.Unflagged (s : ReadinessState) : Prop := s.isQueued = false ∧ s.isDropped = false

omit [DecidableEq ι] [DecidableEq α] in
theorem new_unflagged {token : TokenEntry} {interest : Ready} {opt : PollOpt}
    (hi : interest.bits ≤ MASK_4) (ho : opt.bits ≤ MASK_4) :
    (Node.new token interest opt : Node J).state.Unflagged :=
  ReadinessState.new_flags hi ho

omit [DecidableEq ι] in
theorem word_setNode (t : Registrations ι α J) (a b : α) (node : Node J) :
    (t.setNode a node).word b = if b = a then node.state else t.word b := by
  show (Function.update t.nodes a node b).state = _
  by_cases hb : b = a
  · rw [hb, Function.update_self, if_pos rfl]
  · rw [Function.update_of_ne hb, if_neg hb]
    rfl

omit [DecidableEq ι] in
theorem setNode_flags {t : Registrations ι α J} {node : Node J} (hnew : node.state.Unflagged)
    (hold : (t.word a).Unflagged) (b : α) :
    ((t.setNode a node).word b).isQueued = (t.word b).isQueued ∧
      ((t.setNode a node).word b).isDropped = (t.word b).isDropped := by
  rw [word_setNode]
  split
  · rename_i hb
    rw [hb, hnew.1, hnew.2, hold.1, hold.2]
    exact ⟨rfl, rfl⟩
  · exact ⟨rfl, rfl⟩

omit [DecidableEq ι] in
theorem Registrations.Owned.create {t : Registrations ι α J} (h : t.Owned) {node : Node J}
    (hnew : node.state.Unflagged) (hold : (t.word a).Unflagged) : (t.setNode a node).Owned := by
  have hflags := setNode_flags hnew hold
  refine ⟨h.sound, h.recorded, h.ok, h.at_, h.hold, ?_, fun b hb => ?_, fun b hb => ?_⟩
  · exact Books.congr h.books (fun b => (hflags b).1) fun b o => by cases o <;> exact Iff.rfl
  · exact (hflags b).2.trans (h.dropped b hb)
  · exact (hflags b).1.trans (h.signalled b hb)

omit [DecidableEq ι] in
/-- **A node comes into being**, by `new2` or `new`. -/
theorem Shares.Ok.create (h : s.Ok) (ha : s.registered a = .absent) {node : Node J}
    (hnew : node.state.Unflagged) (associated : Bool) :
    (s.create a node associated (if associated then 3 else 2)).Ok := by
  have hold : (s.regs.word a).Unflagged := h.words.absent a ha
  obtain ⟨hassociated, -⟩ := (h.accounts.balanced a).absent ha
  have hfresh := h.words.fresh a hassociated (.inl ha)
  have hflags := setNode_flags (t := s.regs) hnew hold
  have hnode : ∀ i b, (s.doing i).node = some b → b ≠ a := by
    rintro i b hb rfl
    exact h.doings.created i b hb ha
  have hother : ∀ b, b ≠ a →
      (s.create a node associated (if associated then 3 else 2)).registered b = s.registered b ∧
        (s.create a node associated (if associated then 3 else 2)).associated b = s.associated b ∧
        (s.create a node associated (if associated then 3 else 2)).regs.word b = s.regs.word b := by
    intro b hb
    refine ⟨Function.update_of_ne hb .., Function.update_of_ne hb .., ?_⟩
    exact (word_setNode s.regs a b node).trans (if_neg hb)
  have hself : (s.create a node associated (if associated then 3 else 2)).registered a = .held :=
    Function.update_self ..
  refine ⟨?_, ?_, ?_, h.accounts.create ha node associated⟩
  · refine h.at_.moved rfl rfl (fun ho => ho.create hnew hold) (fun _ hd => ?_) rfl rfl (fun _ => rfl) rfl
    refine ⟨hd.queue, hd.poller, ?_⟩
    exact Books.congr hd.books (fun b => (hflags b).1) fun b o => by cases o <;> exact Iff.rfl
  · refine ⟨h.doings.runs, fun i b hu => ?_, fun i b hi => ?_, h.doings.owed, h.doings.counter,
      fun i b hi => ?_, h.doings.dropper, fun i b hi => ?_⟩
    · have hborrows : s.Updating i b := hu
      obtain ⟨hheld, hlive⟩ := h.doings.borrows i b hborrows
      refine ⟨?_, hlive⟩
      by_cases hb : b = a
      · rw [hb, hself]
      · rw [(hother b hb).1, hheld]
    · rw [(hother b (hnode i b (hi ▸ rfl))).2.1]
      exact h.doings.updated i b hi
    · have hb : b ≠ a := by
        rintro rfl
        cases ha.symm.trans (h.doings.dropping i b hi)
      rw [(hother b hb).1]
      exact h.doings.dropping i b hi
    · rw [(hother b (hnode i b hi)).1]
      exact h.doings.created i b hi
  · refine ⟨fun b hb => ?_, fun b hb => ?_, fun i b hi => ?_, fun b hb hq => ?_, fun b hb hreg => ?_,
      fun b hb => ?_⟩
    · obtain ⟨hne, habsent⟩ := registered_of_update hb (by simp)
      rw [(hother b hne).2.2]
      exact h.words.absent b habsent
    · obtain ⟨hne, hgone⟩ := registered_of_update hb (by simp)
      rw [(hother b hne).2.2]
      exact h.words.gone b hgone
    · have hne : b ≠ a := by
        rintro rfl
        cases ha.symm.trans (h.doings.dropping i b hi)
      rw [(hother b hne).2.2]
      exact h.words.dropping i b hi
    · have hqueued : (s.regs.word b).isQueued = true := (hflags b).1.symm.trans hq
      have hne : b ≠ a := by
        rintro rfl
        cases hold.1.symm.trans hqueued
      rw [(hother b hne).2.1] at hb
      exact h.words.owing b hb hqueued
    · by_cases hne : b = a
      · rw [hne]
        exact hfresh
      · rw [(hother b hne).2.1] at hb
        rw [(hother b hne).1] at hreg
        exact h.words.fresh b hb hreg
    · by_cases hne : b = a
      · subst hne
        have hnot := h.accounts.not_mem hassociated
        have hnone := h.accounts.not_releasing (a := b) (by simp [Shares.share, hassociated])
        exact ⟨fun hr => (by cases hfresh.symm.trans hr), fun hor => (hor.elim hnot hnone).elim⟩
      · rw [(hother b hne).2.1] at hb
        exact h.words.released b hb

theorem Shares.Ok.clone (h : s.Ok) (ha : 0 < s.setters a) :
    ({ s with
      refCount := Function.update s.refCount a (s.refCount a + 1)
      setters := Function.update s.setters a (s.setters a + 1) } : Shares ι α J).Ok :=
  ⟨h.at_.same rfl rfl rfl, { h.doings with }, { h.words with }, h.accounts.clone ha⟩

theorem Shares.Ok.dropSetter (h : s.Ok) (ha : 0 < s.setters a) :
    ({ s with setters := Function.update s.setters a (s.setters a - 1) }.releaseNode a :
      Shares ι α J).Ok :=
  ⟨h.at_.same rfl rfl rfl, { h.doings with }, { h.words with }, h.accounts.dropSetter ha⟩

/-! ## `Registration::drop` -/

omit [DecidableEq ι] in
theorem updating_of_counts (hi : (s.doing i).counts = some a) : s.Updating i a := by
  unfold Shares.Updating
  cases hd : s.doing i <;> rw [hd] at hi <;> first | exact hi | cases hi

theorem Shares.Ok.drop (h : s.Ok) (hi : s.regs.threads i = .idle) (hheld : s.registered a = .held)
    (hcounts : (s.doing i).counts = none) (hborrowed : ∀ j, ¬ s.Updating j a) :
    ({ s.goto i (.dropping a) with
      regs := s.regs.goto i (.dropOr a)
      registered := Function.update s.registered a .dropping } : Shares ι α J).Ok := by
  have howed : s.owed a = false := by
    cases ho : s.owed a with
    | false => rfl
    | true =>
      obtain ⟨j, hj⟩ := (h.doings.owed a).mp ho
      exact absurd (updating_of_counts hj) (hborrowed j)
  have hother : ∀ b, b ≠ a → Function.update s.registered a .dropping b = s.registered b :=
    fun b hb => Function.update_of_ne hb ..
  have hself : Function.update s.registered a .dropping a = .dropping := Function.update_self ..
  have hthreads : ∀ j, j ≠ i → Function.update s.regs.threads i (.dropOr a) j = s.regs.threads j :=
    fun j hj => Function.update_of_ne hj ..
  have hnot : ∀ j b, (s.doing j).drops = some b → b ≠ a := by
    rintro j b hj rfl
    cases hheld.symm.trans (h.doings.dropping j b hj)
  refine ⟨h.at_.goto hi rfl rfl rfl rfl, ?_, ?_, ?_⟩
  · refine h.doings.goto (d := .dropping a) rfl hthreads rfl ?_ (fun b _ hb => by cases hb)
      (fun j b _ hu => ?_) (fun b hb => by cases hb) (fun _ => id) (fun b => ?_)
      (fun j b _ hb => by cases hb) (fun b hb => ?_) (fun j b _ hj => ⟨?_, fun hb => ?_⟩) fun b hor => ?_
    · show (Function.update s.regs.threads i _ i).Runs _
      rw [Function.update_self]
      rfl
    · have hb : b ≠ a := fun he => hborrowed j (he ▸ hu)
      refine ⟨(hother b hb).trans ?_, (h.doings.borrows j b hu).2⟩
      exact (h.doings.borrows j b hu).1
    · refine (h.doings.owed_other hcounts b).trans ⟨.inr, fun hor => hor.resolve_left ?_⟩
      exact fun he => by cases he
    · obtain rfl : a = b := Option.some.inj hb
      exact hself
    · exact (hother b (hnot j b hj)).trans (h.doings.dropping j b hj)
    · exact hnot j b hj (Option.some.inj hb).symm
    · by_cases hb : b = a
      · subst hb
        exact fun he => by cases hself.symm.trans he
      · refine fun he => ?_
        rcases hor with hn | hn
        · exact hb (Option.some.inj hn).symm
        · exact hn ((hother b hb).symm.trans he)
  · refine ⟨fun b hb => ?_, fun b hb => ?_, fun j b hj => ?_, fun b hb hq hr => ?_, fun b hb hreg => ?_,
      h.words.released⟩
    · exact h.words.absent b (registered_of_update hb (by simp)).2
    · exact h.words.gone b (registered_of_update hb (by simp)).2
    · by_cases he : j = i
      · subst he
        change (Function.update s.doing j (.dropping a) j).drops = some b at hj
        rw [Function.update_self] at hj
        obtain rfl : a = b := Option.some.inj hj
        exact .inl (Function.update_self ..)
      · change (Function.update s.doing i (.dropping a) j).drops = some b at hj
        rw [Function.update_of_ne he] at hj
        refine (h.words.dropping j b hj).imp_left fun hor => ?_
        exact (hthreads j he).trans hor
    · exact owing_of_idle hi (h.words.owing b hb hq hr)
    · refine h.words.fresh b hb ?_
      rcases hreg with hreg | hreg
      · exact .inl (registered_of_update hreg (by simp)).2
      · exact .inr (registered_of_update hreg (by simp)).2
  · exact (h.accounts.dropping hheld howed).same rfl rfl rfl rfl rfl rfl rfl fun _ => .inl

theorem Shares.Ok.dropped (h : s.Ok) (hi : s.doing i = .dropping a)
    (hidle : s.regs.threads i = .idle) :
    ({ s.goto i .nothing with
      registered := Function.update s.registered a .gone }.releaseNode a : Shares ι α J).Ok := by
  have hdrops : (s.doing i).drops = some a := by rw [hi]; rfl
  have hdropping := h.doings.dropping i a hdrops
  have hother : ∀ b, b ≠ a → Function.update s.registered a .gone b = s.registered b :=
    fun b hb => Function.update_of_ne hb ..
  have hself : Function.update s.registered a .gone a = .gone := Function.update_self ..
  refine ⟨h.at_.same rfl rfl rfl, ?_, ?_, ?_⟩
  · refine h.doings.goto (d := .nothing) rfl (fun _ _ => rfl) rfl ?_ (fun b _ hb => by cases hb)
      (fun j b _ hu => ?_) (fun b hb => by cases hb) (fun _ => id) (fun b => ?_)
      (fun j b _ hb => by cases hb) (fun b hb => by cases hb)
      (fun j b hj hd => ⟨?_, fun hb => by cases hb⟩) fun b hor => ?_
    · show (s.regs.threads i).Runs _
      rw [hidle]
      trivial
    · have hheld := (h.doings.borrows j b hu).1
      have hb : b ≠ a := by
        rintro rfl
        cases hheld.symm.trans hdropping
      exact ⟨(hother b hb).trans hheld, (h.doings.borrows j b hu).2⟩
    · refine (h.doings.owed_other (by rw [hi]; rfl) b).trans ⟨.inr, fun hor => hor.resolve_left ?_⟩
      exact fun he => by cases he
    · have hb : b ≠ a := fun he => hj (h.doings.dropper j i a (he ▸ hd) hdrops)
      exact (hother b hb).trans (h.doings.dropping j b hd)
    · by_cases hb : b = a
      · subst hb
        exact fun he => by cases hself.symm.trans he
      · exact fun he => hor.elim (fun hn => by cases hn) fun hn => hn ((hother b hb).symm.trans he)
  · refine ⟨fun b hb => ?_, fun b hb => ?_, fun j b hj => ?_, h.words.owing, fun b hb hreg => ?_,
      h.words.released⟩
    · exact h.words.absent b (registered_of_update hb (by simp)).2
    · by_cases hne : b = a
      · subst hne
        rcases h.words.dropping i b hdrops with hor | hfinal
        · cases hidle.symm.trans hor
        · exact hfinal
      · exact h.words.gone b ((hother b hne).symm.trans hb)
    · exact h.words.dropping j b (drops_of_update hj rfl).2
    · refine h.words.fresh b hb ?_
      rcases hreg with hreg | hreg
      · exact .inl (registered_of_update hreg (by simp)).2
      · exact .inr (registered_of_update hreg (by simp)).2
  · exact (h.accounts.dropped hdropping).same rfl rfl rfl rfl rfl rfl rfl fun _ => .inl

/-! ## All steps -/

omit [DecidableEq ι] in
/-- A thread in the association part of `update` has no access of `Registrations` to make. -/
theorem Shares.Doings.at_rest [DecidableEq ι] (h : s.Doings) (hi : (s.doing i).borrows true = some a) :
    s.regs.threads i = .idle := by
  have hruns := h.runs i
  cases hpc : s.regs.threads i with
  | idle => rfl
  | enqueue c =>
    rw [hpc] at hruns
    rcases hruns with hd | hd | hd <;> rw [hd] at hi <;> cases hi
  | _ =>
    rw [hpc] at hruns
    rw [show s.doing i = _ from hruns] at hi
    cases hi

theorem call_idle {t r : Registrations ι α J} {c : NodeCall α J}
    (hs : registrationsStep t (.call i c) = some r) : t.threads i = .idle ∧ r = t.goto i c.enter := by
  simp only [registrationsStep] at hs
  split at hs
  · rename_i hi _
    exact ⟨hi, (Option.some.inj hs).symm⟩
  · cases hs

theorem Shares.Ok.call (h : s.Ok) {c : NodeCall α J} (hcounts : (s.doing i).counts = none)
    (hborrowed : s.Borrowed (.call i c)) (hs : s.call i c = some s') : s'.Ok := by
  unfold Shares.call at hs
  cases c with
  | setReadiness a ready =>
    simp only [Option.ite_none_right_eq_some] at hs
    obtain ⟨hsetters, hs⟩ := hs
    obtain ⟨r, hr, rfl⟩ := Option.map_eq_some_iff.mp hs
    obtain ⟨hi, rfl⟩ := call_idle hr
    refine h.goto hi rfl rfl rfl hcounts rfl (fun b _ hb => by cases hb) (fun b hb => by cases hb)
      fun b hb habsent => ?_
    obtain rfl : a = b := Option.some.inj hb
    rw [((h.accounts.balanced a).absent habsent).2] at hsetters
    omega
  | update a u =>
    simp only [Option.ite_none_right_eq_some] at hs
    obtain ⟨⟨hheld, hlive⟩, hs⟩ := hs
    obtain ⟨r, hr, rfl⟩ := Option.map_eq_some_iff.mp hs
    obtain ⟨hi, -⟩ := call_idle hr
    have hgoto := h.goto (d := .associate a u) hi (p := .idle) rfl trivial rfl hcounts rfl
      (fun b _ hb => ?_) (fun b hb => by cases hb) fun b hb => ?_
    · rw [goto_idle hi] at hgoto
      exact hgoto
    · obtain rfl : a = b := Option.some.inj hb
      exact ⟨hheld, hlive⟩
    · obtain rfl : a = b := Option.some.inj hb
      simp [hheld]
  | drop a =>
    simp only [Option.ite_none_right_eq_some] at hs
    obtain ⟨hheld, hs⟩ := hs
    obtain ⟨r, hr, rfl⟩ := Option.map_eq_some_iff.mp hs
    obtain ⟨hi, rfl⟩ := call_idle hr
    exact h.drop hi hheld hcounts hborrowed

omit [DecidableEq ι] [DecidableEq α] in
theorem borrows_of_true {d : Doing α J} {idle : Bool} (h : d.borrows true = some a) :
    d.borrows idle = some a := by
  cases d with
  | updating c => cases h
  | _ => exact h

theorem Shares.Ok.enterUpdate (h : s.Ok) {u : Update J} (hi : (s.doing i).borrows true = some a)
    (hcounts : (s.doing i).counts = none) (ha : s.associated a = true) :
    (s.enterUpdate i a u).Ok := by
  obtain ⟨hheld, hlive⟩ := h.doings.borrows i a (borrows_of_true hi)
  refine h.goto (h.doings.at_rest hi) rfl rfl rfl hcounts rfl (fun b _ hb => ?_) (fun b hb => ?_)
    fun b hb => ?_
  · obtain rfl : a = b := Option.some.inj (borrows_false hb)
    exact ⟨hheld, hlive⟩
  · obtain rfl : a = b := Doing.updating.inj hb
    exact ha
  · obtain rfl : a = b := Option.some.inj hb
    simp [hheld]

theorem Shares.Ok.toClaim (h : s.Ok) {u : Update J} (hi : s.doing i = .associate a u) :
    (s.goto i (.claim a u)).Ok := by
  have hborrows : (s.doing i).borrows true = some a := by rw [hi]; rfl
  obtain ⟨hheld, hlive⟩ := h.doings.borrows i a (borrows_of_true hborrows)
  have hidle := h.doings.at_rest hborrows
  have hgoto := h.goto (d := .claim a u) hidle (p := .idle) rfl trivial rfl (by rw [hi]; rfl) rfl
    (fun b _ hb => ?_) (fun b hb => by cases hb) fun b hb => ?_
  · rw [goto_idle hidle] at hgoto
    exact hgoto
  · obtain rfl : a = b := Option.some.inj hb
    exact ⟨hheld, hlive⟩
  · obtain rfl : a = b := Option.some.inj hb
    simp [hheld]

theorem Shares.Ok.accesses (h : s.Ok) (hsettled : s.Settled (.thread i))
    (hs : (match s.regs.threads i with
      | .enqueue a =>
        if s.associated a then
          (registrationsStep s.regs (.thread i)).map fun r => { s with regs := r }
        else some ({ s with regs := s.regs.goto i .idle }.letGo a)
      | _ => (registrationsStep s.regs (.thread i)).map fun r => { s with regs := r }) = some s') :
    s'.Ok := by
  split at hs
  · rename_i a hi
    by_cases ha : s.associated a = true
    · rw [if_pos ha] at hs
      obtain ⟨r, hr, rfl⟩ := Option.map_eq_some_iff.mp hs
      refine h.access hr fun b hb => ?_
      obtain rfl : a = b := Thread.enqueue.inj (hi.symm.trans hb)
      exact ha
    · rw [if_neg ha] at hs
      obtain rfl := Option.some.inj hs
      refine h.forget hi (by simpa using ha) fun hset => ha (hsettled a ?_)
      unfold Shares.enqueues
      rw [hset, hi]
  · rename_i hnot
    obtain ⟨r, hr, rfl⟩ := Option.map_eq_some_iff.mp hs
    exact h.access hr fun a hi => absurd hi (hnot a)

/-- **The next access of a thread outside `enqueue_node`.** -/
theorem Shares.Ok.threadStep (h : s.Ok) (hsettled : s.Settled (.thread i))
    (hs : s.threadStep i = some s') : s'.Ok := by
  unfold Shares.threadStep at hs
  cases hi : s.doing i with
  | associate a u =>
    simp only [hi] at hs
    obtain rfl := Option.some.inj hs
    split
    · rename_i ha
      exact h.enterUpdate (by rw [hi]; rfl) (by rw [hi]; rfl) ha
    · exact h.toClaim hi
  | claim a u =>
    simp only [hi] at hs
    split at hs
    · rename_i ha
      obtain rfl := Option.some.inj hs
      exact h.enterUpdate (by rw [hi]; rfl) (by rw [hi]; rfl) ha
    · rename_i ha
      obtain rfl := Option.some.inj hs
      exact h.claim hi (by simpa using ha)
  | count a u =>
    simp only [hi] at hs
    obtain rfl := Option.some.inj hs
    exact h.count hi
  | dropping a =>
    simp only [hi] at hs
    cases hidle : s.idle i with
    | true =>
      simp only [hidle] at hs
      obtain rfl := Option.some.inj hs
      exact h.dropped hi (idle_threads hidle).1
    | false =>
      simp only [hidle] at hs
      exact h.accesses hsettled hs
  | nothing | setting | updating =>
    simp only [hi] at hs
    exact h.accesses hsettled hs

omit [DecidableEq ι] in
theorem Shares.Ok.live_of_releasing (h : s.Ok) (ha : s.releasing = some a)
    (hstage : s.stage ≠ .draining) : s.stage = .live := by
  cases h.at_ with
  | live hlive => exact hlive
  | draining hd => exact absurd hd hstage
  | closing _ _ _ _ _ hr | swapped _ _ _ hr | gone _ _ _ hr => cases ha.symm.trans hr

/-- **One step.** -/
theorem sharesStep_ok {op : SharesOp ι α J} (h : s.Ok) (hregular : s.Regular op)
    (hs : sharesStep s op = some s') : s'.Ok := by
  obtain ⟨hborrowed, hsettled⟩ := hregular
  cases op with
  | new2 a =>
    simp only [sharesStep, Option.ite_none_right_eq_some] at hs
    obtain ⟨ha, hs⟩ := hs
    obtain rfl := Option.some.inj hs
    exact h.create ha (new_unflagged (by decide) (by decide)) false
  | new a token interest opt =>
    simp only [sharesStep, Option.ite_none_right_eq_some] at hs
    obtain ⟨⟨ha, -, hinterest, hopt⟩, hs⟩ := hs
    obtain rfl := Option.some.inj hs
    exact h.create ha (new_unflagged hinterest hopt) true
  | clone a =>
    simp only [sharesStep, Option.ite_none_right_eq_some] at hs
    obtain ⟨⟨ha, -⟩, hs⟩ := hs
    obtain rfl := Option.some.inj hs
    exact h.clone ha
  | dropSetter a =>
    simp only [sharesStep, Option.ite_none_right_eq_some] at hs
    obtain ⟨ha, hs⟩ := hs
    obtain rfl := Option.some.inj hs
    exact h.dropSetter ha
  | call i c =>
    simp only [sharesStep] at hs
    split at hs
    · exact h.call (by rw [‹s.doing i = _›]; rfl) hborrowed hs
    · exact h.call (by rw [‹s.doing i = _›]; rfl) hborrowed hs
    · exact h.call (by rw [‹s.doing i = _›]; rfl) hborrowed hs
    · cases hs
  | thread i => exact h.threadStep hsettled hs
  | producer i wouldBlock => exact h.producer hs
  | poll op =>
    simp only [sharesStep, Option.ite_none_right_eq_some] at hs
    obtain ⟨⟨hlive, -⟩, hs⟩ := hs
    obtain ⟨r, hr, rfl⟩ := Option.map_eq_some_iff.mp hs
    exact h.poll hlive hr
  | node =>
    simp only [sharesStep, Option.ite_none_right_eq_some] at hs
    obtain ⟨⟨hlive, hnone⟩, hs⟩ := hs
    obtain ⟨r, hr, rfl⟩ := Option.map_eq_some_iff.mp hs
    exact h.node hlive hnone hr hsettled
  | release =>
    simp only [sharesStep] at hs
    split at hs
    · cases hs
    · rename_i a ha
      split at hs
      · rename_i hstage
        obtain ⟨q, hq, rfl⟩ := Option.map_eq_some_iff.mp hs
        exact h.drains hstage ha hq
      · rename_i hstage
        obtain rfl := Option.some.inj hs
        exact h.release (h.live_of_releasing ha hstage) ha
  | dropPoll =>
    simp only [sharesStep, Option.ite_none_right_eq_some] at hs
    obtain ⟨⟨hlive, hnone, hidle⟩, hs⟩ := hs
    obtain rfl := Option.some.inj hs
    exact h.dropPoll hlive hnone hidle hborrowed
  | close => exact h.close hs hsettled

omit [DecidableEq ι] in
theorem Shares.Starts.ok (h : s.Starts) : s.Ok := by
  have hflags : ∀ a, (s.regs.word a).Unflagged := by
    intro a
    obtain ⟨token, interest, opt, hnode, hi, ho⟩ := h.regs.nodes a
    unfold Registrations.word
    rw [hnode]
    exact ReadinessState.new_flags hi ho
  have hbusy : ∀ i a, (s.doing i).node ≠ some a := by
    intro i a
    rw [h.doing i]
    exact fun he => by cases he
  have howed : ∀ a, s.owed a ≠ true := fun a => by simp [h.owed a]
  refine ⟨.live h.stage h.regs.owned ?_, ⟨fun i => ?_, fun i a hu => ?_, fun i a hi => ?_, fun a => ?_,
    fun i j a hi => ?_, fun i a hi => ?_, fun i j a hi => ?_, fun i a hi => ?_⟩, ⟨fun a _ => hflags a,
    fun a ha => ?_, fun i a hi => ?_, fun a _ hq => ?_, fun a _ _ => h.regs.released a, fun a ha => ?_⟩,
    ⟨fun a => ⟨?_, ?_, fun ho => absurd ho (howed a), fun _ => ⟨h.associated a, h.setters a⟩⟩, ?_, ?_, ?_⟩⟩
  · intro state hstate
    cases h.regs.hold.symm.trans hstate
  · rw [h.regs.threads i]
    trivial
  · unfold Shares.Updating at hu
    rw [h.doing i] at hu
    cases hu
  · cases (h.doing i).symm.trans hi
  · refine ⟨fun ho => absurd ho (howed a), fun ⟨i, hi⟩ => ?_⟩
    rw [h.doing i] at hi
    cases hi
  · rw [h.doing i] at hi
    cases hi
  · rw [h.doing i] at hi
    cases hi
  · rw [h.doing i] at hi
    cases hi
  · exact absurd hi (hbusy i a)
  · cases (h.registered a).symm.trans ha
  · rw [h.doing i] at hi
    cases hi
  · cases (hflags a).1.symm.trans hq
  · cases (h.associated a).symm.trans ha
  · simp [Shares.handles, Shares.share, h.refCount a, h.owed a, h.registered a, h.setters a, h.associated a]
  · simp [h.freed a, h.registered a]
  · simp [h.releases]
  · simp [h.releases]
  · simp [h.releasing]

/-- **In every run.** -/
theorem shares_ok (h : ReachableIf sharesStep Shares.Regular Shares.Starts s) : s.Ok :=
  h.invariant (fun _ => Shares.Starts.ok) fun _ _ _ hok hregular hs => sharesStep_ok hok hregular hs

omit [DecidableEq ι] in
/-- Once the poll is gone and nobody is at work, no node whose handles are gone has a share left. -/
theorem Shares.Ok.share_at_rest (h : s.Ok) (hcreated : s.registered a ≠ .absent)
    (hhandles : s.handles a = 0) (hgone : s.stage = .gone) (hrest : s.AtRest) : s.share a = 0 := by
  have hregistered : s.registered a = .gone := by
    unfold Shares.handles at hhandles
    cases hr : s.registered a with
    | absent => exact absurd hr hcreated
    | held | dropping => simp [hr] at hhandles
    | gone => rfl
  cases h.at_ with
  | live hc | closing _ hc | swapped _ hc | draining hc => cases hgone.symm.trans hc
  | gone _ hd htail hnone =>
    obtain ⟨⟨nodes, hq⟩, hpoller, hbooks⟩ := hd
    have hunowned : ∀ o, ¬ s.regs.Owns a o := by
      intro o ho
      cases o with
      | queue =>
        change a ∈ s.regs.polling.queue.pending at ho
        rw [hq.pending_nil htail] at ho
        cases ho
      | poller => cases (holding_of_draining hq hpoller).symm.trans ho
      | thread i =>
        change (s.regs.threads i).owing = some a at ho
        rw [(idle_threads (hrest i).1).1] at ho
        cases ho
      | enqueuer i =>
        change (s.regs.polling.queue.producers i).owed = some a at ho
        rw [(idle_threads (hrest i).1).2] at ho
        cases ho
    have hreleased : s.regs.released a = true := by
      cases hr : s.regs.released a with
      | true => rfl
      | false =>
        obtain ⟨o, ho⟩ := Books.owned hbooks a (h.words.gone a hregistered).2 hr
        exact absurd ho (hunowned o)
    have hshare := share_le s a
    by_contra hone
    obtain ⟨hassociated, hnot⟩ := share_eq_one.mp (show s.share a = 1 by omega)
    rcases (h.words.released a hassociated).mp hreleased with hm | hm
    · exact hnot hm
    · cases hnone.symm.trans hm

end Invariant

/-- **Reference accounting of the nodes.** In every run the count of a node is one for each handle and
one for the poll that has a share in it, an association owing its one until it is counted; a poll
releases its share in a node once, in one place; the node is freed when its count gets to 0, once;
and that has happened when the handles and the poll are gone and nobody is at work. -/
theorem shares_counted {s : Shares ι α J}
    (h : ReachableIf sharesStep Shares.Regular Shares.Starts s) (a : α) :
    s.refCount a + (if s.owed a = true then 1 else 0) = s.handles a + s.share a ∧
      (s.owed a = true ↔ ∃ i u, s.doing i = .count a u) ∧
      (s.releases.map Prod.fst).Nodup ∧
      s.freed a = (if s.registered a ≠ .absent ∧ s.refCount a = 0 then 1 else 0) ∧
      (s.registered a ≠ .absent → s.handles a = 0 → s.stage = .gone → s.AtRest →
        s.refCount a = 0 ∧ s.freed a = 1 ∧
          (s.associated a = true → ∃ place, (a, place) ∈ s.releases)) := by
  have hok := shares_ok h
  have hbalanced := hok.accounts.balanced a
  refine ⟨hbalanced.count, ?_, hok.accounts.nodup, hbalanced.freed, fun hcreated hhandles hgone hrest => ?_⟩
  · refine (hok.doings.owed a).trans (exists_congr fun i => ⟨fun hi => ?_, fun ⟨u, hu⟩ => ?_⟩)
    · cases hd : s.doing i <;> rw [hd] at hi <;> cases hi
      exact ⟨_, rfl⟩
    · rw [hu]
      rfl
  · have hshare := hok.share_at_rest hcreated hhandles hgone hrest
    have hcount := hbalanced.count
    have hzero : s.refCount a = 0 := by
      rw [if_neg (by simp [hok.doings.not_owed (by simp [hgone]) a]), hhandles, hshare] at hcount
      exact hcount
    have hfreed := hbalanced.freed
    rw [if_pos ⟨hcreated, hzero⟩] at hfreed
    refine ⟨hzero, hfreed, fun hassociated => ?_⟩
    have hmem : a ∈ s.releases.map Prod.fst := by
      by_contra hnot
      rw [share_eq_one.mpr ⟨hassociated, hnot⟩] at hshare
      cases hshare
    obtain ⟨⟨b, place⟩, hp, rfl⟩ := List.mem_map.mp hmem
    exact ⟨place, hp⟩

/-! ## Runs -/

def noNodes : Shares Bool Unit ℕ where
  regs :=
    { polling := .new
      nodes := fun _ => .new ⟨.tokenEvent, ⟨0⟩⟩ .empty .empty
      threads := fun _ => .idle
      hold := .load
      pushed := []
      released := fun _ => false
      signalled := fun _ => false }
  doing := fun _ => .nothing
  stage := .live
  associated := fun _ => false
  registered := fun _ => .absent
  setters := fun _ => 0
  refCount := fun _ => 0
  releasing := none
  owed := fun _ => false
  releases := []
  freed := fun _ => 0

theorem noNodes_starts : noNodes.Starts where
  regs := ⟨rfl, fun _ => ⟨_, _, _, rfl, by decide, by decide⟩, fun _ => rfl, rfl, fun _ => rfl, fun _ => rfl⟩
  doing _ := rfl
  stage := rfl
  associated _ := rfl
  registered _ := rfl
  setters _ := rfl
  refCount _ := rfl
  releasing := rfl
  owed _ := rfl
  releases := rfl
  freed _ := rfl

/-- A node gets a poll by `update` and is queued by the drop of its `Registration`; then the
`SetReadiness` goes, and the poll. -/
def lastOut : List (SharesOp Bool Unit ℕ) :=
  [[.new2 (), .call true (.update () ⟨⟨.otherEvent, ⟨1⟩⟩, .readable, .edge, none⟩)],
    .replicate 8 (.thread true), [.call false (.drop ()), .thread false, .thread false],
    .replicate 4 (.producer false false), [.thread false, .dropSetter (), .dropPoll],
    .replicate 6 .close, [.release, .close]].flatten

theorem shares_counted_last_out :
    ∃ s : Shares Bool Unit ℕ, run sharesStep noNodes lastOut = some s ∧ s.refCount () = 0 ∧
      s.freed () = 1 ∧ ∃ place, ((), place) ∈ s.releases := by
  obtain ⟨s, hs, hlast⟩ : ∃ s : Shares Bool Unit ℕ, run sharesStep noNodes lastOut = some s ∧
      (s.registered (), s.handles (), decide (s.stage = .gone ∧ s.AtRest), s.associated ()) =
        (.gone, 0, true, true) :=
    Option.map_eq_some_iff.mp (by decide)
  simp only [Prod.mk.injEq, decide_eq_true_eq] at hlast
  obtain ⟨hregistered, hhandles, ⟨hgone, hrest⟩, hassociated⟩ := hlast
  have hreach : ReachableIf sharesStep Shares.Regular Shares.Starts s :=
    (ReachableIf.start noNodes_starts).run (by decide) hs
  obtain ⟨-, -, -, -, hlast⟩ := shares_counted hreach ()
  obtain ⟨hcount, hfreed, hreleased⟩ := hlast (by simp [hregistered]) hhandles hgone hrest
  exact ⟨s, hs, hcount, hfreed, hreleased hassociated⟩

/-- The poll is dropped while a `set_readiness` has put its node at the head of the queue and not
linked it; the rest goes when it has returned. -/
def linkedLate : List (SharesOp Bool Unit ℕ) :=
  [[.new () ⟨.otherEvent, ⟨1⟩⟩ .readable .edge, .call true (.setReadiness () .readable)],
    .replicate 3 (.thread true), .replicate 3 (.producer true false), [.dropPoll],
    .replicate 5 .close, [.producer true false, .dropSetter ()],
    [.call false (.drop ()), .thread false, .thread false]].flatten

/-- A node without a poll is signalled with a readiness that spills into its interest. It is
associated afterwards, and all is dropped in turn. -/
def queuedEarly : List (SharesOp Bool Unit ℕ) :=
  [[.new2 (), .call true (.setReadiness () .all)], .replicate 3 (.thread true),
    [.call true (.update () ⟨⟨.otherEvent, ⟨1⟩⟩, .readable, .edge, none⟩)],
    .replicate 8 (.thread true), [.call false (.drop ()), .thread false, .thread false],
    [.dropSetter (), .dropPoll], .replicate 12 .close].flatten

/-- Handles and poll are gone, nobody is at work, and the share of the poll is still there. -/
def Shares.Leaked (s : Shares Bool Unit ℕ) : Prop :=
  s.registered () = .gone ∧ s.handles () = 0 ∧ s.stage = .gone ∧ s.AtRest ∧ s.refCount () = 1 ∧
    s.freed () = 0

instance Shares.Leaked.decidable (s : Shares Bool Unit ℕ) : Decidable s.Leaked :=
  inferInstanceAs (Decidable (_ ∧ _))

/-- **`ReadinessQueue::drop` leaks a node** that is not linked yet. A word that has the queued flag
before the node has a poll leaks it too. -/
theorem share_leaks :
    (∃ s, run sharesStep noNodes linkedLate = some s ∧ s.Leaked ∧
        ReachableIf sharesStep Shares.Borrowed Shares.Starts s) ∧
      ∃ s, run sharesStep noNodes queuedEarly = some s ∧ s.Leaked ∧
        ReachableIf sharesStep Shares.Borrowed Shares.Starts s := by
  have hstart : ReachableIf sharesStep Shares.Borrowed Shares.Starts noNodes := .start noNodes_starts
  obtain ⟨late, hlate, hleaked⟩ : ∃ s, run sharesStep noNodes linkedLate = some s ∧
      decide s.Leaked = true := Option.map_eq_some_iff.mp (by decide)
  obtain ⟨spill, hspill, hleaked'⟩ : ∃ s, run sharesStep noNodes queuedEarly = some s ∧
      decide s.Leaked = true := Option.map_eq_some_iff.mp (by decide)
  exact ⟨⟨late, hlate, of_decide_eq_true hleaked, hstart.run (by decide) hlate⟩,
    spill, hspill, of_decide_eq_true hleaked', hstart.run (by decide) hspill⟩

end MyMio

import MyMio.Node.Accounts
import MyMio.Node.Dropping

/-! # Who has a share, step by step

`Shares.Ok` is what is true of the threads, the words, the poll and the accounts in every run that
meets `Shares.Regular`. Here are the steps of those who are in the queue or on their way there: the
threads inside an operation, the producers, the poller and `ReadinessQueue::drop`.
-/

namespace MyMio
set_option autoImplicit false

open BrokenQueue Ledger

universe u v w

variable {ι : Type v} {α : Type u} {J : Type w} [DecidableEq ι] [DecidableEq α]

/-! ## The invariant -/

section Doings
variable {α : Type u} {J : Type w}

def Doing.node : Doing α J → Option α
  | .nothing => none
  | .setting a | .associate a _ | .claim a _ | .count a _ | .updating a | .dropping a => some a

/-- The node whose association is still to be counted. -/
def Doing.counts : Doing α J → Option α
  | .count a _ => some a
  | _ => none

def Doing.drops : Doing α J → Option α
  | .dropping a => some a
  | _ => none

end Doings

namespace Shares

structure Doings (s : Shares ι α J) : Prop where
  runs : ∀ i, (s.regs.threads i).Runs (s.doing i)
  borrows : ∀ i a, s.Updating i a → s.registered a = .held ∧ s.stage = .live
  updated : ∀ i a, s.doing i = .updating a → s.associated a = true
  owed : ∀ a, s.owed a = true ↔ ∃ i, (s.doing i).counts = some a
  counter : ∀ i j a, (s.doing i).counts = some a → (s.doing j).counts = some a → i = j
  dropping : ∀ i a, (s.doing i).drops = some a → s.registered a = .dropping
  dropper : ∀ i j a, (s.doing i).drops = some a → (s.doing j).drops = some a → i = j
  created : ∀ i a, (s.doing i).node = some a → s.registered a ≠ .absent

/-- What the words of the nodes have to do with it. A node without a poll is owed to the queue by a
thread at most. -/
structure Words (s : Shares ι α J) : Prop where
  absent : ∀ a, s.registered a = .absent →
    (s.regs.word a).isQueued = false ∧ (s.regs.word a).isDropped = false
  gone : ∀ a, s.registered a = .gone → (s.regs.word a).Final
  dropping : ∀ i a, (s.doing i).drops = some a →
    s.regs.threads i = .dropOr a ∨ (s.regs.word a).Final
  owing : ∀ a, s.associated a = false → (s.regs.word a).isQueued = true →
    s.regs.released a = false → ∃ i, (s.regs.threads i).owing = some a
  fresh : ∀ a, s.associated a = false → s.registered a = .absent ∨ s.registered a = .held →
    s.regs.released a = false
  released : ∀ a, s.associated a = true →
    (s.regs.released a = true ↔ a ∈ s.releases.map Prod.fst ∨ s.releasing = some a)

/-- The poll and its queue, stage by stage. -/
inductive At (s : Shares ι α J) : Prop
  | live : s.stage = .live → s.regs.Owned → s.regs.Examined → At s
  | closing (phase : Phase (Ptr α)) : s.stage = .closing phase → phase.Waiting → s.regs.Owned →
      s.regs.polling.poller = .idle → s.releasing = none →
      (phase ≠ .start → s.regs.polling.queue.mem.next .closedMarker = none) →
      phase ≠ .exchange .closedMarker → At s
  | swapped (prev : Ptr α) : s.stage = .closing (.link prev) → s.regs.Draining (some prev) →
      s.releasing = none → At s
  | draining : s.stage = .draining → s.regs.Draining none → At s
  | gone : s.stage = .gone → s.regs.Draining none → s.regs.polling.queue.tail = .closedMarker →
      s.releasing = none → At s

structure Ok (s : Shares ι α J) : Prop where
  at_ : s.At
  doings : s.Doings
  words : s.Words
  accounts : s.Accounts

end Shares

section Invariant
variable {s s' : Shares ι α J} {a b : α} {i : ι} {o : Owner ι}

omit [DecidableEq ι] [DecidableEq α] in
theorem Shares.At.books (h : s.At) : s.regs.Booked := by
  cases h with
  | live _ howned | closing _ _ _ howned => exact howned.books
  | swapped _ _ hdraining | draining _ hdraining | gone _ hdraining => exact hdraining.books

omit [DecidableEq ι] [DecidableEq α] in
theorem Shares.At.owned (h : s.At) (hlive : s.stage = .live) : s.regs.Owned ∧ s.regs.Examined := by
  cases h with
  | live _ howned hexamined => exact ⟨howned, hexamined⟩
  | closing _ hc | swapped _ hc => cases hlive.symm.trans hc
  | draining hc | gone hc => cases hlive.symm.trans hc

omit [DecidableEq ι] in
/-- A node without a poll is owned by a thread at most. -/
theorem Shares.Ok.owner (h : s.Ok) (ha : s.associated a = false) (ho : s.regs.Owns a o) :
    ∃ j, o = .thread j := by
  have hbooks := h.at_.books
  have hqueued : (s.regs.word a).isQueued = true := Books.flagged hbooks a o ho
  have hlive : s.regs.released a = false := by
    cases hr : s.regs.released a with
    | false => rfl
    | true => exact absurd ho ((Books.spent hbooks a hr).2 o)
  obtain ⟨j, hj⟩ := h.words.owing a ha hqueued hlive
  exact ⟨j, Books.unique hbooks a o (.thread j) ho hj⟩

omit [DecidableEq ι] in
/-- What somebody other than a thread owns has a poll, whose share has not been released. -/
theorem Shares.Ok.share_eq (h : s.Ok) (ho : s.regs.Owns a o) (hne : ∀ j, o ≠ .thread j) :
    s.share a = 1 ∧ s.releasing ≠ some a := by
  have hassociated : s.associated a = true := by
    cases ha : s.associated a with
    | true => rfl
    | false =>
      obtain ⟨j, hj⟩ := h.owner ha ho
      exact absurd hj (hne j)
  have hbooks := h.at_.books
  have hnot : ¬ (a ∈ s.releases.map Prod.fst ∨ s.releasing = some a) := by
    intro hor
    exact (Books.spent hbooks a ((h.words.released a hassociated).mpr hor)).2 o ho
  exact ⟨share_eq_one.mpr ⟨hassociated, fun hm => hnot (.inl hm)⟩, fun hr => hnot (.inr hr)⟩

omit [DecidableEq ι] in
theorem Shares.Doings.not_owed [DecidableEq ι] (h : s.Doings) (hstage : s.stage ≠ .live) (a : α) :
    s.owed a = false := by
  cases ho : s.owed a with
  | false => rfl
  | true =>
    obtain ⟨i, hi⟩ := (h.owed a).mp ho
    refine absurd (h.borrows i a ?_).2 hstage
    unfold Shares.Updating
    cases hd : s.doing i <;> rw [hd] at hi <;> first | exact hi | cases hi

/-! ## What a step leaves alone -/

omit [DecidableEq ι] [DecidableEq α] in
theorem Shares.At.same [DecidableEq ι] (h : s.At) (hregs : s'.regs = s.regs)
    (hstage : s'.stage = s.stage) (hreleasing : s'.releasing = s.releasing) : s'.At := by
  cases h with
  | live hl howned hexamined => exact .live (hstage.trans hl) (hregs ▸ howned) (hregs ▸ hexamined)
  | closing phase hc hwaiting howned hidle hr hnext hopen =>
    exact .closing phase (hstage.trans hc) hwaiting (hregs ▸ howned) (hregs ▸ hidle)
      (hreleasing.trans hr) (hregs ▸ hnext) hopen
  | swapped prev hc hd hr => exact .swapped prev (hstage.trans hc) (hregs ▸ hd) (hreleasing.trans hr)
  | draining hd hdraining => exact .draining (hstage.trans hd) (hregs ▸ hdraining)
  | gone hg hd htail hr => exact .gone (hstage.trans hg) (hregs ▸ hd) (hregs ▸ htail) (hreleasing.trans hr)

omit [DecidableEq ι] [DecidableEq α] in
theorem Shares.At.moved (h : s.At) (hstage : s'.stage = s.stage)
    (hreleasing : s'.releasing = s.releasing) (howned : s.regs.Owned → s'.regs.Owned)
    (hdraining : ∀ edge, s.regs.Draining edge → s'.regs.Draining edge)
    (hhold : s'.regs.hold = s.regs.hold)
    (hpoller : s'.regs.polling.poller = s.regs.polling.poller)
    (hnext : s.regs.Owned → s'.regs.polling.queue.mem.next .closedMarker =
      s.regs.polling.queue.mem.next .closedMarker)
    (htail : s'.regs.polling.queue.tail = s.regs.polling.queue.tail) : s'.At := by
  cases h with
  | live hl ho hexamined =>
    refine .live (hstage.trans hl) (howned ho) fun state hs => hexamined state ?_
    rw [← hs, hhold]
  | closing phase hc hwaiting ho hidle hr hcleared hopen =>
    exact .closing phase (hstage.trans hc) hwaiting (howned ho) (hpoller.trans hidle)
      (hreleasing.trans hr) (fun hp => (hnext ho).trans (hcleared hp)) hopen
  | swapped prev hc hd hr =>
    exact .swapped prev (hstage.trans hc) (hdraining _ hd) (hreleasing.trans hr)
  | draining hd hdrain => exact .draining (hstage.trans hd) (hdraining _ hdrain)
  | gone hg hd htail' hr =>
    exact .gone (hstage.trans hg) (hdraining _ hd) (htail.trans htail') (hreleasing.trans hr)

omit [DecidableEq ι] [DecidableEq α] in
theorem borrows_false {doing : Doing α J} {idle : Bool} (h : doing.borrows idle = some a) :
    doing.borrows false = some a := by
  cases doing with
  | updating c =>
    cases idle with
    | false => exact h
    | true => cases h
  | _ => exact h

/-- Only a thread that is in the middle of an operation has moved. -/
theorem Shares.Updating.back {j : ι} (h : s'.Updating j a) (hdoing : s'.doing = s.doing)
    (hbusy : s.idle i = false) (hothers : ∀ k, k ≠ i → s'.idle k = s.idle k) : s.Updating j a := by
  unfold Shares.Updating at *
  rw [hdoing] at h
  by_cases hj : j = i
  · subst hj
    rw [hbusy]
    exact borrows_false h
  · rw [← hothers j hj]
    exact h

omit [DecidableEq ι] in
theorem Shares.Updating.congr {j : ι} (h : s'.Updating j a) (hdoing : s'.doing j = s.doing j)
    (hidle : s'.idle j = s.idle j) : s.Updating j a := by
  unfold Shares.Updating at *
  rw [hdoing, hidle] at h
  exact h

omit [DecidableEq ι] in
theorem Shares.Doings.same (h : s.Doings) (hdoing : s'.doing = s.doing)
    (hregistered : s'.registered = s.registered) (hassociated : s'.associated = s.associated)
    (howed : s'.owed = s.owed) (hruns : ∀ i, (s'.regs.threads i).Runs (s.doing i))
    (hborrows : ∀ i a, s'.Updating i a → s.Updating i a ∧ s'.stage = s.stage) : s'.Doings := by
  refine ⟨fun i => ?_, fun i a hu => ?_, ?_, ?_, ?_, ?_, ?_, ?_⟩
  · rw [hdoing]
    exact hruns i
  · obtain ⟨hu, hstage⟩ := hborrows i a hu
    rw [hregistered, hstage]
    exact h.borrows i a hu
  · rw [hdoing, hassociated]
    exact h.updated
  · rw [howed, hdoing]
    exact h.owed
  · rw [hdoing]
    exact h.counter
  · rw [hdoing, hregistered]
    exact h.dropping
  · rw [hdoing]
    exact h.dropper
  · rw [hdoing, hregistered]
    exact h.created

omit [DecidableEq ι] [DecidableEq α] in
theorem Shares.Words.same (h : s.Words) (hdoing : s'.doing = s.doing)
    (hregistered : s'.registered = s.registered) (hassociated : s'.associated = s.associated)
    (hreleases : s'.releases = s.releases) (hreleasing : s'.releasing = s.releasing)
    (hreleased : s'.regs.released = s.regs.released)
    (habsent : ∀ a, s.registered a = .absent → s'.regs.word a = s.regs.word a)
    (hfinal : ∀ a, (s.regs.word a).Final → (s'.regs.word a).Final)
    (hdropping : ∀ i a, (s.doing i).drops = some a → s.regs.threads i = .dropOr a →
      s'.regs.threads i = .dropOr a ∨ (s'.regs.word a).Final)
    (howing : ∀ a, s.associated a = false → (s'.regs.word a).isQueued = true →
      (s.regs.word a).isQueued = true ∧
          (∀ i, (s.regs.threads i).owing = some a → (s'.regs.threads i).owing = some a) ∨
        ∃ i, (s'.regs.threads i).owing = some a) : s'.Words := by
  refine ⟨fun a ha => ?_, fun a ha => ?_, fun i a hi => ?_, fun a ha hq hr => ?_, fun a ha hreg => ?_,
    fun a ha => ?_⟩
  · rw [hregistered] at ha
    rw [habsent a ha]
    exact h.absent a ha
  · rw [hregistered] at ha
    exact hfinal a (h.gone a ha)
  · rw [hdoing] at hi
    rcases h.dropping i a hi with hor | hf
    · exact hdropping i a hi hor
    · exact .inr (hfinal a hf)
  · rw [hassociated] at ha
    rw [hreleased] at hr
    rcases howing a ha hq with ⟨hold, hkeeps⟩ | hnow
    · obtain ⟨i, hi⟩ := h.owing a ha hold hr
      exact ⟨i, hkeeps i hi⟩
    · exact hnow
  · rw [hassociated] at ha
    rw [hregistered] at hreg
    rw [hreleased]
    exact h.fresh a ha hreg
  · rw [hassociated] at ha
    rw [hreleased, hreleases, hreleasing]
    exact h.released a ha

/-! ## The steps of the threads -/

omit [DecidableEq ι] [DecidableEq α] in
theorem Thread.Runs.updating {pc : Thread α J} {doing : Doing α J} (h : pc.Runs doing)
    (hupdating : pc.Runs (.updating b)) (hidle : pc ≠ .idle) (hne : pc ≠ .enqueue b) :
    doing = .updating b := by
  cases pc with
  | idle => exact absurd rfl hidle
  | setLoad | setExchange | dropOr => cases hupdating
  | enqueue c =>
    refine absurd ?_ hne
    rcases hupdating with he | he | he <;> cases he
    rfl
  | _ => exact Eq.trans h (Eq.symm hupdating)

omit [DecidableEq ι] in
theorem idle_other {j : ι} (hthreads : s'.regs.threads j = s.regs.threads j)
    (hproducers : s'.regs.polling.queue.producers j = s.regs.polling.queue.producers j) :
    s'.idle j = s.idle j := by
  unfold Shares.idle
  rw [hthreads, hproducers]

omit [DecidableEq ι] in
theorem idle_threads (h : s.idle i = true) :
    s.regs.threads i = .idle ∧ s.regs.polling.queue.producers i = .idle := by
  obtain ⟨hthread, hproducer⟩ := Bool.and_eq_true_iff.mp h
  refine ⟨?_, of_decide_eq_true hproducer⟩
  cases hpc : s.regs.threads i <;> rw [hpc] at hthread <;> first | rfl | cases hthread

omit [DecidableEq ι] in
theorem not_idle (h : s.regs.threads i ≠ .idle) : s.idle i = false := by
  cases hi : s.idle i with
  | false => rfl
  | true => exact absurd (idle_threads hi).1 h

/-- **An access of a thread** outside `enqueue_node`. -/
theorem Shares.Ok.access (h : s.Ok) {r : Registrations ι α J} (hs : s.regs.threadStep i = some r)
    (hassociated : ∀ a, s.regs.threads i = .enqueue a → s.associated a = true) :
    ({ s with regs := r } : Shares ι α J).Ok := by
  have hframe := threadStep_frame hs
  have hmoving : s.regs.threads i ≠ .idle := by
    intro hi
    simp [Registrations.threadStep, hi] at hs
  have hproducers : ∀ j, j ≠ i →
      r.polling.queue.producers j = s.regs.polling.queue.producers j := by
    intro j hj
    rcases hframe.polling with hp | ⟨_, _, _, _, hp⟩
    · rw [hp]
    · rw [hp]
      exact Function.update_of_ne hj ..
  refine ⟨?_, ?_, ?_, h.accounts.same rfl rfl rfl rfl rfl rfl rfl fun _ => .inl⟩
  · refine h.at_.moved rfl rfl
      (fun ho => ho.threadStep hs) (fun _ hd => hd.threadStep hs)
      hframe.hold ?_ (fun _ => ?_) ?_
    all_goals
      rcases hframe.polling with hp | ⟨_, _, _, _, hp⟩ <;>
      · show _ = _
        simp only [hp]
  · refine h.doings.same rfl rfl rfl rfl (fun j => ?_) fun j b hu => ⟨?_, rfl⟩
    · by_cases hj : j = i
      · rw [hj]
        exact (h.doings.runs i).step hs
      · show (r.threads j).Runs _
        rw [hframe.threads j hj]
        exact h.doings.runs j
    · exact hu.back rfl (not_idle hmoving) fun k hk =>
        idle_other (hframe.threads k hk) (hproducers k hk)
  · refine h.words.same rfl rfl rfl rfl rfl hframe.released (fun b hb => ?_)
      (fun b hf => threadStep_final hs hf) (fun j b hj hor => ?_) fun b hb hq => ?_
    · have hnot : ∀ doing, s.doing i = doing → doing.node ≠ some b := by
        rintro doing rfl hn
        exact h.doings.created i b hn hb
      have hruns := h.doings.runs i
      cases threadStep_word hs b with
      | stays hword => exact hword
      | signals ready hi | updates u pos hi | drops hi =>
        rw [hi] at hruns
        exact absurd rfl (hnot _ hruns)
    · by_cases he : j = i
      · subst he
        exact .inr (threadStep_dropped hs hor)
      · exact .inl ((hframe.threads j he).trans hor)
    · have hne : s.regs.threads i ≠ .enqueue b := by
        intro hi
        rw [hassociated b hi] at hb
        cases hb
      have hup : ¬ (s.regs.threads i).Runs (.updating b) := by
        intro hu
        rw [h.doings.updated i b ((h.doings.runs i).updating hu hmoving hne)] at hb
        cases hb
      rcases threadStep_queued hs hne hup hq with ⟨hold, hnot⟩ | hnow
      · refine .inl ⟨hold, fun j hj => ?_⟩
        have he : j ≠ i := fun he => hnot (he ▸ hj)
        show (r.threads j).owing = some b
        rw [hframe.threads j he]
        exact hj
      · exact .inr ⟨i, hnow⟩

theorem Shares.Ok.forget (h : s.Ok) (hi : s.regs.threads i = .enqueue a)
    (ha : s.associated a = false) (hset : s.doing i ≠ .setting a) :
    ({ s with regs := s.regs.goto i .idle }.letGo a : Shares ι α J).Ok := by
  have hdoing : s.doing i = .dropping a := by
    have hruns := h.doings.runs i
    rw [hi] at hruns
    rcases hruns with hd | hd | hd
    · exact absurd hd hset
    · rw [h.doings.updated i a hd] at ha
      cases ha
    · exact hd
  have hdrops : (s.doing i).drops = some a := by rw [hdoing]; rfl
  have hfinal : (s.regs.word a).Final := by
    rcases h.words.dropping i a hdrops with hor | hf
    · cases hi.symm.trans hor
    · exact hf
  have hthreads : ∀ j, j ≠ i → Function.update s.regs.threads i .idle j = s.regs.threads j :=
    fun j hj => Function.update_of_ne hj ..
  have hreleased : ∀ b, b ≠ a → Function.update s.regs.released a true b = s.regs.released b :=
    fun b hb => Function.update_of_ne hb ..
  refine ⟨?_, ?_, ?_, h.accounts.same rfl rfl rfl rfl rfl rfl rfl fun _ => .inl⟩
  · exact h.at_.moved rfl rfl (fun ho => ho.forget hi hfinal.1)
      (fun _ hd => ⟨hd.queue, hd.poller, Registrations.Booked.forget hd.books hi⟩) rfl rfl
      (fun _ => rfl) rfl
  · refine h.doings.same rfl rfl rfl rfl (fun j => ?_) fun j b hu => ⟨?_, rfl⟩
    · show (Function.update s.regs.threads i .idle j).Runs _
      by_cases hj : j = i
      · rw [hj, Function.update_self]
        trivial
      · rw [hthreads j hj]
        exact h.doings.runs j
    · exact hu.back rfl (not_idle (by rw [hi]; simp)) fun k hk => idle_other (hthreads k hk) rfl
  · refine ⟨h.words.absent, h.words.gone, fun j b hj => ?_, fun b hb hq hr => ?_, fun b hb hreg => ?_,
      fun b hb => ?_⟩
    · by_cases he : j = i
      · subst he
        obtain rfl : a = b := Option.some.inj (hdrops.symm.trans hj)
        exact .inr hfinal
      · refine (h.words.dropping j b hj).imp_left fun hor => ?_
        exact (hthreads j he).trans hor
    · have hne : b ≠ a := by
        rintro rfl
        change Function.update s.regs.released b true b = false at hr
        rw [Function.update_self] at hr
        cases hr
      obtain ⟨j, hj⟩ := h.words.owing b hb hq ((hreleased b hne).symm.trans hr)
      have he : j ≠ i := by
        rintro rfl
        rw [hi] at hj
        exact hne (Option.some.inj hj).symm
      refine ⟨j, ?_⟩
      show (Function.update s.regs.threads i .idle j).owing = some b
      rw [hthreads j he]
      exact hj
    · have hne : b ≠ a := by
        rintro rfl
        rcases hreg with hreg | hreg <;> cases (h.doings.dropping i b hdrops).symm.trans hreg
      exact (hreleased b hne).trans (h.words.fresh b hb hreg)
    · have hne : b ≠ a := by
        rintro rfl
        exact absurd hb (by simp [Shares.letGo, ha])
      show Function.update s.regs.released a true b = true ↔ _
      rw [hreleased b hne]
      exact h.words.released b hb

/-! ## The steps of the producers -/

omit [DecidableEq ι] [DecidableEq α] in
/-- The poll lets go of a node of its own, and releases its share now or next. -/
theorem Shares.Words.lets (h : s.Words) (ha : s.associated a = true) (hdoing : s'.doing = s.doing)
    (hregistered : s'.registered = s.registered) (hassociated : s'.associated = s.associated)
    (hthreads : s'.regs.threads = s.regs.threads) (hword : ∀ b, s'.regs.word b = s.regs.word b)
    (hreleased : ∀ b, s'.regs.released b = true ↔ s.regs.released b = true ∨ b = a)
    (hmem : ∀ b, b ∈ s'.releases.map Prod.fst ∨ s'.releasing = some b ↔
      (b ∈ s.releases.map Prod.fst ∨ s.releasing = some b) ∨ b = a) : s'.Words := by
  refine ⟨fun b hb => ?_, fun b hb => ?_, fun i b hi => ?_, fun b hb hq hr => ?_, fun b hb hreg => ?_,
    fun b hb => ?_⟩
  · rw [hregistered] at hb
    rw [hword]
    exact h.absent b hb
  · rw [hregistered] at hb
    rw [hword]
    exact h.gone b hb
  · rw [hdoing] at hi
    rw [hthreads, hword]
    exact h.dropping i b hi
  · rw [hassociated] at hb
    rw [hword] at hq
    rw [hthreads]
    refine h.owing b hb hq ?_
    cases hold : s.regs.released b with
    | false => rfl
    | true =>
      rw [(hreleased b).mpr (.inl hold)] at hr
      cases hr
  · rw [hassociated] at hb
    rw [hregistered] at hreg
    have hold := h.fresh b hb hreg
    cases hnew : s'.regs.released b with
    | false => rfl
    | true =>
      rcases (hreleased b).mp hnew with hr | rfl
      · rw [hold] at hr
        cases hr
      · rw [ha] at hb
        cases hb
  · rw [hassociated] at hb
    rw [hreleased, hmem, h.released b hb]

theorem Registrations.Owned.producer_open {t : Registrations ι α J} {p : Polling ι α}
    {wouldBlock : Bool} (h : t.Owned)
    (hs : pollingStep t.polling (.producer i wouldBlock) = some p) :
    (∀ a, t.polling.queue.producers i ≠ .enqueue a (.exchange .closedMarker)) ∧
      p.queue.mem.next .closedMarker = t.polling.queue.mem.next .closedMarker := by
  obtain ⟨nodes, hsound⟩ := h.sound
  obtain ⟨hq, -⟩ := producerStep_queue hs
  refine ⟨fun a hi => ?_, ?_⟩
  · refine hsound.prev (some i) (.data a) .closedMarker ?_ rfl
    rw [busy_some, hi]
    rfl
  · unfold Queue.producerStep at hq
    cases hi : t.polling.queue.producers i with
    | idle => simp [hi] at hq
    | wakeup =>
      simp only [hi, Option.some.injEq] at hq
      rw [← hq]
    | enqueue a phase =>
      simp only [hi, Option.some.injEq] at hq
      rw [← hq]
      have ho : t.polling.queue.busy (some i) = some (.data a, phase) := by
        rw [busy_some, hi]
        rfl
      exact hsound.access_next ho hsound.closed (by simp)

/-- **An access of a producer.** If it finds the queue closed, the poll's share goes. -/
theorem Shares.Ok.producer (h : s.Ok) {wouldBlock : Bool}
    (hs : s.producerStep i wouldBlock = some s') : s'.Ok := by
  unfold Shares.producerStep at hs
  obtain ⟨r, hr, hs⟩ := Option.map_eq_some_iff.mp hs
  obtain ⟨p, hp, rfl⟩ := Option.map_eq_some_iff.mp hr
  obtain ⟨hq, hpoller⟩ := producerStep_queue hp
  have hbusy : s.idle i = false := by
    have hmoving : s.regs.polling.queue.producers i ≠ .idle := by
      intro hi
      simp [Queue.producerStep, hi] at hq
    simp [Shares.idle, hmoving]
  have hupdating : ∀ {t : Shares ι α J} {j : ι} {b : α}, t.Updating j b → t.doing = s.doing →
      t.regs.threads = s.regs.threads → t.regs.polling = p → s.Updating j b := by
    intro t j b hu hdoing hthreads hpolling
    refine hu.back hdoing hbusy fun k hk => idle_other (congrFun hthreads k) ?_
    rw [hpolling]
    exact (producerStep_others hq).2 k hk
  have hplain : (∀ a, s.regs.polling.queue.producers i ≠ .enqueue a (.exchange .closedMarker)) →
      ({ s with regs := { s.regs with polling := p } } : Shares ι α J).Ok := by
    intro hnot
    refine ⟨?_, ?_, ?_, h.accounts.same rfl rfl rfl rfl rfl rfl rfl fun _ => .inl⟩
    · refine h.at_.moved rfl rfl (fun ho => ho.producer hp) (fun _ hd => ?_) rfl hpoller
        (fun ho => (ho.producer_open hp).2) (producerStep_tail hq)
      rcases hd.producer hp with ⟨-, hd⟩ | ⟨a, hi, -⟩
      · exact hd
      · exact absurd hi (hnot a)
    · exact h.doings.same rfl rfl rfl rfl h.doings.runs fun j b hu =>
        ⟨hupdating hu rfl rfl rfl, rfl⟩
    · exact { h.words with }
  by_cases hrefused : ∃ a, s.regs.polling.queue.producers i = .enqueue a (.exchange .closedMarker)
  · obtain ⟨a, hi⟩ := hrefused
    simp only [hi] at hs
    subst hs
    have hclosed : ¬ s.regs.Owned := fun ho => (ho.producer_open hp).1 a hi
    have hdraining : ∀ edge, s.regs.Draining edge → s.regs.Owns a (.enqueuer i) ∧
        ({ s.regs with polling := p, released := Function.update s.regs.released a true } :
          Registrations ι α J).Draining edge := by
      intro edge hd
      rcases hd.producer hp with ⟨hnot, -⟩ | ⟨b, hb, howns, hd⟩
      · exact absurd hi (hnot a)
      · cases hi.symm.trans hb
        exact ⟨howns, hd⟩
    have howns : s.regs.Owns a (.enqueuer i) := by
      show (s.regs.polling.queue.producers i).owed = some a
      rw [hi]
      rfl
    obtain ⟨hshare, hreleasing⟩ := h.share_eq howns (by simp)
    have hstage : s.stage ≠ .live := by
      intro hl
      cases h.at_ with
      | live _ ho => exact hclosed ho
      | closing _ hc | swapped _ hc => cases hl.symm.trans hc
      | draining hc | gone hc => cases hl.symm.trans hc
    have haccounts : ({ s with regs := { s.regs with polling := p } }.letGo a :
        Shares ι α J).Accounts :=
      h.accounts.same rfl rfl rfl rfl rfl rfl rfl fun _ => .inl
    refine ⟨?_, ?_, ?_, ?_⟩
    · exact h.at_.moved rfl rfl (fun ho => absurd ho hclosed) (fun edge hd => (hdraining edge hd).2)
        rfl hpoller (fun ho => absurd ho hclosed) (producerStep_tail hq)
    · exact h.doings.same rfl rfl rfl rfl h.doings.runs fun j b hu =>
        ⟨hupdating hu rfl rfl rfl, rfl⟩
    · refine h.words.lets (share_eq_one.mp hshare).1 rfl rfl rfl rfl (fun _ => rfl) (fun b => ?_)
        fun b => ?_
      · show Function.update s.regs.released a true b = true ↔ _
        by_cases hb : b = a
        · simp [hb]
        · simp [hb]
      · show b ∈ (s.releases ++ [(a, ReleasedBy.enqueue)]).map Prod.fst ∨ s.releasing = some b ↔ _
        rw [List.map_append, List.mem_append, List.map_singleton, List.mem_singleton]
        exact or_right_comm
    · exact haccounts.release (r := s.releasing) hshare (h.doings.not_owed hstage a) .enqueue
        fun b hb => ⟨hb, fun he => hreleasing (he ▸ hb)⟩
  · have hnot : ∀ a, s.regs.polling.queue.producers i ≠ .enqueue a (.exchange .closedMarker) :=
      fun a hi => hrefused ⟨a, hi⟩
    split at hs
    · rename_i hi
      exact absurd hi (hnot _)
    · subst hs
      exact hplain hnot

/-! ## The steps of the poller -/

theorem Shares.Ok.poll (h : s.Ok) {op : PollingOp ι α} {r : Registrations ι α J}
    (hlive : s.stage = .live) (hs : registrationsStep s.regs (.poll op) = some r) :
    ({ s with regs := r } : Shares ι α J).Ok := by
  obtain ⟨howned, hexamined⟩ := h.at_.owned hlive
  have howned' := registrationsStep_owned howned hs
  simp only [registrationsStep] at hs
  split at hs
  · rename_i hop
    obtain ⟨p, hp, rfl⟩ := Option.map_eq_some_iff.mp hs
    obtain ⟨hproducers, -⟩ := poll_move howned hop hp
    refine ⟨.live hlive howned' hexamined, ?_, { h.words with },
      h.accounts.same rfl rfl rfl rfl rfl rfl rfl fun _ => .inl⟩
    refine h.doings.same rfl rfl rfl rfl h.doings.runs fun j b hu => ⟨hu.congr rfl ?_, rfl⟩
    exact idle_other rfl (congrFun hproducers j)
  · cases hs

omit [DecidableEq ι] [DecidableEq α] in
theorem seen_eq_none {r r' : Registrations ι α J} [DecidableEq ι] [DecidableEq α]
    (h : r'.released = r.released) : Shares.seen r r' = none := by
  unfold Shares.seen
  split
  · rw [h]
    simp
  · rfl

omit [DecidableEq ι] [DecidableEq α] in
theorem consumer_of_holding {r : Registrations ι α J} {ret : Ret α}
    (hret : r.polling.queue.consumer = .returned ret) (ha : r.holding = some a) :
    r.polling.queue.consumer = .returned (.dequeue (.data (.data a))) := by
  unfold Registrations.holding at ha
  rw [hret] at ha ⊢
  cases ret with
  | dequeue d =>
    cases d with
    | data ptr =>
      cases ptr with
      | data c =>
        have hc : c = a := by
          cases hp : r.polling.poller <;> cases hh : r.hold <;> rw [hp, hh] at ha <;>
            first | exact Option.some.inj ha | cases ha
        rw [hc]
      | _ => cases ha
    | _ => cases ha
  | _ => cases ha

/-- When the poller releases a node, that is the node whose dropped flag it has seen. -/
theorem nodeStep_seen {r r' : Registrations ι α J} (h : r.Owned) (hs : r.nodeStep = some r')
    (ha : r.holding = some a) (hreleased : r'.released = Function.update r.released a true) :
    Shares.seen r r' = some a := by
  have hreturned : ∃ ret, r.polling.queue.consumer = .returned ret := by
    unfold Registrations.nodeStep at hs
    split at hs <;> first | exact ⟨_, ‹_›⟩ | cases hs
  obtain ⟨ret, hret⟩ := hreturned
  unfold Shares.seen
  rw [consumer_of_holding hret ha]
  simp [hreleased, h.not_released ha]

/-- **An access of the poller to the node it has dequeued.** -/
theorem Shares.Ok.node (h : s.Ok) {r : Registrations ι α J} (hlive : s.stage = .live)
    (hnone : s.releasing = none) (hs : s.regs.nodeStep = some r)
    (hsettled : ∀ a, s.regs.holding = some a → (s.regs.word a).isDropped = true → s.owed a = false) :
    ({ s with regs := r, releasing := Shares.seen s.regs r } : Shares ι α J).Ok := by
  obtain ⟨howned, hexamined⟩ := h.at_.owned hlive
  have howned' := howned.nodeStep hs
  obtain ⟨hframe, hmove⟩ := nodeStep_move howned hs
  have hdoings : ({ s with regs := r, releasing := Shares.seen s.regs r } : Shares ι α J).Doings := by
    refine h.doings.same rfl rfl rfl rfl (fun j => ?_) fun j b hu => ⟨hu.congr rfl ?_, rfl⟩
    · show (r.threads j).Runs _
      rw [hframe.threads]
      exact h.doings.runs j
    · exact idle_other (congrFun hframe.threads j) (congrFun hframe.producers j)
  have hplain : r.released = s.regs.released →
      (∀ b, r.word b = s.regs.word b ∨ s.regs.holding = some b ∧ (s.regs.word b).isDropped = false) →
      ({ s with regs := r, releasing := Shares.seen s.regs r } : Shares ι α J).Ok := by
    intro hreleased hword
    have hseen : Shares.seen s.regs r = s.releasing := (seen_eq_none hreleased).trans hnone.symm
    have hlocal : ∀ b, s.associated b = false → r.word b = s.regs.word b := by
      intro b hb
      refine (hword b).resolve_right fun hheld => ?_
      obtain ⟨j, hj⟩ := h.owner hb (o := .poller) hheld.1
      cases hj
    refine ⟨.live hlive howned' hmove.examined, hdoings, ?_,
      h.accounts.same rfl rfl rfl rfl rfl rfl rfl fun b hb => .inl (hseen ▸ hb)⟩
    refine h.words.same rfl rfl rfl rfl hseen hreleased (fun b hb => ?_) (fun b hf => ?_)
      (fun j b _ hor => .inl ((congrFun hframe.threads j).trans hor)) fun b hb hq => .inl ⟨?_, ?_⟩
    · exact hlocal b ((h.accounts.balanced b).absent hb).1
    · rcases hword b with hw | ⟨-, hd⟩
      · show (r.word b).Final
        rw [hw]
        exact hf
      · cases hf.1.symm.trans hd
    · exact (congrArg ReadinessState.isQueued (hlocal b hb)).symm.trans hq
    · intro j hj
      show (r.threads j).owing = some b
      rw [hframe.threads]
      exact hj
  have hkeep : r.nodes = s.regs.nodes → ∀ b, r.word b = s.regs.word b ∨
      s.regs.holding = some b ∧ (s.regs.word b).isDropped = false := fun hn b =>
    .inl (congrArg Node.state (congrFun hn b))
  cases hmove with
  | releases a ha _ _ hdropped hnodes _ _ _ _ hreleased =>
    have hseen := nodeStep_seen howned hs ha hreleased
    obtain ⟨hshare, -⟩ := h.share_eq (o := .poller) ha (by simp)
    refine ⟨.live hlive howned' (NodeMove.examined (nodeStep_move howned hs).2), hdoings, ?_, ?_⟩
    · refine h.words.lets (a := a) (share_eq_one.mp hshare).1 rfl rfl rfl hframe.threads
        (fun b => congrArg Node.state (congrFun hnodes b)) (fun b => ?_) fun b => ?_
      · show r.released b = true ↔ _
        rw [hreleased]
        by_cases hb : b = a
        · simp [hb]
        · simp [hb]
      · show b ∈ s.releases.map Prod.fst ∨ Shares.seen s.regs r = some b ↔ _
        rw [hseen, hnone, Option.some.injEq]
        simp [eq_comm]
    · refine h.accounts.same rfl rfl rfl rfl rfl rfl rfl fun b hb => .inr ?_
      obtain rfl : a = b := Option.some.inj (hseen.symm.trans hb)
      exact ⟨hshare, hsettled a ha hdropped⟩
  | examines a _ _ _ _ hnodes _ _ _ _ hreleased => exact hplain hreleased (hkeep hnodes)
  | settles a ha _ hload hfresh hnodes _ _ _ _ hreleased =>
    refine hplain hreleased fun b => ?_
    by_cases hb : b = a
    · subst hb
      refine .inr ⟨ha, ?_⟩
      rcases hfresh with hfresh | hfresh
      · exact hfresh
      · exact hexamined _ hfresh
    · refine .inl ?_
      show (r.nodes b).state = _
      rw [hnodes, Function.update_of_ne hb]
      rfl
  | reads a readiness pos token _ _ hnodes _ _ _ hreleased => exact hplain hreleased (hkeep hnodes)
  | pushes a event _ hnodes _ _ _ hreleased => exact hplain hreleased (hkeep hnodes)
  | clears a _ hnodes _ _ _ hreleased =>
    refine hplain hreleased fun b => .inl ?_
    show (r.nodes b).state = _
    rw [hnodes]
    refine state_update ?_ b
    rfl

omit [DecidableEq ι] in
theorem Shares.Words.release (h : s.Words) (hassociated : s.associated a = true)
    (ha : s.releasing = some a) (place : ReleasedBy) :
    ({ s.releaseShare a place with releasing := none } : Shares ι α J).Words := by
  have hreleased := (h.released a hassociated).mpr (.inr ha)
  refine h.lets hassociated rfl rfl rfl rfl (fun _ => rfl) (fun b => ?_) fun b => ?_
  · show s.regs.released b = true ↔ _
    exact ⟨.inl, fun hor => hor.elim id fun he => he ▸ hreleased⟩
  · show b ∈ (s.releases ++ [(a, place)]).map Prod.fst ∨ none = some b ↔ _
    rw [List.map_append, List.mem_append, List.map_singleton, List.mem_singleton, ha,
      Option.some.injEq]
    simp [eq_comm]

omit [DecidableEq ι] in
theorem Shares.Ok.release (h : s.Ok) (hlive : s.stage = .live) (ha : s.releasing = some a) :
    ({ s.releaseShare a .poller with releasing := none } : Shares ι α J).Ok := by
  obtain ⟨hshare, howed⟩ := h.accounts.releasing a ha
  refine ⟨?_, ?_, ?_, h.accounts.release hshare howed .poller fun b hb => by cases hb⟩
  · obtain ⟨howned, hexamined⟩ := h.at_.owned hlive
    exact .live hlive howned hexamined
  · exact { h.doings with }
  · exact h.words.release (share_eq_one.mp hshare).1 ha .poller

/-! ## The steps of `ReadinessQueue::drop` -/

omit [DecidableEq ι] in
theorem Shares.Ok.dropPoll (h : s.Ok) (hlive : s.stage = .live) (hnone : s.releasing = none)
    (hidle : s.regs.polling.poller = .idle) (hborrowed : ∀ i a, ¬ s.Updating i a) :
    ({ s with stage := .closing .start } : Shares ι α J).Ok := by
  refine ⟨?_, ?_, { h.words with }, h.accounts.same rfl rfl rfl rfl rfl rfl rfl fun _ => .inl⟩
  · obtain ⟨howned, -⟩ := h.at_.owned hlive
    exact .closing .start rfl trivial howned hidle hnone (fun hp => absurd rfl hp) (by simp)
  · exact h.doings.same rfl rfl rfl rfl h.doings.runs fun j b hu => absurd hu (hborrowed j b)

omit [DecidableEq ι] in
theorem Shares.Ok.closes (h : s.Ok) (hstage : s.stage ≠ .live) {p : PollStage α} {q : Queue ι α}
    (hproducers : q.producers = s.regs.polling.queue.producers)
    (hat : ({ s.setQueue q with stage := p } : Shares ι α J).At) :
    ({ s.setQueue q with stage := p } : Shares ι α J).Ok := by
  refine ⟨hat, ?_, { h.words with }, h.accounts.same rfl rfl rfl rfl rfl rfl rfl fun _ => .inl⟩
  refine h.doings.same rfl rfl rfl rfl h.doings.runs fun j b hu => ?_
  have hold : s.Updating j b := hu.congr rfl (idle_other rfl (congrFun hproducers j))
  exact absurd (h.doings.borrows j b hold).2 hstage

theorem Shares.Ok.takes (h : s.Ok) {q : Queue ι α} (hstage : s.stage = .draining)
    (hnone : s.releasing = none) (howns : s.regs.Owns a .queue)
    (hproducers : q.producers = s.regs.polling.queue.producers)
    (hd : ((s.setQueue q).letGo a).regs.Draining none) :
    ({ (s.setQueue q).letGo a with releasing := some a } : Shares ι α J).Ok := by
  have hlive : s.stage ≠ .live := by simp [hstage]
  obtain ⟨hshare, -⟩ := h.share_eq howns (by simp)
  refine ⟨.draining hstage hd, ?_, ?_, ?_⟩
  · refine h.doings.same rfl rfl rfl rfl h.doings.runs fun j b hu => ?_
    have hold : s.Updating j b := hu.congr rfl (idle_other rfl (congrFun hproducers j))
    exact absurd (h.doings.borrows j b hold).2 hlive
  · refine h.words.lets (share_eq_one.mp hshare).1 rfl rfl rfl rfl (fun _ => rfl) (fun b => ?_)
      fun b => ?_
    · show Function.update s.regs.released a true b = true ↔ _
      by_cases hb : b = a
      · simp [hb]
      · simp [hb]
    · show b ∈ s.releases.map Prod.fst ∨ some a = some b ↔ _
      rw [hnone, Option.some.injEq]
      simp [eq_comm]
  · refine h.accounts.same rfl rfl rfl rfl rfl rfl rfl fun b hb => .inr ?_
    obtain rfl : a = b := Option.some.inj hb
    exact ⟨hshare, h.doings.not_owed hlive a⟩

/-- **An access of `ReadinessQueue::drop` to the queue.** -/
theorem Shares.Ok.close (h : s.Ok) (hs : s.closeStep = some s')
    (hlinked : s.stage = .draining → s.regs.polling.queue.consumer = .dequeueTail none →
      s.regs.polling.queue.tail.isData = false →
      s.regs.polling.queue.mem.next s.regs.polling.queue.tail = none →
      s.regs.polling.queue.tail = .closedMarker) : s'.Ok := by
  unfold Shares.closeStep at hs
  dsimp only at hs
  cases h.at_ with
  | live hl =>
    rw [hl] at hs
    cases hs
  | closing phase hc hwaiting howned hidle hr hcleared hopen =>
    have hlive : s.stage ≠ .live := by simp [hc]
    simp only [hc] at hs
    cases phase with
    | start =>
      obtain rfl := Option.some.inj hs
      have hnow : Function.update s.regs.polling.queue.mem.next (.closedMarker : Ptr α) none
          .closedMarker = none := Function.update_self ..
      refine h.closes hlive rfl ?_
      exact .closing .load rfl trivial (howned.clearClosed hidle) hidle hr (fun _ => hnow) (by simp)
    | load =>
      obtain rfl := Option.some.inj hs
      refine h.closes (q := s.regs.polling.queue) hlive rfl ?_
      refine .closing (.exchange s.regs.polling.queue.mem.head) rfl trivial howned hidle hr
        (fun _ => hcleared (by simp)) fun he => ?_
      obtain ⟨nodes, hsound⟩ := howned.sound
      exact hsound.head_ne_closed (Phase.exchange.inj he)
    | exchange prev =>
      have hprev : prev ≠ .closedMarker := fun he => hopen (he ▸ rfl)
      by_cases hhead : s.regs.polling.queue.mem.head = prev
      · simp only [enqueueNode, hprev, hhead, if_true, if_false] at hs
        obtain rfl := Option.some.inj hs
        refine h.closes hlive rfl ?_
        exact .swapped prev rfl (hhead ▸ howned.close hidle (hcleared (by simp))) hr
      · simp only [enqueueNode, hprev, hhead, if_false] at hs
        obtain rfl := Option.some.inj hs
        refine h.closes (q := s.regs.polling.queue) hlive rfl ?_
        refine .closing (.exchange s.regs.polling.queue.mem.head) rfl trivial howned hidle hr
          (fun _ => hcleared (by simp)) fun he => ?_
        obtain ⟨nodes, hsound⟩ := howned.sound
        exact hsound.head_ne_closed (Phase.exchange.inj he)
    | link prev => exact hwaiting.elim
  | swapped prev hc hd hr =>
    have hlive : s.stage ≠ .live := by simp [hc]
    simp only [hc, enqueueNode] at hs
    obtain ⟨q, hq, rfl⟩ := Option.map_eq_some_iff.mp hs
    refine h.closes hlive ?_ (.draining rfl (hd.link.call hq))
    obtain ⟨-, hcall⟩ := queueStep_call rfl hq
    obtain rfl := Option.some.inj hcall
    rfl
  | draining hstage hd =>
    have hlive : s.stage ≠ .live := by simp [hstage]
    cases hr : s.releasing with
    | some a => simp [hstage, hr] at hs
    | none =>
      simp only [hstage, hr] at hs
      obtain ⟨q, hq, hs⟩ := Option.bind_eq_some_iff.mp hs
      unfold Shares.dropped at hs
      have hdata : ∀ ptr, q.consumer = .returned (.dequeue (.data ptr)) → ptr.isData = true := by
        intro ptr hc
        cases ptr with
        | data a => rfl
        | _ =>
          rw [hc] at hs
          cases hs
      obtain ⟨hproducers, hempty, hmove⟩ := hd.consumer hq (hlinked hstage) hdata
      rcases hmove with ⟨hnot, hd'⟩ | ⟨a, hret, howns, hd'⟩
      · split at hs
        · rename_i hc
          obtain rfl := Option.some.inj hs
          exact h.closes hlive hproducers (.gone rfl hd' (hempty hc) hr)
        · obtain ⟨q', hq', rfl⟩ := Option.map_eq_some_iff.mp hs
          refine h.closes (p := s.stage) hlive ?_ (.draining hstage (hd'.call hq'))
          obtain ⟨-, hcall⟩ := queueStep_call rfl hq'
          obtain rfl := Option.some.inj hcall
          exact hproducers
        · rename_i hc
          exact absurd hc (hnot _)
        · cases hs
        · obtain rfl := Option.some.inj hs
          exact h.closes (p := s.stage) hlive hproducers (.draining hstage hd')
      · rw [hret] at hs
        obtain rfl := Option.some.inj hs
        exact h.takes hstage hr howns hproducers hd'
  | gone hg =>
    rw [hg] at hs
    cases hs

theorem Shares.Ok.drains (h : s.Ok) {q : Queue ι α} (hstage : s.stage = .draining)
    (ha : s.releasing = some a)
    (hq : queueStep s.regs.polling.queue (.dequeueNode none) = some q) :
    ({ (s.setQueue q).releaseShare a .drop with releasing := none } : Shares ι α J).Ok := by
  have hlive : s.stage ≠ .live := by simp [hstage]
  obtain ⟨hshare, howed⟩ := h.accounts.releasing a ha
  have hd : s.regs.Draining none := by
    cases h.at_ with
    | draining _ hd => exact hd
    | live hc | closing _ hc | swapped _ hc => cases hstage.symm.trans hc
    | gone hc => cases hstage.symm.trans hc
  have hmoved : (s.setQueue q).Accounts :=
    h.accounts.same rfl rfl rfl rfl rfl rfl rfl fun _ => .inl
  have hwords : (s.setQueue q).Words := { h.words with }
  refine ⟨.draining hstage (hd.call hq), ?_, hwords.release (share_eq_one.mp hshare).1 ha .drop,
    hmoved.release hshare howed .drop fun b hb => by cases hb⟩
  refine h.doings.same rfl rfl rfl rfl h.doings.runs fun j b hu => ?_
  have hold : s.Updating j b := by
    refine hu.congr rfl (idle_other rfl ?_)
    obtain ⟨-, hcall⟩ := queueStep_call rfl hq
    obtain rfl := Option.some.inj hcall
    rfl
  exact absurd (h.doings.borrows j b hold).2 hlive

end Invariant

end MyMio

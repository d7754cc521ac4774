import MyMio.Foundations.StepSystem
import MyMio.Selector.Epoll

/-! # Dispatch routing

What the selector is for, in its own terms, is a `Registry`: for each registered fd the job of its
`register` and the token entry of its latest `register` or `reregister`. `expected` is what a batch
of kernel reports should be turned into. `select` works from two other tables, the kernel's user
data and `events_map`; `InSync` says that for every fd the three agree, and that the user data leads
back to the fd itself.

`register` and `deregister` keep `InSync`. `reregister` stores the token's number where `select` reads an
fd, and does not touch the map entry, so it keeps `InSync` only when the two happen to be what they
were (`StoresOwnFd`).
-/

namespace MyMio
set_option autoImplicit false

open StepSystem

universe u

variable {J : Type u}

/-! ## The abstract registry -/

structure Registered (J : Type u) where
  job : J
  tokenEntry : TokenEntry

abbrev Registry (J : Type u) := RawFd → Option (Registered J)

/-- A readiness report of the kernel: an fd and its own event mask. -/
abbrev Report := RawFd × BitVec 32

/-- The job entry a report should become. -/
def expectedEntry (registry : Registry J) (report : Report) : Option (JobEntry J) :=
  (registry report.1).bind fun r =>
    if r.tokenEntry.ttype = .notifyEvent then none
    else some ⟨r.tokenEntry, r.job, epollToReady report.2⟩

def expected (registry : Registry J) (reports : List Report) : List (JobEntry J) :=
  reports.filterMap (expectedEntry registry)

/-! ## Runs -/

/-- A selector and the registry its successful calls describe. -/
structure Dispatcher (J : Type u) where
  sel : Selector J
  registry : Registry J

namespace Dispatcher

def new (id : Usize) : Dispatcher J := ⟨Selector.new id, fun _ => none⟩

end Dispatcher

inductive SelectorOp (J : Type u)
  | register (fd : RawFd) (token : TokenEntry) (interests : Ready) (opts : PollOpt) (job : J)
  | reregister (fd : RawFd) (token : TokenEntry) (interests : Ready) (opts : PollOpt)
  | deregister (fd : RawFd)
  | select (evts : Events J) (reports : List Report)

/-- The events `epoll_wait` fills in for reports: each carries the user data of its fd. Only
registered fds are reported. -/
def kernelEvents (list : InterestList) (reports : List Report) : List EpollEvent :=
  reports.filterMap fun report => (list report.1).map fun info => ⟨report.2, info.u64⟩

/-- One successful call; `none` when the call returns an error. -/
def dispatchStep (d : Dispatcher J) : SelectorOp J → Option (Dispatcher J)
  | .register fd token interests opts job =>
    match d.sel.register fd token interests opts job false with
    | (sel, .ok ()) => some ⟨sel, Function.update d.registry fd (some ⟨job, token⟩)⟩
    | (_, .error _) => none
  | .reregister fd token interests opts =>
    match d.sel.reregister fd token interests opts false with
    | (sel, .ok ()) => some ⟨sel, Function.update d.registry fd
        ((d.registry fd).map fun r => { r with tokenEntry := token })⟩
    | (_, .error _) => none
  | .deregister fd =>
    match d.sel.deregister fd false with
    | (sel, .ok ()) => some ⟨sel, Function.update d.registry fd none⟩
    | (_, .error _) => none
  | .select evts reports =>
    some { d with sel := (d.sel.select evts (kernelEvents d.sel.interestList reports)).1 }

/-- A `reregister` whose token is numbered like its fd and equal to the one already in the map. -/
def StoresOwnFd (d : Dispatcher J) : SelectorOp J → Prop
  | .reregister fd token _ _ =>
    fdOfUserData token.token.val = fd ∧
      (d.sel.eventsMap fd).map JobEntry.tokenEntry = some token
  | _ => True

/-! ## The tables agree -/

/-- What the three tables say about one fd. -/
inductive SyncAt (fd : RawFd) : Option EpollEvent → Option (JobEntry J) → Option (Registered J) → Prop
  | absent : SyncAt fd none none none
  | present {info : EpollEvent} {entry : JobEntry J} {r : Registered J} :
      fdOfUserData info.u64 = fd → entry.job = r.job → entry.tokenEntry = r.tokenEntry →
      SyncAt fd (some info) (some entry) (some r)

/-- The interest list, the map and the registry agree on every fd. -/
def InSync (list : InterestList) (map : RawFd → Option (JobEntry J)) (registry : Registry J) : Prop :=
  ∀ fd, SyncAt fd (list fd) (map fd) (registry fd)

theorem SyncAt.unregistered {fd : RawFd} {entry : Option (JobEntry J)} {r : Option (Registered J)}
    (h : SyncAt fd none entry r) : r = none := by
  cases h
  rfl

theorem InSync.update {list : InterestList} {map : RawFd → Option (JobEntry J)}
    {registry : Registry J} (h : InSync list map registry) (fd : RawFd) {info : Option EpollEvent}
    {entry : Option (JobEntry J)} {r : Option (Registered J)} (hfd : SyncAt fd info entry r) :
    InSync (Function.update list fd info) (Function.update map fd entry)
      (Function.update registry fd r) := by
  intro fd'
  by_cases hne : fd' = fd
  · subst hne
    simpa using hfd
  · simpa [Function.update_of_ne hne] using h fd'

theorem InSync.setReady {list : InterestList} {map : RawFd → Option (JobEntry J)}
    {registry : Registry J} (h : InSync list map registry) {fd : RawFd} {entry : JobEntry J}
    (he : map fd = some entry) (ready : Ready) :
    InSync list (Function.update map fd (some { entry with ready := ready })) registry := by
  intro fd'
  by_cases hne : fd' = fd
  · subst hne
    have hat := h fd'
    rw [he] at hat
    rw [Function.update_self]
    cases hl : list fd' with
    | none => rw [hl] at hat; cases hat
    | some info =>
      cases hr : registry fd' with
      | none => rw [hl, hr] at hat; cases hat
      | some r =>
        rw [hl, hr] at hat
        obtain ⟨⟩ | ⟨hd, hj, ht⟩ := hat
        exact .present hd hj ht
  · simpa [Function.update_of_ne hne] using h fd'

/-! ## The loop of `select` -/

namespace Selector

/-- One reported event: the entry it appends is the one the registry asks for. -/
theorem scanEvent_sync {list : InterestList} {registry : Registry J} {acc : Scan J}
    (h : InSync list acc.eventsMap registry) (i : ℕ) {report : Report} {info : EpollEvent}
    (hinfo : list report.1 = some info) :
    InSync list (scanEvent acc i ⟨report.2, info.u64⟩).eventsMap registry ∧
    (scanEvent acc i ⟨report.2, info.u64⟩).entries.items =
      acc.entries.items ++ (expectedEntry registry report).toList := by
  obtain ⟨fd, mask⟩ := report
  have hat := h fd
  rw [hinfo] at hat
  cases hm : acc.eventsMap fd with
  | none => rw [hm] at hat; cases hat
  | some entry =>
    cases hr : registry fd with
    | none => rw [hm, hr] at hat; cases hat
    | some r =>
      rw [hm, hr] at hat
      obtain ⟨⟩ | ⟨hd, hj, ht⟩ := hat
      unfold scanEvent
      simp only [hd, hm, expectedEntry, hr, Option.bind_some, ← ht, ← hj]
      by_cases hn : entry.tokenEntry.ttype = .notifyEvent
      · simp only [hn, if_true]
        exact ⟨h, by simp⟩
      · simp only [hn, if_false]
        exact ⟨h.setReady hm _, by simp⟩

theorem scan_sync {list : InterestList} {registry : Registry J} (reports : List Report) :
    ∀ (acc : Scan J) (i : ℕ), InSync list acc.eventsMap registry →
      InSync list (scan acc i (kernelEvents list reports)).eventsMap registry ∧
      (scan acc i (kernelEvents list reports)).entries.items =
        acc.entries.items ++ expected registry reports := by
  induction reports with
  | nil => exact fun acc i h => ⟨h, by simp [kernelEvents, scan, expected]⟩
  | cons report reports ih =>
    intro acc i h
    have hat := h report.1
    cases hl : list report.1 with
    | none =>
      -- an fd the kernel does not know is not reported
      rw [hl] at hat
      have hreg : registry report.1 = none := hat.unregistered
      have hk : kernelEvents list (report :: reports) = kernelEvents list reports := by
        simp [kernelEvents, hl]
      have hx : expected registry (report :: reports) = expected registry reports := by
        simp [expected, expectedEntry, hreg]
      rw [hk, hx]
      exact ih acc i h
    | some info =>
      have hk : kernelEvents list (report :: reports) =
          ⟨report.2, info.u64⟩ :: kernelEvents list reports := by
        simp [kernelEvents, hl]
      obtain ⟨hs, he⟩ := scanEvent_sync h i hl
      obtain ⟨hs', he'⟩ := ih (scanEvent acc i ⟨report.2, info.u64⟩) (i + 1) hs
      rw [hk]
      refine ⟨hs', ?_⟩
      calc (scan acc i (⟨report.2, info.u64⟩ :: kernelEvents list reports)).entries.items
          = (scanEvent acc i ⟨report.2, info.u64⟩).entries.items ++ expected registry reports := he'
        _ = acc.entries.items ++ expected registry (report :: reports) := by
          rw [he, List.append_assoc]
          cases hx : expectedEntry registry report <;> simp [expected, hx]

theorem select_sync {list : InterestList} {registry : Registry J} {sel : Selector J}
    (h : InSync list sel.eventsMap registry) (evts : Events J) (reports : List Report) :
    InSync list (sel.select evts (kernelEvents list reports)).1.eventsMap registry ∧
    (sel.select evts (kernelEvents list reports)).2.1.entries.items = expected registry reports := by
  obtain ⟨hs, he⟩ := scan_sync reports ⟨sel.eventsMap, evts.clear.entries, 0, false⟩ 0 h
  have hclear : evts.clear.entries.items = [] := rfl
  simp only [hclear, List.nil_append] at he
  unfold select
  simp only
  split <;> exact ⟨hs, he⟩

theorem select_interestList (sel : Selector J) (evts : Events J) (answer : List EpollEvent) :
    (sel.select evts answer).1.interestList = sel.interestList := by
  unfold select
  simp only
  split <;> rfl

end Selector

/-! ## The calls keep the tables in agreement -/

theorem register_sync {d d' : Dispatcher J} {fd : RawFd} {token : TokenEntry} {interests : Ready}
    {opts : PollOpt} {job : J} (h : InSync d.sel.interestList d.sel.eventsMap d.registry)
    (hd : dispatchStep d (.register fd token interests opts job) = some d') :
    InSync d'.sel.interestList d'.sel.eventsMap d'.registry := by
  cases hl : d.sel.interestList fd with
  | some info => simp [dispatchStep, Selector.register, epollCtl, hl] at hd
  | none =>
    simp only [dispatchStep, Selector.register, epollCtl, hl, Bool.false_eq_true, if_false] at hd
    obtain rfl := Option.some.inj hd
    exact h.update fd (.present (fdOfUserData_userDataOfFd fd) rfl rfl)

theorem deregister_sync {d d' : Dispatcher J} {fd : RawFd}
    (h : InSync d.sel.interestList d.sel.eventsMap d.registry)
    (hd : dispatchStep d (.deregister fd) = some d') :
    InSync d'.sel.interestList d'.sel.eventsMap d'.registry := by
  cases hl : d.sel.interestList fd with
  | none => simp [dispatchStep, Selector.deregister, epollCtl, hl] at hd
  | some info =>
    simp only [dispatchStep, Selector.deregister, epollCtl, hl, Bool.false_eq_true, if_false] at hd
    obtain rfl := Option.some.inj hd
    exact h.update fd .absent

theorem reregister_sync {d d' : Dispatcher J} {fd : RawFd} {token : TokenEntry} {interests : Ready}
    {opts : PollOpt} (h : InSync d.sel.interestList d.sel.eventsMap d.registry)
    (hok : StoresOwnFd d (.reregister fd token interests opts))
    (hd : dispatchStep d (.reregister fd token interests opts) = some d') :
    InSync d'.sel.interestList d'.sel.eventsMap d'.registry := by
  obtain ⟨hfd, htoken⟩ := hok
  have hat := h fd
  cases hl : d.sel.interestList fd with
  | none => simp [dispatchStep, Selector.reregister, epollCtl, hl] at hd
  | some info =>
    simp only [dispatchStep, Selector.reregister, epollCtl, hl, Bool.false_eq_true, if_false] at hd
    obtain rfl := Option.some.inj hd
    rw [hl] at hat
    obtain ⟨entry, hm, rfl⟩ := Option.map_eq_some_iff.mp htoken
    rw [hm] at hat
    cases hr : d.registry fd with
    | none => rw [hr] at hat; cases hat
    | some r =>
      rw [hr] at hat
      obtain ⟨⟩ | ⟨-, hj, -⟩ := hat
      have hnew : SyncAt fd (some ⟨ioeventToEpoll interests opts, entry.tokenEntry.token.val⟩)
          (some entry) (some { r with tokenEntry := entry.tokenEntry }) := .present hfd hj rfl
      have hsync := h.update fd hnew
      have hsame : Function.update d.sel.eventsMap fd (some entry) = d.sel.eventsMap := by
        rw [← hm, Function.update_eq_self]
      rw [hsame] at hsync
      exact hsync

theorem dispatchStep_sync {d d' : Dispatcher J} {op : SelectorOp J}
    (h : InSync d.sel.interestList d.sel.eventsMap d.registry) (hok : StoresOwnFd d op)
    (hd : dispatchStep d op = some d') :
    InSync d'.sel.interestList d'.sel.eventsMap d'.registry := by
  cases op with
  | register fd token interests opts job => exact register_sync h hd
  | reregister fd token interests opts => exact reregister_sync h hok hd
  | deregister fd => exact deregister_sync h hd
  | select evts reports =>
    obtain rfl := Option.some.inj hd
    rw [Selector.select_interestList]
    exact (Selector.select_sync h evts reports).1

/-! ## Routing -/

/-- **Dispatch routing.** After any run of successful calls each of whose `reregister`s stores its
own fd, `select` appends for every list of reports exactly the entries the registry asks for. -/
theorem select_dispatches (id : Usize) (d : Dispatcher J)
    (hd : ReachableIf dispatchStep StoresOwnFd (· = Dispatcher.new id) d) (evts : Events J)
    (reports : List Report) :
    (d.sel.select evts (kernelEvents d.sel.interestList reports)).2.1.entries.items =
      expected d.registry reports := by
  have hsync := hd.invariant
    (P := fun d => InSync d.sel.interestList d.sel.eventsMap d.registry)
    (fun d hinit fd => by subst hinit; exact .absent)
    (fun d op d' => dispatchStep_sync)
  exact (Selector.select_sync hsync evts reports).2

/-- A client re-armed for writing under a token numbered like its fd. -/
theorem select_dispatches_rearmed :
    ∃ d : Dispatcher ℕ, run dispatchStep (Dispatcher.new 0)
        [.register 3 ⟨.socketEvent, ⟨3⟩⟩ Ready.readable PollOpt.edge 7,
          .reregister 3 ⟨.socketEvent, ⟨3⟩⟩ Ready.writable PollOpt.edge] = some d ∧
      (d.sel.select (Events.withCapacity 8)
          (kernelEvents d.sel.interestList [(3, EPOLLOUT)])).2.1.entries.items =
        [⟨⟨.socketEvent, ⟨3⟩⟩, 7, Ready.writable⟩] :=
  ⟨_, rfl, (select_dispatches 0 _
    (.next (.reregister 3 ⟨.socketEvent, ⟨3⟩⟩ Ready.writable PollOpt.edge)
      (.next (.register 3 ⟨.socketEvent, ⟨3⟩⟩ Ready.readable PollOpt.edge 7)
        (.start rfl) trivial rfl) ⟨by decide, rfl⟩ rfl) _ _).trans (by decide)⟩

/-- The event of fd 3, re-armed under token 4, runs the job of fd 4. -/
theorem reregister_misroutes :
    ∃ d : Dispatcher ℕ, run dispatchStep (Dispatcher.new 0)
        [.register 3 ⟨.socketEvent, ⟨1⟩⟩ Ready.readable PollOpt.edge 7,
          .register 4 ⟨.socketEvent, ⟨2⟩⟩ Ready.readable PollOpt.edge 8,
          .reregister 3 ⟨.socketEvent, ⟨4⟩⟩ Ready.readable PollOpt.edge] = some d ∧
      (d.sel.select (Events.withCapacity 8)
          (kernelEvents d.sel.interestList [(3, EPOLLIN)])).2.1.entries.items =
        [⟨⟨.socketEvent, ⟨2⟩⟩, 8, Ready.readable⟩] ∧
      expected d.registry [(3, EPOLLIN)] = [⟨⟨.socketEvent, ⟨4⟩⟩, 7, Ready.readable⟩] :=
  ⟨_, rfl, by decide, by decide⟩

end MyMio

import Mathlib.Data.List.Basic
import MyMio.Selector.Dispatch

/-! # Descriptors that are closed

Streams are dropped without `deregister`: a stream whose connect attempt fails, any handle the user lets
go of. The kernel then takes the fd out of the interest list by itself, and `events_map` keeps the entry
until the number is registered again. More exactly, epoll watches the open file behind the fd, together
with the number it was added under, and drops the pair when the last descriptor of the file is closed.
`try_clone` makes another descriptor of the same file.

A pair whose number is closed while a clone lives on would be reported under a number that may mean
another file by now (`clone_misroutes`). As long as that does not happen, `select` routes every report to
the registration it belongs to, whatever entries the dropped streams have left behind
(`select_routes_after_close`).
-/

namespace MyMio
set_option autoImplicit false

open StepSystem

universe u v

/-! ## A process -/

/-- The open descriptors, each with the file behind it; what epoll watches, by file and number; the map
of the selector. `registry` is what the successful calls describe. -/
structure Descriptors (F : Type v) (J : Type u) where
  fds : List (RawFd × F)
  interest : F → InterestList
  id : Usize
  eventsMap : RawFd → Option (JobEntry J)
  registry : F → Registry J

inductive DescriptorOp (F : Type v) (J : Type u)
  | open (fd : RawFd) (f : F)
  | tryClone (fd fd' : RawFd)
  | close (fd : RawFd)
  | register (fd : RawFd) (token : TokenEntry) (interests : Ready) (opts : PollOpt) (job : J)
      (refused : Bool)
  | reregister (fd : RawFd) (token : TokenEntry) (interests : Ready) (opts : PollOpt) (refused : Bool)
  | deregister (fd : RawFd) (refused : Bool)
  | select (evts : Events J) (reports : List (F × Report))

namespace Descriptors
variable {F : Type v} {J : Type u}

def new (id : Usize) : Descriptors F J := ⟨[], fun _ _ => none, id, fun _ => none, fun _ _ => none⟩

def file (d : Descriptors F J) (fd : RawFd) : Option F := d.fds.lookup fd

/-- The interest list as `epoll_ctl` sees it through the open descriptors. -/
def interestList (d : Descriptors F J) : InterestList := fun fd =>
  (d.file fd).bind fun f => d.interest f fd

def selector (d : Descriptors F J) : Selector J := ⟨d.id, d.interestList, d.eventsMap⟩

/-- The events `epoll_wait` fills in for reports of what it watches. -/
def kernelEvents (d : Descriptors F J) (reports : List (F × Report)) : List EpollEvent :=
  reports.filterMap fun report =>
    (d.interest report.1 report.2.1).map fun info => ⟨report.2.2, info.u64⟩

/-- The job entries they should become. -/
def expected (d : Descriptors F J) (reports : List (F × Report)) : List (JobEntry J) :=
  reports.filterMap fun report => expectedEntry (d.registry report.1) report.2

variable [DecidableEq F]

/-- A call for `fd` has left the selector so, and for this fd the registry. -/
def after (d : Descriptors F J) (fd : RawFd) (sel : Selector J) (r : Option (Registered J)) :
    Descriptors F J :=
  match d.file fd with
  | none => { d with eventsMap := sel.eventsMap }
  | some f => { d with
      interest := Function.update d.interest f (Function.update (d.interest f) fd (sel.interestList fd))
      eventsMap := sel.eventsMap
      registry := Function.update d.registry f (Function.update (d.registry f) fd r) }

/-- What the registry holds for a descriptor. -/
def registered (d : Descriptors F J) (fd : RawFd) : Option (Registered J) :=
  (d.file fd).bind fun f => d.registry f fd

/-- No other descriptor has the file. -/
def lastOf (d : Descriptors F J) (fd : RawFd) (f : F) : Bool :=
  (d.fds.filter fun e => e.1 ≠ fd).all fun e => e.2 ≠ f

def close (d : Descriptors F J) (fd : RawFd) : Option (Descriptors F J) :=
  (d.file fd).map fun f =>
    let d' := { d with fds := d.fds.filter fun e => e.1 ≠ fd }
    if d.lastOf fd f then { d' with
      interest := Function.update d.interest f fun _ => none
      registry := Function.update d.registry f fun _ => none }
    else d'

end Descriptors

variable {F : Type v} {J : Type u} [DecidableEq F]

/-- A call for a number that is not open is refused. A call that fails leaves what it leaves. -/
def descriptorStep (d : Descriptors F J) : DescriptorOp F J → Option (Descriptors F J)
  | .open fd f =>
    if (d.file fd).isNone ∧ d.fds.all (fun e => e.2 ≠ f) then some { d with fds := (fd, f) :: d.fds }
    else none
  | .tryClone fd fd' =>
    if (d.file fd').isNone then (d.file fd).map fun f => { d with fds := (fd', f) :: d.fds } else none
  | .close fd => d.close fd
  | .register fd token interests opts job refused =>
    match d.selector.register fd token interests opts job (refused || (d.file fd).isNone) with
    | (sel, .ok ()) => some (d.after fd sel (some ⟨job, token⟩))
    | (sel, .error _) => some (d.after fd sel (d.registered fd))
  | .reregister fd token interests opts refused =>
    match d.selector.reregister fd token interests opts (refused || (d.file fd).isNone) with
    | (sel, .ok ()) => some (d.after fd sel
        ((d.registered fd).map fun r => { r with tokenEntry := token }))
    | (sel, .error _) => some (d.after fd sel (d.registered fd))
  | .deregister fd refused =>
    match d.selector.deregister fd (refused || (d.file fd).isNone) with
    | (sel, .ok ()) => some (d.after fd sel none)
    | (sel, .error _) => some (d.after fd sel (d.registered fd))
  | .select evts reports =>
    some { d with eventsMap := (d.selector.select evts (d.kernelEvents reports)).1.eventsMap }

/-- A registered fd is not registered again, and not closed while a clone keeps its file open; a
`reregister` that succeeds passes the fd for its token, as in `StoresOwnFd`, and the token entry that the
map has for it, which it does not change. -/
def Careful (d : Descriptors F J) : DescriptorOp F J → Prop
  | .close fd => ∀ f, d.file fd = some f → d.interest f fd = none ∨ d.lastOf fd f = true
  | .register fd _ _ _ _ _ => d.interestList fd = none
  | .reregister fd token _ _ refused => refused = false → d.interestList fd ≠ none →
    fdOfUserData token.token.val = fd ∧ (d.eventsMap fd).map JobEntry.tokenEntry = some token
  | _ => True

/-! ## The loop of `select` -/

/-- An entry without the readiness `select` writes into it. -/
def JobEntry.registered (entry : JobEntry J) : Registered J := ⟨entry.job, entry.tokenEntry⟩

/-- The map without the readiness. -/
def callbacks (map : RawFd → Option (JobEntry J)) : Registry J := fun fd =>
  (map fd).map JobEntry.registered

/-- The report an event makes to someone who reads an fd in its user data. -/
def EpollEvent.report (event : EpollEvent) : Report := (fdOfUserData event.u64, event.events)

namespace Selector

theorem scanEvent_callbacks (acc : Scan J) (i : ℕ) (event : EpollEvent) :
    callbacks (scanEvent acc i event).eventsMap = callbacks acc.eventsMap ∧
      (scanEvent acc i event).entries.items =
        acc.entries.items ++ (expectedEntry (callbacks acc.eventsMap) event.report).toList := by
  unfold scanEvent expectedEntry callbacks EpollEvent.report
  dsimp only
  cases hentry : acc.eventsMap (fdOfUserData event.u64) with
  | none => simp
  | some entry =>
    simp only [Option.map_some, Option.bind_some]
    by_cases hnotify : entry.tokenEntry.ttype = .notifyEvent
    · simp [hnotify, JobEntry.registered]
    · simp only [hnotify, if_false, JobEntry.registered]
      refine ⟨funext fun fd => ?_, by simp⟩
      by_cases hfd : fd = fdOfUserData event.u64
      · subst hfd
        simp [hentry, JobEntry.registered]
      · simp [Function.update_of_ne hfd]

theorem scan_callbacks (answer : List EpollEvent) : ∀ (acc : Scan J) (i : ℕ),
    callbacks (scan acc i answer).eventsMap = callbacks acc.eventsMap ∧
      (scan acc i answer).entries.items = acc.entries.items ++
        MyMio.expected (callbacks acc.eventsMap) (answer.map EpollEvent.report) := by
  induction answer with
  | nil => exact fun acc i => ⟨rfl, by simp [scan, MyMio.expected]⟩
  | cons event answer ih =>
    intro acc i
    obtain ⟨hmap, hitems⟩ := scanEvent_callbacks acc i event
    obtain ⟨hmap', hitems'⟩ := ih (scanEvent acc i event) (i + 1)
    refine ⟨hmap'.trans hmap, ?_⟩
    rw [scan, hitems', hmap, hitems, List.append_assoc]
    cases hx : expectedEntry (callbacks acc.eventsMap) event.report <;> simp [MyMio.expected, hx]

/-- `select` turns the events into what the map holds for the fds in their user data, and the map keeps
its callbacks. -/
theorem select_callbacks (sel : Selector J) (evts : Events J) (answer : List EpollEvent) :
    callbacks (sel.select evts answer).1.eventsMap = callbacks sel.eventsMap ∧
      (sel.select evts answer).2.1.entries.items =
        MyMio.expected (callbacks sel.eventsMap) (answer.map EpollEvent.report) := by
  obtain ⟨hmap, hitems⟩ := scan_callbacks answer ⟨sel.eventsMap, evts.clear.entries, 0, false⟩ 0
  have hclear : evts.clear.entries.items = [] := rfl
  simp only [hclear, List.nil_append] at hitems
  unfold select
  simp only
  split <;> exact ⟨hmap, hitems⟩

end Selector

/-! ## What epoll watches is open, and the map knows it -/

/-- What the tables say about a file and a number: the file behind the number, what epoll watches, the
callback in the map, the registry. A number that is not watched may have any callback. -/
inductive RoutedAt (f : F) (fd : RawFd) :
    Option F → Option EpollEvent → Option (Registered J) → Option (Registered J) → Prop
  | absent {file : Option F} {callback : Option (Registered J)} : RoutedAt f fd file none callback none
  | present {info : EpollEvent} {r : Registered J} : fdOfUserData info.u64 = fd →
      RoutedAt f fd (some f) (some info) (some r) (some r)

namespace Descriptors

def Routed (d : Descriptors F J) : Prop :=
  ∀ f fd, RoutedAt f fd (d.file fd) (d.interest f fd) (callbacks d.eventsMap fd) (d.registry f fd)

end Descriptors

section Tables
variable {d d' : Descriptors F J} {f : F} {fd : RawFd}

omit [DecidableEq F] in
/-- Another file than the one behind the number, or the file behind a number that is not watched. -/
theorem RoutedAt.idle {file : Option F} {info : Option EpollEvent} {callback r : Option (Registered J)}
    (h : RoutedAt f fd file info callback r) (hidle : file ≠ some f ∨ info = none) :
    info = none ∧ r = none := by
  cases h with
  | absent => exact ⟨rfl, rfl⟩
  | present =>
    rcases hidle with hfile | hinfo
    · exact absurd rfl hfile
    · cases hinfo

omit [DecidableEq F] in
theorem RoutedAt.of_idle {file file' : Option F} {info : Option EpollEvent}
    {callback callback' r : Option (Registered J)} (h : RoutedAt f fd file info callback r)
    (hidle : file ≠ some f ∨ info = none) : RoutedAt f fd file' info callback' r := by
  obtain ⟨rfl, rfl⟩ := h.idle hidle
  exact .absent

omit [DecidableEq F] in
theorem lookup_filter (fds : List (RawFd × F)) (fd fd' : RawFd) :
    (fds.filter fun e => e.1 ≠ fd).lookup fd' = if fd' = fd then none else fds.lookup fd' := by
  induction fds with
  | nil => simp
  | cons e fds ih =>
    obtain ⟨k, f⟩ := e
    by_cases hk : k = fd
    · subst hk
      rw [List.filter_cons_of_neg (by simp), ih]
      by_cases hfd : fd' = k
      · simp [hfd]
      · simp [hfd, List.lookup_cons, beq_false_of_ne hfd]
    · rw [List.filter_cons_of_pos (by simpa using hk), List.lookup_cons, List.lookup_cons, ih]
      by_cases hfd : fd' = k
      · subst hfd
        simp [hk]
      · simp [beq_false_of_ne hfd]

omit [DecidableEq F] in
theorem Descriptors.Routed.descriptor (h : d.Routed) (hfree : (d.file fd).isNone = true) (f : F) :
    Descriptors.Routed { d with fds := (fd, f) :: d.fds } := by
  intro g fd'
  by_cases hfd : fd' = fd
  · subst hfd
    refine (h g fd').of_idle (.inl ?_)
    rw [Option.isNone_iff_eq_none.mp hfree]
    exact (Option.some_ne_none g).symm
  · have hfile : Descriptors.file { d with fds := (fd, f) :: d.fds } fd' = d.file fd' := by
      simp [Descriptors.file, List.lookup_cons, beq_false_of_ne hfd]
    rw [hfile]
    exact h g fd'

theorem Descriptors.Routed.close (h : d.Routed) (hd : d.close fd = some d')
    (hok : ∀ f, d.file fd = some f → d.interest f fd = none ∨ d.lastOf fd f = true) : d'.Routed := by
  obtain ⟨f, hfile, rfl⟩ := Option.map_eq_some_iff.mp hd
  have hlookup : ∀ fd', (d.fds.filter fun e => e.1 ≠ fd).lookup fd' =
      if fd' = fd then none else d.file fd' := lookup_filter d.fds fd
  have hother : ∀ g, g ≠ f → d.file fd ≠ some g ∨ d.interest g fd = none := by
    intro g hg
    refine .inl fun hsome => hg ?_
    exact Option.some.inj (hsome.symm.trans hfile)
  have hkeep : ∀ g fd', (fd' = fd → d.file fd ≠ some g ∨ d.interest g fd = none) →
      RoutedAt g fd' ((d.fds.filter fun e => e.1 ≠ fd).lookup fd') (d.interest g fd')
        (callbacks d.eventsMap fd') (d.registry g fd') := by
    intro g fd' hidle
    rw [hlookup]
    by_cases hfd : fd' = fd
    · subst hfd
      exact (h g fd').of_idle (hidle rfl)
    · rw [if_neg hfd]
      exact h g fd'
  intro g fd'
  by_cases hg : g = f
  · subst hg
    cases hlast : d.lastOf fd g with
    | true =>
      simp only [if_true, Function.update_self]
      exact .absent
    | false =>
      refine hkeep g fd' fun _ => .inr ((hok g hfile).resolve_right ?_)
      rw [hlast]
      decide
  · cases hlast : d.lastOf fd f with
    | true =>
      simp only [if_true, Function.update_of_ne hg]
      exact hkeep g fd' fun _ => hother g hg
    | false =>
      exact hkeep g fd' fun _ => hother g hg

/-- A call for a number: it only matters what it leaves there. -/
theorem Descriptors.Routed.after (h : d.Routed) {sel : Selector J} {r : Option (Registered J)}
    (hmap : ∀ fd', fd' ≠ fd → sel.eventsMap fd' = d.eventsMap fd')
    (hfd : ∀ f, d.file fd = some f →
      RoutedAt f fd (some f) (sel.interestList fd) (callbacks sel.eventsMap fd) r) :
    (d.after fd sel r).Routed := by
  have hcallbacks : ∀ fd', fd' ≠ fd → callbacks sel.eventsMap fd' = callbacks d.eventsMap fd' := by
    intro fd' hne
    unfold callbacks
    rw [hmap fd' hne]
  unfold Descriptors.after
  cases hfile : d.file fd with
  | none =>
    intro g fd'
    by_cases hne : fd' = fd
    · subst hne
      refine (h g fd').of_idle (.inl ?_)
      rw [hfile]
      exact (Option.some_ne_none g).symm
    · show RoutedAt g fd' (d.file fd') _ (callbacks sel.eventsMap fd') _
      rw [hcallbacks fd' hne]
      exact h g fd'
  | some f =>
    intro g fd'
    show RoutedAt g fd' (d.file fd') _ (callbacks sel.eventsMap fd') _
    by_cases hne : fd' = fd
    · subst hne
      by_cases hg : g = f
      · subst hg
        simp only [Function.update_self, hfile]
        exact hfd g hfile
      · simp only [Function.update_of_ne hg]
        refine (h g fd').of_idle (.inl fun hsome => hg ?_)
        exact Option.some.inj (hsome.symm.trans hfile)
    · rw [hcallbacks fd' hne]
      by_cases hg : g = f
      · subst hg
        simp only [Function.update_self, Function.update_of_ne hne]
        exact h g fd'
      · simp only [Function.update_of_ne hg]
        exact h g fd'

omit [DecidableEq F] in
/-- What the calls see of an open number. -/
theorem interestList_of_file (hfile : d.file fd = some f) : d.interestList fd = d.interest f fd := by
  unfold Descriptors.interestList
  rw [hfile]
  rfl

omit [DecidableEq F] in
theorem registered_of_file (hfile : d.file fd = some f) : d.registered fd = d.registry f fd := by
  unfold Descriptors.registered
  rw [hfile]
  rfl

omit [DecidableEq F] in
theorem Descriptors.Routed.at (h : d.Routed) (hfile : d.file fd = some f) :
    RoutedAt f fd (some f) (d.interestList fd) (callbacks d.eventsMap fd) (d.registered fd) := by
  rw [interestList_of_file hfile, registered_of_file hfile, ← hfile]
  exact h f fd

/-- A call that is refused by the kernel and has left the map as it was. -/
theorem Descriptors.Routed.refused (h : d.Routed) :
    (d.after fd d.selector (d.registered fd)).Routed :=
  h.after (fun _ _ => rfl) fun _ hfile => h.at hfile

end Tables

/-! ## The calls keep it so -/

section Calls
variable {d d' : Descriptors F J} {fd : RawFd} {token : TokenEntry} {interests : Ready} {opts : PollOpt}
  {job : J} {refused : Bool}

theorem Descriptors.Routed.register (h : d.Routed) (hfree : d.interestList fd = none)
    (hd : descriptorStep d (.register fd token interests opts job refused) = some d') : d'.Routed := by
  have hlist : d.selector.interestList fd = none := hfree
  have hmap : ∀ fd', fd' ≠ fd →
      Function.update d.eventsMap fd (some ⟨token, job, Ready.empty⟩) fd' = d.eventsMap fd' :=
    fun fd' hne => Function.update_of_ne hne _ _
  simp only [descriptorStep, Selector.register, epollCtl, hlist] at hd
  split at hd
  · rename_i sel hsel
    split at hsel
    · cases hsel
    · rename_i hgo
      split at hgo
      · cases hgo
      · obtain rfl := Except.ok.inj hgo
        obtain ⟨rfl, -⟩ := Prod.mk.inj hsel
        obtain rfl := Option.some.inj hd
        refine h.after hmap fun f _ => ?_
        simp only [Function.update_self, callbacks, Option.map_some]
        exact .present (fdOfUserData_userDataOfFd fd)
  · rename_i sel e hsel
    split at hsel
    · obtain ⟨rfl, -⟩ := Prod.mk.inj hsel
      obtain rfl := Option.some.inj hd
      exact h.after hmap fun f hfile => (h.at hfile).of_idle (.inr hfree)
    · cases hsel

theorem Descriptors.Routed.reregister (h : d.Routed)
    (hok : Careful d (.reregister fd token interests opts refused))
    (hd : descriptorStep d (.reregister fd token interests opts refused) = some d') : d'.Routed := by
  simp only [descriptorStep, Selector.reregister, epollCtl] at hd
  split at hd
  · rename_i sel hsel
    split at hsel
    · cases hsel
    · rename_i list hgo
      split at hgo
      · cases hgo
      · cases hlist : d.selector.interestList fd with
        | none =>
          simp only [hlist] at hgo
          cases hgo
        | some info =>
          rename_i hgiven
          have hinfo : d.interestList fd = some info := hlist
          rw [Bool.or_eq_true, not_or, Bool.not_eq_true] at hgiven
          obtain ⟨hown, htoken⟩ := hok hgiven.1 (by simp [hinfo])
          simp only [hlist] at hgo
          obtain rfl := Except.ok.inj hgo
          obtain ⟨rfl, -⟩ := Prod.mk.inj hsel
          obtain rfl := Option.some.inj hd
          refine h.after (fun _ _ => rfl) fun f hfile => ?_
          have hat := h.at hfile
          rw [hinfo] at hat
          simp only [Function.update_self]
          show RoutedAt f fd (some f) _ (callbacks d.eventsMap fd) _
          generalize hr : d.registered fd = registered at hat
          generalize hc : callbacks d.eventsMap fd = callback at hat
          cases hat with
          | present =>
            rename_i r _
            obtain ⟨entry, hentry, rfl⟩ := Option.map_eq_some_iff.mp hc
            rw [hentry] at htoken
            obtain rfl := Option.some.inj htoken
            exact .present hown
  · rename_i sel e hsel
    split at hsel
    · obtain ⟨rfl, -⟩ := Prod.mk.inj hsel
      obtain rfl := Option.some.inj hd
      exact h.refused
    · cases hsel

theorem Descriptors.Routed.deregister (h : d.Routed)
    (hd : descriptorStep d (.deregister fd refused) = some d') : d'.Routed := by
  simp only [descriptorStep, Selector.deregister, epollCtl] at hd
  split at hd
  · rename_i sel hsel
    split at hsel
    · cases hsel
    · rename_i list hgo
      split at hgo
      · cases hgo
      · cases hlist : d.selector.interestList fd with
        | none =>
          simp only [hlist] at hgo
          cases hgo
        | some info =>
          simp only [hlist] at hgo
          obtain rfl := Except.ok.inj hgo
          obtain ⟨rfl, -⟩ := Prod.mk.inj hsel
          obtain rfl := Option.some.inj hd
          refine h.after (fun fd' hne => Function.update_of_ne hne _ _) fun f _ => ?_
          simp only [Function.update_self]
          exact .absent
  · rename_i sel e hsel
    split at hsel
    · obtain ⟨rfl, -⟩ := Prod.mk.inj hsel
      obtain rfl := Option.some.inj hd
      exact h.refused
    · cases hsel

/-- **One step.** -/
theorem descriptorStep_routed {op : DescriptorOp F J} (h : d.Routed) (hok : Careful d op)
    (hd : descriptorStep d op = some d') : d'.Routed := by
  cases op with
  | «open» fd f =>
    simp only [descriptorStep] at hd
    split at hd
    · rename_i hfree
      obtain rfl := Option.some.inj hd
      exact h.descriptor hfree.1 f
    · cases hd
  | tryClone fd fd' =>
    simp only [descriptorStep] at hd
    split at hd
    · rename_i hfree
      obtain ⟨f, -, rfl⟩ := Option.map_eq_some_iff.mp hd
      exact h.descriptor hfree f
    · cases hd
  | close fd => exact h.close hd hok
  | register fd token interests opts job refused => exact h.register hok hd
  | reregister fd token interests opts refused => exact h.reregister hok hd
  | deregister fd refused => exact h.deregister hd
  | select evts reports =>
    obtain rfl := Option.some.inj hd
    intro f fd
    obtain ⟨hmap, -⟩ := d.selector.select_callbacks evts (d.kernelEvents reports)
    show RoutedAt f fd (d.file fd) (d.interest f fd)
      (callbacks (d.selector.select evts (d.kernelEvents reports)).1.eventsMap fd) (d.registry f fd)
    rw [hmap]
    exact h f fd

omit [DecidableEq F] in
/-- What epoll reports comes back as the registry has it. -/
theorem Descriptors.Routed.expected (h : d.Routed) (reports : List (F × Report)) :
    MyMio.expected (callbacks d.eventsMap) ((d.kernelEvents reports).map EpollEvent.report) =
      d.expected reports := by
  unfold MyMio.expected Descriptors.expected Descriptors.kernelEvents
  rw [List.map_filterMap, List.filterMap_filterMap]
  refine List.filterMap_congr fun report _ => ?_
  obtain ⟨f, fd, mask⟩ := report
  have hat := h f fd
  generalize d.file fd = file at hat
  generalize d.interest f fd = interest at hat
  generalize hc : callbacks d.eventsMap fd = callback at hat
  generalize hr : d.registry f fd = registered at hat
  cases hat with
  | absent => simp [expectedEntry, hr]
  | present hown =>
    simp only [Option.map_some, Option.bind_some, EpollEvent.report, hown, expectedEntry, hc, hr]

end Calls

/-- **Routing after close.** In every run of descriptors that are opened, cloned, closed without a word to
the selector, registered and deregistered, with calls that succeed or fail: epoll only watches files under
a number that still stands for them, and `select` turns each report into the entry of the registration it
belongs to. -/
theorem select_routes_after_close (id : Usize) (d : Descriptors F J)
    (hd : ReachableIf descriptorStep Careful (· = Descriptors.new id) d) (evts : Events J)
    (reports : List (F × Report)) :
    (∀ f fd info, d.interest f fd = some info → d.file fd = some f) ∧
      (d.selector.select evts (d.kernelEvents reports)).2.1.entries.items = d.expected reports := by
  have h : d.Routed := hd.invariant (fun d hinit f fd => by subst hinit; exact .absent)
    fun _ _ _ h hok hstep => descriptorStep_routed h hok hstep
  refine ⟨fun f fd info hinfo => ?_, ?_⟩
  · by_contra hfile
    obtain ⟨hnone, -⟩ := (h f fd).idle (.inl hfile)
    cases hnone.symm.trans hinfo
  · rw [(d.selector.select_callbacks evts (d.kernelEvents reports)).2]
    exact h.expected reports

/-- A stream is dropped, and its number comes back for another. -/
def droppedOps : List (DescriptorOp ℕ ℕ) :=
  [.open 3 0, .register 3 ⟨.socketEvent, ⟨1⟩⟩ Ready.readable PollOpt.edge 7 false, .close 3, .open 3 1,
    .register 3 ⟨.socketEvent, ⟨2⟩⟩ Ready.readable PollOpt.edge 8 false]

theorem select_routes_after_close_dropped :
    ∃ d : Descriptors ℕ ℕ, run descriptorStep (Descriptors.new 0) droppedOps = some d ∧
      (d.selector.select (Events.withCapacity 8) (d.kernelEvents [(1, 3, EPOLLIN)])).2.1.entries.items =
        [⟨⟨.socketEvent, ⟨2⟩⟩, 8, Ready.readable⟩] := by
  have hlast : ∀ d : Descriptors ℕ ℕ, d.file 3 = some 0 → d.lastOf 3 0 = true →
      Careful d (.close 3) := by
    intro d hfile hlast f hf
    obtain rfl := Option.some.inj (hfile.symm.trans hf)
    exact .inr hlast
  have hrun : ReachableIf descriptorStep Careful (· = Descriptors.new 0) _ :=
    .next (.register 3 ⟨.socketEvent, ⟨2⟩⟩ Ready.readable PollOpt.edge 8 false)
      (.next (.open 3 1)
        (.next (.close 3)
          (.next (.register 3 ⟨.socketEvent, ⟨1⟩⟩ Ready.readable PollOpt.edge 7 false)
            (.next (.open 3 0) (.start rfl) trivial rfl) rfl rfl)
          (hlast _ rfl rfl) rfl)
        trivial rfl)
      rfl rfl
  exact ⟨_, rfl, (select_routes_after_close 0 _ hrun _ _).2.trans (by decide)⟩

/-- The first stream has a clone when it is dropped: its events run the job of the second. -/
theorem clone_misroutes :
    ∃ d : Descriptors ℕ ℕ, run descriptorStep (Descriptors.new 0) (droppedOps.insertIdx 2 (.tryClone 3 4)) = some d ∧
      (d.selector.select (Events.withCapacity 8) (d.kernelEvents [(0, 3, EPOLLIN)])).2.1.entries.items =
        [⟨⟨.socketEvent, ⟨2⟩⟩, 8, Ready.readable⟩] ∧
      d.expected [(0, 3, EPOLLIN)] = [⟨⟨.socketEvent, ⟨1⟩⟩, 7, Ready.readable⟩] :=
  ⟨_, rfl, by decide, by decide⟩

end MyMio

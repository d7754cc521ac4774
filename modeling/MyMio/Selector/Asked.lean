import MyMio.Foundations.BitField
import MyMio.Selector.Descriptors
import MyMio.Selector.Handle

/-! # What a socket is told

`ioevent_to_epoll` turns what `register` and `reregister` ask for into a mask, `get_ready` turns the mask
of an event into the readiness the job is called with. A priority event also reads as readable, and, since
`PRI` contains the bit of `HUP`, as a hang-up.

Between the two lies the batch: `select` collects entries, and `io_process` runs their jobs one by one
while these deregister, re-arm and drop the sockets of entries further on. Here each successful `register`
and `reregister` is an ask of its registration, and each entry remembers which ask was the latest when it
was collected. A job is only ever told of what that ask allows, and an ask with `PollOpt::oneshot` is
answered by one call at most (`calls_were_asked`), although an earlier one may be answered after it.

A registration is known by its job, and jobs are numbered in the order of the `register` calls.
-/

namespace MyMio
set_option autoImplicit false

open StepSystem BitField

universe u v

/-! ## Masks, flag by flag -/

/-- `mask & flag != 0`. -/
def masked (mask flag : BitVec 32) : Bool := mask &&& flag ≠ 0

/-- `ioevent_to_epoll` by what it tests: readable, writable and priority, edge, level and oneshot. -/
def maskOf (r w p e l o : Bool) : BitVec 32 :=
  let kind : BitVec 32 := 0
  let kind := if r then kind ||| EPOLLIN else kind
  let kind := if w then kind ||| EPOLLOUT else kind
  let kind := if p then kind ||| EPOLLPRI else kind
  let kind := if e then kind ||| EPOLLET else kind
  let kind := if l then kind &&& ~~~EPOLLET else kind
  if o then kind ||| EPOLLONESHOT else kind

/-- `get_ready` by what it tests: `EPOLLIN`, `EPOLLOUT`, `EPOLLPRI`, `EPOLLERR` and `EPOLLHUP`. -/
def readyOf (i o p e h : Bool) : Ready :=
  let kind := Ready.empty
  let kind := if i then kind.union Ready.readable else kind
  let kind := if o then kind.union Ready.writable else kind
  let kind := if p then (kind.union Ready.readable).union UnixReady.priority else kind
  let kind := if e then kind.union UnixReady.error else kind
  if h then kind.union UnixReady.hup else kind

theorem epollToReady_eq (mask : BitVec 32) : epollToReady mask =
    readyOf (masked mask EPOLLIN) (masked mask EPOLLOUT) (masked mask EPOLLPRI)
      (masked mask EPOLLERR) (masked mask EPOLLHUP) := by
  simp only [epollToReady, readyOf, masked, decide_eq_true_eq]

theorem ioeventToEpoll_eq (interest : Ready) (opts : PollOpt) : ioeventToEpoll interest opts =
    maskOf interest.isReadable interest.isWritable (UnixReady.isPriority interest) opts.isEdge
      opts.isLevel opts.isOneshot := rfl

theorem readyOf_flags : ∀ i o p e h, (readyOf i o p e h).isReadable = (i || p) ∧
    (readyOf i o p e h).isWritable = o ∧ UnixReady.isPriority (readyOf i o p e h) = p ∧
    (readyOf i o p e h).isError = e ∧ (readyOf i o p e h).isHup = (h || p) := by
  decide

theorem readyOf_all : ∀ i o p e h, Ready.all.contains (readyOf i o p e h) = true := by
  decide

theorem masked_maskOf : ∀ r w p e l o, masked (maskOf r w p e l o) EPOLLIN = r ∧
    masked (maskOf r w p e l o) EPOLLOUT = w ∧ masked (maskOf r w p e l o) EPOLLPRI = p ∧
    masked (maskOf r w p e l o) EPOLLONESHOT = o := by
  decide

/-- What `epoll_wait` may report for a stored mask: errors and hang-ups need not be asked for, and
`EPOLLET` and `EPOLLONESHOT` are no events. -/
def reportable (stored : BitVec 32) : BitVec 32 :=
  (stored ||| EPOLLERR ||| EPOLLHUP) &&& ~~~(EPOLLET ||| EPOLLONESHOT)

theorem masked_flag (mask : BitVec 32) {n : ℕ} (hn : n < 32) :
    masked mask (flag 32 n) = mask.getLsbD n := by
  rw [Bool.eq_iff_iff, ← and_flag_ne_zero mask hn]
  exact decide_eq_true_iff

/-- An event other than an error or a hang-up was asked for. -/
theorem masked_of_reportable {mask stored : BitVec 32} (h : mask &&& ~~~reportable stored = 0) {n : ℕ}
    (hn : n < 3) (hmask : masked mask (flag 32 n) = true) : masked stored (flag 32 n) = true := by
  have hlt : n < 32 := Nat.lt_trans hn (by decide)
  rw [masked_flag mask hlt] at hmask
  rw [masked_flag stored hlt]
  have hbit := getLsbD_of_within h hlt hmask
  unfold reportable at hbit
  obtain rfl | rfl | rfl : n = 0 ∨ n = 1 ∨ n = 2 := by omega
  all_goals simpa using hbit

/-! ## Asks -/

/-- What a `register` or `reregister` asks for. -/
structure Ask where
  interest : Ready
  opts : PollOpt
  deriving DecidableEq, Repr

namespace Ask

def mask (ask : Ask) : BitVec 32 := ioeventToEpoll ask.interest ask.opts

/-- The readiness a job may be called with after this ask. -/
structure Grants (ask : Ask) (ready : Ready) : Prop where
  readable : ready.isReadable = true →
    ask.interest.isReadable = true ∨ UnixReady.isPriority ask.interest = true
  writable : ready.isWritable = true → ask.interest.isWritable = true
  priority : UnixReady.isPriority ready = true → UnixReady.isPriority ask.interest = true
  named : Ready.all.contains ready = true

theorem masked_oneshot (ask : Ask) : masked ask.mask EPOLLONESHOT = ask.opts.isOneshot := by
  rw [mask, ioeventToEpoll_eq]
  exact (masked_maskOf _ _ _ _ _ _).2.2.2

theorem masked_asked (ask : Ask) {mask : BitVec 32} (h : mask &&& ~~~reportable ask.mask = 0) :
    (masked mask EPOLLIN = true → ask.interest.isReadable = true) ∧
      (masked mask EPOLLOUT = true → ask.interest.isWritable = true) ∧
      (masked mask EPOLLPRI = true → UnixReady.isPriority ask.interest = true) := by
  rw [Ask.mask, ioeventToEpoll_eq] at h
  obtain ⟨hin, hout, hpri, -⟩ := masked_maskOf ask.interest.isReadable ask.interest.isWritable
    (UnixReady.isPriority ask.interest) ask.opts.isEdge ask.opts.isLevel ask.opts.isOneshot
  refine ⟨fun hm => ?_, fun hm => ?_, fun hm => ?_⟩
  · exact hin.symm.trans (masked_of_reportable h (n := 0) (by decide) hm)
  · exact hout.symm.trans (masked_of_reportable h (n := 2) (by decide) hm)
  · exact hpri.symm.trans (masked_of_reportable h (n := 1) (by decide) hm)

/-- What epoll may report after an ask, the job may be told. -/
theorem grants (ask : Ask) {mask : BitVec 32} (h : mask &&& ~~~reportable ask.mask = 0) :
    ask.Grants (epollToReady mask) := by
  obtain ⟨hin, hout, hpri⟩ := ask.masked_asked h
  obtain ⟨hreadable, hwritable, hpriority, -⟩ := readyOf_flags (masked mask EPOLLIN)
    (masked mask EPOLLOUT) (masked mask EPOLLPRI) (masked mask EPOLLERR) (masked mask EPOLLHUP)
  rw [epollToReady_eq]
  refine ⟨fun hr => ?_, fun hr => hout (hwritable.symm.trans hr), fun hr =>
    hpri (hpriority.symm.trans hr), readyOf_all _ _ _ _ _⟩
  rcases Bool.or_eq_true_iff.mp (hreadable.symm.trans hr) with hm | hm
  · exact .inl (hin hm)
  · exact .inr (hpri hm)

/-- Urgent data reads as a hang-up to a registration that has asked for priority. -/
example : EPOLLPRI &&& ~~~reportable (mask ⟨UnixReady.priority, PollOpt.edge⟩) = 0 ∧
    (epollToReady EPOLLPRI).isHup = true := by
  decide

end Ask

/-! ## Tables by file and number -/

section Put
variable {F : Type v} {α : Type u} [DecidableEq F]

def put (table : F → RawFd → α) (f : F) (fd : RawFd) (x : α) : F → RawFd → α :=
  Function.update table f (Function.update (table f) fd x)

@[simp] theorem put_self (table : F → RawFd → α) (f : F) (fd : RawFd) (x : α) :
    put table f fd x f fd = x := by
  simp [put]

theorem put_of_ne (table : F → RawFd → α) {f g : F} {fd fd' : RawFd} (x : α)
    (h : ¬ (g = f ∧ fd' = fd)) : put table f fd x g fd' = table g fd' := by
  unfold put
  by_cases hg : g = f
  · subst hg
    rw [Function.update_self, Function.update_of_ne fun hfd => h ⟨rfl, hfd⟩]
  · rw [Function.update_of_ne hg]

@[simp] theorem put_same (table : F → RawFd → α) (f : F) (fd : RawFd) :
    put table f fd (table f fd) = table := by
  simp [put]

end Put

/-! ## Runs -/

/-- A job that is called, for its ask number `nth`. -/
structure Told where
  job : ℕ
  nth : ℕ
  ready : Ready
  deriving DecidableEq, Repr

/-- `asks job` is what has been asked for this registration, oldest first. `spent` are the pairs epoll has
reported since the latest ask for them, when that was `EPOLLONESHOT`: it waits for nothing then. `batch`
holds the entries `io_process` has not reached, each with the number of its ask, and `calls` is what has
been called. -/
structure Asking (F : Type v) where
  process : Descriptors F ℕ
  spent : F → RawFd → Bool
  asks : ℕ → List Ask
  registrations : ℕ
  batch : List (JobEntry ℕ × ℕ)
  calls : List Told

inductive AskingOp (F : Type v)
  | open (fd : RawFd) (f : F)
  | tryClone (fd fd' : RawFd)
  | close (fd : RawFd)
  | register (fd : RawFd) (token : TokenEntry) (interests : Ready) (opts : PollOpt) (refused : Bool)
  | reregister (fd : RawFd) (token : TokenEntry) (interests : Ready) (opts : PollOpt) (refused : Bool)
  | deregister (fd : RawFd) (refused : Bool)
  | poll (evts : Events ℕ) (reports : List (F × Report))
  | ioProcess

namespace Asking
variable {F : Type v}

def new (id : Usize) : Asking F := ⟨Descriptors.new id, fun _ _ => false, fun _ => [], 0, [], []⟩

/-- What epoll may report now about a file and a number. -/
def waiting (w : Asking F) (f : F) (fd : RawFd) : BitVec 32 :=
  match w.process.interest f fd with
  | none => 0
  | some info => if w.spent f fd then 0 else reportable info.events

/-- The reports of one `epoll_wait`: each file and number once, with some of what is waited for. -/
def Reported (w : Asking F) (reports : List (F × Report)) : Prop :=
  (reports.map fun report => (report.1, report.2.1)).Nodup ∧
    ∀ report ∈ reports, report.2.2 ≠ 0 ∧ report.2.2 &&& ~~~w.waiting report.1 report.2.1 = 0

variable [DecidableEq F]

instance (w : Asking F) (reports : List (F × Report)) : Decidable (w.Reported reports) :=
  inferInstanceAs (Decidable (_ ∧ _))

/-- A call of `register` or `reregister` for a registration has returned. -/
def asked (w : Asking F) (fd : RawFd) (job : ℕ) (ask : Ask) (result : Except Errno Unit) : Asking F :=
  match w.process.file fd, result with
  | some f, .ok () => { w with
      spent := put w.spent f fd false
      asks := Function.update w.asks job (w.asks job ++ [ask]) }
  | _, _ => w

/-- `epoll_wait` disarms what it reports of an `EPOLLONESHOT` entry. -/
def spend (w : Asking F) (reports : List (F × Report)) (f : F) (fd : RawFd) : Bool :=
  w.spent f fd ||
    (reports.any fun report => report.1 = f ∧ report.2.1 = fd) &&
      (w.process.interest f fd).any fun info => masked info.events EPOLLONESHOT

/-- The next entry of `io_process`. The entries of a timer call no job. -/
def next (w : Asking F) : Option (Asking F) :=
  match w.batch with
  | [] => none
  | (entry, nth) :: rest =>
    if entry.tokenEntry.ttype = .timersEvent then some { w with batch := rest }
    else some { w with batch := rest, calls := w.calls ++ [⟨entry.job, nth, entry.ready⟩] }

end Asking

variable {F : Type v} [DecidableEq F]

/-- Any call may come between two jobs, also from within one; `select` only between two batches. -/
def askingStep (w : Asking F) : AskingOp F → Option (Asking F)
  | .open fd f => (descriptorStep w.process (.open fd f)).map fun d => { w with process := d }
  | .tryClone fd fd' => (descriptorStep w.process (.tryClone fd fd')).map fun d => { w with process := d }
  | .close fd => (descriptorStep w.process (.close fd)).map fun d => { w with process := d }
  | .register fd token interests opts refused =>
    (descriptorStep w.process (.register fd token interests opts w.registrations refused)).map fun d =>
      { w with process := d, registrations := w.registrations + 1 }.asked fd w.registrations
        ⟨interests, opts⟩ (w.process.selector.register fd token interests opts w.registrations
          (refused || (w.process.file fd).isNone)).2
  | .reregister fd token interests opts refused =>
    (descriptorStep w.process (.reregister fd token interests opts refused)).map fun d =>
      match w.process.registered fd with
      | none => { w with process := d }
      | some r => { w with process := d }.asked fd r.job ⟨interests, opts⟩
          (w.process.selector.reregister fd token interests opts
            (refused || (w.process.file fd).isNone)).2
  | .deregister fd refused =>
    (descriptorStep w.process (.deregister fd refused)).map fun d => { w with process := d }
  | .poll evts reports =>
    if w.batch = [] ∧ w.Reported reports then
      (descriptorStep w.process (.select evts reports)).map fun d => { w with
        process := d
        spent := w.spend reports
        batch := (w.process.selector.select evts (w.process.kernelEvents reports)).2.1.entries.items.map
          fun entry => (entry, (w.asks entry.job).length - 1) }
    else none
  | .ioProcess => w.next

/-- The conditions of `Careful`. -/
def Asking.Careful (w : Asking F) : AskingOp F → Prop
  | .close fd => MyMio.Careful w.process (.close fd)
  | .register fd token interests opts refused =>
    MyMio.Careful w.process (.register fd token interests opts w.registrations refused)
  | .reregister fd token interests opts refused =>
    MyMio.Careful w.process (.reregister fd token interests opts refused)
  | _ => True

/-! ## What a call leaves in the tables -/

section Calls
variable {J : Type u} {sel : Selector J} {d d' : Descriptors F J} {f : F} {fd : RawFd}
  {token : TokenEntry} {interests : Ready} {opts : PollOpt} {job : J} {refused : Bool}

omit [DecidableEq F] in
theorem epollCtl_ok {list list' : InterestList} {op : CtlOp} {info : EpollEvent}
    (h : epollCtl list op fd info refused = .ok list') :
    refused = false ∧ list' = Function.update list fd (if op = .del then none else some info) := by
  unfold epollCtl at h
  cases refused with
  | true => cases h
  | false => cases op <;> cases hfd : list fd <;> simp_all

omit [DecidableEq F] in
theorem register_ok (h : (sel.register fd token interests opts job refused).2 = .ok ()) :
    refused = false ∧ (sel.register fd token interests opts job refused).1.interestList =
      Function.update sel.interestList fd (some ⟨ioeventToEpoll interests opts, userDataOfFd fd⟩) := by
  unfold Selector.register at *
  dsimp only at *
  split at h
  next => cases h
  next hctl => exact epollCtl_ok hctl

omit [DecidableEq F] in
theorem reregister_ok (h : (sel.reregister fd token interests opts refused).2 = .ok ()) :
    refused = false ∧ (sel.reregister fd token interests opts refused).1.interestList =
      Function.update sel.interestList fd (some ⟨ioeventToEpoll interests opts, token.token.val⟩) := by
  unfold Selector.reregister at *
  dsimp only at *
  split at h
  next => cases h
  next hctl => exact epollCtl_ok hctl

omit [DecidableEq F] in
theorem deregister_ok (h : (sel.deregister fd refused).2 = .ok ()) :
    refused = false ∧ (sel.deregister fd refused).1.interestList =
      Function.update sel.interestList fd none := by
  unfold Selector.deregister at *
  split at h
  next => cases h
  next hctl => exact epollCtl_ok hctl

/-- What a call for a number has left, by file and number. -/
theorem Descriptors.after_tables (hfile : d.file fd = some f) (sel : Selector J)
    (r : Option (Registered J)) : (d.after fd sel r).interest = put d.interest f fd (sel.interestList fd) ∧
      (d.after fd sel r).registry = put d.registry f fd r := by
  unfold Descriptors.after
  rw [hfile]
  exact ⟨rfl, rfl⟩

theorem Descriptors.after_refused {sel : Selector J} (hlist : sel.interestList = d.interestList) :
    (d.after fd sel (d.registered fd)).interest = d.interest ∧
      (d.after fd sel (d.registered fd)).registry = d.registry := by
  cases hfile : d.file fd with
  | none =>
    unfold Descriptors.after
    rw [hfile]
    exact ⟨rfl, rfl⟩
  | some f =>
    obtain ⟨hinterest, hregistry⟩ := d.after_tables hfile sel (d.registered fd)
    rw [hinterest, hregistry, hlist, interestList_of_file hfile, registered_of_file hfile]
    exact ⟨put_same _ f fd, put_same _ f fd⟩

omit [DecidableEq F] in
theorem file_isSome (h : (refused || (d.file fd).isNone) = false) : ∃ f, d.file fd = some f := by
  rw [Bool.or_eq_false_iff] at h
  cases hfile : d.file fd with
  | none => simp [hfile] at h
  | some f => exact ⟨f, rfl⟩

theorem Descriptors.after_file (sel : Selector J) (r : Option (Registered J)) :
    (d.after fd sel r).file = d.file := by
  unfold Descriptors.after
  cases d.file fd <;> rfl

/-- What a call leaves: the entry the kernel has taken and what is registered with it, or nothing new. -/
theorem call_leaves {call : Selector J × Except Errno Unit} {info : Option EpollEvent}
    {r : Option (Registered J)}
    (hd : (match call with
      | (sel, .ok ()) => some (d.after fd sel r)
      | (sel, .error _) => some (d.after fd sel (d.registered fd))) = some d')
    (herror : ∀ e, call.2 = .error e → call.1.interestList = d.interestList)
    (hok : call.2 = .ok () → (refused || (d.file fd).isNone) = false ∧
      call.1.interestList = Function.update d.interestList fd info) :
    (∃ f, d.file fd = some f ∧ d'.file fd = some f ∧ call.2 = .ok () ∧
      d'.interest = put d.interest f fd info ∧ d'.registry = put d.registry f fd r) ∨
    (∃ e, call.2 = .error e) ∧ d'.interest = d.interest ∧ d'.registry = d.registry := by
  obtain ⟨sel, e | ⟨⟩⟩ := call
  · obtain rfl := Option.some.inj hd
    exact .inr ⟨⟨e, rfl⟩, Descriptors.after_refused (herror e rfl)⟩
  · obtain rfl := Option.some.inj hd
    obtain ⟨hopen, hlist⟩ := hok rfl
    obtain ⟨f, hfile⟩ := file_isSome hopen
    obtain ⟨hinterest, hregistry⟩ := d.after_tables hfile sel r
    refine .inl ⟨f, hfile, by rw [Descriptors.after_file, hfile], rfl, ?_, hregistry⟩
    rw [hinterest]
    exact congrArg (put d.interest f fd)
      ((congrFun hlist fd).trans (Function.update_self ..))

theorem register_leaves
    (hd : descriptorStep d (.register fd token interests opts job refused) = some d') :
    (∃ f, d.file fd = some f ∧ d'.file fd = some f ∧
      (d.selector.register fd token interests opts job (refused || (d.file fd).isNone)).2 = .ok () ∧
      d'.interest = put d.interest f fd (some ⟨ioeventToEpoll interests opts, userDataOfFd fd⟩) ∧
      d'.registry = put d.registry f fd (some ⟨job, token⟩)) ∨
    (∃ e, (d.selector.register fd token interests opts job (refused || (d.file fd).isNone)).2 =
      .error e) ∧ d'.interest = d.interest ∧ d'.registry = d.registry :=
  call_leaves hd (fun e herror => congrArg Selector.interestList
    (@register_error J d.selector fd ⟨token, interests, opts, job⟩ _ e herror)) register_ok

theorem reregister_leaves
    (hd : descriptorStep d (.reregister fd token interests opts refused) = some d') :
    (∃ f, d.file fd = some f ∧ d'.file fd = some f ∧
      (d.selector.reregister fd token interests opts (refused || (d.file fd).isNone)).2 = .ok () ∧
      d'.interest = put d.interest f fd (some ⟨ioeventToEpoll interests opts, token.token.val⟩) ∧
      d'.registry = put d.registry f fd
        ((d.registered fd).map fun r => { r with tokenEntry := token })) ∨
    (∃ e, (d.selector.reregister fd token interests opts (refused || (d.file fd).isNone)).2 =
      .error e) ∧ d'.interest = d.interest ∧ d'.registry = d.registry :=
  call_leaves hd (fun _ herror => congrArg Selector.interestList (reregister_error herror)) reregister_ok

/-- What is registered after a call that registers nothing. -/
def Fewer (d d' : Descriptors F J) : Prop :=
  ∀ f fd r, d'.registry f fd = some r → d.registry f fd = some r ∧ d'.interest f fd = d.interest f fd

omit [DecidableEq F] in
theorem Fewer.of_eq (hinterest : d'.interest = d.interest) (hregistry : d'.registry = d.registry) :
    Fewer d d' := by
  intro f fd r hr
  rw [hregistry] at hr
  exact ⟨hr, by rw [hinterest]⟩

/-- The tables have changed at one place, where nothing is registered now. -/
theorem Fewer.of_put {info : Option EpollEvent} (hinterest : d'.interest = put d.interest f fd info)
    (hregistry : d'.registry = put d.registry f fd none) : Fewer d d' := by
  intro g fd' r hr
  rw [hregistry] at hr
  by_cases hat : g = f ∧ fd' = fd
  · obtain ⟨rfl, rfl⟩ := hat
    rw [put_self] at hr
    cases hr
  · rw [put_of_ne _ _ hat] at hr
    exact ⟨hr, by rw [hinterest, put_of_ne _ _ hat]⟩

theorem deregister_fewer (hd : descriptorStep d (.deregister fd refused) = some d') : Fewer d d' := by
  rcases call_leaves hd (fun _ herror => congrArg Selector.interestList (deregister_error herror))
    deregister_ok with ⟨f, -, -, -, hinterest, hregistry⟩ | ⟨-, hinterest, hregistry⟩
  · exact .of_put hinterest hregistry
  · exact .of_eq hinterest hregistry

theorem close_fewer (hd : d.close fd = some d') : Fewer d d' := by
  obtain ⟨f, -, rfl⟩ := Option.map_eq_some_iff.mp hd
  cases d.lastOf fd f with
  | false => exact .of_eq rfl rfl
  | true =>
    intro g fd' r hr
    simp only [if_true] at hr ⊢
    by_cases hg : g = f
    · subst hg
      rw [Function.update_self] at hr
      cases hr
    · rw [Function.update_of_ne hg] at hr ⊢
      exact ⟨hr, rfl⟩

end Calls

/-! ## Calls and their asks -/

/-- Two calls of a job for one ask: it was no oneshot. -/
def Repeatable (asks : ℕ → List Ask) (c c' : Told) : Prop :=
  c.job = c'.job → c.nth = c'.nth → ∀ ask, (asks c.job)[c.nth]? = some ask → ask.opts.isOneshot = false

namespace Asking

/-- The call an entry of the batch is for. -/
def pending (entry : JobEntry ℕ × ℕ) : Told := ⟨entry.1.job, entry.2, entry.1.ready⟩

/-- The calls that were made, and those the batch holds. -/
def seen (w : Asking F) : List Told := w.calls ++ w.batch.map pending

end Asking

/-- A registration is known by its job and has asked for what epoll holds; what has been seen was asked
for, a oneshot ask once, and not at all as long as epoll waits. -/
structure Asking.Ok (w : Asking F) : Prop where
  routed : w.process.Routed
  own : ∀ f fd r f' fd' r', w.process.registry f fd = some r → w.process.registry f' fd' = some r' →
    r.job = r'.job → f = f' ∧ fd = fd'
  asked : ∀ f fd r, w.process.registry f fd = some r → ∃ info older ask,
    w.process.interest f fd = some info ∧ w.asks r.job = older ++ [ask] ∧ info.events = ask.mask
  fresh : ∀ job, w.registrations ≤ job → w.asks job = []
  kept : ∀ c ∈ w.seen, ∃ ask, (w.asks c.job)[c.nth]? = some ask ∧ ask.Grants c.ready
  once : w.seen.Pairwise (Repeatable w.asks)
  unspent : ∀ f fd r older ask, w.process.registry f fd = some r → w.asks r.job = older ++ [ask] →
    ask.opts.isOneshot = true → w.spent f fd = false → ∀ c ∈ w.seen, c.job = r.job →
      c.nth ≠ older.length

section Moves
variable {w w' : Asking F}

omit [DecidableEq F] in
theorem Asking.Ok.registered_lt (h : Asking.Ok w) {f : F} {fd : RawFd} {r : Registered ℕ}
    (hr : w.process.registry f fd = some r) : r.job < w.registrations := by
  obtain ⟨info, older, ask, -, hasks, -⟩ := h.asked f fd r hr
  by_contra hle
  rw [h.fresh r.job (Nat.le_of_not_lt hle)] at hasks
  exact List.append_ne_nil_of_right_ne_nil older (List.cons_ne_nil ask []) hasks.symm

omit [DecidableEq F] in
theorem Asking.Ok.fewer (h : Asking.Ok w) (hrouted : w'.process.Routed)
    (hfewer : Fewer w.process w'.process) (hasks : w'.asks = w.asks) (hspent : w'.spent = w.spent)
    (hregistrations : w.registrations ≤ w'.registrations) (hseen : w'.seen.Sublist w.seen) :
    Asking.Ok w' where
  routed := hrouted
  own f fd r f' fd' r' hr hr' := h.own f fd r f' fd' r' (hfewer f fd r hr).1 (hfewer f' fd' r' hr').1
  asked f fd r hr := by
    obtain ⟨hr, hinterest⟩ := hfewer f fd r hr
    rw [hinterest, hasks]
    exact h.asked f fd r hr
  fresh job hjob := by
    rw [hasks]
    exact h.fresh job (hregistrations.trans hjob)
  kept c hc := by
    rw [hasks]
    exact h.kept c (hseen.subset hc)
  once := by
    rw [hasks]
    exact h.once.sublist hseen
  unspent f fd r older ask hr hask honeshot hunspent c hc := by
    rw [hasks] at hask
    rw [hspent] at hunspent
    exact h.unspent f fd r older ask (hfewer f fd r hr).1 hask honeshot hunspent c (hseen.subset hc)

omit [DecidableEq F] in
theorem Asking.Ok.kept_put (h : Asking.Ok w) (job : ℕ) (ask : Ask) {c : Told} (hc : c ∈ w.seen) :
    (Function.update w.asks job (w.asks job ++ [ask]) c.job)[c.nth]? = (w.asks c.job)[c.nth]? := by
  obtain ⟨old, hold, -⟩ := h.kept c hc
  by_cases hjob : c.job = job
  · subst hjob
    obtain ⟨hlt, -⟩ := List.getElem?_eq_some_iff.mp hold
    rw [Function.update_self, List.getElem?_append_left hlt]
  · rw [Function.update_of_ne hjob]

/-- One more ask, of a new registration or of one that has it to itself. -/
theorem Asking.Ok.ask (h : Asking.Ok w) (hrouted : w'.process.Routed) {f : F} {fd : RawFd}
    {info : EpollEvent} {r : Registered ℕ} {ask : Ask}
    (hinterest : w'.process.interest = put w.process.interest f fd (some info))
    (hregistry : w'.process.registry = put w.process.registry f fd (some r))
    (hinfo : info.events = ask.mask)
    (hasks : w'.asks = Function.update w.asks r.job (w.asks r.job ++ [ask]))
    (hspent : w'.spent = put w.spent f fd false) (hregistrations : w.registrations ≤ w'.registrations)
    (hlt : r.job < w'.registrations) (hseen : w'.seen = w.seen)
    (hown : ∀ g fd' r', w.process.registry g fd' = some r' → r'.job = r.job → g = f ∧ fd' = fd) :
    Asking.Ok w' := by
  have hother : ∀ g fd' r', ¬ (g = f ∧ fd' = fd) → w.process.registry g fd' = some r' →
      w'.asks r'.job = w.asks r'.job := by
    intro g fd' r' hne hr'
    rw [hasks, Function.update_of_ne fun hjob => hne (hown g fd' r' hr' hjob)]
  have hcases : ∀ g fd' r', w'.process.registry g fd' = some r' →
      (g = f ∧ fd' = fd ∧ r' = r) ∨ ¬ (g = f ∧ fd' = fd) ∧ w.process.registry g fd' = some r' := by
    intro g fd' r' hr'
    rw [hregistry] at hr'
    by_cases hat : g = f ∧ fd' = fd
    · obtain ⟨rfl, rfl⟩ := hat
      rw [put_self] at hr'
      exact .inl ⟨rfl, rfl, (Option.some.inj hr').symm⟩
    · rw [put_of_ne _ _ hat] at hr'
      exact .inr ⟨hat, hr'⟩
  have hself : w'.asks r.job = w.asks r.job ++ [ask] := by rw [hasks, Function.update_self]
  refine ⟨hrouted, ?_, ?_, ?_, ?_, ?_, ?_⟩
  · intro g fd' r' g' fd'' r'' hr' hr'' hjob
    rcases hcases g fd' r' hr' with ⟨rfl, rfl, rfl⟩ | ⟨-, hr'⟩
    · rcases hcases g' fd'' r'' hr'' with ⟨rfl, rfl, -⟩ | ⟨-, hr''⟩
      · exact ⟨rfl, rfl⟩
      · obtain ⟨hg, hfd⟩ := hown g' fd'' r'' hr'' hjob.symm
        exact ⟨hg.symm, hfd.symm⟩
    · rcases hcases g' fd'' r'' hr'' with ⟨rfl, rfl, rfl⟩ | ⟨-, hr''⟩
      · exact hown g fd' r' hr' hjob
      · exact h.own g fd' r' g' fd'' r'' hr' hr'' hjob
  · intro g fd' r' hr'
    rcases hcases g fd' r' hr' with ⟨rfl, rfl, rfl⟩ | ⟨hne, hr'⟩
    · exact ⟨info, _, ask, by rw [hinterest, put_self], hself, hinfo⟩
    · rw [hinterest, put_of_ne _ _ hne, hother g fd' r' hne hr']
      exact h.asked g fd' r' hr'
  · intro job hjob
    rw [hasks, Function.update_of_ne (Nat.ne_of_gt (hlt.trans_le hjob))]
    exact h.fresh job (hregistrations.trans hjob)
  · intro c hc
    rw [hseen] at hc
    rw [hasks, h.kept_put r.job ask hc]
    exact h.kept c hc
  · rw [hseen, hasks]
    refine h.once.imp_of_mem fun {c c'} hc _ hrepeatable hjob hnth ask' hask' => ?_
    rw [h.kept_put r.job ask hc] at hask'
    exact hrepeatable hjob hnth ask' hask'
  · intro g fd' r' older ask' hr' hask' honeshot hunspent c hc hjob
    rw [hseen] at hc
    rcases hcases g fd' r' hr' with ⟨rfl, rfl, rfl⟩ | ⟨hne, hr'⟩
    · rw [hself] at hask'
      obtain ⟨rfl, -⟩ := List.append_inj' hask' rfl
      obtain ⟨old, hold, -⟩ := h.kept c hc
      rw [hjob] at hold
      exact Nat.ne_of_lt (List.getElem?_eq_some_iff.mp hold).1
    · rw [hother g fd' r' hne hr'] at hask'
      rw [hspent, put_of_ne _ _ hne] at hunspent
      exact h.unspent g fd' r' older ask' hr' hask' honeshot hunspent c hc hjob

omit [DecidableEq F] in
/-- Epoll reports what it waits for: the pair is watched and not spent. -/
theorem Asking.interest_of_report {f : F} {fd : RawFd} {mask : BitVec 32} (hmask : mask ≠ 0)
    (hwithin : mask &&& ~~~w.waiting f fd = 0) : ∃ info, w.process.interest f fd = some info ∧
      w.spent f fd = false ∧ mask &&& ~~~reportable info.events = 0 := by
  have hzero : mask &&& ~~~(0 : BitVec 32) = mask := BitVec.and_allOnes
  unfold Asking.waiting at hwithin
  cases hinfo : w.process.interest f fd with
  | none =>
    simp only [hinfo] at hwithin
    exact absurd (hzero.symm.trans hwithin) hmask
  | some info =>
    cases hspent : w.spent f fd with
    | true =>
      simp only [hinfo, hspent, if_true] at hwithin
      exact absurd (hzero.symm.trans hwithin) hmask
    | false =>
      simp only [hinfo, hspent, Bool.false_eq_true, if_false] at hwithin
      exact ⟨info, rfl, rfl, hwithin⟩

/-- The call a report leads to. -/
def Asking.told (w : Asking F) (report : F × Report) : Option Told :=
  (expectedEntry (w.process.registry report.1) report.2).map fun entry =>
    Asking.pending (entry, (w.asks entry.job).length - 1)

omit [DecidableEq F] in
theorem Asking.Ok.told (h : Asking.Ok w) {report : F × Report} {c : Told} (hmask : report.2.2 ≠ 0)
    (hwithin : report.2.2 &&& ~~~w.waiting report.1 report.2.1 = 0) (hc : w.told report = some c) :
    ∃ r older ask, w.process.registry report.1 report.2.1 = some r ∧ c.job = r.job ∧
      w.asks r.job = older ++ [ask] ∧ c.nth = older.length ∧ ask.Grants c.ready := by
  obtain ⟨info, hinfo, -, hmask⟩ := Asking.interest_of_report hmask hwithin
  unfold Asking.told expectedEntry at hc
  cases hr : w.process.registry report.1 report.2.1 with
  | none => simp [hr] at hc
  | some r =>
    obtain ⟨info', older, ask, hinfo', hasks, hevents⟩ := h.asked report.1 report.2.1 r hr
    obtain rfl := Option.some.inj (hinfo.symm.trans hinfo')
    rw [hevents] at hmask
    rw [hr, Option.bind_some] at hc
    split at hc
    · cases hc
    · obtain rfl := Option.some.inj hc
      exact ⟨r, older, ask, rfl, rfl, hasks, by simp [Asking.pending, hasks], ask.grants hmask⟩

theorem Asking.Ok.poll (h : Asking.Ok w) {reports : List (F × Report)} (hreported : w.Reported reports)
    (hrouted : w'.process.Routed) (hinterest : w'.process.interest = w.process.interest)
    (hregistry : w'.process.registry = w.process.registry) (hasks : w'.asks = w.asks)
    (hspent : w'.spent = w.spend reports) (hregistrations : w'.registrations = w.registrations)
    (hseen : w'.seen = w.seen ++ reports.filterMap w.told) : Asking.Ok w' := by
  have htold : ∀ report ∈ reports, ∀ c, w.told report = some c → ∃ r older ask,
      w.process.registry report.1 report.2.1 = some r ∧ c.job = r.job ∧
      w.asks r.job = older ++ [ask] ∧ c.nth = older.length ∧ ask.Grants c.ready :=
    fun report hmem c => h.told (hreported.2 report hmem).1 (hreported.2 report hmem).2
  refine ⟨hrouted, ?_, ?_, ?_, ?_, ?_, ?_⟩
  · rw [hregistry]
    exact h.own
  · rw [hregistry, hinterest, hasks]
    exact h.asked
  · rw [hregistrations, hasks]
    exact h.fresh
  · intro c hc
    rw [hseen, List.mem_append, List.mem_filterMap] at hc
    rw [hasks]
    rcases hc with hc | ⟨report, hmem, hc⟩
    · exact h.kept c hc
    · obtain ⟨r, older, ask, -, hjob, hask, hnth, hgrants⟩ := htold report hmem c hc
      exact ⟨ask, by rw [hjob, hask, hnth, List.getElem?_concat_length], hgrants⟩
  · rw [hseen, hasks, List.pairwise_append, List.pairwise_filterMap]
    refine ⟨h.once, ?_, ?_⟩
    · -- two reports are for two registrations
      refine (List.pairwise_map.mp hreported.1).imp_of_mem fun {a b} ha hb hne c hc c' hc' hjob => ?_
      obtain ⟨r, -, -, hr, hjob₁, -⟩ := htold a ha c hc
      obtain ⟨r', -, -, hr', hjob₂, -⟩ := htold b hb c' hc'
      obtain ⟨hf, hfd⟩ := h.own _ _ r _ _ r' hr hr' (hjob₁.symm.trans (hjob.trans hjob₂))
      exact absurd (congrArg₂ Prod.mk hf hfd) hne
    · -- epoll still waited, so the ask has not been answered
      intro c hc c' hc' hjob hnth ask hask
      obtain ⟨report, hmem, hc'⟩ := List.mem_filterMap.mp hc'
      obtain ⟨info, -, hunspent, -⟩ := Asking.interest_of_report (hreported.2 report hmem).1
        (hreported.2 report hmem).2
      obtain ⟨r, older, ask', hr, hjob', hask', hnth', -⟩ := htold report hmem c' hc'
      rw [hjob, hjob', hask', hnth, hnth', List.getElem?_concat_length] at hask
      obtain rfl := Option.some.inj hask
      cases honeshot : ask'.opts.isOneshot with
      | false => rfl
      | true =>
        exact absurd (hnth.trans hnth') (h.unspent _ _ r older ask' hr hask' honeshot hunspent c hc
          (hjob.trans hjob'))
  · intro f fd r older ask hr hask honeshot hunspent c hc hjob
    rw [hregistry] at hr
    rw [hasks] at hask
    rw [hspent] at hunspent
    obtain ⟨hunspent, hquiet⟩ := Bool.or_eq_false_iff.mp hunspent
    rw [hseen, List.mem_append, List.mem_filterMap] at hc
    rcases hc with hc | ⟨report, hmem, hc⟩
    · exact h.unspent f fd r older ask hr hask honeshot hunspent c hc hjob
    · -- a report would have spent it
      obtain ⟨r', -, -, hr', hjob', -⟩ := htold report hmem c hc
      obtain ⟨rfl, rfl⟩ := h.own _ _ r' _ _ r hr' hr (hjob'.symm.trans hjob)
      obtain ⟨info, older', ask', hinfo, hask', hevents⟩ := h.asked _ _ r hr
      obtain ⟨-, hlast⟩ := List.append_inj' (hask'.symm.trans hask) rfl
      obtain rfl := List.singleton_inj.mp hlast
      have hany : (reports.any fun report' =>
          decide (report'.1 = report.1 ∧ report'.2.1 = report.2.1)) = true :=
        List.any_eq_true.mpr ⟨report, hmem, decide_eq_true ⟨rfl, rfl⟩⟩
      rw [hany, hinfo, Option.any_some, hevents, ask'.masked_oneshot, honeshot] at hquiet
      cases hquiet

end Moves

/-! ## One step -/

section Step
variable {w w' : Asking F}

theorem Asking.asked_ok {f : F} {fd : RawFd} (hfile : w.process.file fd = some f) (job : ℕ) (ask : Ask) :
    w.asked fd job ask (.ok ()) = { w with
      spent := put w.spent f fd false
      asks := Function.update w.asks job (w.asks job ++ [ask]) } := by
  unfold Asking.asked
  rw [hfile]

theorem Asking.asked_error (fd : RawFd) (job : ℕ) (ask : Ask) (e : Errno) :
    w.asked fd job ask (.error e) = w := by
  unfold Asking.asked
  cases w.process.file fd <;> rfl

theorem Asking.Ok.process (h : Asking.Ok w) {op : DescriptorOp F ℕ} {d : Descriptors F ℕ}
    (hd : descriptorStep w.process op = some d) (hok : MyMio.Careful w.process op)
    (hfewer : Fewer w.process d) : Asking.Ok { w with process := d } :=
  h.fewer (descriptorStep_routed h.routed hok hd) hfewer rfl rfl (Nat.le_refl _)
    (List.Sublist.refl _)

theorem Asking.Ok.register (h : Asking.Ok w) {fd : RawFd} {token : TokenEntry} {interests : Ready}
    {opts : PollOpt} {refused : Bool}
    (hok : MyMio.Careful w.process (.register fd token interests opts w.registrations refused))
    (hw : askingStep w (.register fd token interests opts refused) = some w') : Asking.Ok w' := by
  obtain ⟨d, hd, rfl⟩ := Option.map_eq_some_iff.mp hw
  have hrouted := descriptorStep_routed h.routed hok hd
  rcases register_leaves hd with ⟨f, -, hfile, hresult, hinterest, hregistry⟩ |
    ⟨⟨e, hresult⟩, hinterest, hregistry⟩
  · rw [hresult, Asking.asked_ok hfile]
    exact h.ask hrouted hinterest hregistry (show _ = Ask.mask ⟨interests, opts⟩ from rfl) rfl rfl
      (Nat.le_succ _) (Nat.lt_succ_self _) rfl fun g fd' r' hr' hjob =>
        absurd hjob (Nat.ne_of_lt (h.registered_lt hr'))
  · rw [hresult, Asking.asked_error]
    exact h.fewer hrouted (.of_eq hinterest hregistry) rfl rfl (Nat.le_succ _) (List.Sublist.refl _)

theorem Asking.Ok.reregister (h : Asking.Ok w) {fd : RawFd} {token : TokenEntry} {interests : Ready}
    {opts : PollOpt} {refused : Bool}
    (hok : MyMio.Careful w.process (.reregister fd token interests opts refused))
    (hw : askingStep w (.reregister fd token interests opts refused) = some w') : Asking.Ok w' := by
  obtain ⟨d, hd, rfl⟩ := Option.map_eq_some_iff.mp hw
  have hrouted := descriptorStep_routed h.routed hok hd
  rcases reregister_leaves hd with ⟨f, hfile, hfile', hresult, hinterest, hregistry⟩ |
    ⟨⟨e, hresult⟩, hinterest, hregistry⟩
  · have hregistered : w.process.registered fd = w.process.registry f fd := registered_of_file hfile
    cases hr : w.process.registered fd with
    | none =>
      rw [hr] at hregistry
      exact h.process hd hok (.of_put hinterest hregistry)
    | some r =>
      rw [hr] at hregistry
      have hat : w.process.registry f fd = some r := hregistered.symm.trans hr
      have hlt : r.job < w.registrations := h.registered_lt hat
      dsimp only
      rw [hresult, Asking.asked_ok hfile']
      exact h.ask hrouted hinterest hregistry (show _ = Ask.mask ⟨interests, opts⟩ from rfl) rfl rfl
        (Nat.le_refl _) hlt rfl fun g fd' r' hr' hjob => h.own g fd' r' f fd r hr' hat hjob
  · have hok' := h.process hd hok (.of_eq hinterest hregistry)
    cases w.process.registered fd with
    | none => exact hok'
    | some r =>
      dsimp only
      rw [hresult, Asking.asked_error]
      exact hok'

omit [DecidableEq F] in
theorem Asking.Ok.next (h : Asking.Ok w) (hw : w.next = some w') : Asking.Ok w' := by
  unfold Asking.next at hw
  split at hw
  · cases hw
  · rename_i entry nth rest hbatch
    have hseen : w.seen = w.calls ++ Asking.pending (entry, nth) :: rest.map Asking.pending := by
      unfold Asking.seen
      rw [hbatch, List.map_cons]
    split at hw
    · obtain rfl := Option.some.inj hw
      refine h.fewer h.routed (.of_eq rfl rfl) rfl rfl (Nat.le_refl _) ?_
      rw [hseen]
      exact (List.sublist_cons_self _ _).append_left w.calls
    · obtain rfl := Option.some.inj hw
      refine h.fewer h.routed (.of_eq rfl rfl) rfl rfl (Nat.le_refl _) ?_
      show (w.calls ++ [_] ++ rest.map Asking.pending).Sublist w.seen
      rw [hseen, List.append_assoc]
      exact List.Sublist.refl _

theorem Asking.Ok.select (h : Asking.Ok w) {evts : Events ℕ} {reports : List (F × Report)}
    (hw : askingStep w (.poll evts reports) = some w') : Asking.Ok w' := by
  simp only [askingStep] at hw
  split at hw
  · rename_i hpoll
    obtain ⟨hbatch, hreported⟩ := hpoll
    obtain ⟨d, hd, rfl⟩ := Option.map_eq_some_iff.mp hw
    have hok : MyMio.Careful w.process (.select evts reports) := trivial
    have hrouted := descriptorStep_routed h.routed hok hd
    obtain rfl := Option.some.inj hd
    have hentries := (w.process.selector.select_callbacks evts (w.process.kernelEvents reports)).2.trans
      (h.routed.expected reports)
    refine h.poll hreported hrouted rfl rfl rfl rfl rfl ?_
    unfold Asking.seen
    rw [hbatch]
    dsimp only
    rw [hentries, List.map_map, Descriptors.expected, List.map_filterMap, List.map_nil, List.append_nil]
    rfl
  · cases hw

theorem askingStep_ok {op : AskingOp F} (h : Asking.Ok w) (hok : w.Careful op)
    (hw : askingStep w op = some w') : Asking.Ok w' := by
  cases op with
  | «open» fd f =>
    obtain ⟨d, hd, rfl⟩ := Option.map_eq_some_iff.mp hw
    refine h.process hd trivial ?_
    simp only [descriptorStep] at hd
    split at hd
    · obtain rfl := Option.some.inj hd
      exact .of_eq rfl rfl
    · cases hd
  | tryClone fd fd' =>
    obtain ⟨d, hd, rfl⟩ := Option.map_eq_some_iff.mp hw
    refine h.process hd trivial ?_
    simp only [descriptorStep] at hd
    split at hd
    · obtain ⟨f, -, rfl⟩ := Option.map_eq_some_iff.mp hd
      exact .of_eq rfl rfl
    · cases hd
  | close fd =>
    obtain ⟨d, hd, rfl⟩ := Option.map_eq_some_iff.mp hw
    exact h.process hd hok (close_fewer hd)
  | register fd token interests opts refused => exact h.register hok hw
  | reregister fd token interests opts refused => exact h.reregister hok hw
  | deregister fd refused =>
    obtain ⟨d, hd, rfl⟩ := Option.map_eq_some_iff.mp hw
    exact h.process hd trivial (deregister_fewer hd)
  | poll evts reports => exact h.select hw
  | ioProcess => exact h.next hw

end Step

/-- **What a job is told.** In every run of sockets that are opened, cloned, closed, registered, re-armed
and deregistered, also while a batch is being processed, with calls that succeed or fail: a job is only
called with readiness that its registration had asked for when the entry was collected, besides errors and
hang-ups, and two calls for the same ask only happen if it was not `PollOpt::oneshot`. -/
theorem calls_were_asked (id : Usize) (w : Asking F)
    (hw : ReachableIf askingStep Asking.Careful (· = Asking.new id) w) :
    (∀ c ∈ w.calls, ∃ ask, (w.asks c.job)[c.nth]? = some ask ∧ ask.Grants c.ready) ∧
      w.calls.Pairwise (Repeatable w.asks) := by
  have h : Asking.Ok w := by
    refine hw.invariant (fun w hinit => ?_) fun _ _ _ h hok hstep => askingStep_ok h hok hstep
    subst hinit
    refine ⟨fun f fd => .absent, ?_, ?_, fun _ _ => rfl, ?_, .nil, ?_⟩
    · intro f fd r f' fd' r' hr
      cases hr
    · intro f fd r hr
      cases hr
    · intro c hc
      cases hc
    · intro f fd r older ask hr
      cases hr
  exact ⟨fun c hc => h.kept c (List.mem_append_left _ hc),
    h.once.sublist (List.sublist_append_left _ _)⟩

/-- A oneshot stream is re-armed for writing after its first event. -/
theorem calls_were_asked_rearmed :
    ∃ w : Asking ℕ, run askingStep (Asking.new 0)
        [.open 3 0, .register 3 ⟨.socketEvent, ⟨3⟩⟩ Ready.readable PollOpt.oneshot false,
          .poll (Events.withCapacity 8) [(0, 3, EPOLLIN)], .ioProcess,
          .reregister 3 ⟨.socketEvent, ⟨3⟩⟩ Ready.writable PollOpt.oneshot false,
          .poll (Events.withCapacity 8) [(0, 3, EPOLLOUT)], .ioProcess] = some w ∧
      w.calls = [⟨0, 0, Ready.readable⟩, ⟨0, 1, Ready.writable⟩] ∧
      w.calls.Pairwise (Repeatable w.asks) := by
  have hrun : ReachableIf askingStep Asking.Careful (· = Asking.new 0) _ :=
    .next .ioProcess
      (.next (.poll (Events.withCapacity 8) [(0, 3, EPOLLOUT)])
        (.next (.reregister 3 ⟨.socketEvent, ⟨3⟩⟩ Ready.writable PollOpt.oneshot false)
          (.next .ioProcess
            (.next (.poll (Events.withCapacity 8) [(0, 3, EPOLLIN)])
              (.next (.register 3 ⟨.socketEvent, ⟨3⟩⟩ Ready.readable PollOpt.oneshot false)
                (.next (.open 3 0) (.start rfl) trivial rfl) rfl rfl)
              trivial rfl)
            trivial rfl)
          (fun _ _ => ⟨rfl, rfl⟩) rfl)
        trivial rfl)
      trivial rfl
  exact ⟨_, rfl, rfl, (calls_were_asked 0 _ hrun).2⟩

end MyMio

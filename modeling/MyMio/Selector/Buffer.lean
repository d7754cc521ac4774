import Mathlib.Data.Int.Notation
import MyMio.Foundations.StepSystem
import MyMio.Selector.Epoll

/-! # The event buffer over many polls

An `Events` is filled by `epoll_wait`, by `select` and by `push_event`. `epoll_wait` fills `events`, up to the
capacity of that vector; `select` appends an entry for each event whose fd it finds in its map, and
removes the event of the awakener; `push_event` appends to both, up to the capacity of `entries`.

An event whose fd is not in the map stays in `events` without an entry, and so does all but the last of
several events of the awakener's kind. The vectors then differ in length, `push_event` makes `events`
outgrow its capacity, and the next `epoll_wait` may fill the larger one. `buffer_bounded_iff` says that
this is the only way the buffer goes wrong.
-/

namespace MyMio
set_option autoImplicit false

open StepSystem

universe u

variable {J : Type u}

/-! ## Runs -/

namespace Events

/-- `capacity() as i32`, which `epoll_wait` is given. -/
def maxEvents (evts : Events J) : ℤ := (BitVec.ofNat 32 evts.events.capacity).toInt

/-- The loop of `ReadinessQueue::poll`, as far as it touches the buffer: `queued` is what the queue has
to deliver. -/
def fill (evts : Events J) : List (Event × J) → Events J
  | [] => evts
  | e :: queued =>
    if evts.len < evts.capacity then (evts.pushEvent e.1 e.2).fill queued else evts

end Events

/-- How a call of `Poll::poll` ends, as far as it touches the buffer. -/
inductive BufferOp (J : Type u)
  /-- in `poll1`, which has not got the lock -/
  | timedOut
  /-- with an error of `select`, which has cleared the buffer -/
  | failed
  /-- with the last answer of `epoll_wait`, empty where the wait was interrupted, and the queue -/
  | polled (sel : Selector J) (answer : List EpollEvent) (queued : List (Event × J))

def bufferStep (evts : Events J) : BufferOp J → Option (Events J)
  | .timedOut => some evts
  | .failed => some evts.clear
  | .polled sel answer queued =>
    if 0 < evts.maxEvents ∧ (answer.length : ℤ) ≤ evts.maxEvents then
      some ((sel.select evts answer).2.1.fill queued)
    else none

/-- The two vectors have the same length, which is at most `c`. -/
def Events.Bounded (c : ℕ) (evts : Events J) : Prop :=
  evts.events.len = evts.entries.len ∧ evts.entries.len ≤ c

instance (c : ℕ) (evts : Events J) : Decidable (evts.Bounded c) := inferInstanceAs (Decidable (_ ∧ _))

/-! ## What the map says of an event -/

abbrev EventsMap (J : Type u) := RawFd → Option (JobEntry J)

def eventType (map : EventsMap J) (event : EpollEvent) : Option TokenType :=
  (map (fdOfUserData event.u64)).map fun entry => entry.tokenEntry.ttype

def isMissing (map : EventsMap J) (event : EpollEvent) : Bool := (eventType map event).isNone

def isNotify (map : EventsMap J) (event : EpollEvent) : Bool :=
  eventType map event == some .notifyEvent

def hasEntry (map : EventsMap J) (event : EpollEvent) : Bool :=
  !isMissing map event && !isNotify map event

/-- Every reported fd has an entry, and one of them at most is the awakener's. -/
def Mapped (_ : Events J) : BufferOp J → Prop
  | .polled sel answer _ =>
    (∀ event ∈ answer, isMissing sel.eventsMap event = false) ∧
      answer.countP (isNotify sel.eventsMap) ≤ 1
  | .timedOut | .failed => True

instance (evts : Events J) (op : BufferOp J) : Decidable (Mapped evts op) :=
  match op with
  | .polled _ _ _ => inferInstanceAs (Decidable (_ ∧ _))
  | .timedOut | .failed => .isTrue trivial

section Counts
variable {map map' : EventsMap J} {answer : List EpollEvent}

theorem eventType_isNotify (map : EventsMap J) (event : EpollEvent) :
    isNotify map event = true → isMissing map event = false := by
  unfold isNotify isMissing
  cases eventType map event <;> simp

theorem count_kinds (map : EventsMap J) (answer : List EpollEvent) :
    answer.countP (hasEntry map) + answer.countP (isNotify map) + answer.countP (isMissing map) =
      answer.length := by
  induction answer with
  | nil => rfl
  | cons event answer ih =>
    have hexcl := eventType_isNotify map event
    simp only [List.countP_cons, List.length_cons]
    unfold hasEntry at *
    cases hn : isNotify map event <;> cases hm : isMissing map event <;> simp_all <;> omega

theorem eventType_congr (h : ∀ fd, (map' fd).map JobEntry.tokenEntry = (map fd).map JobEntry.tokenEntry)
    (event : EpollEvent) : eventType map' event = eventType map event := by
  have hfd := congrArg (Option.map TokenEntry.ttype) (h (fdOfUserData event.u64))
  simp only [Option.map_map] at hfd
  exact hfd

end Counts

/-! ## The loop of `select` -/

namespace Selector

/-- One turn changes neither which fds have an entry nor what their token entries are. -/
theorem scanEvent_map (acc : Scan J) (i : ℕ) (event : EpollEvent) (fd : RawFd) :
    ((scanEvent acc i event).eventsMap fd).map JobEntry.tokenEntry =
      (acc.eventsMap fd).map JobEntry.tokenEntry := by
  unfold scanEvent
  dsimp only
  split
  · rfl
  · rename_i entry hentry
    split
    · rfl
    · show (Function.update acc.eventsMap _ _ fd).map _ = _
      by_cases hfd : fd = fdOfUserData event.u64
      · subst hfd
        rw [Function.update_self, hentry]
        rfl
      · rw [Function.update_of_ne hfd]

theorem scanEvent_spec (acc : Scan J) (i : ℕ) (event : EpollEvent) :
    (scanEvent acc i event).entries.len =
        acc.entries.len + (if hasEntry acc.eventsMap event then 1 else 0) ∧
      (acc.entries.len < acc.entries.capacity →
        (scanEvent acc i event).entries.capacity = acc.entries.capacity) ∧
      (scanEvent acc i event).hasNotify = (acc.hasNotify || isNotify acc.eventsMap event) ∧
      (scanEvent acc i event).notifyIdx = if isNotify acc.eventsMap event then i else acc.notifyIdx := by
  unfold scanEvent hasEntry isMissing isNotify eventType
  dsimp only
  cases hentry : acc.eventsMap (fdOfUserData event.u64) with
  | none => simp
  | some entry =>
    by_cases hn : entry.tokenEntry.ttype = .notifyEvent
    · simp [hn]
    · simp only [hn, if_false, Option.map_some, Option.isNone_some, Bool.not_false, Bool.true_and]
      refine ⟨?_, fun hlt => ?_, ?_, ?_⟩
      · simp [Vec.len, hn]
      · unfold Vec.push
        exact if_neg (Nat.ne_of_lt hlt)
      · simp [hn]
      · simp [hn]

structure ScanSpec (acc acc' : Scan J) (i : ℕ) (answer : List EpollEvent) : Prop where
  len : acc'.entries.len = acc.entries.len + answer.countP (hasEntry acc.eventsMap)
  capacity : acc.entries.len + answer.length ≤ acc.entries.capacity →
    acc'.entries.capacity = acc.entries.capacity
  hasNotify : acc'.hasNotify = (acc.hasNotify || answer.any (isNotify acc.eventsMap))
  notifyIdx : (acc.hasNotify = true → acc.notifyIdx < i) → acc'.hasNotify = true →
    acc'.notifyIdx < i + answer.length

/-- **The loop** appends an entry for each event that has one, and remembers an event of the awakener's
kind if there is one. -/
theorem scan_spec (answer : List EpollEvent) : ∀ (acc : Scan J) (i : ℕ),
    ScanSpec acc (scan acc i answer) i answer := by
  induction answer with
  | nil => exact fun acc i => ⟨rfl, fun _ => rfl, by simp [scan], fun h => h⟩
  | cons event answer ih =>
    intro acc i
    obtain ⟨hlen, hcapacity, hnotify, hidx⟩ := scanEvent_spec acc i event
    have hrest := ih (scanEvent acc i event) (i + 1)
    have htype : eventType (scanEvent acc i event).eventsMap = eventType acc.eventsMap :=
      funext fun e => eventType_congr (scanEvent_map acc i event) e
    have hentry : hasEntry (scanEvent acc i event).eventsMap = hasEntry acc.eventsMap := by
      funext e
      unfold hasEntry isMissing isNotify
      rw [htype]
    have hisNotify : isNotify (scanEvent acc i event).eventsMap = isNotify acc.eventsMap := by
      funext e
      unfold isNotify
      rw [htype]
    refine ⟨?_, fun hroom => ?_, ?_, fun hbefore hafter => ?_⟩
    · show (scan (scanEvent acc i event) (i + 1) answer).entries.len = _
      rw [hrest.len, hlen, hentry, List.countP_cons]
      omega
    · show (scan (scanEvent acc i event) (i + 1) answer).entries.capacity = _
      simp only [List.length_cons] at hroom
      have hcap := hcapacity (by omega)
      rw [← hcap]
      apply hrest.capacity
      rw [hlen, hcap]
      split <;> omega
    · show (scan (scanEvent acc i event) (i + 1) answer).hasNotify = _
      rw [hrest.hasNotify, hnotify, hisNotify, List.any_cons, Bool.or_assoc]
    · have hlast := hrest.notifyIdx (fun h => ?_) hafter
      · simp only [List.length_cons]
        show (scan (scanEvent acc i event) (i + 1) answer).notifyIdx < _
        omega
      · rw [hidx]
        split
        · omega
        · rename_i hno
          rw [hnotify, Bool.or_eq_true] at h
          have := hbefore (h.resolve_right hno)
          omega

/-- **What `select` leaves in the buffer**: `events` has all events but one of the awakener's kind, and
`entries` those that have an entry. -/
theorem select_len (sel : Selector J) (evts : Events J) (answer : List EpollEvent) :
    (sel.select evts answer).2.1.events.len =
        answer.length - (if answer.any (isNotify sel.eventsMap) then 1 else 0) ∧
      (sel.select evts answer).2.1.entries.len = answer.countP (hasEntry sel.eventsMap) ∧
      (sel.select evts answer).2.1.events.capacity = evts.events.capacity ∧
      (answer.length ≤ evts.entries.capacity →
        (sel.select evts answer).2.1.entries.capacity = evts.entries.capacity) := by
  have hscan := scan_spec answer ⟨sel.eventsMap, evts.clear.entries, 0, false⟩ 0
  have hlen : evts.clear.entries.len = 0 := rfl
  have hcap : evts.clear.entries.capacity = evts.entries.capacity := rfl
  have hany := hscan.hasNotify
  have hentries := hscan.len
  have hcapacity := hscan.capacity
  rw [Bool.false_or] at hany
  dsimp only at hentries hcapacity hany
  rw [hlen, Nat.zero_add] at hentries hcapacity
  rw [hcap] at hcapacity
  unfold select
  dsimp only
  rw [hany]
  cases hn : answer.any (isNotify sel.eventsMap) with
  | false => exact ⟨rfl, hentries, rfl, hcapacity⟩
  | true =>
    have hidx := hscan.notifyIdx (fun h => by cases h) (hany.trans hn)
    refine ⟨?_, hentries, rfl, hcapacity⟩
    show (List.eraseIdx _ _).length = _
    rw [List.length_eraseIdx, if_pos (by simpa using hidx)]
    rfl

end Selector

/-! ## One call -/

namespace Events
variable {evts evts' : Events J} {c : ℕ}

/-- The drain appends as much to the one vector as to the other. -/
theorem fill_len (queued : List (Event × J)) : ∀ evts : Events J, ∃ n,
    (evts.fill queued).events.len = evts.events.len + n ∧
      (evts.fill queued).entries.len = evts.entries.len + n := by
  induction queued with
  | nil => exact fun evts => ⟨0, rfl, rfl⟩
  | cons e queued ih =>
    intro evts
    unfold fill
    split
    · obtain ⟨n, hevents, hentries⟩ := ih (evts.pushEvent e.1 e.2)
      have hpush₁ : (evts.pushEvent e.1 e.2).events.len = evts.events.len + 1 := by
        simp [pushEvent, Vec.len]
      have hpush₂ : (evts.pushEvent e.1 e.2).entries.len = evts.entries.len + 1 := by
        simp [pushEvent, Vec.len]
      exact ⟨n + 1, by omega, by omega⟩
    · exact ⟨0, rfl, rfl⟩

/-- Both vectors have their first capacity, and neither has more in it than the other. -/
structure Tight (c : ℕ) (evts : Events J) : Prop where
  bounded : evts.Bounded c
  events : evts.events.capacity = c
  entries : evts.entries.capacity = c

theorem Tight.fill (h : evts.Tight c) (queued : List (Event × J)) : (evts.fill queued).Tight c := by
  induction queued generalizing evts with
  | nil => exact h
  | cons e queued ih =>
    unfold Events.fill
    split
    · rename_i hlt
      obtain ⟨hlen, hle⟩ := h.bounded
      have hroom : evts.entries.len < evts.entries.capacity := hlt
      have hevents := h.events
      have hentries := h.entries
      refine ih ⟨⟨?_, ?_⟩, ?_, ?_⟩
      · show (evts.events.push _).items.length = (evts.entries.push _).items.length
        unfold Vec.len at hlen
        simp [hlen]
      · show (evts.entries.push _).items.length ≤ c
        unfold Vec.len at hroom
        simp only [Vec.push_items, List.length_append, List.length_singleton]
        omega
      · show (evts.events.push _).capacity = c
        unfold Vec.push Vec.len at *
        dsimp only
        rw [if_neg (by omega)]
        exact hevents
      · show (evts.entries.push _).capacity = c
        unfold Vec.push Vec.len at *
        dsimp only
        rw [if_neg (by omega)]
        exact hentries
    · exact h

/-- `epoll_wait` does not fill in more than there is room for. -/
theorem length_le_capacity {answer : List EpollEvent} (h : (answer.length : ℤ) ≤ evts.maxEvents) :
    answer.length ≤ evts.events.capacity := by
  unfold maxEvents at h
  have hle : (BitVec.ofNat 32 evts.events.capacity).toInt ≤ (evts.events.capacity : ℤ) := by
    have hnat : (BitVec.ofNat 32 evts.events.capacity).toNat ≤ evts.events.capacity := by
      rw [BitVec.toNat_ofNat]
      exact Nat.mod_le _ _
    have hint : (BitVec.ofNat 32 evts.events.capacity).toInt ≤
        ((BitVec.ofNat 32 evts.events.capacity).toNat : ℤ) := by
      rw [BitVec.toInt_eq_toNat_cond]
      split <;> omega
    omega
  omega

/-- **One call** leaves the buffer in order exactly when every event has an entry, but for one of the
awakener. -/
theorem Tight.step (h : evts.Tight c) {op : BufferOp J} (hs : bufferStep evts op = some evts') :
    (evts'.Bounded c ↔ Mapped evts op) ∧ (Mapped evts op → evts'.Tight c) := by
  cases op with
  | timedOut =>
    obtain rfl := Option.some.inj hs
    exact ⟨⟨fun _ => trivial, fun _ => h.bounded⟩, fun _ => h⟩
  | failed =>
    obtain rfl := Option.some.inj hs
    have hclear : evts.clear.Bounded c := ⟨rfl, Nat.zero_le c⟩
    exact ⟨⟨fun _ => trivial, fun _ => hclear⟩, fun _ => ⟨hclear, h.events, h.entries⟩⟩
  | polled sel answer queued =>
    simp only [bufferStep] at hs
    split at hs
    · rename_i hanswer
      obtain rfl := Option.some.inj hs
      have hroom := length_le_capacity hanswer.2
      obtain ⟨hevents, hentries, hcapacity, hcapacity'⟩ := sel.select_len evts answer
      have hkinds := count_kinds sel.eventsMap answer
      have hany : answer.any (isNotify sel.eventsMap) = decide (0 < answer.countP (isNotify sel.eventsMap)) := by
        rw [Bool.eq_iff_iff, decide_eq_true_eq, List.countP_pos_iff, List.any_eq_true]
      have hmissing : (∀ event ∈ answer, isMissing sel.eventsMap event = false) ↔
          answer.countP (isMissing sel.eventsMap) = 0 := by
        rw [List.countP_eq_zero]
        simp
      have hequal : (sel.select evts answer).2.1.events.len = (sel.select evts answer).2.1.entries.len ↔
          Mapped evts (.polled sel answer queued) := by
        refine Iff.trans ?_ (and_congr_left' hmissing).symm
        rw [hevents, hentries, hany]
        simp only [decide_eq_true_eq]
        split <;> omega
      have htight : Mapped evts (.polled sel answer queued) →
          ((sel.select evts answer).2.1.fill queued).Tight c := by
        intro hmapped
        have hcap := h.events
        have hcap' := h.entries
        refine Tight.fill ⟨⟨hequal.mpr hmapped, ?_⟩, hcapacity.trans hcap,
          (hcapacity' (by omega)).trans hcap'⟩ queued
        omega
      refine ⟨⟨fun hbounded => ?_, fun hmapped => (htight hmapped).bounded⟩, htight⟩
      obtain ⟨n, hfill, hfill'⟩ := fill_len queued (sel.select evts answer).2.1
      have hlen := hbounded.1
      exact hequal.mp (by omega)
    · cases hs

end Events

/-- **When the buffer is in order.** As long as every reported fd has an entry, and one of the events at
most is the awakener's, both vectors have the same length after every call, at most the capacity the
buffer was made with; and the first call for which this fails leaves them with different lengths. -/
theorem buffer_bounded_iff (c : ℕ) (evts : Events J)
    (h : ReachableIf bufferStep Mapped (· = Events.withCapacity c) evts) :
    evts.Bounded c ∧ ∀ op evts', bufferStep evts op = some evts' →
      (evts'.Bounded c ↔ Mapped evts op) := by
  have htight : evts.Tight c := h.invariant
    (fun evts hinit => by
      subst hinit
      exact ⟨⟨rfl, Nat.zero_le c⟩, rfl, rfl⟩)
    (fun evts op evts' ht hok hstep => (ht.step hstep).2 hok)
  exact ⟨htight.bounded, fun op evts' hstep => (htight.step hstep).1⟩

/-- A selector whose map has the awakener's fd 3 and the client's fd 4. -/
def awakenerAndClient : Selector ℕ where
  id := 1
  interestList := fun _ => none
  eventsMap fd :=
    if fd = 3 then some ⟨⟨.notifyEvent, ⟨0⟩⟩, 0, .empty⟩
    else if fd = 4 then some ⟨⟨.socketEvent, ⟨4⟩⟩, 1, .empty⟩ else none

/-- The awakener, the client, and then one event from the queue, with a buffer for two. -/
theorem buffer_bounded_iff_two : ∃ evts : Events ℕ,
    run bufferStep (Events.withCapacity 2)
      [.polled awakenerAndClient [⟨EPOLLIN, 3⟩, ⟨EPOLLIN, 4⟩]
        [(⟨.readable, ⟨.tokenEvent, ⟨9⟩⟩⟩, 7)]] = some evts ∧
      evts.entries.len = 2 ∧ evts.Bounded 2 :=
  ⟨_, rfl, rfl, (buffer_bounded_iff 2 _ (.next (.polled awakenerAndClient [⟨EPOLLIN, 3⟩, ⟨EPOLLIN, 4⟩]
    [(⟨.readable, ⟨.tokenEvent, ⟨9⟩⟩⟩, 7)]) (.start rfl) (by decide) rfl)).1⟩

/-- A buffer for one: an event of an fd that is not in the map, and one from the queue. The vectors differ
in length, `events` has outgrown its capacity, and a second poll fills in more than one entry. -/
theorem buffer_outgrown : ∃ evts evts' : Events ℕ,
    run bufferStep (Events.withCapacity 1)
      [.polled awakenerAndClient [⟨EPOLLIN, 5⟩] [(⟨.readable, ⟨.tokenEvent, ⟨9⟩⟩⟩, 7)]] = some evts ∧
      evts.events.len = 2 ∧ evts.entries.len = 1 ∧ ¬ evts.Bounded 1 ∧
      bufferStep evts (.polled awakenerAndClient [⟨EPOLLIN, 4⟩, ⟨EPOLLOUT, 4⟩] []) = some evts' ∧
      evts'.entries.len = 2 :=
  ⟨_, _, rfl, rfl, rfl, by decide, rfl, rfl⟩

end MyMio

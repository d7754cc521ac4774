import MyMio.Foundations.Values
import MyMio.Timer.Deadlines

/-! # The wheel in every run

Whatever is inserted, cancelled and polled, the slots keep listing the entries of the slab: a list a slot,
without repetition, whose keys are linked both ways in its order, and every entry in the list of its
own tick. So no index is vacant, and a call is one update of the pending timeouts, or none.

`insert` is a step of its own here, for any tick, not only those that `set_timeout_at` asks for.
-/

namespace MyMio
set_option autoImplicit false

open DoublyLinked StepSystem PartialMap

universe u

variable {T : Type u}

/-! ## Runs -/

inductive WheelOp (T : Type u)
  | insert (tick : ℕ) (state : T) (key : Token)
  | cancelTimeout (timeout : Timeout)
  | pollTo (fuel : ℕ) (target : ℕ)

def wheelStep (t : Timer T) : WheelOp T → Option (Timer T)
  | .insert tick state key => (t.insert tick state key).map Prod.fst
  | .cancelTimeout timeout => (t.cancelTimeout timeout).map Prod.fst
  | .pollTo fuel target => (t.pollTo fuel target).map Prod.fst

theorem wheelStep_cursor {t t' : Timer T} {op : WheelOp T} (ht : HasCursor t)
    (h : wheelStep t op = some t') : HasCursor t' := by
  cases op with
  | insert tick state key =>
    obtain ⟨lists, behind, ahead, c⟩ := ht
    obtain ⟨⟨t₁, timeout⟩, hins, rfl⟩ := Option.map_eq_some_iff.mp h
    obtain ⟨lists', c', -⟩ := c.inserted hins
    exact ⟨_, _, _, c'⟩
  | cancelTimeout timeout =>
    have hstep : timerStep t (.cancelTimeout timeout) = some t' := h
    exact timerStep_cursor ht hstep
  | pollTo fuel target =>
    have hstep : timerStep t (.pollTo fuel target) = some t' := h
    exact timerStep_cursor ht hstep

def loopStep (target : ℕ) (t : Timer T) (_ : Unit) : Option (Timer T) :=
  if t.tick ≤ target then
    match t.pollTurn with
    | some (t', none) => some t'
    | _ => none
  else none

theorem loopStep_spec {target : ℕ} {t t' : Timer T} (h : loopStep target t () = some t') :
    t.tick ≤ target ∧ t.pollTurn = some (t', none) := by
  unfold loopStep at h
  split at h
  · refine ⟨‹_›, ?_⟩
    split at h
    · rename_i hturn
      exact (Option.some.inj h) ▸ hturn
    · cases h
  · cases h

/-- The states the loop of `poll_to` goes through. -/
def Passes (target : ℕ) (t : Timer T) : Timer T → Prop := Reachable (loopStep target) (· = t)

theorem Passes.cons {target : ℕ} {t t₁ t' : Timer T} (h : loopStep target t () = some t₁)
    (hp : Passes target t₁ t') : Passes target t t' := by
  induction hp with
  | start h' =>
    subst h'
    have hstart : Passes target t t := Reachable.start rfl
    exact hstart.next () h
  | next a _ ha ih => exact ih.next a ha

/-- **The loop, seen from its end**: it leaves a state it goes through, beyond the target or with the
entry it finds there. -/
theorem pollLoop_passes {target fuel : ℕ} {t t' : Timer T} {r : Option (Entry T)}
    (h : Timer.pollLoop fuel t target = some (t', r)) :
    (r = none ∧ Passes target t t' ∧ target < t'.tick) ∨
    (∃ e t₀, r = some e ∧ Passes target t t₀ ∧ t₀.tick ≤ target ∧
      t₀.pollTurn = some (t', some e)) := by
  induction fuel generalizing t with
  | zero => cases h
  | succ fuel ih =>
    unfold Timer.pollLoop at h
    by_cases hle : t.tick ≤ target
    · rw [if_pos hle] at h
      cases hone : t.pollTurn with
      | none => simp [hone] at h
      | some p =>
        obtain ⟨t₁, r₁⟩ := p
        rw [hone] at h
        cases r₁ with
        | none =>
          have hstep : loopStep target t () = some t₁ := by simp [loopStep, hle, hone]
          rcases ih h with ⟨hr, hp, hlt⟩ | ⟨e, t₀, hr, hp, hle₀, hturn⟩
          · exact .inl ⟨hr, hp.cons hstep, hlt⟩
          · exact .inr ⟨e, t₀, hr, hp.cons hstep, hle₀, hturn⟩
        | some e =>
          obtain ⟨rfl, rfl⟩ := Prod.mk.inj (Option.some.inj h)
          exact .inr ⟨e, t, rfl, .start rfl, hle, hone⟩
    · rw [if_neg hle] at h
      obtain ⟨rfl, rfl⟩ := Prod.mk.inj (Option.some.inj h)
      exact .inl ⟨rfl, .start rfl, Nat.lt_of_not_le hle⟩

/-- The states the loop goes through all hold the same timeouts. -/
theorem Passes.pending {target : ℕ} {t t' : Timer T} (ht : HasCursor t)
    (hp : Passes target t t') : HasCursor t' ∧ t'.pending = t.pending := by
  refine Reachable.invariant (P := fun s => HasCursor s ∧ s.pending = t.pending)
    (fun s hs => ?_) (fun s a s' hs hstep => ?_) hp
  · obtain rfl : s = t := hs
    exact ⟨ht, rfl⟩
  · obtain ⟨hc, hpend⟩ := hs
    obtain ⟨-, hturn⟩ := loopStep_spec hstep
    refine ⟨hasCursor_turn hc hturn, ?_⟩
    obtain ⟨lists, behind, ahead, c⟩ := hc
    rcases c.pollTurn hturn with ⟨-, -, -, h, -⟩ | ⟨_, _, _, _, -, -, -, hr, -⟩ |
      ⟨_, _, _, -, -, -, -, -, h, -⟩
    · exact h.trans hpend
    · cases hr
    · exact h.trans hpend

/-! ## What the slots list -/

/-- The keys listed by each slot, in the order of their links. -/
structure Represents (t : Timer T) (lists : ℕ → List Token) : Prop where
  slot : ∀ tick, t.slotFor tick < t.wheel.slots.length
  head : ∀ s, s < t.wheel.slots.length → (t.wheel.slot s).head = (lists s).headD EMPTY
  nodup : ∀ s, (lists s).Nodup
  linked : ∀ s xs k ys, lists s = xs ++ k :: ys → ∃ e, t.entries k = some e ∧
    e.links.prev = xs.getLastD EMPTY ∧ e.links.next = ys.headD EMPTY
  oneList : ∀ k e s, t.entries k = some e → (k ∈ lists s ↔ s = t.slotFor e.links.tick)
  forth : ∀ k e, t.entries k = some e → e.links.next ≠ EMPTY →
    ∃ e', t.entries e.links.next = some e' ∧ e'.links.prev = k
  back : ∀ k e, t.entries k = some e → e.links.prev ≠ EMPTY →
    ∃ e', t.entries e.links.prev = some e' ∧ e'.links.next = k
  vacant : t.entries EMPTY = none
  cursor : t.next = EMPTY ∨ t.next ∈ lists (t.slotFor t.tick)

section Lists
variable {t : Timer T} {lists : ℕ → List Token} {behind ahead : List Token} {k : Token} {e : Entry T}

theorem Threaded.linked (h : Threaded t lists) {s : ℕ} {xs ys : List Token}
    (hl : lists s = xs ++ k :: ys) :
    ∃ e, t.entries k = some e ∧ e.links.prev = xs.getLastD EMPTY ∧ e.links.next = ys.headD EMPTY := by
  obtain ⟨e, he, -⟩ := h.entry_of_mem (s := s) (k := k) (by simp [hl])
  exact ⟨e, he, h.neighbours he hl⟩

theorem Threaded.forth (h : Threaded t lists) (hk : t.entries k = some e)
    (hne : e.links.next ≠ EMPTY) :
    ∃ e', t.entries e.links.next = some e' ∧ e'.links.prev = k := by
  obtain ⟨xs, ys, hl⟩ := List.append_of_mem (h.pending_mem (pendingOf_of_entry hk))
  have hnext := (h.neighbours hk hl).2
  cases ys with
  | nil => exact absurd hnext hne
  | cons y ys =>
    have hl' : lists (t.slotFor e.links.tick) = (xs ++ [k]) ++ y :: ys := by simp [hl]
    obtain ⟨e', he', hprev, -⟩ := h.linked hl'
    obtain rfl : e.links.next = y := hnext
    exact ⟨e', he', hprev.trans (by simp)⟩

theorem Threaded.back (h : Threaded t lists) (hk : t.entries k = some e)
    (hne : e.links.prev ≠ EMPTY) :
    ∃ e', t.entries e.links.prev = some e' ∧ e'.links.next = k := by
  obtain ⟨xs, ys, hl⟩ := List.append_of_mem (h.pending_mem (pendingOf_of_entry hk))
  have hprev := (h.neighbours hk hl).1
  rcases List.eq_nil_or_concat xs with rfl | ⟨init, x, rfl⟩
  · exact absurd hprev hne
  · have hl' : lists (t.slotFor e.links.tick) = init ++ x :: k :: ys := by simp [hl]
    obtain ⟨e', he', -, hnext⟩ := h.linked hl'
    obtain rfl : e.links.prev = x := by simpa using hprev
    exact ⟨e', he', hnext⟩

theorem Cursor.represents (c : Cursor t lists behind ahead) : Represents t lists where
  slot := t.wheel.slotFor_lt
  head := c.head
  nodup := c.nodup
  linked _ _ _ _ hl := c.linked hl
  oneList k e s hk := by
    have hmem := c.pending_mem (pendingOf_of_entry hk)
    exact ⟨fun hs => c.slot_unique hs hmem, fun hs => hs ▸ hmem⟩
  forth _ _ hk hne := c.forth hk hne
  back _ _ hk hne := c.back hk hne
  vacant := pendingOf_eq_none.mp c.vacant
  cursor := by
    by_cases hnext : t.next = EMPTY
    · exact .inl hnext
    · refine .inr (c.ahead_mem ?_)
      have hhead := c.next
      rw [hhead] at hnext ⊢
      exact headD_mem hnext

end Lists

/-! ## No index is vacant -/

/-- Every call returns; only the scan can fail, where no tick is left for it. -/
structure NeverPanics (t : Timer T) : Prop where
  insert : ∀ tick state key, t.entries key = none → key ≠ EMPTY →
    ∃ p, t.insert tick state key = some p
  cancelTimeout : ∀ timeout, ∃ p, t.cancelTimeout timeout = some p
  pollTurn : ∀ target t₀, Passes target t t₀ → t₀.pollTurn = none →
    t₀.next = EMPTY ∧ U64_MAX ≤ t₀.tick
  nextTick : ∀ target t₀, Passes target t t₀ → ∃ r, t₀.nextTick = some r
  pollTo : ∀ target, target < U64_MAX → t.tick < U64_MAX →
    ∃ fuel p, t.pollTo fuel target = some p

section Safety
variable {t : Timer T} {lists : ℕ → List Token} {behind ahead : List Token}

theorem Cursor.pollTurn_eq_none (c : Cursor t lists behind ahead) (h : t.pollTurn = none) :
    t.next = EMPTY ∧ U64_MAX ≤ t.tick := by
  by_cases hmax : t.tick < U64_MAX
  · obtain ⟨t', r, hturn⟩ := c.pollTurn_isSome hmax
    rw [h] at hturn
    cases hturn
  · refine ⟨?_, Nat.le_of_not_lt hmax⟩
    by_contra hne
    have hmem : t.next ∈ ahead := by
      have hhead := c.next
      rw [hhead] at hne ⊢
      exact headD_mem hne
    obtain ⟨e, he, -⟩ := c.entry_of_mem (c.ahead_mem hmem)
    obtain ⟨t₂, lists', htake, -⟩ := (c.resetAtHead t.next).take (k := t.next) (e := e) he
    have he' : (t.resetAtHead t.next).entries t.next = some e := he
    simp only [Timer.pollTurn, hne, if_false, he', htake, Option.map_some] at h
    split at h <;> cases h

theorem Cursor.nextTick_isSome (c : Cursor t lists behind ahead) : ∃ r, t.nextTick = some r := by
  unfold Timer.nextTick
  by_cases hne : t.next = EMPTY
  · exact ⟨_, if_neg (not_not_intro hne)⟩
  · have hmem : t.next ∈ ahead := by
      have hhead := c.next
      rw [hhead] at hne ⊢
      exact headD_mem hne
    obtain ⟨e, he, -⟩ := c.entry_of_mem (c.ahead_mem hmem)
    rw [if_pos hne, he]
    exact ⟨_, rfl⟩

theorem HasCursor.neverPanics (ht : HasCursor t) : NeverPanics t where
  insert tick state key hkey hne := by
    obtain ⟨lists, behind, ahead, c⟩ := ht
    obtain ⟨t', lists', hins, -⟩ := c.insert tick state hkey hne
    exact ⟨_, hins⟩
  cancelTimeout timeout := by
    obtain ⟨lists, behind, ahead, c⟩ := ht
    by_cases hmatch : ∃ e, t.entries timeout.token = some e ∧ e.links.tick = timeout.tick
    · obtain ⟨e, he, htick⟩ := hmatch
      obtain ⟨t', lists', hcancel, -⟩ := c.cancelTimeout he htick
      exact ⟨_, hcancel⟩
    · exact ⟨_, cancelTimeout_idle fun e he htick => hmatch ⟨e, he, htick⟩⟩
  pollTurn target t₀ hp hnone := by
    obtain ⟨⟨lists, behind, ahead, c⟩, -⟩ := hp.pending ht
    exact c.pollTurn_eq_none hnone
  nextTick target t₀ hp := by
    obtain ⟨⟨lists, behind, ahead, c⟩, -⟩ := hp.pending ht
    exact c.nextTick_isSome
  pollTo target htarget htick := by
    obtain ⟨fuel, t', r, h⟩ := pollTo_total ht htarget htick
    exact ⟨fuel, _, h⟩

end Safety

/-! ## Conservation -/

noncomputable instance : Fintype Token :=
  Fintype.ofEquiv (Fin (2 ^ 64))
    ⟨fun n => ⟨⟨n⟩⟩, fun k => k.val.toFin, fun _ => rfl, fun _ => rfl⟩

noncomputable def Timer.timeouts (t : Timer T) : Multiset (ℕ × T) := values t.pending

/-- What each call does to the pending timeouts. -/
structure Conserves (t : Timer T) : Prop where
  insert : ∀ tick state key t' timeout, t.insert tick state key = some (t', timeout) →
    timeout = ⟨key, tick⟩ ∧ t'.pending = Function.update t.pending key (some (tick, state)) ∧
      t'.timeouts = (tick, state) ::ₘ t.timeouts
  cancelled : ∀ timeout t' v, t.cancelTimeout timeout = some (t', some v) →
    t.pending timeout.token = some (timeout.tick, v) ∧
      t'.pending = Function.update t.pending timeout.token none ∧
      t.timeouts = (timeout.tick, v) ::ₘ t'.timeouts
  notCancelled : ∀ timeout t', t.cancelTimeout timeout = some (t', none) → t'.pending = t.pending
  polled : ∀ fuel target t' e, t.pollTo fuel target = some (t', some e) →
    ∃ k, t.pending k = some (e.links.tick, e.state) ∧
      t'.pending = Function.update t.pending k none ∧
      t.timeouts = (e.links.tick, e.state) ::ₘ t'.timeouts
  notPolled : ∀ fuel target t', t.pollTo fuel target = some (t', none) → t'.pending = t.pending

section Conservation
variable {t t' : Timer T} {k : Token} {p : ℕ × T}

theorem timeouts_insert (hk : t.pending k = none)
    (h : t'.pending = Function.update t.pending k (some p)) : t'.timeouts = p ::ₘ t.timeouts := by
  rw [Timer.timeouts, h, values_update_some hk]
  rfl

theorem timeouts_remove (hk : t.pending k = some p)
    (h : t'.pending = Function.update t.pending k none) : t.timeouts = p ::ₘ t'.timeouts := by
  rw [Timer.timeouts, Timer.timeouts, h]
  exact values_update_none hk

theorem HasCursor.conserves (ht : HasCursor t) : Conserves t where
  insert tick state key t' timeout h := by
    obtain ⟨lists, behind, ahead, c⟩ := ht
    obtain ⟨hkey, -⟩ := insert_vacant h
    obtain ⟨lists', -, hpend, -, htimeout⟩ := c.inserted h
    exact ⟨htimeout, hpend, timeouts_insert (pendingOf_eq_none.mpr hkey) hpend⟩
  cancelled timeout t' v h := by
    obtain ⟨lists, behind, ahead, c⟩ := ht
    rcases cancelTimeout_cases c h with ⟨e, lists', he, htick, hv, -, hpend, -⟩ | ⟨-, hv, -⟩
    · obtain rfl := Option.some.inj hv
      have hk : t.pending timeout.token = some (timeout.tick, e.state) :=
        htick ▸ pendingOf_of_entry he
      exact ⟨hk, hpend, timeouts_remove hk hpend⟩
    · cases hv
  notCancelled timeout t' h := by
    obtain ⟨lists, behind, ahead, c⟩ := ht
    rcases cancelTimeout_cases c h with ⟨_, _, -, -, hv, -⟩ | ⟨-, -, rfl⟩
    · cases hv
    · rfl
  polled fuel target t' e h := by
    rcases pollLoop_passes h with ⟨hr, -⟩ | ⟨e', t₀, hr, hp, -, hturn⟩
    · cases hr
    · obtain rfl := Option.some.inj hr
      obtain ⟨⟨lists, behind, ahead, c⟩, hsame⟩ := hp.pending ht
      rcases c.pollTurn hturn with ⟨-, hr, -⟩ | ⟨k, _, e', _, -, he, -, hr, -, hpend, -⟩ |
        ⟨_, _, _, -, -, -, hr, -⟩
      · cases hr
      · obtain rfl := Option.some.inj hr
        rw [hsame] at hpend
        have hk : t.pending k = some (e.links.tick, e.state) := hsame ▸ pendingOf_of_entry he
        exact ⟨k, hk, hpend, timeouts_remove hk hpend⟩
      · cases hr
  notPolled fuel target t' h := by
    rcases pollLoop_passes h with ⟨-, hp, -⟩ | ⟨_, _, hr, -⟩
    · exact (hp.pending ht).2
    · cases hr

end Conservation

/-- **The wheel threads the pending timeouts, and each call is one update of them.** In every run of
`insert`, `cancel_timeout` and `poll_to`. -/
theorem wheel_represents (tickMs numSlots : ℕ) (t : Timer T)
    (ht : Reachable wheelStep (· = Timer.new tickMs numSlots) t) :
    (∃ lists, Represents t lists) ∧ NeverPanics t ∧ Conserves t := by
  have hc : HasCursor t := ht.invariant
    (fun t hinit => ⟨_, _, _, hinit ▸ cursor_new tickMs numSlots⟩)
    (fun t op t' hc hstep => wheelStep_cursor hc hstep)
  refine ⟨?_, hc.neverPanics, hc.conserves⟩
  obtain ⟨lists, behind, ahead, c⟩ := hc
  exact ⟨lists, c.represents⟩

/-- Two entries of one slot, the first one cancelled, the second one scanned over. -/
theorem wheel_represents_two :
    ∃ t : Timer Bool, run wheelStep (Timer.new 100 4)
        [.insert 1 true ⟨0⟩, .insert 5 false ⟨1⟩, .cancelTimeout ⟨⟨0⟩, 1⟩, .pollTo 9 2] = some t ∧
      (∃ lists, Represents t lists) ∧ NeverPanics t ∧ Conserves t :=
  ⟨_, rfl, wheel_represents 100 4 _
    (.next (.pollTo 9 2) (.next (.cancelTimeout ⟨⟨0⟩, 1⟩) (.next (.insert 5 false ⟨1⟩)
      (.next (.insert 1 true ⟨0⟩) (.start rfl) rfl) rfl) rfl) rfl)⟩

end MyMio

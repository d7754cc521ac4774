import MyMio.Timer.Wheel

/-! # The cursor of `poll_to`

`poll_to` walks the list of one slot at a time. `Cursor` splits the list of the slot of `tick` into the
keys the scan has passed, `behind`, and those it has not, `ahead`, whose first one is `next`. New
timeouts of that slot are put in front of the list, so behind the cursor; a cancelled one leaves
whichever part it is in. `Cursor.pollTurn` says what one turn of the loop does: go to the next slot,
return a due entry, or step over one that is not due.
-/

namespace MyMio
set_option autoImplicit false

open DoublyLinked

universe u

variable {T : Type u} {t t' : Timer T} {lists : ℕ → List Token} {behind ahead : List Token}

structure Cursor (t : Timer T) (lists : ℕ → List Token) (behind ahead : List Token) : Prop
    extends Threaded t lists where
  split : lists (t.slotFor t.tick) = behind ++ ahead
  next : t.next = ahead.headD EMPTY

theorem cursor_new (tickMs numSlots : ℕ) :
    Cursor (Timer.new tickMs numSlots : Timer T) (fun _ => []) [] [] :=
  ⟨threaded_new tickMs numSlots, rfl, rfl⟩

theorem slotFor_congr (h : t'.wheel.mask = t.wheel.mask) (tick : ℕ) :
    t'.slotFor tick = t.slotFor tick := by
  rw [Timer.slotFor, Timer.slotFor, Wheel.slotFor, Wheel.slotFor, h]

theorem Cursor.behind_mem (c : Cursor t lists behind ahead) {k : Token} (hk : k ∈ behind) :
    k ∈ lists (t.slotFor t.tick) := by
  rw [c.split]
  exact List.mem_append_left ahead hk

theorem Cursor.ahead_mem (c : Cursor t lists behind ahead) {k : Token} (hk : k ∈ ahead) :
    k ∈ lists (t.slotFor t.tick) := by
  rw [c.split]
  exact List.mem_append_right behind hk

theorem Cursor.ne_next (c : Cursor t lists behind ahead) {k : Token} (hk : k ≠ EMPTY)
    (hmem : k ∉ ahead) : k ≠ t.next := by
  intro he
  rw [c.next] at he
  exact hmem (he ▸ headD_mem (he ▸ hk))

/-! ## `insert` and `take` -/

theorem Cursor.insert (c : Cursor t lists behind ahead) (tick : ℕ) (state : T) {key : Token}
    (hkey : t.entries key = none) (hne : key ≠ EMPTY) :
    ∃ t' lists', t.insert tick state key = some (t', ⟨key, tick⟩) ∧
      Cursor t' lists' (if t.slotFor tick = t.slotFor t.tick then key :: behind else behind) ahead ∧
      t'.pending = Function.update t.pending key (some (tick, state)) ∧ t'.tick = t.tick := by
  obtain ⟨t', hins, hth, hpend, hmask, htick, hnext⟩ := c.toThreaded.insert tick state hkey hne
  refine ⟨t', _, hins, ⟨hth, ?_, hnext.trans c.next⟩, hpend, htick⟩
  rw [slotFor_congr hmask, htick]
  by_cases hs : t.slotFor tick = t.slotFor t.tick
  · rw [if_pos hs, ← hs, Function.update_self, hs, c.split]
    rfl
  · rw [if_neg hs, Function.update_of_ne fun e => hs e.symm, c.split]

/-- **`take` at a cursor**: the key leaves the part it is in, and the cursor stays between the two. -/
theorem Cursor.take (c : Cursor t lists behind ahead) {k : Token} {e : Entry T}
    (hk : t.entries k = some e) :
    ∃ t' lists', t.take e.links k = some (t', e) ∧
      Cursor t' lists' (behind.erase k) (ahead.erase k) ∧
      t'.pending = Function.update t.pending k none ∧ t'.tick = t.tick := by
  have hmem : k ∈ lists (t.slotFor e.links.tick) := c.pending_mem (pendingOf_of_entry hk)
  have hne : k ≠ EMPTY := fun he => c.empty_not_mem _ (he ▸ hmem)
  have hnd := c.nodup (t.slotFor t.tick)
  rw [c.split] at hnd
  obtain ⟨hndb, hnda, hdisj⟩ := List.nodup_append.mp hnd
  by_cases hs : t.slotFor e.links.tick = t.slotFor t.tick
  · have hin := hmem
    rw [hs, c.split] at hin
    by_cases hb : k ∈ behind
    · have ha : k ∉ ahead := fun ha => hdisj k hb k ha rfl
      obtain ⟨xs, ys, rfl⟩ := List.append_of_mem hb
      have hl : lists (t.slotFor e.links.tick) = xs ++ k :: (ys ++ ahead) := by
        rw [hs, c.split, List.append_assoc, List.cons_append]
      obtain ⟨t', htake, hth, hpend, hmask, htick, hnext⟩ := c.toThreaded.take hk hl
      have hkx : k ∉ xs := fun hm => (List.nodup_append.mp hndb).2.2 k hm k (by simp) rfl
      refine ⟨t', _, htake, ⟨hth, ?_, ?_⟩, hpend, htick⟩
      · rw [slotFor_congr hmask, htick, ← hs, Function.update_self, List.erase_append_right _ hkx,
          List.erase_cons_head, List.erase_of_not_mem ha, List.append_assoc]
      · rw [hnext, if_neg (c.ne_next hne ha), c.next, List.erase_of_not_mem ha]
    · have ha : k ∈ ahead := (List.mem_append.mp hin).resolve_left hb
      obtain ⟨xs, ys, rfl⟩ := List.append_of_mem ha
      have hl : lists (t.slotFor e.links.tick) = (behind ++ xs) ++ k :: ys := by
        rw [hs, c.split, List.append_assoc]
      obtain ⟨t', htake, hth, hpend, hmask, htick, hnext⟩ := c.toThreaded.take hk hl
      have hkx : k ∉ xs := fun hm => (List.nodup_append.mp hnda).2.2 k hm k (by simp) rfl
      have herase : (xs ++ k :: ys).erase k = xs ++ ys := by
        rw [List.erase_append_right _ hkx, List.erase_cons_head]
      refine ⟨t', _, htake, ⟨hth, ?_, ?_⟩, hpend, htick⟩
      · rw [slotFor_congr hmask, htick, ← hs, Function.update_self, List.erase_of_not_mem hb, herase,
          List.append_assoc]
      · rw [hnext, c.next, herase]
        cases xs with
        | nil => rw [List.nil_append, List.nil_append, List.headD_cons, if_pos rfl]
        | cons x xs =>
          have hx : k ≠ x := fun he => hkx (he ▸ List.mem_cons_self)
          rw [List.cons_append, List.cons_append, List.headD_cons, List.headD_cons, if_neg hx]
  · have hb : k ∉ behind := fun hm => hs (c.slot_unique hmem (c.behind_mem hm))
    have ha : k ∉ ahead := fun hm => hs (c.slot_unique hmem (c.ahead_mem hm))
    obtain ⟨xs, ys, hl⟩ := List.append_of_mem hmem
    obtain ⟨t', htake, hth, hpend, hmask, htick, hnext⟩ := c.toThreaded.take hk hl
    refine ⟨t', _, htake, ⟨hth, ?_, ?_⟩, hpend, htick⟩
    · rw [slotFor_congr hmask, htick, Function.update_of_ne fun e => hs e.symm, c.split,
        List.erase_of_not_mem hb, List.erase_of_not_mem ha]
    · rw [hnext, if_neg (c.ne_next hne ha), c.next, List.erase_of_not_mem ha]

/-! ## `cancel_timeout` -/

theorem cancelTimeout_idle {timeout : Timeout}
    (h : ∀ e, t.entries timeout.token = some e → e.links.tick ≠ timeout.tick) :
    t.cancelTimeout timeout = some (t, none) := by
  unfold Timer.cancelTimeout
  cases he : t.entries timeout.token with
  | none => rfl
  | some e => exact if_pos (h e he)

theorem Cursor.cancelTimeout (c : Cursor t lists behind ahead) {timeout : Timeout} {e : Entry T}
    (he : t.entries timeout.token = some e) (htick : e.links.tick = timeout.tick) :
    ∃ t' lists', t.cancelTimeout timeout = some (t', some e.state) ∧
      Cursor t' lists' (behind.erase timeout.token) (ahead.erase timeout.token) ∧
      t'.pending = Function.update t.pending timeout.token none ∧ t'.tick = t.tick := by
  obtain ⟨t', lists', htake, c', hpend, ht⟩ := c.take he
  refine ⟨t', lists', ?_, c', hpend, ht⟩
  simp only [Timer.cancelTimeout, he, htick, ne_eq, not_true_eq_false, if_false, htake,
    Option.map_some]

/-! ## One turn of the loop -/

theorem Threaded.setNextTick (h : Threaded t lists) (tick tick' : ℕ) :
    Threaded { t with wheel := t.wheel.setNextTick (t.slotFor tick) tick' } lists := by
  refine ⟨h.chain, fun s hs => ?_, h.mem, h.nodup, h.vacant⟩
  have hs' : s < t.wheel.slots.length := by simpa [Wheel.setNextTick] using hs
  have hslot : t.slotFor tick < t.wheel.slots.length := t.wheel.slotFor_lt tick
  show ((t.wheel.set (t.slotFor tick) _).slot s).head = _
  rw [Wheel.slot_set _ hslot, ← h.head s hs']
  split
  · rename_i he
    rw [he]
  · rfl

theorem Cursor.enterSlot (c : Cursor t lists behind []) (h : t.tick < U64_MAX) :
    t.pollTurn = some (t.enterSlot (t.tick + 1), none) ∧
      Cursor (t.enterSlot (t.tick + 1)) lists [] (lists (t.slotFor (t.tick + 1))) := by
  have hslot : t.slotFor (t.tick + 1) < t.wheel.slots.length := t.wheel.slotFor_lt (t.tick + 1)
  have hmask : (t.enterSlot (t.tick + 1)).wheel.mask = t.wheel.mask := by
    unfold Timer.enterSlot
    dsimp only
    split <;> rfl
  refine ⟨?_, ?_, ?_, c.head _ hslot⟩
  · have hnext : t.next = EMPTY := c.next
    simp only [Timer.pollTurn, hnext, if_true, checkedSucc, h, Option.map_some]
  · unfold Timer.enterSlot
    by_cases he : (t.wheel.slot (t.slotFor (t.tick + 1))).head = EMPTY
    · have hth := c.toThreaded.setNextTick (t.tick + 1) TICK_MAX
      simp only [he, if_true]
      exact ⟨hth.chain, hth.head, hth.mem, hth.nodup, hth.vacant⟩
    · simp only [he, if_false]
      exact ⟨c.chain, c.head, c.mem, c.nodup, c.vacant⟩
  · exact slotFor_congr hmask _ ▸ rfl

theorem resetAtHead_mask (t : Timer T) (curr : Token) :
    (t.resetAtHead curr).wheel.mask = t.wheel.mask := by
  unfold Timer.resetAtHead
  dsimp only
  split <;> rfl

theorem Cursor.resetAtHead (c : Cursor t lists behind ahead) (curr : Token) :
    Cursor (t.resetAtHead curr) lists behind ahead := by
  refine ⟨?_, (congrArg lists (slotFor_congr (resetAtHead_mask t curr) _)).trans c.split, c.next⟩
  unfold Timer.resetAtHead
  dsimp only
  split
  · exact c.toThreaded.setNextTick t.tick TICK_MAX
  · exact c.toThreaded

theorem Cursor.stepOver {k : Token} {e : Entry T} (c : Cursor t lists behind (k :: ahead))
    (hk : t.entries k = some e) : Cursor (t.stepOver e.links) lists (behind ++ [k]) ahead := by
  have hth := c.toThreaded.setNextTick t.tick
    (min (t.wheel.slot (t.slotFor t.tick)).nextTick e.links.tick)
  refine ⟨⟨hth.chain, hth.head, hth.mem, hth.nodup, hth.vacant⟩, ?_,
    (c.toThreaded.neighbours hk c.split).2⟩
  rw [List.append_assoc]
  exact c.split

/-- **One turn of the loop**, at the end of a list, at a due entry, or at one that is not due. -/
theorem Cursor.pollTurn (c : Cursor t lists behind ahead) {r : Option (Entry T)}
    (h : t.pollTurn = some (t', r)) :
    (ahead = [] ∧ r = none ∧ t'.tick = t.tick + 1 ∧ t'.pending = t.pending ∧
      Cursor t' lists [] (lists (t.slotFor (t.tick + 1)))) ∨
    (∃ k rest e lists', ahead = k :: rest ∧ t.entries k = some e ∧ e.links.tick ≤ t.tick ∧
      r = some e ∧ t'.tick = t.tick ∧ t'.pending = Function.update t.pending k none ∧
      Cursor t' lists' behind rest) ∨
    (∃ k rest e, ahead = k :: rest ∧ t.entries k = some e ∧ t.tick < e.links.tick ∧
      r = none ∧ t'.tick = t.tick ∧ t'.pending = t.pending ∧
      Cursor t' lists (behind ++ [k]) rest) := by
  cases ahead with
  | nil =>
    by_cases hmax : t.tick < U64_MAX
    · obtain ⟨hturn, c'⟩ := c.enterSlot hmax
      obtain ⟨rfl, rfl⟩ := Prod.mk.inj (Option.some.inj (hturn.symm.trans h))
      exact .inl ⟨rfl, rfl, rfl, rfl, c'⟩
    · have hnext : t.next = EMPTY := c.next
      simp [Timer.pollTurn, hnext, checkedSucc, hmax] at h
  | cons k rest =>
    right
    have hmem : k ∈ lists (t.slotFor t.tick) := c.ahead_mem List.mem_cons_self
    have hne : k ≠ EMPTY := fun he => c.empty_not_mem _ (he ▸ hmem)
    have hnext : t.next = k := c.next
    obtain ⟨e, he, -⟩ := c.entry_of_mem hmem
    have he' : (t.resetAtHead k).entries k = some e := he
    have c₁ := c.resetAtHead k
    by_cases hdue : e.links.tick ≤ t.tick
    · left
      obtain ⟨t₂, lists', htake, c₂, hpend, htick⟩ := c₁.take he'
      have hturn : t.pollTurn = some (t₂, some e) := by
        have hdue' : e.links.tick ≤ (t.resetAtHead k).tick := hdue
        simp only [Timer.pollTurn, hnext, hne, if_false, he', hdue', if_true, htake, Option.map_some]
      obtain ⟨rfl, rfl⟩ := Prod.mk.inj (Option.some.inj (hturn.symm.trans h))
      have hnd := c.nodup (t.slotFor t.tick)
      rw [c.split] at hnd
      have hb : k ∉ behind := fun hb => (List.nodup_append.mp hnd).2.2 k hb k (by simp) rfl
      rw [List.erase_of_not_mem hb, List.erase_cons_head] at c₂
      exact ⟨k, rest, e, lists', rfl, he, hdue, rfl, htick, hpend, c₂⟩
    · right
      have hturn : t.pollTurn = some ((t.resetAtHead k).stepOver e.links, none) := by
        have hdue' : ¬ e.links.tick ≤ (t.resetAtHead k).tick := hdue
        simp only [Timer.pollTurn, hnext, hne, if_false, he', hdue']
      obtain ⟨rfl, rfl⟩ := Prod.mk.inj (Option.some.inj (hturn.symm.trans h))
      exact ⟨k, rest, e, rfl, he, Nat.lt_of_not_le hdue, rfl, rfl, rfl, c₁.stepOver he'⟩

theorem Cursor.pollTurn_isSome (c : Cursor t lists behind ahead) (h : t.tick < U64_MAX) :
    ∃ t' r, t.pollTurn = some (t', r) := by
  cases ahead with
  | nil => exact ⟨_, _, (c.enterSlot h).1⟩
  | cons k rest =>
    have hmem : k ∈ lists (t.slotFor t.tick) := c.ahead_mem List.mem_cons_self
    have hne : k ≠ EMPTY := fun he => c.empty_not_mem _ (he ▸ hmem)
    have hnext : t.next = k := c.next
    obtain ⟨e, he, -⟩ := c.entry_of_mem hmem
    have he' : (t.resetAtHead k).entries k = some e := he
    obtain ⟨t₂, lists', htake, -⟩ := (c.resetAtHead k).take he'
    simp only [Timer.pollTurn, hnext, hne, if_false, he', htake, Option.map_some]
    split
    · exact ⟨_, _, rfl⟩
    · exact ⟨_, _, rfl⟩

end MyMio

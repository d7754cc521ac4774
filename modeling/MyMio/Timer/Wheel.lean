import MyMio.Foundations.DoublyLinked
import MyMio.Timer.Model

/-! # The wheel is a map of pending timeouts

`pending` is what a timer is for: which keys hold a timeout, its tick and its state. `Threaded` says
that the wheel is a faithful index of it: for every slot there is a list of keys, doubly linked from
the slot's head, without repetition, holding exactly the pending keys whose tick falls into the
slot. `insert` and `take` (what `cancel_timeout` and `poll_to` do to an entry) keep it and are single
updates of `pending`, and under it no index is vacant, so neither panics.
-/

namespace MyMio
set_option autoImplicit false

open DoublyLinked

universe u

variable {T : Type u}

/-! ## What the slab says -/

/-- The tick and the state of each entry. -/
def pendingOf (entries : Slab (Entry T)) : Token → Option (ℕ × T) :=
  fun k => (entries k).map fun e => (e.links.tick, e.state)

def linksOf (entries : Slab (Entry T)) : Links Token :=
  fun k => (entries k).map fun e => (e.links.prev, e.links.next)

def Timer.pending (t : Timer T) : Token → Option (ℕ × T) := pendingOf t.entries

section Slabs
variable {entries entries' : Slab (Entry T)} {x p q : Token} {e : Entry T}

theorem pendingOf_eq_some {k : Token} {tick : ℕ} {v : T} :
    pendingOf entries k = some (tick, v) ↔
      ∃ e, entries k = some e ∧ e.links.tick = tick ∧ e.state = v := by
  simp only [pendingOf, Option.map_eq_some_iff, Prod.mk.injEq]

theorem pendingOf_eq_none {k : Token} : pendingOf entries k = none ↔ entries k = none := by
  simp [pendingOf]

theorem pendingOf_of_entry (h : entries x = some e) :
    pendingOf entries x = some (e.links.tick, e.state) := by
  simp [pendingOf, h]

theorem linksOf_of_entry (h : entries x = some e) :
    linksOf entries x = some (e.links.prev, e.links.next) := by
  simp [linksOf, h]

theorem linksOf_update_some (entries : Slab (Entry T)) (x : Token) (e : Entry T) :
    linksOf (Function.update entries x (some e)) =
      Function.update (linksOf entries) x (some (e.links.prev, e.links.next)) := by
  funext k
  by_cases h : k = x
  · subst h
    simp [linksOf]
  · simp [linksOf, Function.update_of_ne h]

theorem linksOf_update_none (entries : Slab (Entry T)) (x : Token) :
    linksOf (Function.update entries x none) = Function.update (linksOf entries) x none := by
  funext k
  by_cases h : k = x
  · subst h
    simp [linksOf]
  · simp [linksOf, Function.update_of_ne h]

theorem pendingOf_update_some (entries : Slab (Entry T)) (x : Token) (e : Entry T) :
    pendingOf (Function.update entries x (some e)) =
      Function.update (pendingOf entries) x (some (e.links.tick, e.state)) := by
  funext k
  by_cases h : k = x
  · subst h
    simp [pendingOf]
  · simp [pendingOf, Function.update_of_ne h]

theorem pendingOf_update_none (entries : Slab (Entry T)) (x : Token) :
    pendingOf (Function.update entries x none) = Function.update (pendingOf entries) x none := by
  funext k
  by_cases h : k = x
  · subst h
    simp [pendingOf]
  · simp [pendingOf, Function.update_of_ne h]

/-- One link of one entry, if any, has been rewritten. -/
structure Relinked (entries entries' : Slab (Entry T)) (x : Token) : Prop where
  pending : pendingOf entries' = pendingOf entries
  frame : ∀ k, k ≠ x → entries' k = entries k

theorem Relinked.refl (entries : Slab (Entry T)) (x : Token) : Relinked entries entries x :=
  ⟨rfl, fun _ _ => rfl⟩

theorem setPrev_spec (h : entries x = some e) (p : Token) :
    ∃ entries', setPrev entries x p = some entries' ∧ Relinked entries entries' x ∧
      linksOf entries' = DoublyLinked.setPrev (linksOf entries) x p := by
  refine ⟨_, by rw [setPrev, h]; rfl, ⟨?_, fun k hk => Function.update_of_ne hk _ _⟩, ?_⟩
  · rw [pendingOf_update_some, ← pendingOf_of_entry h, Function.update_eq_self]
  · rw [linksOf_update_some, DoublyLinked.setPrev, linksOf_of_entry h]
    rfl

theorem setNext_spec (h : entries x = some e) (q : Token) :
    ∃ entries', setNext entries x q = some entries' ∧ Relinked entries entries' x ∧
      linksOf entries' = DoublyLinked.setNext (linksOf entries) x q := by
  refine ⟨_, by rw [setNext, h]; rfl, ⟨?_, fun k hk => Function.update_of_ne hk _ _⟩, ?_⟩
  · rw [pendingOf_update_some, ← pendingOf_of_entry h, Function.update_eq_self]
  · rw [linksOf_update_some, DoublyLinked.setNext, linksOf_of_entry h]
    rfl

/-- Linking a node in front of `x`, which is an entry or the end of the list. -/
theorem linkBack_spec (p : Token) (h : x ≠ EMPTY → ∃ e, entries x = some e) :
    ∃ entries', linkBack entries x p = some entries' ∧ Relinked entries entries' x ∧
      linksOf entries' = pointBack EMPTY (linksOf entries) x p := by
  unfold linkBack pointBack
  by_cases hx : x = EMPTY
  · subst hx
    exact ⟨entries, rfl, Relinked.refl _ _, by simp⟩
  · obtain ⟨e, he⟩ := h hx
    simp only [hx, if_false, ne_eq, not_false_eq_true, if_true]
    exact setPrev_spec he p

end Slabs

/-! ## The index -/

structure Threaded (t : Timer T) (lists : ℕ → List Token) : Prop where
  chain : ∀ s, Chain (linksOf t.entries) EMPTY (lists s) EMPTY
  head : ∀ s, s < t.wheel.slots.length → (t.wheel.slot s).head = (lists s).headD EMPTY
  mem : ∀ s k, k ∈ lists s ↔ ∃ tick v, t.pending k = some (tick, v) ∧ t.slotFor tick = s
  nodup : ∀ s, (lists s).Nodup
  vacant : t.pending EMPTY = none

section Index
variable {t : Timer T} {lists : ℕ → List Token}

theorem Threaded.pending_mem (h : Threaded t lists) {k : Token} {tick : ℕ} {v : T}
    (hk : t.pending k = some (tick, v)) : k ∈ lists (t.slotFor tick) :=
  (h.mem _ k).mpr ⟨tick, v, hk, rfl⟩

theorem Threaded.entry_of_mem (h : Threaded t lists) {s : ℕ} {k : Token} (hk : k ∈ lists s) :
    ∃ e, t.entries k = some e ∧ t.slotFor e.links.tick = s := by
  obtain ⟨tick, v, hp, hs⟩ := (h.mem s k).mp hk
  obtain ⟨e, he, ht, -⟩ := pendingOf_eq_some.mp hp
  exact ⟨e, he, ht ▸ hs⟩

theorem Threaded.empty_not_mem (h : Threaded t lists) (s : ℕ) : EMPTY ∉ lists s := by
  intro hm
  obtain ⟨e, he, -⟩ := h.entry_of_mem hm
  rw [pendingOf_eq_none.mp h.vacant] at he
  cases he

theorem Threaded.slot_unique (h : Threaded t lists) {s s' : ℕ} {k : Token} (hs : k ∈ lists s)
    (hs' : k ∈ lists s') : s = s' := by
  obtain ⟨e, he, h₁⟩ := h.entry_of_mem hs
  obtain ⟨e', he', h₂⟩ := h.entry_of_mem hs'
  obtain rfl : e = e' := Option.some.inj (he.symm.trans he')
  exact h₁.symm.trans h₂

theorem Threaded.fresh (h : Threaded t lists) {k : Token} (hk : t.entries k = none) (s : ℕ) :
    k ∉ lists s := by
  intro hm
  obtain ⟨e, he, -⟩ := h.entry_of_mem hm
  rw [hk] at he
  cases he

/-- The first key of a list, unless the list is empty, is in it. -/
theorem headD_mem {xs : List Token} (h : xs.headD EMPTY ≠ EMPTY) : xs.headD EMPTY ∈ xs := by
  cases xs with
  | nil => exact absurd rfl h
  | cons x xs => exact List.mem_cons_self

theorem getLastD_mem {xs : List Token} (h : xs.getLastD EMPTY ≠ EMPTY) :
    xs.getLastD EMPTY ∈ xs := by
  rcases List.eq_nil_or_concat xs with rfl | ⟨init, x, rfl⟩
  · exact absurd rfl h
  · simp

theorem eq_nil_of_getLastD {xs : List Token} (hm : EMPTY ∉ xs) (h : xs.getLastD EMPTY = EMPTY) :
    xs = [] := by
  rcases List.eq_nil_or_concat xs with rfl | ⟨init, x, rfl⟩
  · rfl
  · have hx : x = EMPTY := by simpa using h
    exact absurd (by simp [hx]) hm

theorem threaded_new (tickMs numSlots : ℕ) :
    Threaded (Timer.new tickMs numSlots : Timer T) fun _ => [] := by
  refine ⟨fun _ => trivial, fun s hs => ?_, fun s k => ?_, fun _ => List.nodup_nil, rfl⟩
  · simp only [Timer.new, List.length_replicate] at hs
    simp [Timer.new, Wheel.slot, hs]
  · simp [Timer.pending, pendingOf, Timer.new]

end Index

/-! ## `insert` -/

section Insert
variable {t : Timer T} {lists : ℕ → List Token}

theorem Threaded.insert_slab (h : Threaded t lists) (tick : ℕ) (state : T) {key : Token}
    (hkey : t.entries key = none) (s : ℕ) :
    ∃ entries', linkBack (Function.update t.entries key
        (some (Entry.new state tick ((lists s).headD EMPTY)))) ((lists s).headD EMPTY) key =
          some entries' ∧
      pendingOf entries' = Function.update t.pending key (some (tick, state)) ∧
      linksOf entries' = pointBack EMPTY (Function.update (linksOf t.entries) key
        (some (EMPTY, (lists s).headD EMPTY))) ((lists s).headD EMPTY) key := by
  have hhead : (lists s).headD EMPTY ≠ EMPTY → ∃ e, Function.update t.entries key
      (some (Entry.new state tick ((lists s).headD EMPTY))) ((lists s).headD EMPTY) = some e := by
    intro hh
    obtain ⟨e, he, -⟩ := h.entry_of_mem (headD_mem hh)
    have hk : (lists s).headD EMPTY ≠ key := by
      intro hk
      rw [hk, hkey] at he
      cases he
    exact ⟨e, (Function.update_of_ne hk _ _).trans he⟩
  obtain ⟨entries', hs, hrel, hl⟩ := linkBack_spec key hhead
  refine ⟨entries', hs, ?_, ?_⟩
  · rw [hrel.pending, pendingOf_update_some]
    rfl
  · rw [hl, linksOf_update_some]
    rfl

/-- **`insert`** puts one timeout under a vacant key, at the front of its slot. -/
theorem Threaded.insert (h : Threaded t lists) (tick : ℕ) (state : T) {key : Token}
    (hkey : t.entries key = none) (hne : key ≠ EMPTY) :
    ∃ t', t.insert tick state key = some (t', ⟨key, tick⟩) ∧
      Threaded t' (Function.update lists (t.slotFor tick) (key :: lists (t.slotFor tick))) ∧
      t'.pending = Function.update t.pending key (some (tick, state)) ∧
      t'.wheel.mask = t.wheel.mask ∧ t'.tick = t.tick ∧ t'.next = t.next := by
  have hslot : t.slotFor tick < t.wheel.slots.length := t.wheel.slotFor_lt tick
  have hfresh := h.fresh hkey
  obtain ⟨entries', hlinked, hpending, hlinks⟩ :=
    h.insert_slab tick state hkey (t.slotFor tick)
  have hnone : ¬((t.entries key).isSome ∨ key = EMPTY) := by simp [hkey, hne]
  refine ⟨{ t with
    entries := entries'
    wheel := (t.wheel.set (t.slotFor tick)
      ⟨min tick (t.wheel.slot (t.slotFor tick)).nextTick, key⟩) }, ?_, ?_, hpending, rfl, rfl, rfl⟩
  · simp only [Timer.insert, hnone, if_false, h.head (t.slotFor tick) hslot, hlinked, Option.map_some]
  · refine ⟨fun s => ?_, fun s hs => ?_, fun s k => ?_, fun s => ?_, ?_⟩
    · show Chain (linksOf entries') EMPTY _ EMPTY
      rw [hlinks]
      by_cases hs : s = t.slotFor tick
      · subst hs
        rw [Function.update_self]
        refine (h.chain _).pushFront ?_ (List.nodup_cons.mpr ⟨hfresh _, h.nodup _⟩)
        exact fun hm => (List.mem_cons.mp hm).elim (fun e => hne e.symm) (h.empty_not_mem _)
      · rw [Function.update_of_ne hs]
        refine (h.chain s).congr fun y hy => ?_
        have hykey : y ≠ key := fun e => hfresh s (e ▸ hy)
        have hyhead : y ≠ (lists (t.slotFor tick)).headD EMPTY := by
          intro e
          have hyne : y ≠ EMPTY := fun he => h.empty_not_mem s (he ▸ hy)
          have hmem := headD_mem (e ▸ hyne)
          exact hs (h.slot_unique hy (e ▸ hmem))
        rw [pointBack_of_ne hyhead, Function.update_of_ne hykey]
    · have hs' : s < t.wheel.slots.length := by simpa using hs
      show ((t.wheel.set (t.slotFor tick) _).slot s).head = _
      rw [Wheel.slot_set _ hslot]
      by_cases he : s = t.slotFor tick
      · subst he
        simp
      · rw [if_neg he, Function.update_of_ne he, h.head s hs']
    · show _ ↔ ∃ tick' v, pendingOf entries' k = some (tick', v) ∧ t.slotFor tick' = s
      rw [hpending]
      by_cases hk : k = key
      · subst hk
        by_cases he : s = t.slotFor tick
        · subst he
          simp
        · have he' : t.slotFor tick ≠ s := fun e => he e.symm
          simp [Function.update_of_ne he, hfresh s, he']
      · rw [Function.update_of_ne hk, ← h.mem s k]
        by_cases he : s = t.slotFor tick
        · subst he
          simp [hk]
        · rw [Function.update_of_ne he]
    · by_cases he : s = t.slotFor tick
      · subst he
        rw [Function.update_self]
        exact List.nodup_cons.mpr ⟨hfresh _, h.nodup _⟩
      · rw [Function.update_of_ne he]
        exact h.nodup s
    · show pendingOf entries' EMPTY = none
      rw [hpending, Function.update_of_ne hne.symm, h.vacant]

end Insert

/-! ## `unlink` and `take` -/

section Take
variable {t : Timer T} {lists : ℕ → List Token} {l : EntryLinks} {k : Token} {e : Entry T}

theorem unlinkBehind_spec (hk : t.entries k = some e) (hne : l.prev ≠ k)
    (hprev : l.prev ≠ EMPTY → ∃ e', t.entries l.prev = some e') :
    ∃ t₁, t.unlinkBehind l = some t₁ ∧ t₁.pending = t.pending ∧ t₁.entries k = some e ∧
      linksOf t₁.entries = pointOn EMPTY (linksOf t.entries) l.prev l.next ∧
      t₁.wheel = (if l.prev = EMPTY then t.wheel.setHead (t.slotFor l.tick) l.next
        else t.wheel) ∧
      t₁.tick = t.tick ∧ t₁.next = t.next := by
  unfold Timer.unlinkBehind pointOn
  by_cases hp : l.prev = EMPTY
  · simp only [hp, if_true]
    exact ⟨_, rfl, rfl, hk, rfl, rfl, rfl, rfl⟩
  · obtain ⟨e', he'⟩ := hprev hp
    obtain ⟨entries', hs, hrel, hlinks⟩ := setNext_spec he' l.next
    simp only [hp, if_false, hs, Option.map_some]
    exact ⟨_, rfl, hrel.pending, (hrel.frame k hne.symm).trans hk, hlinks, rfl, rfl, rfl⟩

theorem unlinkAhead_spec (hk : t.entries k = some e) (hne : l.next ≠ k)
    (hnext : l.next ≠ EMPTY → ∃ e', t.entries l.next = some e') :
    ∃ t₂, t.unlinkAhead l k = some t₂ ∧ t₂.pending = t.pending ∧ t₂.entries k = some e ∧
      linksOf t₂.entries = pointBack EMPTY (linksOf t.entries) l.next l.prev ∧
      t₂.wheel = t.wheel ∧ t₂.tick = t.tick ∧
      t₂.next = (if k = t.next then l.next else t.next) := by
  unfold Timer.unlinkAhead pointBack
  by_cases hn : l.next = EMPTY
  · simp only [hn, ne_eq, not_true_eq_false, if_false, if_true]
    exact ⟨_, rfl, rfl, hk, rfl, rfl, rfl, rfl⟩
  · obtain ⟨e', he'⟩ := hnext hn
    obtain ⟨entries', hs, hrel, hlinks⟩ := setPrev_spec he' l.prev
    simp only [hn, ne_eq, not_false_eq_true, if_true, if_false, hs, Option.map_some]
    exact ⟨_, rfl, hrel.pending, (hrel.frame k hne.symm).trans hk, hlinks, rfl, rfl, rfl⟩

theorem Threaded.neighbours (h : Threaded t lists) (hk : t.entries k = some e) {s : ℕ}
    {xs ys : List Token} (hl : lists s = xs ++ k :: ys) :
    e.links.prev = xs.getLastD EMPTY ∧ e.links.next = ys.headD EMPTY := by
  have hchain := h.chain s
  rw [hl] at hchain
  have hat := hchain.at
  rw [linksOf_of_entry hk] at hat
  exact Prod.mk.inj (Option.some.inj hat)

/-- **`take`** removes one pending timeout, and moves the cursor off it. -/
theorem Threaded.take (h : Threaded t lists) (hk : t.entries k = some e) {xs ys : List Token}
    (hl : lists (t.slotFor e.links.tick) = xs ++ k :: ys) :
    ∃ t', t.take e.links k = some (t', e) ∧
      Threaded t' (Function.update lists (t.slotFor e.links.tick) (xs ++ ys)) ∧
      t'.pending = Function.update t.pending k none ∧
      t'.wheel.mask = t.wheel.mask ∧ t'.tick = t.tick ∧
      t'.next = (if k = t.next then ys.headD EMPTY else t.next) := by
  have hslot : t.slotFor e.links.tick < t.wheel.slots.length := t.wheel.slotFor_lt e.links.tick
  have hnd := h.nodup (t.slotFor e.links.tick)
  have hempty := h.empty_not_mem (t.slotFor e.links.tick)
  have hchain := h.chain (t.slotFor e.links.tick)
  rw [hl] at hnd hempty hchain
  obtain ⟨hprev, hnext⟩ := h.neighbours hk hl
  obtain ⟨hndx, hndy, hdisj⟩ := List.nodup_append.mp hnd
  have hkx : k ∉ xs := fun hm => hdisj k hm k List.mem_cons_self rfl
  have hky : k ∉ ys := (List.nodup_cons.mp hndy).1
  have hmem : ∀ y ∈ xs ++ ys, y ∈ lists (t.slotFor e.links.tick) := by
    intro y hy
    rw [hl]
    simp only [List.mem_append, List.mem_cons] at hy ⊢
    exact hy.imp_right Or.inr
  have hkempty : k ≠ EMPTY := fun e => hempty (e ▸ by simp)
  have hprevmem : e.links.prev ≠ EMPTY → e.links.prev ∈ xs := fun hp => by
    rw [hprev] at hp ⊢
    exact getLastD_mem hp
  have hnextmem : e.links.next ≠ EMPTY → e.links.next ∈ ys := fun hn => by
    rw [hnext] at hn ⊢
    exact headD_mem hn
  obtain ⟨t₁, h₁, hpend₁, hk₁, hl₁, hw₁, ht₁, hn₁⟩ := unlinkBehind_spec (l := e.links) hk
    (fun hp => hkx (hp ▸ hprevmem (hp ▸ hkempty)))
    (fun hp => (h.entry_of_mem (hmem _ (List.mem_append_left _ (hprevmem hp)))).imp fun _ h => h.1)
  obtain ⟨t₂, h₂, hpend₂, hk₂, hl₂, hw₂, ht₂, hn₂⟩ := unlinkAhead_spec (t := t₁) (l := e.links) hk₁
    (fun hn => hky (hn ▸ hnextmem (hn ▸ hkempty)))
    (fun hn => by
      obtain ⟨e', he', -⟩ := h.entry_of_mem (hmem _ (List.mem_append_right _ (hnextmem hn)))
      obtain ⟨e'', he'', -⟩ := pendingOf_eq_some.mp (show pendingOf t₁.entries _ = _ from
        (congrFun hpend₁ _).trans (pendingOf_of_entry he'))
      exact ⟨e'', he''⟩)
  have hwheel : t₂.wheel = if e.links.prev = EMPTY then
      t.wheel.setHead (t.slotFor e.links.tick) e.links.next else t.wheel := hw₂.trans hw₁
  have hmask : t₂.wheel.mask = t.wheel.mask := by
    rw [hwheel]
    split <;> rfl
  have hslots : ∀ tick, t₂.slotFor tick = t.slotFor tick := by
    intro tick
    rw [Timer.slotFor, Wheel.slotFor, hmask]
    rfl
  have hpend : pendingOf (Function.update t₂.entries k none) = Function.update t.pending k none := by
    rw [pendingOf_update_none, ← hpend₁, ← hpend₂]
    rfl
  have hlinks : linksOf (Function.update t₂.entries k none) =
      Function.update (pointBack EMPTY (pointOn EMPTY (linksOf t.entries) (xs.getLastD EMPTY)
        (ys.headD EMPTY)) (ys.headD EMPTY) (xs.getLastD EMPTY)) k none := by
    rw [linksOf_update_none, hl₂, hl₁, hprev, hnext]
  refine ⟨{ t₂ with entries := Function.update t₂.entries k none }, ?_, ?_, hpend, hmask,
    ht₂.trans ht₁, ?_⟩
  · simp only [Timer.take, Timer.unlink, h₁, h₂, hk₂, Option.map_some]
  · refine ⟨fun s => ?_, fun s hs => ?_, fun s k' => ?_, fun s => ?_, ?_⟩
    · show Chain (linksOf (Function.update t₂.entries k none)) EMPTY _ EMPTY
      rw [hlinks]
      by_cases hs : s = t.slotFor e.links.tick
      · subst hs
        rw [Function.update_self]
        refine (hchain.unlink hempty hnd).congr fun y hy => Function.update_of_ne ?_ _ _
        exact fun hyk => (List.mem_append.mp hy).elim (hyk ▸ hkx) (hyk ▸ hky)
      · rw [Function.update_of_ne hs]
        refine (h.chain s).congr fun y hy => ?_
        have hyempty : y ≠ EMPTY := fun he => h.empty_not_mem s (he ▸ hy)
        have hother : y ∉ xs ++ k :: ys := fun hm => hs (h.slot_unique hy (hl ▸ hm))
        have hyk : y ≠ k := fun he => hother (he ▸ by simp)
        have hyn : y ≠ ys.headD EMPTY := fun he =>
          hother (List.mem_append_right xs (List.mem_cons_of_mem k (he ▸ headD_mem (he ▸ hyempty))))
        have hyp : y ≠ xs.getLastD EMPTY := fun he =>
          hother (List.mem_append_left (k :: ys) (he ▸ getLastD_mem (he ▸ hyempty)))
        rw [Function.update_of_ne hyk, pointBack_of_ne hyn, pointOn_of_ne hyp]
    · have hs' : s < t.wheel.slots.length := by
        rw [t.wheel.length_eq, ← hmask, ← t₂.wheel.length_eq]
        exact hs
      show (t₂.wheel.slot s).head = _
      rw [hwheel]
      by_cases hp : e.links.prev = EMPTY
      · obtain rfl : xs = [] := eq_nil_of_getLastD (fun hm => hempty (by simp [hm])) (hprev ▸ hp)
        rw [if_pos hp, Wheel.setHead, Wheel.slot_set _ hslot]
        by_cases he : s = t.slotFor e.links.tick
        · subst he
          rw [if_pos rfl, Function.update_self]
          exact hnext
        · rw [if_neg he, Function.update_of_ne he, h.head s hs']
      · rw [if_neg hp, h.head s hs']
        by_cases he : s = t.slotFor e.links.tick
        · subst he
          rw [Function.update_self, hl]
          cases xs with
          | nil => exact absurd hprev hp
          | cons x xs => rfl
        · rw [Function.update_of_ne he]
    · show _ ↔ ∃ tick v, pendingOf (Function.update t₂.entries k none) k' = some (tick, v) ∧
        t₂.slotFor tick = s
      simp only [hpend, hslots]
      by_cases hkk : k' = k
      · subst hkk
        have hnot : k' ∉ Function.update lists (t.slotFor e.links.tick) (xs ++ ys) s := by
          intro hm
          by_cases he : s = t.slotFor e.links.tick
          · subst he
            rw [Function.update_self] at hm
            exact (List.mem_append.mp hm).elim hkx hky
          · rw [Function.update_of_ne he] at hm
            exact he (h.slot_unique hm (hl ▸ by simp))
        simp [hnot]
      · rw [Function.update_of_ne hkk, ← h.mem s k']
        by_cases he : s = t.slotFor e.links.tick
        · subst he
          rw [Function.update_self, hl]
          simp [hkk]
        · rw [Function.update_of_ne he]
    · by_cases he : s = t.slotFor e.links.tick
      · subst he
        rw [Function.update_self]
        exact hnd.sublist ((List.sublist_cons_self k ys).append_left xs)
      · rw [Function.update_of_ne he]
        exact h.nodup s
    · show pendingOf (Function.update t₂.entries k none) EMPTY = none
      rw [hpend, Function.update_of_ne hkempty.symm, h.vacant]
  · show t₂.next = _
    rw [hn₂, hn₁, hnext]

end Take

end MyMio

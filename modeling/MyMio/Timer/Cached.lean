import MyMio.Timer.Deadlines

/-! # The cached tick of a slot

`next_tick` of a slot stands for the least tick of its entries. `insert` lowers it, the scan computes it
anew from the head of the list on, and `unlink` leaves it alone. The first part says what each call
does to it.

`Fresh` is what a drained timer needs: no slot caches a tick the scan has passed. One state is
fragile. When the scan has just entered a slot, the slot still caches the tick of the scan, and only
the entry at its head, where the cursor is, will have it computed anew. While a slot is so `Armed`, a
timeout put in front of the cursor or the cancellation of the only entry leaves that tick behind for
good, and `next_tick` yields it after the timer is drained.
-/

namespace MyMio
set_option autoImplicit false

open StepSystem

universe u

variable {T : Type u}

def Timer.cached (t : Timer T) (s : ℕ) : ℕ := (t.wheel.slot s).nextTick

/-! ## What a call does to it -/

section Calls
variable {t t' : Timer T} {lists : ℕ → List Token} {behind ahead : List Token} {k : Token} {e : Entry T}

theorem Timer.slotFor_lt (t : Timer T) (tick : ℕ) : t.slotFor tick < t.wheel.slots.length :=
  t.wheel.slotFor_lt tick

theorem Wheel.setHead_nextTick (w : Wheel) {s : ℕ} (hs : s < w.slots.length) (head : Token) (s' : ℕ) :
    ((w.setHead s head).slot s').nextTick = (w.slot s').nextTick := by
  rw [Wheel.setHead, Wheel.slot_set _ hs]
  split
  · rename_i h
    rw [h]
  · rfl

theorem Wheel.setNextTick_nextTick (w : Wheel) {s : ℕ} (hs : s < w.slots.length) (tick s' : ℕ) :
    ((w.setNextTick s tick).slot s').nextTick = if s' = s then tick else (w.slot s').nextTick := by
  rw [Wheel.setNextTick, Wheel.slot_set _ hs]
  split <;> rfl

/-- The wheel has kept its size and caches the ticks `c`. -/
structure Recached (t t' : Timer T) (c : ℕ → ℕ) : Prop where
  mask : t'.wheel.mask = t.wheel.mask
  cached : ∀ s, t'.cached s = c s

theorem Recached.slotFor {c : ℕ → ℕ} (h : Recached t t' c) (tick : ℕ) :
    t'.slotFor tick = t.slotFor tick :=
  slotFor_congr h.mask tick

theorem insert_cached {tick : ℕ} {state : T} {key : Token} {timeout : Timeout}
    (h : t.insert tick state key = some (t', timeout)) :
    Recached t t' fun s => if s = t.slotFor tick then min tick (t.cached s) else t.cached s := by
  unfold Timer.insert at h
  split at h
  · cases h
  · obtain ⟨entries, -, h⟩ := Option.map_eq_some_iff.mp h
    obtain ⟨rfl, -⟩ := Prod.mk.inj h
    refine ⟨rfl, fun s => ?_⟩
    show ((t.wheel.set (t.slotFor tick) _).slot s).nextTick = _
    rw [Wheel.slot_set _ (t.slotFor_lt tick)]
    split
    · rename_i hs
      rw [hs]
      rfl
    · rfl

theorem unlinkBehind_cached {l : EntryLinks} (h : t.unlinkBehind l = some t') :
    Recached t t' t.cached := by
  unfold Timer.unlinkBehind at h
  split at h
  · obtain rfl := Option.some.inj h
    exact ⟨rfl, t.wheel.setHead_nextTick (t.slotFor_lt l.tick) l.next⟩
  · obtain ⟨_, -, rfl⟩ := Option.map_eq_some_iff.mp h
    exact ⟨rfl, fun _ => rfl⟩

theorem unlinkAhead_wheel {l : EntryLinks} (h : t.unlinkAhead l k = some t') :
    t'.wheel = t.wheel := by
  unfold Timer.unlinkAhead at h
  split at h
  · obtain ⟨_, -, rfl⟩ := Option.map_eq_some_iff.mp h
    rfl
  · obtain rfl := Option.some.inj h
    rfl

theorem take_cached {l : EntryLinks} (h : t.take l k = some (t', e)) : Recached t t' t.cached := by
  unfold Timer.take at h
  cases hu : t.unlink l k with
  | none => simp [hu] at h
  | some t₂ =>
    rw [hu] at h
    obtain ⟨_, -, h⟩ := Option.map_eq_some_iff.mp h
    obtain ⟨rfl, -⟩ := Prod.mk.inj h
    unfold Timer.unlink at hu
    cases hb : t.unlinkBehind l with
    | none => simp [hb] at hu
    | some t₁ =>
      rw [hb] at hu
      have hwheel : t₂.wheel = t₁.wheel := unlinkAhead_wheel hu
      obtain ⟨hmask, hcached⟩ := unlinkBehind_cached hb
      refine ⟨(congrArg Wheel.mask hwheel).trans hmask, fun s => Eq.trans ?_ (hcached s)⟩
      exact congrArg (fun w => (Wheel.slot w s).nextTick) hwheel

theorem cancelTimeout_cached {timeout : Timeout} {r : Option T}
    (h : t.cancelTimeout timeout = some (t', r)) : Recached t t' t.cached := by
  unfold Timer.cancelTimeout at h
  split at h
  · obtain ⟨rfl, -⟩ := Prod.mk.inj (Option.some.inj h)
    exact ⟨rfl, fun _ => rfl⟩
  · split at h
    · obtain ⟨rfl, -⟩ := Prod.mk.inj (Option.some.inj h)
      exact ⟨rfl, fun _ => rfl⟩
    · obtain ⟨⟨t₁, e⟩, htake, h⟩ := Option.map_eq_some_iff.mp h
      obtain ⟨rfl, -⟩ := Prod.mk.inj h
      exact take_cached htake

/-- The cursor is at the head of its slot exactly when nothing is behind it. -/
theorem Cursor.at_head_iff (c : Cursor t lists behind (k :: ahead)) :
    k = (t.wheel.slot (t.slotFor t.tick)).head ↔ behind = [] := by
  have hnd := c.nodup (t.slotFor t.tick)
  rw [c.head _ (t.slotFor_lt t.tick)]
  rw [c.split] at hnd ⊢
  cases behind with
  | nil => simp
  | cons b behind =>
    have hne : k ≠ b := fun h => (List.nodup_append.mp hnd).2.2 b (by simp) k (by simp) h.symm
    simpa using hne

theorem Cursor.resetAtHead_cached (c : Cursor t lists behind (k :: ahead)) (s : ℕ) :
    (t.resetAtHead k).cached s =
      if s = t.slotFor t.tick ∧ behind = [] then TICK_MAX else t.cached s := by
  unfold Timer.resetAtHead Timer.cached
  dsimp only
  by_cases hb : behind = []
  · rw [if_pos (c.at_head_iff.mpr hb), Wheel.setNextTick_nextTick _ (t.slotFor_lt t.tick)]
    simp [hb]
  · rw [if_neg fun h => hb (c.at_head_iff.mp h)]
    simp [hb]

/-- A turn at the end of a list: an empty slot caches no tick once it is entered. -/
theorem Cursor.enter_cached (c : Cursor t lists behind []) {r : Option (Entry T)}
    (h : t.pollTurn = some (t', r)) :
    Recached t t' fun s =>
      if s = t.slotFor (t.tick + 1) ∧ lists s = [] then TICK_MAX else t.cached s := by
  have hnext : t.next = EMPTY := c.next
  simp only [Timer.pollTurn, hnext, if_true] at h
  obtain ⟨tick, htick, h⟩ := Option.map_eq_some_iff.mp h
  obtain ⟨-, rfl⟩ := checkedSucc_eq_some htick
  obtain ⟨rfl, -⟩ := Prod.mk.inj h
  have hempty : (t.wheel.slot (t.slotFor (t.tick + 1))).head = EMPTY ↔
      lists (t.slotFor (t.tick + 1)) = [] := by
    rw [c.head _ (t.slotFor_lt (t.tick + 1))]
    refine ⟨fun he => ?_, fun he => by rw [he]; rfl⟩
    by_contra hne
    obtain ⟨k, rest, hl⟩ := List.exists_cons_of_ne_nil hne
    rw [hl, List.headD_cons] at he
    refine c.empty_not_mem (t.slotFor (t.tick + 1)) ?_
    rw [hl, he]
    exact List.mem_cons_self
  unfold Timer.enterSlot
  dsimp only
  by_cases hl : lists (t.slotFor (t.tick + 1)) = []
  · rw [if_pos (hempty.mpr hl)]
    refine ⟨rfl, fun s => ?_⟩
    refine (Wheel.setNextTick_nextTick _ (t.slotFor_lt (t.tick + 1)) TICK_MAX s).trans ?_
    by_cases hs : s = t.slotFor (t.tick + 1)
    · rw [if_pos hs, if_pos ⟨hs, hs ▸ hl⟩]
    · rw [if_neg hs, if_neg fun hc => hs hc.1]
      rfl
  · rw [if_neg fun he => hl (hempty.mp he)]
    refine ⟨rfl, fun s => ?_⟩
    have hnot : ¬(s = t.slotFor (t.tick + 1) ∧ lists s = []) := fun hc => hl (hc.1 ▸ hc.2)
    exact (if_neg hnot).symm

/-- A turn at an entry, which takes it or steps over it: at the head of a list the tick is forgotten
first. -/
theorem Cursor.entry_turn (c : Cursor t lists behind (k :: ahead)) (he : t.entries k = some e) :
    t.pollTurn = if e.links.tick ≤ t.tick then
        ((t.resetAtHead k).take e.links k).map fun (t, e) => (t, some e)
      else some ((t.resetAtHead k).stepOver e.links, none) := by
  have hmem : k ∈ lists (t.slotFor t.tick) := c.ahead_mem List.mem_cons_self
  have hne : k ≠ EMPTY := fun hk => c.empty_not_mem _ (hk ▸ hmem)
  have hnext : t.next = k := c.next
  have he' : (t.resetAtHead k).entries k = some e := he
  simp only [Timer.pollTurn, hnext, hne, if_false, he']
  rfl

theorem Cursor.due_cached (c : Cursor t lists behind (k :: ahead)) (he : t.entries k = some e)
    (hdue : e.links.tick ≤ t.tick) {r : Option (Entry T)} (h : t.pollTurn = some (t', r)) :
    Recached t t' fun s => if s = t.slotFor t.tick ∧ behind = [] then TICK_MAX else t.cached s := by
  rw [c.entry_turn he, if_pos hdue] at h
  obtain ⟨⟨t₁, e₁⟩, htake, h⟩ := Option.map_eq_some_iff.mp h
  obtain ⟨rfl, -⟩ := Prod.mk.inj h
  obtain ⟨hmask, hcached⟩ := take_cached htake
  exact ⟨hmask.trans (resetAtHead_mask t k), fun s => (hcached s).trans (c.resetAtHead_cached s)⟩

theorem Cursor.stepOver_cached (c : Cursor t lists behind (k :: ahead)) (he : t.entries k = some e)
    (hlate : t.tick < e.links.tick) {r : Option (Entry T)} (h : t.pollTurn = some (t', r)) :
    Recached t t' fun s => if s = t.slotFor t.tick then
        min (if behind = [] then TICK_MAX else t.cached s) e.links.tick
      else t.cached s := by
  rw [c.entry_turn he, if_neg (Nat.not_le_of_lt hlate)] at h
  obtain ⟨rfl, -⟩ := Prod.mk.inj (Option.some.inj h)
  have hslot : (t.resetAtHead k).slotFor (t.resetAtHead k).tick = t.slotFor t.tick :=
    slotFor_congr (resetAtHead_mask t k) t.tick
  have hreset := c.resetAtHead_cached
  refine ⟨resetAtHead_mask t k, fun s => ?_⟩
  show (((t.resetAtHead k).wheel.setNextTick _ _).slot s).nextTick = _
  rw [Wheel.setNextTick_nextTick _ ((t.resetAtHead k).slotFor_lt _), hslot]
  by_cases hs : s = t.slotFor t.tick
  · rw [if_pos hs, if_pos hs, ← hs]
    show min ((t.resetAtHead k).cached s) _ = _
    rw [hreset s]
    simp [hs]
  · rw [if_neg hs, if_neg hs]
    exact (hreset s).trans (if_neg fun hc => hs hc.1)

theorem Cursor.enter_lt (c : Cursor t lists behind []) {r : Option (Entry T)}
    (h : t.pollTurn = some (t', r)) : t.tick < U64_MAX := by
  have hnext : t.next = EMPTY := c.next
  simp only [Timer.pollTurn, hnext, if_true] at h
  obtain ⟨tick, htick, -⟩ := Option.map_eq_some_iff.mp h
  exact (checkedSucc_eq_some htick).1

/-- `next_tick` yields the tick of the scan, or the least tick a slot caches. -/
theorem Cursor.nextTick_spec (c : Cursor t lists behind ahead) :
    ∃ m, t.nextTick = some (some m) ∧ (m = t.tick ∨
      (∃ s, m = t.cached s) ∧ ∀ s, s < t.wheel.slots.length → m ≤ t.cached s) := by
  have hmin : ∃ m, t.wheel.minNextTick = some m ∧
      (∃ s, m = t.cached s) ∧ ∀ s, s < t.wheel.slots.length → m ≤ t.cached s := by
    obtain ⟨m, hm⟩ : ∃ m, t.wheel.minNextTick = some m := by
      refine Option.isSome_iff_exists.mp (List.isSome_min?_of_ne_nil fun hnil => ?_)
      have hlen := congrArg List.length hnil
      rw [List.length_map, t.wheel.length_eq] at hlen
      cases hlen
    obtain ⟨hmem, hle⟩ := List.min?_eq_some_iff.mp hm
    refine ⟨m, hm, ?_, fun s hs => hle _ (List.mem_map.mpr ⟨t.wheel.slot s, ?_, rfl⟩)⟩
    · obtain ⟨w, hw, rfl⟩ := List.mem_map.mp hmem
      obtain ⟨s, hs, rfl⟩ := List.mem_iff_getElem.mp hw
      exact ⟨s, by simp [Timer.cached, Wheel.slot, hs]⟩
    · simp [Wheel.slot, hs]
  obtain ⟨m, hm, hmin⟩ := hmin
  unfold Timer.nextTick
  by_cases hne : t.next = EMPTY
  · rw [if_neg (not_not_intro hne)]
    exact ⟨m, congrArg some hm, .inr hmin⟩
  · have hmem : t.next ∈ ahead := by
      have hhead := c.next
      rw [hhead] at hne ⊢
      exact headD_mem hne
    obtain ⟨e, he, -⟩ := c.entry_of_mem (c.ahead_mem hmem)
    rw [if_pos hne, he, Option.map_some]
    split
    · exact ⟨t.tick, rfl, .inl rfl⟩
    · exact ⟨m, congrArg some hm, .inr hmin⟩

end Calls

/-! ## Which calls keep the cache fresh -/

/-- The cursor is at the head of a slot that still caches a tick the scan has reached. -/
def Armed (t : Timer T) : Prop :=
  t.next ≠ EMPTY ∧ t.next = (t.wheel.slot (t.slotFor t.tick)).head ∧
    t.cached (t.slotFor t.tick) ≤ t.tick

instance (t : Timer T) : Decidable (Armed t) := inferInstanceAs (Decidable (_ ∧ _ ∧ _))

/-- A timeout is not set for the tick being scanned nor, while its slot is armed, put into that slot;
and the only entry of an armed slot is not cancelled. -/
def KeepsFresh (t : Timer T) : TimerOp T → Prop
  | .setTimeoutAt delayFromStart _ _ =>
    durationToTick delayFromStart t.tickMs ≠ some t.tick ∧
      (Armed t → ∀ tick₀ ∈ durationToTick delayFromStart t.tickMs, ∀ tick ∈ t.clampTick tick₀,
        t.slotFor tick ≠ t.slotFor t.tick)
  | .cancelTimeout timeout =>
    Armed t → timeout.token = t.next → ∀ e ∈ t.entries t.next, e.links.tick = timeout.tick →
      e.links.next ≠ EMPTY
  | .pollTo _ _ => True

instance (t : Timer T) (op : TimerOp T) : Decidable (KeepsFresh t op) :=
  match op with
  | .setTimeoutAt _ _ _ => inferInstanceAs (Decidable (_ ∧ (_ → ∀ _ ∈ _, ∀ _ ∈ _, _)))
  | .cancelTimeout _ => inferInstanceAs (Decidable (_ → _ → ∀ _ ∈ _, _ → _))
  | .pollTo _ _ => .isTrue trivial

structure Fresh (t : Timer T) (lists : ℕ → List Token) (behind ahead : List Token) : Prop
    extends Cursor t lists behind ahead where
  bounded : t.tick ≤ U64_MAX
  inSlot : ∀ s, t.cached s = TICK_MAX ∨ t.slotFor (t.cached s) = s
  later : ∀ s, t.cached s = TICK_MAX ∨ t.tick < t.cached s ∨
    s = t.slotFor t.tick ∧ behind = [] ∧ ahead ≠ [] ∧ t.cached s = t.tick

def StaysFresh (t : Timer T) : Prop := ∃ lists behind ahead, Fresh t lists behind ahead

section Freshness
variable {t t' : Timer T} {lists lists' : ℕ → List Token} {behind behind' ahead ahead' : List Token}

theorem fresh_new (tickMs numSlots : ℕ) :
    Fresh (Timer.new tickMs numSlots : Timer T) (fun _ => []) [] [] := by
  have hcached : ∀ s, (Timer.new tickMs numSlots : Timer T).cached s = TICK_MAX := by
    intro s
    by_cases hs : s < nextPowerOfTwo numSlots <;> simp [Timer.cached, Timer.new, Wheel.slot, hs]
  exact ⟨cursor_new tickMs numSlots, Nat.zero_le _, fun s => .inl (hcached s),
    fun s => .inl (hcached s)⟩

/-- With the cursor at the head of a slot that caches the tick of the scan, the timer is armed. -/
theorem Cursor.armed (c : Cursor t lists [] ahead) (hne : ahead ≠ [])
    (hcached : t.cached (t.slotFor t.tick) = t.tick) : Armed t := by
  obtain ⟨k, rest, rfl⟩ := List.exists_cons_of_ne_nil hne
  have hnext : t.next = k := c.next
  have hmem : k ∈ lists (t.slotFor t.tick) := c.ahead_mem List.mem_cons_self
  refine ⟨fun he => c.empty_not_mem _ (he ▸ hnext ▸ hmem), ?_, Nat.le_of_eq hcached⟩
  exact hnext.trans (c.at_head_iff.mpr rfl)

/-- A timeout for a later tick, which is not put into an armed slot. -/
theorem Fresh.insert (f : Fresh t lists behind ahead) {tick : ℕ} {state : T} {key : Token}
    {timeout : Timeout} (h : t.insert tick state key = some (t', timeout)) (hlater : t.tick < tick)
    (hother : Armed t → t.slotFor tick ≠ t.slotFor t.tick) : StaysFresh t' := by
  obtain ⟨lists', c', -, htick, -⟩ := f.toCursor.inserted h
  have hre := insert_cached h
  refine ⟨_, _, _, c', htick ▸ f.bounded, fun s => ?_, fun s => ?_⟩
  · rw [hre.slotFor, hre.cached s]
    by_cases hs : s = t.slotFor tick
    · rw [if_pos hs]
      rcases Nat.le_total tick (t.cached s) with hle | hle
      · rw [Nat.min_eq_left hle]
        exact .inr hs.symm
      · rw [Nat.min_eq_right hle]
        exact f.inSlot s
    · rw [if_neg hs]
      exact f.inSlot s
  · rw [hre.slotFor, hre.cached s, htick]
    by_cases hs : s = t.slotFor tick
    · rw [if_pos hs]
      rcases Nat.le_total tick (t.cached s) with hle | hle
      · rw [Nat.min_eq_left hle]
        exact .inr (.inl hlater)
      · rw [Nat.min_eq_right hle]
        rcases f.later s with hmax | hlt | ⟨hcur, rfl, hahead, hcached⟩
        · exact .inl hmax
        · exact .inr (.inl hlt)
        · have harmed := f.toCursor.armed hahead (hcur ▸ hcached)
          exact absurd (hs.symm.trans hcur) (hother harmed)
    · rw [if_neg hs]
      rcases f.later s with hmax | hlt | ⟨hcur, rfl, hahead, hcached⟩
      · exact .inl hmax
      · exact .inr (.inl hlt)
      · have harmed := f.toCursor.armed hahead (hcur ▸ hcached)
        rw [if_neg (hother harmed)]
        exact .inr (.inr ⟨hcur, rfl, hahead, hcached⟩)

/-- The only entry of an armed slot is the one that may not go. -/
theorem Fresh.cancelTimeout (f : Fresh t lists behind ahead) {timeout : Timeout} {r : Option T}
    (hok : KeepsFresh t (.cancelTimeout timeout)) (h : t.cancelTimeout timeout = some (t', r)) :
    StaysFresh t' := by
  rcases cancelTimeout_cases f.toCursor h with ⟨e, lists', he, hmatch, -, c', -, htick⟩ | ⟨-, -, rfl⟩
  · have hre := cancelTimeout_cached h
    refine ⟨_, _, _, c', htick ▸ f.bounded, fun s => ?_, fun s => ?_⟩
    · rw [hre.slotFor, hre.cached s]
      exact f.inSlot s
    · rw [hre.slotFor, hre.cached s, htick]
      rcases f.later s with hmax | hlt | ⟨hcur, rfl, hahead, hcached⟩
      · exact .inl hmax
      · exact .inr (.inl hlt)
      · refine .inr (.inr ⟨hcur, rfl, fun hnil => ?_, hcached⟩)
        -- nothing is left ahead: the entry was the only one
        have harmed := f.toCursor.armed hahead (hcur ▸ hcached)
        obtain ⟨k, rest, rfl⟩ := List.exists_cons_of_ne_nil hahead
        have hk : timeout.token = k := by
          by_contra hne
          rw [List.erase_cons_tail (by simpa using fun hk => hne hk.symm)] at hnil
          cases hnil
        subst hk
        obtain rfl : rest = [] := by simpa using hnil
        have hnext : t.next = timeout.token := f.next
        have hlast := (f.toThreaded.neighbours he f.split).2
        exact hok harmed hnext.symm e (hnext ▸ he) hmatch hlast
  · exact ⟨_, _, _, f⟩

theorem Fresh.pollTurn (f : Fresh t lists behind ahead) {r : Option (Entry T)}
    (h : t.pollTurn = some (t', r)) : StaysFresh t' := by
  rcases f.toCursor.pollTurn h with ⟨rfl, -, htick, -, c'⟩ |
    ⟨k, rest, e, lists', rfl, he, hdue, -, htick, -, c'⟩ |
    ⟨k, rest, e, rfl, he, hlate, -, htick, -, c'⟩
  · have hre := f.toCursor.enter_cached h
    have hlt := f.toCursor.enter_lt h
    refine ⟨_, _, _, c', by omega, fun s => ?_, fun s => ?_⟩
    · rw [hre.slotFor, hre.cached s]
      split
      · exact .inl rfl
      · exact f.inSlot s
    · rw [hre.slotFor, hre.cached s, htick]
      split
      · exact .inl rfl
      · rename_i hnot
        rcases f.later s with hmax | hlater | ⟨-, -, hahead, -⟩
        · exact .inl hmax
        · rcases f.inSlot s with hmax | hslot
          · exact .inl hmax
          · rcases Nat.lt_or_eq_of_le hlater with hlater | heq
            · exact .inr (.inl hlater)
            · have hs : s = t.slotFor (t.tick + 1) := hslot.symm.trans (congrArg _ heq.symm)
              exact .inr (.inr ⟨hs, rfl, fun hnil => hnot ⟨hs, hs ▸ hnil⟩, heq.symm⟩)
        · exact absurd rfl hahead
  · have hre := f.toCursor.due_cached he hdue h
    refine ⟨_, _, _, c', htick ▸ f.bounded, fun s => ?_, fun s => ?_⟩
    · rw [hre.slotFor, hre.cached s]
      split
      · exact .inl rfl
      · exact f.inSlot s
    · rw [hre.slotFor, hre.cached s, htick]
      split
      · exact .inl rfl
      · rename_i hnot
        rcases f.later s with hmax | hlater | ⟨hcur, hbehind, -⟩
        · exact .inl hmax
        · exact .inr (.inl hlater)
        · exact absurd ⟨hcur, hbehind⟩ hnot
  · have hre := f.toCursor.stepOver_cached he hlate h
    have hmem : k ∈ lists (t.slotFor t.tick) := f.toCursor.ahead_mem List.mem_cons_self
    have hslot : t.slotFor e.links.tick = t.slotFor t.tick :=
      f.slot_unique (f.pending_mem (pendingOf_of_entry he)) hmem
    have hcases : ∀ s, t'.cached s = TICK_MAX ∨ (s = t.slotFor t.tick ∧ t'.cached s = e.links.tick) ∨
        (t'.cached s = t.cached s ∧ (s = t.slotFor t.tick → behind ≠ [])) := by
      intro s
      rw [hre.cached s]
      by_cases hs : s = t.slotFor t.tick
      · rw [if_pos hs]
        by_cases hb : behind = []
        · rw [if_pos hb]
          rcases Nat.le_total TICK_MAX e.links.tick with hle | hle
          · exact .inl (Nat.min_eq_left hle)
          · exact .inr (.inl ⟨hs, Nat.min_eq_right hle⟩)
        · rw [if_neg hb]
          rcases Nat.le_total (t.cached s) e.links.tick with hle | hle
          · exact .inr (.inr ⟨Nat.min_eq_left hle, fun _ => hb⟩)
          · exact .inr (.inl ⟨hs, Nat.min_eq_right hle⟩)
      · rw [if_neg hs]
        exact .inr (.inr ⟨rfl, fun he => absurd he hs⟩)
    refine ⟨_, _, _, c', htick ▸ f.bounded, fun s => ?_, fun s => ?_⟩
    · rw [hre.slotFor]
      rcases hcases s with hmax | ⟨hs, heq⟩ | ⟨heq, -⟩
      · exact .inl hmax
      · rw [heq]
        exact .inr (hslot.trans hs.symm)
      · rw [heq]
        exact f.inSlot s
    · rw [hre.slotFor, htick]
      rcases hcases s with hmax | ⟨hs, heq⟩ | ⟨heq, hb⟩
      · exact .inl hmax
      · rw [heq]
        exact .inr (.inl hlate)
      · rw [heq]
        rcases f.later s with hmax | hlater | ⟨hcur, hbehind, -⟩
        · exact .inl hmax
        · exact .inr (.inl hlater)
        · exact absurd hbehind (hb hcur)

theorem timerStep_fresh {op : TimerOp T} (ht : StaysFresh t) (hok : KeepsFresh t op)
    (h : timerStep t op = some t') : StaysFresh t' := by
  cases op with
  | setTimeoutAt delayFromStart state key =>
    obtain ⟨lists, behind, ahead, f⟩ := ht
    obtain ⟨⟨t₁, timeout⟩, hset, rfl⟩ := Option.map_eq_some_iff.mp h
    obtain ⟨tick₀, tick, hround, hclamp, hins⟩ := setTimeoutAt_spec hset
    obtain ⟨hoff, hother⟩ := hok
    exact f.insert hins (clampTick_gt hclamp fun he => hoff (he ▸ hround))
      fun harmed => hother harmed tick₀ hround tick hclamp
  | cancelTimeout timeout =>
    obtain ⟨lists, behind, ahead, f⟩ := ht
    obtain ⟨⟨t₁, r⟩, hcancel, rfl⟩ := Option.map_eq_some_iff.mp h
    exact f.cancelTimeout hok hcancel
  | pollTo fuel target =>
    obtain ⟨⟨t₁, r⟩, hpoll, rfl⟩ := Option.map_eq_some_iff.mp h
    exact (pollLoop_rule (fun _ _ _ ⟨_, _, _, f⟩ _ hturn => f.pollTurn hturn) ht hpoll).1

/-- A tick that a fresh timer yields is not behind the scan. -/
theorem StaysFresh.nextTick (ht : StaysFresh t) {target : ℕ} (h : target < t.tick) :
    ∃ m, t.nextTick = some (some m) ∧ target < m := by
  obtain ⟨lists, behind, ahead, f⟩ := ht
  obtain ⟨m, hm, hcases⟩ := f.toCursor.nextTick_spec
  have hmax : t.tick ≤ TICK_MAX := f.bounded
  refine ⟨m, hm, ?_⟩
  rcases hcases with rfl | ⟨⟨s, rfl⟩, -⟩
  · exact h
  · rcases f.later s with hs | hs | ⟨-, -, -, hs⟩ <;> omega

end Freshness

/-- **A drained timer is not rescheduled in the past.** In every run that sets no timeout for the tick
being scanned, puts none into an armed slot and does not empty one, the tick that `next_tick` yields
after a `poll_to` that found nothing lies beyond its target. -/
theorem drained_next_tick_later (tickMs numSlots : ℕ) (t t' : Timer T)
    (ht : ReachableIf timerStep KeepsFresh (· = Timer.new tickMs numSlots) t) (fuel target : ℕ)
    (h : t.pollTo fuel target = some (t', none)) :
    ∃ m, t'.nextTick = some (some m) ∧ target < m := by
  have hfresh : StaysFresh t := ht.invariant
    (fun t hinit => ⟨_, _, _, hinit ▸ fresh_new tickMs numSlots⟩)
    (fun t op t' hf hok hstep => timerStep_fresh hf hok hstep)
  obtain ⟨hf, hend, -⟩ :=
    pollLoop_rule (fun _ _ _ ⟨_, _, _, f⟩ _ hturn => f.pollTurn hturn) hfresh h
  have htick := hend rfl
  refine hf.nextTick ?_
  split at htick <;> omega

/-- Two timeouts of one slot, one of them cancelled while the slot is armed. -/
theorem drained_next_tick_later_two :
    ∃ t t' : Timer Bool, run timerStep (Timer.new 100 4)
        [.setTimeoutAt (.fromMillis 100 (by decide)) true ⟨0⟩,
          .setTimeoutAt (.fromMillis 500 (by decide)) false ⟨1⟩, .pollTo 9 0,
          .cancelTimeout ⟨⟨0⟩, 1⟩] = some t ∧
      t.pollTo 9 2 = some (t', none) ∧ ∃ m, t'.nextTick = some (some m) ∧ 2 < m :=
  ⟨_, _, rfl, rfl, drained_next_tick_later 100 4 _ _
    (.next (.cancelTimeout ⟨⟨0⟩, 1⟩)
      (.next (.pollTo 9 0)
        (.next (.setTimeoutAt (.fromMillis 500 (by decide)) false ⟨1⟩)
          (.next (.setTimeoutAt (.fromMillis 100 (by decide)) true ⟨0⟩) (.start rfl)
            (by decide) rfl) (by decide) rfl) trivial rfl) (by decide) rfl) 9 2 rfl⟩

/-- The only timeout is cancelled when the scan has just entered its slot: the drained timer yields
the tick the scan has passed. -/
theorem cancelled_tick_yielded :
    ∃ t t' : Timer Bool, run timerStep (Timer.new 100 4)
        [.setTimeoutAt (.fromMillis 500 (by decide)) true ⟨0⟩, .pollTo 9 4,
          .cancelTimeout ⟨⟨0⟩, 5⟩] = some t ∧
      t.pollTo 9 5 = some (t', none) ∧ ∃ m, t'.nextTick = some (some m) ∧ ¬ 5 < m :=
  ⟨_, _, rfl, rfl, _, rfl, by decide⟩

end MyMio

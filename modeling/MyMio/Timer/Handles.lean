import MyMio.Timer.Deadlines

/-! # Timeout handles

`cancel_timeout` recognises a timeout by its key and its tick. Keys are recycled, so a handle kept
after its timeout is gone may find another timeout under its key; only a different tick then tells
the two apart. To say whose timeout is cancelled, the states of this module carry the number of the
`set_timeout` call that inserted them: a ghost that the code does not have and does not look at.

A handle acts on exactly its own timeout if and only if its key is not in use again, for another
timeout with the same tick (`cancels_own_iff_not_reused`).
-/

namespace MyMio
set_option autoImplicit false

open StepSystem

universe u

variable {α : Type u}

/-! ## Runs and the handles they issue -/

/-- A handle, with the number of the call that returned it and the state that call inserted. -/
structure Handle (α : Type u) where
  timeout : Timeout
  number : ℕ
  state : α
  deriving DecidableEq

structure Issued (α : Type u) where
  timer : Timer (ℕ × α)
  handles : List (Handle α)

def Issued.new (tickMs numSlots : ℕ) : Issued α := ⟨Timer.new tickMs numSlots, []⟩

inductive HandleOp (α : Type u)
  | setTimeout (elapsed delayFromNow : Duration) (state : α) (key : Token)
  | cancelTimeout (timeout : Timeout)
  | pollTo (fuel : ℕ) (target : ℕ)

def handleStep (r : Issued α) : HandleOp α → Option (Issued α)
  | .setTimeout elapsed delayFromNow state key =>
    (r.timer.setTimeout elapsed delayFromNow (r.handles.length, state) key).map fun (t, timeout) =>
      ⟨t, r.handles ++ [⟨timeout, r.handles.length, state⟩]⟩
  | .cancelTimeout timeout =>
    (r.timer.cancelTimeout timeout).map fun (t, _) => { r with timer := t }
  | .pollTo fuel target => (r.timer.pollTo fuel target).map fun (t, _) => { r with timer := t }

/-- The timeout the call inserted is still in the timer. -/
def Pending (t : Timer (ℕ × α)) (h : Handle α) : Prop :=
  ∃ k e, t.entries k = some e ∧ e.state.1 = h.number

/-- `cancel_timeout` takes the handle's own timeout while it is pending, and nothing otherwise. -/
def CancelsOwn (t : Timer (ℕ × α)) (h : Handle α) : Prop :=
  (Pending t h → ∃ t', t.cancelTimeout h.timeout = some (t', some (h.number, h.state)) ∧
    t'.pending = Function.update t.pending h.timeout.token none) ∧
  (¬ Pending t h → ∃ t', t.cancelTimeout h.timeout = some (t', none) ∧ t'.pending = t.pending)

theorem CancelsOwn.result {t t' : Timer (ℕ × α)} {h : Handle α} {v : ℕ × α} (hown : CancelsOwn t h)
    (hcancel : t.cancelTimeout h.timeout = some (t', some v)) : v = (h.number, h.state) := by
  by_cases hp : Pending t h
  · obtain ⟨t₁, hv, -⟩ := hown.1 hp
    rw [hcancel] at hv
    exact Option.some.inj (Prod.mk.inj (Option.some.inj hv)).2
  · obtain ⟨t₁, hv, -⟩ := hown.2 hp
    rw [hcancel] at hv
    cases hv

/-- When the handle's own timeout is gone, no other one sits under its key with its tick. -/
def NotReused (t : Timer (ℕ × α)) (h : Handle α) : Prop :=
  ¬ Pending t h → ∀ e, t.entries h.timeout.token = some e → e.links.tick ≠ h.timeout.tick

/-! ## Every pending timeout has its handle -/

structure Tracked (r : Issued α) : Prop where
  cursor : HasCursor r.timer
  issued : ∀ k tick n v, r.timer.pending k = some (tick, n, v) → ⟨⟨k, tick⟩, n, v⟩ ∈ r.handles
  numbered : ∀ h ∈ r.handles, r.handles[h.number]? = some h

section Tracking
variable {r r' : Issued α}

theorem tracked_new (tickMs numSlots : ℕ) : Tracked (Issued.new tickMs numSlots : Issued α) :=
  ⟨⟨_, _, _, cursor_new tickMs numSlots⟩, fun _ _ _ _ hk => (by cases hk), fun _ hm => by cases hm⟩

/-- Handles with one number are one handle. -/
theorem Tracked.unique (ht : Tracked r) {h h' : Handle α} (hm : h ∈ r.handles) (hm' : h' ∈ r.handles)
    (hn : h.number = h'.number) : h = h' := by
  have h₁ := ht.numbered h hm
  rw [hn, ht.numbered h' hm'] at h₁
  exact (Option.some.inj h₁).symm

theorem Tracked.shrink (ht : Tracked r) {t : Timer (ℕ × α)} (hc : HasCursor t)
    (hp : ∀ k p, t.pending k = some p → r.timer.pending k = some p) :
    Tracked { r with timer := t } :=
  ⟨hc, fun k tick n v hk => ht.issued k tick n v (hp k _ hk), ht.numbered⟩

theorem pending_shrinks {T : Type u} {t : Timer T} {k : Token} {p : Token → Option (ℕ × T)}
    (hpend : t.pending = Function.update p k none) (k' : Token) (x : ℕ × T)
    (hk : t.pending k' = some x) : p k' = some x := by
  rw [hpend] at hk
  by_cases he : k' = k
  · subst he
    simp at hk
  · rwa [Function.update_of_ne he] at hk

theorem pollTo_shrinks {T : Type u} {t t' : Timer T} {fuel target : ℕ} {e : Option (Entry T)}
    (ht : HasCursor t) (h : t.pollTo fuel target = some (t', e)) :
    ∀ k p, t'.pending k = some p → t.pending k = some p := by
  have hrule := pollLoop_rule
    (P := fun t₀ => HasCursor t₀ ∧ ∀ k p, t₀.pending k = some p → t.pending k = some p)
    (fun t₀ t₁ r₁ hP _ hturn => by
      refine ⟨hasCursor_turn hP.1 hturn, fun k p hk => ?_⟩
      obtain ⟨_, _, _, c⟩ := hP.1
      rcases c.pollTurn hturn with ⟨-, -, -, hpend, -⟩ | ⟨_, _, _, _, -, -, -, -, -, hpend, -⟩ |
        ⟨_, _, _, -, -, -, -, -, hpend, -⟩
      · exact hP.2 k p (hpend ▸ hk)
      · exact hP.2 k p (pending_shrinks hpend k p hk)
      · exact hP.2 k p (hpend ▸ hk)) ⟨ht, fun _ _ hk => hk⟩ h
  exact hrule.1.2

theorem handleStep_tracked {op : HandleOp α} (ht : Tracked r) (h : handleStep r op = some r') :
    Tracked r' := by
  obtain ⟨lists, behind, ahead, c⟩ := ht.cursor
  cases op with
  | setTimeout elapsed delayFromNow state key =>
    obtain ⟨⟨t, timeout⟩, hset, rfl⟩ := Option.map_eq_some_iff.mp h
    obtain ⟨tick₀, tick, -, -, hins⟩ := setTimeout_spec hset
    obtain ⟨lists', c', hpend, -, rfl⟩ := c.inserted hins
    refine ⟨⟨_, _, _, c'⟩, fun k tick' n v hk => ?_, fun h' hm => ?_⟩
    · rw [hpend] at hk
      by_cases he : k = key
      · subst he
        rw [Function.update_self] at hk
        simp only [Option.some.injEq, Prod.mk.injEq] at hk
        obtain ⟨rfl, rfl, rfl⟩ := hk
        simp
      · rw [Function.update_of_ne he] at hk
        exact List.mem_append_left _ (ht.issued k tick' n v hk)
    · rcases List.mem_append.mp hm with hm | hm
      · have hold := ht.numbered h' hm
        have hlt : h'.number < r.handles.length := (List.getElem?_eq_some_iff.mp hold).1
        exact (List.getElem?_append_left hlt).trans hold
      · obtain rfl := List.mem_singleton.mp hm
        simp
  | cancelTimeout timeout =>
    obtain ⟨⟨t, v⟩, hcancel, rfl⟩ := Option.map_eq_some_iff.mp h
    rcases cancelTimeout_cases c hcancel with ⟨e, lists', -, -, -, c', hpend, -⟩ | ⟨-, -, rfl⟩
    · exact ht.shrink ⟨_, _, _, c'⟩ (pending_shrinks hpend)
    · exact ht
  | pollTo fuel target =>
    obtain ⟨⟨t, e⟩, hpoll, rfl⟩ := Option.map_eq_some_iff.mp h
    have hc := (pollLoop_rule (fun _ _ _ ht _ => hasCursor_turn ht) ht.cursor hpoll).1
    exact ht.shrink hc (pollTo_shrinks ht.cursor hpoll)

end Tracking

/-! ## Cancelling -/

section Cancelling
variable {r : Issued α} {h : Handle α}

/-- A pending timeout is found under its handle's key, with its handle's tick. -/
theorem Tracked.pending_entry (ht : Tracked r) (hm : h ∈ r.handles) (hp : Pending r.timer h) :
    ∃ e, r.timer.entries h.timeout.token = some e ∧ e.links.tick = h.timeout.tick ∧
      e.state = (h.number, h.state) := by
  obtain ⟨k, e, he, hn⟩ := hp
  have hissued := ht.issued k e.links.tick e.state.1 e.state.2 (pendingOf_of_entry he)
  obtain rfl := ht.unique hm hissued hn.symm
  exact ⟨e, he, rfl, rfl⟩

theorem Tracked.cancelsOwn_iff (ht : Tracked r) (hm : h ∈ r.handles) :
    CancelsOwn r.timer h ↔ NotReused r.timer h := by
  obtain ⟨lists, behind, ahead, c⟩ := ht.cursor
  constructor
  · intro hown hgone e he htick
    obtain ⟨t', hcancel, -⟩ := hown.2 hgone
    obtain ⟨t₁, lists', hcancel', -⟩ := c.cancelTimeout he htick
    rw [hcancel] at hcancel'
    cases hcancel'
  · intro hreuse
    refine ⟨fun hp => ?_, fun hgone => ⟨r.timer, cancelTimeout_idle (hreuse hgone), rfl⟩⟩
    obtain ⟨e, he, htick, hstate⟩ := ht.pending_entry hm hp
    obtain ⟨t₁, lists', hcancel, -, hpend, -⟩ := c.cancelTimeout he htick
    exact ⟨t₁, hstate ▸ hcancel, hpend⟩

end Cancelling

/-- **A handle cancels its own timeout.** In every run and for every handle it has issued,
`cancel_timeout` acts on exactly the handle's own timeout if and only if no other timeout has the
handle's key and tick once its own is gone. -/
theorem cancels_own_iff_not_reused (tickMs numSlots : ℕ) (r : Issued α)
    (hr : Reachable handleStep (· = Issued.new tickMs numSlots) r) (h : Handle α)
    (hm : h ∈ r.handles) : CancelsOwn r.timer h ↔ NotReused r.timer h :=
  (hr.invariant (P := Tracked) (fun _ hinit => hinit ▸ tracked_new tickMs numSlots)
    (fun _ _ _ ht hstep => handleStep_tracked ht hstep)).cancelsOwn_iff hm

/-- A handle that is kept after its timeout has been cancelled. Its key belongs to another timeout, of a later
tick, which it leaves alone. -/
theorem cancels_own_iff_not_reused_kept :
    ∃ r : Issued Bool, run handleStep (Issued.new 100 4)
        [.setTimeout (.fromMillis 0 (by decide)) (.fromMillis 100 (by decide)) true ⟨0⟩,
          .cancelTimeout ⟨⟨0⟩, 1⟩,
          .setTimeout (.fromMillis 0 (by decide)) (.fromMillis 200 (by decide)) false ⟨0⟩] = some r ∧
      r.timer.pending ⟨0⟩ = some (2, 1, false) ∧ CancelsOwn r.timer ⟨⟨⟨0⟩, 1⟩, 0, true⟩ := by
  have hstart : Reachable handleStep (· = Issued.new 100 4) (Issued.new 100 4 : Issued Bool) := .start rfl
  have hr := ((hstart.next (.setTimeout (.fromMillis 0 (by decide)) (.fromMillis 100 (by decide)) true ⟨0⟩)
    rfl).next (.cancelTimeout ⟨⟨0⟩, 1⟩) rfl).next
    (.setTimeout (.fromMillis 0 (by decide)) (.fromMillis 200 (by decide)) false ⟨0⟩) rfl
  refine ⟨_, rfl, rfl, (cancels_own_iff_not_reused 100 4 _ hr _ (by decide)).mpr fun _ e he => ?_⟩
  obtain rfl := Option.some.inj he
  decide

/-- The first timeout is cancelled, a second one gets its key and its tick, and the first handle,
used again, cancels the second timeout. -/
theorem stale_handle_cancels_another :
    ∃ (r : Issued Bool) (h : Handle Bool), run handleStep (Issued.new 100 4)
        [.setTimeout (.fromMillis 0 (by decide)) (.fromMillis 100 (by decide)) true ⟨0⟩,
          .cancelTimeout ⟨⟨0⟩, 1⟩,
          .setTimeout (.fromMillis 0 (by decide)) (.fromMillis 100 (by decide)) false ⟨0⟩] = some r ∧
      h ∈ r.handles ∧ ¬ CancelsOwn r.timer h :=
  ⟨_, ⟨⟨⟨0⟩, 1⟩, 0, true⟩, rfl, by decide, fun hown => absurd (hown.result rfl) (by decide)⟩

end MyMio

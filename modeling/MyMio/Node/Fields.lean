import MyMio.Node.State

/-! # The fields of the packed word

`set` shifts its value into place and does not mask it, so a value that is wider than its field
lands on the fields above. `Ready` has values of seven bits under their own names (`Ready::all`,
`UnixReady::priority`) and any word by `from_usize`; the field has four bits, as `new` asserts.

`packed_fields_isolated_iff` says which values stay inside their field, and which leave the two
flags alone that `set_readiness` and `update` decide on.
-/

namespace MyMio
set_option autoImplicit false

open BitField

/-! ## Fields -/

inductive Field
  | readiness
  | interest
  | pollOpt
  | tokenRead
  | tokenWrite
  | queued
  | dropped
  deriving DecidableEq, Repr

namespace Field

def mask : Field → Usize
  | .readiness | .interest | .pollOpt => MASK_4
  | .tokenRead | .tokenWrite => MASK_2
  | .queued | .dropped => 1

def shift : Field → ℕ
  | .readiness => READINESS_SHIFT
  | .interest => INTEREST_SHIFT
  | .pollOpt => POLL_OPT_SHIFT
  | .tokenRead => TOKEN_RD_SHIFT
  | .tokenWrite => TOKEN_WR_SHIFT
  | .queued => QUEUED_SHIFT
  | .dropped => DROPPED_SHIFT

theorem apart {f g : Field} (h : f ≠ g) : Apart f.mask f.shift g.mask g.shift := by
  cases f <;> cases g <;> first | exact absurd rfl h | decide

theorem bit_lt {f : Field} {i : ℕ} (hi : f.mask.getLsbD i = true) : f.shift + i < 64 := by
  have hfour : i < 4 := by
    by_contra hge
    have hmask : f.mask.toNat < 2 ^ 4 := by cases f <;> decide
    rw [getLsbD_of_fits hmask (Nat.le_of_not_lt hge)] at hi
    cases hi
  have hshift : f.shift ≤ 17 := by cases f <;> decide
  omega

theorem bit_ne {f g : Field} (h : f ≠ g) {i : ℕ} (hi : f.mask.getLsbD i = true) :
    f.shift + i ≠ g.shift := by
  intro he
  have hfits : g.shift < 64 := by cases g <;> decide
  have hbit := (apart (Ne.symm h)).getLsbD (he ▸ hfits) hi (by omega)
  rw [he, Nat.sub_self] at hbit
  cases g <;> cases hbit

/-- A value has room in the field. -/
def Holds (f : Field) (val : Usize) : Prop := val &&& ~~~f.mask = 0

instance (f : Field) (val : Usize) : Decidable (f.Holds val) := inferInstanceAs (Decidable (_ = _))

theorem Holds.and_mask {f : Field} {val : Usize} (h : f.Holds val) : val &&& f.mask = val := by
  have hsplit : val = (val &&& f.mask) ||| (val &&& ~~~f.mask) := by
    rw [← BitVec.and_or_distrib_left, BitVec.or_not_self, BitVec.and_allOnes]
  rw [show val &&& ~~~f.mask = 0#64 from h, BitVec.or_zero] at hsplit
  exact hsplit.symm

theorem holds_get (x : Usize) (f : Field) : f.Holds (BitField.get x f.mask f.shift) := by
  unfold Holds BitField.get
  rw [BitVec.and_assoc, BitVec.and_not_self]
  exact BitVec.and_zero

end Field

/-- The bits of field `g` that a value for field `f` spills over. -/
def spilled (f : Field) (val : Usize) (g : Field) : Usize :=
  BitField.get (spill val f.mask f.shift) g.mask g.shift

theorem spilled_of_holds {f : Field} {val : Usize} (h : f.Holds val) (g : Field) :
    spilled f val g = 0 := by
  unfold spilled
  rw [spill_eq_zero h]
  exact get_zero _ _

namespace ReadinessState
variable (s : ReadinessState)

def field (f : Field) : Usize := s.get f.mask f.shift

theorem readiness_eq : s.readiness = readyFromUsize (s.field .readiness) := rfl

theorem interest_eq : s.interest = readyFromUsize (s.field .interest) := rfl

theorem pollOpt_eq : s.pollOpt = optFromUsize (s.field .pollOpt) := rfl

theorem tokenWritePos_eq : s.tokenWritePos = s.field .tokenWrite := rfl

theorem isQueued_eq_field : s.isQueued = (s.field .queued).getLsbD 0 := by
  rw [isQueued_eq]
  show _ = (BitField.get s.bits 1 QUEUED_SHIFT).getLsbD 0
  rw [getLsbD_get]
  exact (Bool.and_true _).symm

theorem isDropped_eq_field : s.isDropped = (s.field .dropped).getLsbD 0 := by
  rw [isDropped_eq]
  show _ = (BitField.get s.bits 1 DROPPED_SHIFT).getLsbD 0
  rw [getLsbD_get]
  exact (Bool.and_true _).symm

theorem field_set_self (f : Field) (val : Usize) : (s.set val f.mask f.shift).field f = val &&& f.mask := by
  exact get_set_self s.bits val fun i hi => Field.bit_lt hi

/-- A setter of one field changes another one by what its value spills there. -/
theorem field_set_of_ne {f g : Field} (h : f ≠ g) (val : Usize) :
    (s.set val f.mask f.shift).field g = s.field g ||| spilled f val g :=
  get_set_of_apart s.bits val (Field.apart h)

theorem field_set_of_holds {f g : Field} (h : f ≠ g) {val : Usize} (hval : f.Holds val) :
    (s.set val f.mask f.shift).field g = s.field g := by
  rw [s.field_set_of_ne h, spilled_of_holds hval]
  exact BitVec.or_zero

end ReadinessState

/-! ## The setters -/

/-- The methods that write one field. -/
inductive Setter
  | setReadiness (v : Ready)
  | setInterest (v : Ready)
  | setPollOpt (v : PollOpt)
  | disarm
  | setTokenWritePos (val : Usize)
  | updateTokenReadPos
  deriving DecidableEq, Repr

namespace Setter

def apply (s : ReadinessState) : Setter → ReadinessState
  | .setReadiness v => s.setReadiness v
  | .setInterest v => s.setInterest v
  | .setPollOpt v => s.setPollOpt v
  | .disarm => s.disarm
  | .setTokenWritePos val => s.setTokenWritePos val
  | .updateTokenReadPos => s.updateTokenReadPos

def own : Setter → Field
  | .setReadiness _ => .readiness
  | .setInterest _ | .disarm => .interest
  | .setPollOpt _ => .pollOpt
  | .setTokenWritePos _ => .tokenWrite
  | .updateTokenReadPos => .tokenRead

/-- What the method hands to `set`. -/
def value (s : ReadinessState) : Setter → Usize
  | .setReadiness v | .setInterest v => readyAsUsize v
  | .setPollOpt v => optAsUsize v
  | .disarm => readyAsUsize .empty
  | .setTokenWritePos val => val
  | .updateTokenReadPos => s.tokenWritePos

theorem apply_eq (op : Setter) (s : ReadinessState) :
    op.apply s = s.set (op.value s) op.own.mask op.own.shift := by
  cases op <;> rfl

/-- All that the setter changes is its own field. -/
def Isolated (op : Setter) (s : ReadinessState) : Prop :=
  ∀ f, f ≠ op.own → (op.apply s).field f = s.field f

/-- Each bit of the value beyond its field's width falls past all fields, or on a bit that is set
already. -/
def StaysInside (op : Setter) (s : ReadinessState) : Prop :=
  ∀ f, f ≠ op.own → spilled op.own (op.value s) f &&& ~~~s.field f = 0

theorem isolated_iff (op : Setter) (s : ReadinessState) : op.Isolated s ↔ op.StaysInside s := by
  refine forall_congr' fun f => imp_congr_right fun hne => ?_
  rw [op.apply_eq, s.field_set_of_ne (Ne.symm hne)]
  exact or_eq_left_iff _ _

theorem isolated_of_holds {op : Setter} {s : ReadinessState} (h : op.own.Holds (op.value s)) :
    op.Isolated s := by
  intro f hne
  rw [op.apply_eq, s.field_set_of_holds (Ne.symm hne) h]

theorem updateTokenReadPos_isolated (s : ReadinessState) : updateTokenReadPos.Isolated s :=
  isolated_of_holds (Field.holds_get s.bits .tokenWrite)

theorem disarm_isolated (s : ReadinessState) : disarm.Isolated s :=
  isolated_of_holds (show Field.interest.Holds 0 by decide)

end Setter

/-! ## The two flags under `set_readiness` and `update` -/

/-- Whether a value for field `f` reaches the flag `g`. -/
def spillsInto (f : Field) (val : Usize) (g : Field) : Bool := (spilled f val g).getLsbD 0

/-- The change from one word to the next sets no flag, the queued one unless there is readiness to
deliver. -/
structure FlagsKept (s next : ReadinessState) : Prop where
  queued : next.effectiveReadiness.isEmpty = true → s.isQueued = false → next.isQueued = false
  dropped : s.isDropped = false → next.isDropped = false

namespace ReadinessState
variable (s : ReadinessState)

theorem isQueued_set_eq {f : Field} (h : f ≠ .queued) (val : Usize) :
    (s.set val f.mask f.shift).isQueued = (s.isQueued || spillsInto f val .queued) := by
  rw [isQueued_eq_field, isQueued_eq_field, s.field_set_of_ne h, BitVec.getLsbD_or]
  rfl

theorem isDropped_set_eq {f : Field} (h : f ≠ .dropped) (val : Usize) :
    (s.set val f.mask f.shift).isDropped = (s.isDropped || spillsInto f val .dropped) := by
  rw [isDropped_eq_field, isDropped_eq_field, s.field_set_of_ne h, BitVec.getLsbD_or]
  rfl

theorem field_setQueued {f : Field} (h : f ≠ .queued) : s.setQueued.field f = s.field f := by
  apply get_congr
  intro i hi
  have hne : f.shift + i ≠ QUEUED_SHIFT := Field.bit_ne h hi
  show (s.bits ||| flag 64 QUEUED_SHIFT).getLsbD _ = _
  rw [getLsbD_or_flag _ (Field.bit_lt hi), decide_eq_false hne, Bool.or_false]

theorem field_setDequeued {f : Field} (h : f ≠ .queued) : s.setDequeued.field f = s.field f := by
  apply get_congr
  intro i hi
  have hne : f.shift + i ≠ QUEUED_SHIFT := Field.bit_ne h hi
  show (s.bits &&& ~~~flag 64 QUEUED_SHIFT).getLsbD _ = _
  rw [getLsbD_and_not_flag _ (Field.bit_lt hi), decide_eq_false hne, Bool.not_false, Bool.and_true]

theorem field_flagAsDropped {f : Field} (hq : f ≠ .queued) (hd : f ≠ .dropped) :
    s.flagAsDropped.field f = s.field f := by
  apply get_congr
  intro i hi
  have hneq : f.shift + i ≠ QUEUED_SHIFT := Field.bit_ne hq hi
  have hned : f.shift + i ≠ DROPPED_SHIFT := Field.bit_ne hd hi
  show (s.bits ||| (flag 64 DROPPED_SHIFT ||| flag 64 QUEUED_SHIFT)).getLsbD _ = _
  rw [BitVec.getLsbD_or, getLsbD_or_flag _ (Field.bit_lt hi), getLsbD_flag (Field.bit_lt hi),
    decide_eq_false hned, decide_eq_false hneq, Bool.or_false, Bool.or_false]

theorem field_queueIfReady {f : Field} (h : f ≠ .queued) : s.queueIfReady.field f = s.field f := by
  unfold queueIfReady
  split
  · rfl
  · exact s.field_setQueued h

@[simp] theorem effectiveReadiness_setQueued : s.setQueued.effectiveReadiness = s.effectiveReadiness := by
  unfold effectiveReadiness
  rw [readiness_eq, interest_eq, s.field_setQueued (by decide), s.field_setQueued (by decide)]
  rfl

@[simp] theorem effectiveReadiness_queueIfReady :
    s.queueIfReady.effectiveReadiness = s.effectiveReadiness := by
  unfold queueIfReady
  split
  · rfl
  · exact s.effectiveReadiness_setQueued

/-- What makes the flags of a word that was `s` before stay: the value does not reach them. -/
theorem flagsKept_queueIfReady_iff {next : ReadinessState} {spillsQueued spillsDropped : Bool}
    (hqueued : next.isQueued = (s.isQueued || spillsQueued))
    (hdropped : next.isDropped = (s.isDropped || spillsDropped)) :
    FlagsKept s next.queueIfReady ↔
      (spillsQueued = true → s.isQueued = true ∨ next.effectiveReadiness.isEmpty = false) ∧
        (spillsDropped = true → s.isDropped = true) := by
  have hq : next.effectiveReadiness.isEmpty = true → next.queueIfReady.isQueued = next.isQueued := by
    intro hempty
    unfold queueIfReady
    rw [if_pos hempty]
  constructor
  · intro h
    constructor
    · intro hspill
      cases hempty : next.effectiveReadiness.isEmpty with
      | false => exact .inr rfl
      | true =>
        have hkept := h.queued (by rw [effectiveReadiness_queueIfReady, hempty])
        rw [hq hempty, hqueued, hspill, Bool.or_true] at hkept
        cases hs : s.isQueued with
        | true => exact .inl rfl
        | false => exact absurd (hkept hs) (by decide)
    · intro hspill
      have hkept := h.dropped
      rw [isDropped_queueIfReady, hdropped, hspill, Bool.or_true] at hkept
      cases hs : s.isDropped with
      | true => rfl
      | false => exact absurd (hkept hs) (by decide)
  · intro ⟨h₁, h₂⟩
    constructor
    · intro hempty hs
      rw [effectiveReadiness_queueIfReady] at hempty
      rw [hq hempty, hqueued, hs, Bool.false_or]
      cases hspill : spillsQueued with
      | false => rfl
      | true =>
        rw [hs, hempty] at h₁
        exact absurd (h₁ hspill) (by decide)
    · intro hs
      rw [isDropped_queueIfReady, hdropped, hs, Bool.false_or]
      cases hspill : spillsDropped with
      | false => rfl
      | true =>
        rw [hs] at h₂
        exact absurd (h₂ hspill) (by decide)

/-! ## The fields under the operations -/

theorem field_afterSetReadiness {f : Field} (hf : f ≠ .readiness) (hq : f ≠ .queued) {ready : Ready}
    (hready : Field.readiness.Holds ready.bits) :
    (s.afterSetReadiness ready).field f = s.field f := by
  unfold afterSetReadiness
  rw [field_queueIfReady _ hq]
  exact s.field_set_of_holds (f := .readiness) (Ne.symm hf) hready

/-- What `update` has put in place, with values that fit, before it may queue the node. -/
theorem field_updated (pos : Usize) {interest : Ready} {opt : PollOpt} {f : Field}
    (hinterest : Field.interest.Holds interest.bits) (hopt : Field.pollOpt.Holds opt.bits)
    (hf : f ≠ .interest) (hf' : f ≠ .pollOpt) :
    (((s.setTokenWritePos pos).setInterest interest).setPollOpt opt).field f =
      (s.setTokenWritePos pos).field f := by
  refine (field_set_of_holds _ (f := .pollOpt) (Ne.symm hf') hopt).trans ?_
  exact field_set_of_holds _ (f := .interest) (Ne.symm hf) hinterest

theorem field_afterUpdate {pos : Usize} {interest : Ready} {opt : PollOpt} {f : Field}
    (hpos : Field.tokenWrite.Holds pos) (hinterest : Field.interest.Holds interest.bits)
    (hopt : Field.pollOpt.Holds opt.bits) (hf : f ≠ .interest) (hf' : f ≠ .pollOpt)
    (hw : f ≠ .tokenWrite) (hq : f ≠ .queued) :
    (s.afterUpdate pos interest opt).field f = s.field f := by
  unfold afterUpdate
  rw [field_queueIfReady _ hq, s.field_updated pos hinterest hopt hf hf']
  exact s.field_set_of_holds (f := .tokenWrite) (Ne.symm hw) hpos

theorem tokenWritePos_afterUpdate {pos : Usize} {interest : Ready} {opt : PollOpt}
    (hpos : Field.tokenWrite.Holds pos) (hinterest : Field.interest.Holds interest.bits)
    (hopt : Field.pollOpt.Holds opt.bits) : (s.afterUpdate pos interest opt).tokenWritePos = pos := by
  unfold afterUpdate
  rw [tokenWritePos_eq, field_queueIfReady _ (by decide),
    s.field_updated pos hinterest hopt (by decide) (by decide)]
  exact (s.field_set_self .tokenWrite pos).trans hpos.and_mask

/-- The loop body of `ReadinessQueue::poll` before it moves the read position. -/
def consumed : ReadinessState :=
  if s.pollOpt.isEdge then
    if s.pollOpt.isOneshot && !s.effectiveReadiness.isEmpty then s.setDequeued.disarm
    else s.setDequeued
  else if s.effectiveReadiness.isEmpty then s.setDequeued
  else s

theorem afterPoll_eq : s.afterPoll = s.consumed.updateTokenReadPos := rfl

theorem field_disarm {f : Field} (h : f ≠ .interest) : s.disarm.field f = s.field f :=
  s.field_set_of_holds (f := .interest) (Ne.symm h) (by decide)

theorem field_consumed {f : Field} (hi : f ≠ .interest) (hq : f ≠ .queued) :
    s.consumed.field f = s.field f := by
  unfold consumed
  split
  · split
    · rw [field_disarm _ hi, s.field_setDequeued hq]
    · exact s.field_setDequeued hq
  · split
    · exact s.field_setDequeued hq
    · rfl

theorem tokenWritePos_afterPoll : s.afterPoll.tokenWritePos = s.tokenWritePos := by
  rw [afterPoll_eq]
  have hkept : s.consumed.updateTokenReadPos.field .tokenWrite = s.consumed.field .tokenWrite :=
    s.consumed.field_set_of_holds (f := .tokenRead) (by decide) (Field.holds_get _ .tokenWrite)
  exact hkept.trans (s.field_consumed (by decide) (by decide))

theorem tokenReadPos_afterPoll : s.afterPoll.tokenReadPos = s.tokenWritePos := by
  rw [afterPoll_eq]
  have hmoved : s.consumed.updateTokenReadPos.field .tokenRead =
      s.consumed.field .tokenWrite &&& MASK_2 := s.consumed.field_set_self .tokenRead _
  have hfits : Field.tokenRead.Holds (s.consumed.field .tokenWrite) :=
    Field.holds_get s.consumed.bits .tokenWrite
  exact hmoved.trans (hfits.and_mask.trans (s.field_consumed (by decide) (by decide)))

/-! ## Which values are isolated -/

/-- What is effective once `set_readiness` has put its value in place: the value against the
interest, on which the value's own upper bits have fallen. -/
def signalled (ready : Ready) : Ready :=
  ⟨(ready.bits &&& MASK_4) &&& (s.interest.bits ||| spilled .readiness ready.bits .interest)⟩

theorem effectiveReadiness_setReadiness (ready : Ready) :
    (s.setReadiness ready).effectiveReadiness = s.signalled ready := by
  unfold effectiveReadiness
  rw [readiness_eq, interest_eq]
  have hread : (s.setReadiness ready).field .readiness = ready.bits &&& MASK_4 :=
    s.field_set_self .readiness ready.bits
  have hint : (s.setReadiness ready).field .interest =
      s.field .interest ||| spilled .readiness ready.bits .interest :=
    s.field_set_of_ne (f := .readiness) (by decide) ready.bits
  rw [hread, hint]
  rfl

/-- `set_readiness` with this value sets no flag it should not. -/
def SignalStaysInside (ready : Ready) : Prop :=
  (spillsInto .readiness ready.bits .queued = true →
      s.isQueued = true ∨ (s.signalled ready).isEmpty = false) ∧
    (spillsInto .readiness ready.bits .dropped = true → s.isDropped = true)

theorem afterSetReadiness_flags_iff (ready : Ready) :
    FlagsKept s (s.afterSetReadiness ready) ↔ s.SignalStaysInside ready := by
  unfold SignalStaysInside
  rw [← s.effectiveReadiness_setReadiness ready]
  exact s.flagsKept_queueIfReady_iff (s.isQueued_set_eq (f := .readiness) (by decide) ready.bits)
    (s.isDropped_set_eq (f := .readiness) (by decide) ready.bits)

/-- Whether one of the values of an `update` reaches the flag. -/
def updateSpills (pos : Usize) (interest : Ready) (opt : PollOpt) (g : Field) : Bool :=
  spillsInto .tokenWrite pos g || spillsInto .interest interest.bits g ||
    spillsInto .pollOpt opt.bits g

/-- `update` with these values sets no flag it should not. -/
def UpdateStaysInside (pos : Usize) (interest : Ready) (opt : PollOpt) : Prop :=
  (updateSpills pos interest opt .queued = true →
      s.isQueued = true ∨ (s.readiness.inter interest).isEmpty = false) ∧
    (updateSpills pos interest opt .dropped = true → s.isDropped = true)

theorem afterUpdate_flags_iff (pos : Usize) (interest : Ready) (opt : PollOpt) :
    FlagsKept s (s.afterUpdate pos interest opt) ↔ s.UpdateStaysInside pos interest opt := by
  unfold UpdateStaysInside
  rw [← s.effectiveReadiness_updated pos interest opt]
  apply s.flagsKept_queueIfReady_iff
  · refine (isQueued_set_eq _ (f := .pollOpt) (by decide) _).trans ?_
    refine (congrArg (· || _) (isQueued_set_eq _ (f := .interest) (by decide) _)).trans ?_
    refine (congrArg (fun b => (b || _) || _)
      (s.isQueued_set_eq (f := .tokenWrite) (by decide) pos)).trans ?_
    unfold updateSpills
    simp only [Bool.or_assoc, readyAsUsize, optAsUsize]
  · refine (isDropped_set_eq _ (f := .pollOpt) (by decide) _).trans ?_
    refine (congrArg (· || _) (isDropped_set_eq _ (f := .interest) (by decide) _)).trans ?_
    refine (congrArg (fun b => (b || _) || _)
      (s.isDropped_set_eq (f := .tokenWrite) (by decide) pos)).trans ?_
    unfold updateSpills
    simp only [Bool.or_assoc, readyAsUsize, optAsUsize]

end ReadinessState

/-- **Which values stay inside their fields.** A setter leaves every other field alone exactly when
no bit of its value beyond the field's width falls on a clear bit of another field; `set_readiness`
and `update` leave the flags alone exactly when no such bit falls on a clear flag, or the queued flag
is due anyway. -/
theorem packed_fields_isolated_iff (s : ReadinessState) :
    (∀ op : Setter, op.Isolated s ↔ op.StaysInside s) ∧
      (∀ ready, FlagsKept s (s.afterSetReadiness ready) ↔ s.SignalStaysInside ready) ∧
      ∀ pos interest opt,
        FlagsKept s (s.afterUpdate pos interest opt) ↔ s.UpdateStaysInside pos interest opt :=
  ⟨fun op => op.isolated_iff s, s.afterSetReadiness_flags_iff, s.afterUpdate_flags_iff⟩

/-- `Ready::all()` on the word of `new2`: the interest, which was empty, has `writable` and `error`
afterwards, and the node is queued. `Ready::from_usize(1 << 17)` drops it. -/
theorem packed_fields_not_isolated :
    (ReadinessState.new .empty .empty).interest = .empty ∧
      ((ReadinessState.new .empty .empty).setReadiness .all).interest = .union .writable .error ∧
      ¬ (Setter.setReadiness .all).Isolated (.new .empty .empty) ∧
      ((ReadinessState.new .empty .empty).afterSetReadiness .all).isQueued = true ∧
      ¬ FlagsKept (.new .empty .empty)
        ((ReadinessState.new .empty .empty).afterSetReadiness (readyFromUsize (1 <<< 17))) := by
  refine ⟨by decide, by decide, fun h => ?_, by decide, fun h => ?_⟩
  · exact absurd (h .interest (by decide)) (by decide)
  · exact absurd (h.dropped (by decide)) (by decide)

end MyMio

import MyMio.Event.Ready
import MyMio.Foundations.BitField

/-! # The packed word of a registration node

`ReadinessState` in `src/poll.rs`: readiness, interest and options in four bits each, the two token
positions in two bits each, and the queued and the dropped flag. `set` does not cut its value down
to the field, as in the source. The debug assertions are not part of the model, and `unreachable!`
is `none`.
-/

namespace MyMio
set_option autoImplicit false

open BitField

def READINESS_SHIFT : ℕ := 0
def INTEREST_SHIFT : ℕ := 4
def POLL_OPT_SHIFT : ℕ := 8
def TOKEN_RD_SHIFT : ℕ := 12
def TOKEN_WR_SHIFT : ℕ := 14
def QUEUED_SHIFT : ℕ := 16
def DROPPED_SHIFT : ℕ := 17

def MASK_2 : Usize := 4 - 1
def MASK_4 : Usize := 16 - 1
def QUEUED_MASK : Usize := flag 64 QUEUED_SHIFT
def DROPPED_MASK : Usize := flag 64 DROPPED_SHIFT

structure ReadinessState where
  bits : Usize
  deriving DecidableEq, Repr

namespace ReadinessState

def new (interest : Ready) (opt : PollOpt) : ReadinessState :=
  ⟨readyAsUsize interest <<< INTEREST_SHIFT ||| optAsUsize opt <<< POLL_OPT_SHIFT⟩

def get (s : ReadinessState) (mask : Usize) (shift : ℕ) : Usize := BitField.get s.bits mask shift

def set (s : ReadinessState) (val mask : Usize) (shift : ℕ) : ReadinessState :=
  ⟨BitField.set s.bits val mask shift⟩

def readiness (s : ReadinessState) : Ready := readyFromUsize (s.get MASK_4 READINESS_SHIFT)

def interest (s : ReadinessState) : Ready := readyFromUsize (s.get MASK_4 INTEREST_SHIFT)

def pollOpt (s : ReadinessState) : PollOpt := optFromUsize (s.get MASK_4 POLL_OPT_SHIFT)

def effectiveReadiness (s : ReadinessState) : Ready := s.readiness.inter s.interest

def setReadiness (s : ReadinessState) (v : Ready) : ReadinessState :=
  s.set (readyAsUsize v) MASK_4 READINESS_SHIFT

def setInterest (s : ReadinessState) (v : Ready) : ReadinessState :=
  s.set (readyAsUsize v) MASK_4 INTEREST_SHIFT

def setPollOpt (s : ReadinessState) (v : PollOpt) : ReadinessState :=
  s.set (optAsUsize v) MASK_4 POLL_OPT_SHIFT

def disarm (s : ReadinessState) : ReadinessState := s.setInterest .empty

def isQueued (s : ReadinessState) : Bool := s.bits &&& QUEUED_MASK == QUEUED_MASK

def isDropped (s : ReadinessState) : Bool := s.bits &&& DROPPED_MASK == DROPPED_MASK

def setQueued (s : ReadinessState) : ReadinessState := ⟨s.bits ||| QUEUED_MASK⟩

def setDequeued (s : ReadinessState) : ReadinessState := ⟨s.bits &&& ~~~QUEUED_MASK⟩

def tokenReadPos (s : ReadinessState) : Usize := s.get MASK_2 TOKEN_RD_SHIFT

def tokenWritePos (s : ReadinessState) : Usize := s.get MASK_2 TOKEN_WR_SHIFT

def setTokenWritePos (s : ReadinessState) (val : Usize) : ReadinessState :=
  s.set val MASK_2 TOKEN_WR_SHIFT

def updateTokenReadPos (s : ReadinessState) : ReadinessState :=
  s.set s.tokenWritePos MASK_2 TOKEN_RD_SHIFT

def nextTokenPos (s : ReadinessState) : Option Usize :=
  match s.tokenWritePos, s.tokenReadPos with
  | 0, 1 => some 2
  | 0, 2 => some 1
  | 0, 0 => some 1
  | 1, 0 => some 2
  | 1, 2 => some 0
  | 1, 1 => some 2
  | 2, 0 => some 1
  | 2, 1 => some 0
  | 2, 2 => some 0
  | _, _ => none

/-- What `flag_as_dropped` puts in place of the word. -/
def flagAsDropped (s : ReadinessState) : ReadinessState := ⟨s.bits ||| (DROPPED_MASK ||| QUEUED_MASK)⟩

/-! ## What the operations compute before their `compare_and_swap` -/

/-- The last lines before the `compare_and_swap` of `set_readiness` and of `update`. -/
def queueIfReady (next : ReadinessState) : ReadinessState :=
  if next.effectiveReadiness.isEmpty then next else next.setQueued

def afterSetReadiness (state : ReadinessState) (ready : Ready) : ReadinessState :=
  (state.setReadiness ready).queueIfReady

def afterUpdate (state : ReadinessState) (nextTokenPos : Usize) (interest : Ready) (opt : PollOpt) :
    ReadinessState :=
  (((state.setTokenWritePos nextTokenPos).setInterest interest).setPollOpt opt).queueIfReady

/-- The body of the loop in `ReadinessQueue::poll`, for a node that is not dropped. -/
def afterPoll (state : ReadinessState) : ReadinessState :=
  let readiness := state.effectiveReadiness
  let opt := state.pollOpt
  let next :=
    if opt.isEdge then
      let next := state.setDequeued
      if opt.isOneshot && !readiness.isEmpty then next.disarm else next
    else if readiness.isEmpty then state.setDequeued
    else state
  next.updateTokenReadPos

/-! ## The two flags -/

theorem isQueued_eq (s : ReadinessState) : s.isQueued = s.bits.getLsbD QUEUED_SHIFT :=
  and_flag_eq s.bits (by decide)

theorem isDropped_eq (s : ReadinessState) : s.isDropped = s.bits.getLsbD DROPPED_SHIFT :=
  and_flag_eq s.bits (by decide)

@[simp] theorem isQueued_setQueued (s : ReadinessState) : s.setQueued.isQueued = true := by
  rw [isQueued_eq]
  show (s.bits ||| flag 64 QUEUED_SHIFT).getLsbD QUEUED_SHIFT = true
  rw [getLsbD_or_flag _ (by decide), decide_eq_true rfl, Bool.or_true]

@[simp] theorem isDropped_setQueued (s : ReadinessState) : s.setQueued.isDropped = s.isDropped := by
  rw [isDropped_eq, isDropped_eq]
  show (s.bits ||| flag 64 QUEUED_SHIFT).getLsbD DROPPED_SHIFT = _
  rw [getLsbD_or_flag _ (by decide)]
  simp [QUEUED_SHIFT, DROPPED_SHIFT]

@[simp] theorem isQueued_setDequeued (s : ReadinessState) : s.setDequeued.isQueued = false := by
  rw [isQueued_eq]
  show (s.bits &&& ~~~flag 64 QUEUED_SHIFT).getLsbD QUEUED_SHIFT = false
  rw [getLsbD_and_not_flag _ (by decide), decide_eq_true rfl, Bool.not_true, Bool.and_false]

@[simp] theorem isQueued_flagAsDropped (s : ReadinessState) : s.flagAsDropped.isQueued = true := by
  rw [isQueued_eq]
  show (s.bits ||| (flag 64 DROPPED_SHIFT ||| flag 64 QUEUED_SHIFT)).getLsbD QUEUED_SHIFT = true
  rw [BitVec.getLsbD_or, getLsbD_or_flag _ (by decide), decide_eq_true rfl, Bool.or_true, Bool.or_true]

@[simp] theorem isDropped_flagAsDropped (s : ReadinessState) : s.flagAsDropped.isDropped = true := by
  rw [isDropped_eq]
  show (s.bits ||| (flag 64 DROPPED_SHIFT ||| flag 64 QUEUED_SHIFT)).getLsbD DROPPED_SHIFT = true
  rw [BitVec.getLsbD_or, getLsbD_or_flag _ (by decide), getLsbD_flag (by decide), decide_eq_true rfl,
    Bool.true_or, Bool.or_true]

/-- A field below the flags. -/
def Below (mask : Usize) (shift : ℕ) : Prop :=
  mask.getLsbD (QUEUED_SHIFT - shift) = false ∧ mask.getLsbD (DROPPED_SHIFT - shift) = false

instance (mask : Usize) (shift : ℕ) : Decidable (Below mask shift) :=
  inferInstanceAs (Decidable (_ ∧ _))

/-- Setting a field clears no flag, whatever the value. -/
theorem isQueued_set {s : ReadinessState} {mask : Usize} {shift : ℕ} (hmask : Below mask shift)
    (val : Usize) (h : s.isQueued = true) : (s.set val mask shift).isQueued = true := by
  rw [isQueued_eq] at *
  exact set_keeps (by decide) hmask.1 h

theorem isDropped_set {s : ReadinessState} {mask : Usize} {shift : ℕ} (hmask : Below mask shift)
    (val : Usize) (h : s.isDropped = true) : (s.set val mask shift).isDropped = true := by
  rw [isDropped_eq] at *
  exact set_keeps (by decide) hmask.2 h

theorem isQueued_queueIfReady {s : ReadinessState} (h : s.isQueued = true) :
    s.queueIfReady.isQueued = true := by
  unfold queueIfReady
  split
  · exact h
  · exact s.isQueued_setQueued

theorem isDropped_queueIfReady (s : ReadinessState) : s.queueIfReady.isDropped = s.isDropped := by
  unfold queueIfReady
  split
  · rfl
  · exact s.isDropped_setQueued

/-- What `set_readiness` and `update` leave effective is queued. -/
theorem isQueued_of_effective {s : ReadinessState}
    (h : s.queueIfReady.effectiveReadiness.isEmpty = false) : s.queueIfReady.isQueued = true := by
  unfold queueIfReady at *
  split
  · rename_i hempty
    rw [if_pos hempty, hempty] at h
    cases h
  · exact s.isQueued_setQueued

theorem isQueued_afterSetReadiness {s : ReadinessState} (ready : Ready) (h : s.isQueued = true) :
    (s.afterSetReadiness ready).isQueued = true :=
  isQueued_queueIfReady (isQueued_set (by decide) _ h)

theorem isDropped_afterSetReadiness {s : ReadinessState} (ready : Ready) (h : s.isDropped = true) :
    (s.afterSetReadiness ready).isDropped = true := by
  unfold afterSetReadiness
  rw [isDropped_queueIfReady]
  exact isDropped_set (by decide) _ h

theorem isQueued_afterUpdate {s : ReadinessState} (pos : Usize) (interest : Ready) (opt : PollOpt)
    (h : s.isQueued = true) : (s.afterUpdate pos interest opt).isQueued = true := by
  have hpos : (s.setTokenWritePos pos).isQueued = true := isQueued_set (by decide) _ h
  have hinterest : ((s.setTokenWritePos pos).setInterest interest).isQueued = true :=
    isQueued_set (by decide) _ hpos
  exact isQueued_queueIfReady (isQueued_set (by decide) _ hinterest)

theorem isDropped_afterUpdate {s : ReadinessState} (pos : Usize) (interest : Ready) (opt : PollOpt)
    (h : s.isDropped = true) : (s.afterUpdate pos interest opt).isDropped = true := by
  have hpos : (s.setTokenWritePos pos).isDropped = true := isDropped_set (by decide) _ h
  have hinterest : ((s.setTokenWritePos pos).setInterest interest).isDropped = true :=
    isDropped_set (by decide) _ hpos
  unfold afterUpdate
  rw [isDropped_queueIfReady]
  exact isDropped_set (by decide) _ hinterest

/-- A new word has no bit above its interest and options, which pass the assertions of `new`. -/
theorem new_above {interest : Ready} {opt : PollOpt} (hi : interest.bits ≤ MASK_4)
    (ho : opt.bits ≤ MASK_4) {i : ℕ} (hle : 12 ≤ i) : (new interest opt).bits.getLsbD i = false := by
  show (interest.bits <<< INTEREST_SHIFT ||| opt.bits <<< POLL_OPT_SHIFT).getLsbD i = false
  have hint : interest.bits.toNat < 2 ^ 4 := Nat.lt_succ_of_le hi
  have hopt : opt.bits.toNat < 2 ^ 4 := Nat.lt_succ_of_le ho
  rw [BitVec.getLsbD_or, BitVec.getLsbD_shiftLeft, BitVec.getLsbD_shiftLeft,
    getLsbD_of_fits hint (Nat.le_sub_of_add_le (show 4 + INTEREST_SHIFT ≤ i by
      unfold INTEREST_SHIFT; omega)),
    getLsbD_of_fits hopt (Nat.le_sub_of_add_le (show 4 + POLL_OPT_SHIFT ≤ i by
      unfold POLL_OPT_SHIFT; omega))]
  simp only [Bool.and_false, Bool.or_false]

theorem new_flags {interest : Ready} {opt : PollOpt} (hi : interest.bits ≤ MASK_4)
    (ho : opt.bits ≤ MASK_4) :
    (new interest opt).isQueued = false ∧ (new interest opt).isDropped = false := by
  rw [isQueued_eq, isDropped_eq]
  exact ⟨new_above hi ho (by decide), new_above hi ho (by decide)⟩

/-! ## What `update` makes of the word -/

theorem getLsbD_mask_4 {i : ℕ} : MASK_4.getLsbD i = decide (i < 4) := by
  by_cases hi : i < 4
  · rw [decide_eq_true hi]
    obtain rfl | rfl | rfl | rfl : i = 0 ∨ i = 1 ∨ i = 2 ∨ i = 3 := by omega
    all_goals rfl
  · rw [decide_eq_false hi]
    exact getLsbD_of_fits (by decide : MASK_4.toNat < 2 ^ 4) (Nat.le_of_not_lt hi)

theorem effectiveReadiness_updated (s : ReadinessState) (pos : Usize) (interest : Ready)
    (opt : PollOpt) :
    (((s.setTokenWritePos pos).setInterest interest).setPollOpt opt).effectiveReadiness =
      s.readiness.inter interest := by
  have hbit : ∀ i, i < 4 →
      (((s.setTokenWritePos pos).setInterest interest).setPollOpt opt).bits.getLsbD i =
        s.bits.getLsbD i ∧
      (((s.setTokenWritePos pos).setInterest interest).setPollOpt opt).bits.getLsbD (4 + i) =
        interest.bits.getLsbD i := by
    intro i hi
    have hmask : MASK_4.getLsbD i = true := by rw [getLsbD_mask_4, decide_eq_true hi]
    have hbelow : ∀ (x val mask : Usize) (shift j : ℕ), j < 8 → j < shift →
        (BitField.set x val mask shift).getLsbD j = x.getLsbD j :=
      fun x val mask shift j hj hlt => getLsbD_set_below x val mask (by omega) hlt
    refine ⟨?_, ?_⟩
    · refine (hbelow _ _ _ POLL_OPT_SHIFT i (by omega) (by unfold POLL_OPT_SHIFT; omega)).trans ?_
      refine (hbelow _ _ _ INTEREST_SHIFT i (by omega) (by unfold INTEREST_SHIFT; omega)).trans ?_
      exact hbelow _ _ _ TOKEN_WR_SHIFT i (by omega) (by unfold TOKEN_WR_SHIFT; omega)
    · refine (hbelow _ _ _ POLL_OPT_SHIFT (4 + i) (by omega)
        (by unfold POLL_OPT_SHIFT; omega)).trans ?_
      exact getLsbD_set_inside _ interest.bits 
        (by unfold INTEREST_SHIFT; omega) hmask
  have heq : ∀ i, i < 64 →
      (((s.setTokenWritePos pos).setInterest interest).setPollOpt opt).effectiveReadiness.bits.getLsbD
        i = (s.readiness.inter interest).bits.getLsbD i := by
    intro i _
    show (BitField.get _ MASK_4 READINESS_SHIFT &&& BitField.get _ MASK_4 INTEREST_SHIFT).getLsbD i =
      (BitField.get s.bits MASK_4 READINESS_SHIFT &&& interest.bits).getLsbD i
    rw [BitVec.getLsbD_and, BitVec.getLsbD_and, getLsbD_get, getLsbD_get, getLsbD_get,
      getLsbD_mask_4]
    by_cases hi : i < 4
    · obtain ⟨hread, hint⟩ := hbit i hi
      simp only [READINESS_SHIFT, INTEREST_SHIFT, Nat.zero_add, hread, hint, hi, decide_true,
        Bool.and_true]
    · simp [hi]
  exact congrArg Ready.mk (BitVec.eq_of_getLsbD_eq fun i hi => heq i hi)

/-- Bits of an interest or of options that `set` lets through to the queued flag; no named flag has
them. -/
def spills (interest : Ready) (opt : PollOpt) : Bool :=
  interest.bits.getLsbD (QUEUED_SHIFT - INTEREST_SHIFT) ||
    opt.bits.getLsbD (QUEUED_SHIFT - POLL_OPT_SHIFT)

theorem isQueued_afterUpdate_eq (s : ReadinessState) {pos : Usize} (hpos : pos.toNat < 4)
    (interest : Ready) (opt : PollOpt) :
    (s.afterUpdate pos interest opt).isQueued =
      (s.isQueued || !(s.readiness.inter interest).isEmpty || spills interest opt) := by
  have hsets : (((s.setTokenWritePos pos).setInterest interest).setPollOpt opt).isQueued =
      (s.isQueued || spills interest opt) := by
    have hfit : pos.getLsbD (QUEUED_SHIFT - TOKEN_WR_SHIFT) = false :=
      getLsbD_of_fits (n := 2) hpos (by decide)
    rw [isQueued_eq, isQueued_eq]
    have hmask : MASK_4.getLsbD (QUEUED_SHIFT - POLL_OPT_SHIFT) = false := by decide
    have hmask' : MASK_4.getLsbD (QUEUED_SHIFT - INTEREST_SHIFT) = false := by decide
    have hmask₂ : MASK_2.getLsbD (QUEUED_SHIFT - TOKEN_WR_SHIFT) = false := by decide
    refine (getLsbD_set_outside _ opt.bits (by decide) hmask).trans ?_
    refine (congrArg (· || _) (getLsbD_set_outside _ interest.bits (by decide) hmask')).trans ?_
    refine (congrArg (fun b => (b || _) || _) (set_fits (by decide) hmask₂ hfit)).trans ?_
    rw [Bool.or_assoc]
    rfl
  unfold afterUpdate queueIfReady
  rw [effectiveReadiness_updated]
  cases (s.readiness.inter interest).isEmpty with
  | true => simp [hsets]
  | false => simp

end ReadinessState

end MyMio

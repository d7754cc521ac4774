import MyMio.Node.Events
import MyMio.Timer.Readiness

/-! # From a timeout to an event

`EventLoop::configured` registers its timer on its own poll, readable and edge-triggered. In
`MyMio.Timer.Readiness` the readiness of that registration is a cell, which the wakeup thread and the
owner of the timer set at one stroke. Here it is the word of a node among the others of the poll. Both
call `set_readiness`, step by step, while the poller takes the node out of the queue, and `io_process`
polls the timer to its end for each event of the node.

So a timeout may wait in the word `wakeup_state`, in the thread's hands, in the readiness queue or among
the events of the last `poll`. It is always in one of them (`timeout_on_its_way`).
-/

namespace MyMio
set_option autoImplicit false

open BitField BrokenQueue StepSystem

universe u v w x

variable {ι : Type v} {α : Type u} {J : Type w} {T : Type x}

/-! ## The timer and its node -/

/-- The node of the timer's registration, and who sets its readiness. -/
structure TimerNode (ι : Type v) (α : Type u) where
  node : α
  /-- the thread of `spawn_wakeup_thread` -/
  waker : ι
  /-- the thread that runs the event loop -/
  owner : ι
  apart : waker ≠ owner

/-- A timer and the poll it is registered on. `polling` tells that `io_process` is in the loop on
`timer.poll()`. Of the run so far, `processed` counts the events of the timer that `io_process` has
come to. -/
structure TimerLoop (ι : Type v) (α : Type u) (J : Type w) (T : Type x) where
  alarm : Alarm T
  regs : Registrations ι α J
  polling : Bool
  processed : ℕ

inductive TimerLoopOp (ι : Type v) (α : Type u) (J : Type w) (T : Type x)
  | alarm (op : AlarmOp T)
  | regs (op : RegistrationsOp ι α J)
  /-- `io_process` comes to an event of the timer's node -/
  | process
  /-- `io_process` comes to another event whose token type is `TimersEvent` -/
  | processOther

/-- The steps of the wakeup thread, as opposed to those of the owner. -/
def AlarmOp.ofThread : AlarmOp T → Bool
  | .threadLoad | .threadLoop _ | .threadUnpark | .threadExchange | .threadSet => true
  | _ => false

def NodeCall.target : NodeCall α J → α
  | .setReadiness a _ | .update a _ | .drop a => a

namespace Registrations

/-- Whether a thread is in no call. -/
def free (s : Registrations ι α J) (i : ι) : Bool :=
  match s.threads i, s.polling.queue.producers i with
  | .idle, .idle => true
  | _, _ => false

end Registrations

section System
variable [DecidableEq ι] [DecidableEq α]

namespace TimerNode

/-- Whether `i` is due to set the readiness to `ready`. -/
def sets (k : TimerNode ι α) (a : Alarm T) (i : ι) (ready : Ready) : Bool :=
  decide (i = k.waker ∧ ready = .readable ∧ a.setting = true) ||
    decide (i = k.owner ∧ ready = .empty ∧ a.clearing = true)

/-- The registration of the timer is never updated, and dropped with the event loop only. -/
def mayCall (k : TimerNode ι α) (a : Alarm T) : RegistrationsOp ι α J → Bool
  | .call i c =>
    decide (c.target ≠ k.node) ||
      match c with
      | .setReadiness _ ready => k.sets a i ready
      | .update _ _ | .drop _ => false
  | _ => true

/-- The exchange on the timer's node by which its readiness is set. -/
def exchanges (k : TimerNode ι α) (r : Registrations ι α J) : RegistrationsOp ι α J → Option (AlarmOp T)
  | .thread i =>
    match r.threads i with
    | .setExchange a _ state =>
      if a = k.node ∧ r.word a = state then some (if i = k.waker then .threadSet else .ownerClear)
      else none
    | _ => none
  | _ => none

/-- The timer after a step on the poll. -/
def alarmAfter (k : TimerNode ι α) (s : TimerLoop ι α J T) (op : RegistrationsOp ι α J) :
    Option (Alarm T) :=
  match k.exchanges (T := T) s.regs op with
  | some op => alarmStep s.alarm op
  | none => some s.alarm

end TimerNode

/-- Whether the owner is in `io_process` between two events, or outside it. -/
def TimerLoop.betweenEvents (k : TimerNode ι α) (s : TimerLoop ι α J T) : Bool :=
  !s.polling && decide (s.alarm.owner = .idle) && !s.alarm.clearing && s.regs.free k.owner

def timerLoopStep (k : TimerNode ι α) (s : TimerLoop ι α J T) :
    TimerLoopOp ι α J T → Option (TimerLoop ι α J T)
  | .alarm .threadSet | .alarm .ownerClear => none
  | .alarm (.pollTo fuel target) =>
    if s.polling = true ∧ s.regs.free k.owner = true then
      (alarmStep s.alarm (.pollTo fuel target)).map fun a => { s with alarm := a, polling := !a.drained }
    else none
  | .alarm op =>
    if s.regs.free (if op.ofThread then k.waker else k.owner) then
      (alarmStep s.alarm op).map fun a => { s with alarm := a }
    else none
  | .regs op =>
    if k.mayCall s.alarm op then
      (registrationsStep s.regs op).bind fun regs =>
        (k.alarmAfter s op).map fun alarm => { s with alarm := alarm, regs := regs }
    else none
  | .process =>
    if s.betweenEvents k ∧ s.processed < s.regs.pushed.countP (fun e => decide (e.1 = k.node)) then
      some { s with polling := true, processed := s.processed + 1 }
    else none
  | .processOther => if s.betweenEvents k then some { s with polling := true } else none

structure TimerLoop.Starts (k : TimerNode ι α) (tickMs numSlots : ℕ) (s : TimerLoop ι α J T) : Prop where
  alarm : s.alarm = .new tickMs numSlots
  regs : s.regs.Starts
  node : s.regs.word k.node = .new .readable .edge
  pushed : s.regs.pushed = []
  polling : s.polling = false
  processed : s.processed = 0

end System

/-! ## The word of the timer's node -/

structure TimerWord (word : ReadinessState) (readiness : Ready) : Prop where
  live : word.isDropped = false
  readiness : word.readiness = readiness
  interest : word.interest = .readable
  opt : word.pollOpt = .edge

section Word
open ReadinessState
variable {s : ReadinessState} {r : Ready}

theorem timerWord_new : TimerWord (.new .readable .edge) .empty :=
  ⟨by decide, by decide, by decide, by decide⟩

theorem TimerWord.afterSetReadiness (h : TimerWord s r) {ready : Ready}
    (hready : Field.readiness.Holds ready.bits) : TimerWord (s.afterSetReadiness ready) ready := by
  have hfield : (s.afterSetReadiness ready).field .readiness = ready.bits := by
    unfold ReadinessState.afterSetReadiness
    rw [field_queueIfReady _ (by decide)]
    exact (field_set_self s .readiness ready.bits).trans hready.and_mask
  refine ⟨(flagsKept_afterSetReadiness s hready).dropped h.live, ?_, ?_, ?_⟩
  · rw [readiness_eq, hfield]
    rfl
  · rw [interest_eq, s.field_afterSetReadiness (by decide) (by decide) hready]
    exact h.interest
  · rw [pollOpt_eq, s.field_afterSetReadiness (by decide) (by decide) hready]
    exact h.opt

theorem TimerWord.effective (h : TimerWord s .readable) : s.effectiveReadiness.isEmpty = false := by
  unfold effectiveReadiness
  rw [h.readiness, h.interest]
  decide

theorem TimerWord.queued_readable (h : TimerWord s r) :
    (s.afterSetReadiness .readable).isQueued = true := by
  have hword : TimerWord (s.afterSetReadiness .readable) .readable := h.afterSetReadiness (by decide)
  refine isQueued_of_effective (s := s.setReadiness .readable) ?_
  exact hword.effective

theorem TimerWord.afterPoll (h : TimerWord s r) : TimerWord s.afterPoll r := by
  have hkept : ∀ f, f ≠ .tokenRead → s.afterPoll.field f = s.consumed.field f := fun f hf =>
    s.consumed.field_set_of_holds (f := .tokenRead) (Ne.symm hf) (Field.holds_get _ .tokenWrite)
  have hconsumed : s.consumed = s.setDequeued := by
    unfold consumed
    rw [h.opt, if_pos (by decide)]
    exact if_neg (by simp [show (PollOpt.isOneshot .edge) = false from by decide])
  have hfield : ∀ f, f ≠ .tokenRead → f ≠ .queued → s.afterPoll.field f = s.field f := fun f hf hq => by
    rw [hkept f hf, hconsumed, s.field_setDequeued hq]
  refine ⟨?_, ?_, ?_, ?_⟩
  · rw [isDropped_eq_field, hfield _ (by decide) (by decide), ← isDropped_eq_field]
    exact h.live
  · rw [readiness_eq, hfield _ (by decide) (by decide)]
    exact h.readiness
  · rw [interest_eq, hfield _ (by decide) (by decide)]
    exact h.interest
  · rw [pollOpt_eq, hfield _ (by decide) (by decide)]
    exact h.opt

end Word

/-! ## The timer beyond its readiness -/

/-- What a step of the timer that does not touch the readiness makes of what ties it to its node. -/
structure AlarmFrame (a a' : Alarm T) : Prop where
  readiness : a'.readiness = a.readiness
  setting : a.setting = true → a'.setting = true
  clearing : a.clearing = true → a'.clearing = true
  inner : a.inner.isSome = true → a'.inner.isSome = true
  moved : a'.moved = true → a'.setting = false → a.moved = true ∧ a.setting = false
  taken : a'.moved = true → a.moved = true ∨ a'.inner.isSome = true

section Frame
variable {a a' : Alarm T} {op : AlarmOp T}

theorem AlarmFrame.of_fields (hreadiness : a'.readiness = a.readiness) (hsetting : a'.setting = a.setting)
    (hmoved : a'.moved = a.moved) (hclearing : a.clearing = true → a'.clearing = true)
    (hinner : a.inner.isSome = true → a'.inner.isSome = true) : AlarmFrame a a' where
  readiness := hreadiness
  setting h := hsetting.trans h
  clearing := hclearing
  inner := hinner
  moved hm hs := ⟨hmoved ▸ hm, hsetting ▸ hs⟩
  taken hm := .inl (hmoved ▸ hm)

theorem schedule_frame (a : Alarm T) (tick : ℕ) :
    AlarmFrame a (a.schedule tick) ∧ (a.schedule tick).drained = a.drained ∧
      (a.schedule tick).clearing = a.clearing := by
  unfold Alarm.schedule
  split <;> exact ⟨.of_fields rfl rfl rfl id id, rfl, rfl⟩

theorem scheduleNext_frame (h : a.scheduleNext = some a') :
    AlarmFrame a a' ∧ a'.drained = a.drained ∧ a'.clearing = a.clearing := by
  obtain ⟨next, -, rfl⟩ := Option.map_eq_some_iff.mp h
  cases next with
  | none => exact ⟨.of_fields rfl rfl rfl id id, rfl, rfl⟩
  | some tick => exact schedule_frame a tick

theorem alarmOwner_frame {op : WakeupOp T} (h : alarmOwner a op = some a') :
    AlarmFrame a a' ∧ a'.drained = a.drained := by
  obtain ⟨inner, hi, h⟩ := Option.bind_eq_some_iff.mp h
  obtain ⟨w, hw, rfl⟩ := Option.map_eq_some_iff.mp h
  have hinner : w.inner.isSome = true := by
    cases op with
    | ownerLoad =>
      simp only [ownerStep] at hw
      split at hw
      · obtain rfl := Option.some.inj hw
        simp [hi]
      · cases hw
    | ownerExchange =>
      simp only [ownerStep] at hw
      split at hw
      · split at hw
        · obtain rfl := Option.some.inj hw
          simp [hi]
        · split at hw <;> obtain rfl := Option.some.inj hw <;> simp [hi]
      · cases hw
    | _ => cases hw
  exact ⟨.of_fields rfl rfl rfl id fun _ => hinner, rfl⟩

theorem alarmThread_frame {op : WakeupOp T} (h : alarmThread a op = some a') :
    AlarmFrame a a' ∧ a'.drained = a.drained := by
  unfold alarmThread at h
  split at h
  · cases h
  rename_i hsetting
  have hsetting : a.setting = false := by simpa using hsetting
  obtain ⟨inner, hi, h⟩ := Option.bind_eq_some_iff.mp h
  obtain ⟨inner', -, rfl⟩ := Option.map_eq_some_iff.mp h
  refine ⟨⟨rfl, fun hs => ?_, id, fun _ => rfl, fun hm htaken => ?_, fun _ => .inr rfl⟩, rfl⟩
  · rw [hsetting] at hs
    cases hs
  · change decide (inner.thread = .exchange inner.wakeupState) = false at htaken
    change (a.moved || decide (inner.thread = .exchange inner.wakeupState)) = true at hm
    rw [htaken, Bool.or_false] at hm
    exact ⟨hm, hsetting⟩

theorem alarmCall_frame (h : alarmCall a op = some a') (hclearing : a.clearing = false) :
    AlarmFrame a a' ∧ ((∀ fuel target, op ≠ .pollTo fuel target) → a'.drained = a.drained) := by
  cases op with
  | insert tick state key =>
    obtain ⟨⟨t, timeout⟩, -, rfl⟩ := Option.map_eq_some_iff.mp h
    obtain ⟨hframe, hdrained, -⟩ := schedule_frame { a with timer := t } tick
    exact ⟨⟨hframe.readiness, hframe.setting, hframe.clearing, hframe.inner, hframe.moved, hframe.taken⟩,
      fun _ => hdrained⟩
  | cancelTimeout timeout =>
    obtain ⟨⟨t, v⟩, -, rfl⟩ := Option.map_eq_some_iff.mp h
    exact ⟨.of_fields rfl rfl rfl id id, fun _ => rfl⟩
  | pollTo fuel target =>
    obtain ⟨⟨t, e⟩, -, rfl⟩ := Option.map_eq_some_iff.mp h
    refine ⟨.of_fields rfl rfl rfl (fun hc => ?_) id, fun hop => absurd rfl (hop fuel target)⟩
    rw [hclearing] at hc
    cases hc
  | register =>
    simp only [alarmCall] at h
    split at h
    · obtain rfl := Option.some.inj h
      exact ⟨.of_fields rfl rfl rfl id id, fun _ => rfl⟩
    · obtain ⟨hframe, hdrained, -⟩ := scheduleNext_frame h
      exact ⟨⟨hframe.readiness, hframe.setting, hframe.clearing, fun _ => hframe.inner rfl, hframe.moved,
        hframe.taken⟩, fun _ => hdrained⟩
  | _ => cases h

theorem alarmStep_frame (hset : op ≠ .threadSet) (hclear : op ≠ .ownerClear)
    (h : alarmStep a op = some a') :
    AlarmFrame a a' ∧ ((∀ fuel target, op ≠ .pollTo fuel target) → a'.drained = a.drained) := by
  have hcall : (if a.owner = .idle ∧ a.clearing = false then alarmCall a op else none) = some a' →
      AlarmFrame a a' ∧ ((∀ fuel target, op ≠ .pollTo fuel target) → a'.drained = a.drained) := by
    intro hc
    split at hc
    · rename_i hidle
      exact alarmCall_frame hc hidle.2
    · cases hc
  cases op with
  | insert | cancelTimeout | pollTo | register => exact hcall h
  | ownerLoad | ownerExchange =>
    obtain ⟨hframe, hdrained⟩ := alarmOwner_frame h
    exact ⟨hframe, fun _ => hdrained⟩
  | threadLoad | threadLoop | threadUnpark | threadExchange =>
    obtain ⟨hframe, hdrained⟩ := alarmThread_frame h
    exact ⟨hframe, fun _ => hdrained⟩
  | threadSet => exact absurd rfl hset
  | ownerClear => exact absurd rfl hclear

theorem pollTo_clearing {fuel target : ℕ} (h : alarmStep a (.pollTo fuel target) = some a') :
    a'.clearing = (a'.drained && a'.inner.isSome) := by
  simp only [alarmStep] at h
  split at h
  · obtain ⟨⟨t, e⟩, -, rfl⟩ := Option.map_eq_some_iff.mp h
    rfl
  · cases h

theorem alarmStep_threadSet (h : a.setting = true) :
    alarmStep a .threadSet = some { a with readiness := .readable, setting := false } := if_pos h

theorem ownerClear_frame (h : alarmStep a .ownerClear = some a') :
    a'.readiness = .empty ∧ a'.setting = a.setting ∧ a'.clearing = false ∧ a'.moved = false ∧
      a'.drained = a.drained := by
  simp only [alarmStep] at h
  split at h
  · obtain ⟨next, -, rfl⟩ := Option.map_eq_some_iff.mp h
    cases next with
    | none => exact ⟨rfl, rfl, rfl, rfl, rfl⟩
    | some tick =>
      show (Alarm.schedule _ tick).readiness = _ ∧ _
      unfold Alarm.schedule
      split <;> exact ⟨rfl, rfl, rfl, rfl, rfl⟩
  · cases h

theorem ownerClear_isSome (hw : Watching a) (h : a.clearing = true) :
    (alarmStep a .ownerClear).isSome = true := by
  obtain ⟨lists, behind, ahead, c, -⟩ := hw.scanning
  obtain ⟨m, hm, -⟩ := c.nextTick_spec
  simp only [alarmStep, h, if_true, Alarm.scheduleNext]
  rw [hm]
  rfl

end Frame

/-! ## The invariant -/

section System
variable [DecidableEq ι] [DecidableEq α] {k : TimerNode ι α} {s s' : TimerLoop ι α J T}

/-- What a thread may be doing with the timer's node. -/
def TimerNode.Permits (k : TimerNode ι α) (a : Alarm T) (i : ι) (pc : Thread α J) : Prop :=
  pc.node = some k.node → pc = .enqueue k.node ∨
    ∃ ready, k.sets a i ready = true ∧
      (pc = .setLoad k.node ready ∨ ∃ state, pc = .setExchange k.node ready state)

/-- What the thread has taken out of the word is on its way back to the timer: the node is queued, an
event of it has still to be processed, or the timer is being polled. -/
def TimerLoop.Answered (k : TimerNode ι α) (s : TimerLoop ι α J T) : Prop :=
  (s.regs.word k.node).isQueued = true ∨ s.processed < s.regs.fired k.node ∨ s.polling = true ∨
    s.alarm.clearing = true

structure TimerLoop.Ok (k : TimerNode ι α) (s : TimerLoop ι α J T) : Prop where
  owned : s.regs.Owned
  examined : s.regs.Examined
  watching : Watching s.alarm
  word : TimerWord (s.regs.word k.node) s.alarm.readiness
  threads : ∀ i, k.Permits s.alarm i (s.regs.threads i)
  registered : s.alarm.moved = true → s.alarm.inner.isSome = true
  processed : s.processed ≤ s.regs.fired k.node
  polling : s.alarm.drained = false → s.polling = true
  answered : s.alarm.moved = true → s.alarm.setting = false → s.Answered k

omit [DecidableEq α] in
theorem sets_iff {a : Alarm T} {i : ι} {ready : Ready} :
    k.sets a i ready = true ↔ i = k.waker ∧ ready = .readable ∧ a.setting = true ∨
      i = k.owner ∧ ready = .empty ∧ a.clearing = true := by
  unfold TimerNode.sets
  rw [Bool.or_eq_true, decide_eq_true_iff, decide_eq_true_iff]

omit [DecidableEq α] in
theorem TimerNode.Permits.mono {a a' : Alarm T} {i : ι} {pc : Thread α J} (h : k.Permits a i pc)
    (hsets : ∀ ready, k.sets a i ready = true → k.sets a' i ready = true) : k.Permits a' i pc :=
  fun hnode => (h hnode).imp_right fun ⟨ready, hready, hpc⟩ => ⟨ready, hsets ready hready, hpc⟩

omit [DecidableEq α] in
theorem AlarmFrame.sets {a a' : Alarm T} (h : AlarmFrame a a') {i : ι} {ready : Ready}
    (hsets : k.sets a i ready = true) : k.sets a' i ready = true := by
  rw [sets_iff] at *
  exact hsets.imp (fun hw => ⟨hw.1, hw.2.1, h.setting hw.2.2⟩) fun ho => ⟨ho.1, ho.2.1, h.clearing ho.2.2⟩

/-! ### Steps of the timer -/

theorem TimerLoop.Ok.alarmStep (h : s.Ok k) {a : Alarm T} {polling : Bool} (hframe : AlarmFrame s.alarm a)
    (hwatching : Watching a) (hpolling : a.drained = false → polling = true)
    (hkeeps : a.moved = true → s.polling = true → polling = true ∨ a.clearing = true) :
    TimerLoop.Ok k { s with alarm := a, polling := polling } where
  owned := h.owned
  examined := h.examined
  watching := hwatching
  word := by
    show TimerWord _ a.readiness
    rw [hframe.readiness]
    exact h.word
  threads i := (h.threads i).mono fun _ => hframe.sets
  registered hm := (hframe.taken hm).elim (fun hm => hframe.inner (h.registered hm)) id
  processed := h.processed
  polling := hpolling
  answered hm hs := by
    obtain ⟨hmoved, hsetting⟩ := hframe.moved hm hs
    rcases h.answered hmoved hsetting with hq | hf | hp | hc
    · exact .inl hq
    · exact .inr (.inl hf)
    · exact .inr (.inr (hkeeps hm hp))
    · exact .inr (.inr (.inr (hframe.clearing hc)))

theorem TimerLoop.Ok.alarm {op : AlarmOp T} (h : s.Ok k)
    (hs : timerLoopStep k s (.alarm op) = some s') : s'.Ok k := by
  have hother : ∀ a, op ≠ .threadSet → op ≠ .ownerClear → (∀ fuel target, op ≠ .pollTo fuel target) →
      MyMio.alarmStep s.alarm op = some a → TimerLoop.Ok k { s with alarm := a } := by
    intro a hset hclear hpoll ha
    obtain ⟨hframe, hdrained⟩ := alarmStep_frame hset hclear ha
    exact h.alarmStep hframe (alarmStep_watching h.watching ha)
      (fun hd => h.polling ((hdrained hpoll).symm.trans hd)) fun _ => .inl
  have hfree : ∀ free : Bool, op ≠ .threadSet → op ≠ .ownerClear →
      (∀ fuel target, op ≠ .pollTo fuel target) →
      (if free then (MyMio.alarmStep s.alarm op).map fun a => { s with alarm := a } else none) = some s' →
      s'.Ok k := by
    intro free hset hclear hpoll hs
    split at hs
    · obtain ⟨a, ha, rfl⟩ := Option.map_eq_some_iff.mp hs
      exact hother a hset hclear hpoll ha
    · cases hs
  cases op with
  | threadSet | ownerClear => cases hs
  | pollTo fuel target =>
    simp only [timerLoopStep] at hs
    split at hs
    · obtain ⟨a, ha, rfl⟩ := Option.map_eq_some_iff.mp hs
      obtain ⟨hframe, -⟩ := alarmStep_frame (by simp) (by simp) ha
      refine h.alarmStep hframe (alarmStep_watching h.watching ha) (fun hd => by rw [hd]; rfl)
        fun hm _ => ?_
      have hclearing := pollTo_clearing ha
      have hinner := (hframe.taken hm).elim (fun hm => hframe.inner (h.registered hm)) id
      rw [hinner, Bool.and_true] at hclearing
      cases hd : a.drained with
      | false => exact .inl rfl
      | true => exact .inr (hclearing.trans hd)
    · cases hs
  | _ => exact hfree _ (by simp) (by simp) (by simp) hs

/-! ### Steps on the poll -/

theorem exchanges_eq {r : Registrations ι α J} {op : RegistrationsOp ι α J} {x : AlarmOp T}
    (h : k.exchanges r op = some x) : ∃ i ready, op = .thread i ∧
      r.threads i = .setExchange k.node ready (r.word k.node) ∧
      x = if i = k.waker then .threadSet else .ownerClear := by
  unfold TimerNode.exchanges at h
  split at h
  · rename_i i
    split at h
    · rename_i a ready state hi
      split at h
      · rename_i hmatch
        obtain ⟨rfl, rfl⟩ := hmatch
        exact ⟨i, ready, rfl, hi, (Option.some.inj h).symm⟩
      · cases h
    · cases h
  · cases h

theorem exchanges_of_thread {r : Registrations ι α J} {i : ι} {ready : Ready}
    (h : r.threads i = .setExchange k.node ready (r.word k.node)) :
    k.exchanges (T := T) r (.thread i) ≠ none := by
  simp [TimerNode.exchanges, h]

theorem thread_exchanged {r r' : Registrations ι α J} {i : ι} {a : α} {ready : Ready}
    (hi : r.threads i = .setExchange a ready (r.word a)) (hs : r.threadStep i = some r') :
    r'.word a = (r.word a).afterSetReadiness ready ∧
      (r'.threads i = .enqueue a ∨ r'.threads i = .idle) := by
  simp only [Registrations.threadStep, hi, if_true] at hs
  obtain rfl := Option.some.inj hs
  constructor
  · show (r.store a _).word a = _
    rw [word_store, if_pos rfl]
  · rw [threads_goto]
    split
    · exact .inl rfl
    · exact .inr rfl

theorem thread_permitted {r r' : Registrations ι α J} {a : Alarm T} {i : ι}
    (h : k.Permits a i (r.threads i)) (hs : r.threadStep i = some r')
    (hnone : k.exchanges (T := T) r (.thread i) = none) : k.Permits a i (r'.threads i) := by
  intro hnode
  have htries : ∀ ready, k.sets a i ready = true →
      r' = r.goto i (Registrations.trySet k.node ready (r.word k.node)) →
      r'.threads i = .enqueue k.node ∨ ∃ ready, k.sets a i ready = true ∧
        (r'.threads i = .setLoad k.node ready ∨ ∃ state, r'.threads i = .setExchange k.node ready state) := by
    intro ready hready he
    rw [he, threads_goto] at hnode ⊢
    unfold Registrations.trySet at *
    split
    · rename_i hdropped
      rw [if_pos hdropped] at hnode
      cases hnode
    · exact .inr ⟨ready, hready, .inr ⟨_, rfl⟩⟩
  rcases h ((threadStep_frame hs).node _ hnode) with hi | ⟨ready, hready, hi | ⟨state, hi⟩⟩
  · simp only [Registrations.threadStep, hi] at hs
    obtain ⟨p, -, rfl⟩ := Option.map_eq_some_iff.mp hs
    change ((r.goto i .idle).threads i).node = _ at hnode
    rw [threads_goto] at hnode
    cases hnode
  · simp only [Registrations.threadStep, hi] at hs
    exact htries ready hready (Option.some.inj hs).symm
  · by_cases hword : r.word k.node = state
    · subst hword
      exact absurd hnone (exchanges_of_thread hi)
    · simp only [Registrations.threadStep, hi, if_neg hword] at hs
      exact htries ready hready (Option.some.inj hs).symm

theorem TimerLoop.Ok.exchange {i : ι} {ready : Ready} {r : Registrations ι α J} {a : Alarm T} (h : s.Ok k)
    (hi : s.regs.threads i = .setExchange k.node ready (s.regs.word k.node))
    (hr : registrationsStep s.regs (.thread i) = some r)
    (ha : MyMio.alarmStep s.alarm (if i = k.waker then .threadSet else .ownerClear) = some a) :
    TimerLoop.Ok k { s with alarm := a, regs := r } := by
  obtain ⟨hword, hpc⟩ := thread_exchanged hi hr
  have hsets : k.sets s.alarm i ready = true := by
    rcases h.threads i (by rw [hi]; rfl) with he | ⟨ready', hready', he | ⟨state, he⟩⟩
    · cases hi.symm.trans he
    · cases hi.symm.trans he
    · cases hi.symm.trans he
      exact hready'
  have hframe := threadStep_frame hr
  have hfired : r.fired k.node = s.regs.fired k.node := by
    obtain ⟨hhold, hpushed⟩ := registrationsStep_hold (by simp) hr
    exact fired_congr hpushed (congrArg Hold.delivers hhold)
  have howned := registrationsStep_owned h.owned hr
  have hexamined := registrationsStep_examined h.owned h.examined hr
  have hprocessed : s.processed ≤ r.fired k.node := hfired ▸ h.processed
  have hthreads : (∀ j ready', j ≠ i → k.sets s.alarm j ready' = true → k.sets a j ready' = true) →
      ∀ j, k.Permits a j (r.threads j) := by
    intro hmono j
    by_cases hj : j = i
    · subst hj
      intro hnode
      refine .inl (hpc.resolve_right fun hidle => ?_)
      rw [hidle] at hnode
      cases hnode
    · rw [hframe.threads j hj]
      exact (h.threads j).mono fun ready' => hmono j ready' hj
  rcases sets_iff.mp hsets with ⟨rfl, rfl, hset⟩ | ⟨rfl, rfl, hclear⟩
  · rw [if_pos rfl, alarmStep_threadSet hset] at ha
    obtain rfl := Option.some.inj ha
    refine ⟨howned, hexamined, alarmStep_watching h.watching (alarmStep_threadSet hset), ?_,
      hthreads fun j ready' hj hs => ?_, h.registered, hprocessed, h.polling, fun _ _ => .inl ?_⟩
    · rw [hword]
      exact h.word.afterSetReadiness (by decide)
    · rw [sets_iff] at hs ⊢
      exact .inr (hs.resolve_left fun hw => hj hw.1)
    · rw [hword]
      exact h.word.queued_readable
  · rw [if_neg (Ne.symm k.apart)] at ha
    obtain ⟨hreadiness, hsetting, hclearing, hmoved, hdrained⟩ := ownerClear_frame ha
    refine ⟨howned, hexamined, alarmStep_watching h.watching ha, ?_, hthreads fun j ready' hj hs => ?_,
      fun hm => ?_, hprocessed, fun hd => h.polling (hdrained ▸ hd), fun hm => ?_⟩
    · rw [hword, hreadiness]
      exact h.word.afterSetReadiness (by decide)
    · rw [sets_iff] at hs ⊢
      obtain ⟨hw, hready', hset⟩ := hs.resolve_right fun ho => hj ho.1
      exact .inl ⟨hw, hready', hsetting.trans hset⟩
    · rw [hmoved] at hm
      cases hm
    · rw [hmoved] at hm
      cases hm

/-- A step on the poll keeps what the threads may be doing, but for the exchange. -/
theorem TimerLoop.Ok.permits {op : RegistrationsOp ι α J} {r : Registrations ι α J} (h : s.Ok k)
    (hmay : k.mayCall s.alarm op = true) (hr : registrationsStep s.regs op = some r)
    (hnone : k.exchanges (T := T) s.regs op = none) (i : ι) : k.Permits s.alarm i (r.threads i) := by
  have hsame : r.threads = s.regs.threads → k.Permits s.alarm i (r.threads i) := fun he => he ▸ h.threads i
  cases op with
  | call j c =>
    simp only [registrationsStep] at hr
    split at hr
    · obtain rfl := Option.some.inj hr
      by_cases hj : i = j
      · subst hj
        rw [threads_goto]
        intro hnode
        have hc : c.target = k.node := by
          cases c <;> exact Option.some.inj hnode
        unfold TimerNode.mayCall at hmay
        rw [Bool.or_eq_true, decide_eq_true_iff] at hmay
        have hsets := hmay.resolve_left fun hne => hne hc
        cases c with
        | setReadiness b ready =>
          obtain rfl : b = k.node := hc
          exact .inr ⟨ready, hsets, .inl rfl⟩
        | update | drop => cases hsets
      · have hother : (s.regs.goto j c.enter).threads i = s.regs.threads i := Function.update_of_ne hj ..
        rw [hother]
        exact h.threads i
    · cases hr
  | thread j =>
    by_cases hj : i = j
    · subst hj
      exact thread_permitted (h.threads i) hr hnone
    · rw [(threadStep_frame hr).threads i hj]
      exact h.threads i
  | producer j wouldBlock =>
    obtain ⟨p, -, rfl⟩ := Option.map_eq_some_iff.mp hr
    exact hsame rfl
  | poll op =>
    simp only [registrationsStep] at hr
    split at hr
    · obtain ⟨p, -, rfl⟩ := Option.map_eq_some_iff.mp hr
      exact hsame rfl
    · cases hr
  | node => exact hsame (nodeStep_move h.owned hr).1.threads

/-- What a step on the poll, but for the exchange, makes of the timer's node: nothing, or the poller
takes it out of the queue, with an event if there is readiness to tell of. -/
theorem TimerLoop.Ok.node_move {op : RegistrationsOp ι α J} {r : Registrations ι α J} (h : s.Ok k)
    (hr : registrationsStep s.regs op = some r) (hnone : k.exchanges (T := T) s.regs op = none) :
    r.word k.node = s.regs.word k.node ∧ r.fired k.node = s.regs.fired k.node ∨
      r.word k.node = (s.regs.word k.node).afterPoll ∧
        r.fired k.node = s.regs.fired k.node +
          if (s.regs.word k.node).effectiveReadiness.isEmpty then 0 else 1 := by
  have hidle : ∀ i pc, s.regs.threads i = pc → pc.node = some k.node → pc = .enqueue k.node ∨
      (∃ ready, pc = .setLoad k.node ready) ∨ ∃ ready state, pc = .setExchange k.node ready state := by
    intro i pc hi hnode
    rcases h.threads i (hi ▸ hnode) with he | ⟨ready, -, he | ⟨state, he⟩⟩
    · exact .inl (hi.symm.trans he)
    · exact .inr (.inl ⟨ready, hi.symm.trans he⟩)
    · exact .inr (.inr ⟨ready, state, hi.symm.trans he⟩)
  cases registrationsStep_events h.owned hr k.node with
  | thread i hop hmove hfired =>
    subst hop
    cases hmove with
    | stays hword => exact .inl ⟨hword, hfired⟩
    | signals ready hi => exact absurd hnone (exchanges_of_thread hi)
    | updates u pos hi => rcases hidle i _ hi rfl with he | ⟨_, he⟩ | ⟨_, _, he⟩ <;> cases he
    | drops hi => rcases hidle i _ hi rfl with he | ⟨_, he⟩ | ⟨_, _, he⟩ <;> cases he
  | node _ hmove =>
    cases hmove with
    | stays hword hfired => exact .inl ⟨hword, hfired⟩
    | settles _ _ hword hfired => exact .inr ⟨hword, hfired⟩
  | stays _ _ hword hfired => exact .inl ⟨hword, hfired⟩

/-- **A step on the poll loses no wakeup.** -/
theorem TimerLoop.Ok.regs {op : RegistrationsOp ι α J} (h : s.Ok k)
    (hs : timerLoopStep k s (.regs op) = some s') : s'.Ok k := by
  simp only [timerLoopStep] at hs
  split at hs
  · rename_i hmay
    obtain ⟨r, hr, hs⟩ := Option.bind_eq_some_iff.mp hs
    obtain ⟨a, ha, rfl⟩ := Option.map_eq_some_iff.mp hs
    unfold TimerNode.alarmAfter at ha
    cases hx : k.exchanges (T := T) s.regs op with
    | some x =>
      rw [hx] at ha
      obtain ⟨i, ready, rfl, hi, rfl⟩ := exchanges_eq hx
      exact h.exchange hi hr ha
    | none =>
      rw [hx] at ha
      obtain rfl := Option.some.inj ha
      have hthreads := h.permits hmay hr hx
      have howned := registrationsStep_owned h.owned hr
      have hexamined := registrationsStep_examined h.owned h.examined hr
      rcases h.node_move hr hx with ⟨hword, hfired⟩ | ⟨hword, hfired⟩
      · refine ⟨howned, hexamined, h.watching, ?_, hthreads, h.registered, ?_, h.polling, fun hm hset => ?_⟩
        · rw [hword]
          exact h.word
        · exact hfired ▸ h.processed
        · show (r.word k.node).isQueued = true ∨ s.processed < r.fired k.node ∨ _
          rw [hword, hfired]
          exact h.answered hm hset
      · refine ⟨howned, hexamined, h.watching, ?_, hthreads, h.registered, ?_, h.polling, fun hm hset => ?_⟩
        · rw [hword]
          exact h.word.afterPoll
        · exact h.processed.trans (hfired ▸ Nat.le_add_right _ _)
        · have hready := (h.watching.fires hm).resolve_right (by rw [hset]; decide)
          have hsome : (s.regs.word k.node).effectiveReadiness.isEmpty = false :=
            (show TimerWord (s.regs.word k.node) .readable from hready ▸ h.word).effective
          rw [hsome, if_neg Bool.false_ne_true] at hfired
          have hprocessed := h.processed
          exact .inr (.inl (by show s.processed < r.fired k.node; omega))
  · cases hs

omit [DecidableEq ι] in
theorem countP_le_fired (r : Registrations ι α J) (a : α) :
    r.pushed.countP (fun e => decide (e.1 = a)) ≤ r.fired a := Nat.le_add_right _ _

theorem timerLoopStep_ok {op : TimerLoopOp ι α J T} (h : s.Ok k) (hs : timerLoopStep k s op = some s') :
    s'.Ok k := by
  cases op with
  | alarm op => exact h.alarm hs
  | regs op => exact h.regs hs
  | process =>
    simp only [timerLoopStep] at hs
    split at hs
    · rename_i hguard
      obtain rfl := Option.some.inj hs
      have hlt : s.processed < s.regs.fired k.node :=
        Nat.lt_of_lt_of_le hguard.2 (countP_le_fired s.regs k.node)
      exact ⟨h.owned, h.examined, h.watching, h.word, h.threads, h.registered, hlt, fun _ => rfl,
        fun _ _ => .inr (.inr (.inl rfl))⟩
    · cases hs
  | processOther =>
    simp only [timerLoopStep] at hs
    split at hs
    · obtain rfl := Option.some.inj hs
      exact ⟨h.owned, h.examined, h.watching, h.word, h.threads, h.registered, h.processed, fun _ => rfl,
        fun _ _ => .inr (.inr (.inl rfl))⟩
    · cases hs

theorem TimerLoop.Starts.ok {tickMs numSlots : ℕ} (h : s.Starts k tickMs numSlots) : s.Ok k := by
  have halarm := h.alarm
  refine ⟨h.regs.owned, fun state hstate => ?_, ?_, ?_, fun i hnode => ?_, fun hm => ?_, ?_, fun hd => ?_,
    fun hm => ?_⟩
  · rw [h.regs.hold] at hstate
    cases hstate
  · rw [halarm]
    exact ⟨scanning_new tickMs numSlots, fun _ _ _ _ hk => (by cases hk), fun hm => (by cases hm),
      fun _ _ _ hi => by cases hi⟩
  · rw [halarm, h.node]
    exact timerWord_new
  · rw [h.regs.threads] at hnode
    cases hnode
  · rw [halarm] at hm
    cases hm
  · rw [h.processed]
    exact Nat.zero_le _
  · rw [halarm] at hd
    cases hd
  · rw [halarm] at hm
    cases hm

/-- The timer keeps nobody else waiting: a step of the registrations that its calls allow is one of both. -/
theorem TimerLoop.Ok.regs_goes {op : RegistrationsOp ι α J} {r : Registrations ι α J} (h : s.Ok k)
    (hmay : k.mayCall s.alarm op = true) (hr : registrationsStep s.regs op = some r) :
    ∃ a, timerLoopStep k s (.regs op) = some { s with alarm := a, regs := r } := by
  have halarm : ∃ a, k.alarmAfter s op = some a := by
    unfold TimerNode.alarmAfter
    cases hx : k.exchanges (T := T) s.regs op with
    | none => exact ⟨s.alarm, rfl⟩
    | some x =>
      obtain ⟨i, ready, -, hi, rfl⟩ := exchanges_eq hx
      rcases h.threads i (by rw [hi]; rfl) with he | ⟨ready', hsets, -⟩
      · cases hi.symm.trans he
      rcases sets_iff.mp hsets with ⟨rfl, -, hset⟩ | ⟨rfl, -, hclear⟩
      · rw [if_pos rfl]
        exact ⟨_, alarmStep_threadSet hset⟩
      · rw [if_neg (Ne.symm k.apart)]
        exact Option.isSome_iff_exists.mp (ownerClear_isSome h.watching hclear)
  obtain ⟨a, ha⟩ := halarm
  refine ⟨a, ?_⟩
  simp only [timerLoopStep, if_pos hmay, hr, ha]
  rfl

omit [DecidableEq ι] [DecidableEq α] in
/-- A queued node that is not dropped is somebody's, and in the queue at rest. -/
theorem Registrations.Owned.owner_of_queued {r : Registrations ι α J} {a : α} (h : r.Owned)
    (hlive : (r.word a).isDropped = false) (hqueued : (r.word a).isQueued = true) :
    (∃ o, r.Owns a o) ∧ (r.AtRest → a ∈ r.polling.queue.pending) := by
  have hkept : r.released a = false := by
    cases hr : r.released a with
    | false => rfl
    | true =>
      rw [h.dropped a hr] at hlive
      cases hlive
  obtain ⟨o, ho⟩ := h.books.owned a hqueued hkept
  refine ⟨⟨o, ho⟩, fun hrest => ?_⟩
  cases o with
  | queue => exact ho
  | thread i =>
    change (r.threads i).owing = some a at ho
    rw [hrest.threads i] at ho
    cases ho
  | enqueuer i =>
    change (r.polling.queue.producers i).owed = some a at ho
    rw [hrest.producers i] at ho
    cases ho
  | poller => cases (h.holding_none hrest.poller).symm.trans ho

end System

/-- **A timeout is always on its way.** In every run of the timer's owner, its wakeup thread, the other
threads and the poller: while the owner is not in the timer, each pending timeout is covered by the
word; or the thread has taken its tick and is about to set the readiness; or the node of the timer is
queued, and in the queue when nobody is in the middle of an operation; or an event of the node waits
for `io_process`. -/
theorem timeout_on_its_way [DecidableEq ι] [DecidableEq α] (k : TimerNode ι α) (tickMs numSlots : ℕ)
    (s : TimerLoop ι α J T)
    (hs : Reachable (timerLoopStep k) (TimerLoop.Starts k tickMs numSlots) s) (inner : Inner)
    (hinner : s.alarm.inner = some inner) (howner : s.alarm.owner = .idle)
    (hclearing : s.alarm.clearing = false) (hpolling : s.polling = false) (key : Token) (tick : ℕ) (v : T)
    (hk : s.alarm.timer.pending key = some (tick, v)) :
    inner.wakeupState ≤ max tick s.alarm.timer.tick ∨ s.alarm.setting = true ∨
      (∃ o, s.regs.Owns k.node o) ∧ (s.regs.AtRest → k.node ∈ s.regs.polling.queue.pending) ∨
      s.processed < s.regs.fired k.node := by
  have h : s.Ok k := hs.invariant (fun _ hinit => hinit.ok) fun _ _ _ h hstep => timerLoopStep_ok h hstep
  have hdrained : s.alarm.drained = true := by
    cases hd : s.alarm.drained with
    | true => rfl
    | false => cases (h.polling hd).symm.trans hpolling
  rcases h.watching.covered hdrained hclearing inner hinner key tick v hk with hword | hmoved | hlowers
  · exact .inl hword
  · right
    cases hset : s.alarm.setting with
    | true => exact .inl rfl
    | false =>
      right
      rcases h.answered hmoved hset with hqueued | hfired | hp | hc
      · exact .inl (h.owned.owner_of_queued h.word.live hqueued)
      · exact .inr hfired
      · cases hpolling.symm.trans hp
      · cases hclearing.symm.trans hc
  · rw [howner] at hlowers
    exact hlowers.elim

/-- A timer on a new poll. -/
def newTimerLoop : TimerLoop Bool ℕ ℕ Bool where
  alarm := .new 100 4
  regs :=
    { polling := .new
      nodes := fun _ => .new ⟨.timersEvent, ⟨0⟩⟩ .readable .edge
      threads := fun _ => .idle
      hold := .load
      pushed := []
      released := fun _ => false
      signalled := fun _ => false }
  polling := false
  processed := 0

/-- The tick of the only timeout has come, and the thread has set the readiness. -/
theorem timeout_on_its_way_due :
    ∃ (s : TimerLoop Bool ℕ ℕ Bool) (inner : Inner), s.alarm.timer.pending ⟨0⟩ = some (1, true) ∧
      (s.alarm.inner = some inner ∧ inner.wakeupState = USIZE_MAX) ∧ s.alarm.setting = false ∧
      (inner.wakeupState ≤ max 1 s.alarm.timer.tick ∨ s.alarm.setting = true ∨
        (∃ o, s.regs.Owns 0 o) ∧ (s.regs.AtRest → 0 ∈ s.regs.polling.queue.pending) ∨
        s.processed < s.regs.fired 0) := by
  let k : TimerNode Bool ℕ := ⟨0, true, false, by decide⟩
  obtain ⟨s, hrun, hview⟩ : ∃ s, run (timerLoopStep k) newTimerLoop (dueTickOps.map .alarm ++
        [.regs (.call true (.setReadiness 0 .readable)), .regs (.thread true), .regs (.thread true)]) = some s ∧
      (s.alarm.inner, s.alarm.owner, s.alarm.clearing, s.polling, s.alarm.timer.pending ⟨0⟩,
        s.alarm.setting) =
        (some ⟨USIZE_MAX, .loop USIZE_MAX⟩, .idle, false, false, some (1, true), false) :=
    Option.map_eq_some_iff.mp rfl
  simp only [Prod.mk.injEq] at hview
  obtain ⟨hinner, howner, hclearing, hpolling, hk, hsetting⟩ := hview
  have hstart : newTimerLoop.Starts k 100 4 :=
    ⟨rfl, ⟨rfl, fun _ => ⟨_, _, _, rfl, by decide, by decide⟩, fun _ => rfl, rfl, fun _ => rfl, fun _ => rfl⟩,
      rfl, rfl, rfl, rfl⟩
  exact ⟨s, _, hk, ⟨hinner, rfl⟩, hsetting, timeout_on_its_way k 100 4 s ((Reachable.start hstart).run hrun) _
    hinner howner hclearing hpolling ⟨0⟩ 1 true hk⟩

end MyMio

import MyMio.Lock.LockWord
import MyMio.Node.Ownership

/-! # Any number of threads in `poll`

The poller of `MyMio.Node.Model` is one thread. A `Poll` is shared: each thread that calls `poll` has its
own place in `poll2`, in the operations of the queue and with the node it has dequeued, and all of them
have the queue, the nodes and the pipe in common. `poll1` lets one of them at a time into `poll2`, so
whatever the threads do, what they have in common goes through a run of one poller (`pollers_refine`).

How long a thread may still wait once it has the lock is left open.
-/

namespace MyMio
set_option autoImplicit false

open BrokenQueue StepSystem Tally

universe u v w x

variable {κ : Type x} {ι : Type v} {α : Type u} {J : Type w}

/-! ## A thread's own place -/

structure PollRegs (α : Type u) where
  poller : Poller α
  consumer : Consumer α
  hold : Hold α

namespace Registrations

def regs (s : Registrations ι α J) : PollRegs α := ⟨s.polling.poller, s.polling.queue.consumer, s.hold⟩

/-- The same queue, nodes and threads, and another poller. -/
def withRegs (s : Registrations ι α J) (own : PollRegs α) : Registrations ι α J :=
  { s with
    polling := { s.polling with
      poller := own.poller
      queue := { s.polling.queue with consumer := own.consumer } }
    hold := own.hold }

end Registrations

/-- A step of the poller, as opposed to one of the other threads. -/
def RegistrationsOp.ofPoller : RegistrationsOp ι α J → Bool
  | .poll _ | .node => true
  | _ => false

/-- The call of `poll2`. -/
def RegistrationsOp.entersPoll : RegistrationsOp ι α J → Bool
  | .poll (.poll2 _ _) => true
  | _ => false

/-! ## The threads in `poll` -/

/-- The lock, what the threads have in common, and what each has of its own. The poller's part of
`shared` is nobody's. -/
structure Pollers (κ : Type x) (ι : Type v) (α : Type u) (J : Type w) where
  lock : PollLock κ
  shared : Registrations ι α J
  regs : κ → PollRegs α
  /-- has called `poll2` since it got the lock -/
  called : κ → Bool

inductive PollersOp (κ : Type x) (ι : Type v) (α : Type u) (J : Type w)
  /-- a step of `poll1` -/
  | lock (op : Poll1Op κ)
  /-- a step of a thread outside `poll` -/
  | thread (op : RegistrationsOp ι α J)
  /-- a step of a thread in `poll2` -/
  | poll (k : κ) (op : RegistrationsOp ι α J)

section System
variable [DecidableEq κ] [DecidableEq ι] [DecidableEq α]

namespace Pollers

/-- What a thread in `poll2` works on. -/
def view (s : Pollers κ ι α J) (k : κ) : Registrations ι α J := s.shared.withRegs (s.regs k)

/-- `poll2` has returned before the lock is released. -/
def mayLock (s : Pollers κ ι α J) : Poll1Op κ → Bool
  | .step k => decide (s.lock.pc k = .poll2) → s.called k && decide ((s.regs k).poller = .idle)
  | _ => true

def calledAfter (s : Pollers κ ι α J) : Poll1Op κ → κ → Bool
  | .step k => if s.lock.pc k = .poll2 then Function.update s.called k false else s.called
  | _ => s.called

end Pollers

def pollersStep (s : Pollers κ ι α J) : PollersOp κ ι α J → Option (Pollers κ ι α J)
  | .lock op =>
    if s.mayLock op then
      (poll1Step s.lock op).map fun lock => { s with lock := lock, called := s.calledAfter op }
    else none
  | .thread op =>
    if op.ofPoller then none
    else (registrationsStep s.shared op).map fun shared => { s with shared := shared }
  | .poll k op =>
    if op.ofPoller ∧ s.lock.pc k = .poll2 ∧ (op.entersPoll = true → s.called k = false) then
      (registrationsStep (s.view k) op).map fun shared =>
        { s with
          shared := shared
          regs := Function.update s.regs k shared.regs
          called := Function.update s.called k true }
    else none

structure Pollers.Starts (s : Pollers κ ι α J) : Prop where
  lock : s.lock = .new
  shared : s.shared.Starts
  regs : ∀ k, s.regs k = ⟨.idle, .returned .unit, .load⟩
  called : ∀ k, s.called k = false

end System

/-! ## What the other threads do -/

section Threads
variable [DecidableEq ι] [DecidableEq α] {s s' : Registrations ι α J} {own : PollRegs α} {i : ι}

omit [DecidableEq ι] in
theorem store_withRegs (a : α) (next : ReadinessState) :
    (s.withRegs own).store a next = (s.store a next).withRegs own := by
  unfold Registrations.store
  dsimp only
  split <;> rfl

theorem threadStep_withRegs (hs : s.threadStep i = some s') :
    (s.withRegs own).threadStep i = some (s'.withRegs own) := by
  have hpc : (s.withRegs own).threads i = s.threads i := rfl
  unfold Registrations.threadStep at *
  rw [hpc]
  cases hi : s.threads i with
  | idle => simp [hi] at hs
  | setLoad a ready | updateUnlock a u enqueues | updateJob a u | dropOr a =>
    simp only [hi] at hs ⊢
    obtain rfl := Option.some.inj hs
    rfl
  | setExchange a ready state | updateExchange a u state pos =>
    simp only [hi] at hs ⊢
    rw [show (s.withRegs own).word a = s.word a from rfl, store_withRegs]
    split at hs <;>
    · rename_i hword
      obtain rfl := Option.some.inj hs
      simp only [hword, if_true, if_false]
      rfl
  | updateLock a u =>
    simp only [hi] at hs ⊢
    rw [show (s.withRegs own).nodes = s.nodes from rfl]
    split at hs <;>
    · rename_i hlock
      obtain rfl := Option.some.inj hs
      simp only [hlock, if_true]
      rfl
  | updateLoad a u =>
    simp only [hi] at hs ⊢
    rw [show (s.withRegs own).nodes = s.nodes from rfl, show (s.withRegs own).word a = s.word a from rfl]
    split at hs
    · cases hs
    · split at hs
      · obtain rfl := Option.some.inj hs
        simp_all
        rfl
      · split at hs
        · cases hs
        · obtain rfl := Option.some.inj hs
          simp_all
          rfl
  | updateToken a u state pos =>
    simp only [hi] at hs ⊢
    obtain ⟨node, hnode, rfl⟩ := Option.map_eq_some_iff.mp hs
    exact Option.map_eq_some_iff.mpr ⟨node, hnode, rfl⟩
  | enqueue a =>
    simp only [hi] at hs ⊢
    obtain ⟨p, hp, rfl⟩ := Option.map_eq_some_iff.mp hs
    obtain ⟨q, hq, rfl⟩ := Option.map_eq_some_iff.mp hp
    simp only [queueStep] at hq
    split at hq
    · rename_i hidle
      obtain rfl := Option.some.inj hq
      have hidle' : (s.withRegs own).polling.queue.producers i = .idle := hidle
      simp only [pollingStep, queueStep, hidle']
      rfl
    · cases hq

theorem producer_withRegs {wouldBlock : Bool} {p : Polling ι α}
    (hs : s.polling.producerStep i wouldBlock = some p) :
    (s.withRegs own).polling.producerStep i wouldBlock =
      some { p with poller := own.poller, queue := { p.queue with consumer := own.consumer } } := by
  have hproducer : (s.withRegs own).polling.queue.producers i = s.polling.queue.producers i := rfl
  unfold Polling.producerStep Queue.producerStep at *
  rw [hproducer]
  cases hi : s.polling.queue.producers i with
  | idle => simp [hi] at hs
  | enqueue a phase =>
    simp only [hi, Option.map_some, Option.some.injEq] at hs ⊢
    subst hs
    have htakes : (s.withRegs own).polling.takesSleep i = s.polling.takesSleep i := rfl
    rw [htakes]
    rfl
  | wakeup =>
    simp only [hi] at hs ⊢
    rw [show (s.withRegs own).polling.pipe = s.polling.pipe from rfl]
    split at hs
    · cases hs
    · rename_i hfull
      simp only [Option.map_some, Option.some.injEq] at hs ⊢
      subst hs
      rw [if_neg hfull]
      rfl

theorem other_withRegs {op : RegistrationsOp ι α J} (hop : op.ofPoller = false)
    (hs : registrationsStep s op = some s') :
    registrationsStep (s.withRegs own) op = some (s'.withRegs own) := by
  cases op with
  | call j c =>
    simp only [registrationsStep] at hs ⊢
    split at hs
    · rename_i hthread hproducer
      obtain rfl := Option.some.inj hs
      rw [show (s.withRegs own).threads j = .idle from hthread,
        show (s.withRegs own).polling.queue.producers j = .idle from hproducer]
      rfl
    · cases hs
  | thread j => exact threadStep_withRegs hs
  | producer j wouldBlock =>
    obtain ⟨p, hp, rfl⟩ := Option.map_eq_some_iff.mp hs
    exact Option.map_eq_some_iff.mpr ⟨_, producer_withRegs hp, rfl⟩
  | poll | node => cases hop

end Threads

/-! ## What is left of the call before -/

/-- The same, with another result left by the call of the queue before. -/
def Polling.leftWith (p : Polling ι α) (ret : Ret α) : Polling ι α :=
  { p with queue := { p.queue with consumer := .returned ret } }

/-- The poller is where it does not look at that result. -/
structure Polling.Pauses (p : Polling ι α) : Prop where
  poller : p.poller = .idle ∨ (∃ call timeout, p.poller = .select call timeout) ∨
    ∃ call len, p.poller = .cleanup call len
  rest : p.queue.consumer.AtRest

/-- The two differ in that result at most, where nobody looks at it. -/
def Polling.Like (p p' : Polling ι α) : Prop := p = p' ∨ p'.Pauses ∧ ∃ ret, p = p'.leftWith ret

section Left
variable [DecidableEq ι] [DecidableEq α] {p p' : Polling ι α} {call : Call} {len : ℕ}
  {limit : Option (Ptr α)} (ret : Ret α)

omit [DecidableEq ι] in
theorem consumerCall_leftWith (p : Polling ι α) (ret : Ret α) (op : QueueOp ι α) :
    (p.leftWith ret).queue.consumerCall op = p.queue.consumerCall op := by
  have hclear : ∀ r, (p.leftWith ret).queue.clear r = p.queue.clear r := fun r => by
    unfold Queue.clear
    rw [show (p.leftWith ret).queue.tail = p.queue.tail from rfl]
    split <;> rfl
  have hprepare : (p.leftWith ret).queue.prepare = p.queue.prepare := by
    unfold Queue.prepare
    rw [show (p.leftWith ret).queue.tail = p.queue.tail from rfl]
    split
    · rfl
    · split <;> rfl
  cases op with
  | clearSleepMarker => exact congrArg some (hclear .unit)
  | prepareForSleep => exact congrArg some hprepare
  | _ => rfl

theorem queueStep_leftWith {op : QueueOp ι α} (hop : op.isCall = true) (hrest : p.queue.consumer.AtRest) :
    queueStep (p.leftWith ret).queue op = queueStep p.queue op := by
  obtain ⟨r, hr⟩ := hrest
  have hret : (p.leftWith ret).queue.consumer = .returned ret := rfl
  cases op with
  | begin | producer | consumer => cases hop
  | dequeueNode | clearSleepMarker | prepareForSleep | requeue =>
    simp only [queueStep, hr, hret]
    exact consumerCall_leftWith p ret _

theorem pollLoop_like (hrest : p.queue.consumer.AtRest) (hs : p.pollLoop call len limit = some p') :
    ∃ p'', (p.leftWith ret).pollLoop call len limit = some p'' ∧ p''.Like p' := by
  unfold Polling.pollLoop at *
  rw [queueStep_leftWith ret rfl hrest]
  split at hs
  · rename_i hlen
    obtain ⟨q, hq, rfl⟩ := Option.map_eq_some_iff.mp hs
    exact ⟨_, by rw [if_pos hlen, hq]; rfl, .inl rfl⟩
  · rename_i hlen
    obtain rfl := Option.some.inj hs
    exact ⟨_, if_neg hlen, .inr ⟨⟨.inl rfl, hrest⟩, ret, rfl⟩⟩

theorem pollQueue_like (hrest : p.queue.consumer.AtRest) (hs : p.pollQueue call len = some p') :
    ∃ p'', (p.leftWith ret).pollQueue call len = some p'' ∧ p''.Like p' := by
  unfold Polling.pollQueue at *
  split at hs
  · rename_i hfull
    obtain ⟨q, hq, rfl⟩ := Option.map_eq_some_iff.mp hs
    refine ⟨_, ?_, .inl rfl⟩
    rw [if_pos hfull, queueStep_leftWith ret rfl hrest, hq]
    rfl
  · rename_i hfull
    rw [if_neg hfull]
    exact pollLoop_like ret hrest hs

theorem selected_like {timeout : Option ℕ} {res : SelectResult} (hrest : p.queue.consumer.AtRest)
    (hp : p.poller = .select call timeout) (hs : p.selected call timeout res = some p') :
    ∃ p'', (p.leftWith ret).selected call timeout res = some p'' ∧ p''.Like p' := by
  cases res with
  | ok notify len =>
    cases notify with
    | true =>
      obtain rfl := Option.some.inj hs
      exact ⟨_, rfl, .inr ⟨⟨.inr (.inr ⟨_, _, rfl⟩), hrest⟩, ret, rfl⟩⟩
    | false => exact pollQueue_like ret hrest hs
  | interrupted elapsed =>
    simp only [Polling.selected] at hs ⊢
    split at hs
    · rename_i hinterruptible
      obtain rfl := Option.some.inj hs
      exact ⟨_, if_pos hinterruptible, .inr ⟨⟨.inl rfl, hrest⟩, ret, rfl⟩⟩
    · rename_i hinterruptible
      rw [if_neg hinterruptible]
      cases timeout with
      | none =>
        obtain rfl := Option.some.inj hs
        exact ⟨_, rfl, .inr ⟨⟨.inr (.inl ⟨_, _, hp⟩), hrest⟩, ret, rfl⟩⟩
      | some rest =>
        dsimp only at hs ⊢
        split at hs
        · rename_i hover
          rw [if_pos hover]
          exact pollQueue_like ret hrest hs
        · rename_i hover
          obtain rfl := Option.some.inj hs
          exact ⟨_, if_neg hover, .inr ⟨⟨.inr (.inl ⟨_, _, rfl⟩), hrest⟩, ret, rfl⟩⟩
  | failed =>
    obtain rfl := Option.some.inj hs
    exact ⟨_, rfl, .inr ⟨⟨.inl rfl, hrest⟩, ret, rfl⟩⟩

theorem poll2_like {timeout : Option ℕ} (hrest : p.queue.consumer.AtRest)
    (hs : p.poll2 call timeout = some p') :
    ∃ p'', (p.leftWith ret).poll2 call timeout = some p'' ∧ p''.Like p' := by
  unfold Polling.poll2 at *
  split at hs
  · rename_i hzero
    obtain rfl := Option.some.inj hs
    exact ⟨_, if_pos hzero, .inr ⟨⟨.inr (.inl ⟨_, _, rfl⟩), hrest⟩, ret, rfl⟩⟩
  · rename_i hzero
    obtain ⟨q, hq, rfl⟩ := Option.map_eq_some_iff.mp hs
    refine ⟨_, ?_, .inl rfl⟩
    rw [if_neg hzero, queueStep_leftWith ret rfl hrest, hq]
    rfl

theorem pollingStep_like {op : PollingOp ι α} (hop : ∀ i a, op ≠ .begin i a)
    (hproducer : ∀ i wouldBlock, op ≠ .producer i wouldBlock) (h : p.Pauses)
    (hs : pollingStep p op = some p') :
    ∃ p'', pollingStep (p.leftWith ret) op = some p'' ∧ p''.Like p' := by
  have hrest := h.rest
  have hpauses := h.poller
  unfold pollingStep at hs
  split at hs
  · exact absurd rfl (hop _ _)
  · exact absurd rfl (hproducer _ _)
  · obtain ⟨q, hq, -⟩ := Option.map_eq_some_iff.mp hs
    obtain ⟨r, hr⟩ := hrest
    unfold Queue.consumerStep at hq
    simp [hr] at hq
  · rename_i hp
    obtain ⟨p'', hp'', hlike⟩ := poll2_like ret hrest hs
    exact ⟨p'', by simp only [pollingStep, show (p.leftWith ret).poller = .idle from hp, hp''], hlike⟩
  · rename_i hp _
    rw [hp] at hpauses
    rcases hpauses with h | ⟨_, _, h⟩ | ⟨_, _, h⟩ <;> cases h
  · rename_i res call timeout hp
    obtain ⟨p'', hp'', hlike⟩ := selected_like ret hrest hp hs
    exact ⟨p'', by simp only [pollingStep, show (p.leftWith ret).poller = _ from hp, hp''], hlike⟩
  · rename_i call len hp
    have hp' : (p.leftWith ret).poller = .cleanup call len := hp
    simp only [pollingStep, hp']
    rw [show (p.leftWith ret).pipe = p.pipe from rfl]
    split at hs
    · rename_i hpipe
      obtain rfl := Option.some.inj hs
      exact ⟨_, if_pos hpipe, .inr ⟨⟨.inr (.inr ⟨_, _, hp⟩), hrest⟩, ret, by rw [hp]; rfl⟩⟩
    · rename_i hpipe
      rw [if_neg hpipe]
      exact pollQueue_like ret hrest hs
  all_goals first
    | (rename_i hp _
       rw [hp] at hpauses
       rcases hpauses with h | ⟨_, _, h⟩ | ⟨_, _, h⟩ <;> cases h)
    | cases hs

end Left

/-- The two registrations differ in what a call of the queue has left at most, where nobody looks at it. -/
structure Registrations.Like (r s : Registrations ι α J) : Prop where
  shared : r = s.withRegs r.regs
  polling : r.polling.Like s.polling
  hold : r.hold = s.hold

section Alike
variable [DecidableEq ι] [DecidableEq α] {r s s' : Registrations ι α J} {op : RegistrationsOp ι α J}

omit [DecidableEq ι] [DecidableEq α] in
theorem Registrations.Like.refl (s : Registrations ι α J) : s.Like s := ⟨rfl, .inl rfl, rfl⟩

omit [DecidableEq ι] [DecidableEq α] in
theorem Registrations.Like.cases (h : r.Like s) : r = s ∨ s.polling.Pauses ∧
    ∃ ret, r = s.withRegs { s.regs with consumer := .returned ret } := by
  have hshared := h.shared
  rcases h.polling with hp | ⟨hpauses, ret, hp⟩
  · left
    rw [hshared, show r.regs = s.regs from by unfold Registrations.regs; rw [hp, h.hold]]
    rfl
  · right
    refine ⟨hpauses, ret, ?_⟩
    rw [hshared, show r.regs = { s.regs with consumer := .returned ret } from by
      unfold Registrations.regs
      rw [hp, h.hold]
      rfl]

omit [DecidableEq ι] [DecidableEq α] in
theorem Registrations.Like.of_polling {p p' : Polling ι α} (h : p.Like p') :
    ({ s with polling := p } : Registrations ι α J).Like { s with polling := p' } := by
  rcases h with rfl | ⟨hpauses, ret, rfl⟩
  · exact .refl _
  · exact ⟨rfl, .inr ⟨hpauses, ret, rfl⟩, rfl⟩

theorem Registrations.Like.step (h : r.Like s) (hload : s.polling.Pauses → s.hold = .load)
    (hs : registrationsStep s op = some s') : ∃ r', registrationsStep r op = some r' ∧ r'.Like s' := by
  rcases h.cases with rfl | ⟨hpauses, ret, rfl⟩
  · exact ⟨s', hs, .refl s'⟩
  have hhold := hload hpauses
  have hother : op.ofPoller = false → ∃ r',
      registrationsStep (s.withRegs { s.regs with consumer := .returned ret }) op = some r' ∧
        r'.Like s' := by
    intro hop
    have hown : s'.withRegs s.regs = s' :=
      Option.some.inj ((show registrationsStep (s.withRegs s.regs) op = some (s'.withRegs s.regs) from
        other_withRegs hop hs).symm.trans hs)
    refine ⟨_, other_withRegs hop hs, rfl, .inr ⟨⟨?_, ?_⟩, ret, ?_⟩, ?_⟩
    · rw [← hown]
      exact hpauses.poller
    · rw [← hown]
      exact hpauses.rest
    · rw [← hown]
      rfl
    · rw [← hown]
      rfl
  cases op with
  | call | thread | producer => exact hother rfl
  | poll op =>
    simp only [registrationsStep] at hs ⊢
    split at hs
    · rename_i hpolls
      obtain ⟨p', hp', rfl⟩ := Option.map_eq_some_iff.mp hs
      have hop : ∀ i a, op ≠ .begin i a := fun i a he => by
        rw [he] at hpolls
        cases hpolls
      have hproducer : ∀ i wouldBlock, op ≠ .producer i wouldBlock := fun i wouldBlock he => by
        rw [he] at hpolls
        cases hpolls
      obtain ⟨p'', hp'', hlike⟩ := pollingStep_like ret hop hproducer hpauses hp'
      have hpolls' : (s.withRegs { s.regs with consumer := .returned ret }).polls op = true := by
        cases op with
        | dequeued requeue readiness =>
          unfold pollingStep at hp'
          have hpoller := hpauses.poller
          rcases hpoller with h | ⟨_, _, h⟩ | ⟨_, _, h⟩ <;> simp [h] at hp'
        | requeued => exact hpolls
        | begin | producer => cases hpolls
        | _ => rfl
      rw [if_pos hpolls']
      refine ⟨_, Option.map_eq_some_iff.mpr ⟨p'', hp'', rfl⟩, ?_⟩
      exact .of_polling (s := s) hlike
    · cases hs
  | node =>
    change s.nodeStep = some s' at hs
    unfold Registrations.nodeStep at hs
    rw [hhold] at hs
    rcases hpauses.poller with h | ⟨_, _, h⟩ | ⟨_, _, h⟩ <;> simp [h] at hs

end Alike

/-! ## Who is in `poll2` -/

section Lock
variable [DecidableEq κ] {l l' : PollLock κ} {op : Poll1Op κ} {k : κ}

theorem locked_pc {p : Poll1} (hs : l.locked k p = some l') : l'.pc = Function.update l.pc k p := by
  unfold PollLock.locked at hs
  split at hs
  · obtain rfl := Option.some.inj hs
    rfl
  · cases hs

theorem step_pc (hs : l.step k = some l') : ∃ p, l'.pc = Function.update l.pc k p := by
  unfold PollLock.step at hs
  cases hk : l.pc k with
  | idle | waiting | relock | notify => simp [hk] at hs
  | lock | notifyLock =>
    simp only [hk] at hs
    exact ⟨_, locked_pc hs⟩
  | fast | acquire =>
    simp only [hk] at hs
    split at hs <;>
    · obtain rfl := Option.some.inj hs
      exact ⟨_, rfl⟩
  | register =>
    simp only [hk] at hs
    split at hs
    · split at hs <;>
      · obtain rfl := Option.some.inj hs
        exact ⟨_, rfl⟩
    · cases hs
  | leave | wait | reload | unlock | poll2 | release | notifyUnlock =>
    simp only [hk] at hs
    obtain rfl := Option.some.inj hs
    exact ⟨_, rfl⟩

/-- A thread gets into `poll2`, and out of it, with a step of its own, and nobody else moves then. -/
theorem poll1Step_poll2 (hs : poll1Step l op = some l') :
    (∀ k, l'.pc k = .poll2 ↔ l.pc k = .poll2) ∨
      ∃ k, op = .step k ∧ (∀ j, j ≠ k → l'.pc j = l.pc j) ∧
        (l'.pc k = .poll2 → l.pc k ≠ .poll2) := by
  have hmoves : ∀ (t : PollLock κ) (k : κ) (p : Poll1), t.pc = Function.update l.pc k p →
      l.pc k ≠ .poll2 → p ≠ .poll2 → ∀ j, t.pc j = .poll2 ↔ l.pc j = .poll2 := by
    intro t k p ht hk hp j
    rw [ht]
    by_cases hj : j = k
    · subst hj
      rw [Function.update_self]
      exact ⟨fun h => absurd h hp, fun h => absurd h hk⟩
    · rw [Function.update_of_ne hj]
  cases op with
  | call k timeout =>
    simp only [poll1Step] at hs
    split at hs
    · rename_i hk
      obtain rfl := Option.some.inj hs
      exact .inl (hmoves _ k _ rfl (by simp [hk]) (by simp))
    · cases hs
  | wake k =>
    simp only [poll1Step] at hs
    split at hs
    · rename_i hk
      obtain rfl := Option.some.inj hs
      exact .inl (hmoves _ k _ rfl (by simp [hk]) (by simp))
    · cases hs
  | relock k elapsed =>
    simp only [poll1Step] at hs
    split at hs
    · rename_i hk
      unfold PollLock.locked at hs
      split at hs
      · obtain rfl := Option.some.inj hs
        exact .inl (hmoves _ k _ rfl (by simp [hk]) (by simp))
      · cases hs
    · cases hs
  | notify k j =>
    simp only [poll1Step] at hs
    split at hs
    · rename_i hk
      split at hs
      · obtain rfl := Option.some.inj hs
        exact .inl (hmoves _ k _ rfl (by simp [hk]) (by simp))
      · split at hs
        · split at hs
          · rename_i timeout notified hj
            obtain rfl := Option.some.inj hs
            refine .inl fun i => ?_
            show Function.update (Function.update l.pc j _) k _ i = .poll2 ↔ _
            by_cases hik : i = k
            · subst hik
              rw [Function.update_self, hk]
              simp
            · rw [Function.update_of_ne hik]
              exact hmoves (l.goto j (.waiting timeout true)) j _ rfl (by simp [hj]) (by simp) i
          · cases hs
        · cases hs
    · cases hs
  | step k =>
    obtain ⟨p, hp⟩ := step_pc hs
    refine .inr ⟨k, rfl, fun j hj => by rw [hp, Function.update_of_ne hj], fun hin hk => ?_⟩
    change l.step k = some l' at hs
    simp only [PollLock.step, hk] at hs
    obtain rfl := Option.some.inj hs
    change Function.update l.pc k .release k = .poll2 at hin
    rw [Function.update_self] at hin
    cases hin

end Lock

/-! ## Every run -/

section Run
variable [DecidableEq κ] [Fintype κ] [DecidableEq ι] [DecidableEq α] {s s' : Pollers κ ι α J}
  {r : Registrations ι α J} {k : κ}

/-- A thread outside `poll2` has nothing half done. -/
structure PollRegs.AtRest (own : PollRegs α) : Prop where
  poller : own.poller = .idle
  consumer : own.consumer.AtRest
  hold : own.hold = .load

structure Pollers.Ok (s : Pollers κ ι α J) : Prop where
  lock : s.lock.Ok
  outside : ∀ k, s.lock.pc k ≠ .poll2 → (s.regs k).AtRest
  refines : ∃ r, Reachable registrationsStep Registrations.Starts r ∧
    (∀ k, s.lock.pc k = .poll2 → r.Like (s.view k)) ∧
    ((∀ k, s.lock.pc k ≠ .poll2) → r.polling.poller = .idle ∧ r = s.shared.withRegs r.regs)

omit [DecidableEq κ] in
theorem PollLock.Ok.unique {l : PollLock κ} (h : l.Ok) {j : κ} (hk : l.pc k = .poll2)
    (hj : l.pc j = .poll2) : j = k :=
  tally_unique h.inside_le (by rw [hj]; rfl) (by rw [hk]; rfl)

omit [DecidableEq ι] [DecidableEq α] in
theorem Registrations.Owned.atRest (h : r.Owned) (hidle : r.polling.poller = .idle) : r.regs.AtRest := by
  have hpoller := h.ok.poller
  unfold Polling.PollerOk at hpoller
  rw [hidle] at hpoller
  exact ⟨hidle, hpoller, h.hold_load (by rw [hidle]; exact nofun) (.inl (by rw [hidle]; exact nofun))⟩

omit [DecidableEq ι] [DecidableEq α] in
theorem Registrations.Like.load {t : Registrations ι α J} (h : r.Like t) (howned : r.Owned)
    (hpauses : t.polling.Pauses) : t.hold = .load := by
  have hpoller : r.polling.poller = t.polling.poller := by
    rcases h.polling with he | ⟨-, ret, he⟩ <;> rw [he]
    rfl
  have hp := hpauses.poller
  rw [← hpoller] at hp
  rw [← h.hold]
  refine howned.hold_load (fun _ _ _ _ he => ?_) (.inl fun _ _ _ he => ?_) <;>
  · rw [he] at hp
    rcases hp with hp | ⟨_, _, hp⟩ | ⟨_, _, hp⟩ <;> cases hp

omit [DecidableEq ι] [DecidableEq α] in
/-- The one poller and a thread that is about to call `poll2`, or has returned from it. -/
theorem like_of_atRest {t : Registrations ι α J} {own : PollRegs α} (hr : r.regs.AtRest)
    (hown : own.AtRest) (hshared : r = t.withRegs r.regs) : r.Like (t.withRegs own) := by
  obtain ⟨ret, hret⟩ := hr.consumer
  refine ⟨hshared, .inr ⟨⟨.inl hown.poller, hown.consumer⟩, ret, ?_⟩, hr.hold.trans hown.hold.symm⟩
  rw [hshared]
  simp only [Registrations.withRegs, Polling.leftWith, hr.poller, hown.poller, hret]

theorem Pollers.Ok.lockStep (h : s.Ok) {op : Poll1Op κ} (hs : pollersStep s (.lock op) = some s') :
    s'.Ok := by
  simp only [pollersStep] at hs
  split at hs
  case isFalse => cases hs
  rename_i hmay
  obtain ⟨l, hl, rfl⟩ := Option.map_eq_some_iff.mp hs
  have hlock := h.lock.poll1Step hl
  obtain ⟨r, hr, hlike, hfree⟩ := h.refines
  rcases poll1Step_poll2 hl with hsame | ⟨k, rfl, hothers, henters⟩
  · exact ⟨hlock, fun j hj => h.outside j fun he => hj ((hsame j).mpr he), r, hr,
      fun j hj => hlike j ((hsame j).mp hj), fun hnone => hfree fun j he => hnone j ((hsame j).mpr he)⟩
  by_cases hk : s.lock.pc k = .poll2
  · -- `poll2` has returned, and the lock is about to be released
    have hnone : ∀ j, l.pc j ≠ .poll2 := by
      intro j hj
      by_cases hjk : j = k
      · subst hjk
        exact henters hj hk
      · rw [hothers j hjk] at hj
        exact hjk (h.lock.unique hk hj)
    have hidle : (s.regs k).poller = .idle := by
      have hcalled : (s.called k && decide ((s.regs k).poller = .idle)) = true := by
        simpa [Pollers.mayLock, hk] using hmay
      exact of_decide_eq_true (Bool.and_eq_true_iff.mp hcalled).2
    have hk' := hlike k hk
    have hpoller : r.polling.poller = .idle := by
      rcases hk'.polling with he | ⟨-, ret, he⟩ <;> rw [he] <;> exact hidle
    have hrest := (registrations_owned hr).atRest hpoller
    refine ⟨hlock, fun j _ => ?_, r, hr, fun j hj => absurd hj (hnone j), fun _ => ⟨hpoller, hk'.shared⟩⟩
    by_cases hjk : j = k
    · subst hjk
      refine ⟨hidle, ?_, hk'.hold.symm.trans hrest.hold⟩
      rcases hk'.polling with he | ⟨hpauses, -⟩
      · have hconsumer : r.polling.queue.consumer = (s.regs j).consumer :=
          congrArg (fun p => p.queue.consumer) he
        exact hconsumer ▸ hrest.consumer
      · exact hpauses.rest
    · exact h.outside j fun he => hjk (h.lock.unique hk he)
  · have hout : ∀ j, l.pc j ≠ .poll2 → s.lock.pc j ≠ .poll2 := by
      intro j hj he
      by_cases hjk : j = k
      · exact hk (hjk ▸ he)
      · exact hj ((hothers j hjk).trans he)
    refine ⟨hlock, fun j hj => h.outside j (hout j hj), r, hr, fun j hj => ?_, fun hnone =>
      hfree fun j => hout j (hnone j)⟩
    by_cases hjk : j = k
    · -- nobody else is in `poll2` when a thread gets there
      subst hjk
      have hnone : ∀ i, s.lock.pc i ≠ .poll2 := by
        intro i hi
        by_cases hij : i = j
        · exact hk (hij ▸ hi)
        · exact hij (hlock.unique hj ((hothers i hij).trans hi))
      obtain ⟨hpoller, hshared⟩ := hfree hnone
      exact like_of_atRest ((registrations_owned hr).atRest hpoller) (h.outside j hk) hshared
    · exact hlike j ((hothers j hjk).symm.trans hj)

theorem Pollers.Ok.threadStep (h : s.Ok) {op : RegistrationsOp ι α J}
    (hs : pollersStep s (.thread op) = some s') : s'.Ok := by
  simp only [pollersStep] at hs
  split at hs
  case isTrue => cases hs
  rename_i hop
  rw [Bool.not_eq_true] at hop
  obtain ⟨t, ht, rfl⟩ := Option.map_eq_some_iff.mp hs
  obtain ⟨r, hr, hlike, hfree⟩ := h.refines
  by_cases hin : ∃ k, s.lock.pc k = .poll2
  · obtain ⟨k, hk⟩ := hin
    have hstep : registrationsStep (s.view k) op = some (t.withRegs (s.regs k)) :=
      other_withRegs hop ht
    obtain ⟨r', hr', hlike'⟩ := (hlike k hk).step ((hlike k hk).load (registrations_owned hr)) hstep
    refine ⟨h.lock, h.outside, r', hr.next op hr', fun j hj => ?_, fun hnone => absurd hk (hnone k)⟩
    obtain rfl := h.lock.unique hk hj
    exact hlike'
  · have hnone : ∀ k, s.lock.pc k ≠ .poll2 := fun k hk => hin ⟨k, hk⟩
    obtain ⟨hpoller, hshared⟩ := hfree hnone
    have hstep : registrationsStep r op = some (t.withRegs r.regs) :=
      (congrArg (registrationsStep · op) hshared).trans (other_withRegs hop ht)
    exact ⟨h.lock, h.outside, _, hr.next op hstep, fun k hk => absurd hk (hnone k),
      fun _ => ⟨hpoller, rfl⟩⟩

theorem Pollers.Ok.pollStep (h : s.Ok) {op : RegistrationsOp ι α J}
    (hs : pollersStep s (.poll k op) = some s') : s'.Ok := by
  simp only [pollersStep] at hs
  split at hs
  case isFalse => cases hs
  rename_i hguard
  obtain ⟨-, hk, -⟩ := hguard
  obtain ⟨t, ht, rfl⟩ := Option.map_eq_some_iff.mp hs
  obtain ⟨r, hr, hlike, -⟩ := h.refines
  obtain ⟨r', hr', hlike'⟩ := (hlike k hk).step ((hlike k hk).load (registrations_owned hr)) ht
  refine ⟨h.lock, fun j hj => ?_, r', hr.next op hr', fun j hj => ?_, fun hnone => absurd hk (hnone k)⟩
  · have hjk : j ≠ k := fun he => hj (he ▸ hk)
    show (Function.update s.regs k t.regs j).AtRest
    rw [Function.update_of_ne hjk]
    exact h.outside j hj
  · obtain rfl := h.lock.unique hk hj
    show r'.Like (t.withRegs (Function.update s.regs j t.regs j))
    rw [Function.update_self]
    exact hlike'

theorem pollersStep_ok {op : PollersOp κ ι α J} (h : s.Ok) (hs : pollersStep s op = some s') : s'.Ok := by
  cases op with
  | lock op => exact h.lockStep hs
  | thread op => exact h.threadStep hs
  | poll k op => exact h.pollStep hs

omit [DecidableEq κ] in
theorem Pollers.Starts.ok (h : s.Starts) : s.Ok := by
  have hrest : ∀ k, (s.regs k).AtRest := fun k => by
    rw [h.regs]
    exact ⟨rfl, ⟨_, rfl⟩, rfl⟩
  refine ⟨h.lock ▸ PollLock.Ok.new, fun k _ => hrest k, s.shared, .start h.shared, fun k hk => ?_,
    fun _ => ⟨by rw [h.shared.polling]; rfl, rfl⟩⟩
  rw [h.lock] at hk
  cases hk

end Run

/-- **Any number of threads in `poll` are one poller.** In every run there is at most one thread in `poll2`,
and the others have nothing half done; and what they have in common, with what the one thread has of its
own, is what a run of one poller arrives at, up to the result of a call that nobody looks at any more. -/
theorem pollers_refine [DecidableEq κ] [Fintype κ] [DecidableEq ι] [DecidableEq α]
    (s : Pollers κ ι α J) (hs : Reachable pollersStep Pollers.Starts s) :
    (∀ k j, s.lock.pc k = .poll2 → s.lock.pc j = .poll2 → j = k) ∧
      (∀ k, s.lock.pc k ≠ .poll2 → (s.regs k).AtRest) ∧
      ∃ r, Reachable registrationsStep Registrations.Starts r ∧
        (∀ k, s.lock.pc k = .poll2 → r.Like (s.view k)) ∧
        ((∀ k, s.lock.pc k ≠ .poll2) → r.polling.poller = .idle ∧ r = s.shared.withRegs r.regs) := by
  have h : s.Ok := hs.invariant (fun _ hinit => hinit.ok) fun _ _ _ h hstep => pollersStep_ok h hstep
  exact ⟨fun k j hk hj => h.lock.unique hk hj, h.outside, h.refines⟩

/-- One thread waits for the lock while another has a node in hand. -/
theorem pollers_refine_two :
    ∃ s : Pollers Bool Unit ℕ ℕ, s.lock.pc true = .waiting none false ∧
      (s.view false).holding = some 0 ∧
      ∃ r, Reachable registrationsStep Registrations.Starts r ∧ r.Like (s.view false) := by
  let start : Pollers Bool Unit ℕ ℕ :=
    ⟨.new, oneNode, fun _ => ⟨.idle, .returned .unit, .load⟩, fun _ => false⟩
  have hstart : start.Starts := ⟨rfl, oneNode_starts, fun _ => rfl, fun _ => rfl⟩
  obtain ⟨s, hs, hlast⟩ : ∃ s : Pollers Bool Unit ℕ ℕ, run pollersStep start
      [[.thread (.call () (.setReadiness 0 .readable))], .replicate 3 (.thread (.thread ())),
        .replicate 4 (.thread (.producer () false)),
        [.lock (.call false none), .lock (.step false),
          .poll false (.poll (.poll2 ⟨4, false⟩ (some 0))), .lock (.call true none)],
        .replicate 4 (.lock (.step true)), [.poll false (.poll (.selected (.ok false 0)))],
        .replicate 8 (.poll false (.poll .consumer))].flatten = some s ∧
      (s.lock.pc true, s.lock.pc false, (s.view false).holding) =
        (.waiting none false, .poll2, some 0) := Option.map_eq_some_iff.mp (by decide +kernel)
  simp only [Prod.mk.injEq] at hlast
  obtain ⟨hwaiting, hin, hholding⟩ := hlast
  obtain ⟨-, -, r, hr, hlike, -⟩ := pollers_refine s ((Reachable.start hstart).run hs)
  exact ⟨s, hwaiting, hholding, r, hr, hlike false hin⟩

end MyMio

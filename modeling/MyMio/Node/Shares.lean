import Mathlib.Data.Fintype.Basic
import MyMio.Node.Frame

/-! # Who shares a node

Nodes are counted (`ref_count`): the `Registration` and each `SetReadiness` have a share, and so has the
`Poll` a node is associated with, through `Registration::new` or the first `update`. The poll gives its
share back in one of three places: where the poller sees the dropped flag, where `enqueue_node` finds
the queue closed, and in the loop of `ReadinessQueue::drop`.

`Shares` has the registrations on a poll (`Registrations`) run on, and adds their handles, the nodes
that have no poll yet, the counts, and the end of the poll. The steps are again the accesses to
shared memory; what a thread does between two of them is part of one of them. `update` called with
another poll returns an error if the node has this one, before it touches the node, and makes the node
one of the other poll's if it has none: neither is a step here.

Ghosts record who owes the increment of an association, what was released where, and which nodes were
freed. The ghost `released` of `Registrations` has here every node that nobody will enqueue any more.
-/

namespace MyMio
set_option autoImplicit false

open BrokenQueue StepSystem

universe u v w

/-! ## States -/

/-- Where the `Poll` is: in use, in `ReadinessQueue::drop` (enqueueing the closed marker, then in its
loop), or gone. -/
inductive PollStage (α : Type u)
  | live
  | closing (phase : Phase (Ptr α))
  | draining
  | gone
  deriving DecidableEq, Repr

inductive RegistrationStage
  | absent
  | held
  /-- in `Registration::drop` -/
  | dropping
  | gone
  deriving DecidableEq, Repr

/-- What a thread is doing, or did last. -/
inductive Doing (α : Type u) (J : Type w)
  | nothing
  | setting (a : α)
  /-- `update`: about to load `readiness_queue` -/
  | associate (a : α) (u : Update J)
  /-- about to swap null for the queue -/
  | claim (a : α) (u : Update J)
  /-- about to add to `ref_count` -/
  | count (a : α) (u : Update J)
  /-- in the rest of `update` -/
  | updating (a : α)
  /-- in `Registration::drop`, up to the end of its share -/
  | dropping (a : α)

/-- The node whose `Registration` and whose poll an `update` borrows. -/
def Doing.borrows {α : Type u} {J : Type w} (idle : Bool) : Doing α J → Option α
  | .associate a _ | .claim a _ | .count a _ => some a
  | .updating a => if idle then none else some a
  | _ => none

/-- Whether a thread that makes no access is out of its operation. -/
def Doing.isOver {α : Type u} {J : Type w} : Doing α J → Bool
  | .nothing | .setting _ | .updating _ => true
  | .associate _ _ | .claim _ _ | .count _ _ | .dropping _ => false

inductive ReleasedBy
  | poller
  | enqueue
  | drop
  deriving DecidableEq, Repr

structure Shares (ι : Type v) (α : Type u) (J : Type w) where
  regs : Registrations ι α J
  doing : ι → Doing α J
  stage : PollStage α
  /-- `readiness_queue` is not null -/
  associated : α → Bool
  registered : α → RegistrationStage
  /-- how many `SetReadiness` there are -/
  setters : α → ℕ
  refCount : α → ℕ
  /-- the node the poller or `drop` is about to release -/
  releasing : Option α
  owed : α → Bool
  releases : List (α × ReleasedBy)
  freed : α → ℕ

inductive SharesOp (ι : Type v) (α : Type u) (J : Type w)
  | new2 (a : α)
  | new (a : α) (token : TokenEntry) (interest : Ready) (opt : PollOpt)
  /-- `SetReadiness::clone` -/
  | clone (a : α)
  /-- a `SetReadiness` is dropped -/
  | dropSetter (a : α)
  | call (i : ι) (c : NodeCall α J)
  | thread (i : ι)
  | producer (i : ι) (wouldBlock : Bool)
  | poll (op : PollingOp ι α)
  | node
  /-- `release_node` of the poller or of `drop` -/
  | release
  | dropPoll
  /-- the next access of `ReadinessQueue::drop` to the queue -/
  | close

def MAX_REFCOUNT : ℕ := 2 ^ 63 - 1

namespace Shares
variable {ι : Type v} {α : Type u} {J : Type w} [DecidableEq ι] [DecidableEq α]

/-! ## The steps -/

/-- A node comes into being, with a `Registration` and a `SetReadiness`. -/
def create (s : Shares ι α J) (a : α) (node : Node J) (associated : Bool) (refCount : ℕ) :
    Shares ι α J :=
  { s with
    regs := s.regs.setNode a node
    associated := Function.update s.associated a associated
    registered := Function.update s.registered a .held
    setters := Function.update s.setters a 1
    refCount := Function.update s.refCount a refCount }

def releaseNode (s : Shares ι α J) (a : α) : Shares ι α J :=
  { s with
    refCount := Function.update s.refCount a (s.refCount a - 1)
    freed := if s.refCount a = 1 then Function.update s.freed a (s.freed a + 1) else s.freed }

/-- The poll gives its share back. -/
def releaseShare (s : Shares ι α J) (a : α) (place : ReleasedBy) : Shares ι α J :=
  { s with releases := s.releases ++ [(a, place)] }.releaseNode a

/-- Nobody will enqueue the node any more. -/
def letGo (s : Shares ι α J) (a : α) : Shares ι α J :=
  { s with regs := { s.regs with released := Function.update s.regs.released a true } }

def setQueue (s : Shares ι α J) (q : Queue ι α) : Shares ι α J :=
  { s with regs := { s.regs with polling := { s.regs.polling with queue := q } } }

def goto (s : Shares ι α J) (i : ι) (doing : Doing α J) : Shares ι α J :=
  { s with doing := Function.update s.doing i doing }

/-- Past the association, `update` runs as on an associated node. -/
def enterUpdate (s : Shares ι α J) (i : ι) (a : α) (u : Update J) : Shares ι α J :=
  { s.goto i (.updating a) with regs := s.regs.goto i (NodeCall.update a u).enter }

def call (s : Shares ι α J) (i : ι) (c : NodeCall α J) : Option (Shares ι α J) :=
  match c with
  | .setReadiness a _ =>
    if 0 < s.setters a then
      (registrationsStep s.regs (.call i c)).map fun r => { s.goto i (.setting a) with regs := r }
    else none
  | .update a u =>
    if s.registered a = .held ∧ s.stage = .live then
      (registrationsStep s.regs (.call i c)).map fun _ => s.goto i (.associate a u)
    else none
  | .drop a =>
    if s.registered a = .held then
      (registrationsStep s.regs (.call i c)).map fun r =>
        { s.goto i (.dropping a) with
          regs := r
          registered := Function.update s.registered a .dropping }
    else none

/-- Whether a thread is out of the accesses that `Registrations` has. -/
def idle (s : Shares ι α J) (i : ι) : Bool :=
  (s.regs.threads i).isIdle && decide (s.regs.polling.queue.producers i = .idle)

def threadStep (s : Shares ι α J) (i : ι) : Option (Shares ι α J) :=
  match s.doing i with
  | .associate a u => some (if s.associated a then s.enterUpdate i a u else s.goto i (.claim a u))
  | .claim a u =>
    if s.associated a then some (s.enterUpdate i a u)
    else
      some { s.goto i (.count a u) with
        associated := Function.update s.associated a true
        owed := Function.update s.owed a true }
  | .count a u =>
    some { s.enterUpdate i a u with
      refCount := Function.update s.refCount a (s.refCount a + 1)
      owed := Function.update s.owed a false }
  | doing =>
    match doing, s.idle i with
    | .dropping a, true =>
      -- the share of the `Registration`
      some ({ s.goto i .nothing with
        registered := Function.update s.registered a .gone }.releaseNode a)
    | _, _ =>
      match s.regs.threads i with
      | .enqueue a =>
        -- `enqueue_with_wakeup` loads `readiness_queue`
        if s.associated a then
          (registrationsStep s.regs (.thread i)).map fun r => { s with regs := r }
        else some ({ s with regs := s.regs.goto i .idle }.letGo a)
      | _ => (registrationsStep s.regs (.thread i)).map fun r => { s with regs := r }

def producerStep (s : Shares ι α J) (i : ι) (wouldBlock : Bool) : Option (Shares ι α J) :=
  (registrationsStep s.regs (.producer i wouldBlock)).map fun r =>
    match s.regs.polling.queue.producers i with
    | .enqueue a (.exchange .closedMarker) =>
      ({ s with regs := r }.letGo a).releaseShare a .enqueue
    | _ => { s with regs := r }

/-- The node whose dropped flag the poller has just seen. -/
def seen (r r' : Registrations ι α J) : Option α :=
  match r.polling.queue.consumer with
  | .returned (.dequeue (.data (.data a))) => if r'.released a && !r.released a then some a else none
  | _ => none

/-- What `drop` does with the result of `dequeue_node`. -/
def dropped (s : Shares ι α J) (q : Queue ι α) : Option (Shares ι α J) :=
  match q.consumer with
  | .returned (.dequeue .empty) => some { s.setQueue q with stage := .gone }
  | .returned (.dequeue .inconsistent) =>
    (queueStep q (.dequeueNode none)).map s.setQueue
  | .returned (.dequeue (.data (.data a))) =>
    some { (s.setQueue q).letGo a with releasing := some a }
  | .returned _ => none
  | _ => some (s.setQueue q)

/-- An access of `ReadinessQueue::drop` to the queue. -/
def closeStep (s : Shares ι α J) : Option (Shares ι α J) :=
  let q := s.regs.polling.queue
  match s.stage, s.releasing with
  | .closing phase, _ =>
    match enqueueNode q.mem .closedMarker phase with
    | (mem, .goOn phase) => some { s.setQueue { q with mem := mem } with stage := .closing phase }
    | (mem, .done _) =>
      (queueStep { q with mem := mem } (.dequeueNode none)).map fun q =>
        { s.setQueue q with stage := .draining }
  | .draining, none => q.consumerStep.bind s.dropped
  | _, _ => none

end Shares

section Step
variable {ι : Type v} {α : Type u} {J : Type w} [DecidableEq ι] [DecidableEq α]

def sharesStep (s : Shares ι α J) : SharesOp ι α J → Option (Shares ι α J)
  | .new2 a =>
    if s.registered a = .absent then
      some (s.create a (.new ⟨.tokenEvent, ⟨0⟩⟩ .empty .empty) false 2)
    else none
  | .new a token interest opt =>
    if s.registered a = .absent ∧ s.stage = .live ∧ interest.bits ≤ MASK_4 ∧ opt.bits ≤ MASK_4 then
      some (s.create a (.new token interest opt) true 3)
    else none
  | .clone a =>
    -- past the limit the process aborts
    if 0 < s.setters a ∧ s.refCount a ≤ MAX_REFCOUNT then
      some { s with
        refCount := Function.update s.refCount a (s.refCount a + 1)
        setters := Function.update s.setters a (s.setters a + 1) }
    else none
  | .dropSetter a =>
    if 0 < s.setters a then
      some ({ s with setters := Function.update s.setters a (s.setters a - 1) }.releaseNode a)
    else none
  | .call i c =>
    match s.doing i with
    | .nothing | .setting _ | .updating _ => s.call i c
    | _ => none
  | .thread i => s.threadStep i
  | .producer i wouldBlock => s.producerStep i wouldBlock
  | .poll op =>
    if s.stage = .live ∧ s.releasing = none then
      (registrationsStep s.regs (.poll op)).map fun r => { s with regs := r }
    else none
  | .node =>
    if s.stage = .live ∧ s.releasing = none then
      (registrationsStep s.regs .node).map fun r =>
        { s with regs := r, releasing := Shares.seen s.regs r }
    else none
  | .release =>
    match s.releasing with
    | none => none
    | some a =>
      if s.stage = .draining then
        (queueStep s.regs.polling.queue (.dequeueNode none)).map fun q =>
          { (s.setQueue q).releaseShare a .drop with releasing := none }
      else some { s.releaseShare a .poller with releasing := none }
  | .dropPoll =>
    if s.stage = .live ∧ s.releasing = none ∧ s.regs.polling.poller = .idle then
      some { s with stage := .closing .start }
    else none
  | .close => s.closeStep

end Step

/-! ## What the counts should be -/

namespace Shares
variable {ι : Type v} {α : Type u} {J : Type w}

def handles (s : Shares ι α J) (a : α) : ℕ :=
  (if s.registered a = .held ∨ s.registered a = .dropping then 1 else 0) + s.setters a

def share [DecidableEq α] (s : Shares ι α J) (a : α) : ℕ :=
  if s.associated a = true ∧ a ∉ s.releases.map Prod.fst then 1 else 0

/-- Nobody is at work. -/
def AtRest [DecidableEq α] (s : Shares ι α J) : Prop := ∀ i, s.idle i = true ∧ (s.doing i).isOver = true

/-- A new poll, and no node yet. -/
structure Starts (s : Shares ι α J) : Prop where
  regs : s.regs.Starts
  doing : ∀ i, s.doing i = .nothing
  stage : s.stage = .live
  associated : ∀ a, s.associated a = false
  registered : ∀ a, s.registered a = .absent
  setters : ∀ a, s.setters a = 0
  refCount : ∀ a, s.refCount a = 0
  releasing : s.releasing = none
  owed : ∀ a, s.owed a = false
  releases : s.releases = []
  freed : ∀ a, s.freed a = 0

/-! ## What the language sees to, and what it does not -/

variable [DecidableEq ι] [DecidableEq α]

def Updating (s : Shares ι α J) (i : ι) (a : α) : Prop := (s.doing i).borrows (s.idle i) = some a

/-- The node that a `set_readiness` is about to enqueue. -/
def enqueues (s : Shares ι α J) (i : ι) : Option α :=
  match s.doing i, s.regs.threads i with
  | .setting _, .enqueue a => some a
  | _, _ => none

/-- Neither a `Registration` nor the poll is dropped while an `update` borrows it. -/
def Borrowed (s : Shares ι α J) : SharesOp ι α J → Prop
  | .call _ (.drop a) => ∀ i, ¬ s.Updating i a
  | .dropPoll => ∀ i a, ¬ s.Updating i a
  | _ => True

/-- A `set_readiness` that has set the queued flag finds a queue; the poller sees no dropped flag on
a node whose share is not counted yet; and `drop` finds no marker whose next node is still to be
linked. -/
def Settled (s : Shares ι α J) : SharesOp ι α J → Prop
  | .thread i => ∀ a, s.enqueues i = some a → s.associated a = true
  | .node => ∀ a, s.regs.holding = some a → (s.regs.word a).isDropped = true → s.owed a = false
  | .close => s.stage = .draining → s.regs.polling.queue.consumer = .dequeueTail none →
      s.regs.polling.queue.tail.isData = false →
      s.regs.polling.queue.mem.next s.regs.polling.queue.tail = none →
      s.regs.polling.queue.tail = .closedMarker
  | _ => True

def Regular (s : Shares ι α J) (op : SharesOp ι α J) : Prop := s.Borrowed op ∧ s.Settled op

/-! Of a given run all of it can be computed. -/

instance AtRest.decidable [Fintype ι] (s : Shares ι α J) : Decidable s.AtRest :=
  inferInstanceAs (Decidable (∀ _, _))

instance Updating.decidable (s : Shares ι α J) (i : ι) (a : α) : Decidable (s.Updating i a) :=
  inferInstanceAs (Decidable (_ = _))

instance Borrowed.decidable [Fintype ι] [Fintype α] (s : Shares ι α J) : DecidablePred s.Borrowed
  | .call _ (.drop a) => inferInstanceAs (Decidable (∀ i, ¬ s.Updating i a))
  | .dropPoll => inferInstanceAs (Decidable (∀ i a, ¬ s.Updating i a))
  | .call _ (.setReadiness _ _) | .call _ (.update _ _) | .new2 _ | .new _ _ _ _ | .clone _
  | .dropSetter _ | .thread _ | .producer _ _ | .poll _ | .node | .release | .close => .isTrue trivial

instance Settled.decidable [Fintype α] (s : Shares ι α J) : DecidablePred s.Settled
  | .thread i => inferInstanceAs (Decidable (∀ a, s.enqueues i = some a → s.associated a = true))
  | .node => inferInstanceAs (Decidable (∀ a, s.regs.holding = some a →
      (s.regs.word a).isDropped = true → s.owed a = false))
  | .close => inferInstanceAs (Decidable (s.stage = .draining →
      s.regs.polling.queue.consumer = .dequeueTail none →
      s.regs.polling.queue.tail.isData = false →
      s.regs.polling.queue.mem.next s.regs.polling.queue.tail = none →
      s.regs.polling.queue.tail = .closedMarker))
  | .call _ _ | .new2 _ | .new _ _ _ _ | .clone _ | .dropSetter _ | .producer _ _ | .poll _ | .release
  | .dropPoll => .isTrue trivial

instance Regular.decidable [Fintype ι] [Fintype α] (s : Shares ι α J) : DecidablePred s.Regular :=
  fun _ => inferInstanceAs (Decidable (_ ∧ _))

end Shares

end MyMio

import MyMio.Foundations.Firsts
import MyMio.Net.EnqueueJob
import MyMio.Node.Frame

/-! # Every job once and in order

A job travels from its thread through the word of its node, the readiness queue and the event batch
to the event loop. `Making` follows it on its thread, `Journey` over the whole way; the words on the
way are known, since nobody else touches the node. What has been dequeued fixes the order of the
calls (`JobLoop.Ok.order`).
-/

namespace MyMio
set_option autoImplicit false

open BrokenQueue StepSystem Firsts Registrations

universe u v w

variable {ι : Type v} {α : Type u} {C : Type w}

/-! ## The node of a job -/

/-- The word of a node that `new2` has made, and what becomes of it. -/
def madeWord : ReadinessState := .new .empty .empty
def setWord : ReadinessState := madeWord.afterSetReadiness .readable
def queuedWord : ReadinessState := setWord.afterUpdate 1 .readable .edge
def pushedWord : ReadinessState := queuedWord.afterPoll
def droppedWord : ReadinessState := pushedWord.flagAsDropped

/-- A node of `enqueue_job`, with the token of `register` or without. -/
def jobNode (state : ReadinessState) (registered lock : Bool) (job : Option (Closure α C)) :
    Node (Closure α C) where
  state := state
  token0 := ⟨.tokenEvent, ⟨0⟩⟩
  token1 := if registered then ⟨.otherEvent, ⟨0⟩⟩ else ⟨.tokenEvent, ⟨0⟩⟩
  token2 := ⟨.tokenEvent, ⟨0⟩⟩
  updateLock := lock
  job := job

/-- What the thread, the node and its association are while a job is on its way into the queue. The
third index is what the thread owes in `enqueue_node`. -/
inductive MakingAt (a : α) (cb : C) :
    Caller α C → Thread α (Closure α C) → Option α → Node (Closure α C) → Bool → Prop
  | setLoad (o : Option α) (b : Bool) : MakingAt a cb (.setting a cb) (.setLoad a .readable) o
      (jobNode madeWord false false none) b
  | setExchange (o : Option α) (b : Bool) : MakingAt a cb (.setting a cb)
      (.setExchange a .readable madeWord) o (jobNode madeWord false false none) b
  | set (c : Caller α C) (o : Option α) (b : Bool) :
      c = .setting a cb ∨ c = .loading a cb ∨ c = .associating a cb →
      MakingAt a cb c .idle o (jobNode setWord false false none) b
  | lock (o : Option α) : MakingAt a cb (.registering a cb) (.updateLock a (JobLoop.jobUpdate a cb)) o
      (jobNode setWord false false none) true
  | load (o : Option α) : MakingAt a cb (.registering a cb) (.updateLoad a (JobLoop.jobUpdate a cb)) o
      (jobNode setWord false true none) true
  | token (o : Option α) : MakingAt a cb (.registering a cb)
      (.updateToken a (JobLoop.jobUpdate a cb) setWord 1) o (jobNode setWord false true none) true
  | exchange (o : Option α) : MakingAt a cb (.registering a cb)
      (.updateExchange a (JobLoop.jobUpdate a cb) setWord 1) o (jobNode setWord true true none) true
  | unlock (o : Option α) : MakingAt a cb (.registering a cb)
      (.updateUnlock a (JobLoop.jobUpdate a cb) true) o (jobNode queuedWord true true none) true
  | job (o : Option α) : MakingAt a cb (.registering a cb) (.updateJob a (JobLoop.jobUpdate a cb)) o
      (jobNode queuedWord true false none) true
  | enqueue (o : Option α) : MakingAt a cb (.registering a cb) (.enqueue a) o
      (jobNode queuedWord true false (some (.job a cb))) true
  | enqueuer : MakingAt a cb (.registering a cb) .idle (some a)
      (jobNode queuedWord true false (some (.job a cb))) true

/-- The node whose `Arc<Registration>` the thread holds. -/
def Caller.node : Caller α C → Option α
  | .setting a _ | .loading a _ | .associating a _ | .registering a _ => some a
  | _ => none

/-- The poller has not begun with the readiness queue. -/
def Poller.early : Poller α → Bool
  | .prepare _ _ | .select _ _ | .cleanup _ _ => true
  | _ => false

namespace JobLoop

/-! ## What is said about a state -/

def isJob (s : JobLoop ι α C) (a : α) : Bool :=
  match s.uses a with
  | .job _ _ => true
  | _ => false

def isMaker [DecidableEq ι] (s : JobLoop ι α C) (i : ι) (a : α) : Bool :=
  match s.uses a with
  | .job j _ => decide (j = i)
  | _ => false

/-- The calls to be made for what has been pushed. -/
def due (s : JobLoop ι α C) : List (α × C) :=
  s.regs.pushed.flatMap fun e => ran (pushEvent e.2.1 e.2.2)

/-- The entries of the batch that are still to be run. -/
def uncalled (s : JobLoop ι α C) : List (JobEntry (Option (Closure α C))) :=
  match s.phase with
  | .polling => s.events
  | .processing i _ => s.events.drop i
  | _ => []

/-- The entries of the batch that have not been dropped. -/
def uncleared (s : JobLoop ι α C) : List (JobEntry (Option (Closure α C))) :=
  match s.phase with
  | .polling | .processing _ _ => s.events
  | .clearing k => s.events.drop k
  | .idle => []

def Making (s : JobLoop ι α C) (i : ι) (a : α) (cb : C) : Prop :=
  MakingAt a cb (s.callers i) (s.regs.threads (some i))
    (s.regs.polling.queue.producers (some i)).owed (s.regs.nodes a) (s.associated a)

/-- The whole way of a job that thread `i` enqueues with node `a`. -/
inductive Journey (s : JobLoop ι α C) (a : α) (i : ι) (cb : C) : Prop
  | making : s.Making i a cb → a ∉ s.regs.polling.queue.enqueued → s.regs.hold.node ≠ some a →
      Journey s a i cb
  | queued : a ∈ s.regs.polling.queue.enqueued → s.regs.hold.node ≠ some a →
      s.regs.nodes a = jobNode queuedWord true false (some (.job a cb)) →
      a ∉ s.due.map Prod.fst → Journey s a i cb
  | taken (event : Event) : a ∈ s.regs.polling.queue.enqueued → event.token = ⟨.otherEvent, ⟨0⟩⟩ →
      s.regs.hold = .token a event.kind 1 ∨ s.regs.hold = .push a event →
      s.regs.nodes a = jobNode pushedWord true false (some (.job a cb)) →
      a ∉ s.due.map Prod.fst → Journey s a i cb
  | pushed : a ∈ s.regs.polling.queue.enqueued → s.regs.hold = .clear a →
      s.regs.nodes a = jobNode pushedWord true false (some (.job a cb)) →
      a ∈ s.due.map Prod.fst → a ∈ (s.uncleared.flatMap ran).map Prod.fst → Journey s a i cb
  | delivered : a ∈ s.regs.polling.queue.enqueued → s.regs.hold.node ≠ some a →
      s.regs.nodes a = jobNode pushedWord true false none ∨
        s.regs.nodes a = jobNode droppedWord true false none →
      a ∈ s.due.map Prod.fst → Journey s a i cb

def NodeOk (s : JobLoop ι α C) (a : α) : Prop :=
  match s.uses a with
  | .unmade => s.regs.nodes a = jobNode madeWord false false none ∧
      a ∉ s.regs.polling.queue.enqueued ∧ s.regs.hold.node ≠ some a
  | .other => s.associated a = true ∧ capture (s.regs.nodes a).job = none
  | .job i cb => (a ∈ s.regs.polling.queue.enqueued → s.associated a = true) ∧ s.Journey a i cb

/-- A thread that has to do with a node: another registration, or the job it enqueues, or the last
share of the registration is gone. -/
inductive Minds (s : JobLoop ι α C) (o : Option ι) (a : α) (dropping : Prop) : Prop
  | other : s.uses a = .other →
      (∀ u, (s.regs.threads o).update? = some u → capture u.job = none) → Minds s o a dropping
  | making (i : ι) (cb : C) : o = some i → s.uses a = .job i cb → s.Making i a cb →
      a ∉ s.regs.polling.queue.enqueued → Minds s o a dropping
  | dropping (i : ι) (cb : C) : s.uses a = .job i cb → s.arcs a = 0 → dropping → Minds s o a dropping

structure ThreadOk (s : JobLoop ι α C) (o : Option ι) : Prop where
  thread : ∀ a, (s.regs.threads o).node = some a →
    s.Minds o a (s.regs.threads o = .dropOr a ∨ s.regs.threads o = .enqueue a)
  producer : ∀ a, (s.regs.polling.queue.producers o).owed = some a → s.Minds o a True

def CallerOk (s : JobLoop ι α C) (i : ι) : Prop :=
  match s.callers i with
  | .idle => True
  | .setting a cb | .loading a cb | .associating a cb => s.uses a = .job i cb ∧ s.Making i a cb ∧
      a ∉ s.regs.polling.queue.enqueued
  | .registering a cb => s.uses a = .job i cb ∧
      (s.Making i a cb ∧ a ∉ s.regs.polling.queue.enqueued ∨ a ∈ s.regs.polling.queue.enqueued)
  | .dropping a => (∃ cb, s.uses a = .job i cb) ∧ a ∈ s.regs.polling.queue.enqueued

variable [DecidableEq ι] [DecidableEq α]

/-- The jobs in the order in which the `compare_exchange` on the head first succeeded for their
nodes. -/
def swapped (s : JobLoop ι α C) : List α := (s.regs.polling.queue.enqueued.filter s.isJob).eraseDups

/-- The jobs in the order in which their nodes were first dequeued. -/
def taken (s : JobLoop ι α C) : List α := (s.regs.polling.queue.taken.filter s.isJob).eraseDups

/-- The job the poller has in hand. -/
def handJobs (s : JobLoop ι α C) : List α :=
  s.regs.inHand.toList.filter fun a => s.isJob a && !decide (a ∈ s.due.map Prod.fst)

/-- The job a thread is enqueueing. -/
def unswapped (s : JobLoop ι α C) (i : ι) : List α :=
  (s.callers i).node.toList.filter fun a => !decide (a ∈ s.regs.polling.queue.enqueued)

/-- The shares of the registration of a node: the one of `enqueue_job` and the one of its closure. -/
def shares (s : JobLoop ι α C) (i : ι) (a : α) : ℕ :=
  (if (s.callers i).node = some a then 1 else 0) +
    if a ∉ s.due.map Prod.fst ∨ a ∈ (s.uncleared.flatMap ran).map Prod.fst then 1 else 0

/-- The batch and the calls. -/
structure BatchOk (s : JobLoop ι α C) : Prop where
  base : s.base ≤ s.regs.pushed.length
  poller : s.phase = .polling ∨ s.regs.polling.poller = .idle
  early : s.regs.polling.poller.early = true → s.base = s.regs.pushed.length ∧ s.uncalled.flatMap ran = []
  count : ∀ i cnt, s.phase = .processing i cnt → cnt = s.events.length
  calls : s.called ++ s.uncalled.flatMap ran = s.due
  entries : ∀ e ∈ s.regs.pushed, (ran (pushEvent e.2.1 e.2.2)).map Prod.fst = (capture e.2.2).toList
  due : ∀ a cb, (a, cb) ∈ s.due → ∃ i, s.uses a = .job i cb

structure Ok (s : JobLoop ι α C) : Prop where
  owned : s.regs.Owned
  examined : s.regs.Examined
  hand : s.regs.HandTaken
  nodes : ∀ a, s.NodeOk a
  threads : ∀ o, s.ThreadOk o
  callers : ∀ i, s.CallerOk i
  arcs : ∀ a i cb, s.uses a = .job i cb → s.arcs a = s.shares i a
  order : s.taken = s.due.map Prod.fst ++ s.handJobs
  batch : s.BatchOk
  made : ∀ i, s.swapped.filter (s.isMaker i) ++ s.unswapped i = s.made i
  makers : ∀ i a, a ∈ s.made i ↔ s.isMaker i a = true
  returned : ∀ a, s.returned a = true → s.isJob a = true ∧ a ∈ s.regs.polling.queue.enqueued

end JobLoop

open JobLoop

/-! ## The words on the way -/

section Words

theorem owes_set : owes madeWord setWord = false := by decide

theorem set_positions : setWord.tokenWritePos = 0 ∧ setWord.nextTokenPos = some 1 := by decide

theorem owes_queued : owes setWord queuedWord = true := by decide

theorem queued_polled : queuedWord.isDropped = false ∧ queuedWord.isQueued = true ∧
    queuedWord.effectiveReadiness.isEmpty = false ∧ pushedWord.isQueued = false ∧
    pushedWord.tokenReadPos = 1 := by decide

theorem dropped_word : droppedWord.isDropped = true ∧ droppedWord.flagAsDropped = droppedWord := by
  decide

theorem unqueued_words : madeWord.isQueued = false ∧ setWord.isQueued = false := by decide

end Words

section Making
variable [DecidableEq ι] [DecidableEq α] {s s' : JobLoop ι α C} {i : ι} {a : α} {cb : C}
  {regs : Registrations (Option ι) α (Closure α C)}

theorem JobLoop.Making.threadStep (h : s.Making i a cb) (hs : s.regs.threadStep (some i) = some regs) :
    ({ s with regs := regs } : JobLoop ι α C).Making i a cb := by
  have hgoto : ∀ (t : Registrations (Option ι) α (Closure α C)) (node : Node (Closure α C))
      (pc : Thread α (Closure α C)), ((t.setNode a node).goto (some i) pc).threads (some i) = pc ∧
        ((t.setNode a node).goto (some i) pc).nodes a = node :=
    fun t node pc => ⟨Function.update_self .., Function.update_self ..⟩
  have hstore : ∀ (t : Registrations (Option ι) α (Closure α C)) (next : ReadinessState)
      (pc : Thread α (Closure α C)),
      ((t.store a next).goto (some i) pc).threads (some i) = pc ∧
        ((t.store a next).goto (some i) pc).nodes a = { t.nodes a with state := next } ∧
        ((t.store a next).goto (some i) pc).polling = t.polling := by
    intro t next pc
    unfold Registrations.store
    dsimp only
    split <;> exact ⟨Function.update_self .., Function.update_self .., rfl⟩
  unfold JobLoop.Making at h ⊢
  dsimp only
  generalize s.callers i = c at h ⊢
  generalize hn : s.regs.nodes a = n at h
  generalize ht : s.regs.threads (some i) = t at h
  generalize ho : (s.regs.polling.queue.producers (some i)).owed = o at h
  generalize s.associated a = b at h ⊢
  have hword : s.regs.word a = n.state := congrArg Node.state hn
  unfold Registrations.threadStep at hs
  cases h with
  | setLoad =>
    simp only [ht, hword] at hs
    obtain rfl := Option.some.inj hs
    have htry : (trySet a .readable madeWord : Thread α (Closure α C)) =
        .setExchange a .readable madeWord := if_neg (by decide)
    show MakingAt a cb _ (Function.update s.regs.threads (some i) (trySet a .readable madeWord) (some i))
      _ (s.regs.nodes a) b
    rw [Function.update_self, hn, htry]
    exact .setExchange _ b
  | setExchange =>
    have hsame : (jobNode madeWord false false none : Node (Closure α C)).state = madeWord := rfl
    have howes : owes madeWord (madeWord.afterSetReadiness .readable) = false := owes_set
    simp only [ht, hword, hsame, if_true, howes, Bool.false_eq_true, if_false] at hs
    obtain rfl := Option.some.inj hs
    obtain ⟨hthread, hnode, hpolling⟩ := hstore s.regs (madeWord.afterSetReadiness .readable) .idle
    rw [hthread, hnode, hn]
    exact .set _ _ b (.inl rfl)
  | set => simp [ht] at hs
  | lock =>
    simp only [ht, hn, jobNode, Bool.false_eq_true, if_false] at hs
    obtain rfl := Option.some.inj hs
    obtain ⟨hthread, hnode⟩ := hgoto s.regs _ (.updateLoad a (jobUpdate a cb))
    rw [hthread, hnode]
    exact .load _
  | load =>
    have htoken : (jobNode setWord false true none : Node (Closure α C)).token 0 =
        some ⟨.tokenEvent, ⟨0⟩⟩ := rfl
    have hne : (jobUpdate a cb).token ≠ ⟨.tokenEvent, ⟨0⟩⟩ := by simp [jobUpdate]
    have hstate : (jobNode setWord false true none : Node (Closure α C)).state = setWord := rfl
    simp only [ht, hword, hn, hstate, set_positions.1, set_positions.2, htoken, if_neg hne] at hs
    obtain rfl := Option.some.inj hs
    show MakingAt a cb _ (Function.update s.regs.threads (some i) _ (some i)) _ (s.regs.nodes a) true
    rw [Function.update_self, hn]
    exact .token _
  | token =>
    have hstored : (jobNode setWord false true none : Node (Closure α C)).storeToken 1
        (jobUpdate a cb).token = some (jobNode setWord true true none) := rfl
    simp only [ht, hn, hstored] at hs
    obtain rfl := Option.some.inj hs
    obtain ⟨hthread, hnode⟩ := hgoto s.regs (jobNode setWord true true none)
      (.updateExchange a (jobUpdate a cb) setWord 1)
    rw [hthread, hnode]
    exact .exchange _
  | exchange =>
    have hstate : (jobNode setWord true true none : Node (Closure α C)).state = setWord := rfl
    have howes : owes setWord (setWord.afterUpdate 1 (jobUpdate a cb).interest (jobUpdate a cb).opt) =
        true := owes_queued
    simp only [ht, hword, hstate, if_true, howes] at hs
    obtain rfl := Option.some.inj hs
    obtain ⟨hthread, hnode, hpolling⟩ := hstore s.regs
      (setWord.afterUpdate 1 (jobUpdate a cb).interest (jobUpdate a cb).opt)
      (.updateUnlock a (jobUpdate a cb) true)
    rw [hthread, hnode, hn]
    exact .unlock _
  | unlock =>
    simp only [ht, if_true] at hs
    obtain rfl := Option.some.inj hs
    obtain ⟨hthread, hnode⟩ := hgoto s.regs { s.regs.nodes a with updateLock := false }
      (.updateJob a (jobUpdate a cb))
    rw [hthread, hnode, hn]
    exact .job _
  | job =>
    simp only [ht] at hs
    obtain rfl := Option.some.inj hs
    obtain ⟨hthread, hnode⟩ := hgoto s.regs { s.regs.nodes a with job := (jobUpdate a cb).job }
      (.enqueue a)
    rw [hthread, hnode, hn]
    exact .enqueue _
  | enqueue =>
    simp only [ht] at hs
    obtain ⟨p, hp, rfl⟩ := Option.map_eq_some_iff.mp hs
    obtain ⟨q, hq, rfl⟩ := Option.map_eq_some_iff.mp hp
    simp only [queueStep] at hq
    split at hq
    · obtain rfl := Option.some.inj hq
      show MakingAt a cb _ (Function.update s.regs.threads (some i) .idle (some i))
        (Function.update s.regs.polling.queue.producers (some i) (.enqueue a .start) (some i)).owed
        (s.regs.nodes a) true
      rw [Function.update_self, Function.update_self, hn]
      exact .enqueuer
    · cases hq
  | enqueuer => simp [ht] at hs

end Making

/-! ## What stays -/

section Same
variable [DecidableEq ι] [DecidableEq α] {s s' : JobLoop ι α C} {i : ι} {o : Option ι} {a : α} {cb : C}

/-- A node is as it was. -/
structure NodeSame (s s' : JobLoop ι α C) (a : α) : Prop where
  uses : s'.uses a = s.uses a
  associated : s'.associated a = s.associated a
  node : s'.regs.nodes a = s.regs.nodes a
  enqueued : a ∈ s'.regs.polling.queue.enqueued ↔ a ∈ s.regs.polling.queue.enqueued

/-- A thread is where it was. -/
structure ThreadSame (s s' : JobLoop ι α C) (o : Option ι) : Prop where
  thread : s'.regs.threads o = s.regs.threads o
  owed : (s'.regs.polling.queue.producers o).owed = (s.regs.polling.queue.producers o).owed

/-- Whoever enqueues a job with its node is still at it. -/
def StillMaking (s s' : JobLoop ι α C) (i : ι) (a : α) : Prop :=
  ∀ cb, s.uses a = .job i cb → s.Making i a cb → a ∉ s.regs.polling.queue.enqueued →
    s'.Making i a cb ∧ a ∉ s'.regs.polling.queue.enqueued

omit [DecidableEq ι] [DecidableEq α] in
theorem stillMaking (hn : NodeSame s s' a) (ht : ThreadSame s s' (some i))
    (hc : s'.callers i = s.callers i) : StillMaking s s' i a := by
  intro cb _ hm hnot
  refine ⟨?_, fun he => hnot (hn.enqueued.mp he)⟩
  unfold JobLoop.Making at *
  rw [hc, ht.thread, ht.owed, hn.node, hn.associated]
  exact hm

omit [DecidableEq ι] [DecidableEq α] in
theorem JobLoop.NodeOk.same (h : s.NodeOk a) (hn : NodeSame s s' a)
    (hhold : s'.regs.hold = s.regs.hold ∨ s.regs.hold.node ≠ some a ∧ s'.regs.hold.node ≠ some a)
    (hdue : a ∈ s'.due.map Prod.fst ↔ a ∈ s.due.map Prod.fst)
    (huncleared : s.regs.hold = .clear a → a ∈ (s.uncleared.flatMap ran).map Prod.fst →
      a ∈ (s'.uncleared.flatMap ran).map Prod.fst)
    (hmaking : ∀ i, StillMaking s s' i a) : s'.NodeOk a := by
  have hnode : s.regs.hold.node ≠ some a → s'.regs.hold.node ≠ some a := by
    rcases hhold with he | ⟨-, hn'⟩
    · rw [he]
      exact id
    · exact fun _ => hn'
  have hsame : s.regs.hold.node = some a → s'.regs.hold = s.regs.hold := fun he =>
    hhold.resolve_right fun hno => hno.1 he
  unfold JobLoop.NodeOk at *
  rw [hn.uses]
  cases huses : s.uses a with
  | unmade =>
    rw [huses] at h
    exact ⟨hn.node.trans h.1, fun he => h.2.1 (hn.enqueued.mp he), hnode h.2.2⟩
  | other =>
    rw [huses] at h
    exact ⟨hn.associated.trans h.1, (congrArg (fun n => capture (Node.job n)) hn.node).trans h.2⟩
  | job i cb =>
    rw [huses] at h
    refine ⟨fun he => hn.associated.trans (h.1 (hn.enqueued.mp he)), ?_⟩
    cases h.2 with
    | making hm hnot hh =>
      obtain ⟨hm', hnot'⟩ := hmaking i cb huses hm hnot
      exact .making hm' hnot' (hnode hh)
    | queued he hh hnode' hd =>
      exact .queued (hn.enqueued.mpr he) (hnode hh) (hn.node.trans hnode') fun hd' => hd (hdue.mp hd')
    | taken event he htoken hh hnode' hd =>
      have hon : s.regs.hold.node = some a := by
        rcases hh with hh | hh <;> rw [hh] <;> rfl
      exact .taken event (hn.enqueued.mpr he) htoken (by rw [hsame hon]; exact hh)
        (hn.node.trans hnode') fun hd' => hd (hdue.mp hd')
    | pushed he hh hnode' hd hu =>
      have hon : s.regs.hold.node = some a := by
        rw [hh]
        rfl
      exact .pushed (hn.enqueued.mpr he) ((hsame hon).trans hh) (hn.node.trans hnode') (hdue.mpr hd)
        (huncleared hh hu)
    | delivered he hh hnode' hd =>
      exact .delivered (hn.enqueued.mpr he) (hnode hh) (by rw [hn.node]; exact hnode') (hdue.mpr hd)

omit [DecidableEq ι] [DecidableEq α] in
theorem JobLoop.Minds.same {d d' : Prop} (h : s.Minds o a d) (huses : s'.uses a = s.uses a)
    (hupdate : ∀ u, (s'.regs.threads o).update? = some u → (s.regs.threads o).update? = some u)
    (harcs : s.arcs a = 0 → s'.arcs a = 0) (hmaking : ∀ i, o = some i → StillMaking s s' i a)
    (hd : d → d') : s'.Minds o a d' := by
  cases h with
  | other hu hfree => exact .other (huses.trans hu) fun u hu' => hfree u (hupdate u hu')
  | making i cb ho hu hm hnot =>
    obtain ⟨hm', hnot'⟩ := hmaking i ho cb hu hm hnot
    exact .making i cb ho (huses.trans hu) hm' hnot'
  | dropping i cb hu ha hdrop => exact .dropping i cb (huses.trans hu) (harcs ha) (hd hdrop)

omit [DecidableEq ι] [DecidableEq α] in
theorem JobLoop.ThreadOk.same (h : s.ThreadOk o) (ht : ThreadSame s s' o)
    (huses : ∀ a, s.uses a ≠ .unmade → s'.uses a = s.uses a)
    (harcs : ∀ a, s.uses a ≠ .unmade → s.arcs a = 0 → s'.arcs a = 0)
    (hmaking : ∀ i a, o = some i → StillMaking s s' i a) : s'.ThreadOk o := by
  have hmade : ∀ a d, s.Minds o a d → s.uses a ≠ .unmade := by
    intro a d hm hu
    cases hm with
    | other hu' => cases hu.symm.trans hu'
    | making i cb _ hu' => cases hu.symm.trans hu'
    | dropping i cb hu' => cases hu.symm.trans hu'
  have hupdate : ∀ u, (s'.regs.threads o).update? = some u → (s.regs.threads o).update? = some u := by
    rw [ht.thread]
    exact fun _ => id
  refine ⟨fun a ha => ?_, fun a ha => ?_⟩
  · rw [ht.thread] at ha ⊢
    have hm := h.thread a ha
    exact hm.same (huses a (hmade a _ hm)) hupdate (harcs a (hmade a _ hm)) (fun i ho => hmaking i a ho) id
  · rw [ht.owed] at ha
    have hm := h.producer a ha
    exact hm.same (huses a (hmade a _ hm)) hupdate (harcs a (hmade a _ hm)) (fun i ho => hmaking i a ho) id

omit [DecidableEq ι] [DecidableEq α] in
theorem JobLoop.CallerOk.same (h : s.CallerOk i) (hc : s'.callers i = s.callers i)
    (huses : ∀ a, s.uses a ≠ .unmade → s'.uses a = s.uses a)
    (henqueued : ∀ a ∈ s.regs.polling.queue.enqueued, a ∈ s'.regs.polling.queue.enqueued)
    (hmaking : ∀ a cb, s.uses a = .job i cb → s.Making i a cb → a ∉ s.regs.polling.queue.enqueued →
      s'.Making i a cb ∧ a ∉ s'.regs.polling.queue.enqueued ∨
        a ∈ s'.regs.polling.queue.enqueued ∧ s.callers i = .registering a cb) : s'.CallerOk i := by
  have hjob : ∀ {a cb}, s.uses a = .job i cb → s'.uses a = .job i cb := fun {a cb} hu =>
    (huses a (by rw [hu]; simp)).trans hu
  have hearly : ∀ {a cb}, s.callers i ≠ .registering a cb → s.uses a = .job i cb ∧ s.Making i a cb ∧
      a ∉ s.regs.polling.queue.enqueued → s'.uses a = .job i cb ∧ s'.Making i a cb ∧
        a ∉ s'.regs.polling.queue.enqueued := by
    rintro a cb hne ⟨hu, hm, hnot⟩
    rcases hmaking a cb hu hm hnot with hm' | ⟨-, hreg⟩
    · exact ⟨hjob hu, hm'⟩
    · exact absurd hreg hne
  unfold JobLoop.CallerOk at *
  rw [hc]
  cases hi : s.callers i with
  | idle => exact trivial
  | setting a cb | loading a cb | associating a cb =>
    rw [hi] at h
    exact hearly (by rw [hi]; simp) h
  | registering a cb =>
    rw [hi] at h
    refine ⟨hjob h.1, ?_⟩
    rcases h.2 with ⟨hm, hnot⟩ | he
    · rcases hmaking a cb h.1 hm hnot with hm' | ⟨he, -⟩
      · exact .inl hm'
      · exact .inr he
    · exact .inr (henqueued a he)
  | dropping a =>
    rw [hi] at h
    obtain ⟨⟨cb, hu⟩, he⟩ := h
    exact ⟨⟨cb, hjob hu⟩, henqueued a he⟩

/-- Everything but the threads and the nodes is as it was. -/
structure Still (s s' : JobLoop ι α C) : Prop where
  uses : s'.uses = s.uses
  arcs : s'.arcs = s.arcs
  callers : ∀ i, (s'.callers i).node = (s.callers i).node
  hold : s'.regs.hold = s.regs.hold
  pushed : s'.regs.pushed = s.regs.pushed
  enqueued : s'.regs.polling.queue.enqueued = s.regs.polling.queue.enqueued
  taken : s'.regs.polling.queue.taken = s.regs.polling.queue.taken
  holding : s'.regs.holding = s.regs.holding
  inHand : s'.regs.inHand = s.regs.inHand
  poller : s'.regs.polling.poller = s.regs.polling.poller ∨ s.phase = .polling ∧
    (s'.regs.polling.poller.early = true → s.regs.polling.poller.early = true)
  phase : s'.phase = s.phase
  selected : s'.selected = s.selected
  base : s'.base = s.base
  called : s'.called = s.called
  returned : s'.returned = s.returned
  made : s'.made = s.made

section Still
variable (h : Still s s')
include h

omit [DecidableEq ι] [DecidableEq α] in
theorem Still.due_eq : s'.due = s.due := by
  unfold JobLoop.due
  rw [h.pushed]

omit [DecidableEq ι] [DecidableEq α] in
theorem Still.events_eq : s'.events = s.events := by
  unfold JobLoop.events
  rw [h.pushed, h.selected, h.base]

omit [DecidableEq ι] [DecidableEq α] in
theorem Still.uncalled_eq : s'.uncalled = s.uncalled := by
  unfold JobLoop.uncalled
  rw [h.phase, h.events_eq]

omit [DecidableEq ι] [DecidableEq α] in
theorem Still.uncleared_eq : s'.uncleared = s.uncleared := by
  unfold JobLoop.uncleared
  rw [h.phase, h.events_eq]

omit [DecidableEq ι] [DecidableEq α] in
theorem Still.isJob_eq : s'.isJob = s.isJob := by
  funext a
  unfold JobLoop.isJob
  rw [h.uses]

omit [DecidableEq α] in
theorem Still.isMaker_eq (i : ι) : s'.isMaker i = s.isMaker i := by
  funext a
  unfold JobLoop.isMaker
  rw [h.uses]

omit [DecidableEq ι] [DecidableEq α] in
theorem Still.batch (hb : s.BatchOk) : s'.BatchOk where
  base := by
    rw [h.base, h.pushed]
    exact hb.base
  poller := by
    rw [h.phase]
    rcases h.poller with hp | ⟨hp, -⟩
    · rw [hp]
      exact hb.poller
    · exact .inl hp
  early := by
    rw [h.base, h.pushed, h.uncalled_eq]
    rcases h.poller with hp | ⟨-, hp⟩
    · rw [hp]
      exact hb.early
    · exact fun he => hb.early (hp he)
  count := by
    rw [h.phase, h.events_eq]
    exact hb.count
  calls := by
    rw [h.called, h.uncalled_eq, h.due_eq]
    exact hb.calls
  entries := by
    rw [h.pushed]
    exact hb.entries
  due := by
    rw [h.due_eq, h.uses]
    exact hb.due

/-- Only the threads and the nodes have to be looked at. -/
theorem Still.ok (hs : s.Ok) (howned : s'.regs.Owned) (hnodes : ∀ a, s'.NodeOk a)
    (hthreads : ∀ o, s'.ThreadOk o) (hcallers : ∀ i, s'.CallerOk i) : s'.Ok where
  owned := howned
  examined := by
    unfold Examined
    rw [h.hold]
    exact hs.examined
  hand := by
    unfold HandTaken
    rw [h.holding, h.taken]
    exact hs.hand
  nodes := hnodes
  threads := hthreads
  callers := hcallers
  arcs := by
    unfold JobLoop.shares
    rw [h.uses, h.arcs, h.due_eq, h.uncleared_eq]
    intro a i cb hu
    rw [h.callers i]
    exact hs.arcs a i cb hu
  order := by
    unfold JobLoop.taken JobLoop.handJobs
    rw [h.taken, h.due_eq, h.inHand, h.isJob_eq]
    exact hs.order
  batch := h.batch hs.batch
  made := by
    unfold JobLoop.swapped JobLoop.unswapped
    rw [h.enqueued, h.isJob_eq, h.made]
    intro i
    rw [h.isMaker_eq, h.callers i]
    exact hs.made i
  makers := by
    rw [h.made]
    intro i
    rw [h.isMaker_eq]
    exact hs.makers i
  returned := by
    rw [h.returned, h.isJob_eq, h.enqueued]
    exact hs.returned

end Still

end Same

/-! ## What follows from the invariant -/

section Facts
variable [DecidableEq ι] [DecidableEq α] {s : JobLoop ι α C} {i : ι} {o : Option ι} {a : α} {cb : C}

omit [DecidableEq ι] [DecidableEq α] in
theorem isJob_of_uses (h : s.uses a = .job i cb) : s.isJob a = true := by
  unfold JobLoop.isJob
  rw [h]

theorem JobLoop.Ok.enqueued_of_taken (h : s.Ok) (ha : a ∈ s.regs.polling.queue.taken) :
    a ∈ s.regs.polling.queue.enqueued := by
  obtain ⟨nodes, hsound⟩ := h.owned.sound
  exact hsound.taken_subset ha

theorem JobLoop.Ok.taken_of_due (h : s.Ok) (ha : a ∈ s.due.map Prod.fst) :
    a ∈ s.regs.polling.queue.taken := by
  have hmem : a ∈ s.taken := by
    rw [h.order]
    exact List.mem_append_left _ ha
  exact (List.mem_filter.mp (List.mem_eraseDups.mp hmem)).1

theorem JobLoop.Ok.enqueued_of_due (h : s.Ok) (ha : a ∈ s.due.map Prod.fst) :
    a ∈ s.regs.polling.queue.enqueued :=
  h.enqueued_of_taken (h.taken_of_due ha)

theorem JobLoop.Ok.arcs_pos (h : s.Ok) (hu : s.uses a = .job i cb) (ha : a ∉ s.due.map Prod.fst) :
    s.arcs a ≠ 0 := by
  rw [h.arcs a i cb hu]
  unfold JobLoop.shares
  rw [if_pos (c := _ ∨ _) (.inl ha)]
  omega

/-- The registration of a node is gone only once its entry of the batch is. -/
theorem JobLoop.Ok.journey_of_arcs (h : s.Ok) (hu : s.uses a = .job i cb) (ha : s.arcs a = 0) :
    a ∈ s.regs.polling.queue.enqueued ∧ s.regs.hold.node ≠ some a ∧ a ∈ s.due.map Prod.fst ∧
      (s.regs.nodes a = jobNode pushedWord true false none ∨
        s.regs.nodes a = jobNode droppedWord true false none) := by
  have hdue : a ∈ s.due.map Prod.fst := by
    by_contra hno
    exact h.arcs_pos hu hno ha
  have hnode := h.nodes a
  unfold JobLoop.NodeOk at hnode
  rw [hu] at hnode
  cases hnode.2 with
  | making _ hnot _ => exact absurd (h.enqueued_of_due hdue) hnot
  | queued _ _ _ hd => exact absurd hdue hd
  | taken _ _ _ _ _ hd => exact absurd hdue hd
  | pushed _ _ _ _ hu' =>
    have hshares := h.arcs a i cb hu
    unfold JobLoop.shares at hshares
    rw [if_pos (c := _ ∨ _) (.inr hu')] at hshares
    omega
  | delivered he hh hnode' hd => exact ⟨he, hh, hd, hnode'⟩

/-- A thread that has to do with the node of a job not in the queue yet is the one that enqueues it. -/
theorem JobLoop.Minds.maker {d : Prop} (hm : s.Minds o a d) (h : s.Ok) (hu : s.uses a = .job i cb)
    (hnot : a ∉ s.regs.polling.queue.enqueued) : o = some i := by
  cases hm with
  | other hu' => cases hu.symm.trans hu'
  | making j cb' ho hu' =>
    obtain ⟨rfl, rfl⟩ := NodeUse.job.inj (hu.symm.trans hu')
    exact ho
  | dropping j cb' hu' ha => exact absurd (h.journey_of_arcs hu ha).1 hnot

omit [DecidableEq ι] [DecidableEq α] in
theorem JobLoop.Making.node (h : s.Making i a cb) :
    (s.regs.threads (some i)).node = some a ∨ s.regs.threads (some i) = .idle := by
  unfold JobLoop.Making at h
  generalize s.callers i = c at h
  generalize s.regs.nodes a = n at h
  generalize s.regs.threads (some i) = t at h ⊢
  generalize (s.regs.polling.queue.producers (some i)).owed = o at h
  generalize s.associated a = b at h
  cases h with
  | set | enqueuer => exact .inr rfl
  | _ => exact .inl rfl

end Facts

/-! ## The accesses of the threads -/

section Threads
variable [DecidableEq ι] [DecidableEq α] {s s' : JobLoop ι α C} {i : ι} {o : Option ι} {a : α} {cb : C}
  {regs : Registrations (Option ι) α (Closure α C)}

theorem dropping_step (hs : s.regs.threadStep o = some regs)
    (hd : s.regs.threads o = .dropOr a ∨ s.regs.threads o = .enqueue a) :
    (regs.threads o = .idle ∨ regs.threads o = .enqueue a) ∧
      (regs.nodes a = s.regs.nodes a ∨
        regs.nodes a = { s.regs.nodes a with state := (s.regs.word a).flagAsDropped }) := by
  unfold Registrations.threadStep at hs
  rcases hd with hd | hd
  · simp only [hd] at hs
    obtain rfl := Option.some.inj hs
    refine ⟨?_, .inr (Function.update_self ..)⟩
    show Function.update s.regs.threads o _ o = _ ∨ Function.update s.regs.threads o _ o = _
    rw [Function.update_self]
    cases (s.regs.word a).isQueued with
    | true => exact .inl rfl
    | false => exact .inr rfl
  · simp only [hd] at hs
    obtain ⟨p, -, rfl⟩ := Option.map_eq_some_iff.mp hs
    exact ⟨.inl (Function.update_self ..), .inl rfl⟩

omit [DecidableEq α] in
theorem threadFrame_still (hf : ThreadFrame s.regs regs o) : Still s { s with regs := regs } := by
  have hqueue : regs.polling.queue.enqueued = s.regs.polling.queue.enqueued ∧
      regs.polling.queue.dequeued = s.regs.polling.queue.dequeued ∧
      regs.polling.queue.consumer = s.regs.polling.queue.consumer ∧
      regs.polling.poller = s.regs.polling.poller := by
    rcases hf.polling with hp | ⟨b, -, -, -, hp⟩ <;> rw [hp] <;> exact ⟨rfl, rfl, rfl, rfl⟩
  obtain ⟨henqueued, hdequeued, hconsumer, hpoller⟩ := hqueue
  exact ⟨rfl, rfl, fun _ => rfl, hf.hold, hf.pushed, henqueued, taken_congr hdequeued,
    holding_congr hconsumer hpoller hf.hold, inHand_congr hf.hold hconsumer hpoller, .inl hpoller, rfl,
    rfl, rfl, rfl, rfl, rfl⟩

theorem JobLoop.Ok.threadRegs (h : s.Ok) (hs : s.regs.threadStep o = some regs) :
    ({ s with regs := regs } : JobLoop ι α C).Ok := by
  have hf := threadStep_frame hs
  have hstill := threadFrame_still hf
  obtain ⟨b, hb⟩ : ∃ b, (s.regs.threads o).node = some b := by
    cases ho : s.regs.threads o with
    | idle => simp [Registrations.threadStep, ho] at hs
    | _ => exact ⟨_, rfl⟩
  have hminds := (h.threads o).thread b hb
  have hproducers : ∀ o', o' ≠ o →
      regs.polling.queue.producers o' = s.regs.polling.queue.producers o' := by
    intro o' ho'
    rcases hf.polling with hp | ⟨c, -, -, -, hp⟩ <;> rw [hp]
    exact Function.update_of_ne ho' ..
  have hothers : ∀ o', o' ≠ o → ThreadSame s { s with regs := regs } o' := fun o' ho' =>
    ⟨hf.threads o' ho', congrArg Producer.owed (hproducers o' ho')⟩
  have henqueued : ∀ a, a ∈ regs.polling.queue.enqueued ↔ a ∈ s.regs.polling.queue.enqueued :=
    fun a => by rw [hstill.enqueued]
  have hnodes : ∀ a, a ≠ b → NodeSame s { s with regs := regs } a := fun a ha =>
    ⟨rfl, rfl, hf.nodes a fun he => ha (Option.some.inj (he.symm.trans hb)), henqueued a⟩
  have hmaking : ∀ i a, StillMaking s { s with regs := regs } i a := by
    intro i a cb hu hm hnot
    by_cases hab : a = b
    · subst hab
      obtain rfl := hminds.maker h hu hnot
      exact ⟨hm.threadStep hs, fun he => hnot ((henqueued a).mp he)⟩
    · refine stillMaking (hnodes a hab) (hothers _ fun ho => ?_) rfl cb hu hm hnot
      subst ho
      rcases hm.node with hn | hn
      · exact hab (Option.some.inj (hn.symm.trans hb))
      · rw [hn] at hb
        cases hb
  have hnew : ∀ d : Prop, (s.regs.threads o = .dropOr b ∨ s.regs.threads o = .enqueue b → d) →
      JobLoop.Minds { s with regs := regs } o b d := fun d hd =>
    hminds.same rfl (fun u hu => threadStep_update hs hu) id (fun i _ => hmaking i b) hd
  refine hstill.ok h (h.owned.threadStep hs) (fun a => ?_) (fun o' => ?_) fun i => ?_
  · by_cases hab : a = b
    · subst hab
      cases hminds with
      | other hu hfree =>
        have hnode := h.nodes a
        unfold JobLoop.NodeOk at hnode ⊢
        rw [hu] at hnode
        rw [show ({ s with regs := regs } : JobLoop ι α C).uses a = .other from hu]
        refine ⟨hnode.1, ?_⟩
        rcases threadStep_job hs a with hj | ⟨u, hu', hj⟩
        · exact (congrArg capture hj).trans hnode.2
        · exact (congrArg capture hj).trans (hfree u hu')
      | making i cb ho hu hm hnot =>
        have hnode := h.nodes a
        unfold JobLoop.NodeOk at hnode ⊢
        rw [hu] at hnode
        rw [show ({ s with regs := regs } : JobLoop ι α C).uses a = .job i cb from hu]
        obtain ⟨hm', hnot'⟩ := hmaking i a cb hu hm hnot
        have hhold : s.regs.hold.node ≠ some a := by
          cases hnode.2 with
          | making _ _ hh => exact hh
          | queued he => exact absurd he hnot
          | taken _ he => exact absurd he hnot
          | pushed he => exact absurd he hnot
          | delivered he => exact absurd he hnot
        exact ⟨fun he => absurd he hnot', .making hm' hnot' (by rw [hstill.hold]; exact hhold)⟩
      | dropping i cb hu harcs hd =>
        obtain ⟨he, hh, hdue, hnode⟩ := h.journey_of_arcs hu harcs
        have hnodeOk := h.nodes a
        unfold JobLoop.NodeOk at hnodeOk ⊢
        rw [hu] at hnodeOk
        rw [show ({ s with regs := regs } : JobLoop ι α C).uses a = .job i cb from hu]
        refine ⟨fun _ => hnodeOk.1 he, .delivered ((henqueued a).mpr he) (by rw [hstill.hold]; exact hh) ?_
          (by rw [hstill.due_eq]; exact hdue)⟩
        rcases (dropping_step hs hd).2 with hsame | hflag
        · rw [hsame]
          exact hnode
        · refine .inr (hflag.trans ?_)
          unfold Registrations.word
          rcases hnode with hn | hn
          · rw [hn]
            rfl
          · rw [hn]
            show jobNode droppedWord.flagAsDropped true false none = _
            rw [dropped_word.2]
    · exact (h.nodes a).same (hnodes a hab) (.inl hstill.hold) (by rw [hstill.due_eq])
        (by rw [hstill.uncleared_eq]; exact fun _ => id) fun i => hmaking i a
  · by_cases ho' : o' = o
    · subst ho'
      refine ⟨fun a ha => ?_, fun a ha => ?_⟩
      · obtain rfl : b = a := Option.some.inj (hb.symm.trans (hf.node a ha))
        refine hnew _ fun hd => ?_
        rcases (dropping_step hs hd).1 with hidle | hon
        · rw [show ({ s with regs := regs } : JobLoop ι α C).regs.threads o' = .idle from hidle] at ha
          cases ha
        · exact .inr hon
      · rcases hf.polling with hp | ⟨c, hc, -, -, hp⟩
        · rw [show ({ s with regs := regs } : JobLoop ι α C).regs.polling = s.regs.polling from hp] at ha
          exact ((h.threads o').producer a ha).same rfl (fun u hu => threadStep_update hs hu) id
            (fun i _ => hmaking i a) id
        · obtain rfl : b = c := by
            rw [hc] at hb
            exact (Option.some.inj hb).symm
          change (regs.polling.queue.producers o').owed = some a at ha
          rw [hp] at ha
          dsimp only at ha
          rw [Function.update_self] at ha
          obtain rfl := Option.some.inj ha
          exact hnew True fun _ => trivial
    · exact (h.threads o').same (hothers o' ho') (fun _ _ => rfl) (fun _ _ => id)
        fun i a _ => hmaking i a
  · exact (h.callers i).same rfl (fun _ _ => rfl) (fun a ha => (henqueued a).mpr ha)
      fun a cb hu hm hnot => .inl (hmaking i a cb hu hm hnot)

/-- A step of a thread outside `enqueue_node`: a node it enqueues is associated, and it drops no closure
of a job. -/
theorem JobLoop.Ok.threadStep (h : s.Ok) (hs : s.threadStep o = some s') : s'.Ok := by
  have hassociated : ∀ a, s.regs.threads o = .enqueue a → s.associated a = true := by
    intro a ha
    have hnode := h.nodes a
    unfold JobLoop.NodeOk at hnode
    cases (h.threads o).thread a (by rw [ha]; rfl) with
    | other hu =>
      rw [hu] at hnode
      exact hnode.1
    | making i cb ho hu hm =>
      subst ho
      unfold JobLoop.Making at hm
      rw [ha] at hm
      generalize s.callers i = c at hm
      generalize s.regs.nodes a = n at hm
      generalize (s.regs.polling.queue.producers (some i)).owed = o at hm
      generalize s.associated a = b at hm ⊢
      cases hm
      rfl
    | dropping i cb hu harcs =>
      rw [hu] at hnode
      exact hnode.1 (h.journey_of_arcs hu harcs).1
  have hunstored : capture (s.unstored o) = none := by
    have hminds := (h.threads o).thread
    unfold JobLoop.unstored
    cases ho : s.regs.threads o with
    | updateLock a u =>
      dsimp only
      split
      · rename_i hlock
        cases hminds a (by rw [ho]; rfl) with
        | other hu hfree => exact hfree u (by rw [ho]; rfl)
        | making i cb ho' hu hm =>
          subst ho'
          unfold JobLoop.Making at hm
          rw [ho] at hm
          generalize s.callers i = c at hm
          generalize s.regs.nodes a = n at hm hlock
          generalize (s.regs.polling.queue.producers (some i)).owed = o at hm
          generalize s.associated a = b at hm
          cases hm
          cases hlock
        | dropping i cb hu harcs hd =>
          rcases hd with hd | hd <;> cases ho.symm.trans hd
      · rfl
    | updateUnlock a u enqueues =>
      cases enqueues with
      | true => rfl
      | false =>
        cases hminds a (by rw [ho]; rfl) with
        | other hu hfree => exact hfree u (by rw [ho]; rfl)
        | making i cb ho' hu hm =>
          subst ho'
          unfold JobLoop.Making at hm
          rw [ho] at hm
          generalize s.callers i = c at hm
          generalize s.regs.nodes a = n at hm
          generalize (s.regs.polling.queue.producers (some i)).owed = o at hm
          generalize s.associated a = b at hm
          cases hm
        | dropping i cb hu harcs hd =>
          rcases hd with hd | hd <;> cases ho.symm.trans hd
    | _ => rfl
  unfold JobLoop.threadStep at hs
  split at hs
  · rename_i a ha
    rw [if_pos (hassociated a ha)] at hs
    obtain ⟨regs, hregs, rfl⟩ := Option.map_eq_some_iff.mp hs
    exact h.threadRegs hregs
  · obtain ⟨regs, hregs, rfl⟩ := Option.map_eq_some_iff.mp hs
    have hforget : s.forget (s.unstored o) = s.arcs := by
      unfold JobLoop.forget
      rw [hunstored]
    rw [hforget]
    exact h.threadRegs hregs

end Threads

/-! ## The calls -/

section Calls
variable [DecidableEq ι] [DecidableEq α] {s s' : JobLoop ι α C} {i : ι} {o : Option ι} {a : α} {cb : C}

theorem begin_eq {c : NodeCall α (Closure α C)} (hs : s.begin o c = some s') :
    s.regs.threads o = .idle ∧ s.regs.polling.queue.producers o = .idle ∧
      registrationsStep s.regs (.call o c) = some (s.regs.goto o c.enter) ∧
      s' = { s with regs := s.regs.goto o c.enter } := by
  obtain ⟨regs, hregs, rfl⟩ := Option.map_eq_some_iff.mp hs
  have hcopy := hregs
  simp only [registrationsStep] at hcopy
  split at hcopy
  · rename_i hthread hproducer
    obtain rfl := Option.some.inj hcopy
    exact ⟨hthread, hproducer, hregs, rfl⟩
  · cases hcopy

omit [DecidableEq ι] [DecidableEq α] in
theorem JobLoop.Making.caller (h : s.Making i a cb) :
    (s.callers i).node = some a ∧ ∀ pc, s.callers i = pc → pc ≠ .idle := by
  unfold JobLoop.Making at h
  generalize s.callers i = c at h ⊢
  generalize s.regs.nodes a = n at h
  generalize s.regs.threads (some i) = t at h
  generalize (s.regs.polling.queue.producers (some i)).owed = o at h
  generalize s.associated a = b at h
  cases h with
  | set _ _ _ hc => rcases hc with rfl | rfl | rfl <;> exact ⟨rfl, fun pc hpc => hpc ▸ by simp⟩
  | _ => exact ⟨rfl, fun pc hpc => hpc ▸ by simp⟩

theorem JobLoop.Ok.begin (h : s.Ok) {c : NodeCall α (Closure α C)} (hs : s.begin o c = some s')
    (hfree : ∀ i a, o = some i → (s.callers i).node ≠ some a)
    (hminds : s'.Minds o c.node (s'.regs.threads o = .dropOr c.node ∨ s'.regs.threads o = .enqueue c.node)) :
    s'.Ok := by
  obtain ⟨hthread, hproducer, hstep, rfl⟩ := begin_eq hs
  have howned := registrationsStep_owned h.owned hstep
  have hstill : Still s { s with regs := s.regs.goto o c.enter } :=
    ⟨rfl, rfl, fun _ => rfl, rfl, rfl, rfl, rfl, rfl, rfl, .inl rfl, rfl, rfl, rfl, rfl, rfl, rfl⟩
  have hothers : ∀ o', o' ≠ o → ThreadSame s { s with regs := s.regs.goto o c.enter } o' :=
    fun o' ho' => ⟨Function.update_of_ne ho' .., rfl⟩
  have hsame : ∀ a, NodeSame s { s with regs := s.regs.goto o c.enter } a :=
    fun _ => ⟨rfl, rfl, rfl, Iff.rfl⟩
  have hmaking : ∀ i a, StillMaking s { s with regs := s.regs.goto o c.enter } i a := by
    intro i a cb hu hm hnot
    refine stillMaking (hsame a) (hothers _ fun ho => ?_) rfl cb hu hm hnot
    exact hfree i a ho.symm hm.caller.1
  refine hstill.ok h howned (fun a => ?_) (fun o' => ?_) fun i => ?_
  · exact (h.nodes a).same (hsame a) (.inl rfl) Iff.rfl (fun _ => id) fun i => hmaking i a
  · by_cases ho' : o' = o
    · subst ho'
      refine ⟨fun a ha => ?_, fun a ha => ?_⟩
      · have hnode : c.enter.node = some a := by
          change (Function.update s.regs.threads o' c.enter o').node = some a at ha
          rwa [Function.update_self] at ha
        obtain rfl : c.node = a := by
          cases c <;> exact Option.some.inj hnode
        exact hminds
      · change (s.regs.polling.queue.producers o').owed = some a at ha
        rw [hproducer] at ha
        cases ha
    · exact (h.threads o').same (hothers o' ho') (fun _ _ => rfl) (fun _ _ => id)
        fun i a _ => hmaking i a
  · exact (h.callers i).same rfl (fun _ _ => rfl) (fun a => id)
      fun a cb hu hm hnot => .inl (hmaking i a cb hu hm hnot)

theorem JobLoop.Ok.call (h : s.Ok) {c : NodeCall α C} (hidle : s.callers i = .idle)
    (hu : s.uses c.node = .other) (hs : s.begin (some i) c.other = some s') : s'.Ok := by
  have hnode : c.other.node = c.node := by cases c <;> rfl
  refine h.begin hs (fun j a hj => ?_) ?_
  · obtain rfl := Option.some.inj hj
    rw [hidle]
    exact fun he => by cases he
  · obtain ⟨-, -, -, rfl⟩ := begin_eq hs
    refine .other (by rw [hnode]; exact hu) fun u hu' => ?_
    change (Function.update s.regs.threads (some i) c.other.enter (some i)).update? = some u at hu'
    rw [Function.update_self] at hu'
    cases c with
    | update b u₀ =>
      obtain rfl := Option.some.inj hu'
      dsimp only
      cases u₀.job <;> rfl
    | _ => cases hu'

omit [DecidableEq ι] [DecidableEq α] in
theorem inHand_cases {r : Registrations ι α C} (h : r.inHand = some a) :
    r.holding = some a ∨ r.hold.node = some a := by
  unfold Registrations.inHand at h
  split at h
  · rename_i hh
    exact .inr (by rw [hh]; exact h)
  · rename_i hh
    exact .inr (by rw [hh]; exact h)
  · cases h
  · cases h
  · exact .inl h

theorem JobLoop.Ok.enqueueJob (h : s.Ok) (hs : s.enqueueJob i a cb = some s') : s'.Ok := by
  unfold JobLoop.enqueueJob at hs
  split at hs
  · rename_i hidle hunmade
    obtain ⟨hthread, hproducer, hstep, rfl⟩ := begin_eq hs
    have howned := registrationsStep_owned h.owned hstep
    have hnode := h.nodes a
    unfold JobLoop.NodeOk at hnode
    rw [hunmade] at hnode
    obtain ⟨hnew, hnot, hhold⟩ := hnode
    have hdue : a ∉ s.due.map Prod.fst := fun hd => hnot (h.enqueued_of_due hd)
    have hhand : s.regs.inHand ≠ some a := by
      intro he
      rcases inHand_cases he with hh | hh
      · exact hnot (h.enqueued_of_taken (h.hand a hh))
      · exact hhold hh
    generalize hs' : ({ s.gotoCaller i (.setting a cb) with
      uses := Function.update s.uses a (.job i cb)
      arcs := Function.update s.arcs a 2
      made := Function.update s.made i (s.made i ++ [a])
      regs := s.regs.goto (some i) (.setLoad a .readable) } : JobLoop ι α C) = t
    change ({ s.gotoCaller i (.setting a cb) with
      uses := Function.update s.uses a (.job i cb)
      arcs := Function.update s.arcs a 2
      made := Function.update s.made i (s.made i ++ [a])
      regs := s.regs.goto (some i) (.setLoad a .readable) } : JobLoop ι α C).Ok
    rw [hs']
    have huses : ∀ b, b ≠ a → t.uses b = s.uses b := fun b hb => by
      subst hs'
      exact Function.update_of_ne hb ..
    have husea : t.uses a = .job i cb := by
      subst hs'
      exact Function.update_self ..
    have harcs : ∀ b, b ≠ a → t.arcs b = s.arcs b := fun b hb => by
      subst hs'
      exact Function.update_of_ne hb ..
    have hcallers : ∀ j, j ≠ i → t.callers j = s.callers j := fun j hj => by
      subst hs'
      exact Function.update_of_ne hj ..
    have hcaller : t.callers i = .setting a cb := by
      subst hs'
      exact Function.update_self ..
    have hthreads : ∀ o, o ≠ some i → ThreadSame s t o := fun o ho => by
      subst hs'
      exact ⟨Function.update_of_ne ho .., rfl⟩
    have hnodes : t.regs.nodes = s.regs.nodes := by
      subst hs'
      rfl
    have hthreadi : t.regs.threads (some i) = .setLoad a .readable := by
      subst hs'
      exact Function.update_self ..
    have hpolling : t.regs.polling = s.regs.polling := by
      subst hs'
      rfl
    have hne : ∀ b, s.uses b ≠ .unmade → b ≠ a := fun b hb he => hb (he ▸ hunmade)
    have hsame : ∀ b, b ≠ a → NodeSame s t b := fun b hb =>
      ⟨huses b hb, by subst hs'; rfl, by rw [hnodes], by rw [hpolling]⟩
    have hmaking : ∀ j b, StillMaking s t j b := by
      intro j b cb' hu hm hnot'
      have hj : j ≠ i := by
        rintro rfl
        exact hm.caller.2 _ rfl hidle
      refine stillMaking (hsame b (hne b (by rw [hu]; simp))) (hthreads _ fun he => ?_) (hcallers j hj) cb'
        hu hm hnot'
      exact hj (Option.some.inj he)
    have hmake : t.Making i a cb := by
      unfold JobLoop.Making
      rw [hcaller, hthreadi, hnodes, hnew]
      exact .setLoad _ _
    have hjobs : ∀ b, b ≠ a → t.isJob b = s.isJob b := fun b hb => by
      unfold JobLoop.isJob
      rw [huses b hb]
    have hmakers : ∀ j b, b ≠ a → t.isMaker j b = s.isMaker j b := fun j b hb => by
      unfold JobLoop.isMaker
      rw [huses b hb]
    have hjobl : ∀ l : List α, a ∉ l → l.filter t.isJob = l.filter s.isJob := fun l hl =>
      List.filter_congr fun b hb => hjobs b fun he => hl (he ▸ hb)
    have hdue' : t.due = s.due := by
      subst hs'
      rfl
    have hevents : t.uncleared = s.uncleared ∧ t.uncalled = s.uncalled ∧ t.events = s.events := by
      subst hs'
      exact ⟨rfl, rfl, rfl⟩
    refine ⟨?_, ?_, ?_, fun b => ?_, fun o => ?_, fun j => ?_, fun b j cb' hu => ?_, ?_, ?_, fun j => ?_,
      fun j b => ?_, fun b hb => ?_⟩
    · subst hs'
      exact howned
    · subst hs'
      exact h.examined
    · subst hs'
      exact h.hand
    · by_cases hb : b = a
      · subst hb
        unfold JobLoop.NodeOk
        rw [husea]
        rw [← hpolling] at hnot
        refine ⟨fun he => absurd he hnot, .making hmake hnot ?_⟩
        subst hs'
        exact hhold
      · refine (h.nodes b).same (hsame b hb) (.inl ?_) (by rw [hdue']) ?_ fun j => hmaking j b
        · subst hs'
          rfl
        · rw [hevents.1]
          exact fun _ => id
    · by_cases ho : o = some i
      · subst ho
        refine ⟨fun b hb => ?_, fun b hb => ?_⟩
        · rw [hthreadi] at hb
          obtain rfl := Option.some.inj hb
          exact .making i cb rfl husea hmake (by rw [hpolling]; exact hnot)
        · rw [hpolling, show s.regs.polling.queue.producers (some i) = .idle from hproducer] at hb
          cases hb
      · exact (h.threads o).same (hthreads o ho) (fun b hb => huses b (hne b hb))
          (fun b hb ha => (harcs b (hne b hb)).trans ha) fun j b _ => hmaking j b
    · by_cases hj : j = i
      · subst hj
        unfold JobLoop.CallerOk
        rw [hcaller]
        exact ⟨husea, hmake, by rw [hpolling]; exact hnot⟩
      · exact (h.callers j).same (hcallers j hj) (fun b hb => huses b (hne b hb))
          (fun b hb => by rw [hpolling]; exact hb) fun b cb' hu hm hn => .inl (hmaking j b cb' hu hm hn)
    · unfold JobLoop.shares
      rw [hdue', hevents.1]
      by_cases hb : b = a
      · subst hb
        obtain ⟨rfl, rfl⟩ := NodeUse.job.inj (husea.symm.trans hu)
        have hholds : (Caller.setting b cb).node = some b := rfl
        rw [hcaller, if_pos hholds, if_pos (c := _ ∨ _) (.inl hdue)]
        subst hs'
        exact Function.update_self ..
      · rw [harcs b hb, h.arcs b j cb' ((huses b hb).symm.trans hu)]
        unfold JobLoop.shares
        by_cases hj : j = i
        · subst hj
          have hold : (s.callers j).node ≠ some b := by
            rw [hidle]
            exact fun he => by cases he
          have hnew' : (t.callers j).node ≠ some b := by
            rw [hcaller]
            exact fun he => hb (Option.some.inj he).symm
          rw [if_neg hold, if_neg hnew']
        · rw [hcallers j hj]
    · unfold JobLoop.taken JobLoop.handJobs
      have hinHand : t.regs.inHand = s.regs.inHand := by
        subst hs'
        rfl
      rw [hdue', hpolling, hinHand, hjobl _ fun hm => hnot (h.enqueued_of_taken hm)]
      refine h.order.trans (congrArg _ (List.filter_congr fun b hb => ?_))
      rw [hjobs b fun he => hhand (he ▸ (Option.mem_toList.mp hb))]
    · have hb := h.batch
      subst hs'
      refine ⟨hb.base, hb.poller, hb.early, hb.count, hb.calls, hb.entries, fun b cb' hm => ?_⟩
      obtain ⟨j, hj⟩ := hb.due b cb' hm
      exact ⟨j, (huses b fun he => hdue (he ▸ List.mem_map_of_mem hm)).trans hj⟩
    · have hold := h.made j
      unfold JobLoop.swapped JobLoop.unswapped at hold ⊢
      rw [hpolling, hjobl _ hnot]
      have hfilter : ((s.regs.polling.queue.enqueued.filter s.isJob).eraseDups).filter (t.isMaker j) =
          ((s.regs.polling.queue.enqueued.filter s.isJob).eraseDups).filter (s.isMaker j) := by
        refine List.filter_congr fun b hb => hmakers j b fun he => hnot ?_
        exact he ▸ (List.mem_filter.mp (List.mem_eraseDups.mp hb)).1
      rw [hfilter]
      by_cases hj : j = i
      · subst hj
        rw [hidle] at hold
        rw [hcaller]
        have hmade : t.made j = s.made j ++ [a] := by
          subst hs'
          exact Function.update_self ..
        rw [hmade, ← hold]
        simp [Caller.node, hnot]
      · rw [hcallers j hj, hold]
        subst hs'
        exact (Function.update_of_ne hj ..).symm
    · have hold := h.makers j b
      by_cases hj : j = i
      · subst hj
        have hmade : t.made j = s.made j ++ [a] := by
          subst hs'
          exact Function.update_self ..
        rw [hmade, List.mem_append, List.mem_singleton]
        by_cases hb : b = a
        · subst hb
          unfold JobLoop.isMaker
          rw [husea]
          simp
        · rw [hmakers j b hb, ← hold]
          exact ⟨fun hor => hor.resolve_right hb, .inl⟩
      · have hmade : t.made j = s.made j := by
          subst hs'
          exact Function.update_of_ne hj ..
        rw [hmade, hold]
        by_cases hb : b = a
        · subst hb
          unfold JobLoop.isMaker
          rw [husea, hunmade]
          simp [Ne.symm hj]
        · rw [hmakers j b hb]
    · have hret : s.returned b = true := by
        subst hs'
        exact hb
      obtain ⟨hjob, he⟩ := h.returned b hret
      have hba : b ≠ a := fun he' => by
        subst he'
        exact hnot he
      exact ⟨(hjobs b hba).trans hjob, by rw [hpolling]; exact he⟩
  · cases hs

omit [DecidableEq ι] [DecidableEq α] in
theorem resting_iff : s.resting o = true →
    s.regs.threads o = .idle ∧ s.regs.polling.queue.producers o = .idle := by
  unfold JobLoop.resting
  intro h
  split at h
  · exact ⟨‹_›, ‹_›⟩
  · cases h

omit [DecidableEq ι] [DecidableEq α] in
theorem JobLoop.Making.between (h : s.Making i a cb) (hthread : s.regs.threads (some i) = .idle)
    (hproducer : s.regs.polling.queue.producers (some i) = .idle) :
    s.regs.nodes a = jobNode setWord false false none ∧
      (s.callers i = .setting a cb ∨ s.callers i = .loading a cb ∨ s.callers i = .associating a cb) := by
  unfold JobLoop.Making at h
  rw [hthread, hproducer, show (Producer.idle : Producer α).owed = none from rfl] at h
  generalize s.callers i = c at h ⊢
  generalize s.regs.nodes a = n at h ⊢
  generalize s.associated a = b at h
  cases h with
  | set _ _ _ hc => exact ⟨rfl, hc⟩

theorem JobLoop.Ok.goOn (h : s.Ok) (hrest : s.resting (some i) = true)
    (hc : s.callers i = .setting a cb ∨ s.callers i = .loading a cb) {pc : Caller α C}
    (hpc : pc = .loading a cb ∨ pc = .associating a cb) : (s.gotoCaller i pc).Ok := by
  obtain ⟨hthread, hproducer⟩ := resting_iff hrest
  have hcaller : s.uses a = .job i cb ∧ s.Making i a cb ∧ a ∉ s.regs.polling.queue.enqueued := by
    have hcaller := h.callers i
    unfold JobLoop.CallerOk at hcaller
    rcases hc with hc | hc <;> rw [hc] at hcaller <;> exact hcaller
  obtain ⟨hu, hm, hnot⟩ := hcaller
  have hnode := (hm.between hthread hproducer).1
  have hon : (s.callers i).node = some a := hm.caller.1
  have hpcn : pc.node = some a := by rcases hpc with rfl | rfl <;> rfl
  have hnew : (s.gotoCaller i pc).callers i = pc := Function.update_self ..
  have hothers : ∀ j, j ≠ i → (s.gotoCaller i pc).callers j = s.callers j := fun j hj =>
    Function.update_of_ne hj ..
  have hstill : Still s (s.gotoCaller i pc) := by
    refine ⟨rfl, rfl, fun j => ?_, rfl, rfl, rfl, rfl, rfl, rfl, .inl rfl, rfl, rfl, rfl, rfl, rfl, rfl⟩
    by_cases hj : j = i
    · subst hj
      rw [hnew, hon, hpcn]
    · rw [hothers j hj]
  have hmake : (s.gotoCaller i pc).Making i a cb := by
    unfold JobLoop.Making
    rw [hnew]
    show MakingAt a cb pc (s.regs.threads (some i)) _ (s.regs.nodes a) _
    rw [hthread, hnode]
    exact .set _ _ _ (.inr hpc)
  have hsame : ∀ b, NodeSame s (s.gotoCaller i pc) b := fun b => ⟨rfl, rfl, rfl, Iff.rfl⟩
  have hthreads : ∀ o, ThreadSame s (s.gotoCaller i pc) o := fun o => ⟨rfl, rfl⟩
  have hmaking : ∀ j b, StillMaking s (s.gotoCaller i pc) j b := by
    intro j b cb' hu' hm' hnot'
    by_cases hj : j = i
    · subst hj
      obtain rfl : a = b := Option.some.inj (hon.symm.trans hm'.caller.1)
      obtain ⟨-, rfl⟩ := NodeUse.job.inj (hu.symm.trans hu')
      exact ⟨hmake, hnot'⟩
    · exact stillMaking (hsame b) (hthreads _) (hothers j hj) cb' hu' hm' hnot'
  refine hstill.ok h h.owned (fun b => ?_) (fun o => ?_) fun j => ?_
  · exact (h.nodes b).same (hsame b) (.inl rfl) Iff.rfl (fun _ => id) fun j => hmaking j b
  · exact (h.threads o).same (hthreads o) (fun _ _ => rfl) (fun _ _ => id) fun j b _ => hmaking j b
  · by_cases hj : j = i
    · subst hj
      unfold JobLoop.CallerOk
      rw [hnew]
      rcases hpc with rfl | rfl <;> exact ⟨hu, hmake, hnot⟩
    · exact (h.callers j).same (hothers j hj) (fun _ _ => rfl) (fun _ => id)
        fun b cb' hu' hm' hn' => .inl (hmaking j b cb' hu' hm' hn')

/-- The node is associated, and `update` goes on as in the node. -/
theorem JobLoop.Ok.register (h : s.Ok) (hrest : s.resting (some i) = true)
    (hc : s.callers i = .loading a cb ∨ s.callers i = .associating a cb)
    (hs : s.register i a cb = some s') : s'.Ok := by
  obtain ⟨hthread, hproducer⟩ := resting_iff hrest
  have hcaller : s.uses a = .job i cb ∧ s.Making i a cb ∧ a ∉ s.regs.polling.queue.enqueued := by
    have hcaller := h.callers i
    unfold JobLoop.CallerOk at hcaller
    rcases hc with hc | hc <;> rw [hc] at hcaller <;> exact hcaller
  obtain ⟨hu, hm, hnot⟩ := hcaller
  have hnode := (hm.between hthread hproducer).1
  have hon : (s.callers i).node = some a := hm.caller.1
  obtain ⟨-, -, hstep, rfl⟩ := begin_eq hs
  have howned := registrationsStep_owned h.owned hstep
  generalize hs' : ({ s.gotoCaller i (.registering a cb) with
    associated := Function.update s.associated a true
    regs := s.regs.goto (some i) (.updateLock a (jobUpdate a cb)) } : JobLoop ι α C) = t
  change ({ s.gotoCaller i (.registering a cb) with
    associated := Function.update s.associated a true
    regs := s.regs.goto (some i) (.updateLock a (jobUpdate a cb)) } : JobLoop ι α C).Ok
  rw [hs']
  have hnew : t.callers i = .registering a cb := by
    subst hs'
    exact Function.update_self ..
  have hothers : ∀ j, j ≠ i → t.callers j = s.callers j := fun j hj => by
    subst hs'
    exact Function.update_of_ne hj ..
  have hthreadi : t.regs.threads (some i) = .updateLock a (jobUpdate a cb) := by
    subst hs'
    exact Function.update_self ..
  have hthreads : ∀ o, o ≠ some i → ThreadSame s t o := fun o ho => by
    subst hs'
    exact ⟨Function.update_of_ne ho .., rfl⟩
  have hstill : Still s t := by
    refine ⟨?_, ?_, fun j => ?_, ?_, ?_, ?_, ?_, ?_, ?_, .inl ?_, ?_, ?_, ?_, ?_, ?_, ?_⟩
    on_goal 3 =>
      by_cases hj : j = i
      · subst hj
        rw [hnew, hon]
        rfl
      · rw [hothers j hj]
    all_goals subst hs'; rfl
  have hmake : t.Making i a cb := by
    unfold JobLoop.Making
    rw [hnew, hthreadi]
    subst hs'
    show MakingAt a cb _ _ _ (s.regs.nodes a) (Function.update s.associated a true a)
    rw [hnode, Function.update_self]
    exact .lock _
  have hsame : ∀ b, b ≠ a → NodeSame s t b := fun b hb => by
    subst hs'
    exact ⟨rfl, Function.update_of_ne hb .., rfl, Iff.rfl⟩
  have hmaking : ∀ j b, StillMaking s t j b := by
    intro j b cb' hu' hm' hnot'
    by_cases hj : j = i
    · subst hj
      obtain rfl : a = b := Option.some.inj (hon.symm.trans hm'.caller.1)
      obtain ⟨-, rfl⟩ := NodeUse.job.inj (hu.symm.trans hu')
      exact ⟨hmake, by rw [hstill.enqueued]; exact hnot'⟩
    · have hb : b ≠ a := by
        rintro rfl
        exact hj (NodeUse.job.inj (hu'.symm.trans hu)).1
      exact stillMaking (hsame b hb) (hthreads _ fun he => hj (Option.some.inj he)) (hothers j hj) cb' hu'
        hm' hnot'
  refine hstill.ok h ?_ (fun b => ?_) (fun o => ?_) fun j => ?_
  · subst hs'
    exact howned
  · by_cases hb : b = a
    · subst hb
      have hold := h.nodes b
      unfold JobLoop.NodeOk at hold ⊢
      rw [hu] at hold
      rw [hstill.uses, hu, hstill.enqueued]
      refine ⟨fun he => absurd he hnot, .making hmake (by rw [hstill.enqueued]; exact hnot) ?_⟩
      rw [hstill.hold]
      cases hold.2 with
      | making _ _ hh => exact hh
      | queued he => exact absurd he hnot
      | taken _ he => exact absurd he hnot
      | pushed he => exact absurd he hnot
      | delivered he => exact absurd he hnot
    · exact (h.nodes b).same (hsame b hb) (.inl hstill.hold) (by rw [hstill.due_eq])
        (by rw [hstill.uncleared_eq]; exact fun _ => id) fun j => hmaking j b
  · by_cases ho : o = some i
    · subst ho
      refine ⟨fun b hb => ?_, fun b hb => ?_⟩
      · rw [hthreadi] at hb
        obtain rfl := Option.some.inj hb
        exact .making i cb rfl (by rw [hstill.uses]; exact hu) hmake (by rw [hstill.enqueued]; exact hnot)
      · rw [show t.regs.polling.queue.producers (some i) = .idle by subst hs'; exact hproducer] at hb
        cases hb
    · exact (h.threads o).same (hthreads o ho) (fun _ _ => by rw [hstill.uses])
        (fun _ _ ha => by rw [hstill.arcs]; exact ha) fun j b _ => hmaking j b
  · by_cases hj : j = i
    · subst hj
      unfold JobLoop.CallerOk
      rw [hnew, hstill.uses, hstill.enqueued]
      exact ⟨hu, .inl ⟨hmake, hnot⟩⟩
    · exact (h.callers j).same (hothers j hj) (fun _ _ => by rw [hstill.uses])
        (fun b hb => by rw [hstill.enqueued]; exact hb)
        fun b cb' hu' hm' hn' => .inl (hmaking j b cb' hu' hm' hn')

/-- A thread gives up its share of a registration whose node has been enqueued. -/
theorem JobLoop.Ok.leave (h : s.Ok) (pc : Caller α C) {arcs : α → ℕ} {returned : α → Bool}
    (hnone : pc.node = none) (hin : ∀ b, (s.callers i).node = some b → b ∈ s.regs.polling.queue.enqueued)
    (harcs : ∀ b, s.arcs b = 0 → arcs b = 0)
    (hshares : ∀ b j cb, s.uses b = .job j cb → arcs b =
      ({ s with callers := Function.update s.callers i pc } : JobLoop ι α C).shares j b)
    (hpc : ∀ b, pc = .dropping b →
      (∃ cb, s.uses b = .job i cb) ∧ b ∈ s.regs.polling.queue.enqueued)
    (hreturned : ∀ b, returned b = true → s.isJob b = true ∧ b ∈ s.regs.polling.queue.enqueued) :
    ({ s with callers := Function.update s.callers i pc, arcs := arcs, returned := returned } :
      JobLoop ι α C).Ok := by
  generalize hs' : ({ s with
    callers := Function.update s.callers i pc, arcs := arcs, returned := returned } :
    JobLoop ι α C) = t
  have hnew : t.callers i = pc := by
    subst hs'
    exact Function.update_self ..
  have hothers : ∀ j, j ≠ i → t.callers j = s.callers j := fun j hj => by
    subst hs'
    exact Function.update_of_ne hj ..
  have hsame : ∀ b, NodeSame s t b := fun b => by
    subst hs'
    exact ⟨rfl, rfl, rfl, Iff.rfl⟩
  have hthreads : ∀ o, ThreadSame s t o := fun o => by
    subst hs'
    exact ⟨rfl, rfl⟩
  have hmaking : ∀ j b, StillMaking s t j b := by
    intro j b cb hu hm hnot
    by_cases hj : j = i
    · subst hj
      exact absurd (hin b hm.caller.1) hnot
    · exact stillMaking (hsame b) (hthreads _) (hothers j hj) cb hu hm hnot
  refine ⟨?_, ?_, ?_, fun b => ?_, fun o => ?_, fun j => ?_, fun b j cb hu => ?_, ?_, ?_, fun j => ?_, ?_,
    fun b hb => ?_⟩
  · subst hs'
    exact h.owned
  · subst hs'
    exact h.examined
  · subst hs'
    exact h.hand
  · refine (h.nodes b).same (hsame b) (.inl ?_) ?_ ?_ fun j => hmaking j b
    all_goals subst hs'
    · rfl
    · exact Iff.rfl
    · exact fun _ => id
  · refine (h.threads o).same (hthreads o) (fun b _ => (hsame b).uses) (fun b _ hb => ?_)
      fun j b _ => hmaking j b
    subst hs'
    exact harcs b hb
  · by_cases hj : j = i
    · subst hj
      unfold JobLoop.CallerOk
      rw [hnew]
      cases pc with
      | idle => exact trivial
      | dropping b =>
        obtain ⟨⟨cb, hu⟩, he⟩ := hpc b rfl
        exact ⟨⟨cb, (hsame b).uses.trans hu⟩, (hsame b).enqueued.mpr he⟩
      | _ => cases hnone
    · exact (h.callers j).same (hothers j hj) (fun b _ => (hsame b).uses)
        (fun b => (hsame b).enqueued.mpr) fun b cb hu hm hn => .inl (hmaking j b cb hu hm hn)
  · subst hs'
    exact hshares b j cb hu
  · subst hs'
    exact h.order
  · subst hs'
    exact ⟨h.batch.base, h.batch.poller, h.batch.early, h.batch.count, h.batch.calls, h.batch.entries,
      h.batch.due⟩
  · have hold := h.made j
    by_cases hj : j = i
    · subst hj
      have hgone : s.unswapped j = [] := by
        unfold JobLoop.unswapped
        refine List.filter_eq_nil_iff.mpr fun b hb => ?_
        simp [hin b (Option.mem_toList.mp hb)]
      have hgone' : t.unswapped j = [] := by
        unfold JobLoop.unswapped
        rw [hnew, hnone]
        rfl
      rw [hgone] at hold
      rw [hgone']
      subst hs'
      exact hold
    · unfold JobLoop.unswapped at hold ⊢
      rw [hothers j hj]
      subst hs'
      exact hold
  · subst hs'
    exact h.makers
  · subst hs'
    exact hreturned b hb

theorem JobLoop.Ok.callerStep (h : s.Ok) (hs : s.callerStep i = some s') : s'.Ok := by
  have hcaller := h.callers i
  unfold JobLoop.CallerOk at hcaller
  unfold JobLoop.callerStep at hs
  split at hs
  · rename_i hrest
    obtain ⟨hthread, hproducer⟩ := resting_iff hrest
    cases hc : s.callers i with
    | idle => simp [hc] at hs
    | setting a cb =>
      simp only [hc] at hs
      obtain rfl := Option.some.inj hs
      exact h.goOn hrest (.inl hc) (.inl rfl)
    | loading a cb =>
      simp only [hc] at hs
      split at hs
      · exact h.register hrest (.inl hc) hs
      · obtain rfl := Option.some.inj hs
        exact h.goOn hrest (.inr hc) (.inr rfl)
    | associating a cb =>
      simp only [hc] at hs
      exact h.register hrest (.inr hc) hs
    | registering a cb =>
      rw [hc] at hcaller
      obtain ⟨hu, hm⟩ := hcaller
      have he : a ∈ s.regs.polling.queue.enqueued := by
        refine hm.resolve_left fun ⟨hm, _⟩ => ?_
        rcases (hm.between hthread hproducer).2 with hc' | hc' | hc' <;> cases hc.symm.trans hc'
      have hon : (s.callers i).node = some a := by
        rw [hc]
        rfl
      have hin : ∀ b, (s.callers i).node = some b → b ∈ s.regs.polling.queue.enqueued := fun b hb =>
        Option.some.inj (hon.symm.trans hb) ▸ he
      have harcs : ∀ b, s.arcs b = 0 → Function.update s.arcs a (s.arcs a - 1) b = 0 := by
        intro b hb
        by_cases hba : b = a
        · subst hba
          rw [Function.update_self, hb]
        · rw [Function.update_of_ne hba]
          exact hb
      have hshares : ∀ (pc : Caller α C), pc.node = none → ∀ b j cb, s.uses b = .job j cb →
          Function.update s.arcs a (s.arcs a - 1) b =
            ({ s with callers := Function.update s.callers i pc } : JobLoop ι α C).shares j b := by
        intro pc hpc b j cb' hu'
        have hold := h.arcs b j cb' hu'
        unfold JobLoop.shares at hold ⊢
        by_cases hba : b = a
        · subst hba
          obtain ⟨rfl, rfl⟩ := NodeUse.job.inj (hu.symm.trans hu')
          rw [if_pos hon] at hold
          have hnew : (Function.update s.callers i pc i).node ≠ some b := by
            rw [Function.update_self, hpc]
            exact fun he => by cases he
          rw [Function.update_self, if_neg hnew]
          change _ = 0 + (if b ∉ s.due.map Prod.fst ∨
            b ∈ (s.uncleared.flatMap ran).map Prod.fst then 1 else 0)
          omega
        · rw [Function.update_of_ne hba, hold]
          by_cases hj : j = i
          · subst hj
            have hnew : (Function.update s.callers j pc j).node ≠ some b := by
              rw [Function.update_self, hpc]
              exact fun he => by cases he
            have hold' : (s.callers j).node ≠ some b := fun he' =>
              hba (Option.some.inj (he'.symm.trans hon))
            rw [if_neg hold', if_neg hnew]
            rfl
          · rw [show ({ s with callers := Function.update s.callers i pc } : JobLoop ι α C).callers j =
              s.callers j from Function.update_of_ne hj ..]
            rfl
      simp only [hc] at hs
      split at hs
      · rename_i hone
        have hleft := h.leave (i := i) (.dropping a) rfl hin harcs
          (hshares _ rfl) (fun b hb => by
            obtain rfl := Caller.dropping.inj hb
            exact ⟨⟨cb, hu⟩, he⟩) h.returned
        unfold JobLoop.dropArc at hs
        dsimp only at hs
        rw [if_pos (show (s.gotoCaller i (.dropping a)).arcs a = 1 from hone)] at hs
        refine hleft.begin hs (fun j b hj => ?_) ?_
        · obtain rfl := Option.some.inj hj
          show (Function.update s.callers i (.dropping a) i).node ≠ some b
          rw [Function.update_self]
          exact fun he => by cases he
        · obtain ⟨-, -, -, rfl⟩ := begin_eq hs
          refine .dropping i cb hu ?_ (.inl (Function.update_self ..))
          show Function.update s.arcs a (s.arcs a - 1) a = 0
          rw [Function.update_self, hone]
      · rename_i hmore
        unfold JobLoop.dropArc at hs
        dsimp only at hs
        rw [if_neg hmore] at hs
        obtain rfl := Option.some.inj hs
        refine h.leave (i := i) .idle rfl hin harcs (hshares _ rfl)
          (fun b hb => by cases hb) fun b hb => ?_
        by_cases hba : b = a
        · subst hba
          exact ⟨isJob_of_uses hu, he⟩
        · change Function.update s.returned a true b = true at hb
          rw [Function.update_of_ne hba] at hb
          exact h.returned b hb
    | dropping a =>
      rw [hc] at hcaller
      obtain ⟨⟨cb, hu⟩, he⟩ := hcaller
      have hnode : (s.callers i).node = none := by
        rw [hc]
        rfl
      simp only [hc] at hs
      obtain rfl := Option.some.inj hs
      refine h.leave (i := i) .idle rfl (fun b hb => by cases hnode.symm.trans hb)
        (fun b => id) (fun b j cb' hu' => ?_) (fun b hb => by cases hb) fun b hb => ?_
      · refine (h.arcs b j cb' hu').trans ?_
        unfold JobLoop.shares
        by_cases hj : j = i
        · subst hj
          rw [hnode, show ({ s with callers := Function.update s.callers j .idle } :
            JobLoop ι α C).callers j = .idle from Function.update_self ..]
          rfl
        · rw [show ({ s with callers := Function.update s.callers i .idle } : JobLoop ι α C).callers j =
            s.callers j from Function.update_of_ne hj ..]
          rfl
      · by_cases hba : b = a
        · subst hba
          exact ⟨isJob_of_uses hu, he⟩
        · change Function.update s.returned a true b = true at hb
          rw [Function.update_of_ne hba] at hb
          exact h.returned b hb
  · cases hs

end Calls

/-! ## The queue -/

section Queue
variable [DecidableEq ι] [DecidableEq α] {s s' : JobLoop ι α C} {i : ι} {o : Option ι} {a : α} {cb : C}
  {p : Polling (Option ι) α}

omit [DecidableEq ι] [DecidableEq α] in
theorem MakingAt.owes {c : Caller α C} {t : Thread α (Closure α C)} {o : Option α}
    {n : Node (Closure α C)} {b : Bool} (h : MakingAt a cb c t o n b) (ho : o ≠ some a) (o' : Option α) :
    MakingAt a cb c t o' n b := by
  cases h with
  | setLoad => exact .setLoad _ _
  | setExchange => exact .setExchange _ _
  | set c _ _ hc => exact .set c _ _ hc
  | lock => exact .lock _
  | load => exact .load _
  | token => exact .token _
  | exchange => exact .exchange _
  | unlock => exact .unlock _
  | job => exact .job _
  | enqueue => exact .enqueue _
  | enqueuer => exact absurd rfl ho

theorem JobLoop.Making.enqueuer (hm : s.Making i a cb) (h : s.Ok)
    (ho : (s.regs.polling.queue.producers (some i)).owed = some a) :
    s.regs.nodes a = jobNode queuedWord true false (some (.job a cb)) ∧
      s.callers i = .registering a cb ∧ s.associated a = true ∧ s.regs.threads (some i) = .idle := by
  have howns : s.regs.Owns a (.enqueuer (some i)) := ho
  have hflag : (s.regs.nodes a).state.isQueued = true := h.owned.books.flagged a _ howns
  have hthread : (s.regs.threads (some i)).owing ≠ some a := by
    intro he
    cases h.owned.books.unique a (.thread (some i)) _ he howns
  unfold JobLoop.Making at hm
  rw [ho] at hm
  generalize s.callers i = c at hm ⊢
  generalize s.regs.nodes a = n at hm hflag ⊢
  generalize s.regs.threads (some i) = t at hm hthread ⊢
  generalize s.associated a = b at hm ⊢
  cases hm with
  | setLoad | setExchange => cases unqueued_words.1.symm.trans hflag
  | set | lock | load | token | exchange => cases unqueued_words.2.symm.trans hflag
  | unlock | job | enqueue => exact absurd rfl hthread
  | enqueuer => exact ⟨rfl, rfl, rfl, rfl⟩

omit [DecidableEq ι] in
theorem swapped_concat {l : List α} (s : JobLoop ι α C) (a : α) :
    ((l ++ [a]).filter s.isJob).eraseDups =
      if s.isJob a = true ∧ a ∉ l then (l.filter s.isJob).eraseDups ++ [a]
      else (l.filter s.isJob).eraseDups := by
  rw [List.filter_append]
  cases hjob : s.isJob a with
  | false => simp [hjob]
  | true =>
    simp only [List.filter_cons, hjob, if_true, List.filter_nil, true_and]
    rw [eraseDups_concat]
    by_cases ha : a ∈ l
    · rw [if_pos (List.mem_filter.mpr ⟨ha, hjob⟩), if_neg (not_not.mpr ha)]
    · rw [if_neg fun hm => ha (List.mem_filter.mp hm).1, if_pos ha]

theorem JobLoop.Ok.producer (h : s.Ok) {wouldBlock : Bool}
    (hs : pollingStep s.regs.polling (.producer o wouldBlock) = some p) :
    ({ s with regs := { s.regs with polling := p } } : JobLoop ι α C).Ok := by
  have howned := h.owned.producer hs
  obtain ⟨htaken, hconsumer, hpoller, hproducers, hmove⟩ := producer_move h.owned hs
  generalize hs' : ({ s with regs := { s.regs with polling := p } } : JobLoop ι α C) = t
  have hpolling : t.regs.polling = p := by
    subst hs'
    rfl
  have hholding : t.regs.holding = s.regs.holding := by
    subst hs'
    exact holding_congr hconsumer hpoller rfl
  have hinHand : t.regs.inHand = s.regs.inHand := by
    subst hs'
    exact inHand_congr rfl hconsumer hpoller
  have hownedt : t.regs.Owned := by
    subst hs'
    exact howned
  rcases hmove with ⟨henq, howed⟩ | ⟨a, ha, henq, hnone⟩
  · have hstill : Still s t := by
      refine ⟨?_, ?_, fun _ => ?_, ?_, ?_, ?_, ?_, hholding, hinHand, .inl ?_, ?_, ?_, ?_, ?_, ?_, ?_⟩
      all_goals subst hs'
      all_goals first | rfl | exact henq | exact htaken | exact hpoller
    have hsame : ∀ b, NodeSame s t b := fun b => by
      subst hs'
      exact ⟨rfl, rfl, rfl, by rw [show _ = _ from henq]⟩
    have hthreads : ∀ o', ThreadSame s t o' := fun o' => by
      subst hs'
      exact ⟨rfl, howed o'⟩
    have hcallers : ∀ j, t.callers j = s.callers j := fun j => by
      subst hs'
      rfl
    have hmaking : ∀ j b, StillMaking s t j b := fun j b =>
      stillMaking (hsame b) (hthreads _) (hcallers j)
    refine hstill.ok h hownedt (fun b => ?_) (fun o' => ?_) fun j => ?_
    · exact (h.nodes b).same (hsame b) (.inl hstill.hold) (by rw [hstill.due_eq])
        (by rw [hstill.uncleared_eq]; exact fun _ => id) fun j => hmaking j b
    · exact (h.threads o').same (hthreads o') (fun b _ => (hsame b).uses)
        (fun _ _ hb => by rw [hstill.arcs]; exact hb) fun j b _ => hmaking j b
    · exact (h.callers j).same (hcallers j) (fun b _ => (hsame b).uses)
        (fun b => (hsame b).enqueued.mpr) fun b cb hu hm hn => .inl (hmaking j b cb hu hm hn)
  · have hminds := (h.threads o).producer a ha
    have hmem : ∀ b, b ∈ t.regs.polling.queue.enqueued ↔
        b ∈ s.regs.polling.queue.enqueued ∨ b = a := fun b => by
      rw [hpolling, henq, List.mem_append, List.mem_singleton]
    have hsame : ∀ b, b ≠ a → NodeSame s t b := fun b hb =>
      ⟨by subst hs'; rfl, by subst hs'; rfl, by subst hs'; rfl, by simp [hmem b, hb]⟩
    have huses : t.uses = s.uses := by
      subst hs'
      rfl
    have hcallers : ∀ j, t.callers j = s.callers j := fun j => by
      subst hs'
      rfl
    have hthreads : ∀ o', o' ≠ o → ThreadSame s t o' := fun o' ho' => by
      subst hs'
      exact ⟨rfl, congrArg Producer.owed (hproducers o' ho')⟩
    have hmaking : ∀ j b, b ≠ a → StillMaking s t j b := by
      intro j b hb cb hu hm hnot
      by_cases ho : some j = o
      · subst ho
        refine ⟨?_, fun he => hnot ((hsame b hb).enqueued.mp he)⟩
        have howes : (s.regs.polling.queue.producers (some j)).owed ≠ some b := fun he =>
          hb (Option.some.inj (he.symm.trans ha))
        unfold JobLoop.Making at hm ⊢
        rw [hcallers j, (hsame b hb).node, (hsame b hb).associated]
        have hthread : t.regs.threads (some j) = s.regs.threads (some j) := by
          subst hs'
          rfl
        rw [hthread]
        exact hm.owes howes _
      · exact stillMaking (hsame b hb) (hthreads _ ho) (hcallers j) cb hu hm hnot
    have hmade : ∀ j cb, s.uses a = .job j cb → s.Making j a cb →
        a ∉ s.regs.polling.queue.enqueued → o = some j ∧ s.callers j = .registering a cb ∧
          s.regs.threads o = .idle := by
      intro j cb hu hm hnot
      obtain rfl := hminds.maker h hu hnot
      obtain ⟨-, hc, -, ht⟩ := hm.enqueuer h ha
      exact ⟨rfl, hc, ht⟩
    have hevents : t.due = s.due ∧ t.uncleared = s.uncleared ∧ t.uncalled = s.uncalled := by
      subst hs'
      exact ⟨rfl, rfl, rfl⟩
    have hjobs : t.isJob = s.isJob ∧ ∀ j, t.isMaker j = s.isMaker j := by
      subst hs'
      exact ⟨rfl, fun _ => rfl⟩
    have hhold : t.regs.hold = s.regs.hold := by
      subst hs'
      rfl
    refine ⟨hownedt, ?_, ?_, fun b => ?_, fun o' => ?_, fun j => ?_, fun b j cb hu => ?_, ?_, ?_,
      fun j => ?_, ?_, fun b hb => ?_⟩
    · subst hs'
      exact h.examined
    · unfold HandTaken
      rw [hholding, hpolling, htaken]
      exact h.hand
    · by_cases hb : b = a
      · subst hb
        have hold := h.nodes b
        unfold JobLoop.NodeOk at hold ⊢
        rw [huses]
        cases hminds with
        | other hu hfree =>
          rw [hu] at hold ⊢
          subst hs'
          exact hold
        | making i cb ho hu hm hnot =>
          subst ho
          rw [hu] at hold ⊢
          obtain ⟨hnode, -, hassociated, -⟩ := hm.enqueuer h ha
          refine ⟨fun _ => ?_, .queued ((hmem b).mpr (.inr rfl)) ?_ ?_ ?_⟩
          · subst hs'
            exact hassociated
          · rw [hhold]
            cases hold.2 with
            | making _ _ hh => exact hh
            | queued he => exact absurd he hnot
            | taken _ he => exact absurd he hnot
            | pushed he => exact absurd he hnot
            | delivered he => exact absurd he hnot
          · subst hs'
            exact hnode
          · rw [hevents.1]
            exact fun hd => hnot (h.enqueued_of_due hd)
        | dropping i cb hu harcs =>
          rw [hu] at hold ⊢
          obtain ⟨he, hh, hdue, hnode⟩ := h.journey_of_arcs hu harcs
          refine ⟨fun _ => ?_, .delivered ((hmem b).mpr (.inr rfl)) (by rw [hhold]; exact hh) ?_
            (by rw [hevents.1]; exact hdue)⟩
          · subst hs'
            exact hold.1 he
          · subst hs'
            exact hnode
      · exact (h.nodes b).same (hsame b hb) (.inl hhold) (by rw [hevents.1])
          (by rw [hevents.2.1]; exact fun _ => id) fun j => hmaking j b hb
    · by_cases ho' : o' = o
      · subst ho'
        refine ⟨fun b hb => ?_, fun b hb => ?_⟩
        · have hthread : t.regs.threads o' = s.regs.threads o' := by
            subst hs'
            rfl
          rw [hthread] at hb ⊢
          refine ((h.threads o').thread b hb).same (by rw [huses]) (fun u hu => by rwa [hthread] at hu)
            (fun hb => by subst hs'; exact hb) (fun j hj => ?_) id
          by_cases hba : b = a
          · subst hba
            intro cb hu hm hnot
            obtain ⟨-, -, ht⟩ := hmade j cb hu hm hnot
            rw [ht] at hb
            cases hb
          · exact hmaking j b hba
        · rw [hpolling, hnone] at hb
          cases hb
      · refine (h.threads o').same (hthreads o' ho') (fun b _ => by rw [huses])
          (fun b _ hb => by subst hs'; exact hb) fun j b hj => ?_
        by_cases hba : b = a
        · subst hba
          intro cb hu hm hnot
          exact absurd (hj.trans (hmade j cb hu hm hnot).1.symm) ho'
        · exact hmaking j b hba
    · refine (h.callers j).same (hcallers j) (fun b _ => by rw [huses])
        (fun b hb => (hmem b).mpr (.inl hb)) fun b cb hu hm hnot => ?_
      by_cases hba : b = a
      · subst hba
        exact .inr ⟨(hmem b).mpr (.inr rfl), (hmade j cb hu hm hnot).2.1⟩
      · exact .inl (hmaking j b hba cb hu hm hnot)
    · unfold JobLoop.shares
      rw [hevents.1, hevents.2.1, hcallers j]
      subst hs'
      exact h.arcs b j cb hu
    · unfold JobLoop.taken JobLoop.handJobs
      rw [hpolling, htaken, hinHand, hevents.1, hjobs.1]
      exact h.order
    · have hb := h.batch
      subst hs'
      refine ⟨hb.base, ?_, ?_, hb.count, hb.calls, hb.entries, hb.due⟩
      · rw [show p.poller = s.regs.polling.poller from hpoller]
        exact hb.poller
      · rw [show p.poller = s.regs.polling.poller from hpoller]
        exact hb.early
    · -- the node joins the order, unless it has been in it
      have hold := h.made j
      unfold JobLoop.swapped JobLoop.unswapped at hold ⊢
      have hmakes : s.isJob a = true ∧ a ∉ s.regs.polling.queue.enqueued →
          ∃ i cb, s.uses a = .job i cb ∧ (s.callers i).node = some a := by
        rintro ⟨hjob, hnot⟩
        cases hminds with
        | other hu =>
          unfold JobLoop.isJob at hjob
          rw [hu] at hjob
          cases hjob
        | making i cb ho hu hm => exact ⟨i, cb, hu, hm.caller.1⟩
        | dropping i cb hu harcs => exact absurd (h.journey_of_arcs hu harcs).1 hnot
      rw [hjobs.1, hjobs.2 j, hcallers j, show t.made = s.made by subst hs'; rfl, ← hold, hpolling, henq,
        swapped_concat]
      by_cases hnew : s.isJob a = true ∧ a ∉ s.regs.polling.queue.enqueued
      · obtain ⟨i, cb, hu, hon⟩ := hmakes hnew
        rw [if_pos hnew, List.filter_append]
        by_cases hj : j = i
        · subst hj
          have hmaker : s.isMaker j a = true := by
            unfold JobLoop.isMaker
            rw [hu]
            simp
          simp [hon, hmaker, hnew.2]
        · have hmaker : s.isMaker j a = false := by
            unfold JobLoop.isMaker
            rw [hu]
            simp [Ne.symm hj]
          have hno : (s.callers j).node ≠ some a := by
            intro he
            have hcaller := h.callers j
            unfold JobLoop.CallerOk at hcaller
            cases hc : s.callers j with
            | setting b cb' | loading b cb' | associating b cb' | registering b cb' =>
              rw [hc] at he hcaller
              obtain rfl := Option.some.inj he
              exact hj (NodeUse.job.inj (hcaller.1.symm.trans hu)).1
            | _ =>
              rw [hc] at he
              cases he
          have hsame' : (s.callers j).node.toList.filter
              (fun b => !decide (b ∈ s.regs.polling.queue.enqueued ++ [a])) =
              (s.callers j).node.toList.filter fun b => !decide (b ∈ s.regs.polling.queue.enqueued) := by
            refine List.filter_congr fun b hb => ?_
            have hba : b ≠ a := fun he => hno (by rw [← he]; exact Option.mem_toList.mp hb)
            simp [hba]
          rw [hsame', show [a].filter (s.isMaker j) = [] from by simp [hmaker], List.append_nil]
      · rw [if_neg hnew]
        refine congrArg _ (List.filter_congr fun b hb => ?_)
        by_cases hba : b = a
        · subst hba
          -- a thread that holds the node made it
          have hjob : s.isJob b = true := by
            have hcaller := h.callers j
            unfold JobLoop.CallerOk at hcaller
            have he := Option.mem_toList.mp hb
            cases hc : s.callers j with
            | setting c cb' | loading c cb' | associating c cb' | registering c cb' =>
              rw [hc] at he hcaller
              obtain rfl := Option.some.inj he
              exact isJob_of_uses hcaller.1
            | _ =>
              rw [hc] at he
              cases he
          have hin : b ∈ s.regs.polling.queue.enqueued := by
            by_contra hnot
            exact hnew ⟨hjob, hnot⟩
          simp [hin]
        · simp [hba]
    · subst hs'
      exact h.makers
    · have hb' : s.returned b = true := by
        subst hs'
        exact hb
      obtain ⟨hjob, he⟩ := h.returned b hb'
      exact ⟨by rw [hjobs.1]; exact hjob, (hmem b).mpr (.inl he)⟩

end Queue

end MyMio

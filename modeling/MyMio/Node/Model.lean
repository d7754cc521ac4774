import MyMio.Node.State
import MyMio.Queue.Sleep

/-! # Registrations on a live poll

Any number of nodes of `src/poll.rs`, all associated with one `Poll`; any number of threads in
`SetReadiness::set_readiness`, `Registration::update` and the drop of a `Registration`; and the
poller of `MyMio.Queue.Sleep`, which now takes from the words of the nodes what was left open there.
The steps are the accesses to shared memory.

`update` called with another `Poll` returns an error before it touches the node, so the model only
has calls with the associated one. That a registration is dropped once, and not while it is updated,
is not assumed. A job is `none` where the source makes an empty closure.
-/

namespace MyMio
set_option autoImplicit false

open BrokenQueue StepSystem

universe u v w

/-! ## Nodes -/

structure Node (J : Type w) where
  state : ReadinessState
  token0 : TokenEntry
  token1 : TokenEntry
  token2 : TokenEntry
  updateLock : Bool
  job : Option J

namespace Node
variable {J : Type w}

def new (token : TokenEntry) (interest : Ready) (opt : PollOpt) : Node J where
  state := .new interest opt
  token0 := token
  token1 := ⟨.tokenEvent, ⟨0⟩⟩
  token2 := ⟨.tokenEvent, ⟨0⟩⟩
  updateLock := false
  job := none

/-- `token`, with `unreachable!` as `none`. -/
def token (node : Node J) (pos : Usize) : Option TokenEntry :=
  if pos = 0 then some node.token0
  else if pos = 1 then some node.token1
  else if pos = 2 then some node.token2
  else none

def storeToken (node : Node J) (pos : Usize) (token : TokenEntry) : Option (Node J) :=
  if pos = 0 then some { node with token0 := token }
  else if pos = 1 then some { node with token1 := token }
  else if pos = 2 then some { node with token2 := token }
  else none

end Node

section Slots
variable {J : Type w} {node node' : Node J} {pos : Usize} {token : TokenEntry}

theorem storeToken_spec (h : node.storeToken pos token = some node') :
    node'.state = node.state ∧ node'.updateLock = node.updateLock ∧ node'.job = node.job := by
  unfold Node.storeToken at h
  split_ifs at h <;> obtain rfl := Option.some.inj h <;> exact ⟨rfl, rfl, rfl⟩

theorem storeToken_token (h : node.storeToken pos token = some node') (pos' : Usize) :
    node'.token pos' = if pos' = pos then some token else node.token pos' := by
  unfold Node.storeToken at h
  split_ifs at h <;> subst_vars <;> obtain rfl := Option.some.inj h <;> unfold Node.token <;>
    split_ifs <;> simp_all

end Slots

/-! ## Threads -/

/-- The arguments of `update`. -/
structure Update (J : Type w) where
  token : TokenEntry
  interest : Ready
  opt : PollOpt
  job : Option J

/-- What a thread can call. -/
inductive NodeCall (α : Type u) (J : Type w)
  | setReadiness (a : α) (ready : Ready)
  | update (a : α) (u : Update J)
  | drop (a : α)

/-- Where a thread is, outside `enqueue_node`: the access it is about to make. -/
inductive Thread (α : Type u) (J : Type w)
  | idle
  | setLoad (a : α) (ready : Ready)
  | setExchange (a : α) (ready : Ready) (state : ReadinessState)
  | updateLock (a : α) (u : Update J)
  | updateLoad (a : α) (u : Update J)
  | updateToken (a : α) (u : Update J) (state : ReadinessState) (nextTokenPos : Usize)
  | updateExchange (a : α) (u : Update J) (state : ReadinessState) (nextTokenPos : Usize)
  | updateUnlock (a : α) (u : Update J) (enqueues : Bool)
  | updateJob (a : α) (u : Update J)
  | dropOr (a : α)
  /-- about to call `enqueue_with_wakeup` -/
  | enqueue (a : α)

def Thread.isIdle {α : Type u} {J : Type w} : Thread α J → Bool
  | .idle => true
  | _ => false

def NodeCall.enter {α : Type u} {J : Type w} : NodeCall α J → Thread α J
  | .setReadiness a ready => .setLoad a ready
  | .update a u => .updateLock a u
  | .drop a => .dropOr a

/-- Where the poller is with the node it has dequeued. -/
inductive Hold (α : Type u)
  /-- about to load the word of the node -/
  | load
  | exchange (state : ReadinessState)
  /-- about to read the token at the read position -/
  | token (a : α) (readiness : Ready) (pos : Usize)
  /-- about to clone the job and push the event -/
  | push (a : α) (event : Event)
  /-- about to put an empty job in place -/
  | clear (a : α)

def Hold.isLoad {α : Type u} : Hold α → Bool
  | .load => true
  | _ => false

/-! ## The whole -/

/-- Everything on one poll. The ghosts are the events pushed so far with their nodes and jobs, the
nodes whose dropped flag the poller has seen, and the nodes that `set_readiness` or `update` has
left with effective readiness since the poller last changed their word. -/
structure Registrations (ι : Type v) (α : Type u) (J : Type w) where
  polling : Polling ι α
  nodes : α → Node J
  threads : ι → Thread α J
  hold : Hold α
  pushed : List (α × Event × Option J)
  released : α → Bool
  signalled : α → Bool

inductive RegistrationsOp (ι : Type v) (α : Type u) (J : Type w)
  | call (i : ι) (c : NodeCall α J)
  /-- the next access of a thread outside `enqueue_node` -/
  | thread (i : ι)
  /-- the next access of a thread inside `enqueue_node_with_wakeup` -/
  | producer (i : ι) (wouldBlock : Bool)
  /-- a step of the poller that does not touch a node -/
  | poll (op : PollingOp ι α)
  /-- the next access of the poller to the node it has dequeued -/
  | node

namespace Registrations
variable {ι : Type v} {α : Type u} {J : Type w} [DecidableEq ι] [DecidableEq α]

def word (s : Registrations ι α J) (a : α) : ReadinessState := (s.nodes a).state

def goto (s : Registrations ι α J) (i : ι) (pc : Thread α J) : Registrations ι α J :=
  { s with threads := Function.update s.threads i pc }

def setNode (s : Registrations ι α J) (a : α) (node : Node J) : Registrations ι α J :=
  { s with nodes := Function.update s.nodes a node }

def setWord (s : Registrations ι α J) (a : α) (state : ReadinessState) : Registrations ι α J :=
  s.setNode a { s.nodes a with state := state }

/-- The `compare_and_swap` of `set_readiness` or `update` has succeeded. -/
def store (s : Registrations ι α J) (a : α) (next : ReadinessState) : Registrations ι α J :=
  let s' := s.setWord a next
  if next.effectiveReadiness.isEmpty then s'
  else { s' with signalled := Function.update s.signalled a true }

/-- `!state.is_queued() && next.is_queued()`. -/
def owes (state next : ReadinessState) : Bool := !state.isQueued && next.isQueued

/-- The head of the loop in `set_readiness`. -/
def trySet (a : α) (ready : Ready) (state : ReadinessState) : Thread α J :=
  if state.isDropped then .idle else .setExchange a ready state

def threadStep (s : Registrations ι α J) (i : ι) : Option (Registrations ι α J) :=
  match s.threads i with
  | .idle => none
  | .setLoad a ready => some (s.goto i (trySet a ready (s.word a)))
  | .setExchange a ready state =>
    let next := state.afterSetReadiness ready
    if s.word a = state then
      some ((s.store a next).goto i (if owes state next then .enqueue a else .idle))
    else some (s.goto i (trySet a ready (s.word a)))
  | .updateLock a u =>
    if (s.nodes a).updateLock then some (s.goto i .idle)
    else some ((s.setNode a { s.nodes a with updateLock := true }).goto i (.updateLoad a u))
  | .updateLoad a u =>
    let state := s.word a
    match (s.nodes a).token state.tokenWritePos with
    | none => none
    | some token =>
      if u.token = token then some (s.goto i (.updateExchange a u state state.tokenWritePos))
      else
        match state.nextTokenPos with
        | none => none
        | some pos => some (s.goto i (.updateToken a u state pos))
  | .updateToken a u state pos =>
    ((s.nodes a).storeToken pos u.token).map fun node =>
      (s.setNode a node).goto i (.updateExchange a u state pos)
  | .updateExchange a u state pos =>
    let next := state.afterUpdate pos u.interest u.opt
    if s.word a = state then
      some ((s.store a next).goto i (.updateUnlock a u (owes state next)))
    else some (s.goto i (.updateExchange a u (s.word a) pos))
  | .updateUnlock a u enqueues =>
    some ((s.setNode a { s.nodes a with updateLock := false }).goto i
      (if enqueues then .updateJob a u else .idle))
  | .updateJob a u =>
    some ((s.setNode a { s.nodes a with job := u.job }).goto i (.enqueue a))
  | .dropOr a =>
    -- `flag_as_dropped`, one `fetch_or`
    some ((s.setWord a (s.word a).flagAsDropped).goto i
      (if (s.word a).isQueued then .idle else .enqueue a))
  | .enqueue a =>
    (pollingStep s.polling (.begin i a)).map fun p => { s.goto i .idle with polling := p }

/-- The rest of the loop body in `ReadinessQueue::poll`, once the word is settled. -/
def settle (s : Registrations ι α J) (a : α) (next : ReadinessState) (readiness : Ready) :
    Option (Registrations ι α J) :=
  let hold := if readiness.isEmpty then .load else .token a readiness next.tokenReadPos
  if next.isQueued then
    (pollingStep s.polling (.dequeued true (!readiness.isEmpty))).map fun p =>
      { s with polling := p, hold := hold }
  else if readiness.isEmpty then
    (pollingStep s.polling (.dequeued false false)).map fun p =>
      { s with polling := p, hold := .load }
  else some { s with hold := hold }

/-- The loop on the word of a dequeued node, with the word just read. -/
def examine (s : Registrations ι α J) (a : α) : Option (Registrations ι α J) :=
  let state := s.word a
  if state.isDropped then
    -- `release_node` and on to the next node
    (pollingStep s.polling (.dequeued false false)).map fun p =>
      { s with polling := p, hold := .load, released := Function.update s.released a true }
  else if state.afterPoll = state then s.settle a state state.effectiveReadiness
  else some { s with hold := .exchange state }

def nodeStep (s : Registrations ι α J) : Option (Registrations ι α J) :=
  match s.hold, s.polling.poller, s.polling.queue.consumer with
  | .load, .dequeue _ _ _, .returned (.dequeue (.data (.data a))) => s.examine a
  | .exchange state, .dequeue _ _ _, .returned (.dequeue (.data (.data a))) =>
    let next := state.afterPoll
    if s.word a = state then
      ({ s.setWord a next with signalled := Function.update s.signalled a false }).settle a next
        state.effectiveReadiness
    else s.examine a
  | .token a readiness pos, _, .returned _ =>
    ((s.nodes a).token pos).map fun token => { s with hold := .push a ⟨readiness, token⟩ }
  | .push a event, _, .returned _ =>
    some { s with pushed := s.pushed ++ [(a, event, (s.nodes a).job)], hold := .clear a }
  | .clear a, .dequeue _ _ _, .returned _ =>
    (pollingStep s.polling (.dequeued false true)).map fun p =>
      { s.setNode a { s.nodes a with job := none } with polling := p, hold := .load }
  | .clear a, .requeue _ _ _ _, .returned _ =>
    (pollingStep s.polling .requeued).map fun p =>
      { s.setNode a { s.nodes a with job := none } with polling := p, hold := .load }
  | _, _, _ => none

/-- The steps of the poller that do not touch a node. -/
def polls (s : Registrations ι α J) : PollingOp ι α → Bool
  | .begin _ _ | .producer _ _ => false
  | .dequeued _ _ =>
    match s.polling.queue.consumer with
    | .returned (.dequeue (.data _)) => false
    | _ => true
  | .requeued => s.hold.isLoad
  | _ => true

end Registrations

variable {ι : Type v} {α : Type u} {J : Type w} [DecidableEq ι] [DecidableEq α]

def registrationsStep (s : Registrations ι α J) : RegistrationsOp ι α J → Option (Registrations ι α J)
  | .call i c =>
    match s.threads i, s.polling.queue.producers i with
    | .idle, .idle => some (s.goto i c.enter)
    | _, _ => none
  | .thread i => s.threadStep i
  | .producer i wouldBlock =>
    (pollingStep s.polling (.producer i wouldBlock)).map fun p => { s with polling := p }
  | .poll op =>
    if s.polls op then (pollingStep s.polling op).map fun p => { s with polling := p } else none
  | .node => s.nodeStep

/-! ## The accesses of a thread -/

/-- What the next access of thread `i` finds and does. -/
inductive ThreadMove (s s' : Registrations ι α J) (i : ι) : Prop
  | tries (a : α) (ready : Ready) :
      s.threads i = .setLoad a ready ∨ (∃ state, s.threads i = .setExchange a ready state) →
      s' = s.goto i (Registrations.trySet a ready (s.word a)) → ThreadMove s s' i
  | signals (a : α) (ready : Ready) (next : ReadinessState) :
      s.threads i = .setExchange a ready (s.word a) → next = (s.word a).afterSetReadiness ready →
      s' = (s.store a next).goto i
        (if Registrations.owes (s.word a) next then .enqueue a else .idle) → ThreadMove s s' i
  | misses (a : α) (u : Update J) : s.threads i = .updateLock a u → (s.nodes a).updateLock = true →
      s' = s.goto i .idle → ThreadMove s s' i
  | locks (a : α) (u : Update J) : s.threads i = .updateLock a u → (s.nodes a).updateLock = false →
      s' = (s.setNode a { s.nodes a with updateLock := true }).goto i (.updateLoad a u) →
      ThreadMove s s' i
  | keepsToken (a : α) (u : Update J) : s.threads i = .updateLoad a u →
      (s.nodes a).token (s.word a).tokenWritePos = some u.token →
      s' = s.goto i (.updateExchange a u (s.word a) (s.word a).tokenWritePos) → ThreadMove s s' i
  | picksSlot (a : α) (u : Update J) (pos : Usize) : s.threads i = .updateLoad a u →
      (s.word a).nextTokenPos = some pos → s' = s.goto i (.updateToken a u (s.word a) pos) →
      ThreadMove s s' i
  | writesToken (a : α) (u : Update J) (state : ReadinessState) (pos : Usize) (node : Node J) :
      s.threads i = .updateToken a u state pos → (s.nodes a).storeToken pos u.token = some node →
      s' = (s.setNode a node).goto i (.updateExchange a u state pos) → ThreadMove s s' i
  | retries (a : α) (u : Update J) (state : ReadinessState) (pos : Usize) :
      s.threads i = .updateExchange a u state pos → s.word a ≠ state →
      s' = s.goto i (.updateExchange a u (s.word a) pos) → ThreadMove s s' i
  | updates (a : α) (u : Update J) (pos : Usize) (next : ReadinessState) :
      s.threads i = .updateExchange a u (s.word a) pos →
      next = (s.word a).afterUpdate pos u.interest u.opt →
      s' = (s.store a next).goto i (.updateUnlock a u (Registrations.owes (s.word a) next)) →
      ThreadMove s s' i
  | unlocks (a : α) (u : Update J) (enqueues : Bool) : s.threads i = .updateUnlock a u enqueues →
      s' = (s.setNode a { s.nodes a with updateLock := false }).goto i
        (if enqueues then .updateJob a u else .idle) → ThreadMove s s' i
  | storesJob (a : α) (u : Update J) : s.threads i = .updateJob a u →
      s' = (s.setNode a { s.nodes a with job := u.job }).goto i (.enqueue a) → ThreadMove s s' i
  | drops (a : α) : s.threads i = .dropOr a →
      s' = (s.setWord a (s.word a).flagAsDropped).goto i
        (if (s.word a).isQueued then .idle else .enqueue a) → ThreadMove s s' i
  | enqueues (a : α) (p : Polling ι α) : s.threads i = .enqueue a →
      pollingStep s.polling (.begin i a) = some p → s' = { s.goto i .idle with polling := p } →
      ThreadMove s s' i

theorem threadStep_move {s s' : Registrations ι α J} {i : ι} (hs : s.threadStep i = some s') :
    ThreadMove s s' i := by
  unfold Registrations.threadStep at hs
  cases hi : s.threads i with
  | idle => simp [hi] at hs
  | setLoad a ready =>
    simp only [hi] at hs
    exact .tries a ready (.inl hi) (Option.some.inj hs).symm
  | setExchange a ready state =>
    simp only [hi] at hs
    split at hs
    · rename_i hword
      subst hword
      exact .signals a ready _ hi rfl (Option.some.inj hs).symm
    · exact .tries a ready (.inr ⟨state, hi⟩) (Option.some.inj hs).symm
  | updateLock a u =>
    simp only [hi] at hs
    split at hs
    · exact .misses a u hi ‹_› (Option.some.inj hs).symm
    · rename_i hlock
      exact .locks a u hi (by simpa using hlock) (Option.some.inj hs).symm
  | updateLoad a u =>
    simp only [hi] at hs
    split at hs
    · cases hs
    · rename_i token htoken
      split at hs
      · rename_i hsame
        exact .keepsToken a u hi (hsame ▸ htoken) (Option.some.inj hs).symm
      · split at hs
        · cases hs
        · exact .picksSlot a u _ hi ‹_› (Option.some.inj hs).symm
  | updateToken a u state pos =>
    simp only [hi] at hs
    obtain ⟨node, hnode, hs⟩ := Option.map_eq_some_iff.mp hs
    exact .writesToken a u state pos node hi hnode hs.symm
  | updateExchange a u state pos =>
    simp only [hi] at hs
    split at hs
    · rename_i hword
      subst hword
      exact .updates a u pos _ hi rfl (Option.some.inj hs).symm
    · exact .retries a u state pos hi ‹_› (Option.some.inj hs).symm
  | updateUnlock a u enqueues =>
    simp only [hi] at hs
    exact .unlocks a u enqueues hi (Option.some.inj hs).symm
  | updateJob a u =>
    simp only [hi] at hs
    exact .storesJob a u hi (Option.some.inj hs).symm
  | dropOr a =>
    simp only [hi] at hs
    exact .drops a hi (Option.some.inj hs).symm
  | enqueue a =>
    simp only [hi] at hs
    obtain ⟨p, hp, hs⟩ := Option.map_eq_some_iff.mp hs
    exact .enqueues a p hi hp hs.symm

/-- A new poll, with nodes whose interest and options pass the assertions of `ReadinessState::new`. -/
structure Registrations.Starts (s : Registrations ι α J) : Prop where
  polling : s.polling = .new
  nodes : ∀ a, ∃ token interest opt, s.nodes a = .new token interest opt ∧
    interest.bits ≤ MASK_4 ∧ opt.bits ≤ MASK_4
  threads : ∀ i, s.threads i = .idle
  hold : s.hold = .load
  released : ∀ a, s.released a = false
  signalled : ∀ a, s.signalled a = false

end MyMio

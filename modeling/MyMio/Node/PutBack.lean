import MyMio.Queue.Until
import MyMio.Node.Events

/-! # Nodes that are put back

A level-triggered node that is ready goes back into the queue before its event is pushed, so that the
next `poll` finds it. It is behind the `until` of this one: it is not dequeued again, and has no second
event, before `poll` returns (`put_back_fires_once`); and the call goes on with what was ahead of the
`until` and no more (`until_bounds_drain`).
-/

namespace MyMio
set_option autoImplicit false

open BrokenQueue StepSystem

universe u v w

variable {ι : Type v} {α : Type u} {J : Type w} [DecidableEq ι] [DecidableEq α]

/-! ## One call of `poll` -/

/-- The call of `poll` has not returned. -/
def InCall (s : Registrations ι α J) (_ : RegistrationsOp ι α J) : Prop := s.polling.poller ≠ .idle

instance (s : Registrations ι α J) (op : RegistrationsOp ι α J) : Decidable (InCall s op) :=
  inferInstanceAs (Decidable (_ ≠ _))

section Call
variable {s s' : Registrations ι α J} {a x : α}

theorem nodeStep_returned (hs : s.nodeStep = some s') : ∃ ret, s.polling.queue.consumer = .returned ret := by
  unfold Registrations.nodeStep at hs
  split at hs <;> first | exact ⟨_, ‹_›⟩ | cases hs

theorem fired_of_not_dequeued {op : RegistrationsOp ι α J} (howned : s.Owned)
    (hs : registrationsStep s op = some s')
    (hnot : s.polling.queue.consumer ≠ .returned (.dequeue (.data (.data a)))) :
    s'.fired a = s.fired a := by
  cases registrationsStep_events howned hs a with
  | thread _ _ _ hfired => exact hfired
  | stays _ _ _ hfired => exact hfired
  | node hop hmove =>
    cases hmove with
    | stays _ hfired => exact hfired
    | settles hholding _ _ _ =>
      subst hop
      obtain ⟨ret, hret⟩ := nodeStep_returned hs
      unfold Registrations.holding at hholding
      rw [hret] at hholding
      split at hholding
      · rename_i hc
        cases hc
      · rename_i b hc
        split at hholding <;> simp_all
      · cases hholding

theorem run_behind (hreach : Reachable registrationsStep Registrations.Starts s)
    (hfence : Fence s.polling x) (hbehind : Behind s.polling.queue x a)
    (hnot : s.polling.queue.consumer ≠ .returned (.dequeue (.data (.data a))))
    {ops : List (RegistrationsOp ι α J)} (hok : Along registrationsStep InCall s ops)
    (hs : run registrationsStep s ops = some s') : s'.fired a = s.fired a := by
  induction ops generalizing s with
  | nil =>
    obtain rfl : s = s' := by simpa using hs
    rfl
  | cons op ops ih =>
    obtain ⟨m, hm, hrest⟩ := run_cons hs
    have howned := registrations_owned hreach
    have hfired := fired_of_not_dequeued howned hm hnot
    have hreach' := hreach.next op hm
    have hok' := hok.2 m hm
    rcases registrationsStep_advances howned hm with hsame | ⟨pop, -, hp⟩
    · exact (ih hreach' (hsame ▸ hfence) (hsame ▸ hbehind) (hsame ▸ hnot) hok' hrest).trans hfired
    · obtain ⟨nodes, hsound⟩ := howned.sound
      rcases hbehind.move hsound.pending_nodup hnot (hfence.step hsound howned.recorded hp) with
        hidle | ⟨hfence', hbehind', hnot'⟩
      · cases ops with
        | nil =>
          obtain rfl : m = s' := by simpa using hrest
          exact hfired
        | cons op' ops => exact absurd hidle hok'.1
      · exact (ih hreach' hfence' hbehind' hnot' hok' hrest).trans hfired

/-- A call of `poll` takes a part of what is ahead of its `until`. -/
theorem run_taken {ahead rest : List α} (hreach : Reachable registrationsStep Registrations.Starts s)
    (hfence : Fence s.polling x) (hpending : s.polling.queue.pending = ahead ++ x :: rest)
    {ops : List (RegistrationsOp ι α J)} (hok : Along registrationsStep InCall s ops)
    (hs : run registrationsStep s ops = some s') :
    ∃ taken, taken <+: ahead ∧ s'.polling.queue.taken = s.polling.queue.taken ++ taken := by
  induction ops generalizing s ahead rest with
  | nil =>
    obtain rfl : s = s' := by simpa using hs
    exact ⟨[], List.nil_prefix, (List.append_nil _).symm⟩
  | cons op ops ih =>
    obtain ⟨m, hm, hrest⟩ := run_cons hs
    have howned := registrations_owned hreach
    have hreach' := hreach.next op hm
    have hok' := hok.2 m hm
    rcases registrationsStep_advances howned hm with hsame | ⟨pop, -, hp⟩
    · rw [← hsame]
      exact ih hreach' (hsame ▸ hfence) (hsame ▸ hpending) hok' hrest
    obtain ⟨nodes, hsound⟩ := howned.sound
    cases hfence.step hsound howned.recorded hp with
    | returns hidle hqueue =>
      cases ops with
      | nil =>
        obtain rfl : m = s' := by simpa using hrest
        exact ⟨[], List.nil_prefix, by rw [hqueue, List.append_nil]⟩
      | cons op' ops => exact absurd hidle hok'.1
    | stays added hfence' hpending' htaken _ _ =>
      rw [hpending, List.append_assoc, List.cons_append] at hpending'
      rw [← htaken]
      exact ih hreach' hfence' hpending' hok' hrest
    | takes b hfence' hb hpending' htaken _ _ =>
      rw [hpending] at hpending'
      cases ahead with
      | nil => exact absurd (List.cons.inj hpending').1.symm hb
      | cons c ahead =>
        obtain ⟨rfl, htail⟩ := List.cons.inj hpending'
        obtain ⟨taken, hprefix, htaken'⟩ := ih hreach' hfence' htail.symm hok' hrest
        refine ⟨c :: taken, List.cons_prefix_cons.mpr ⟨rfl, hprefix⟩, ?_⟩
        rw [htaken', htaken, List.append_assoc]
        rfl
    | starts b hfence' _ hpending' htaken _ =>
      rw [← htaken]
      exact ih hreach' hfence' (hpending'.trans hpending) hok' hrest
    | putsBack b hfence' _ hpending' htaken _ _ =>
      rw [hpending, List.append_assoc, List.cons_append] at hpending'
      rw [← htaken]
      exact ih hreach' hfence' hpending' hok' hrest

end Call

/-- **A node that is put back fires once.** From the call of `enqueue_node` that puts a node back, no
event of it is decided on before `poll` returns, whatever the threads do with it meanwhile. -/
theorem put_back_fires_once (a : α) (s₁ s : Registrations ι α J)
    (hs₁ : Reachable registrationsStep Registrations.Starts s₁)
    (hc : s₁.polling.queue.consumer = .requeue a .start) (ops : List (RegistrationsOp ι α J))
    (hok : Along registrationsStep InCall s₁ ops) (hs : run registrationsStep s₁ ops = some s) :
    s.fired a = s₁.fired a := by
  have hp := registrations_polling hs₁
  obtain ⟨l, hl⟩ := Option.ne_none_iff_exists'.mp (polling_limited hp.reachable a .start hc)
  obtain ⟨x, rfl, hfence, hbehind, -⟩ := polling_fenced hp l hl
  have hputting : s₁.polling.queue.consumer.putting = some a := by rw [hc]; rfl
  refine run_behind hs₁ hfence ?_ (by rw [hc]; exact nofun) hok hs
  rcases hbehind with ⟨ahead, rest, hsplit, -⟩ | ⟨hx, -⟩
  · exact .inl ⟨ahead, rest, hsplit, .inr hputting⟩
  · exact .inr ⟨hx, Option.some.inj (hputting.symm.trans hx)⟩

/-- Nodes that ask for readable events, level-triggered. -/
def levelNodes : Registrations Unit ℕ ℕ :=
  { oneNode with nodes := fun _ => .new ⟨.tokenEvent, ⟨7⟩⟩ .readable .level }

theorem levelNodes_starts : levelNodes.Starts where
  polling := rfl
  nodes _ := ⟨_, _, _, rfl, by decide, by decide⟩
  threads _ := rfl
  hold := rfl
  released _ := rfl
  signalled _ := rfl

/-- `set_readiness` for the nodes 0 and 1, and a `poll` up to the node it puts back first. -/
def twoReadyOps : List (RegistrationsOp Unit ℕ ℕ) :=
  [0, 1].flatMap (fun a => .call () (.setReadiness a .readable) :: List.replicate 3 (.thread ()) ++
    List.replicate 4 (.producer () false)) ++ callPollOps ++ pollerOps 2 1

/-- The rest of that `poll`: the node 1 is put back as well, and node 0 is at the tail again. -/
def goOnOps : List (RegistrationsOp Unit ℕ ℕ) :=
  pollerOps 4 3 ++ pollerOps 1 1 ++ pollerOps 4 3 ++ pollerOps 1 0 ++ [.poll (.dequeued false false)]

/-- The `poll` returns with one event of the node, which is in the queue. -/
theorem put_back_fires_once_level :
    ∃ s₁ s : Registrations Unit ℕ ℕ, s₁.fired 0 = 1 ∧ s.polling.poller = .idle ∧
      s.polling.queue.pending = [0, 1] ∧ s.fired 0 = s₁.fired 0 := by
  obtain ⟨s₁, hs₁, hfirst⟩ : ∃ s₁ : Registrations Unit ℕ ℕ,
      run registrationsStep levelNodes twoReadyOps = some s₁ ∧
        (s₁.fired 0, s₁.polling.queue.consumer) = (1, .requeue 0 .start) :=
    Option.map_eq_some_iff.mp (by decide +kernel)
  obtain ⟨hfired, hc⟩ := Prod.mk.inj hfirst
  obtain ⟨s, hall, hlast⟩ : ∃ s : Registrations Unit ℕ ℕ,
      run registrationsStep levelNodes (twoReadyOps ++ goOnOps) = some s ∧
        (s.polling.poller, s.polling.queue.pending) = (.idle, [0, 1]) :=
    Option.map_eq_some_iff.mp (by decide +kernel)
  obtain ⟨hidle, hpending⟩ := Prod.mk.inj hlast
  have hok : (run registrationsStep levelNodes twoReadyOps).all (fun s₁ =>
      decide (Along registrationsStep InCall s₁ goOnOps)) = true := by decide +kernel
  rw [hs₁] at hok
  rw [run_append hs₁] at hall
  exact ⟨s₁, s, hfired, hidle, hpending, put_back_fires_once 0 s₁ s
    ((Reachable.start levelNodes_starts).run hs₁) hc goOnOps (of_decide_eq_true hok) hall⟩

/-- **The drain is bounded.** The `until` of `poll` is a node that it is about to swap in, or has put
back. From then on it takes nodes that are ahead of it, in their order, and no others: not those enqueued
later, however many, nor those put back. -/
theorem until_bounds_drain (s₁ s : Registrations ι α J)
    (hs₁ : Reachable registrationsStep Registrations.Starts s₁) (l : Ptr α)
    (hl : s₁.polling.poller.limit = some l) (ops : List (RegistrationsOp ι α J))
    (hok : Along registrationsStep InCall s₁ ops) (hs : run registrationsStep s₁ ops = some s) :
    ∃ x, l = .data x ∧ (s₁.polling.queue.consumer.putting = some x ∨
      ∃ ahead rest taken, s₁.polling.queue.pending = ahead ++ x :: rest ∧ x ∉ ahead ++ rest ∧
        taken <+: ahead ∧ s.polling.queue.taken = s₁.polling.queue.taken ++ taken) := by
  obtain ⟨x, rfl, hfence, hbehind, -⟩ := polling_fenced (registrations_polling hs₁) l hl
  refine ⟨x, rfl, ?_⟩
  rcases hbehind with ⟨ahead, rest, hsplit, -⟩ | ⟨hx, -⟩
  · obtain ⟨taken, hprefix, htaken⟩ := run_taken hs₁ hfence hsplit hok hs
    obtain ⟨nodes, hsound⟩ := (registrations_owned hs₁).sound
    have hnodup := hsound.pending_nodup
    rw [hsplit, List.nodup_middle] at hnodup
    exact .inr ⟨ahead, rest, taken, hsplit, (List.nodup_cons.mp hnodup).1, hprefix, htaken⟩
  · exact .inl hx

/-- With the node 0 put back, the node 1 is taken and nothing else. -/
theorem until_bounds_drain_level :
    ∃ s₁ s : Registrations Unit ℕ ℕ, s₁.polling.queue.pending = [1, 0] ∧ s.polling.poller = .idle ∧
      ∃ ahead rest taken, s₁.polling.queue.pending = ahead ++ 0 :: rest ∧ 0 ∉ ahead ++ rest ∧
        taken <+: ahead ∧ s.polling.queue.taken = s₁.polling.queue.taken ++ taken := by
  obtain ⟨s₁, hs₁, hfirst⟩ : ∃ s₁ : Registrations Unit ℕ ℕ,
      run registrationsStep levelNodes (twoReadyOps ++ pollerOps 4 0) = some s₁ ∧
        (s₁.polling.queue.pending, s₁.polling.poller.limit, s₁.polling.queue.consumer.putting) =
          ([1, 0], some (.data 0), none) := Option.map_eq_some_iff.mp (by decide +kernel)
  simp only [Prod.mk.injEq] at hfirst
  obtain ⟨hpending, hl, hin⟩ := hfirst
  obtain ⟨s, hall, hidle⟩ : ∃ s : Registrations Unit ℕ ℕ,
      run registrationsStep levelNodes ((twoReadyOps ++ pollerOps 4 0) ++ goOnOps.drop 4) = some s ∧
        s.polling.poller = .idle := Option.map_eq_some_iff.mp (by decide +kernel)
  have hok : (run registrationsStep levelNodes (twoReadyOps ++ pollerOps 4 0)).all (fun s₁ =>
      decide (Along registrationsStep InCall s₁ (goOnOps.drop 4))) = true := by decide +kernel
  rw [hs₁] at hok
  rw [run_append hs₁] at hall
  obtain ⟨x, hx, hdrain⟩ := until_bounds_drain s₁ s ((Reachable.start levelNodes_starts).run hs₁)
    (.data 0) hl (goOnOps.drop 4) (of_decide_eq_true hok) hall
  obtain rfl := Ptr.data.inj hx
  exact ⟨s₁, s, hpending, hidle, hdrain.resolve_left (by rw [hin]; exact nofun)⟩

end MyMio

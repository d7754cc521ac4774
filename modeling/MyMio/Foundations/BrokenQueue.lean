import Mathlib.Data.List.Chain
import Mathlib.Data.List.Nodup
import Mathlib.Logic.Function.Basic
import Mathlib.Tactic.Common

/-! # Queues linked in two steps

Any number of enqueuers push nodes at the head of a singly linked queue, each in two atomic steps: it
swaps the head for its node, and only then points the old head at the node. In between the queue
is broken after the old head. One consumer takes nodes from the tail, which only it moves.

`Broken mem tail busy nodes` says that `nodes` is such a queue, from the tail to the head: each node
points at the next one, or points nowhere while one enqueuer is about to make it do so. The lemmas
say what each step of an enqueuer and of the consumer makes of it. `Linked mem tail nodes` is the same
with nobody at work, where an enqueue is one step.
-/

namespace BrokenQueue
set_option autoImplicit false

universe u v

variable {κ : Type u} {ω : Type v}

/-- The shared part: the head, and where each node points. -/
structure Mem (κ : Type u) where
  head : κ
  next : κ → Option κ

/-- Where an enqueuer is: about to clear its node's pointer, to load the head, to swap it for the
node if it still is `prev`, or to point `prev` at the node. -/
inductive Phase (κ : Type u)
  | start
  | load
  | exchange (prev : κ)
  | link (prev : κ)
  deriving DecidableEq, Repr

/-- The node of each enqueuer that is at work. -/
abbrev Busy (κ : Type u) (ω : Type v) := ω → Option (κ × Phase κ)

def Phase.Waiting : Phase κ → Prop
  | .link _ => False
  | _ => True

/-- Node `x` points at `y`, or nowhere while an enqueuer is about to make it do so. -/
def Joined (mem : Mem κ) (busy : Busy κ ω) (x y : κ) : Prop :=
  mem.next x = some y ∨ mem.next x = none ∧ ∃ o, busy o = some (y, .link x)

structure Broken (mem : Mem κ) (tail : κ) (busy : Busy κ ω) (nodes : List κ) : Prop where
  first : nodes.head? = some tail
  last : nodes.getLast? = some mem.head
  nodup : nodes.Nodup
  chain : nodes.IsChain (Joined mem busy)
  ends : mem.next mem.head = none
  linking : ∀ o x y, busy o = some (y, .link x) →
    mem.next x = none ∧ ∃ xs ys, nodes = xs ++ x :: y :: ys
  waiting : ∀ o y p, busy o = some (y, p) → p.Waiting →
    y ∉ nodes ∧ (p ≠ .start → mem.next y = none)
  distinct : ∀ o o' y p p', busy o = some (y, p) → busy o' = some (y, p') → o = o'

/-! ## Changing the phase of one enqueuer -/

theorem of_update [DecidableEq ω] {β : Type u} {f : ω → Option β} {o o' : ω} {b : Option β} {c : β}
    (h : Function.update f o b o' = some c) : o' = o ∧ b = some c ∨ o' ≠ o ∧ f o' = some c := by
  by_cases he : o' = o
  · subst he
    rw [Function.update_self] at h
    exact .inl ⟨rfl, h⟩
  · rw [Function.update_of_ne he] at h
    exact .inr ⟨he, h⟩

theorem broken_single {x : κ} {busy : Busy κ ω} (hbusy : ∀ o, busy o = none) :
    Broken ⟨x, fun _ => none⟩ x busy [x] where
  first := rfl
  last := rfl
  nodup := List.nodup_singleton x
  chain := .singleton x
  ends := rfl
  linking o x y h := by simp [hbusy] at h
  waiting o y p h := by simp [hbusy] at h
  distinct o o' y p p' h := by simp [hbusy] at h

/-- An enqueuer takes up a node no other one has, or goes on with its own. -/
theorem Broken.distinct_update [DecidableEq ω] {mem : Mem κ} {tail : κ} {busy : Busy κ ω}
    {nodes : List κ} (h : Broken mem tail busy nodes) {o : ω} {y : κ} {q : Phase κ}
    (hfree : ∀ o' p, o' ≠ o → busy o' ≠ some (y, p)) (o₁ o₂ : ω) (z : κ) (p p' : Phase κ)
    (h₁ : Function.update busy o (some (y, q)) o₁ = some (z, p))
    (h₂ : Function.update busy o (some (y, q)) o₂ = some (z, p')) : o₁ = o₂ := by
  rcases of_update h₁ with ⟨rfl, e₁⟩ | ⟨hne₁, e₁⟩ <;> rcases of_update h₂ with ⟨rfl, e₂⟩ | ⟨hne₂, e₂⟩
  · rfl
  · obtain ⟨rfl, -⟩ := Prod.mk.inj (Option.some.inj e₁)
    exact absurd e₂ (hfree o₂ p' hne₂)
  · obtain ⟨rfl, -⟩ := Prod.mk.inj (Option.some.inj e₂)
    exact absurd e₁ (hfree o₁ p hne₁)
  · exact h.distinct o₁ o₂ z p p' e₁ e₂

theorem Broken.not_busy {mem : Mem κ} {tail : κ} {busy : Busy κ ω} {nodes : List κ}
    (h : Broken mem tail busy nodes) {o : ω} {y : κ} {p : Phase κ} (ho : busy o = some (y, p)) (o' : ω)
    (q : Phase κ) (hne : o' ≠ o) : busy o' ≠ some (y, q) :=
  fun ho' => hne (h.distinct o' o y q p ho' ho)

/-! ## Reading the queue -/

section Reading
variable {mem : Mem κ} {tail : κ} {busy : Busy κ ω} {nodes : List κ}

theorem Broken.cons (h : Broken mem tail busy nodes) : ∃ rest, nodes = tail :: rest := by
  cases nodes with
  | nil => cases h.first
  | cons x rest => exact ⟨rest, by rw [Option.some.inj h.first]⟩

theorem Broken.tail_mem (h : Broken mem tail busy nodes) : tail ∈ nodes := by
  obtain ⟨rest, rfl⟩ := h.cons
  exact List.mem_cons_self

theorem Broken.head_mem (h : Broken mem tail busy nodes) : mem.head ∈ nodes :=
  List.mem_of_getLast? h.last

/-- The consumer at the head has the whole queue before it. -/
theorem Broken.single (h : Broken mem tail busy nodes) (heq : mem.head = tail) : nodes = [tail] := by
  obtain ⟨rest, rfl⟩ := h.cons
  cases rest with
  | nil => rfl
  | cons y ys =>
    have hlast := h.last
    rw [List.getLast?_cons_cons, heq] at hlast
    exact absurd (List.mem_of_getLast? hlast) (List.nodup_cons.mp h.nodup).1

theorem Broken.next_eq (h : Broken mem tail busy nodes) {y : κ} (hy : mem.next tail = some y) :
    ∃ rest, nodes = tail :: y :: rest := by
  obtain ⟨rest, rfl⟩ := h.cons
  cases rest with
  | nil =>
    have hhead : mem.head = tail := (Option.some.inj h.last).symm
    have hend := h.ends
    rw [hhead, hy] at hend
    cases hend
  | cons z rest =>
    rcases (List.isChain_cons_cons.mp h.chain).1 with hz | ⟨hz, -⟩
    · exact ⟨rest, by rw [Option.some.inj (hz.symm.trans hy)]⟩
    · rw [hy] at hz
      cases hz

/-- A tail that points nowhere is the head, or is about to be linked to the next node. -/
theorem Broken.next_none (h : Broken mem tail busy nodes) (hy : mem.next tail = none) :
    nodes = [tail] ∨ ∃ o y, busy o = some (y, .link tail) := by
  obtain ⟨rest, rfl⟩ := h.cons
  cases rest with
  | nil => exact .inl rfl
  | cons y rest =>
    rcases (List.isChain_cons_cons.mp h.chain).1 with hz | ⟨-, o, ho⟩
    · rw [hy] at hz
      cases hz
    · exact .inr ⟨o, y, ho⟩

theorem follower_unique {nodes : List κ} (hnd : nodes.Nodup) {x y z : κ} {xs ys xs' ys' : List κ}
    (h : nodes = xs ++ x :: y :: ys) (h' : nodes = xs' ++ x :: z :: ys') : y = z := by
  have hnd' := hnd
  rw [h'] at hnd'
  obtain ⟨-, hcons, hdisj⟩ := List.nodup_append.mp hnd'
  have hx : x ∉ xs' := fun hm => hdisj x hm x List.mem_cons_self rfl
  have hz : x ∉ z :: ys' := (List.nodup_cons.mp hcons).1
  obtain ⟨-, -, heq⟩ := (List.append_cons_inj_of_notMem hx hz).mp (h'.symm.trans h)
  exact (List.cons.inj heq).1.symm

end Reading

/-! ## Steps of the enqueuers -/

section Enqueuers
variable {mem : Mem κ} {tail : κ} {busy : Busy κ ω} {nodes : List κ} {o : ω} {x y : κ}

theorem Broken.clear [DecidableEq κ] (h : Broken mem tail busy nodes) (hy : y ∉ nodes) :
    Broken { mem with next := Function.update mem.next y none } tail busy nodes := by
  have hsame : ∀ x ∈ nodes, Function.update mem.next y none x = mem.next x := fun x hx =>
    Function.update_of_ne (fun he : x = y => hy (he ▸ hx)) _ _
  refine ⟨h.first, h.last, h.nodup, ?_, (hsame _ h.head_mem).trans h.ends, fun o x z ho => ?_,
    fun o z p ho hp => ?_, h.distinct⟩
  · refine h.chain.imp_of_mem_imp fun x z hx hz hj => ?_
    simpa only [Joined, hsame x hx] using hj
  · obtain ⟨hn, xs, ys, hl⟩ := h.linking o x z ho
    exact ⟨(hsame x (hl ▸ by simp)).trans hn, xs, ys, hl⟩
  · obtain ⟨hz, hn⟩ := h.waiting o z p ho hp
    refine ⟨hz, fun hp' => ?_⟩
    by_cases he : z = y
    · subst he
      exact Function.update_self _ _ _
    · exact (Function.update_of_ne he _ _).trans (hn hp')

variable [DecidableEq ω]

/-- An enqueuer that is not about to link takes another phase of waiting: it sets out with a node
that is nowhere in the queue, or goes on with its own. -/
theorem Broken.wait (h : Broken mem tail busy nodes) {p : Phase κ} (hp : p.Waiting)
    (ho : ∀ x z, busy o ≠ some (z, .link x)) (hfree : ∀ o' q, o' ≠ o → busy o' ≠ some (y, q))
    (hy : y ∉ nodes) (hnext : p ≠ .start → mem.next y = none) :
    Broken mem tail (Function.update busy o (some (y, p))) nodes := by
  refine ⟨h.first, h.last, h.nodup, h.chain.imp fun x z hj => ?_, h.ends, fun o' x z ho' => ?_,
    fun o' z q ho' hq => ?_, h.distinct_update hfree⟩
  · refine hj.imp_right fun ⟨hn, o', ho'⟩ => ⟨hn, o', ?_⟩
    rw [Function.update_of_ne, ho']
    rintro rfl
    exact ho x z ho'
  · rcases of_update ho' with ⟨-, e⟩ | ⟨-, e⟩
    · obtain ⟨-, rfl⟩ := Prod.mk.inj (Option.some.inj e)
      exact absurd hp id
    · exact h.linking o' x z e
  · rcases of_update ho' with ⟨-, e⟩ | ⟨-, e⟩
    · obtain ⟨rfl, rfl⟩ := Prod.mk.inj (Option.some.inj e)
      exact ⟨hy, hnext⟩
    · exact h.waiting o' z q e hq

theorem Broken.leave (h : Broken mem tail busy nodes) (ho : ∀ x z, busy o ≠ some (z, .link x)) :
    Broken mem tail (Function.update busy o none) nodes := by
  have hothers : ∀ o' z p, Function.update busy o none o' = some (z, p) → busy o' = some (z, p) := by
    intro o' z p ho'
    rcases of_update ho' with ⟨-, e⟩ | ⟨-, e⟩
    · cases e
    · exact e
  refine ⟨h.first, h.last, h.nodup, h.chain.imp fun x z hj => ?_, h.ends,
    fun o' x z ho' => h.linking o' x z (hothers o' z _ ho'),
    fun o' z q ho' hq => h.waiting o' z q (hothers o' z q ho') hq,
    fun o₁ o₂ z p p' h₁ h₂ => h.distinct o₁ o₂ z p p' (hothers _ _ _ h₁) (hothers _ _ _ h₂)⟩
  refine hj.imp_right fun ⟨hn, o', ho'⟩ => ⟨hn, o', ?_⟩
  rw [Function.update_of_ne, ho']
  rintro rfl
  exact ho x z ho'

/-- **The swap of the head.** The node is the new head, and the old one is about to be linked. -/
theorem Broken.push (h : Broken mem tail busy nodes) (ho : busy o = some (y, .exchange mem.head)) :
    Broken { mem with head := y } tail
      (Function.update busy o (some (y, .link mem.head))) (nodes ++ [y]) := by
  obtain ⟨hy, hnext⟩ := h.waiting o y _ ho trivial
  have hnext : mem.next y = none := hnext (by simp)
  obtain ⟨rest, hrest⟩ := h.cons
  have hkeep : ∀ x z, Joined mem busy x z → Joined { mem with head := y }
      (Function.update busy o (some (y, .link mem.head))) x z := by
    intro x z hj
    refine hj.imp_right fun ⟨hn, o', ho'⟩ => ⟨hn, o', ?_⟩
    rw [Function.update_of_ne, ho']
    rintro rfl
    rw [ho] at ho'
    cases ho'
  refine ⟨?_, ?_, ?_, ?_, hnext, fun o' x z ho' => ?_, fun o' z q ho' hq => ?_,
    h.distinct_update (h.not_busy ho)⟩
  · rw [hrest]
    rfl
  · simp
  · exact List.nodup_append.mpr ⟨h.nodup, List.nodup_singleton y,
      fun x hx z hz he => hy (List.mem_singleton.mp hz ▸ he ▸ hx)⟩
  · refine List.isChain_append.mpr ⟨h.chain.imp hkeep, .singleton y, fun x hx z hz => ?_⟩
    have hx' : mem.head = x := Option.some.inj (h.last.symm.trans hx)
    obtain rfl : y = z := Option.some.inj hz
    exact .inr ⟨hx' ▸ h.ends, o, by rw [Function.update_self, hx']⟩
  · rcases of_update ho' with ⟨-, e⟩ | ⟨-, e⟩
    · obtain ⟨rfl, hx⟩ := Prod.mk.inj (Option.some.inj e)
      obtain rfl := Phase.link.inj hx
      obtain ⟨xs, hxs⟩ := List.getLast?_eq_some_iff.mp h.last
      exact ⟨h.ends, xs, [], by rw [hxs, List.append_assoc]; rfl⟩
    · obtain ⟨hn, xs, ys, hl⟩ := h.linking o' x z e
      exact ⟨hn, xs, ys ++ [y], by rw [hl, List.append_assoc]; rfl⟩
  · rcases of_update ho' with ⟨-, e⟩ | ⟨hne, e⟩
    · obtain ⟨-, rfl⟩ := Prod.mk.inj (Option.some.inj e)
      exact absurd hq id
    · obtain ⟨hz, hn⟩ := h.waiting o' z q e hq
      refine ⟨fun hm => ?_, hn⟩
      rcases List.mem_append.mp hm with hm | hm
      · exact hz hm
      · exact h.not_busy ho o' q hne (List.mem_singleton.mp hm ▸ e)

/-- **The link.** The old head points at the node, and the enqueuer is done. -/
theorem Broken.link [DecidableEq κ] (h : Broken mem tail busy nodes)
    (ho : busy o = some (y, .link x)) :
    Broken { mem with next := Function.update mem.next x (some y) } tail
      (Function.update busy o none) nodes := by
  obtain ⟨hx, xs, ys, hl⟩ := h.linking o x y ho
  have hmem : x ∈ nodes := hl ▸ by simp
  have hothers : ∀ o' z p, Function.update busy o none o' = some (z, p) →
      o' ≠ o ∧ busy o' = some (z, p) := by
    intro o' z p ho'
    rcases of_update ho' with ⟨-, e⟩ | h
    · cases e
    · exact h
  -- no other enqueuer is about to link the same node
  have honly : ∀ o' z x', o' ≠ o → busy o' = some (z, .link x') → x' ≠ x := by
    rintro o' z x' hne ho' rfl
    obtain ⟨-, xs', ys', hl'⟩ := h.linking o' x' z ho'
    obtain rfl := follower_unique h.nodup hl hl'
    exact h.not_busy ho o' _ hne ho'
  refine ⟨h.first, h.last, h.nodup, ?_, ?_, fun o' x' z ho' => ?_, fun o' z q ho' hq => ?_,
    fun o₁ o₂ z p p' h₁ h₂ => h.distinct o₁ o₂ z p p' (hothers _ _ _ h₁).2 (hothers _ _ _ h₂).2⟩
  · refine List.isChain_iff_forall_rel_of_append_cons_cons.mpr fun x' z l₁ l₂ hl' => ?_
    by_cases he : x' = x
    · subst he
      obtain rfl := follower_unique h.nodup hl hl'
      exact .inl (Function.update_self _ _ _)
    · have hj : Joined mem busy x' z :=
        List.isChain_iff_forall_rel_of_append_cons_cons.mp h.chain hl'
      have hsame : Function.update mem.next x (some y) x' = mem.next x' :=
        Function.update_of_ne he _ _
      refine hj.imp hsame.trans fun ⟨hn, o', ho'⟩ => ⟨hsame.trans hn, o', ?_⟩
      rw [Function.update_of_ne, ho']
      rintro rfl
      rw [ho] at ho'
      exact he (Phase.link.inj (Prod.mk.inj (Option.some.inj ho')).2).symm
  · have hne : mem.head ≠ x := by
      rintro rfl
      obtain ⟨init, hinit⟩ := List.getLast?_eq_some_iff.mp h.last
      have hnd := h.nodup
      rw [hl] at hnd
      obtain ⟨-, hcons, hdisj⟩ := List.nodup_append.mp hnd
      have hlast : (y :: ys).getLast? = some mem.head := by
        have hlast := h.last
        rw [hl, List.getLast?_append, List.getLast?_cons_cons] at hlast
        cases hys : (y :: ys).getLast? with
        | none => simp at hys
        | some z => simpa [hys] using hlast
      exact (List.nodup_cons.mp hcons).1 (List.mem_of_getLast? hlast)
    exact (Function.update_of_ne hne _ _).trans h.ends
  · obtain ⟨hne, e⟩ := hothers o' z _ ho'
    obtain ⟨hn, hadj⟩ := h.linking o' x' z e
    exact ⟨(Function.update_of_ne (honly o' z x' hne e) _ _).trans hn, hadj⟩
  · obtain ⟨hne, e⟩ := hothers o' z q ho'
    obtain ⟨hz, hn⟩ := h.waiting o' z q e hq
    exact ⟨hz, fun hp => (Function.update_of_ne (fun he : z = x => hz (he ▸ hmem)) _ _).trans (hn hp)⟩

end Enqueuers

/-! ## Steps of the consumer -/

section Consumer
variable {mem : Mem κ} {tail : κ} {busy : Busy κ ω} {x y : κ} {rest : List κ}

/-- The consumer moves on to the node its tail points at. -/
theorem Broken.advance (h : Broken mem tail busy (tail :: y :: rest)) (hy : mem.next tail = some y) :
    Broken mem y busy (y :: rest) := by
  refine ⟨rfl, ?_, (List.nodup_cons.mp h.nodup).2, (List.isChain_cons_cons.mp h.chain).2, h.ends,
    fun o x z ho => ?_, fun o z p ho hp => ?_, h.distinct⟩
  · rw [← h.last, List.getLast?_cons_cons]
  · obtain ⟨hn, xs, ys, hl⟩ := h.linking o x z ho
    refine ⟨hn, ?_⟩
    cases xs with
    | nil =>
      obtain ⟨rfl, -⟩ := List.cons.inj hl
      rw [hy] at hn
      cases hn
    | cons w xs => exact ⟨xs, ys, (List.cons.inj hl).2⟩
  · obtain ⟨hz, hn⟩ := h.waiting o z p ho hp
    exact ⟨fun hm => hz (List.mem_cons_of_mem tail hm), hn⟩

theorem Broken.replace (h : Broken mem x busy [x]) (hne : mem.next y = none)
    (hfree : ∀ o p, busy o ≠ some (y, p)) : Broken { mem with head := y } y busy [y] := by
  refine ⟨rfl, rfl, List.nodup_singleton y, .singleton y, hne, fun o x' z ho => ?_,
    fun o z p ho hp => ?_, h.distinct⟩
  · obtain ⟨-, xs, ys, hl⟩ := h.linking o x' z ho
    have := congrArg List.length hl
    simp at this
    omega
  · refine ⟨fun hm => ?_, (h.waiting o z p ho hp).2⟩
    exact hfree o p (List.mem_singleton.mp hm ▸ ho)

end Consumer

/-! ## Queues at rest -/

/-- A queue nobody is at work on: each node points at the next one. -/
def Linked (mem : Mem κ) (tail : κ) (nodes : List κ) : Prop :=
  Broken mem tail (fun _ : Unit => none) nodes

/-- All the accesses of one enqueuer, with nobody in between. -/
def Mem.enqueue [DecidableEq κ] (mem : Mem κ) (y : κ) : Mem κ where
  head := y
  next := Function.update (Function.update mem.next y none) mem.head (some y)

section Rest
variable {mem : Mem κ} {tail x y : κ} {nodes rest : List κ}

theorem Broken.linked {busy : Busy κ ω} (h : Broken mem tail busy nodes)
    (hbusy : ∀ o, busy o = none) : Linked mem tail nodes where
  first := h.first
  last := h.last
  nodup := h.nodup
  chain := by
    refine h.chain.imp fun x y hj => ?_
    apply hj.imp_right
    intro ⟨_, o, ho⟩
    rw [hbusy o] at ho
    cases ho
  ends := h.ends
  linking o x y ho := by cases ho
  waiting o y p ho := by cases ho
  distinct o o' y p p' ho := by cases ho

theorem Linked.next_tail (h : Linked mem tail (x :: rest)) : mem.next tail = rest.head? := by
  obtain rfl : x = tail := Option.some.inj h.first
  cases rest with
  | nil =>
    have hhead : x = mem.head := Option.some.inj h.last
    rw [hhead]
    exact h.ends
  | cons y rest =>
    apply (List.isChain_cons_cons.mp h.chain).1.resolve_right
    intro ⟨_, o, ho⟩
    cases ho

theorem Linked.head_eq_tail_iff (h : Linked mem tail (x :: rest)) : mem.head = tail ↔ rest = [] := by
  obtain rfl : x = tail := Option.some.inj h.first
  refine ⟨fun hhead => (List.cons.inj (h.single hhead)).2, fun hrest => ?_⟩
  subst hrest
  exact (Option.some.inj h.last).symm

theorem Linked.advance (h : Linked mem tail (x :: y :: rest)) : Linked mem y (y :: rest) := by
  have hnext := h.next_tail
  obtain rfl : x = tail := Option.some.inj h.first
  exact Broken.advance h hnext

/-- **An enqueue.** One enqueuer clears its node, swaps the head and links. -/
theorem Linked.enqueue [DecidableEq κ] (h : Linked mem tail nodes) (hy : y ∉ nodes) :
    Linked (mem.enqueue y) tail (nodes ++ [y]) := by
  have hcleared : Linked { mem with next := Function.update mem.next y none } tail nodes :=
    Broken.clear h hy
  have hwaiting := Broken.wait (o := ()) (p := .exchange mem.head) hcleared trivial
    (fun x z ho => by cases ho) (fun o' q _ ho => by cases ho) hy fun _ => Function.update_self _ _ _
  have hpushed := hwaiting.push (Function.update_self _ _ _)
  have hlinked := hpushed.link (Function.update_self _ _ _)
  refine hlinked.linked fun o => ?_
  exact Function.update_self _ _ _

theorem Linked.replace [DecidableEq κ] (h : Linked mem x [x]) (hne : y ≠ x) :
    Linked ⟨y, Function.update mem.next y none⟩ y [y] := by
  have hcleared : Linked { mem with next := Function.update mem.next y none } x [x] :=
    Broken.clear h fun hm => hne (List.mem_singleton.mp hm)
  exact Broken.replace hcleared (Function.update_self _ _ _) fun o p ho => by cases ho

end Rest

end BrokenQueue

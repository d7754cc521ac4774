import Mathlib.Data.List.Basic
import Mathlib.Logic.Function.Basic

/-! # Doubly linked lists over a table of links

A table gives a node its two links, `some (prev, next)`, or nothing. `Chain links p xs e` says that
the nodes `xs` are linked in that order, the first one back to `p` and the last one on to `e`; a
whole list is a chain from a sentinel `nil` to itself. An edit changes one link of one node
(`pointBack`, `pointOn`), or of none when it is given the sentinel, as code that tests for the end of
the list does; `Chain.pushFront` and `Chain.unlink` are the two whole edits.
-/

namespace DoublyLinked
set_option autoImplicit false

universe u

variable {κ : Type u}

abbrev Links (κ : Type u) := κ → Option (κ × κ)

/-- The nodes of the list are linked in this order, from `p` on and up to `e`. -/
def Chain (links : Links κ) : κ → List κ → κ → Prop
  | _, [], _ => True
  | p, x :: xs, e => links x = some (p, xs.headD e) ∧ Chain links x xs e

/-! ## Splitting and framing -/

section Splitting
variable {links links' : Links κ} {p x e : κ} {xs ys : List κ}

@[simp] theorem chain_nil : Chain links p [] e := trivial

theorem chain_cons : Chain links p (x :: xs) e ↔
    links x = some (p, xs.headD e) ∧ Chain links x xs e := Iff.rfl

theorem chain_append : Chain links p (xs ++ ys) e ↔
    Chain links p xs (ys.headD e) ∧ Chain links (xs.getLastD p) ys e := by
  induction xs generalizing p with
  | nil => simp
  | cons x xs ih =>
    have hhead : (xs ++ ys).headD e = xs.headD (ys.headD e) := by cases xs <;> rfl
    have hlast : (x :: xs).getLastD p = xs.getLastD x := by cases xs <;> rfl
    rw [List.cons_append, chain_cons, ih, chain_cons, hhead, hlast, and_assoc]

/-- The links of a node in the middle. -/
theorem Chain.at (h : Chain links p (xs ++ x :: ys) e) :
    links x = some (xs.getLastD p, ys.headD e) :=
  (chain_append.mp h).2.1

theorem Chain.congr (h : Chain links p xs e) (hl : ∀ y ∈ xs, links' y = links y) :
    Chain links' p xs e := by
  induction xs generalizing p with
  | nil => trivial
  | cons x xs ih =>
    refine ⟨(hl x List.mem_cons_self).trans h.1, ih h.2 fun y hy => hl y (List.mem_cons_of_mem x hy)⟩

end Splitting

/-! ## Edits -/

variable [DecidableEq κ]

def setPrev (links : Links κ) (x p : κ) : Links κ :=
  Function.update links x ((links x).map fun l => (p, l.2))

def setNext (links : Links κ) (x q : κ) : Links κ :=
  Function.update links x ((links x).map fun l => (l.1, q))

/-- Point node `x` back to `p`, unless `x` is the sentinel. -/
def pointBack (nil : κ) (links : Links κ) (x p : κ) : Links κ :=
  if x = nil then links else setPrev links x p

/-- Point node `x` on to `q`, unless `x` is the sentinel. -/
def pointOn (nil : κ) (links : Links κ) (x q : κ) : Links κ :=
  if x = nil then links else setNext links x q

section Edits
variable {links : Links κ} {nil p q x y e : κ} {xs ys : List κ}

theorem setPrev_of_ne (h : y ≠ x) : setPrev links x p y = links y := Function.update_of_ne h _ _

theorem setNext_of_ne (h : y ≠ x) : setNext links x q y = links y := Function.update_of_ne h _ _

theorem pointBack_of_ne (h : y ≠ x) : pointBack nil links x p y = links y := by
  unfold pointBack
  split
  · rfl
  · exact setPrev_of_ne h

theorem pointOn_of_ne (h : y ≠ x) : pointOn nil links x q y = links y := by
  unfold pointOn
  split
  · rfl
  · exact setNext_of_ne h

/-- Retargeting the back link of the first node of a chain that ends at the sentinel. -/
theorem Chain.pointBack (h : Chain links p xs nil) (hnil : nil ∉ xs) (hnd : xs.Nodup) (p' : κ) :
    Chain (pointBack nil links (xs.headD nil) p') p' xs nil := by
  cases xs with
  | nil => trivial
  | cons x xs =>
    have hx : x ≠ nil := fun hx => hnil (hx ▸ List.mem_cons_self)
    have hnot : x ∉ xs := (List.nodup_cons.mp hnd).1
    refine ⟨?_, h.2.congr fun y hy => ?_⟩
    · simp [DoublyLinked.pointBack, hx, setPrev, h.1]
    · exact pointBack_of_ne fun hy' : y = x => hnot (hy' ▸ hy)

/-- Retargeting the forward link of the last node of a chain that starts at the sentinel. -/
theorem Chain.pointOn (h : Chain links nil xs e) (hnil : nil ∉ xs) (hnd : xs.Nodup) (q : κ) :
    Chain (pointOn nil links (xs.getLastD nil) q) nil xs q := by
  rcases List.eq_nil_or_concat xs with rfl | ⟨init, x, rfl⟩
  · trivial
  · rw [List.concat_eq_append] at h hnil hnd ⊢
    have hlast : (init ++ [x]).getLastD nil = x := by simp
    have hx : x ≠ nil := fun hx => hnil (hx ▸ by simp)
    have hnot : x ∉ init := fun hmem => (List.nodup_append.mp hnd).2.2 x hmem x (by simp) rfl
    obtain ⟨hinit, hlink⟩ := chain_append.mp h
    rw [hlast]
    refine chain_append.mpr ⟨hinit.congr fun y hy => ?_, ?_, trivial⟩
    · exact pointOn_of_ne fun hy' => hnot (hy' ▸ hy)
    · simp [DoublyLinked.pointOn, hx, setNext, hlink.1]

theorem Chain.pushFront (h : Chain links nil xs nil) (hnil : nil ∉ x :: xs)
    (hnd : (x :: xs).Nodup) :
    Chain (DoublyLinked.pointBack nil (Function.update links x (some (nil, xs.headD nil)))
      (xs.headD nil) x) nil (x :: xs) nil := by
  obtain ⟨hnot, hnd'⟩ := List.nodup_cons.mp hnd
  have hframe : Chain (Function.update links x (some (nil, xs.headD nil))) nil xs nil :=
    h.congr fun y hy => Function.update_of_ne (fun hy' : y = x => hnot (hy' ▸ hy)) _ _
  have hx : x ≠ xs.headD nil := by
    cases xs with
    | nil => exact fun hx => hnil (hx ▸ List.mem_cons_self)
    | cons y ys => exact fun hx => hnot (hx ▸ List.mem_cons_self)
  refine ⟨?_, hframe.pointBack (fun hm => hnil (List.mem_cons_of_mem x hm)) hnd' x⟩
  rw [pointBack_of_ne hx, Function.update_self]

theorem Chain.unlink (h : Chain links nil (xs ++ x :: ys) nil) (hnil : nil ∉ xs ++ x :: ys)
    (hnd : (xs ++ x :: ys).Nodup) :
    Chain (DoublyLinked.pointBack nil
        (DoublyLinked.pointOn nil links (xs.getLastD nil) (ys.headD nil))
        (ys.headD nil) (xs.getLastD nil)) nil (xs ++ ys) nil := by
  obtain ⟨hndx, hndy, hdisj⟩ := List.nodup_append.mp hnd
  have hxs : nil ∉ xs := fun hm => hnil (by simp [hm])
  have hys : nil ∉ ys := fun hm => hnil (by simp [hm])
  obtain ⟨hl, hr⟩ := chain_append.mp h
  have hlast : ∀ y ∈ ys, y ≠ xs.getLastD nil := by
    intro y hy heq
    rcases List.eq_nil_or_concat xs with rfl | ⟨init, z, rfl⟩
    · have heq' : y = nil := heq
      exact hys (heq' ▸ hy)
    · rw [List.concat_eq_append] at hdisj heq
      exact hdisj z (by simp) y (by simp [hy]) (by simpa using heq.symm)
  have hhead : ∀ y ∈ xs, y ≠ ys.headD nil := by
    intro y hy heq
    cases ys with
    | nil =>
      have heq' : y = nil := heq
      exact hxs (heq' ▸ hy)
    | cons z zs => exact hdisj y hy z (by simp) heq
  have hl' := hl.pointOn hxs hndx (ys.headD nil)
  have hon : Chain (DoublyLinked.pointOn nil links (xs.getLastD nil) (ys.headD nil)) x ys nil :=
    hr.2.congr fun y hy => pointOn_of_ne (hlast y hy)
  have hr' := hon.pointBack hys (List.nodup_cons.mp hndy).2 (xs.getLastD nil)
  exact chain_append.mpr ⟨hl'.congr fun y hy => pointBack_of_ne (hhead y hy), hr'⟩

end Edits

end DoublyLinked

import Mathlib
import FunRiscv.Alloc.Heap

/-!
# Laws of heaps

What a caller may know of a heap: its operations move elements only, they see nothing of them but
their order, and whichever operations made it, its first element comes before no other.

* `Heap.Made`: an array to which only the operations were applied.
* `LawfulHeap`: the laws of the operations. `UniformHeap`: they go along with maps
  that keep the order.
* `Heap.replace_perm`, `Heap.replace_map`: what follows for the replacement of an element.
* `Heap.inOrder_eq_self`: elements that are in order come back as they are.
-/

namespace FunRiscv

/-- A strict order in which elements that are not comparable are alike. -/
structure Heap.Strict {α : Type} (less : α → α → Bool) : Prop where
  asymm : ∀ x y, less x y = true → less y x = false
  trans : ∀ x y z, less y x = false → less z y = false → less z x = false

/-- Heaps that the operations make. -/
inductive Heap.Made [Heap] {α : Type} (less : α → α → Bool) : Array α → Prop
  | empty : Made less #[]
  | push {d : Array α} (h : Made less d) (x : α) : Made less (Heap.push less d x)
  | pop {d rest : Array α} {x : α} (h : Made less d) (hpop : Heap.pop? less d = some (x, rest)) :
    Made less rest
  | replace {d : Array α} {i : Nat} (h : Made less d) (hi : i < d.size) (x : α) :
    Made less (Heap.replace less d i x)

/-- The laws of heaps. -/
class LawfulHeap [Heap] : Prop where
  /-- The first element of a heap is a least one, since all operations keep the order. -/
  first_least {α : Type} {less : α → α → Bool} (hless : Heap.Strict less) {d : Array α}
    (h : Heap.Made less d) {x : α} (hx : d[0]? = some x) : ∀ y ∈ d.toList, less y x = false
  /-- Adding an element adds it. -/
  push_perm {α : Type} (less : α → α → Bool) (d : Array α) (x : α) :
    (Heap.push less d x).toList.Perm (x :: d.toList)
  /-- The element taken is the first one, if there is one. -/
  pop?_first {α : Type} (less : α → α → Bool) (d : Array α) :
    (Heap.pop? less d).map Prod.fst = d[0]?
  /-- Taking an element leaves the others. -/
  pop?_perm {α : Type} {less : α → α → Bool} {d rest : Array α} {x : α}
    (h : Heap.pop? less d = some (x, rest)) : d.toList.Perm (x :: rest.toList)
  /-- Restoring the order moves elements only. -/
  fix_perm {α : Type} (less : α → α → Bool) (d : Array α) (i : Nat) :
    (Heap.fix less d i).toList.Perm d.toList

/-- The operations go along with maps that keep the order: they see nothing else of the elements. -/
class UniformHeap [Heap] : Prop where
  push_map {α β : Type} {less : α → α → Bool} {less' : β → β → Bool} {g : α → β}
    (hless : ∀ x y, less' (g x) (g y) = less x y) (d : Array α) (x : α) :
    Heap.push less' (d.map g) (g x) = (Heap.push less d x).map g
  pop?_map {α β : Type} {less : α → α → Bool} {less' : β → β → Bool} {g : α → β}
    (hless : ∀ x y, less' (g x) (g y) = less x y) (d : Array α) :
    Heap.pop? less' (d.map g) = (Heap.pop? less d).map fun (x, rest) => (g x, rest.map g)
  fix_map {α β : Type} {less : α → α → Bool} {less' : β → β → Bool} {g : α → β}
    (hless : ∀ x y, less' (g x) (g y) = less x y) (d : Array α) (i : Nat) :
    Heap.fix less' (d.map g) i = (Heap.fix less d i).map g

namespace Heap

variable [Heap] {α : Type} {less : α → α → Bool} {d rest : Array α} {x : α}

section Uniform

variable [UniformHeap] {β : Type} {less' : β → β → Bool} {g : α → β}
  (hless : ∀ x y, less' (g x) (g y) = less x y)
include hless

theorem replace_map (d : Array α) (i : Nat) (x : α) :
    replace less' (d.map g) i (g x) = (replace less d i x).map g := by
  rw [replace, ← Array.map_setIfInBounds, UniformHeap.fix_map hless, replace]

theorem drain_map (count : Nat) (d : Array α) :
    drain less' count (d.map g) = (drain less count d).map g := by
  induction count generalizing d with
  | zero => rfl
  | succ count ih =>
    rw [drain, drain, UniformHeap.pop?_map hless]
    cases pop? less d with
    | none => rfl
    | some p => exact congrArg (g p.1 :: ·) (ih p.2)

theorem foldl_push_map (d : Array α) (xs : List α) :
    (xs.map g).foldl (push less') (d.map g) = (xs.foldl (push less) d).map g := by
  induction xs generalizing d with
  | nil => rfl
  | cons x xs ih =>
    rw [List.map_cons, List.foldl_cons, UniformHeap.push_map hless, ih, List.foldl_cons]

theorem inOrder_map (xs : List α) : inOrder less' (xs.map g) = (inOrder less xs).map g := by
  rw [inOrder, inOrder, List.length_map, ← drain_map hless, ← foldl_push_map hless, Array.map_empty]

end Uniform

theorem made_foldl_push (h : Made less d) (xs : List α) : Made less (xs.foldl (push less) d) := by
  induction xs generalizing d with
  | nil => exact h
  | cons x xs ih => exact ih (h.push x)

section Lawful

variable [LawfulHeap]

/-- Replacing an element takes the old one out. -/
theorem replace_perm (less : α → α → Bool) {i : Nat} {old : α} (hi : d.toList[i]? = some old)
    (x : α) : (old :: (replace less d i x).toList).Perm (x :: d.toList) := by
  have hset : (replace less d i x).toList.Perm (d.setIfInBounds i x).toList :=
    LawfulHeap.fix_perm less _ i
  obtain ⟨hlt, rfl⟩ := List.getElem?_eq_some_iff.1 hi
  rw [Array.toList_setIfInBounds] at hset
  refine (hset.cons _).trans ?_
  have hsplit : d.toList = d.toList.take i ++ d.toList[i] :: d.toList.drop (i + 1) := by
    rw [List.getElem_cons_drop, List.take_append_drop]
  conv_rhs => rw [hsplit]
  rw [List.set_eq_take_append_cons_drop, if_pos hlt]
  refine (List.Perm.cons _ List.perm_middle).trans ?_
  refine (List.Perm.swap _ _ _).trans ?_
  exact (List.perm_middle.symm).cons _

/-- What is taken from a heap is a least element. -/
theorem Made.pop_least (h : Made less d) (hless : Strict less)
    (hpop : pop? less d = some (x, rest)) : ∀ y ∈ d.toList, less y x = false := by
  have hfirst := LawfulHeap.pop?_first less d
  rw [hpop] at hfirst
  exact LawfulHeap.first_least hless h hfirst.symm

/-- Nothing can be taken from an empty heap only. -/
theorem eq_empty_of_pop? (h : pop? less d = none) : d = #[] := by
  have hfirst := LawfulHeap.pop?_first less d
  rw [h, Option.map_none, eq_comm, Array.getElem?_eq_none_iff] at hfirst
  exact Array.eq_empty_of_size_eq_zero (Nat.le_zero.1 hfirst)

theorem exists_pop? (less : α → α → Bool) (h : d ≠ #[]) :
    ∃ x rest, pop? less d = some (x, rest) := by
  cases hpop : pop? less d with
  | none => exact absurd (eq_empty_of_pop? hpop) h
  | some p => exact ⟨p.1, p.2, rfl⟩

theorem push_empty (less : α → α → Bool) (x : α) : push less #[] x = #[x] :=
  Array.toList_inj.1 (List.perm_singleton.1 (LawfulHeap.push_perm less #[] x))

theorem pop?_singleton (less : α → α → Bool) (x : α) : pop? less #[x] = some (x, #[]) := by
  obtain ⟨y, rest, hpop⟩ := exists_pop? less (show #[x] ≠ #[] by simp)
  have hperm := (LawfulHeap.pop?_perm hpop).symm
  obtain ⟨rfl, hrest⟩ := List.cons.inj (List.perm_singleton.1 hperm)
  rw [hpop, Array.toList_eq_nil_iff.1 hrest]

/-! ### Elements in order -/

theorem foldl_push_perm (d : Array α) (xs : List α) :
    (xs.foldl (push less) d).toList.Perm (xs ++ d.toList) := by
  induction xs generalizing d with
  | nil => exact .refl _
  | cons x xs ih =>
    exact (ih _).trans ((LawfulHeap.push_perm less d x).append_left xs |>.trans List.perm_middle)

/-- A heap of elements that are in order gives them back in this order. -/
theorem drain_eq (hless : Strict less) (h : Made less d) {xs : List α} (hperm : d.toList.Perm xs)
    (hxs : xs.Pairwise fun x y => less x y = true) : drain less xs.length d = xs := by
  induction xs generalizing d with
  | nil => rfl
  | cons x xs ih =>
    rw [List.pairwise_cons] at hxs
    have hne : d ≠ #[] := by
      rintro rfl
      exact absurd hperm.length_eq (by simp)
    obtain ⟨y, rest, hpop⟩ := exists_pop? less hne
    have hrest := LawfulHeap.pop?_perm hpop
    -- What comes first in the heap is not after the first of the elements, which comes
    -- before all others.
    have hy : y = x := by
      have hmem : y ∈ x :: xs := (hrest.symm.trans hperm).mem_iff.1 List.mem_cons_self
      refine (List.mem_cons.1 hmem).resolve_right fun hy => ?_
      have hbefore := h.pop_least hless hpop x (hperm.mem_iff.2 List.mem_cons_self)
      rw [hxs.1 y hy] at hbefore
      cases hbefore
    subst hy
    rw [List.length_cons, drain, hpop]
    exact congrArg _ (ih (h.pop hpop) (hrest.symm.trans hperm).cons_inv hxs.2)

theorem inOrder_eq_self (hless : Strict less) {xs : List α}
    (hxs : xs.Pairwise fun x y => less x y = true) : inOrder less xs = xs :=
  drain_eq hless (made_foldl_push .empty xs) ((foldl_push_perm #[] xs).trans (by simp)) hxs

end Lawful

end Heap

end FunRiscv

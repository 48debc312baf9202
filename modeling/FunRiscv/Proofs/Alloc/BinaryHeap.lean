import Mathlib
import FunRiscv.Alloc.Heap

/-!
# The elements of a binary heap

The operations on binary heaps only move elements, and they see nothing of them but their order.

* `BinaryHeap.siftUp_perm`, `BinaryHeap.siftDown_perm`: sifting permutes.
* `BinaryHeap.push_perm`, `BinaryHeap.perm_of_pop?`, `BinaryHeap.fix_perm`: so do the operations.
* `BinaryHeap.push_map`, `BinaryHeap.pop?_map`, `BinaryHeap.fix_map`: the operations on elements
  that were mapped in a way that keeps their order.
-/

namespace FunRiscv.BinaryHeap

section Steps

variable {α : Type} {less : α → α → Bool} {d : Array α} {i : Nat}

theorem siftDown_of_none (h : firstChild? less d i = none) : siftDown less d i = d := by
  rw [siftDown]
  split
  · rfl
  · next c hc => simp [hc] at h

theorem siftDown_of_some {c : Nat} (hc : c < d.size) (h : firstChild? less d i = some ⟨c, hc⟩)
    (hi : i < d.size) :
    siftDown less d i = if less d[c] d[i] then siftDown less (d.swap i c hi hc) c else d := by
  rw [siftDown]
  split
  · next hnone => simp [hnone] at h
  · next c' hc' =>
    obtain rfl : ⟨c, hc⟩ = c' := by simpa [h] using hc'
    rfl

end Steps

/-! ### Moved elements -/

section Moves

variable {α : Type} (less : α → α → Bool)

theorem swap_perm {d : Array α} {i j : Nat} (hi : i < d.size) (hj : j < d.size) :
    (d.swap i j hi hj).toList.Perm d.toList := (Array.swap_perm hi hj).toList

theorem siftUp_perm (d : Array α) (i : Nat) : (siftUp less d i).1.toList.Perm d.toList := by
  induction d, i using siftUp.induct less with
  | case1 d i h hi hp hless ih =>
    rw [siftUp, dif_pos h, if_pos hless]
    exact ih.trans (swap_perm hi hp)
  | case2 d i h hi hp hless =>
    rw [siftUp, dif_pos h, if_neg hless]
  | case3 d i h =>
    rw [siftUp, dif_neg h]

theorem siftDown_perm (d : Array α) (i : Nat) : (siftDown less d i).toList.Perm d.toList := by
  induction d, i using siftDown.induct less with
  | case1 d i h =>
    rw [siftDown_of_none h]
  | case2 d i c h hc hi hless ih =>
    rw [Fin.getElem_fin] at hless
    rw [siftDown_of_some c.isLt h hi, if_pos hless]
    exact ih.trans (swap_perm hi c.isLt)
  | case3 d i c h hc hi hless =>
    rw [Fin.getElem_fin] at hless
    rw [siftDown_of_some c.isLt h hi, if_neg hless]

/-- Adding an element adds it. -/
theorem push_perm (d : Array α) (x : α) : (push less d x).toList.Perm (x :: d.toList) := by
  refine (siftUp_perm less (d.push x) d.size).trans ?_
  rw [Array.toList_push]
  exact List.perm_append_singleton x d.toList

/-- Taking an element leaves the others. -/
theorem perm_of_pop? {d rest : Array α} {x : α} (h : pop? less d = some (x, rest)) :
    d.toList.Perm (x :: rest.toList) := by
  unfold pop? at h
  split at h
  · next hsize =>
    obtain ⟨rfl, rfl⟩ := Prod.mk.inj (Option.some.inj h)
    have hlast : d.size - 1 < d.size := by omega
    have hswap : (d.swap 0 (d.size - 1)).toList = (d.swap 0 (d.size - 1)).pop.toList ++ [d[0]] := by
      have hne : (d.swap 0 (d.size - 1)).toList ≠ [] := by
        intro hnil
        have hlen := congrArg List.length hnil
        rw [Array.length_toList, Array.size_swap, List.length_nil] at hlen
        omega
      rw [Array.toList_pop]
      conv_lhs => rw [← List.dropLast_append_getLast hne]
      congr 2
      rw [List.getLast_eq_getElem]
      simp
    have hperm : d.toList.Perm ((d.swap 0 (d.size - 1)).pop.toList ++ [d[0]]) := by
      rw [← hswap]
      exact (swap_perm hsize hlast).symm
    refine hperm.trans ((List.perm_append_singleton _ _).trans ?_)
    exact ((siftDown_perm less _ 0).symm).cons _
  · simp at h

/-- Moving an element to where it belongs moves elements only. -/
theorem fix_perm (d : Array α) (i : Nat) : (fix less d i).toList.Perm d.toList := by
  unfold fix
  have hup := siftUp_perm less d i
  revert hup
  rcases siftUp less d i with ⟨e, j⟩
  intro hup
  dsimp only
  split
  · exact (siftDown_perm less e i).trans hup
  · exact hup

end Moves

/-! ### Mapped elements -/

section Map

variable {α β : Type} {less : α → α → Bool} {less' : β → β → Bool} {g : α → β}

theorem swap_map (g : α → β) {d : Array α} {i j : Nat} (hi : i < d.size) (hj : j < d.size) :
    (d.map g).swap i j (by simpa using hi) (by simpa using hj) = (d.swap i j hi hj).map g := by
  refine Array.ext (by simp) fun k hk hk' => ?_
  simp only [Array.getElem_swap, Array.getElem_map]
  split
  · rfl
  · split <;> rfl

variable (hless : ∀ x y, less' (g x) (g y) = less x y)
include hless

theorem siftUp_map (d : Array α) (i : Nat) :
    siftUp less' (d.map g) i = ((siftUp less d i).1.map g, (siftUp less d i).2) := by
  induction d, i using siftUp.induct less with
  | case1 d i h hi hp hl ih =>
    rw [siftUp, siftUp, dif_pos h, if_pos hl, dif_pos (by simpa using h)]
    simp only [Array.getElem_map, hless, hl, if_true]
    rw [← ih, swap_map]
  | case2 d i h hi hp hl =>
    rw [siftUp, siftUp, dif_pos h, if_neg hl, dif_pos (by simpa using h)]
    simp only [Array.getElem_map, hless, if_neg hl]
  | case3 d i h =>
    rw [siftUp, siftUp, dif_neg h, dif_neg (by simpa using h)]

theorem firstChild?_map (d : Array α) (i : Nat) :
    firstChild? less' (d.map g) i = (firstChild? less d i).map (Fin.cast Array.size_map.symm) := by
  simp only [firstChild?, Array.size_map, Array.getElem_map, hless]
  split
  · split
    · split <;> rfl
    · rfl
  · rfl

theorem siftDown_map (d : Array α) (i : Nat) :
    siftDown less' (d.map g) i = (siftDown less d i).map g := by
  induction d, i using siftDown.induct less with
  | case1 d i h =>
    have h' : firstChild? less' (d.map g) i = none := by rw [firstChild?_map hless, h]; rfl
    rw [siftDown_of_none h, siftDown_of_none h']
  | case2 d i c h hc hi hl ih =>
    have h' : firstChild? less' (d.map g) i = some (c.cast Array.size_map.symm) := by
      rw [firstChild?_map hless, h]; rfl
    rw [Fin.getElem_fin] at hl
    rw [siftDown_of_some c.isLt h hi, siftDown_of_some (by simp) h' (by simpa using hi), if_pos hl,
      if_pos (by simpa [hless] using hl)]
    rw [← ih, ← swap_map g hi c.isLt]
  | case3 d i c h hc hi hl =>
    have h' : firstChild? less' (d.map g) i = some (c.cast Array.size_map.symm) := by
      rw [firstChild?_map hless, h]; rfl
    rw [Fin.getElem_fin] at hl
    rw [siftDown_of_some c.isLt h hi, siftDown_of_some (by simp) h' (by simpa using hi), if_neg hl,
      if_neg (by simpa [hless] using hl)]

theorem push_map (d : Array α) (x : α) : push less' (d.map g) (g x) = (push less d x).map g := by
  rw [push, push, ← Array.map_push, siftUp_map hless, Array.size_map]

theorem pop?_map (d : Array α) :
    pop? less' (d.map g) = (pop? less d).map fun (x, rest) => (g x, rest.map g) := by
  simp only [pop?, Array.size_map, Array.getElem_map]
  split
  · rw [Option.map_some, swap_map, ← siftDown_map hless, Array.map_pop]
  · rfl

theorem fix_map (d : Array α) (i : Nat) : fix less' (d.map g) i = (fix less d i).map g := by
  simp only [fix, siftUp_map hless]
  split
  · exact siftDown_map hless _ i
  · rfl

end Map

end FunRiscv.BinaryHeap

import Mathlib
import FunRiscv.Proofs.Alloc.BinaryHeap
import FunRiscv.Proofs.Alloc.Heap

/-!
# The order of a binary heap

The operations on binary heaps keep the order: no element comes before its parent. While an
element is sifted, pairs that it takes part in may be out of order, and its children are in
order with its parent.

* `BinaryHeap.Ordered`: the order. `BinaryHeap.Ordered.root`: nothing comes before the
  first element.
* `BinaryHeap.Rising`, `BinaryHeap.Sinking`: what is in order while an element moves towards the
  root or away from it.
* `BinaryHeap.Ordered.push`, `BinaryHeap.Ordered.pop?`, `BinaryHeap.Ordered.replace`: the
  operations keep the order.
* `BinaryHeap.Ordered.of_made`: so the laws of heaps hold of binary heaps.
-/

namespace FunRiscv

theorem Heap.Strict.irrefl {α : Type} {less : α → α → Bool} (hs : Strict less) (x : α) :
    less x x = false := by
  cases h : less x x
  · rfl
  · exact h ▸ hs.asymm x x h

namespace BinaryHeap

open Heap (Strict)

variable {α : Type} {less : α → α → Bool} {d : Array α} {i : Nat}

/-- The element at place `j`, if there is one, does not come before the one at place `p`. -/
def NotBefore (less : α → α → Bool) (d : Array α) (j p : Nat) : Prop :=
  ∀ x y, d[j]? = some x → d[p]? = some y → less x y = false

/-- No element of the heap comes before its parent. -/
def Ordered (less : α → α → Bool) (d : Array α) : Prop :=
  ∀ j, 0 < j → NotBefore less d j ((j - 1) / 2)

/-- The children of a place do not come before its parent. -/
def Skips (less : α → α → Bool) (d : Array α) (i : Nat) : Prop :=
  0 < i → ∀ j, 0 < j → (j - 1) / 2 = i → NotBefore less d j ((i - 1) / 2)

/-- The order while the element at place `i` moves towards the root: only it may come
before its parent. -/
structure Rising (less : α → α → Bool) (d : Array α) (i : Nat) : Prop where
  others : ∀ j, 0 < j → j ≠ i → NotBefore less d j ((j - 1) / 2)
  skips : Skips less d i

/-- The order while the element at place `i` moves away from the root: only its children
may come before it. -/
structure Sinking (less : α → α → Bool) (d : Array α) (i : Nat) : Prop where
  others : ∀ j, 0 < j → (j - 1) / 2 ≠ i → NotBefore less d j ((j - 1) / 2)
  skips : Skips less d i

/-! ### Elements in order -/

theorem notBefore_iff {j p : Nat} (hj : j < d.size) (hp : p < d.size) :
    NotBefore less d j p ↔ less d[j] d[p] = false := by
  simp [NotBefore, Array.getElem?_eq_getElem hj, Array.getElem?_eq_getElem hp]

theorem NotBefore.trans (hs : Strict less) {j k p : Nat} (hk : k < d.size)
    (hjk : NotBefore less d j k) (hkp : NotBefore less d k p) : NotBefore less d j p := by
  intro x y hx hy
  have hget := Array.getElem?_eq_getElem hk
  exact hs.trans y d[k] x (hkp _ _ hget hy) (hjk _ _ hx hget)

theorem NotBefore.of_size_le {j : Nat} (hj : d.size ≤ j) (p : Nat) : NotBefore less d j p := by
  intro x y hx
  rw [Array.getElem?_eq_none hj] at hx
  simp at hx

theorem NotBefore.of_eq {e : Array α} {j p : Nat} (h : NotBefore less d j p)
    (hj : ∀ x, e[j]? = some x → d[j]? = some x) (hp : ∀ y, e[p]? = some y → d[p]? = some y) :
    NotBefore less e j p := fun x y hx hy => h x y (hj x hx) (hp y hy)

theorem getElem?_swap_eq {j k : Nat} (hi : i < d.size) (hk : k < d.size) :
    (d.swap i k hi hk)[j]? = d[Equiv.swap i k j]? := by
  rw [Array.getElem?_swap, Equiv.swap_apply_def]
  by_cases hji : j = i
  · by_cases hik : i = k
    · rw [if_pos (hji.trans hik).symm, if_pos hji, ← hik, Array.getElem?_eq_getElem hi]
    · rw [if_neg (fun h => hik (h.trans hji).symm), if_pos hji.symm, if_pos hji,
        Array.getElem?_eq_getElem hk]
  · by_cases hjk : j = k
    · rw [if_pos hjk.symm, if_neg hji, if_pos hjk, Array.getElem?_eq_getElem hi]
    · rw [if_neg (Ne.symm hjk), if_neg (Ne.symm hji), if_neg hji, if_neg hjk]

/-- Swapped elements are in order where they were. -/
theorem notBefore_swap {j k p : Nat} (hi : i < d.size) (hk : k < d.size) :
    NotBefore less (d.swap i k hi hk) j p ↔
      NotBefore less d (Equiv.swap i k j) (Equiv.swap i k p) := by
  simp only [NotBefore, getElem?_swap_eq]

theorem Ordered.skips (hs : Strict less) (ho : Ordered less d) (hi : i < d.size) :
    Skips less d i := by
  intro hpos j hj hparent
  exact NotBefore.trans hs hi (hparent ▸ ho j hj) (ho i hpos)

/-- Nothing comes before the first element. -/
theorem Ordered.root (hs : Strict less) (ho : Ordered less d) (j : Nat) (hj : j < d.size) :
    NotBefore less d j 0 := by
  induction j using Nat.strongRecOn with
  | ind j ih =>
    rcases Nat.eq_zero_or_pos j with rfl | hpos
    · rw [notBefore_iff hj hj]
      exact hs.irrefl _
    · exact NotBefore.trans hs (by omega) (ho j hpos) (ih ((j - 1) / 2) (by omega) (by omega))

/-! ### Towards the root -/

theorem Rising.stop (hr : Rising less d i) (hi : 0 < i → NotBefore less d i ((i - 1) / 2)) :
    Ordered less d := by
  intro j hpos
  by_cases hji : j = i
  · exact hji ▸ hi (hji ▸ hpos)
  · exact hr.others j hpos hji

theorem Rising.swap (hs : Strict less) (hr : Rising less d i) (hpos : 0 < i) (hi : i < d.size)
    (hp : (i - 1) / 2 < d.size) (hless : less d[i] d[(i - 1) / 2] = true) :
    Rising less (d.swap i ((i - 1) / 2)) ((i - 1) / 2) := by
  have hback : NotBefore less d ((i - 1) / 2) i := (notBefore_iff hp hi).2 (hs.asymm _ _ hless)
  constructor
  case others =>
    intro j hj hjp
    rw [notBefore_swap]
    by_cases hji : j = i
    · rwa [hji, Equiv.swap_apply_left, Equiv.swap_apply_right]
    · rw [Equiv.swap_apply_of_ne_of_ne hji hjp]
      by_cases hchild : (j - 1) / 2 = i
      · rw [hchild, Equiv.swap_apply_left]
        exact hr.skips hpos j hj hchild
      · by_cases hsibling : (j - 1) / 2 = (i - 1) / 2
        · rw [hsibling, Equiv.swap_apply_right]
          exact NotBefore.trans hs hp (hsibling ▸ hr.others j hj hji) hback
        · rw [Equiv.swap_apply_of_ne_of_ne hchild hsibling]
          exact hr.others j hj hji
  case skips =>
    intro hp0 j hj hparent
    have habove := hr.others ((i - 1) / 2) hp0 (by omega)
    rw [notBefore_swap, Equiv.swap_apply_of_ne_of_ne (x := ((i - 1) / 2 - 1) / 2)
      (by omega) (by omega)]
    by_cases hji : j = i
    · rwa [hji, Equiv.swap_apply_left]
    · rw [Equiv.swap_apply_of_ne_of_ne hji (by omega)]
      exact NotBefore.trans hs hp (hparent ▸ hr.others j hj hji) habove

theorem Rising.siftUp (hs : Strict less) (hr : Rising less d i) :
    Ordered less (siftUp less d i).1 := by
  induction d, i using siftUp.induct less with
  | case1 d i h hi hp hless ih =>
    rw [BinaryHeap.siftUp, dif_pos h, if_pos hless]
    exact ih (hr.swap hs h.1 hi hp hless)
  | case2 d i h hi hp hless =>
    rw [BinaryHeap.siftUp, dif_pos h, if_neg hless]
    exact hr.stop fun _ => (notBefore_iff hi hp).2 (by simpa using hless)
  | case3 d i h =>
    rw [BinaryHeap.siftUp, dif_neg h]
    exact hr.stop fun hpos => NotBefore.of_size_le (by omega) _

/-- An element that does not come before its parent stays. -/
theorem siftUp_eq_self (hi : 0 < i → NotBefore less d i ((i - 1) / 2)) :
    siftUp less d i = (d, i) := by
  rw [BinaryHeap.siftUp]
  split
  · next h =>
    rw [if_neg (by simp [(notBefore_iff h.2 (by omega)).1 (hi h.1)])]
  · rfl

theorem siftUp_le (d : Array α) (i : Nat) : (siftUp less d i).2 ≤ i := by
  induction d, i using siftUp.induct less with
  | case1 d i h hi hp hless ih =>
    rw [BinaryHeap.siftUp, dif_pos h, if_pos hless]
    omega
  | case2 d i h hi hp hless => rw [BinaryHeap.siftUp, dif_pos h, if_neg hless]
  | case3 d i h => rw [BinaryHeap.siftUp, dif_neg h]

/-! ### Away from the root -/

/-- The first child is a child, and no child comes before it. -/
theorem firstChild?_spec (hs : Strict less) {c : Fin d.size} (h : firstChild? less d i = some c) :
    0 < c.val ∧ (c.val - 1) / 2 = i ∧ ∀ j, 0 < j → (j - 1) / 2 = i → NotBefore less d j c := by
  have hself : NotBefore less d c c := (notBefore_iff c.isLt c.isLt).2 (hs.irrefl _)
  unfold firstChild? at h
  split at h
  · next hl =>
    split at h
    · next hr =>
      split at h
      · next hless =>
        obtain rfl := Option.some.inj h
        refine ⟨by simp, by simp only; omega, fun j hj hp => ?_⟩
        obtain rfl | rfl : j = 2 * i + 1 ∨ j = 2 * i + 2 := by omega
        · exact (notBefore_iff hl hr).2 (hs.asymm _ _ hless)
        · exact hself
      · next hless =>
        obtain rfl := Option.some.inj h
        refine ⟨by simp, by simp only; omega, fun j hj hp => ?_⟩
        obtain rfl | rfl : j = 2 * i + 1 ∨ j = 2 * i + 2 := by omega
        · exact hself
        · exact (notBefore_iff hr hl).2 (by simpa using hless)
    · next hr =>
      obtain rfl := Option.some.inj h
      refine ⟨by simp, by simp only; omega, fun j hj hp => ?_⟩
      obtain rfl | rfl : j = 2 * i + 1 ∨ j = 2 * i + 2 := by omega
      · exact hself
      · exact NotBefore.of_size_le (by omega) _
  · simp at h

theorem size_le_of_firstChild? (h : firstChild? less d i = none) : d.size ≤ 2 * i + 1 := by
  unfold firstChild? at h
  grind

theorem Sinking.stop (hk : Sinking less d i)
    (hi : ∀ j, 0 < j → (j - 1) / 2 = i → NotBefore less d j i) : Ordered less d := by
  intro j hpos
  by_cases hparent : (j - 1) / 2 = i
  · exact hparent ▸ hi j hpos hparent
  · exact hk.others j hpos hparent

theorem Sinking.swap (hs : Strict less) (hk : Sinking less d i) (hi : i < d.size) {c : Nat}
    (hc : c < d.size) (hc0 : 0 < c) (hparent : (c - 1) / 2 = i)
    (hleast : ∀ j, 0 < j → (j - 1) / 2 = i → NotBefore less d j c) (hless : less d[c] d[i] = true) :
    Sinking less (d.swap i c) c := by
  have hback : NotBefore less d i c := (notBefore_iff hi hc).2 (hs.asymm _ _ hless)
  constructor
  case others =>
    intro j hj hne
    rw [notBefore_swap]
    by_cases hjc : j = c
    · rwa [hjc, hparent, Equiv.swap_apply_left, Equiv.swap_apply_right]
    · by_cases hji : j = i
      · rw [hji, Equiv.swap_apply_left, Equiv.swap_apply_of_ne_of_ne (by omega) (hji ▸ hne)]
        exact hk.skips (hji ▸ hj) c hc0 hparent
      · rw [Equiv.swap_apply_of_ne_of_ne hji hjc]
        by_cases hsibling : (j - 1) / 2 = i
        · rw [hsibling, Equiv.swap_apply_left]
          exact hleast j hj hsibling
        · rw [Equiv.swap_apply_of_ne_of_ne hsibling hne]
          exact hk.others j hj hsibling
  case skips =>
    intro _ j hj hjc
    rw [notBefore_swap, hparent, Equiv.swap_apply_left,
      Equiv.swap_apply_of_ne_of_ne (by omega) (by omega)]
    exact hjc ▸ hk.others j hj (by omega)

theorem Sinking.siftDown (hs : Strict less) (hk : Sinking less d i) :
    Ordered less (siftDown less d i) := by
  induction d, i using siftDown.induct less with
  | case1 d i h =>
    rw [siftDown_of_none h]
    have := size_le_of_firstChild? h
    exact hk.stop fun j hj hp => NotBefore.of_size_le (by omega) _
  | case2 d i c h hc hi hless ih =>
    rw [Fin.getElem_fin] at hless
    rw [siftDown_of_some c.isLt h hi, if_pos hless]
    obtain ⟨hc0, hparent, hleast⟩ := firstChild?_spec hs h
    exact ih (hk.swap hs hi c.isLt hc0 hparent hleast hless)
  | case3 d i c h hc hi hless =>
    rw [Fin.getElem_fin] at hless
    rw [siftDown_of_some c.isLt h hi, if_neg hless]
    obtain ⟨-, -, hleast⟩ := firstChild?_spec hs h
    refine hk.stop fun j hj hp => NotBefore.trans hs c.isLt (hleast j hj hp) ?_
    exact (notBefore_iff c.isLt hi).2 (by simpa using hless)

/-! ### The operations -/

theorem ordered_empty : Ordered less #[] := fun _ hj => NotBefore.of_size_le (by simp) _

/-- Adding an element keeps the order. -/
theorem Ordered.push (hs : Strict less) (ho : Ordered less d) (x : α) :
    Ordered less (push less d x) := by
  refine Rising.siftUp hs ⟨fun j hj hne => ?_, fun _ j _ hp => NotBefore.of_size_le ?_ _⟩
  · rcases Nat.lt_or_ge j d.size with hlt | hge
    · have hold : ∀ k < d.size, ∀ y, (d.push x)[k]? = some y → d[k]? = some y := by
        intro k hk y hy
        rwa [Array.getElem?_push, if_neg (by omega)] at hy
      exact (ho j hj).of_eq (hold j hlt) (hold _ (by omega))
    · exact NotBefore.of_size_le (by rw [Array.size_push]; omega) _
  · rw [Array.size_push]
    omega

/-- Taking the first element keeps the others in order. -/
theorem Ordered.pop? (hs : Strict less) (ho : Ordered less d) {x : α} {rest : Array α}
    (h : pop? less d = some (x, rest)) : Ordered less rest := by
  unfold BinaryHeap.pop? at h
  split at h
  · next h0 =>
    obtain ⟨rfl, rfl⟩ := Prod.mk.inj (Option.some.inj h)
    refine Sinking.siftDown hs ⟨fun j hj hp => ?_, fun h => absurd h (Nat.lt_irrefl 0)⟩
    have hlast : d.size - 1 < d.size := by omega
    have hold : ∀ k, k ≠ 0 → ∀ y, (d.swap 0 (d.size - 1)).pop[k]? = some y → d[k]? = some y := by
      intro k hk y hy
      rw [Array.getElem?_pop, Array.size_swap] at hy
      split at hy
      · next hlt => rwa [getElem?_swap_eq, Equiv.swap_apply_of_ne_of_ne hk (by omega)] at hy
      · simp at hy
    exact (ho j hj).of_eq (hold j (by omega)) (hold _ hp)
  · simp at h

/-- Replacing an element keeps the order. -/
theorem Ordered.replace (hs : Strict less) (ho : Ordered less d) (hi : i < d.size) (x : α) :
    Ordered less (fix less (d.setIfInBounds i x) i) := by
  have hold : ∀ k, k ≠ i → ∀ y, (d.setIfInBounds i x)[k]? = some y → d[k]? = some y := by
    intro k hk y hy
    rwa [Array.getElem?_setIfInBounds_ne hk.symm] at hy
  have hskips : Skips less (d.setIfInBounds i x) i := fun hpos j hj hp =>
    (ho.skips hs hi hpos j hj hp).of_eq (hold j (by omega)) (hold _ (by omega))
  by_cases hup : 0 < i → NotBefore less (d.setIfInBounds i x) i ((i - 1) / 2)
  · -- The element does not come before its parent, so it can only sink.
    simp only [fix, siftUp_eq_self hup, if_true]
    refine Sinking.siftDown hs ⟨fun j hj hp => ?_, hskips⟩
    by_cases hji : j = i
    · exact hji ▸ hup (hji ▸ hj)
    · exact (ho j hj).of_eq (hold j hji) (hold _ hp)
  · -- It comes before its parent, and so before its children: it can only rise.
    have hpos : 0 < i := by
      by_contra h0
      exact hup fun h => absurd h h0
    have hsize : i < (d.setIfInBounds i x).size := by rwa [Array.size_setIfInBounds]
    have hp : (i - 1) / 2 < (d.setIfInBounds i x).size := by omega
    have hless : less (d.setIfInBounds i x)[i] (d.setIfInBounds i x)[(i - 1) / 2] = true := by
      rw [← Bool.not_eq_false, ← notBefore_iff hsize hp]
      exact fun h => hup fun _ => h
    have hback : NotBefore less (d.setIfInBounds i x) ((i - 1) / 2) i :=
      (notBefore_iff hp hsize).2 (hs.asymm _ _ hless)
    have hrising : Rising less (d.setIfInBounds i x) i := by
      refine ⟨fun j hj hne => ?_, hskips⟩
      by_cases hparent : (j - 1) / 2 = i
      · rw [hparent]
        exact NotBefore.trans hs hp (hskips hpos j hj hparent) hback
      · exact (ho j hj).of_eq (hold j hne) (hold _ hparent)
    have hmoved : (siftUp less (d.setIfInBounds i x) i).2 ≠ i := by
      have : (siftUp less ((d.setIfInBounds i x).swap i ((i - 1) / 2)) ((i - 1) / 2)).2 ≤
        (i - 1) / 2 := siftUp_le _ _
      rw [BinaryHeap.siftUp, dif_pos ⟨hpos, hsize⟩, if_pos hless]
      omega
    simp only [fix, if_neg hmoved]
    exact hrising.siftUp hs

/-- What the operations make is in order. -/
theorem Ordered.of_made (hs : Strict less) (h : Heap.Made less d) : Ordered less d := by
  induction h with
  | empty => exact ordered_empty
  | push _ x ih => exact ih.push hs x
  | pop _ hpop ih => exact ih.pop? hs hpop
  | replace _ hi x ih => exact ih.replace hs hi x

end BinaryHeap

instance : LawfulHeap where
  first_least := by
    intro α less hless d h x hx y hy
    obtain ⟨hd, rfl⟩ := Array.getElem?_eq_some_iff.1 hx
    obtain ⟨j, hj, rfl⟩ := Array.mem_iff_getElem.1 (Array.mem_toList_iff.1 hy)
    exact (BinaryHeap.notBefore_iff hj hd).1 ((BinaryHeap.Ordered.of_made hless h).root hless j hj)
  push_perm := BinaryHeap.push_perm
  pop?_first less d := by
    show (BinaryHeap.pop? less d).map Prod.fst = d[0]?
    unfold BinaryHeap.pop?
    split
    · next h => exact (Array.getElem?_eq_getElem h).symm
    · next h => exact (Array.getElem?_eq_none (Nat.not_lt.1 h)).symm
  pop?_perm := BinaryHeap.perm_of_pop? _
  fix_perm := BinaryHeap.fix_perm

instance : UniformHeap where
  push_map := BinaryHeap.push_map
  pop?_map := BinaryHeap.pop?_map
  fix_map := BinaryHeap.fix_map

end FunRiscv

/-!
# Heaps

A heap is an array whose first element comes before no other. The order is a parameter, and how the
other elements are arranged is up to the operations.

* `Heap`: the operations on heaps.
* `Heap.replace`: puts another element in a place. `Heap.inOrder`: elements in the order in which a
  heap gives them back.
* `BinaryHeap`: in a binary heap the children of place `i` are the places `2 * i + 1` and
  `2 * i + 2`, and no element comes before its parent.
-/

namespace FunRiscv

/-- The operations on heaps. -/
class Heap where
  /-- Adds an element. -/
  push {α : Type} (less : α → α → Bool) (d : Array α) (x : α) : Array α
  /-- Takes the first element. -/
  pop? {α : Type} (less : α → α → Bool) (d : Array α) : Option (α × Array α)
  /-- Restores the order after the element at place `i` was changed. -/
  fix {α : Type} (less : α → α → Bool) (d : Array α) (i : Nat) : Array α

namespace Heap

variable [Heap] {α : Type}

/-- Puts another element in place `i`. -/
def replace (less : α → α → Bool) (d : Array α) (i : Nat) (x : α) : Array α :=
  fix less (d.setIfInBounds i x) i

/-- Takes elements until none is left, at most `count`. -/
def drain (less : α → α → Bool) : (count : Nat) → Array α → List α
  | 0, _ => []
  | count + 1, d =>
    match pop? less d with
    | some (x, rest) => x :: drain less count rest
    | none => []

/-- Elements in the order in which a heap gives them back. -/
def inOrder (less : α → α → Bool) (xs : List α) : List α :=
  drain less xs.length (xs.foldl (push less) #[])

end Heap

/-! ### Binary heaps -/

namespace BinaryHeap

variable {α : Type}

/-- Moves the element at place `i` towards the root while it comes before its parent. Gives the
place where it ends. -/
def siftUp (less : α → α → Bool) (d : Array α) (i : Nat) : Array α × Nat :=
  if h : 0 < i ∧ i < d.size then
    have hi : i < d.size := h.2
    have hp : (i - 1) / 2 < d.size := by omega
    if less d[i] d[(i - 1) / 2] then siftUp less (d.swap i ((i - 1) / 2)) ((i - 1) / 2) else (d, i)
  else (d, i)
termination_by i
decreasing_by omega

/-- The child of place `i` that comes first, the left one if neither comes before the other. -/
def firstChild? (less : α → α → Bool) (d : Array α) (i : Nat) : Option (Fin d.size) :=
  if hl : 2 * i + 1 < d.size then
    if hr : 2 * i + 2 < d.size then
      if less d[2 * i + 2] d[2 * i + 1] then some ⟨2 * i + 2, hr⟩ else some ⟨2 * i + 1, hl⟩
    else some ⟨2 * i + 1, hl⟩
  else none

theorem lt_of_firstChild? {less : α → α → Bool} {d : Array α} {i : Nat} {c : Fin d.size}
    (h : firstChild? less d i = some c) : i < c.val := by
  unfold firstChild? at h
  grind

/-- Moves the element at place `i` away from the root while a child comes before it. -/
def siftDown (less : α → α → Bool) (d : Array α) (i : Nat) : Array α :=
  match h : firstChild? less d i with
  | none => d
  | some c =>
    have hc : i < c.val := lt_of_firstChild? h
    have hi : i < d.size := Nat.lt_trans hc c.isLt
    if less d[c] d[i] then siftDown less (d.swap i c) c else d
termination_by d.size - i
decreasing_by
  have := c.isLt
  simp only [Array.size_swap]
  omega

/-- Adds an element. -/
def push (less : α → α → Bool) (d : Array α) (x : α) : Array α := (siftUp less (d.push x) d.size).1

/-- Takes the first element. -/
def pop? (less : α → α → Bool) (d : Array α) : Option (α × Array α) :=
  if h : 0 < d.size then
    have hl : d.size - 1 < d.size := by omega
    some (d[0], siftDown less (d.swap 0 (d.size - 1)).pop 0)
  else none

/-- Moves the element at place `i` to where it belongs. -/
def fix (less : α → α → Bool) (d : Array α) (i : Nat) : Array α :=
  let (e, j) := siftUp less d i
  if j = i then siftDown less e i else e

end BinaryHeap

instance : Heap where
  push := BinaryHeap.push
  pop? := BinaryHeap.pop?
  fix := BinaryHeap.fix

end FunRiscv

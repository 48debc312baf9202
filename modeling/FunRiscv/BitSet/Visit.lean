import FunRiscv.BitSet.Keys

/-!
# Visiting the members of a set

Members are handed to a function one after the other, together with what was made of those before
them. The function says whether to go on (`ok`) or to stop (`error`). Words are read as they stand:
as long as a word has bits, the lowest one is visited and taken out of it.

* `BitSet.visit`, `KeySet.visit`: visits of the numbers of a bit set and of the keys of a key set.
-/

namespace FunRiscv

namespace BitSet

/-- A word without its lowest bit. -/
def withoutLowest (w : BitVec 64) : BitVec 64 := w &&& ~~~single w.ctz.toNat

theorem toNat_withoutLowest_lt {w : BitVec 64} (hw : w ≠ 0#64) :
    (withoutLowest w).toNat < w.toNat := by
  have hbit : w.getLsbD w.ctz.toNat = true := BitVec.getLsbD_true_ctz_of_ne_zero hw
  have hgone : (withoutLowest w).getLsbD w.ctz.toNat = false := by
    have hlt : w.ctz.toNat < 64 := BitVec.lt_of_getLsbD hbit
    simp [withoutLowest, single, hlt]
  refine Nat.lt_of_le_of_ne ?_ fun heq => ?_
  · rw [withoutLowest, BitVec.toNat_and]
    exact Nat.and_le_left
  · rw [BitVec.eq_of_toNat_eq heq, hbit] at hgone
    exact Bool.noConfusion hgone

variable {σ : Type} (f : σ → Nat → Except σ σ)

/-- Visits the numbers that a word holds, its first bit standing for `start`. -/
def visitWord (start : Nat) (w : BitVec 64) (acc : σ) : Except σ σ :=
  if _h : w = 0#64 then .ok acc
  else do
    let acc ← f acc (start + w.ctz.toNat)
    visitWord start (withoutLowest w) acc
termination_by w.toNat
decreasing_by exact toNat_withoutLowest_lt _h

/-- Visits the numbers that words hold, the first of them standing for the numbers
from `start` on. -/
def visitFrom : (start : Nat) → List (BitVec 64) → σ → Except σ σ
  | _, [], acc => .ok acc
  | start, w :: ws, acc => do
    let acc ← visitWord f start w acc
    visitFrom (start + 64) ws acc

/-- Visits the numbers of a set. -/
def visit (s : BitSet) (acc : σ) : Except σ σ := visitFrom f 0 s.words acc

end BitSet

/-- Visits the keys of a set. -/
def KeySet.visit {σ : Type} (f : σ → Int64 → Except σ σ) (s : KeySet) (acc : σ) : Except σ σ :=
  s.distances.visit (fun acc d => f acc (s.keyAt d)) acc

end FunRiscv

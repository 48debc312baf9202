import Mathlib
import FunRiscv.BitSet.Visit
import FunRiscv.Proofs.BitSet.Membership

/-!
# What a visit meets

* `BitSet.visit_eq`, `KeySet.visit_eq`: a visit meets the members in order, up to the one
  after which it stops.
* `BitSet.length_toList`: the size of a set is the number of its members.
-/

namespace FunRiscv

namespace BitSet

/-! ### One word -/

theorem pairwise_bits (w : BitVec 64) : (bits w).Pairwise (· < ·) := by
  unfold bits
  split
  · exact List.Pairwise.nil
  · exact List.pairwise_lt_range.filter _

theorem getLsbD_withoutLowest (w : BitVec 64) (j : Nat) :
    (withoutLowest w).getLsbD j = (decide (j ≠ w.ctz.toNat) && w.getLsbD j) := by
  by_cases hw : w = 0#64
  · simp [hw, withoutLowest]
  · have hlt : w.ctz.toNat < 64 := BitVec.lt_of_getLsbD (BitVec.getLsbD_true_ctz_of_ne_zero hw)
    rw [withoutLowest, BitVec.getLsbD_and, BitVec.getLsbD_not, getLsbD_single hlt]
    by_cases hj : j < 64
    · simp [hj, Bool.and_comm]
    · simp [BitVec.getLsbD_of_ge w j (not_lt.1 hj)]

/-- The lowest bit comes first. -/
theorem bits_eq_cons {w : BitVec 64} (hw : w ≠ 0#64) :
    bits w = w.ctz.toNat :: bits (withoutLowest w) := by
  have hlowest : ∀ j ∈ bits (withoutLowest w), w.ctz.toNat < j := by
    intro j hj
    rw [mem_bits, getLsbD_withoutLowest, Bool.and_eq_true, decide_eq_true_eq] at hj
    by_contra hle
    have hlt : j < w.ctz.toNat := lt_of_le_of_ne (not_lt.1 hle) hj.1
    simp [BitVec.getLsbD_false_of_lt_ctz hlt] at hj
  have hsorted : (w.ctz.toNat :: bits (withoutLowest w)).Pairwise (· < ·) :=
    List.pairwise_cons.2 ⟨hlowest, pairwise_bits _⟩
  refine List.Perm.eq_of_pairwise (fun a b _ _ hab hba => absurd hab (lt_asymm hba))
    (pairwise_bits w) hsorted ?_
  refine (List.perm_ext_iff_of_nodup (pairwise_bits w).nodup hsorted.nodup).2 fun j => ?_
  rw [List.mem_cons, mem_bits, mem_bits, getLsbD_withoutLowest, Bool.and_eq_true, decide_eq_true_eq]
  by_cases hj : j = w.ctz.toNat
  · simp [hj, BitVec.getLsbD_true_ctz_of_ne_zero hw]
  · simp [hj]

/-! ### All words -/

variable {σ : Type} (f : σ → Nat → Except σ σ)

theorem visitWord_eq (start : Nat) (w : BitVec 64) (acc : σ) :
    visitWord f start w acc = ((bits w).map (start + ·)).foldlM f acc := by
  induction w, acc using visitWord.induct with
  | case1 acc => simp [visitWord, bits, pure, Except.pure]
  | case2 w acc hw ih =>
    rw [visitWord, dif_neg hw, bits_eq_cons hw, List.map_cons, List.foldlM_cons]
    exact bind_congr fun acc' => ih acc'

theorem visitFrom_eq (start : Nat) (ws : List (BitVec 64)) (acc : σ) :
    visitFrom f start ws acc = (listFrom start ws).foldlM f acc := by
  induction ws generalizing start acc with
  | nil => rfl
  | cons w ws ih =>
    rw [visitFrom, listFrom, List.foldlM_append, visitWord_eq]
    exact bind_congr fun acc' => ih _ acc'

/-- A visit meets the members in order, up to the one after which it stops. -/
theorem visit_eq (s : BitSet) (acc : σ) : s.visit f acc = s.toList.foldlM f acc :=
  visitFrom_eq f 0 s.words acc

theorem length_toList (s : BitSet) : s.toList.length = s.size := by
  have key : ∀ (ws : List (BitVec 64)) (start n : Nat),
      ws.foldl (fun n w => n + (bits w).length) n = n + (listFrom start ws).length := by
    intro ws
    induction ws with
    | nil => exact fun _ _ => rfl
    | cons w ws ih =>
      intro start n
      rw [List.foldl_cons, ih (start + 64), listFrom, List.length_append, List.length_map,
        Nat.add_assoc]
  rw [size, key s.words 0 0, Nat.zero_add, toList]

end BitSet

/-- A visit meets the keys in the order of their distances, up to the one after which it stops. -/
theorem KeySet.visit_eq {σ : Type} (f : σ → Int64 → Except σ σ) (s : KeySet) (acc : σ) :
    s.visit f acc = s.toList.foldlM f acc := by
  rw [visit, BitSet.visit_eq, toList, List.foldlM_map]

end FunRiscv

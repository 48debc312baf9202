import Mathlib
import FunRiscv.BitSet.Basic

/-!
# Membership in bit sets

`BitSet.contains` is the view of a bit set through which its operations are known.

* `BitSet.contains_insert`, `BitSet.contains_erase`, `BitSet.contains_ofList`: what the
  operations do to it.
* `BitSet.mem_toList`, `BitSet.sorted_toList`, `BitSet.contains_of_first?`: the members in order.
* `BitSet.anyFrom_eq_true`: a range of numbers meets the set exactly if one of them is a member.
-/

namespace FunRiscv.BitSet

/-! ### Single bits -/

theorem getLsbD_single {j k : Nat} (hj : j < 64) : (single j).getLsbD k = decide (k = j) := by
  unfold single
  rw [BitVec.getLsbD_shiftLeft]
  by_cases h : k = j
  · subst h
    simp [hj]
  · simp only [h, decide_false, Bool.and_eq_false_imp, Bool.and_eq_true, decide_eq_true_eq,
      Bool.not_eq_true', decide_eq_false_iff_not, not_lt]
    rintro ⟨-, hle⟩
    have : k - j ≠ 0 := by omega
    simp [this]

/-- The bit of a number in some words. -/
def bitAt (ws : List (BitVec 64)) (i j : Nat) : Bool := (ws[i]?.getD 0#64).getLsbD j

theorem contains_eq_bitAt (s : BitSet) (n : Nat) :
    s.contains n = bitAt s.words (n / 64) (n % 64) := by
  unfold contains bitAt
  cases s.words[n / 64]? <;> simp

theorem bitAt_setBit (ws : List (BitVec 64)) (i k : Nat) {j l : Nat} (hj : j < 64) :
    bitAt (setBit ws i j) k l = (decide (k = i ∧ l = j) || bitAt ws k l) := by
  induction ws, i, j using setBit.induct generalizing k with
  | case1 j =>
    cases k with
    | zero => simp [setBit, bitAt, getLsbD_single hj]
    | succ k => simp [setBit, bitAt]
  | case2 i j ih =>
    cases k with
    | zero => simp [setBit, bitAt]
    | succ k => simpa [setBit, bitAt] using ih k hj
  | case3 j w ws =>
    cases k with
    | zero => simp [setBit, bitAt, getLsbD_single hj, Bool.or_comm]
    | succ k => simp [setBit, bitAt]
  | case4 j w ws i ih =>
    cases k with
    | zero => simp [setBit, bitAt]
    | succ k => simpa [setBit, bitAt] using ih k hj

/-! ### Operations on single numbers -/

@[simp]
theorem contains_empty (n : Nat) : contains empty n = false := by simp [contains, empty]

theorem contains_insert (s : BitSet) (m n : Nat) :
    (s.insert m).contains n = (decide (n = m) || s.contains n) := by
  rw [contains_eq_bitAt, contains_eq_bitAt, insert, bitAt_setBit _ _ _ (Nat.mod_lt _ (by decide))]
  congr 1
  rw [decide_eq_decide]
  omega

theorem contains_erase (s : BitSet) (m n : Nat) :
    (s.erase m).contains n = (decide (n ≠ m) && s.contains n) := by
  rw [contains_eq_bitAt, contains_eq_bitAt, erase]
  unfold bitAt
  rw [List.getElem?_modify]
  by_cases hw : m / 64 = n / 64
  · cases hs : s.words[n / 64]? with
    | none => simp [hw]
    | some w =>
      have hlt : n % 64 < 64 := Nat.mod_lt _ (by decide)
      have hbit : (w &&& ~~~single (m % 64)).getLsbD (n % 64) =
        (decide (n ≠ m) && w.getLsbD (n % 64)) := by
        rw [BitVec.getLsbD_and, BitVec.getLsbD_not, getLsbD_single (Nat.mod_lt m (by decide)),
          decide_eq_true hlt, Bool.true_and, Bool.and_comm, ← decide_not]
        congr 1
        rw [decide_eq_decide]
        omega
      simpa [hw] using hbit
  · have hne : n ≠ m := by
      rintro rfl
      exact hw rfl
    simp [hw, hne]

theorem contains_ofList (ns : List Nat) (n : Nat) : (ofList ns).contains n = decide (n ∈ ns) := by
  have key : ∀ s : BitSet, (ns.foldl insert s).contains n = (decide (n ∈ ns) || s.contains n) := by
    induction ns with
    | nil => simp
    | cons m ns ih =>
      intro s
      rw [List.foldl_cons, ih, contains_insert, ← Bool.or_assoc]
      simp [Bool.or_comm]
  rw [ofList, key]
  simp

/-! ### The members in order -/

theorem mem_bits {w : BitVec 64} {j : Nat} : j ∈ bits w ↔ w.getLsbD j = true := by
  unfold bits
  by_cases hw : w = 0#64
  · simp [hw]
  · simp only [hw, if_false, List.mem_filter, List.mem_range, and_iff_right_iff_imp]
    exact fun h => BitVec.lt_of_getLsbD h

theorem mem_listFrom {ws : List (BitVec 64)} {start n : Nat} :
    n ∈ listFrom start ws ↔ start ≤ n ∧ bitAt ws ((n - start) / 64) ((n - start) % 64) = true := by
  induction ws generalizing start with
  | nil => simp [listFrom, bitAt]
  | cons w ws ih =>
    simp only [listFrom, List.mem_append, List.mem_map, mem_bits, ih]
    constructor
    · rintro (⟨j, hj, rfl⟩ | ⟨hle, hbit⟩)
      · have hlt : j < 64 := BitVec.lt_of_getLsbD hj
        refine ⟨by omega, ?_⟩
        rw [Nat.add_sub_cancel_left, Nat.div_eq_of_lt hlt, Nat.mod_eq_of_lt hlt]
        simpa [bitAt] using hj
      · refine ⟨by omega, ?_⟩
        have hd : (n - start) / 64 = (n - (start + 64)) / 64 + 1 := by omega
        have hm : (n - start) % 64 = (n - (start + 64)) % 64 := by omega
        rw [hd, hm]
        simpa [bitAt] using hbit
    · rintro ⟨hle, hbit⟩
      by_cases hlt : n - start < 64
      · left
        rw [Nat.div_eq_of_lt hlt, Nat.mod_eq_of_lt hlt] at hbit
        exact ⟨n - start, by simpa [bitAt] using hbit, by omega⟩
      · right
        refine ⟨by omega, ?_⟩
        have hd : (n - start) / 64 = (n - (start + 64)) / 64 + 1 := by omega
        have hm : (n - start) % 64 = (n - (start + 64)) % 64 := by omega
        rw [hd, hm] at hbit
        simpa [bitAt] using hbit

theorem mem_toList {s : BitSet} {n : Nat} : n ∈ s.toList ↔ s.contains n = true := by
  rw [toList, mem_listFrom, contains_eq_bitAt]
  simp

/-- The members in order are distinct. -/
theorem nodup_toList (s : BitSet) : s.toList.Nodup := by
  have key : ∀ (ws : List (BitVec 64)) (start : Nat), (listFrom start ws).Nodup := by
    intro ws
    induction ws with
    | nil => exact fun _ => List.nodup_nil
    | cons w ws ih =>
      intro start
      have hbits : (bits w).Nodup := by
        unfold bits
        split
        · exact List.nodup_nil
        · exact List.nodup_range.filter _
      rw [listFrom, List.nodup_append]
      refine ⟨hbits.map (add_right_injective start), ih _, ?_⟩
      rintro n hn m hm rfl
      obtain ⟨j, hj, rfl⟩ := List.mem_map.1 hn
      have hlt : j < 64 := BitVec.lt_of_getLsbD (mem_bits.1 hj)
      have hge := (mem_listFrom.1 hm).1
      omega
  exact key s.words 0

/-- The members in order are in increasing order. -/
theorem sorted_toList (s : BitSet) : s.toList.Pairwise (· < ·) := by
  have key : ∀ (ws : List (BitVec 64)) (start : Nat), (listFrom start ws).Pairwise (· < ·) := by
    intro ws
    induction ws with
    | nil => exact fun _ => List.Pairwise.nil
    | cons w ws ih =>
      intro start
      have hbits : (bits w).Pairwise (· < ·) := by
        unfold bits
        split
        · exact List.Pairwise.nil
        · exact List.pairwise_lt_range.filter _
      rw [listFrom, List.pairwise_append, List.pairwise_map]
      refine ⟨hbits.imp fun h => Nat.add_lt_add_left h start, ih _, ?_⟩
      intro n hn m hm
      obtain ⟨j, hj, rfl⟩ := List.mem_map.1 hn
      have hlt : j < 64 := BitVec.lt_of_getLsbD (mem_bits.1 hj)
      have hge := (mem_listFrom.1 hm).1
      omega
  exact key s.words 0

theorem contains_of_first? {s : BitSet} {n : Nat} (h : s.first? = some n) : s.contains n = true :=
  mem_toList.1 (List.mem_of_mem_head? h)

/-! ### Ranges of numbers -/

theorem ne_zero_iff_getLsbD {w : BitVec 64} : (w != 0#64) = true ↔ ∃ j, w.getLsbD j = true := by
  rw [bne_iff_ne]
  constructor
  · intro h
    by_contra hall
    apply h
    apply BitVec.eq_of_getLsbD_eq
    intro j _
    simpa using fun hj => hall ⟨j, hj⟩
  · rintro ⟨j, hj⟩ rfl
    simp at hj

theorem getLsbD_single_sub_one {k j : Nat} (hk : k < 64) :
    (single k - 1#64).getLsbD j = decide (j < k) := by
  have hpow : 2 ^ k < 2 ^ 64 := Nat.pow_lt_pow_right (by decide) hk
  have hnat : (single k - 1#64).toNat = 2 ^ k - 1 := by
    have hs : (single k).toNat = 2 ^ k := by
      unfold single
      rw [BitVec.toNat_shiftLeft]
      simp only [BitVec.toNat_ofNat, Nat.reducePow, Nat.one_mod, Nat.shiftLeft_eq, Nat.one_mul]
      exact Nat.mod_eq_of_lt hpow
    have hpos : 0 < 2 ^ k := Nat.two_pow_pos k
    rw [BitVec.toNat_sub_of_le]
    · rw [hs]
      rfl
    · rw [BitVec.le_def, hs]
      exact hpos
  rw [BitVec.getLsbD, hnat, Nat.testBit_two_pow_sub_one]

theorem anyWithin_eq_true {ws : List (BitVec 64)} {low high : Nat} (hlow : low < 64) :
    anyWithin ws low high = true ↔ ∃ n, low ≤ n ∧ n < high ∧ bitAt ws (n / 64) (n % 64) = true := by
  induction ws generalizing low high with
  | nil => simp [anyWithin, bitAt]
  | cons w ws ih =>
    rw [anyWithin]
    by_cases hle : high ≤ low
    · simp only [hle, if_true, Bool.false_eq_true, false_iff, not_exists, not_and]
      intro n h1 h2
      omega
    · simp only [hle, if_false, Bool.or_eq_true, ih (by decide : 0 < 64), ne_zero_iff_getLsbD]
      -- Numbers below 64 lie in the first word, the others in the rest.
      have hfirst :
        (∃ j, (if high < 64 then w >>> low &&& (single (high - low) - 1#64) else w >>> low).getLsbD
          j = true) ↔ ∃ n, low ≤ n ∧ n < high ∧ n < 64 ∧ w.getLsbD n = true := by
        constructor
        · rintro ⟨j, hj⟩
          by_cases hh : high < 64
          · rw [if_pos hh, BitVec.getLsbD_and, BitVec.getLsbD_ushiftRight,
              getLsbD_single_sub_one (by omega)] at hj
            simp only [Bool.and_eq_true, decide_eq_true_eq] at hj
            exact ⟨low + j, by omega, by omega, by omega, hj.1⟩
          · rw [if_neg hh, BitVec.getLsbD_ushiftRight] at hj
            have := BitVec.lt_of_getLsbD hj
            exact ⟨low + j, by omega, by omega, this, hj⟩
        · rintro ⟨n, h1, h2, h3, h4⟩
          refine ⟨n - low, ?_⟩
          have hn : low + (n - low) = n := by omega
          by_cases hh : high < 64
          · rw [if_pos hh, BitVec.getLsbD_and, BitVec.getLsbD_ushiftRight,
              getLsbD_single_sub_one (by omega), hn, h4]
            simp only [Bool.true_and, decide_eq_true_eq]
            omega
          · rw [if_neg hh, BitVec.getLsbD_ushiftRight, hn, h4]
      rw [hfirst]
      constructor
      · rintro (⟨n, h1, h2, h3, h4⟩ | ⟨n, h1, h2, h3⟩)
        · refine ⟨n, h1, h2, ?_⟩
          rw [Nat.div_eq_of_lt h3, Nat.mod_eq_of_lt h3]
          simpa [bitAt] using h4
        · refine ⟨n + 64, by omega, by omega, ?_⟩
          rw [show (n + 64) / 64 = n / 64 + 1 by omega, show (n + 64) % 64 = n % 64 by omega]
          simpa [bitAt] using h3
      · rintro ⟨n, h1, h2, h3⟩
        by_cases hn : n < 64
        · left
          rw [Nat.div_eq_of_lt hn, Nat.mod_eq_of_lt hn] at h3
          exact ⟨n, h1, h2, hn, by simpa [bitAt] using h3⟩
        · right
          refine ⟨n - 64, by omega, by omega, ?_⟩
          rw [show n / 64 = (n - 64) / 64 + 1 by omega, show n % 64 = (n - 64) % 64 by omega] at h3
          simpa [bitAt] using h3

/-- A range of numbers meets the set exactly if one of them is a member. -/
theorem anyFrom_eq_true {s : BitSet} {low high : Nat} :
    s.anyFrom low high = true ↔ ∃ n, low ≤ n ∧ n < high ∧ s.contains n = true := by
  rw [anyFrom, anyWithin_eq_true (Nat.mod_lt _ (by decide))]
  have hbit : ∀ n, bitAt (s.words.drop (low / 64)) (n / 64) (n % 64) =
    s.contains (n + low / 64 * 64) := by
    intro n
    rw [contains_eq_bitAt]
    unfold bitAt
    rw [List.getElem?_drop, show (n + low / 64 * 64) / 64 = low / 64 + n / 64 by omega,
      show (n + low / 64 * 64) % 64 = n % 64 by omega]
  constructor
  · rintro ⟨n, h1, h2, h3⟩
    exact ⟨n + low / 64 * 64, by omega, by omega, by rw [← hbit]; exact h3⟩
  · rintro ⟨n, h1, h2, h3⟩
    refine ⟨n - low / 64 * 64, by omega, by omega, ?_⟩
    rw [hbit, show n - low / 64 * 64 + low / 64 * 64 = n by omega]
    exact h3

end FunRiscv.BitSet

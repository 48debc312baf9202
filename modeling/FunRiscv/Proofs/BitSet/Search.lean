import Mathlib
import FunRiscv.BitSet.Basic
import FunRiscv.Proofs.BitSet.Membership

/-!
# Searching a range of positions

The question whether a set has a position strictly between two others is answered word by
word. A round of that search looks at one word; it ends the search, or goes on at the first
position of the next word.

* `BitSet.probe`: one round, and `BitSet.search`: rounds up to a bound.
* `BitSet.search_eq`: the search ends after one round more than there are words at the latest, and
  finds what `BitSet.anyFrom` says.
* `BitSet.anyBetween?_exact`: the answer is right for every range whose first end is not the
  greatest integer. Beyond that one there is no position to start at.
-/

namespace FunRiscv.BitSet

/-- The bits of the word at position `i` that stand for positions from `i` up to, but not
including, `high`. -/
def ahead (w : BitVec 64) (high i : Nat) : BitVec 64 :=
  let rest := w >>> (i % 64)
  if high - i < 64 - i % 64 then rest &&& (single (high - i) - 1#64) else rest

/-- One round of a search for a position below `high`, at position `i`: an answer, or the position
of the next round. -/
def probe (s : BitSet) (high i : Nat) : Bool ⊕ Nat :=
  if i < high then
    match s.words[i / 64]? with
    | none => .inl false
    | some w => if ahead w high i ≠ 0#64 then .inl true else .inr (i + (64 - i % 64))
  else .inl false

/-- A search for a position below `high`, from position `i` on. There is no answer if the
rounds do not suffice. -/
def search (s : BitSet) (high : Nat) : (rounds : Nat) → (i : Nat) → Option Bool
  | 0, _ => none
  | rounds + 1, i =>
    match s.probe high i with
    | .inl found => some found
    | .inr j => search s high rounds j

/-! ### One round -/

theorem getLsbD_ahead {w : BitVec 64} {high i j : Nat} (hi : i < high) :
    (ahead w high i).getLsbD j = true ↔ w.getLsbD (i % 64 + j) = true ∧ i + j < high := by
  unfold ahead
  dsimp only
  split
  · rw [BitVec.getLsbD_and, BitVec.getLsbD_ushiftRight, getLsbD_single_sub_one (by omega),
      Bool.and_eq_true, decide_eq_true_eq]
    exact and_congr_right fun _ => by omega
  · rw [BitVec.getLsbD_ushiftRight]
    refine ⟨fun hbit => ⟨hbit, ?_⟩, And.left⟩
    have := BitVec.lt_of_getLsbD hbit
    omega

/-- A bit ahead in the word is a member ahead that lies in the word. -/
theorem ahead_ne_zero_iff {s : BitSet} {w : BitVec 64} {high i : Nat} (hi : i < high)
    (hw : s.words[i / 64]? = some w) :
    ahead w high i ≠ 0#64 ↔ ∃ n, i ≤ n ∧ n < high ∧ n / 64 = i / 64 ∧ s.contains n = true := by
  have hcontains : ∀ n, n / 64 = i / 64 → s.contains n = w.getLsbD (n % 64) := by
    intro n hn
    rw [contains_eq_bitAt, bitAt, hn, hw, Option.getD_some]
  rw [← bne_iff_ne, ne_zero_iff_getLsbD]
  constructor
  · rintro ⟨j, hj⟩
    obtain ⟨hbit, hhigh⟩ := (getLsbD_ahead hi).1 hj
    have hlt := BitVec.lt_of_getLsbD hbit
    refine ⟨i + j, by omega, hhigh, by omega, ?_⟩
    rw [hcontains (i + j) (by omega), show (i + j) % 64 = i % 64 + j by omega]
    exact hbit
  · rintro ⟨n, hlow, hhigh, hword, hn⟩
    refine ⟨n - i, (getLsbD_ahead hi).2 ⟨?_, by omega⟩⟩
    rw [show i % 64 + (n - i) = n % 64 by omega, ← hcontains n hword]
    exact hn

/-- A round that ends the search says whether a position is left. One that goes on has passed no
member, and goes on at the first position of the next word. -/
theorem probe_spec (s : BitSet) (high i : Nat) :
    match s.probe high i with
    | .inl found => found = s.anyFrom i high
    | .inr j => i / 64 < s.words.length ∧ j = (i / 64 + 1) * 64 ∧
      s.anyFrom j high = s.anyFrom i high := by
  unfold probe
  by_cases hi : i < high
  · rw [if_pos hi]
    cases hw : s.words[i / 64]? with
    | none =>
      -- There is no word here, and so none further on.
      refine (Bool.eq_false_iff.2 fun hany => ?_).symm
      obtain ⟨n, hlow, -, hn⟩ := anyFrom_eq_true.1 hany
      have hlen := List.getElem?_eq_none_iff.1 hw
      rw [contains_eq_bitAt, bitAt, List.getElem?_eq_none (by omega)] at hn
      simp at hn
    | some w =>
      have hahead := ahead_ne_zero_iff hi hw
      dsimp only
      split_ifs with hne
      · obtain ⟨n, hlow, hhigh, -, hn⟩ := hahead.1 hne
        exact (anyFrom_eq_true.2 ⟨n, hlow, hhigh, hn⟩).symm
      · refine ⟨(List.getElem?_eq_some_iff.1 hw).1, by omega, ?_⟩
        rw [Bool.eq_iff_iff, anyFrom_eq_true, anyFrom_eq_true]
        constructor
        · rintro ⟨n, hlow, hhigh, hn⟩
          exact ⟨n, by omega, hhigh, hn⟩
        · rintro ⟨n, hlow, hhigh, hn⟩
          refine ⟨n, ?_, hhigh, hn⟩
          by_contra hword
          exact hne (hahead.2 ⟨n, hlow, hhigh, by omega, hn⟩)
  · rw [if_neg hi]
    refine (Bool.eq_false_iff.2 fun hany => ?_).symm
    obtain ⟨n, hlow, hhigh, -⟩ := anyFrom_eq_true.1 hany
    omega

/-! ### All rounds -/

/-- Each round that goes on leaves one word behind, so one round more than there are
words left is enough. -/
theorem search_eq {s : BitSet} {high rounds i : Nat} (hrounds : s.words.length - i / 64 < rounds) :
    s.search high rounds i = some (s.anyFrom i high) := by
  induction rounds generalizing i with
  | zero => omega
  | succ rounds ih =>
    have hround := s.probe_spec high i
    rw [search]
    cases hprobe : s.probe high i with
    | inl found =>
      rw [hprobe] at hround
      exact congrArg some hround
    | inr j =>
      rw [hprobe] at hround
      obtain ⟨hlen, hj, hany⟩ := hround
      dsimp only
      rw [← hany]
      exact ih (by omega)

/-! ### Ranges between integers of 64 bits -/

/-- Where a search starts, unless there is no next position. -/
theorem start_eq {low : Int64} (h : low ≠ Int64.maxValue) :
    ¬ max low (-1) + 1 < 0 ∧ (max low (-1) + 1).toInt.toNat = (low.toInt + 1).toNat := by
  have hmax : low.toInt ≠ 9223372036854775807 := fun heq => h (Int64.toInt_inj.1 heq)
  have hlt := low.toInt_lt
  have hclamped : (max low (-1)).toInt = max low.toInt (-1) := by
    show (if low ≤ -1 then -1 else low : Int64).toInt = _
    have hneg : low ≤ -1 ↔ low.toInt ≤ -1 := Int64.le_iff_toInt_le
    split_ifs with hle
    · exact (max_eq_right (hneg.1 hle)).symm
    · have hgt := mt hneg.2 hle
      exact (max_eq_left (by omega)).symm
  have hstart : (max low (-1) + 1).toInt = max low.toInt (-1) + 1 := by
    rw [Int64.toInt_add, hclamped]
    show (max low.toInt (-1) + 1).bmod (2 ^ 64) = _
    exact Int.bmod_eq_of_le (by omega) (by omega)
  refine ⟨?_, by rw [hstart]; omega⟩
  rw [Int64.lt_iff_toInt_lt, hstart]
  show ¬ max low.toInt (-1) + 1 < 0
  omega

theorem anyBetween?_eq_some {low : Int64} (s : BitSet) (high : Int64) (h : low ≠ Int64.maxValue) :
    s.anyBetween? low high = some (s.anyFrom (low.toInt + 1).toNat high.toInt.toNat) := by
  obtain ⟨hpos, hstart⟩ := start_eq h
  unfold anyBetween?
  dsimp only
  rw [if_neg hpos, hstart]

/-- After the greatest integer no search can start. -/
theorem anyBetween?_maxValue (s : BitSet) (high : Int64) :
    s.anyBetween? Int64.maxValue high = if Int64.minValue < high then none else some false := rfl

/-- Whatever positions were added, the set is searched to the end, and a position strictly
between two integers is found exactly if one was added. Only from the greatest integer on
nothing can be searched. -/
theorem anyBetween?_exact (ns : List Nat) (low high : Int64) :
    ((ofList ns).anyBetween? low high = none ↔ low = Int64.maxValue ∧ Int64.minValue < high) ∧
      (∀ found, (ofList ns).anyBetween? low high = some found →
        (found = true ↔ ∃ n ∈ ns, low.toInt < n ∧ (n : Int) < high.toInt)) ∧
      (low ≠ Int64.maxValue → ∀ rounds, (ofList ns).words.length < rounds →
        (ofList ns).search high.toInt.toNat rounds (low.toInt + 1).toNat =
          (ofList ns).anyBetween? low high) := by
  by_cases hlow : low = Int64.maxValue
  · subst hlow
    rw [anyBetween?_maxValue]
    split_ifs with hhigh
    · exact ⟨by simp [hhigh], by simp, fun hne => absurd rfl hne⟩
    · refine ⟨by simp [hhigh], ?_, fun hne => absurd rfl hne⟩
      rintro found ⟨⟩
      have hmin : high.toInt ≤ Int64.minValue.toInt := by
        rwa [Int64.lt_iff_toInt_lt, not_lt] at hhigh
      have hneg : Int64.minValue.toInt < 0 := by decide
      simp only [Bool.false_eq_true, false_iff, not_exists, not_and]
      intro n _ _
      omega
  · rw [anyBetween?_eq_some _ _ hlow]
    refine ⟨by simp [hlow], fun found hfound => ?_, fun _ rounds hrounds => search_eq (by omega)⟩
    obtain rfl := Option.some.inj hfound
    rw [anyFrom_eq_true]
    simp only [contains_ofList, decide_eq_true_eq]
    constructor
    · rintro ⟨n, hstart, hhigh, hn⟩
      exact ⟨n, hn, by omega, by omega⟩
    · rintro ⟨n, hn, hstart, hhigh⟩
      exact ⟨n, by omega, by omega, hn⟩

/-- Nothing lies between the greatest integer and another one, and yet the search has no answer. -/
theorem anyBetween?_afterGreatest : (ofList [3]).anyBetween? 9223372036854775807 5 = none := by
  decide

end FunRiscv.BitSet

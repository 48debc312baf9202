import Mathlib
import FunRiscv.BitSet.Keys
import FunRiscv.Proofs.BitSet.Membership
import FunRiscv.Proofs.BitSet.Keys

/-!
# Merging sets of keys

A merge adds words until there are no fewer than the other set has, and then joins the words of the
other set to them, one by one.

* `BitSet.bitAt_unionWords`: the words of a union have the bits of both, whichever has more words.
* `BitSet.mergeRounds`: a merge word by word, and `BitSet.mergeRounds_eq`: it never misses a
  position, and makes the union.
* `KeySet.History`: how a set of keys came about, and `KeySet.History.words_ne_nil_iff`: it has
  words exactly if it was given a key at some time.
* `KeySet.History.merge_exact`: a merge is the union of both sets, whatever was done to them before,
  if the other set was given a key at some time. If not, it is refused.
-/

namespace FunRiscv

namespace BitSet

/-! ### Unions -/

theorem bitAt_unionWords (xs ys : List (BitVec 64)) (k j : Nat) :
    bitAt (unionWords xs ys) k j = (bitAt xs k j || bitAt ys k j) := by
  induction xs, ys using unionWords.induct generalizing k with
  | case1 ys => simp [unionWords, bitAt]
  | case2 xs => cases xs <;> simp [unionWords, bitAt]
  | case3 x xs y ys ih =>
    cases k with
    | zero => simp [unionWords, bitAt]
    | succ k => simpa [unionWords, bitAt] using ih k

theorem contains_union (s t : BitSet) (n : Nat) :
    (s.union t).contains n = (s.contains n || t.contains n) := by
  rw [contains_eq_bitAt, contains_eq_bitAt, contains_eq_bitAt, union, bitAt_unionWords]

theorem unionWords_ne_nil {ys : List (BitVec 64)} (xs : List (BitVec 64)) (h : ys ≠ []) :
    unionWords xs ys ≠ [] := by
  cases ys with
  | nil => exact absurd rfl h
  | cons y ys => cases xs <;> simp [unionWords]

theorem unionWords_zeros (xs : List (BitVec 64)) :
    unionWords (List.replicate xs.length 0#64) xs = xs := by
  induction xs with
  | nil => rfl
  | cons x xs ih => rw [List.length_cons, List.replicate_succ, unionWords, ih, BitVec.zero_or]

/-- Zeros in the places that the first words lack do not change the union. -/
theorem unionWords_append_zeros (ws xs : List (BitVec 64)) :
    unionWords (ws ++ List.replicate (xs.length - ws.length) 0#64) xs = unionWords ws xs := by
  induction ws, xs using unionWords.induct with
  | case1 xs => simpa [unionWords] using unionWords_zeros xs
  | case2 ws => simp
  | case3 w ws x xs ih =>
    rw [List.length_cons, List.length_cons, Nat.add_sub_add_right, List.cons_append, unionWords,
      unionWords, ih]

theorem setBit_ne_nil (ws : List (BitVec 64)) (i j : Nat) : setBit ws i j ≠ [] := by
  cases ws <;> cases i <;> simp [setBit]

/-! ### Word by word -/

/-- Adds zeros at the end, one at a time, until there is a word at a position. -/
def extend (ws : List (BitVec 64)) (i : Nat) : List (BitVec 64) :=
  if i < ws.length then ws else extend (ws ++ [0#64]) i
termination_by i + 1 - ws.length
decreasing_by
  rw [List.length_append, List.length_singleton]
  omega

/-- Makes sure that there is a word at a position. A position before the first is taken for that of
a key below the base. -/
def grow (ws : List (BitVec 64)) (i : Int) : Except KeySetError (List (BitVec 64)) :=
  if i < 0 then .error .belowBase else .ok (extend ws i.toNat)

/-- One round of a merge: a word is joined to the one at a position, if there is one. -/
def joinAt? (ws : List (BitVec 64)) (i : Nat) (x : BitVec 64) : Option (List (BitVec 64)) :=
  ws[i]?.map fun w => ws.set i (w ||| x)

/-- Joins words to those from a position on, unless there are too few. -/
def joinFrom? : (ws : List (BitVec 64)) → (i : Nat) → List (BitVec 64) → Option (List (BitVec 64))
  | ws, _, [] => some ws
  | ws, i, x :: xs => do
    let ws ← joinAt? ws i x
    joinFrom? ws (i + 1) xs

/-- A merge word by word. Room is made up to the last word of the other set, then its words are
joined. There is no result if a position is missed. -/
def mergeRounds (ws xs : List (BitVec 64)) : Option (Except KeySetError (List (BitVec 64))) :=
  match grow ws (xs.length - 1) with
  | .ok ws => (joinFrom? ws 0 xs).map .ok
  | .error e => some (.error e)

theorem extend_eq (ws : List (BitVec 64)) (i : Nat) :
    extend ws i = ws ++ List.replicate (i + 1 - ws.length) 0#64 := by
  induction ws using extend.induct i with
  | case1 ws hlt =>
    rw [extend, if_pos hlt, Nat.sub_eq_zero_of_le hlt, List.replicate_zero, List.append_nil]
  | case2 ws hge ih =>
    have hone : i + 1 - ws.length = i + 1 - (ws.length + 1) + 1 := by omega
    rw [extend, if_neg hge, ih, List.length_append, List.length_singleton, hone,
      List.replicate_succ, List.append_assoc, List.singleton_append]

theorem joinAt?_append (done ws : List (BitVec 64)) (w x : BitVec 64) :
    joinAt? (done ++ w :: ws) done.length x = some (done ++ (w ||| x) :: ws) := by
  simp [joinAt?]

/-- Words before the position are done with. Those from it on are still to be joined, and are enough
if they are no fewer than the words that join them. -/
theorem joinFrom?_append {ws xs : List (BitVec 64)} (done : List (BitVec 64))
    (h : xs.length ≤ ws.length) :
    joinFrom? (done ++ ws) done.length xs = some (done ++ unionWords ws xs) := by
  induction xs generalizing done ws with
  | nil => cases ws <;> rfl
  | cons x xs ih =>
    cases ws with
    | nil => exact absurd h (by simp)
    | cons w ws =>
      have hrest := ih (done ++ [w ||| x]) (Nat.le_of_succ_le_succ h)
      rw [List.length_append, List.length_singleton, List.append_assoc, List.append_assoc,
        List.singleton_append, List.singleton_append] at hrest
      rw [joinFrom?, joinAt?_append, unionWords]
      exact hrest

/-- No position is missed. Without words to join, the last of them is looked for before
the first position. -/
theorem mergeRounds_eq (ws xs : List (BitVec 64)) :
    mergeRounds ws xs = some (if xs = [] then .error .belowBase else .ok (unionWords ws xs)) := by
  unfold mergeRounds grow
  cases xs with
  | nil => rfl
  | cons x xs =>
    have hlast : ((x :: xs).length : Int) - 1 = xs.length := by
      rw [List.length_cons]
      omega
    have hroom : (x :: xs).length ≤ (extend ws xs.length).length := by
      rw [extend_eq, List.length_append, List.length_replicate, List.length_cons]
      omega
    have hjoin := joinFrom?_append [] hroom
    rw [List.nil_append, List.nil_append, List.length_nil] at hjoin
    have hunion : unionWords (extend ws xs.length) (x :: xs) = unionWords ws (x :: xs) := by
      rw [extend_eq]
      exact unionWords_append_zeros ws (x :: xs)
    rw [hlast, if_neg (by omega), Int.toNat_natCast, if_neg (List.cons_ne_nil x xs)]
    dsimp only
    rw [hjoin, hunion, Option.map_some]

end BitSet

namespace KeySet

variable {s t : KeySet}

/-! ### Words of a set -/

/-- A key is added, and then the set has words, or it is refused. -/
theorem insert_cases (s : KeySet) (key : Int64) :
    (¬ key - s.base < 0 ∧ ∃ t, s.insert key = .ok t ∧ t.base = s.base ∧ t.distances.words ≠ []) ∨
      (key - s.base < 0 ∧ s.insert key = .error .belowBase) := by
  unfold KeySet.insert distance?
  dsimp only
  split_ifs with hneg
  · exact .inr ⟨hneg, rfl⟩
  · exact .inl ⟨hneg, _, rfl, rfl, BitSet.setBit_ne_nil _ _ _⟩

/-- What becomes of a set when a key is added, or else refused. -/
theorem insert_spec (s : KeySet) (key : Int64) :
    ((s.insert key).toOption.getD s).base = s.base ∧
      (((s.insert key).toOption.getD s).distances.words ≠ [] ↔ s.distances.words ≠ [] ∨
        ¬ key - s.base < 0) := by
  obtain ⟨hge, t, ht, hbase, hwords⟩ | ⟨hneg, herr⟩ := s.insert_cases key
  · rw [ht]
    exact ⟨hbase, iff_of_true hwords (.inr hge)⟩
  · rw [herr]
    exact ⟨rfl, .inl, fun hor => hor.resolve_right (not_not.2 hneg)⟩

/-- The first of several keys decides whether a set without words gets some. -/
theorem insertMany_spec (s : KeySet) (keys : List Int64) :
    (s.insertMany keys).1.base = s.base ∧
      ((s.insertMany keys).1.distances.words ≠ [] ↔ s.distances.words ≠ [] ∨
        ∃ key ∈ keys.head?, ¬ key - s.base < 0) := by
  induction keys generalizing s with
  | nil => simp [KeySet.insertMany]
  | cons key keys ih =>
    rw [KeySet.insertMany]
    obtain ⟨hge, t, ht, hbase, hwords⟩ | ⟨hneg, herr⟩ := s.insert_cases key
    · obtain ⟨hbase', hwords'⟩ := ih t
      rw [ht]
      exact ⟨hbase'.trans hbase, iff_of_true (hwords'.2 (.inl hwords)) (.inr ⟨key, rfl, hge⟩)⟩
    · rw [herr]
      refine ⟨rfl, ⟨.inl, ?_⟩⟩
      rintro (hwords | ⟨_, ⟨⟩, hge⟩)
      · exact hwords
      · exact absurd hneg hge

theorem erase_words_ne_nil {key : Int64} :
    (s.erase key).distances.words ≠ [] ↔ s.distances.words ≠ [] := by
  unfold erase
  cases s.distance? key with
  | none => rfl
  | some d => simp [BitSet.erase, ← List.length_eq_zero_iff]

/-! ### One merge -/

theorem contains_of_words_eq_nil (h : s.distances.words = []) (key : Int64) :
    s.contains key = false := by
  unfold contains
  cases s.distance? key with
  | none => rfl
  | some d => simp [BitSet.contains, h]

theorem merge_of_base_ne (hbase : s.base ≠ t.base) : s.merge t = .error .differentBase :=
  if_pos hbase

theorem merge_of_words_eq_nil (hbase : s.base = t.base) (h : t.distances.words = []) :
    s.merge t = .error .belowBase := by
  rw [merge, if_neg (not_not.2 hbase), h]
  rfl

theorem merge_of_words_ne_nil (hbase : s.base = t.base) (h : t.distances.words ≠ []) :
    s.merge t = .ok { s with distances := s.distances.union t.distances } := by
  rw [merge, if_neg (not_not.2 hbase), if_neg (by simpa using h)]

/-- What becomes of a set when another one is merged, or else refused. -/
theorem merge_spec (s t : KeySet) :
    ((s.merge t).toOption.getD s).base = s.base ∧
      (((s.merge t).toOption.getD s).distances.words ≠ [] ↔
        s.distances.words ≠ [] ∨ (s.base = t.base ∧ t.distances.words ≠ [])) := by
  by_cases hbase : s.base = t.base
  · by_cases hwords : t.distances.words = []
    · rw [merge_of_words_eq_nil hbase hwords]
      exact ⟨rfl, .inl, fun hor => hor.resolve_right fun ht => ht.2 hwords⟩
    · rw [merge_of_words_ne_nil hbase hwords]
      exact ⟨rfl, iff_of_true (BitSet.unionWords_ne_nil _ hwords) (.inr ⟨hbase, hwords⟩)⟩
  · rw [merge_of_base_ne hbase]
    exact ⟨rfl, .inl, fun hor => hor.resolve_right fun ht => hbase ht.1⟩

/-- Sets with the same base put a key at the same distance. -/
theorem contains_union (hbase : s.base = t.base) (key : Int64) :
    contains { s with distances := s.distances.union t.distances } key =
      (s.contains key || t.contains key) := by
  have hs : distance? { s with distances := s.distances.union t.distances } key = s.distance? key :=
    rfl
  have ht : t.distance? key = s.distance? key := by rw [distance?, distance?, hbase]
  rw [contains, contains, contains, hs, ht]
  cases s.distance? key with
  | none => rfl
  | some d => exact s.distances.contains_union t.distances d

/-- A merge word by word does what the merge does. -/
theorem mergeRounds_words (hbase : s.base = t.base) :
    BitSet.mergeRounds s.distances.words t.distances.words =
      some ((s.merge t).map (·.distances.words)) := by
  rw [BitSet.mergeRounds_eq]
  split_ifs with h
  · rw [merge_of_words_eq_nil hbase h]
    rfl
  · rw [merge_of_words_ne_nil hbase h]
    rfl

/-! ### Histories -/

/-- How a set of keys came about. An operation that fails leaves the set as it was, or with the keys
that came before the first refused one. A copy has the history of the set that was copied. -/
inductive History where
  | new (base : Int64)
  | insert (h : History) (key : Int64)
  | insertMany (h : History) (keys : List Int64)
  | erase (h : History) (key : Int64)
  | merge (h g : History)

namespace History

/-- The base of the set. -/
def base : History → Int64
  | new base => base
  | insert h _ | insertMany h _ | erase h _ | merge h _ => h.base

/-- The set that came about. -/
def result : History → KeySet
  | new base => { base }
  | insert h key => (h.result.insert key).toOption.getD h.result
  | insertMany h keys => (h.result.insertMany keys).1
  | erase h key => h.result.erase key
  | merge h g => (h.result.merge g.result).toOption.getD h.result

/-- Whether the set was given a key at some time, be it that it was taken out again. Of several keys
the first one counts: if it is refused, those after it are not looked at. -/
def given : History → Bool
  | new _ => false
  | insert h key => h.given || decide (¬ key - h.base < 0)
  | insertMany h keys => h.given || keys.head?.any fun key => decide (¬ key - h.base < 0)
  | erase h _ => h.given
  | merge h g => h.given || (h.base == g.base && g.given)

theorem base_result (h : History) : h.result.base = h.base := by
  induction h with
  | new base => rfl
  | insert h key ih => exact (h.result.insert_spec key).1.trans ih
  | insertMany h keys ih => exact (h.result.insertMany_spec keys).1.trans ih
  | erase h key ih => exact (erase_base h.result key).trans ih
  | merge h g ih _ => exact (h.result.merge_spec g.result).1.trans ih

/-- A set has words exactly if it was given a key at some time. -/
theorem words_ne_nil_iff (h : History) : h.result.distances.words ≠ [] ↔ h.given = true := by
  induction h with
  | new base => simp [result, given]
  | insert h key ih =>
    rw [given, Bool.or_eq_true, decide_eq_true_eq, ← ih, ← base_result]
    exact (h.result.insert_spec key).2
  | insertMany h keys ih =>
    rw [given, Bool.or_eq_true, Option.any_eq_true, ← ih, ← base_result]
    simp only [decide_eq_true_eq]
    exact (h.result.insertMany_spec keys).2
  | erase h key ih => exact erase_words_ne_nil.trans ih
  | merge h g ihh ihg =>
    rw [given, Bool.or_eq_true, Bool.and_eq_true, beq_iff_eq, ← ihh, ← ihg, ← base_result,
      ← base_result]
    exact (h.result.merge_spec g.result).2

/-- Whatever was done to two sets with one base, and however many words each of them has: if the
other set was given a key at some time, the merge makes the union of both. If it never was, the
merge is refused, although no key is to be added. In either case the merge word by word misses no
position and does the same. -/
theorem merge_exact (h g : History) (hbase : h.base = g.base) :
    (g.given = true → ∃ t, h.result.merge g.result = .ok t ∧ t.base = h.base ∧
        ∀ key, t.contains key = true ↔ h.result.contains key = true ∨
          g.result.contains key = true) ∧
      (g.given = false → h.result.merge g.result = .error .belowBase ∧
      ∀ key, g.result.contains key = false) ∧
      BitSet.mergeRounds h.result.distances.words g.result.distances.words =
        some ((h.result.merge g.result).map (·.distances.words)) := by
  rw [← base_result h, ← base_result g] at hbase
  refine ⟨fun hgiven => ?_, fun hgiven => ?_, mergeRounds_words hbase⟩
  · have hwords := g.words_ne_nil_iff.2 hgiven
    refine ⟨_, merge_of_words_ne_nil hbase hwords, base_result h, fun key => ?_⟩
    rw [contains_union hbase, Bool.or_eq_true]
  · have hwords : g.result.distances.words = [] := by
      by_contra hne
      rw [g.words_ne_nil_iff.1 hne] at hgiven
      exact Bool.noConfusion hgiven
    exact ⟨merge_of_words_eq_nil hbase hwords, contains_of_words_eq_nil hwords⟩

/-- A set of one word is merged with one of two. -/
theorem merge_exact_longer :
    ∃ t, ((new 5).insert 6).result.merge ((new 5).insertMany [7, 9, 100]).result = .ok t ∧
      t.base = 5 ∧ ∀ key, t.contains key = true ↔
        ((new 5).insert 6).result.contains key = true ∨
          ((new 5).insertMany [7, 9, 100]).result.contains key = true :=
  (merge_exact ((new 5).insert 6) ((new 5).insertMany [7, 9, 100]) rfl).1 (by decide)

/-- The set that is merged has the same base and no keys at all, and yet it is refused as if one of
them were below the base. -/
theorem merge_new :
    ((new 5).insert 7).base = (new 5).base ∧ ((new 5).insert 7).result.toList = [7] ∧
      (new 5).result.toList = [] ∧
      ((new 5).insert 7).result.merge (new 5).result = .error .belowBase := by
  decide

end History

end KeySet

end FunRiscv

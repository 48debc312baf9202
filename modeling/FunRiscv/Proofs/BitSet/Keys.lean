import Mathlib
import FunRiscv.BitSet.Keys
import FunRiscv.Proofs.BitSet.Visiting

/-!
# Sets of keys are sets

A set of keys stands for a finite set of integers, as long as no key lies so far above the base that
their distance is no signed integer of 64 bits.

* `KeySet.Stands`: which integers a set of keys stands for. It is kept by `insert`,
  `insertMany` and `erase`.
* `KeySet.Answers`: what the set says of these integers.
* `KeySet.Action`: what can be done with some sets, copies included, and
  `KeySet.performAll_answers`: after any actions the sets answer as the sets of integers do to
  which the same was done.
* `KeySet.insert_beyond`: a key too far above the base is taken for one below it.
-/

namespace FunRiscv.KeySet

/-! ### Distances -/

/-- The key is not below the base, and their distance is a signed integer of 64 bits. -/
def Reaches (base key : Int64) : Prop := base ≤ key ∧ key.toInt - base.toInt < 2 ^ 63

instance (base key : Int64) : Decidable (Reaches base key) := inferInstanceAs (Decidable (_ ∧ _))

/-- A distance is counted from the base on, and may come out once around. -/
theorem distance?_spec (s : KeySet) (key : Int64) :
    match s.distance? key with
    | some d => d < 2 ^ 63 ∧ (s.base.toInt + d = key.toInt ∨ s.base.toInt + d = key.toInt + 2 ^ 64)
    | none => key.toInt < s.base.toInt ∨ 2 ^ 63 ≤ key.toInt - s.base.toInt := by
  have hkey := key.toInt_lt
  have hkey' := key.le_toInt
  have hbase := s.base.toInt_lt
  have hbase' := s.base.le_toInt
  have hsub : (key - s.base).toInt = (key.toInt - s.base.toInt).bmod (2 ^ 64) := Int64.toInt_sub ..
  have hneg : key - s.base < 0 ↔ (key - s.base).toInt < 0 := Int64.lt_iff_toInt_lt
  rw [Int.bmod_def] at hsub
  unfold distance?
  dsimp only
  by_cases h : key - s.base < 0
  · rw [if_pos h]
    have hlt := hneg.1 h
    dsimp only
    split_ifs at hsub <;> omega
  · rw [if_neg h]
    have hge := mt hneg.2 h
    dsimp only
    split_ifs at hsub <;> omega

theorem distance?_of_reaches {s : KeySet} {key : Int64} (h : Reaches s.base key) :
    s.distance? key = some (key.toInt - s.base.toInt).toNat := by
  have hspec := s.distance?_spec key
  have hle := Int64.le_iff_toInt_le.1 h.1
  have hlt := h.2
  cases hd : s.distance? key with
  | none =>
    rw [hd] at hspec
    dsimp only at hspec
    omega
  | some d =>
    rw [hd] at hspec
    dsimp only at hspec
    have hkey := key.toInt_lt
    have hbase := s.base.le_toInt
    rw [Option.some.injEq]
    omega

theorem toInt_keyAt {s : KeySet} {d : Nat} (h : s.base.toInt + d < 2 ^ 63) (hd : d < 2 ^ 63) :
    (s.keyAt d).toInt = s.base.toInt + d := by
  have hbase := s.base.le_toInt
  have hd' : (Int64.ofNat d).toInt = d := Int64.toInt_ofNat_of_lt (by omega)
  rw [keyAt, Int64.toInt_add, hd']
  exact Int.bmod_eq_of_le (by omega) (by omega)

/-! ### Operations -/

/-- The set of keys stands for these integers. -/
structure Stands (s : KeySet) (S : Finset ℤ) : Prop where
  held : ∀ d : Nat, s.distances.contains d = true ↔ s.base.toInt + d ∈ S
  reached : ∀ k ∈ S, s.base.toInt ≤ k ∧ k - s.base.toInt < 2 ^ 63 ∧ k < 2 ^ 63

theorem stands_new (base : Int64) : Stands { base } ∅ :=
  ⟨fun d => by simp [BitSet.contains], fun k hk => absurd hk (Finset.notMem_empty k)⟩

variable {s : KeySet} {S : Finset ℤ} {key : Int64}

/-- A distance that came out once around is none of a key that the set stands for. -/
theorem Stands.around (h : Stands s S) {d : Nat} (hd : s.base.toInt + d = key.toInt + 2 ^ 64)
    (hlt : d < 2 ^ 63) : key.toInt ∉ S ∧ s.distances.contains d = false := by
  have hkey := key.le_toInt
  refine ⟨fun hmem => ?_, Bool.eq_false_iff.2 fun hheld => ?_⟩
  · have := h.reached _ hmem
    omega
  · have := h.reached _ ((h.held d).1 hheld)
    omega

/-- A key without a distance is none that the set stands for. -/
theorem Stands.not_mem (h : Stands s S) (hd : s.distance? key = none) : key.toInt ∉ S := by
  have hspec := s.distance?_spec key
  rw [hd] at hspec
  dsimp only at hspec
  intro hmem
  have := h.reached _ hmem
  omega

theorem Stands.contains_iff (h : Stands s S) (key : Int64) :
    s.contains key = true ↔ key.toInt ∈ S := by
  have hspec := s.distance?_spec key
  unfold contains
  cases hd : s.distance? key with
  | none => simpa using h.not_mem hd
  | some d =>
    rw [hd] at hspec
    obtain ⟨hlt, hkey | hkey⟩ := hspec
    · rw [← hkey]
      exact h.held d
    · obtain ⟨hmem, hheld⟩ := h.around hkey hlt
      simp [hmem, hheld]

theorem Stands.insert (h : Stands s S) (hkey : Reaches s.base key) :
    ∃ t, s.insert key = .ok t ∧ t.base = s.base ∧ Stands t (Insert.insert key.toInt S) := by
  have hle := Int64.le_iff_toInt_le.1 hkey.1
  have hlt := hkey.2
  have hmax := key.toInt_lt
  have hok : s.insert key =
    .ok { s with distances := s.distances.insert (key.toInt - s.base.toInt).toNat } := by
    rw [KeySet.insert, distance?_of_reaches hkey]
  refine ⟨_, hok, rfl, fun d => ?_, fun k hk => ?_⟩
  · rw [BitSet.contains_insert, Bool.or_eq_true, decide_eq_true_eq, h.held, Finset.mem_insert]
    exact or_congr_left (by dsimp only; omega)
  · rcases Finset.mem_insert.1 hk with rfl | hk
    · exact ⟨hle, hlt, hmax⟩
    · exact h.reached k hk

theorem Stands.insertMany {keys : List Int64} (h : Stands s S)
    (hkeys : ∀ key ∈ keys, Reaches s.base key) :
    ∃ t, s.insertMany keys = (t, none) ∧ t.base = s.base ∧
      Stands t (S ∪ (keys.map Int64.toInt).toFinset) := by
  induction keys generalizing s S with
  | nil => exact ⟨s, rfl, rfl, by simpa using h⟩
  | cons key keys ih =>
    obtain ⟨hkey, hrest⟩ := List.forall_mem_cons.1 hkeys
    obtain ⟨t, ht, hbase, hstands⟩ := h.insert hkey
    obtain ⟨u, hu, hbase', hstands'⟩ := ih hstands fun k hk => hbase ▸ hrest k hk
    refine ⟨u, ?_, hbase'.trans hbase, ?_⟩
    · rw [KeySet.insertMany, ht]
      exact hu
    · rw [List.map_cons, List.toFinset_cons, Finset.union_insert, ← Finset.insert_union]
      exact hstands'

theorem erase_base (s : KeySet) (key : Int64) : (s.erase key).base = s.base := by
  unfold erase
  cases s.distance? key <;> rfl

theorem Stands.erase (h : Stands s S) (key : Int64) : Stands (s.erase key) (S.erase key.toInt) := by
  have hspec := s.distance?_spec key
  refine ⟨fun n => ?_, fun k hk => ?_⟩
  · rw [erase_base, Finset.mem_erase, KeySet.erase]
    cases hd : s.distance? key with
    | none =>
      have hmem := h.not_mem hd
      dsimp only
      rw [h.held, iff_and_self]
      rintro hn heq
      exact hmem (heq ▸ hn)
    | some d =>
      rw [hd] at hspec
      dsimp only
      rw [BitSet.contains_erase, Bool.and_eq_true, decide_eq_true_eq, h.held]
      obtain ⟨hlt, hkey | hkey⟩ := hspec
      · exact and_congr_left fun _ => by omega
      · -- Neither the key nor the number at this distance is there to be taken out.
        obtain ⟨hmem, hheld⟩ := h.around hkey hlt
        rw [Bool.eq_false_iff, ne_eq, h.held] at hheld
        refine and_congr_left fun hn =>
          ⟨fun _ heq => hmem (heq ▸ hn), fun _ heq => hheld (heq ▸ hn)⟩
  · rw [erase_base]
    exact h.reached k (Finset.mem_of_mem_erase hk)

/-! ### Answers -/

/-- The set says of these integers which they are, which is the least, how many they are and, in
increasing order, what they are. -/
structure Answers (s : KeySet) (S : Finset ℤ) : Prop where
  contains_iff : ∀ key, s.contains key = true ↔ key.toInt ∈ S
  toList_eq : s.toList.map Int64.toInt = S.sort (· ≤ ·)
  visit_eq : ∀ {σ : Type} (f : σ → Int64 → Except σ σ) (acc : σ),
    s.visit f acc = s.toList.foldlM f acc
  first?_eq_none : s.first? = none ↔ S = ∅
  first?_eq_some : ∀ key, s.first? = some key ↔ IsLeast (S : Set ℤ) key.toInt
  size_eq : s.size = S.card

theorem Stands.mem_toList (h : Stands s S) {d : Nat} (hd : d ∈ s.distances.toList) :
    (s.keyAt d).toInt = s.base.toInt + d ∧ s.base.toInt + d ∈ S := by
  have hmem := (h.held d).1 (BitSet.mem_toList.1 hd)
  have := h.reached _ hmem
  exact ⟨toInt_keyAt this.2.2 (by omega), hmem⟩

theorem Stands.toList_eq (h : Stands s S) : s.toList.map Int64.toInt = S.sort (· ≤ ·) := by
  have hmap : s.toList.map Int64.toInt = s.distances.toList.map fun d : Nat =>
    s.base.toInt + d := by
    rw [toList, List.map_map]
    exact List.map_congr_left fun d hd => (h.mem_toList hd).1
  have hsorted : (s.toList.map Int64.toInt).Pairwise (· < ·) := by
    rw [hmap]
    exact s.distances.sorted_toList.map _ fun a b hab => by omega
  have hS : (s.toList.map Int64.toInt).toFinset = S := by
    ext k
    rw [List.mem_toFinset, hmap, List.mem_map]
    constructor
    · rintro ⟨d, hd, rfl⟩
      exact (h.mem_toList hd).2
    · intro hk
      have := h.reached k hk
      have hk' : s.base.toInt + (k - s.base.toInt).toNat = k := by omega
      exact ⟨_, BitSet.mem_toList.2 ((h.held _).2 (hk'.symm ▸ hk)), hk'⟩
  rw [← hS]
  exact ((List.toFinset_sort (· ≤ ·) hsorted.nodup).2 (hsorted.imp le_of_lt)).symm

theorem head?_sort_eq_some_iff {k : ℤ} :
    (S.sort (· ≤ ·)).head? = some k ↔ IsLeast (S : Set ℤ) k := by
  have hmem : ∀ x, x ∈ S.sort (· ≤ ·) ↔ x ∈ S := fun x => Finset.mem_sort _
  have hsorted := Finset.pairwise_sort S (· ≤ ·)
  cases hl : S.sort (· ≤ ·) with
  | nil =>
    rw [hl] at hmem
    refine ⟨fun h => absurd h (by simp), fun h => absurd ((hmem k).2 h.1) (by simp)⟩
  | cons a l =>
    rw [hl] at hmem hsorted
    have hleast : IsLeast (S : Set ℤ) a := by
      refine ⟨(hmem a).1 (by simp), fun x hx => ?_⟩
      rcases List.mem_cons.1 ((hmem x).2 hx) with rfl | hx
      · exact le_rfl
      · exact List.rel_of_pairwise_cons hsorted hx
    rw [List.head?_cons, Option.some.injEq]
    exact ⟨fun heq => heq ▸ hleast, fun h => hleast.unique h⟩

theorem Stands.answers (h : Stands s S) : Answers s S := by
  have hfirst : s.first?.map Int64.toInt = (S.sort (· ≤ ·)).head? := by
    rw [← h.toList_eq, List.head?_map, toList, List.head?_map]
    rfl
  refine ⟨h.contains_iff, h.toList_eq, fun f => s.visit_eq f, ?_, fun key => ?_, ?_⟩
  · rw [← Option.map_eq_none_iff, hfirst, List.head?_eq_none_iff, ← List.length_eq_zero_iff,
      Finset.length_sort, Finset.card_eq_zero]
  · have hkey : s.first? = some key ↔ (S.sort (· ≤ ·)).head? = some key.toInt := by
      rw [← hfirst, Option.map_eq_some_iff]
      simp [Int64.toInt_inj]
    rw [hkey, head?_sort_eq_some_iff]
  · rw [size, ← BitSet.length_toList, ← Finset.length_sort (· ≤ ·), ← h.toList_eq, List.length_map,
      toList, List.length_map]

/-! ### Actions on several sets -/

/-- Changes the set at a place, if there is one. -/
def change (sets : List KeySet) (i : Nat) (f : KeySet → Except KeySetError KeySet) :
    Except KeySetError (List KeySet) :=
  match sets[i]? with
  | some s => (f s).map (sets.set i)
  | none => .ok sets

/-- What can be done with some sets of keys, each known by its place. A copy takes the place
after the last one. -/
inductive Action where
  | insert (i : Nat) (key : Int64)
  | insertMany (i : Nat) (keys : List Int64)
  | erase (i : Nat) (key : Int64)
  | copy (i : Nat)
deriving DecidableEq

namespace Action

/-- What an action makes of the sets of keys. -/
def perform (sets : List KeySet) : Action → Except KeySetError (List KeySet)
  | insert i key => change sets i (·.insert key)
  | insertMany i keys => change sets i fun s =>
    match s.insertMany keys with
    | (t, none) => .ok t
    | (_, some e) => .error e
  | erase i key => change sets i fun s => .ok (s.erase key)
  | copy i => .ok (sets ++ sets[i]?.toList)

/-- What the action makes of sets of integers. -/
def effect (sets : List (Finset ℤ)) : Action → List (Finset ℤ)
  | insert i key => sets.modify i (Insert.insert key.toInt)
  | insertMany i keys => sets.modify i (· ∪ (keys.map Int64.toInt).toFinset)
  | erase i key => sets.modify i (Finset.erase · key.toInt)
  | copy i => sets ++ sets[i]?.toList

/-- The keys that the action adds are not too far above the base. -/
def Within (base : Int64) : Action → Prop
  | insert _ key => Reaches base key
  | insertMany _ keys => ∀ key ∈ keys, Reaches base key
  | erase _ _ | copy _ => True

instance (base : Int64) : (a : Action) → Decidable (a.Within base)
  | insert _ key => inferInstanceAs (Decidable (Reaches base key))
  | insertMany _ keys => List.decidableBAll (Reaches base) keys
  | erase _ _ | copy _ => inferInstanceAs (Decidable True)

end Action

/-- The set has this base and stands for these integers. -/
def StandsOver (base : Int64) (s : KeySet) (S : Finset ℤ) : Prop := s.base = base ∧ Stands s S

variable {base : Int64} {sets : List KeySet} {Ss : List (Finset ℤ)}

theorem change_stands {f : KeySet → Except KeySetError KeySet} {g : Finset ℤ → Finset ℤ} (i : Nat)
    (h : List.Forall₂ (StandsOver base) sets Ss)
    (hf : ∀ s S, StandsOver base s S → ∃ t, f s = .ok t ∧ StandsOver base t (g S)) :
    ∃ sets', change sets i f = .ok sets' ∧
      List.Forall₂ (StandsOver base) sets' (Ss.modify i g) := by
  induction h generalizing i with
  | nil => exact ⟨[], rfl, by simp⟩
  | @cons s S sets Ss hs hsets ih =>
    cases i with
    | zero =>
      obtain ⟨t, ht, hstands⟩ := hf s S hs
      exact ⟨t :: sets, by simp [change, ht, Except.map], by simpa using ⟨hstands, hsets⟩⟩
    | succ i =>
      obtain ⟨sets', hok, hstands⟩ := ih i
      refine ⟨s :: sets', ?_, by simpa using ⟨hs, hstands⟩⟩
      unfold change at hok ⊢
      rw [List.getElem?_cons_succ]
      cases hget : sets[i]? with
      | none =>
        rw [hget] at hok
        exact congrArg (fun ss => Except.ok (s :: ss)) (Except.ok.inj hok)
      | some t =>
        rw [hget] at hok
        dsimp only at hok ⊢
        cases ht : f t with
        | error e =>
          rw [ht] at hok
          exact absurd hok (by simp [Except.map])
        | ok u =>
          rw [ht] at hok
          exact congrArg (fun ss => Except.ok (s :: ss)) (Except.ok.inj hok)

theorem forall₂_getElem? (h : List.Forall₂ (StandsOver base) sets Ss) (i : Nat) :
    List.Forall₂ (StandsOver base) sets[i]?.toList Ss[i]?.toList := by
  induction h generalizing i with
  | nil => simp
  | cons hs _ ih =>
    cases i with
    | zero => simpa using hs
    | succ i => simpa using ih i

/-- One action does to the sets of keys what it does to the integers for which they stand. -/
theorem Action.perform_stands {a : Action} (ha : a.Within base)
    (h : List.Forall₂ (StandsOver base) sets Ss) :
    ∃ sets', a.perform sets = .ok sets' ∧ List.Forall₂ (StandsOver base) sets' (a.effect Ss) := by
  cases a with
  | insert i key =>
    refine change_stands i h fun s S hs => ?_
    obtain ⟨t, ht, hbase, hstands⟩ := hs.2.insert (hs.1.symm ▸ ha)
    exact ⟨t, ht, hbase.trans hs.1, hstands⟩
  | insertMany i keys =>
    refine change_stands i h fun s S hs => ?_
    obtain ⟨t, ht, hbase, hstands⟩ := hs.2.insertMany (hs.1.symm ▸ ha)
    exact ⟨t, by rw [ht], hbase.trans hs.1, hstands⟩
  | erase i key =>
    exact change_stands i h fun s S hs => ⟨_, rfl, (erase_base s key).trans hs.1, hs.2.erase key⟩
  | copy i => exact ⟨_, rfl, List.rel_append h (forall₂_getElem? h i)⟩

theorem performAll_stands {actions : List Action} (ha : ∀ a ∈ actions, a.Within base)
    (h : List.Forall₂ (StandsOver base) sets Ss) :
    ∃ sets', actions.foldlM Action.perform sets = .ok sets' ∧
      List.Forall₂ (StandsOver base) sets' (actions.foldl Action.effect Ss) := by
  induction actions generalizing sets Ss with
  | nil => exact ⟨sets, rfl, h⟩
  | cons a actions ih =>
    obtain ⟨hfirst, hrest⟩ := List.forall_mem_cons.1 ha
    obtain ⟨mid, hmid, hstands⟩ := Action.perform_stands hfirst h
    obtain ⟨sets', hok, hstands'⟩ := ih hrest hstands
    exact ⟨sets', by rw [List.foldlM_cons, hmid]; exact hok, hstands'⟩

theorem base_eq_of_mem (h : List.Forall₂ (StandsOver base) sets Ss) (hs : s ∈ sets) :
    s.base = base := by
  induction h with
  | nil => exact absurd hs List.not_mem_nil
  | cons hstands _ ih =>
    rcases List.mem_cons.1 hs with rfl | hs
    · exact hstands.1
    · exact ih hs

/-- Of the keys that are not below the base, those are refused whose distance from it is no signed
integer of 64 bits. -/
theorem insert_eq_error_iff (h : s.base ≤ key) :
    s.insert key = .error .belowBase ↔ 2 ^ 63 ≤ key.toInt - s.base.toInt := by
  have hspec := s.distance?_spec key
  have hle := Int64.le_iff_toInt_le.1 h
  unfold KeySet.insert
  cases hd : s.distance? key with
  | none =>
    rw [hd] at hspec
    dsimp only at hspec ⊢
    exact iff_of_true rfl (by omega)
  | some d =>
    rw [hd] at hspec
    dsimp only at hspec ⊢
    exact iff_of_false (by simp) (by omega)

/-- Sets of keys that are made from an empty one are sets: whatever was done, with keys not too far
above the base, each of them answers as the set of integers does to which the same was done. Further
keys are refused. -/
theorem performAll_answers (base : Int64) (actions : List Action)
    (h : ∀ a ∈ actions, a.Within base) :
    ∃ sets, actions.foldlM Action.perform [{ base }] = .ok sets ∧
      List.Forall₂ Answers sets (actions.foldl Action.effect [∅]) ∧
      ∀ s ∈ sets, ∀ key, base ≤ key →
        (s.insert key = .error .belowBase ↔ 2 ^ 63 ≤ key.toInt - base.toInt) := by
  have hstart : List.Forall₂ (StandsOver base) [{ base }] [∅] := .cons ⟨rfl, stands_new base⟩ .nil
  obtain ⟨sets, hok, hstands⟩ := performAll_stands h hstart
  refine ⟨sets, hok, hstands.imp fun s S hs => hs.2.answers, fun s hs key hkey => ?_⟩
  have hbase := base_eq_of_mem hstands hs
  rw [← hbase] at hkey ⊢
  exact insert_eq_error_iff hkey

/-- One copy goes on without the other. -/
theorem performAll_answers_copy :
    ∃ sets, [.insert 0 9, .copy 0, .erase 0 9, .insertMany 1 [7, 100]].foldlM Action.perform
      [{ base := 5 }] = .ok sets ∧
      List.Forall₂ Answers sets ([.insert 0 9, .copy 0, .erase 0 9, .insertMany 1 [7, 100]].foldl
        Action.effect [∅]) ∧
      ∀ s ∈ sets, ∀ key, 5 ≤ key →
        (s.insert key = .error .belowBase ↔ 2 ^ 63 ≤ key.toInt - (5 : Int64).toInt) :=
  performAll_answers 5 [.insert 0 9, .copy 0, .erase 0 9, .insertMany 1 [7, 100]] (by decide)

/-- The key is above the base, and is refused as one below it. -/
theorem insert_beyond :
    (-1 : Int64) ≤ 9223372036854775807 ∧
      ({ base := -1 } : KeySet).insert 9223372036854775807 = .error .belowBase := by
  decide

end FunRiscv.KeySet

import Mathlib
import FunRiscv.Typing.Arguments
import FunRiscv.Proofs.Typing.Placement

/-!
# Named arguments are placed exactly

* `slotAt`, `slots`: what lies in the slots once some arguments are placed, written down without the
  steps that lead there.
* `Fits`: the arguments name, without repetition, fields that the positional arguments leave free.
  `placeOne_slots` is the step that keeps to `slots` and `Fits`, and `foldlM_placeOne_iff` the run.
* `slots_full`: when there are as many arguments as fields, no slot stays free.
* `InFieldOrder`, `placeArguments_exact`: where each argument stands, and when placing succeeds.
-/

namespace FunRiscv

variable {α : Type} {fields : List String} {positional : List α} {done named : List (Labelled α)}
  {a : Labelled α}

/-! ### Slots -/

/-- What lies in a slot: a positional argument, or one that names the field there. -/
def slotAt (fields : List String) (positional : List α) (named : List (Labelled α)) (i : Nat) :
    Option α :=
  positional[i]?.or ((named.find? (fields.idxOf ·.name == i)).map (·.value))

/-- All slots of a constructor. -/
def slots (fields : List String) (positional : List α) (named : List (Labelled α)) :
    List (Option α) :=
  (List.range fields.length).map (slotAt fields positional named)

/-- The arguments name, without repetition, fields whose first place comes after the
positional arguments. -/
structure Fits (fields : List String) (positional : List α) (named : List (Labelled α)) : Prop where
  nodup : (named.map (·.name)).Nodup
  mem : ∀ a ∈ named, a.name ∈ fields
  le : ∀ a ∈ named, positional.length ≤ fields.idxOf a.name

theorem fits_nil : Fits fields positional [] := ⟨List.nodup_nil, by simp, by simp⟩

@[simp] theorem length_slots : (slots fields positional named).length = fields.length := by
  simp [slots]

theorem getElem?_slots {i : Nat} (h : i < fields.length) :
    (slots fields positional named)[i]? = some (slotAt fields positional named i) := by
  simp [slots, h]

theorem slotAt_of_lt {i : Nat} (h : i < positional.length) :
    slotAt fields positional named i = some positional[i] := by
  simp [slotAt, h]

theorem slotAt_of_le {i : Nat} (h : positional.length ≤ i) :
    slotAt fields positional named i = (named.find? (fields.idxOf ·.name == i)).map (·.value) := by
  simp [slotAt, h]

theorem slots_nil (h : positional.length ≤ fields.length) :
    slots fields positional [] =
      positional.map some ++ List.replicate (fields.length - positional.length) none := by
  refine List.ext_getElem? fun i => ?_
  by_cases hi : i < fields.length
  · rw [getElem?_slots hi]
    by_cases hp : i < positional.length
    · simp [slotAt_of_lt hp, List.getElem?_append_left, hp]
    · rw [slotAt_of_le (by omega), List.getElem?_append_right (by simpa using hp),
        List.getElem?_replicate, if_pos (by rw [List.length_map]; omega)]
      rfl
  · rw [List.getElem?_eq_none (by simpa using hi), List.getElem?_eq_none (by simp; omega)]

/-- A slot is free when it lies after the positional arguments and no argument names its field. -/
theorem slotAt_eq_none {i : Nat} :
    slotAt fields positional named i = none ↔ positional.length ≤ i ∧
      ∀ a ∈ named, fields.idxOf a.name ≠ i := by
  simp [slotAt]

/-- Names of fields have different first places. -/
theorem idxOf_ne (ha : a.name ∈ fields) (hnew : a.name ∉ done.map (·.name)) :
    ∀ b ∈ done, fields.idxOf b.name ≠ fields.idxOf a.name :=
  fun b hb heq => hnew (List.mem_map.2 ⟨b, hb, ((List.idxOf_inj ha).1 heq.symm).symm⟩)

theorem Fits.append_singleton (h : Fits fields positional done) :
    Fits fields positional (done ++ [a]) ↔
      a.name ∈ fields ∧ slotAt fields positional done (fields.idxOf a.name) = none := by
  rw [slotAt_eq_none]
  constructor
  · intro ha
    have hmem := ha.mem a (by simp)
    refine ⟨hmem, ha.le a (by simp), idxOf_ne hmem ?_⟩
    have hnodup := ha.nodup
    rw [List.map_append, List.map_singleton, List.nodup_append] at hnodup
    exact fun hold => hnodup.2.2 _ hold _ (by simp) rfl
  · rintro ⟨hmem, hle, hne⟩
    have hnew : a.name ∉ done.map (·.name) := by
      rintro hold
      obtain ⟨b, hb, heq⟩ := List.mem_map.1 hold
      exact hne b hb (by rw [heq])
    refine ⟨?_, ?_, ?_⟩
    · rw [List.map_append, List.map_singleton]
      exact h.nodup.append (List.nodup_singleton _) (by simpa using hnew)
    · simpa [or_imp, forall_and] using ⟨h.mem, hmem⟩
    · simpa [or_imp, forall_and] using ⟨h.le, hle⟩

/-- Placing one argument more fills the slot of its field. -/
theorem slots_append_singleton (hfree : slotAt fields positional done
    (fields.idxOf a.name) = none) :
    slots fields positional (done ++ [a]) = (slots fields positional done).set (fields.idxOf a.name)
      (some a.value) := by
  obtain ⟨hle, hne⟩ := slotAt_eq_none.1 hfree
  refine List.ext_getElem? fun i => ?_
  by_cases hi : i < fields.length
  · rw [getElem?_slots hi, List.getElem?_set, length_slots, getElem?_slots hi]
    by_cases heq : fields.idxOf a.name = i
    · subst heq
      have hdone : done.find? (fields.idxOf ·.name == fields.idxOf a.name) = none := by
        simpa using hne
      rw [if_pos rfl, if_pos hi, slotAt_of_le hle, List.find?_append, hdone]
      simp
    · rw [if_neg heq, slotAt, List.find?_append]
      simp [slotAt, heq]
  · rw [List.getElem?_eq_none (by simpa using hi), List.getElem?_eq_none (by simpa using hi)]

/-! ### Placing -/

theorem findIdx?_name {name : String} :
    fields.findIdx? (· == name) = if name ∈ fields then some (fields.idxOf name) else none := by
  change fields.idxOf? name = _
  split_ifs with h
  · have hfirst : ∀ j < fields.idxOf name, ∀ h : j < fields.length, fields[j] ≠ name :=
      fun j hj h => by simpa using List.not_of_lt_findIdx hj
    exact List.idxOf?_eq_some_iff.2 ⟨List.idxOf_lt_length_of_mem h, by simp,
      fun j hj => hfirst j hj _⟩
  · exact List.idxOf?_eq_none_iff.2 h

/-- One step fills the slot that the name leads to, if it is free. -/
theorem placeOne_slots (h : Fits fields positional done) {slots' : List (Option α)} :
    placeOne fields (slots fields positional done) a = .ok slots' ↔
      Fits fields positional (done ++ [a]) ∧ slots' = slots fields positional (done ++ [a]) := by
  rw [h.append_singleton, placeOne, findIdx?_name]
  by_cases hmem : a.name ∈ fields
  · rw [if_pos hmem]
    dsimp only
    rw [getElem?_slots (List.idxOf_lt_length_of_mem hmem)]
    cases hslot : slotAt fields positional done (fields.idxOf a.name) with
    | some x => simp
    | none => simp [hmem, slots_append_singleton hslot, eq_comm]
  · rw [if_neg hmem]
    simp [hmem]

theorem Fits.of_append (h : Fits fields positional (done ++ named)) :
    Fits fields positional done where
  nodup := (List.nodup_append.1 (List.map_append ▸ h.nodup)).1
  mem a ha := h.mem a (List.mem_append_left _ ha)
  le a ha := h.le a (List.mem_append_left _ ha)

/-- A run ends in the slots that the arguments fill, and does so exactly when they fit. -/
theorem foldlM_placeOne_iff (h : Fits fields positional done) {slots' : List (Option α)} :
    named.foldlM (placeOne fields) (slots fields positional done) = .ok slots' ↔
      Fits fields positional (done ++ named) ∧
        slots' = slots fields positional (done ++ named) := by
  induction named generalizing done with
  | nil =>
    rw [List.append_nil, and_iff_right h]
    exact ⟨fun hok => (Except.ok.inj hok).symm, fun heq => congrArg Except.ok heq.symm⟩
  | cons a named ih =>
    rw [List.foldlM_cons, List.append_cons]
    cases hstep : placeOne fields (slots fields positional done) a with
    | error e =>
      refine iff_of_false (by simp [bind, Except.bind]) fun hfits => ?_
      have hok := (placeOne_slots h).2 ⟨hfits.1.of_append, rfl⟩
      rw [hstep] at hok
      cases hok
    | ok mid =>
      obtain ⟨hfits, rfl⟩ := (placeOne_slots h).1 hstep
      exact ih hfits

/-! ### No slot stays free -/

/-- The slots that the arguments take, one after the other. -/
def taken (fields : List String) (positional : List α) (named : List (Labelled α)) : List Nat :=
  List.range positional.length ++ named.map (fields.idxOf ·.name)

/-- As many arguments as fields take each slot once. -/
theorem Fits.taken_perm (h : Fits fields positional named)
    (hcount : positional.length + named.length = fields.length) :
    (taken fields positional named).Perm (List.range fields.length) := by
  have hnamed : (named.map (fields.idxOf ·.name)).Nodup := by
    refine (List.nodup_map_iff_inj_on h.nodup.of_map).2 fun a ha b hb heq => ?_
    exact List.inj_on_of_nodup_map h.nodup ha hb ((List.idxOf_inj (h.mem a ha)).1 heq)
  have hnodup : (taken fields positional named).Nodup := by
    refine List.nodup_range.append hnamed fun i hi hi' => ?_
    obtain ⟨a, ha, rfl⟩ := List.mem_map.1 hi'
    exact absurd (List.mem_range.1 hi) (Nat.not_lt.2 (h.le a ha))
  have hsubset : taken fields positional named ⊆ List.range fields.length := by
    intro i hi
    rw [List.mem_range]
    rcases List.mem_append.1 hi with hi | hi
    · have := List.mem_range.1 hi
      omega
    · obtain ⟨a, ha, rfl⟩ := List.mem_map.1 hi
      exact List.idxOf_lt_length_of_mem (h.mem a ha)
  exact (List.subperm_of_subset hnodup hsubset).perm_of_length_le (by simp [taken, hcount])

theorem slotAt_ne_none (h : Fits fields positional named)
    (hcount : positional.length + named.length = fields.length) {i : Nat} (hi : i < fields.length) :
    slotAt fields positional named i ≠ none := by
  intro hfree
  obtain ⟨hle, hne⟩ := slotAt_eq_none.1 hfree
  rcases List.mem_append.1 ((h.taken_perm hcount).mem_iff.2 (List.mem_range.2 hi)) with hi | hi
  · exact absurd (List.mem_range.1 hi) (Nat.not_lt.2 hle)
  · obtain ⟨a, ha, heq⟩ := List.mem_map.1 hi
    exact hne a ha heq

/-- When there are as many arguments as fields, no slot stays free. -/
theorem slots_full (h : Fits fields positional named)
    (hcount : positional.length + named.length = fields.length) :
    ∃ args : List α, slots fields positional named = args.map some := by
  have hrange : slots fields positional named ∈ Set.range (List.map some) := by
    rw [Set.range_list_map]
    intro x hx
    obtain ⟨i, hi, rfl⟩ := List.mem_map.1 hx
    obtain ⟨y, hy⟩ := Option.ne_none_iff_exists.1 (slotAt_ne_none h hcount (List.mem_range.1 hi))
    exact ⟨y, hy⟩
  obtain ⟨args, hargs⟩ := hrange
  exact ⟨args, hargs.symm⟩

theorem Fits.slotAt_idxOf (h : Fits fields positional named) (ha : a ∈ named) :
    slotAt fields positional named (fields.idxOf a.name) = some a.value := by
  rw [slotAt_of_le (h.le a ha)]
  cases hfind : named.find? (fields.idxOf ·.name == fields.idxOf a.name) with
  | none => exact absurd ha (by simpa using List.find?_eq_none.1 hfind a)
  | some b =>
    have hb := List.mem_of_find?_eq_some hfind
    have heq : fields.idxOf b.name = fields.idxOf a.name := by simpa using List.find?_some hfind
    rw [List.inj_on_of_nodup_map h.nodup hb ha ((List.idxOf_inj (h.mem b hb)).1 heq)]
    rfl

/-! ### The order of the fields -/

/-- A list of arguments in the order of the fields: it has no gap, it begins with the positional
arguments, each named argument stands at the first place of its name, and each argument and each
place is used once. -/
structure InFieldOrder (fields : List String) (positional : List α) (named : List (Labelled α))
    (args : List α) : Prop where
  length_eq : args.length = fields.length
  positional_prefix : positional <+: args
  named_at : ∀ a ∈ named, a.name ∈ fields ∧ args[fields.idxOf a.name]? = some a.value
  args_perm : args.Perm (positional ++ named.map (·.value))
  taken_perm : (taken fields positional named).Perm (List.range fields.length)

/-- Placing succeeds on arguments that fit, when there are as many as fields, and
fills all slots. -/
theorem placeArguments_iff {loc : Location} {args : List α} (hnamed : named ≠ []) :
    placeArguments loc fields positional named = .ok args ↔
      positional.length + named.length = fields.length ∧ Fits fields positional named ∧
        slots fields positional named = args.map some := by
  have hlen : named.length ≠ 0 := by simpa using hnamed
  unfold placeArguments
  rw [if_neg (by simpa using hnamed)]
  by_cases hcount : positional.length + named.length = fields.length
  · have hempty : ¬ fields.isEmpty = true := by
      rw [List.isEmpty_iff, ← List.length_eq_zero_iff]
      omega
    rw [if_neg hempty, if_neg (not_not.2 hcount), and_iff_right hcount]
    dsimp only
    rw [← slots_nil (by omega)]
    cases hrun : named.foldlM (placeOne fields) (slots fields positional []) with
    | error e =>
      refine iff_of_false (by simp [bind, Except.bind]) fun hfits => ?_
      have hok := (foldlM_placeOne_iff fits_nil).2 ⟨hfits.1, rfl⟩
      rw [hrun] at hok
      cases hok
    | ok filled =>
      obtain ⟨hfits, rfl⟩ := (foldlM_placeOne_iff fits_nil).1 hrun
      rw [List.nil_append] at hfits ⊢
      obtain ⟨filled, hfilled⟩ := slots_full hfits hcount
      rw [hfilled, and_iff_right hfits, (List.map_injective_iff.2 (Option.some_injective α)).eq_iff]
      simp [bind, Except.bind, pure, Except.pure]
  · refine iff_of_false ?_ fun h => hcount h.1
    split_ifs <;> simp

theorem placeArguments_placed {loc : Location} {args : List α} (hnamed : named ≠ [])
    (h : placeArguments loc fields positional named = .ok args) :
    InFieldOrder fields positional named args := by
  obtain ⟨hcount, hfits, hslots⟩ := (placeArguments_iff hnamed).1 h
  have hlen : args.length = fields.length := by rw [← length_slots, hslots, List.length_map]
  have hget : ∀ i < fields.length, args[i]? = slotAt fields positional named i := by
    intro i hi
    have hslot : (slots fields positional named)[i]? = some (slotAt fields positional named i) :=
      getElem?_slots hi
    rw [hslots, List.getElem?_map, List.getElem?_eq_getElem (by omega), Option.map_some,
      Option.some.injEq] at hslot
    rw [List.getElem?_eq_getElem (by omega), hslot]
  refine ⟨hlen, ?_, fun a ha => ?_, placeArguments_perm h, hfits.taken_perm hcount⟩
  · refine List.prefix_iff_getElem?.2 fun i hi => ?_
    rw [hget i (by omega), slotAt_of_lt hi]
  · rw [hget _ (List.idxOf_lt_length_of_mem (hfits.mem a ha)), hfits.slotAt_idxOf ha]
    exact ⟨hfits.mem a ha, rfl⟩

/-- Named arguments are placed exactly. What is returned is in the order of the fields, and all
slots are filled; and it is returned when there are as many arguments as fields and the named ones
name, without repetition, fields whose first place comes after the positional ones. -/
theorem placeArguments_exact (loc : Location) (fields : List String) (positional : List α)
    (named : List (Labelled α)) (h : named ≠ []) :
    (∀ args, placeArguments loc fields positional named = .ok args →
      InFieldOrder fields positional named args ∧
        named.foldlM (placeOne fields)
          (positional.map some ++ List.replicate (fields.length - positional.length) none) =
          .ok (args.map some)) ∧
      ((∃ args, placeArguments loc fields positional named = .ok args) ↔
        positional.length + named.length = fields.length ∧ Fits fields positional named) := by
  refine ⟨fun args hok => ⟨placeArguments_placed h hok, ?_⟩, ?_⟩
  · obtain ⟨hcount, hfits, hslots⟩ := (placeArguments_iff h).1 hok
    rw [← slots_nil (by omega), foldlM_placeOne_iff fits_nil]
    exact ⟨hfits, hslots.symm⟩
  · constructor
    · rintro ⟨args, hok⟩
      obtain ⟨hcount, hfits, -⟩ := (placeArguments_iff h).1 hok
      exact ⟨hcount, hfits⟩
    · rintro ⟨hcount, hfits⟩
      obtain ⟨args, hargs⟩ := slots_full hfits hcount
      exact ⟨args, (placeArguments_iff h).2 ⟨hcount, hfits, hargs⟩⟩

/-- The names decide where the arguments after the first one stand. -/
theorem placeArguments_exact_swapped :
    placeArguments {} ["x", "y", "z"] [10] [⟨{}, "z", 30⟩, ⟨{}, "y", 20⟩] = .ok [10, 20, 30] ∧
      InFieldOrder ["x", "y", "z"] [10] [⟨{}, "z", 30⟩, ⟨{}, "y", 20⟩] [10, 20, 30] := by
  have hok : placeArguments {} ["x", "y", "z"] [10] [⟨{}, "z", 30⟩, ⟨{}, "y", 20⟩] = .ok [10,
    20, 30] := rfl
  exact ⟨hok, ((placeArguments_exact _ _ _ _ (by simp)).1 _ hok).1⟩

end FunRiscv

import Mathlib
import FunRiscv.Proofs.Typing.Rules

/-!
# Where arguments are placed

* `placeArguments_map`: placing looks at names only, so it can be done before or after a
  function on the values.
* `placeArguments_perm`: no argument is lost and none is passed twice.
* `Expr.nodeCount_pos`, `jobs`, `namedJobs`: arguments as expressions with their numbers, which take
  disjoint ranges of numbers.
-/

namespace FunRiscv

variable {α β : Type}

/-! ### Names decide -/

/-- A function on the value of a labelled argument. -/
def Labelled.map (f : α → β) (a : Labelled α) : Labelled β := ⟨a.loc, a.name, f a.value⟩

theorem placeOne_map (f : α → β) (fields : List String) (slots : List (Option α)) (a : Labelled α) :
    placeOne fields (slots.map (Option.map f)) (a.map f) = (placeOne fields slots a).map
      (List.map (Option.map f)) := by
  unfold placeOne Labelled.map
  dsimp only
  cases fields.findIdx? (· == a.name) with
  | none => rfl
  | some i =>
    dsimp only
    rw [List.getElem?_map]
    rcases slots[i]? with _ | _ | x
    · simp [Except.map, List.map_set]
    · simp [Except.map, List.map_set]
    · rfl

theorem foldlM_placeOne_map (f : α → β) (fields : List String) (named : List (Labelled α))
    (slots : List (Option α)) :
    (named.map (Labelled.map f)).foldlM (placeOne fields) (slots.map (Option.map f)) =
      (named.foldlM (placeOne fields) slots).map (List.map (Option.map f)) := by
  induction named generalizing slots with
  | nil => rfl
  | cons a named ih =>
    rw [List.map_cons, List.foldlM_cons, List.foldlM_cons, placeOne_map]
    cases placeOne fields slots a with
    | error e => rfl
    | ok slots' => exact ih slots'

/-- Placing looks at names only. -/
theorem placeArguments_map (f : α → β) (loc : Location) (fields : List String) (positional : List α)
    (named : List (Labelled α)) :
    placeArguments loc fields (positional.map f) (named.map (Labelled.map f)) =
      (placeArguments loc fields positional named).map (List.map f) := by
  unfold placeArguments
  simp only [List.isEmpty_map, List.length_map]
  split
  · rfl
  · split
    · rfl
    · split
      · rfl
      · have hslots : (positional.map f).map some ++
          List.replicate (fields.length - positional.length) none =
            (positional.map some ++ List.replicate (fields.length - positional.length) none).map
              (Option.map f) := by
          simp [Function.comp_def]
        rw [hslots, foldlM_placeOne_map]
        cases named.foldlM (placeOne fields)
          (positional.map some ++ List.replicate (fields.length - positional.length) none) with
        | error e => rfl
        | ok slots =>
          show Except.ok _ = Except.ok _
          rw [List.filterMap_map, List.map_filterMap]
          rfl

/-! ### Nothing is lost -/

theorem placeOne_perm {fields : List String} {slots slots' : List (Option α)} {a : Labelled α}
    (hlen : slots.length = fields.length) (h : placeOne fields slots a = .ok slots') :
    slots'.length = fields.length ∧ (slots'.filterMap id).Perm (a.value :: slots.filterMap id) := by
  unfold placeOne at h
  cases hi : fields.findIdx? (· == a.name) with
  | none => simp [hi] at h
  | some i =>
    obtain ⟨hlt, -⟩ := List.findIdx?_eq_some_iff_getElem.1 hi
    have hlt' : i < slots.length := by omega
    have hget : slots[i]? = some slots[i] := List.getElem?_eq_getElem hlt'
    simp only [hi, hget] at h
    cases hx : slots[i] with
    | some x =>
      rw [hx] at h
      cases h
    | none =>
      rw [hx] at h
      obtain rfl := Except.ok.inj h
      refine ⟨by simpa using hlen, ?_⟩
      have hsplit : slots = slots.take i ++ none :: slots.drop (i + 1) := by
        rw [← hx, ← List.drop_eq_getElem_cons hlt', List.take_append_drop]
      rw [List.set_eq_take_append_cons_drop, if_pos hlt']
      conv_rhs => rw [hsplit]
      simp only [List.filterMap_append, List.filterMap_cons, id]
      exact List.perm_middle

/-- No argument is lost and none is passed twice. -/
theorem placeArguments_perm {loc : Location} {fields : List String} {positional placed : List α}
    {named : List (Labelled α)} (h : placeArguments loc fields positional named = .ok placed) :
    placed.Perm (positional ++ named.map (·.value)) := by
  have fold : ∀ (named : List (Labelled α)) (slots slots' : List (Option α)),
    slots.length = fields.length → named.foldlM (placeOne fields) slots = .ok slots' →
      (slots'.filterMap id).Perm (slots.filterMap id ++ named.map (·.value)) := by
    intro named
    induction named with
    | nil =>
      intro slots slots' _ h
      obtain rfl := Except.ok.inj h
      simp
    | cons a named ih =>
      intro slots slots' hlen h
      rw [List.foldlM_cons] at h
      cases ha : placeOne fields slots a with
      | error e =>
        rw [ha] at h
        cases h
      | ok mid =>
        rw [ha] at h
        obtain ⟨hmid, hperm⟩ := placeOne_perm hlen ha
        refine (ih mid slots' hmid h).trans ((hperm.append_right _).trans ?_)
        rw [List.map_cons]
        exact List.perm_middle.symm
  unfold placeArguments at h
  split at h
  · next hn =>
    obtain rfl := Except.ok.inj h
    simp [List.isEmpty_iff.1 hn]
  · split at h
    · cases h
    · split at h
      · cases h
      · next hlen =>
        dsimp only at h
        cases hs : named.foldlM (placeOne fields)
            (positional.map some ++ List.replicate (fields.length - positional.length) none) with
        | error e =>
          rw [hs] at h
          cases h
        | ok slots =>
          rw [hs] at h
          obtain rfl := Except.ok.inj h
          have := fold named _ slots (by simp; omega) hs
          simpa [List.filterMap_append, List.filterMap_map] using this

/-! ### Numbers of arguments -/

theorem Expr.nodeCount_pos (e : Expr) : 0 < e.nodeCount := by
  cases e <;> simp [Expr.nodeCount]

/-- The numbers of an expression and those under it. -/
def span (j : Nat × Expr) : Set Nat := Set.Ico j.1 (j.1 + j.2.nodeCount)

/-- Expressions with their numbers, from `i` on. -/
def jobs (i : Nat) : List Expr → List (Nat × Expr)
  | [] => []
  | e :: es => (i, e) :: jobs (i + e.nodeCount) es

/-- Named arguments with their numbers, from `i` on. -/
def namedJobs (i : Nat) : List NamedArg → List (Labelled (Nat × Expr))
  | [] => []
  | .mk loc n e :: ns => ⟨loc, n, (i, e)⟩ :: namedJobs (i + e.nodeCount) ns

theorem map_fst_jobs (i : Nat) (es : List Expr) : (jobs i es).map Prod.fst = exprNumbers i es := by
  induction es generalizing i with
  | nil => rfl
  | cons e es ih => simp [jobs, exprNumbers, ih]

theorem map_fst_namedJobs (i : Nat) (ns : List NamedArg) :
    (namedJobs i ns).map (Labelled.map Prod.fst) = namedNumbers i ns := by
  induction ns generalizing i with
  | nil => rfl
  | cons n ns ih =>
    obtain ⟨loc, n, e⟩ := n
    simp [namedJobs, namedNumbers, ih, Labelled.map]

theorem span_subset_of_mem_jobs {i : Nat} {es : List Expr} {j : Nat × Expr} (h : j ∈ jobs i es) :
    span j ⊆ Set.Ico i (i + exprsNodeCount es) := by
  induction es generalizing i with
  | nil => cases h
  | cons e es ih =>
    rcases List.mem_cons.1 h with rfl | h
    · intro k
      simp only [span, exprsNodeCount, Set.mem_Ico]
      omega
    · refine (ih h).trans fun k => ?_
      simp only [exprsNodeCount, Set.mem_Ico]
      omega

theorem span_subset_of_mem_namedJobs {i : Nat} {ns : List NamedArg} {j : Labelled (Nat × Expr)}
    (h : j ∈ namedJobs i ns) : span j.value ⊆ Set.Ico i (i + namedNodeCount ns) := by
  induction ns generalizing i with
  | nil => cases h
  | cons n ns ih =>
    obtain ⟨loc, n, e⟩ := n
    rcases List.mem_cons.1 h with rfl | h
    · intro k
      simp only [span, namedNodeCount, Set.mem_Ico]
      omega
    · refine (ih h).trans fun k => ?_
      simp only [namedNodeCount, Set.mem_Ico]
      omega

theorem disjoint_Ico {a b c d : Nat} (h : b ≤ c) {S T : Set Nat} (hS : S ⊆ Set.Ico a b)
    (hT : T ⊆ Set.Ico c d) : Disjoint S T := by
  refine Set.disjoint_left.2 fun k hk hk' => ?_
  have := (hS hk).2
  have := (hT hk').1
  omega

theorem pairwise_disjoint_jobs (i : Nat) (es : List Expr) :
    (jobs i es).Pairwise fun j k => Disjoint (span j) (span k) := by
  induction es generalizing i with
  | nil => exact .nil
  | cons e es ih =>
    exact .cons (fun k hk =>
      disjoint_Ico (Nat.le_refl _) (Set.Subset.refl _) (span_subset_of_mem_jobs hk)) (ih _)

theorem pairwise_disjoint_namedJobs (i : Nat) (ns : List NamedArg) :
    ((namedJobs i ns).map (·.value)).Pairwise fun j k => Disjoint (span j) (span k) := by
  induction ns generalizing i with
  | nil => exact .nil
  | cons n ns ih =>
    obtain ⟨loc, n, e⟩ := n
    refine .cons (fun k hk => ?_) (ih _)
    obtain ⟨j, hj, rfl⟩ := List.mem_map.1 hk
    exact disjoint_Ico (Nat.le_refl _) (Set.Subset.refl _) (span_subset_of_mem_namedJobs hj)

/-- The arguments of a call, in the order of the fields, take disjoint ranges of numbers. -/
theorem pairwise_disjoint_placed {loc : Location} {fields : List String} {i : Nat}
    {args : List Expr} {named : List NamedArg} {placed : List (Nat × Expr)}
    (h : placeArguments loc fields (jobs i args)
      (namedJobs (i + exprsNodeCount args) named) = .ok placed) :
    placed.Pairwise fun j k => Disjoint (span j) (span k) := by
  refine (placeArguments_perm h).symm.pairwise ?_ fun hjk => hjk.symm
  rw [List.pairwise_append]
  refine ⟨pairwise_disjoint_jobs i args, pairwise_disjoint_namedJobs _ named, fun j hj k hk => ?_⟩
  obtain ⟨l, hl, rfl⟩ := List.mem_map.1 hk
  exact disjoint_Ico (Nat.le_refl _) (span_subset_of_mem_jobs hj) (span_subset_of_mem_namedJobs hl)

end FunRiscv

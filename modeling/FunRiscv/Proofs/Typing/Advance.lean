import Mathlib
import FunRiscv.Proofs.Ty.Variables
import FunRiscv.Proofs.Typing.Placement

/-!
# What checking changes

* `Symbol.Tidy`: the types in a symbol mention its own parameters only.
* `Frame.bind`: replaces the variables in the types of local variables.
* `Checker.Ready`: a checker and local frames in which fresh variables are new.
* `Advances`: what inferring changes, with the numbers whose types are recorded.
* `Settles`: a report gives the types recorded for some numbers, under a substitution that
  makes the bindings true.
-/

namespace FunRiscv

open Checking

/-! ### Symbols -/

/-- A constructor whose signature mentions its parameters only. -/
def Constructor.Tidy (k : Constructor) : Prop := k.signature.Over (· ∈ k.params)

/-- The types in a symbol mention its own parameters only. -/
def Symbol.Tidy : Symbol → Prop
  | .variable _ t | .function _ t _ => t.Ground
  | .type s =>
    (∀ t ∈ s.target?, t.Over (· ∈ s.params)) ∧ (∀ f ∈ s.fields, f.2.Over (· ∈ s.params)) ∧
      ∀ k ∈ s.constructor?, k.Tidy
  | .constructor k => k.Tidy
  | .module .. => True

theorem Symbol.Tidy.constructor? :
    ∀ {s : Symbol} {k : Constructor}, s.Tidy → s.constructor? = some k → k.Tidy
  | .type _, k, h, hk => h.2.2 k hk
  | .constructor _, _, h, hk => Option.some.inj hk ▸ h
  | .variable .., _, _, hk | .function .., _, _, hk
  | .module .., _, _, hk => by simp [Symbol.constructor?] at hk

/-- Every symbol of a frame is tidy. -/
def Frame.Tidy (f : Frame) : Prop := ∀ e ∈ f, e.2.Tidy

theorem Frame.mem_of_find? {f : Frame} {n : String} {s : Symbol} (h : f.find? n = some s) :
    (n, s) ∈ f := by
  obtain ⟨l₁, l₂, rfl, -⟩ := List.lookup_eq_some_iff.1 h
  simp

/-- A symbol found in frames stands in one of them. -/
theorem mem_of_findIn? {frames : List Frame} {n : String} {s : Symbol}
    (h : findIn? frames n = some s) : ∃ f ∈ frames, (n, s) ∈ f := by
  obtain ⟨f, hf, hs⟩ := List.exists_of_findSome?_eq_some h
  exact ⟨f, hf, Frame.mem_of_find? hs⟩

theorem mem_of_symbolIn? {frames : List Frame} {path n : String} {s : Symbol}
    (h : symbolIn? frames path n = some s) : ∃ f ∈ frames, ∃ m, (m, s) ∈ f := by
  unfold symbolIn? at h
  cases hn : findIn? frames n with
  | some s' =>
    rw [hn] at h
    obtain rfl := Option.some.inj h
    obtain ⟨f, hf, hs⟩ := mem_of_findIn? hn
    exact ⟨f, hf, n, hs⟩
  | none =>
    rw [hn] at h
    dsimp only at h
    split at h
    · cases h
    · obtain ⟨f, hf, hs⟩ := mem_of_findIn? h
      exact ⟨f, hf, _, hs⟩

/-! ### Replacing variables in frames -/

/-- Replaces the variables in the type of a local variable. -/
def Symbol.bind (θ : String → Ty) : Symbol → Symbol
  | .variable n t => .variable n (t.bind θ)
  | s => s

/-- Replaces the variables in the types of a frame. -/
def Frame.bind (θ : String → Ty) (f : Frame) : Frame := f.map fun e => (e.1, e.2.bind θ)

theorem Symbol.constructor?_bind (θ : String → Ty) :
    ∀ s : Symbol, (s.bind θ).constructor? = s.constructor?
  | .variable .. | .function .. | .type _ | .constructor _ | .module .. => rfl

theorem Symbol.Tidy.bind_eq (θ : String → Ty) : ∀ {s : Symbol}, s.Tidy → s.bind θ = s
  | .variable n t, h => by rw [Symbol.bind, Ty.Ground.bind_eq h]
  | .function .., _ | .type _, _ | .constructor _, _ | .module .., _ => rfl

theorem Frame.Tidy.bind_eq {f : Frame} (h : f.Tidy) (θ : String → Ty) : f.bind θ = f := by
  conv_rhs => rw [← List.map_id f]
  exact List.map_congr_left fun e he => Prod.ext rfl ((h e he).bind_eq θ)

theorem Frame.find?_bind (θ : String → Ty) (f : Frame) (n : String) :
    (f.bind θ).find? n = (f.find? n).map (Symbol.bind θ) := by
  unfold Frame.find? Frame.bind
  induction f with
  | nil => rfl
  | cons e f ih =>
    rw [List.map_cons, List.lookup_cons, List.lookup_cons, ih]
    cases n == e.1 <;> rfl

theorem findIn?_bind (θ : String → Ty) (frames : List Frame) (n : String) :
    findIn? (frames.map (Frame.bind θ)) n = (findIn? frames n).map (Symbol.bind θ) := by
  unfold findIn?
  induction frames with
  | nil => rfl
  | cons f frames ih =>
    rw [List.map_cons, List.findSome?_cons, List.findSome?_cons, Frame.find?_bind, ih]
    cases f.find? n <;> rfl

theorem symbolIn?_bind (θ : String → Ty) (frames : List Frame) (path n : String) :
    symbolIn? (frames.map (Frame.bind θ)) path n = (symbolIn? frames path n).map
      (Symbol.bind θ) := by
  unfold symbolIn?
  rw [findIn?_bind, findIn?_bind]
  cases findIn? frames n with
  | some s => rfl
  | none =>
    dsimp only [Option.map_none]
    split <;> rfl

theorem bindLocal_bind (θ : String → Ty) (locals : List Frame) (n : String) (t : Ty) :
    (bindLocal locals n t).map (Frame.bind θ) = bindLocal (locals.map (Frame.bind θ)) n
      (t.bind θ) := by
  cases locals <;> rfl

theorem withParams_bind (θ : String → Ty) (locals : List Frame) (ps : List Param) (ts : List Ty) :
    (withParams locals ps ts).map (Frame.bind θ) = withParams (locals.map (Frame.bind θ)) ps
      (ts.map (Ty.bind θ)) := by
  unfold withParams
  rw [List.zip_map_right, List.foldl_map]
  generalize ps.zip ts = es
  induction es generalizing locals with
  | nil => rfl
  | cons e es ih =>
    rw [List.foldl_cons, List.foldl_cons, ih, bindLocal_bind]
    rfl

/-! ### Local frames -/

/-- Frames of local variables whose types have a property. -/
def AreLocal (P : Ty → Prop) (locals : List Frame) : Prop :=
  ∀ f ∈ locals, ∀ e ∈ f, ∃ t, e.2 = .variable e.1 t ∧ P t

section AreLocal

variable {P Q : Ty → Prop} {locals : List Frame}

theorem AreLocal.mono (h : AreLocal P locals) (hPQ : ∀ t, P t → Q t) : AreLocal Q locals := by
  intro f hf e he
  obtain ⟨t, ht, hP⟩ := h f hf e he
  exact ⟨t, ht, hPQ t hP⟩

theorem AreLocal.push (h : AreLocal P locals) : AreLocal P ([] :: locals) := by
  intro f hf e he
  rcases List.mem_cons.1 hf with rfl | hf
  · cases he
  · exact h f hf e he

theorem AreLocal.bindLocal (h : AreLocal P locals) {n : String} {t : Ty} (ht : P t) :
    AreLocal P (bindLocal locals n t) := by
  intro f hf e he
  cases locals with
  | nil =>
    obtain rfl := List.mem_singleton.1 hf
    obtain rfl := List.mem_singleton.1 he
    exact ⟨t, rfl, ht⟩
  | cons g locals =>
    rcases List.mem_cons.1 hf with rfl | hf
    · rcases List.mem_cons.1 he with rfl | he
      · exact ⟨t, rfl, ht⟩
      · exact h g List.mem_cons_self e he
    · exact h f (List.mem_cons_of_mem _ hf) e he

theorem AreLocal.withParams (h : AreLocal P locals) {ps : List Param} {ts : List Ty}
    (hts : ∀ t ∈ ts, P t) : AreLocal P (withParams locals ps ts) := by
  unfold FunRiscv.withParams
  have hes : ∀ e ∈ ps.zip ts, P e.2 := fun e he => hts e.2 (List.of_mem_zip he).2
  generalize ps.zip ts = es at hes
  induction es generalizing locals with
  | nil => exact h
  | cons e es ih => exact ih (h.bindLocal (hes e (by simp))) fun e he => hes e (by simp [he])

end AreLocal

/-! ### Checkers -/

/-- A checker and local frames in which fresh variables are new. -/
structure Checker.Ready (c : Checker) (locals : List Frame) : Prop where
  tidy : c.unifier.Tidy
  globals : c.globals.Tidy
  locals : AreLocal (·.Over c.unifier.Past) locals

/-- A symbol whose type variables are past ones. -/
def Symbol.Known (u : Unifier) : Symbol → Prop
  | .variable _ t => t.Over u.Past
  | s => s.Tidy

theorem Symbol.Tidy.known {u : Unifier} : ∀ {s : Symbol}, s.Tidy → s.Known u
  | .variable _ _, h => Ty.Ground.over h
  | .function .., h | .type _, h | .constructor _, h | .module .., h => h

theorem Symbol.Known.constructor? {u : Unifier} :
    ∀ {s : Symbol} {k : Constructor}, s.Known u → s.constructor? = some k → k.Tidy
  | .type s, _, h, hk => Symbol.Tidy.constructor? (s := .type s) h hk
  | .constructor _, _, h, hk => Option.some.inj hk ▸ h
  | .variable .., _, _, hk | .function .., _, _, hk
  | .module .., _, _, hk => by simp [Symbol.constructor?] at hk

theorem Checker.Ready.known {c : Checker} {locals : List Frame} (h : c.Ready locals) {n : String}
    {s : Symbol} (hs : c.find? locals n = some s) : s.Known c.unifier := by
  obtain ⟨f, hf, m, hm⟩ := mem_of_symbolIn? hs
  rcases List.mem_append.1 hf with hf | hf
  · obtain ⟨t, ht, hP⟩ := h.locals f hf _ hm
    dsimp only at ht
    exact ht ▸ hP
  · rw [List.mem_singleton] at hf
    exact (h.globals _ (hf ▸ hm)).known

/-- The types of expressions with numbers in a set were recorded, and the unifier moved on. -/
structure Advances (S : Set Nat) (c c' : Checker) : Prop where
  tidy : c'.unifier.Tidy
  reaches : c.unifier.Reaches c'.unifier
  rest : c' = { c with unifier := c'.unifier, types := c'.types }
  types : ∃ new, c'.types = new ++ c.types ∧ ∀ e ∈ new, e.1 ∈ S

section Advances

variable {S T : Set Nat} {c c' c'' : Checker}

theorem Advances.refl (h : c.unifier.Tidy) : Advances S c c := ⟨h, .refl _, rfl, [], rfl, by simp⟩

theorem Advances.trans (h : Advances S c c') (h' : Advances S c' c'') : Advances S c c'' := by
  obtain ⟨new, hnew, hS⟩ := h.types
  obtain ⟨new', hnew', hS'⟩ := h'.types
  refine ⟨h'.tidy, h.reaches.trans h'.reaches, ?_, new' ++ new, ?_, ?_⟩
  · rw [h'.rest, h.rest]
  · rw [hnew', hnew, List.append_assoc]
  · intro e he
    rcases List.mem_append.1 he with he | he
    · exact hS' e he
    · exact hS e he

theorem Advances.mono (h : Advances S c c') (hST : S ⊆ T) : Advances T c c' := by
  obtain ⟨new, hnew, hS⟩ := h.types
  exact ⟨h.tidy, h.reaches, h.rest, new, hnew, fun e he => hST (hS e he)⟩

theorem Advances.record (h : Advances S c c') {i : Nat} (hi : i ∈ S) (t : Ty) :
    Advances S c (c'.record i t) := by
  obtain ⟨new, hnew, hS⟩ := h.types
  refine ⟨h.tidy, h.reaches, ?_, (i, t) :: new, ?_, ?_⟩
  · rw [Checker.record, h.rest]
  · rw [Checker.record, hnew, List.cons_append]
  · intro e he
    rcases List.mem_cons.1 he with rfl | he
    · exact hi
    · exact hS e he

theorem Advances.of_unifier {u : Unifier} (hu : u.Tidy) (h : c.unifier.Reaches u) :
    Advances S c { c with unifier := u } :=
  ⟨hu, h, rfl, [], rfl, by simp⟩

theorem Advances.globals_eq (h : Advances S c c') : c'.globals = c.globals := by rw [h.rest]

theorem Advances.scopePath_eq (h : Advances S c c') : c'.scopePath = c.scopePath := by rw [h.rest]

theorem Checker.Ready.later {locals : List Frame} (hc : c.Ready locals) (h : Advances S c c') :
    c'.Ready locals :=
  ⟨h.tidy, h.globals_eq ▸ hc.globals, hc.locals.mono fun _ => h.reaches.over⟩

theorem Checker.Ready.push {locals : List Frame} (hc : c.Ready locals) : c.Ready ([] :: locals) :=
  ⟨hc.tidy, hc.globals, hc.locals.push⟩

theorem Advances.lookup_eq (h : Advances S c c') {k : Nat} (hk : k ∉ S) :
    c'.types.lookup k = c.types.lookup k := by
  obtain ⟨new, hnew, hS⟩ := h.types
  have hnone : new.lookup k = none := by
    rw [List.lookup_eq_none_iff]
    intro e he
    have hne : k ≠ e.1 := by
      rintro rfl
      exact hk (hS e he)
    simpa using hne
  rw [hnew, List.lookup_append, hnone, Option.none_or]

end Advances

/-! ### Reports of a checker -/

/-- A report gives the types recorded for the numbers of a set, under a substitution that makes
the bindings true. -/
structure Settles (θ : String → Ty) (r : Report) (S : Set Nat) (c : Checker) : Prop where
  globals : r.globals = c.globals
  path : r.path = c.scopePath
  respects : Subst.Respects θ c.unifier.subst
  reads : ∀ k ∈ S, r.types k = (c.types.lookup k).map (Ty.bind θ)

section Settles

variable {θ : String → Ty} {r : Report} {R S T : Set Nat} {c c' : Checker}

/-- What is settled at the end is settled at an earlier point, for numbers that were not
recorded in between. -/
theorem Settles.before (h : Settles θ r S c') (ha : Advances T c c') (hR : ∀ k ∈ R, k ∈ S ∧ k ∉ T) :
    Settles θ r R c := by
  refine ⟨h.globals.trans ha.globals_eq, h.path.trans ha.scopePath_eq,
    ha.reaches.respects ha.tidy h.respects, ?_⟩
  intro k hk
  rw [h.reads k (hR k hk).1, ha.lookup_eq (hR k hk).2]

theorem Settles.mono (h : Settles θ r S c) (hR : R ⊆ S) : Settles θ r R c :=
  ⟨h.globals, h.path, h.respects, fun k hk => h.reads k (hR hk)⟩

/-- The report has the type that was recorded last. -/
theorem Settles.types_record {i : Nat} {t : Ty} (h : Settles θ r S (c.record i t)) (hi : i ∈ S) :
    r.types i = some (t.bind θ) := by
  rw [h.reads i hi]
  simp [Checker.record]

theorem Settles.of_record {i : Nat} {t : Ty} (h : Settles θ r S (c.record i t))
    (hR : ∀ k ∈ R, k ∈ S ∧ k ≠ i) : Settles θ r R c := by
  refine ⟨h.globals, h.path, h.respects, fun k hk => ?_⟩
  rw [h.reads k (hR k hk).1]
  have hne : (k == i) = false := by simpa using (hR k hk).2
  simp [Checker.record, List.lookup_cons, hne]

/-- A name stands for the same in the report, with settled types. -/
theorem Settles.symbol? (h : Settles θ r S c) {locals : List Frame} (hc : c.Ready locals)
    (n : String) :
    r.symbol? (locals.map (Frame.bind θ)) n = (c.find? locals n).map (Symbol.bind θ) := by
  unfold Report.symbol? Checker.find?
  rw [← symbolIn?_bind, List.map_append, List.map_singleton, hc.globals.bind_eq, h.globals, h.path]

end Settles

end FunRiscv

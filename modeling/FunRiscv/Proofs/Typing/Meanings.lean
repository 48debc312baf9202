import Mathlib
import FunRiscv.Proofs.Typing.Actions

/-!
# What written types mean

Resolving a written type reads the table of names and changes nothing: its meaning is a function of
the symbols that its names stand for.

* `Computes`: an action that changes nothing, and what it gives.
* `TypeExpr.meaning?`: the type that a written type means, from the symbols of names.
  `computes_resolve`: resolving gives it.
* `TypeExpr.names`, `TypeExpr.meaning?_mono`: only the types behind the names in a
  written type matter.
* `paramMeanings?`, `FuncDef.resultMeaning?`, `fieldMeanings?`: the same for
  parameters, results and fields.
-/

namespace FunRiscv

open Checking

/-! ### Actions that change nothing -/

/-- An action changes nothing, and succeeds exactly with the value at hand. -/
def Computes {α : Type} (m : Checking α) (c : Checker) (r : Option α) : Prop :=
  ∀ a c', Gives m c a c' ↔ c' = c ∧ r = some a

section Computes

variable {α β : Type} {m : Checking α} {f : α → Checking β} {c : Checker} {r : Option α}
  {g : α → Option β}

theorem computes_pure (a : α) : Computes (pure a) c (some a) := fun b c' => by
  rw [gives_pure, Option.some_inj, and_comm, eq_comm (a := b)]

theorem computes_fail (loc : Location) (cause : TypeCause) :
    Computes (fail loc cause : Checking α) c none := fun a c' =>
  ⟨fun h => (not_gives_fail h).elim, fun h => by simp at h⟩

theorem computes_find? (locals : List Frame) (n : String) :
    Computes (find? locals n) c (some (c.find? locals n)) := fun s c' => by
  rw [gives_find?, Option.some_inj, and_comm, eq_comm (a := s)]

theorem Computes.bind (hm : Computes m c r) (hf : ∀ a, Computes (f a) c (g a)) :
    Computes (m >>= f) c (r.bind g) := by
  intro b c'
  rw [gives_bind, Option.bind_eq_some_iff]
  constructor
  · rintro ⟨a, c₁, ha, hb⟩
    obtain ⟨rfl, hr⟩ := (hm a c₁).1 ha
    obtain ⟨rfl, hg⟩ := (hf a b c').1 hb
    exact ⟨rfl, a, hr, hg⟩
  · rintro ⟨rfl, a, hr, hg⟩
    exact ⟨a, c', (hm a c').2 ⟨rfl, hr⟩, (hf a b c').2 ⟨rfl, hg⟩⟩

theorem Computes.map (hm : Computes m c r) (h : α → β) :
    Computes (do return h (← m)) c (r.map h) := by
  rw [Option.map_eq_bind]
  exact hm.bind fun a => computes_pure (h a)

theorem Computes.inContext (hm : Computes m c r) (label : String) :
    Computes (inContext label m) c r := fun a c' => by
  rw [gives_inContext, hm]

theorem Computes.mapM {γ : Type} {act : γ → Checking α} {val : γ → Option α} {xs : List γ}
    (h : ∀ x ∈ xs, Computes (act x) c (val x)) : Computes (xs.mapM act) c (xs.mapM val) := by
  induction xs with
  | nil => exact computes_pure []
  | cons x xs ih =>
    rw [List.forall_mem_cons] at h
    rw [List.mapM_cons, List.mapM_cons]
    exact h.1.bind fun a => (ih h.2).bind fun as => computes_pure (a :: as)

end Computes

/-! ### Written types -/

/-- The type that a name with arguments means, from its symbol. An alias stands for its target. -/
def typeNamed? (s? : Option Symbol) (args : List Ty) : Option Ty :=
  match s? with
  | some (.type t) =>
    if args.length ≠ t.params.length then none
    else match t.target? with
      | none => some (.named t.name args)
      | some target => some (target.replace (Ty.parameterMap t.params args))
  | _ => none

mutual

/-- The type that a written type means, under some type parameters and with some
symbols of names. -/
def TypeExpr.meaning? (find : String → Option Symbol) (params : List String) : TypeExpr → Option Ty
  | .name _ n args =>
    if args.isEmpty && params.contains n then some (.var n) else (meanings? find params args).bind
      (typeNamed? (find n))
  | .func _ p r =>
    (p.meaning? find params).bind fun p => (r.meaning? find params).map fun r => .func p r
  | .tuple _ elems => (meanings? find params elems).map .tuple
  | .missing => none

/-- The types that written types mean. -/
def TypeExpr.meanings? (find : String → Option Symbol) (params : List String) :
    List TypeExpr → Option (List Ty)
  | [] => some []
  | t :: ts => (t.meaning? find params).bind fun t => (meanings? find params ts).map (t :: ·)

end

theorem computes_resolveName {c : Checker} (loc : Location) (n : String) (args : List Ty) :
    Computes (Checking.resolveName loc n args) c (typeNamed? (c.find? [] n) args) := by
  intro t c'
  have hfound :=
    (computes_find? (c := c) [] n).bind (g := fun s => typeNamed? s args)
      (f := fun s => match s with
    | some (.type t) =>
      if args.length ≠ t.params.length then fail loc (.typeArity t.name t.params.length args.length)
      else match t.target? with
        | none => return .named t.name args
        | some target => return target.replace (Ty.parameterMap t.params args)
    | _ => fail loc (.undefinedType n)) fun s => by
      unfold typeNamed?
      split
      · split
        · exact computes_fail _ _
        · split <;> exact computes_pure _
      · exact computes_fail _ _
  exact hfound t c'

mutual

/-- Resolving a written type gives what it means, and changes nothing. -/
theorem computes_resolve {c : Checker} (ps : List String) :
    ∀ e : TypeExpr, Computes (resolve ps e) c (e.meaning? (c.find? []) ps)
  | .name loc n args => by
    rw [resolve, TypeExpr.meaning?]
    split
    · exact computes_pure _
    · exact (computes_resolveList ps args).bind fun ts => computes_resolveName loc n ts
  | .func _ p r => by
    rw [resolve, TypeExpr.meaning?]
    exact (computes_resolve ps p).bind fun p => (computes_resolve ps r).map (Ty.func p)
  | .tuple _ elems => by
    rw [resolve, TypeExpr.meaning?]
    exact (computes_resolveList ps elems).map Ty.tuple
  | .missing => by
    rw [resolve, TypeExpr.meaning?]
    exact computes_fail _ _

theorem computes_resolveList {c : Checker} (ps : List String) :
    ∀ es : List TypeExpr, Computes (resolveList ps es) c (TypeExpr.meanings? (c.find? []) ps es)
  | [] => by
    rw [resolveList, TypeExpr.meanings?]
    exact computes_pure _
  | e :: es => by
    rw [resolveList, TypeExpr.meanings?]
    exact (computes_resolve ps e).bind fun t => (computes_resolveList ps es).map (t :: ·)

end

/-! ### Only the types behind names matter -/

mutual

/-- The names in a written type. -/
def TypeExpr.names : TypeExpr → List String
  | .name _ n args => n :: typesNames args
  | .func _ p r => p.names ++ r.names
  | .tuple _ elems => typesNames elems
  | .missing => []

/-- The names in written types. -/
def typesNames : List TypeExpr → List String
  | [] => []
  | t :: ts => t.names ++ typesNames ts

end

/-- What names mean under one table, they mean under another. -/
def NamesKept (find find' : String → Option Symbol) (names : List String) : Prop :=
  ∀ n ∈ names, ∀ s, find n = some (.type s) → find' n = some (.type s)

section NamesKept

variable {find find' : String → Option Symbol} {ps : List String}

theorem NamesKept.mono {ms ns : List String} (h : NamesKept find find' ns) (hsub : ms ⊆ ns) :
    NamesKept find find' ms :=
  fun n hn => h n (hsub hn)

theorem typeNamed?_kept {n : String} {args : List Ty} {t : Ty}
    (h : ∀ s, find n = some (.type s) → find' n = some (.type s))
    (ht : typeNamed? (find n) args = some t) : typeNamed? (find' n) args = some t := by
  unfold typeNamed? at ht
  split at ht
  · next s hs => rwa [h s hs, typeNamed?]
  · cases ht

mutual

/-- A written type keeps its meaning under a table that has the same types behind its names. -/
theorem TypeExpr.meaning?_mono :
    ∀ (e : TypeExpr) {t : Ty}, NamesKept find find' e.names → e.meaning? find ps = some t →
      e.meaning? find' ps = some t
  | .name _ n args, t, h, ht => by
    rw [TypeExpr.names] at h
    rw [TypeExpr.meaning?] at ht ⊢
    split
    · next hparam => rwa [if_pos hparam] at ht
    · next hparam =>
      rw [if_neg hparam] at ht
      obtain ⟨ts, hts, ht⟩ := Option.bind_eq_some_iff.1 ht
      rw [TypeExpr.meanings?_mono args (h.mono (List.subset_cons_self _ _)) hts]
      exact typeNamed?_kept (h n List.mem_cons_self) ht
  | .func _ p r, t, h, ht => by
    rw [TypeExpr.names] at h
    rw [TypeExpr.meaning?] at ht ⊢
    obtain ⟨tp, hp, ht⟩ := Option.bind_eq_some_iff.1 ht
    obtain ⟨tr, hr, rfl⟩ := Option.map_eq_some_iff.1 ht
    rw [p.meaning?_mono (h.mono (List.subset_append_left _ _)) hp,
      r.meaning?_mono (h.mono (List.subset_append_right _ _)) hr]
    rfl
  | .tuple _ elems, t, h, ht => by
    rw [TypeExpr.names] at h
    rw [TypeExpr.meaning?] at ht ⊢
    obtain ⟨ts, hts, rfl⟩ := Option.map_eq_some_iff.1 ht
    rw [TypeExpr.meanings?_mono elems h hts]
    rfl
  | .missing, t, _, ht => by
    rw [TypeExpr.meaning?] at ht
    cases ht

theorem TypeExpr.meanings?_mono :
    ∀ (es : List TypeExpr) {ts : List Ty}, NamesKept find find' (typesNames es) →
      TypeExpr.meanings? find ps es = some ts → TypeExpr.meanings? find' ps es = some ts
  | [], ts, _, hts => by rwa [TypeExpr.meanings?] at hts ⊢
  | e :: es, ts, h, hts => by
    rw [typesNames] at h
    rw [TypeExpr.meanings?] at hts ⊢
    obtain ⟨t, ht, hts⟩ := Option.bind_eq_some_iff.1 hts
    obtain ⟨us, hus, rfl⟩ := Option.map_eq_some_iff.1 hts
    rw [e.meaning?_mono (h.mono (List.subset_append_left _ _)) ht,
      TypeExpr.meanings?_mono es (h.mono (List.subset_append_right _ _)) hus]
    rfl

end

end NamesKept

/-! ### Parameters, results and fields -/

/-- The types of a function's parameters. One without an annotation is dynamic. -/
def paramMeanings? (find : String → Option Symbol) (ps : List Param) : Option (List Ty) :=
  ps.mapM fun p => match p.type with
    | none => some .any
    | some e => e.meaning? find []

/-- The written result type of a function. -/
def FuncDef.resultMeaning? (find : String → Option Symbol) (d : FuncDef) : Option (Option Ty) :=
  match d.ret with
  | none => some none
  | some e => (e.meaning? find []).map some

/-- What the annotations of a function mean: the types of its parameters and its
written result type. -/
def FuncDef.meaning? (find : String → Option Symbol) (d : FuncDef) : Option (List Ty × Option Ty) :=
  (paramMeanings? find d.params).bind fun ts => (d.resultMeaning? find).map (ts, ·)

theorem FuncDef.meaning?_eq_some {find : String → Option Symbol} {d : FuncDef}
    {m : List Ty × Option Ty} :
    d.meaning? find = some m ↔ paramMeanings? find d.params = some m.1 ∧
      d.resultMeaning? find = some m.2 := by
  unfold FuncDef.meaning?
  rw [Option.bind_eq_some_iff]
  constructor
  · rintro ⟨ts, hts, h⟩
    obtain ⟨r, hr, rfl⟩ := Option.map_eq_some_iff.1 h
    exact ⟨hts, hr⟩
  · exact fun ⟨hts, hr⟩ => ⟨m.1, hts, Option.map_eq_some_iff.2 ⟨m.2, hr, rfl⟩⟩

/-- The types of fields, by name. -/
def fieldMeanings? (find : String → Option Symbol) (params : List String) (fields : List Field) :
    Option (List (String × Ty)) :=
  fields.mapM fun f => (f.type.meaning? find params).map (f.name, ·)

section Parts

variable {c : Checker}

theorem computes_paramTypes (ps : List Param) :
    Computes (paramTypes ps) c (paramMeanings? (c.find? []) ps) :=
  Computes.mapM fun p _ => by
    cases p.type with
    | none => exact computes_pure _
    | some e => exact (computes_resolve _ _).inContext _

theorem computes_resultType? (d : FuncDef) :
    Computes (resultType? d) c (d.resultMeaning? (c.find? [])) := by
  unfold resultType? FuncDef.resultMeaning?
  cases d.ret with
  | none => exact computes_pure _
  | some e => exact ((computes_resolve _ _).inContext _).map some

theorem computes_fieldTypes (ps : List String) (fields : List Field) :
    Computes (fieldTypes ps fields) c (fieldMeanings? (c.find? []) ps fields) :=
  Computes.mapM fun f _ => ((computes_resolve _ _).inContext _).map (f.name, ·)

end Parts

end FunRiscv

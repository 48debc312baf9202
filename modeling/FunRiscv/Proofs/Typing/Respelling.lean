import Mathlib
import FunRiscv.Proofs.Typing.Declarations

/-!
# Type parameters under other names

A type parameter is a variable like any other, told from a fresh one by its spelling only. It means
nothing outside the symbol that declares it: whoever uses the symbol puts other types in its place,
and gets the same whatever the parameter is called.

* `Symbol.respell`: a symbol with other names for its type parameters.
* `Constructor.Tidy.instantiate_respell`, `Ty.Over.replace_respell`: what the uses of a symbol get
  does not depend on these names.
* `Frame.Respelled`, `Checker.Respelled`: the same names stand for the same symbols, but for the
  names of parameters.
-/

namespace FunRiscv

open Checking

/-! ### Types -/

namespace Ty

/-- Other names for the variables of a type. -/
def respell (ρ : String → String) (t : Ty) : Ty := t.bind fun v => .var (ρ v)

theorem respell_id (t : Ty) : t.respell id = t := bind_var t

/-- What stands for a parameter under its new name is what stood for it under the old one. -/
theorem lookup_parameterMap_map {ρ : String → String} (hρ : Function.Injective ρ) (ps : List String)
    (ts : List Ty) (v : String) :
    (parameterMap (ps.map ρ) ts).lookup (ρ v) = (parameterMap ps ts).lookup v := by
  have hmap : parameterMap (ps.map ρ) ts = (parameterMap ps ts).map fun e => (ρ e.1, e.2) := by
    rw [parameterMap, parameterMap, List.zip_map_left, List.map_reverse]
    rfl
  rw [hmap]
  induction parameterMap ps ts with
  | nil => rfl
  | cons e es ih =>
    have hname : (ρ v == ρ e.1) = (v == e.1) := by
      rw [Bool.eq_iff_iff, beq_iff_eq, beq_iff_eq, hρ.eq_iff]
    rw [List.map_cons, List.lookup_cons, List.lookup_cons, ih, hname]

/-- With types in the place of all parameters nothing is left of their names. -/
theorem Over.replace_respell {ps : List String} {ts : List Ty} {t : Ty} (h : t.Over (· ∈ ps))
    (hlen : ts.length = ps.length) {ρ : String → String} (hρ : Function.Injective ρ) :
    (t.respell ρ).replace (parameterMap (ps.map ρ) ts) = t.replace (parameterMap ps ts) := by
  rw [Ty.replace, Ty.replace, respell, bind_bind]
  refine bind_congr fun v hv => ?_
  obtain ⟨u, -, hu⟩ := lookup_parameterMap hlen (h v hv)
  show ((parameterMap (ps.map ρ) ts).lookup (ρ v)).getD (var (ρ v)) =
    ((parameterMap ps ts).lookup v).getD (var v)
  rw [lookup_parameterMap_map hρ, hu]
  rfl

end Ty

/-! ### Symbols -/

/-- A constructor with other names for its type parameters. -/
def Constructor.respell (ρ : String → String) (k : Constructor) : Constructor :=
  { k with params := k.params.map ρ, signature := k.signature.respell ρ }

/-- A type symbol with other names for its type parameters. -/
def TypeSymbol.respell (ρ : String → String) (s : TypeSymbol) : TypeSymbol :=
  { s with
    params := s.params.map ρ
    fields := s.fields.map fun f => (f.1, f.2.respell ρ)
    target? := s.target?.map (Ty.respell ρ)
    constructor? := s.constructor?.map (Constructor.respell ρ) }

/-- A symbol with other names for its type parameters. -/
def Symbol.respell (ρ : String → String) : Symbol → Symbol
  | .type s => .type (s.respell ρ)
  | .constructor k => .constructor (k.respell ρ)
  | s => s

/-- A symbol is another one with other names for its type parameters, different ones
for different ones. -/
def Symbol.Respelled (s s' : Symbol) : Prop :=
  ∃ ρ : String → String, Function.Injective ρ ∧ s' = s.respell ρ

section Symbol

variable {ρ : String → String} {k : Constructor}

theorem Constructor.respell_id (k : Constructor) : k.respell id = k := by
  rw [Constructor.respell, List.map_id, Ty.respell_id]

theorem Symbol.respell_id (s : Symbol) : s.respell id = s := by
  have htypes : Ty.respell id = id := funext Ty.respell_id
  have hconstructors : Constructor.respell id = id := funext Constructor.respell_id
  cases s with
  | type s => simp [Symbol.respell, TypeSymbol.respell, htypes, hconstructors]
  | constructor k => rw [Symbol.respell, Constructor.respell_id]
  | «variable» | function | module => rfl

theorem Symbol.Respelled.refl (s : Symbol) : s.Respelled s :=
  ⟨id, Function.injective_id, s.respell_id.symm⟩

theorem Symbol.constructor?_respell (s : Symbol) :
    (s.respell ρ).constructor? = s.constructor?.map (Constructor.respell ρ) := by
  cases s <;> rfl

theorem lookup_map_snd {α β γ : Type} [BEq α] (g : β → γ) (m : List (α × β)) (v : α) :
    (m.map fun e => (e.1, g e.2)).lookup v = (m.lookup v).map g := by
  induction m with
  | nil => rfl
  | cons e m ih =>
    rw [List.map_cons, List.lookup_cons, List.lookup_cons, ih]
    cases v == e.1 <;> rfl

/-- As many variables are made whatever the parameters are called. -/
theorem freshFor_map (ρ : String → String) (ps : List String) (u : Unifier) :
    freshFor (ps.map ρ) u = freshFor ps u := by
  induction ps generalizing u with
  | nil => rfl
  | cons p ps ih =>
    show (Ty.var u.fresh.1 :: (freshFor (ps.map ρ) u.fresh.2).1,
      (freshFor (ps.map ρ) u.fresh.2).2) = _
    rw [ih]
    rfl

theorem length_freshFor (ps : List String) (u : Unifier) :
    (freshFor ps u).1.length = ps.length := by
  induction ps generalizing u with
  | nil => rfl
  | cons p ps ih =>
    show (freshFor ps u.fresh.2).1.length + 1 = ps.length + 1
    rw [ih]

/-- A use of a constructor gets the same type whatever the parameters are called. -/
theorem Constructor.Tidy.instantiate_respell (hk : k.Tidy) (hρ : Function.Injective ρ) :
    (k.respell ρ).instantiate = k.instantiate := by
  funext u
  have htype := Ty.Over.replace_respell hk (length_freshFor k.params u) hρ
  simp only [Constructor.instantiate, Constructor.respell, freshFor_map, htype]

end Symbol

/-- What sees no difference between respelled symbols sees none where a name is looked
up in two tables. -/
theorem Symbol.apply_eq_of_rel {β : Type} {s? s'? : Option Symbol}
    (h : Option.Rel Symbol.Respelled s? s'?) {f : Option Symbol → β}
    (hf : ∀ s s', s? = some s → s.Respelled s' → f (some s') = f (some s)) : f s'? = f s? := by
  cases h with
  | none => rfl
  | some h => exact hf _ _ rfl h

/-! ### Tables -/

/-- The same names in the same order, for symbols that differ in the names of type
parameters only. -/
def Frame.Respelled (G G' : Frame) : Prop :=
  List.Forall₂ (fun e e' => e'.1 = e.1 ∧ e.2.Respelled e'.2) G G'

/-- Two checkers that differ in the names of declared type parameters only. -/
def Checker.Respelled (c d : Checker) : Prop :=
  ∃ G, c.globals.Respelled G ∧ d = { c with globals := G }

section Frame

variable {G G' : Frame} {c d : Checker}

theorem Frame.Respelled.refl (G : Frame) : G.Respelled G :=
  List.forall₂_same.2 fun e _ => ⟨rfl, .refl e.2⟩

theorem Frame.Respelled.insert (h : G.Respelled G') (n : String) (s : Symbol) :
    (G.insert n s).Respelled (G'.insert n s) :=
  .cons ⟨rfl, .refl s⟩ h

theorem Frame.Respelled.find? (h : G.Respelled G') (n : String) :
    Option.Rel Symbol.Respelled (G.find? n) (G'.find? n) := by
  unfold Frame.find?
  induction h with
  | nil => exact .none
  | cons he _ ih =>
    rw [List.lookup_cons, List.lookup_cons, he.1]
    split
    · exact .some he.2
    · exact ih

theorem Checker.Respelled.refl (c : Checker) : c.Respelled c := ⟨c.globals, .refl _, rfl⟩

/-- Local names hide the same symbols, and a name that is not local stands for the same but for the
names of parameters. -/
theorem Frame.Respelled.findIn? (h : G.Respelled G') (locals : List Frame) (n : String) :
    Option.Rel Symbol.Respelled (findIn? (locals ++ [G]) n) (findIn? (locals ++ [G']) n) := by
  unfold FunRiscv.findIn?
  induction locals with
  | nil =>
    have hrel := h.find? n
    simp only [List.nil_append, List.findSome?_cons, List.findSome?_nil]
    generalize G.find? n = s?, G'.find? n = s'? at hrel
    cases hrel with
    | none => exact .none
    | some hs => exact .some hs
  | cons f fs ih =>
    simp only [List.cons_append, List.findSome?_cons]
    cases f.find? n with
    | none => exact ih
    | some s => exact .some (.refl s)

theorem Checker.Respelled.find? (h : c.Respelled d) (locals : List Frame) (n : String) :
    Option.Rel Symbol.Respelled (c.find? locals n) (d.find? locals n) := by
  obtain ⟨G, hG, rfl⟩ := h
  have hin := hG.findIn? locals n
  unfold Checker.find? symbolIn?
  dsimp only
  generalize findIn? (locals ++ [c.globals]) n = s?, findIn? (locals ++ [G]) n = s'? at hin
  cases hin with
  | some hs => exact .some hs
  | none =>
    dsimp only
    split
    · exact .none
    · exact hG.findIn? locals _

end Frame

end FunRiscv

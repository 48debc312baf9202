import Mathlib
import FunRiscv.Proofs.Typing.Independence
import FunRiscv.Proofs.Typing.Signatures

/-!
# Tables of names

* `Program.tidy_of_table?`: what a program declares mentions no variables but its own parameters.
* `leavesOf_eq_flatMap`, `signaturesOf_perm`: the order of definitions is that of their
  leaves and signatures.
* `declareAll?_congr`: signatures depend on what names stand for only.
* `types?_congr`: functions take no part in the first two rounds.
* `Checker.hosts_new`: a checker at the start knows its table.
-/

namespace FunRiscv

open Checking

/-! ### Tidy tables -/

section Tidy

variable {G G' : Frame} {path : String}

theorem Frame.Tidy.declareAll? (hG : G.Tidy) {es : List (String × Symbol)}
    (hes : ∀ e ∈ es, e.2.Tidy) (h : G.declareAll? es = some G') : G'.Tidy := by
  induction es generalizing G with
  | nil => exact Option.some.inj h ▸ hG
  | cons e es ih =>
    rw [List.forall_mem_cons] at hes
    obtain ⟨G₁, hG₁, h⟩ := Option.bind_eq_some_iff.1 h
    obtain ⟨-, rfl⟩ := Frame.declare?_eq_some.1 hG₁
    exact ih (hG.insert hes.1) hes.2 h

mutual

theorem introducedOf_tidy :
    ∀ (path : String) (ds : List Definition), ∀ e ∈ introducedOf path ds, e.2.Tidy
  | path, [] => by simp [introducedOf]
  | path, d :: ds => by
    rw [introducedOf, List.forall_mem_append]
    exact ⟨introduced_tidy path d, introducedOf_tidy path ds⟩

theorem introduced_tidy : ∀ (path : String) (d : Definition), ∀ e ∈ d.introduced path, e.2.Tidy
  | path, .func d => by simp [Definition.introduced]
  | path, .type d | path, .object d | path, .alias d => by simp [Definition.introduced, Symbol.Tidy]
  | path, .module loc n defs => by
    rw [Definition.introduced, List.forall_mem_cons]
    exact ⟨trivial, introducedOf_tidy _ defs⟩

end

theorem over_of_meaning? (hG : G.Tidy) {ps : List String} {e : TypeExpr} {t : Ty}
    (h : e.meaning? (G.under path) ps = some t) : t.Over (· ∈ ps) :=
  (resolve_spec (c := { (default : Checker) with globals := G, scopePath := path }) hG
    ((computes_resolve _ _ _ _).2 ⟨rfl, h⟩)).2

theorem over_of_fieldMeanings? (hG : G.Tidy) {ps : List String} {fields : List Field}
    {ts : List (String × Ty)} (h : fieldMeanings? (G.under path) ps fields = some ts) :
    ∀ e ∈ ts, e.2.Over (· ∈ ps) :=
  (fieldTypes_spec (c := { (default : Checker) with globals := G, scopePath := path }) hG
    ((computes_fieldTypes _ _ _ _).2 ⟨rfl, h⟩)).2

theorem Frame.Tidy.variants {name : String} {ps : List String} {vs : List Variant} (hG : G.Tidy)
    (h : vs.foldlM (declareVariant? path name ps) G = some G') : G'.Tidy := by
  induction vs generalizing G with
  | nil => exact Option.some.inj h ▸ hG
  | cons v vs ih =>
    obtain ⟨G₁, hG₁, h⟩ := Option.bind_eq_some_iff.1 h
    obtain ⟨fields, hfields, hG₁⟩ := Option.bind_eq_some_iff.1 hG₁
    obtain ⟨-, rfl⟩ := Frame.declare?_eq_some.1 hG₁
    exact ih (hG.insert (s := .constructor _)
      (constructorOf_tidy (over_of_fieldMeanings? hG hfields))) h

theorem Frame.Tidy.members? (hG : G.Tidy) {d : Definition} (h : d.members? path G = some G') :
    G'.Tidy := by
  cases d with
  | func | module => exact Option.some.inj h ▸ hG
  | type d =>
    obtain ⟨G₁, hG₁, rfl⟩ := Option.map_eq_some_iff.1 h
    exact (hG.variants hG₁).insert (s := .type _) ⟨by simp, by simp, by simp⟩
  | object d =>
    obtain ⟨fields, hfields, rfl⟩ := Option.map_eq_some_iff.1 h
    have hover := over_of_fieldMeanings? hG hfields
    refine hG.insert (s := .type _) ⟨by simp, hover, fun k hk => ?_⟩
    obtain rfl := Option.some.inj hk
    exact constructorOf_tidy hover
  | «alias» d =>
    obtain ⟨t, ht, rfl⟩ := Option.map_eq_some_iff.1 h
    refine hG.insert (s := .type _) ⟨fun u hu => ?_, by simp, by simp⟩
    obtain rfl := Option.some.inj hu
    exact over_of_meaning? hG ht

theorem Frame.Tidy.membersOf? (hG : G.Tidy) {ls : List (String × Definition)}
    (h : membersOf? ls G = some G') : G'.Tidy := by
  induction ls generalizing G with
  | nil => exact Option.some.inj h ▸ hG
  | cons l ls ih =>
    obtain ⟨G₁, hG₁, h⟩ := Option.bind_eq_some_iff.1 h
    exact ih (hG.members? hG₁) h

theorem signatureType_ground {m : List Ty × Option Ty} (hparams : ∀ t ∈ m.1, t.Ground)
    (hwritten : ∀ t ∈ m.2, t.Ground) : (signatureType m).Ground := by
  refine Ty.over_curry.2 ⟨hparams, ?_⟩
  cases hr : m.2 with
  | none => exact Ty.over_any
  | some t => exact hwritten t hr

theorem Frame.Tidy.signatures (hG : G.Tidy) {fs : List (String × NamedFunction)}
    (h : FunRiscv.declareAll? fs G = some G') : G'.Tidy := by
  induction fs generalizing G with
  | nil => exact Option.some.inj h ▸ hG
  | cons f fs ih =>
    obtain ⟨G₁, hG₁, h⟩ := Option.bind_eq_some_iff.1 h
    obtain ⟨m, hm, -, rfl⟩ := NamedFunction.declare?_eq_some.1 hG₁
    obtain ⟨hparams, hwritten⟩ := FuncDef.ground_of_meaning? hG hm
    exact ih (hG.insert (s := .function ..) (signatureType_ground hparams hwritten)) h

theorem Program.tidy_of_types? {p : Program} (hG : G.Tidy) (h : p.types? G = some G') :
    G'.Tidy := by
  obtain ⟨G₁, hG₁, h⟩ := Option.bind_eq_some_iff.1 h
  exact (hG.declareAll? (introducedOf_tidy "" p.defs) hG₁).membersOf? h

/-- What a program declares mentions no variables but its own parameters. -/
theorem Program.tidy_of_table? {p : Program} (hG : G.Tidy) (h : p.table? G = some G') :
    G'.Tidy := by
  obtain ⟨G₁, hG₁, h⟩ := Option.bind_eq_some_iff.1 h
  exact (p.tidy_of_types? hG hG₁).signatures h

end Tidy

/-- Names that are known beforehand mention no variables but their own parameters. -/
theorem Checker.tidy_new {o : CheckOptions} (ho : ∀ e ∈ o.symbols, e.2.Tidy) :
    (Checker.new o).globals.Tidy := by
  have hall : ∀ (es : List (String × Symbol)) (G : Frame), G.Tidy → (∀ e ∈ es, e.2.Tidy) →
    (G.insertAll es).Tidy := by
    intro es
    induction es with
    | nil => exact fun G hG _ => hG
    | cons e es ih =>
      intro G hG hes
      rw [List.forall_mem_cons] at hes
      exact ih _ (hG.insert hes.1) hes.2
  exact hall _ _ builtinFrame_tidy ho

/-- A checker at the start knows its table. -/
theorem Checker.hosts_new (o : CheckOptions) {G : Frame} (hG : G.Tidy) :
    Hosts { Checker.new o with globals := G } o.stem G :=
  ⟨Unifier.tidy_new _ _, Unifier.alike_of_stem rfl, fun _ => rfl, hG, .inr (Nat.zero_le _)⟩

/-! ### The order of definitions -/

theorem leavesOf_eq_flatMap (path : String) (ds : List Definition) :
    leavesOf path ds = ds.flatMap (Definition.leaves path) := by
  induction ds with
  | nil => rfl
  | cons d ds ih => rw [leavesOf, ih, List.flatMap_cons]

theorem introducedOf_eq_flatMap (path : String) (ds : List Definition) :
    introducedOf path ds = ds.flatMap (Definition.introduced path) := by
  induction ds with
  | nil => rfl
  | cons d ds ih => rw [introducedOf, ih, List.flatMap_cons]

theorem leavesOf_perm {ds es : List Definition} (h : ds.Perm es) (path : String) :
    (leavesOf path ds).Perm (leavesOf path es) := by
  rw [leavesOf_eq_flatMap, leavesOf_eq_flatMap]
  exact h.flatMap_right _

theorem signaturesOf_perm {ds es : List Definition} (h : ds.Perm es) (path : String) :
    (signaturesOf path ds).Perm (signaturesOf path es) := (leavesOf_perm h path).flatMap_right _

theorem functionsOf_perm {ds es : List Definition} (h : ds.Perm es) (path : String) :
    (functionsOf path ds).Perm (functionsOf path es) := by
  rw [← map_snd_signaturesOf, ← map_snd_signaturesOf]
  exact (signaturesOf_perm h path).map _

/-- Signatures are declared in the same way where names stand for the same. -/
theorem declareAll?_congr {G G' H : Frame} {fs : List (String × NamedFunction)}
    (hsame : ∀ n, G'.find? n = G.find? n) (h : declareAll? fs G = some H) :
    ∃ H', declareAll? fs G' = some H' ∧ ∀ n, H'.find? n = H.find? n := by
  induction fs generalizing G G' with
  | nil => exact ⟨G', rfl, fun n => (hsame n).trans (by rw [Option.some.inj h])⟩
  | cons f fs ih =>
    obtain ⟨G₁, hG₁, h⟩ := Option.bind_eq_some_iff.1 h
    obtain ⟨m, hm, hnew, rfl⟩ := NamedFunction.declare?_eq_some.1 hG₁
    obtain ⟨H', hH', hsame'⟩ := ih (Frame.insert_congr hsame _ _) h
    exact ⟨H', Option.bind_eq_some_iff.2 ⟨_, NamedFunction.declare?_eq_some.2
      ⟨m, Frame.under_congr hsame _ ▸ hm, (hsame _).trans hnew, rfl⟩, hH'⟩, hsame'⟩

/-- A definition is a function. -/
def Definition.isFunc : Definition → Bool
  | .func _ => true
  | _ => false

/-- The definitions of a list that are no functions. -/
def typeDefs (ds : List Definition) : List Definition := ds.filter (!·.isFunc)

theorem introducedOf_typeDefs (path : String) (ds : List Definition) :
    introducedOf path (typeDefs ds) = introducedOf path ds := by
  induction ds with
  | nil => rfl
  | cons d ds ih =>
    cases d with
    | func d => exact ih
    | type | object | «alias» | module => exact congrArg (_ ++ ·) ih

theorem membersOf?_typeDefs (path : String) (ds : List Definition) (G : Frame) :
    membersOf? (leavesOf path (typeDefs ds)) G = membersOf? (leavesOf path ds) G := by
  induction ds generalizing G with
  | nil => rfl
  | cons d ds ih =>
    cases d with
    | func d => exact ih G
    | type | object | «alias» | module =>
      refine (membersOf?_append _ _ G).trans ((membersOf?_append _ _ G).trans ?_).symm
      exact congrArg (Option.bind _) (funext fun G => (ih G).symm)

/-- Functions take no part in the first two rounds. -/
theorem types?_congr {p q : Program} (h : typeDefs q.defs = typeDefs p.defs) (G : Frame) :
    q.types? G = p.types? G := by
  rw [Program.types?, Program.types?, ← introducedOf_typeDefs, ← introducedOf_typeDefs "" p.defs, h]
  refine congrArg (Option.bind _) (funext fun G => ?_)
  rw [← membersOf?_typeDefs, ← membersOf?_typeDefs "" p.defs, h]

end FunRiscv

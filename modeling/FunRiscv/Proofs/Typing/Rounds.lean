import Mathlib
import FunRiscv.Proofs.Typing.Meanings
import FunRiscv.Proofs.Typing.Rules

/-!
# The rounds of declaration

Before any body is checked, three rounds fill the table of names: names of types and modules, then
constructors, fields and aliases, then the signatures of functions. They change the table only, so
each is a function from tables to tables.

* `Tabulates`: an action that changes the table of names only, and how.
* `leavesOf`: the definitions that are no modules, with the paths under which they stand. The second
  and the third round take them one after the other.
* `introducedOf`, `Definition.members?`, `signaturesOf`: what the rounds enter.
* `Program.table?`: the three rounds. `gives_checkProgram`: checking a program is filling the table,
  and then checking the functions.
-/

namespace FunRiscv

open Checking

/-! ### Actions on the table -/

/-- What names stand for in a table under a path. -/
def Frame.under (G : Frame) (path : String) : String → Option Symbol := symbolIn? [G] path

theorem Frame.under_eq (G : Frame) (path n : String) : G.under path n = match G.find? n with
    | some s => some s
    | none => if path.isEmpty then none else G.find? (path ++ n) := by
  have hin : ∀ m, findIn? [G] m = G.find? m := fun m => by
    rw [findIn?, List.findSome?_cons]
    cases G.find? m <;> rfl
  cases h : G.find? n with
  | none => simp [Frame.under, symbolIn?, hin, h]
  | some s => simp [Frame.under, symbolIn?, hin, h]

/-- Binds a name that must be new. -/
def Frame.declare? (G : Frame) (n : String) (s : Symbol) : Option Frame :=
  if (G.find? n).isSome then none else some (G.insert n s)

/-- Under a path, an action succeeds exactly where a new table comes out, and changes
nothing else. -/
def Tabulates (m : Checking Unit) (path : String) (r : Frame → Option Frame) : Prop :=
  ∀ ⦃c : Checker⦄ ⦃x : Unit⦄ ⦃c' : Checker⦄, c.scopePath = path →
    (Gives m c x c' ↔ ∃ G, r c.globals = some G ∧ c' = { c with globals := G })

section Tabulates

variable {α : Type} {m m' : Checking Unit} {path : String} {r r' : Frame → Option Frame}

theorem Tabulates.congr (hm : Tabulates m path r) (h : ∀ G, r G = r' G) : Tabulates m path r' :=
  funext h ▸ hm

theorem tabulates_pure : Tabulates (pure ()) path some := fun c x c' _ => by
  rw [gives_pure]
  constructor
  · rintro ⟨-, rfl⟩
    exact ⟨c'.globals, rfl, rfl⟩
  · rintro ⟨G, hG, rfl⟩
    obtain rfl := Option.some.inj hG
    exact ⟨rfl, rfl⟩

theorem Tabulates.bind {m' : Unit → Checking Unit} (hm : Tabulates m path r)
    (hm' : ∀ x, Tabulates (m' x) path r') : Tabulates (m >>= m') path fun G => (r G).bind r' := by
  intro c y c'' hc
  rw [gives_bind]
  constructor
  · rintro ⟨x, c', hx, hy⟩
    obtain ⟨G, hG, rfl⟩ := (hm hc).1 hx
    obtain ⟨G', hG', rfl⟩ := (hm' x (c := { c with globals := G }) hc).1 hy
    exact ⟨G', Option.bind_eq_some_iff.2 ⟨G, hG, hG'⟩, rfl⟩
  · rintro ⟨G', hG', rfl⟩
    obtain ⟨G, hG, hG'⟩ := Option.bind_eq_some_iff.1 hG'
    exact ⟨(), { c with globals := G }, (hm hc).2 ⟨G, hG, rfl⟩,
      (hm' () (c := { c with globals := G }) hc).2 ⟨G', hG', rfl⟩⟩

/-- What is read from the table decides how it goes on. -/
theorem Tabulates.read {get : Checking α} {v : Frame → Option α} {f : α → Checking Unit}
    {g : α → Frame → Option Frame} (hget : ∀ c :
      Checker, c.scopePath = path → Computes get c (v c.globals))
    (hf : ∀ a, Tabulates (f a) path (g a)) :
    Tabulates (get >>= f) path fun G => (v G).bind fun a => g a G := by
  intro c x c' hc
  rw [gives_bind]
  constructor
  · rintro ⟨a, c₁, ha, hx⟩
    obtain ⟨rfl, hv⟩ := (hget c hc a c₁).1 ha
    obtain ⟨G, hG, rfl⟩ := (hf a hc).1 hx
    exact ⟨G, Option.bind_eq_some_iff.2 ⟨a, hv, hG⟩, rfl⟩
  · rintro ⟨G, hG, rfl⟩
    obtain ⟨a, hv, hG⟩ := Option.bind_eq_some_iff.1 hG
    exact ⟨a, c, (hget c hc a c).2 ⟨rfl, hv⟩, (hf a hc).2 ⟨G, hG, rfl⟩⟩

theorem Tabulates.inContext (hm : Tabulates m path r) (label : String) :
    Tabulates (inContext label m) path r := fun c x c' hc => by
  rw [gives_inContext, hm hc]

theorem gives_underPath_iff {path : String} {m : Checking α} {c c' : Checker} {a : α} :
    Gives (underPath path m) c a c' ↔ ∃ c₁, Gives m { c with scopePath := path } a c₁ ∧
      c' = { c₁ with scopePath := c.scopePath } := by
  refine ⟨gives_underPath, ?_⟩
  rintro ⟨c₁, hm, rfl⟩
  rw [underPath, gives_bind]
  refine ⟨c, c, gives_get.2 ⟨rfl, rfl⟩, gives_bind.2 ⟨⟨⟩, _, gives_modify.2 rfl, ?_⟩⟩
  exact run_tryFinally hm

/-- An action under its own path. -/
theorem Tabulates.underPath (hm : Tabulates m path r) (outer : String) :
    Tabulates (underPath path m) outer r := by
  rintro c x c' rfl
  rw [gives_underPath_iff]
  constructor
  · rintro ⟨c₁, h, rfl⟩
    obtain ⟨G, hG, rfl⟩ := (hm (c := { c with scopePath := path }) rfl).1 h
    exact ⟨G, hG, rfl⟩
  · rintro ⟨G, hG, rfl⟩
    exact ⟨_, (hm (c := { c with scopePath := path }) rfl).2 ⟨G, hG, rfl⟩, rfl⟩

theorem tabulates_insertGlobal (n : String) (s : Symbol) :
    Tabulates (insertGlobal n s) path fun G => some (G.insert n s) :=
  fun c x c' _ => by simp [gives_insertGlobal]

theorem tabulates_declareName (n : String) (s : Symbol) (loc : Location) :
    Tabulates (declareName n s loc) path (·.declare? n s) :=
  fun c x c' _ => by
    rw [gives_declareName]
    unfold Frame.declare?
    cases hn : c.globals.find? n <;> simp [hn]

/-- Entries made one after the other. -/
theorem Tabulates.forM {γ : Type} {act : γ → Checking Unit} {v : γ → Frame → Option Frame}
    {xs : List γ} (h : ∀ x ∈ xs, Tabulates (act x) path (v x)) :
    Tabulates (xs.forM act) path fun G => xs.foldlM (fun G x => v x G) G := by
  induction xs with
  | nil => exact tabulates_pure
  | cons x xs ih =>
    rw [List.forall_mem_cons] at h
    exact (h.1.bind fun _ => ih h.2).congr fun G => by rw [List.foldlM_cons]; rfl

end Tabulates

/-! ### Names of types and modules -/

mutual

/-- The names of types and modules that a definition introduces, with what they stand
for at first. -/
def Definition.introduced (path : String) : Definition → List (String × Symbol)
  | .func _ => []
  | .type d => [(path ++ d.name, .type { name := path ++ d.name, params := d.typeParams })]
  | .object d => [(path ++ d.name, .type { name := path ++ d.name, params := d.typeParams })]
  | .alias d => [(path ++ d.name, .type { name := path ++ d.name, params := d.typeParams })]
  | .module _ n defs =>
    (path ++ n, .module (path ++ n) (defs.map fun d => path ++ n ++ "/" ++ d.name)) :: introducedOf
      (path ++ n ++ "/") defs

/-- The names of types and modules that definitions introduce. -/
def introducedOf (path : String) : List Definition → List (String × Symbol)
  | [] => []
  | d :: ds => d.introduced path ++ introducedOf path ds

end

/-- Binds names that must be new. -/
def Frame.declareAll? (G : Frame) (es : List (String × Symbol)) : Option Frame :=
  es.foldlM (fun G e => G.declare? e.1 e.2) G

theorem Frame.declareAll?_append (G : Frame) (es fs : List (String × Symbol)) :
    G.declareAll? (es ++ fs) = (G.declareAll? es).bind (·.declareAll? fs) := List.foldlM_append

mutual

theorem tabulates_declareTypes (q : String) : ∀ (path : String) (ds : List Definition),
    Tabulates (declareTypes path ds) q (·.declareAll? (introducedOf path ds))
  | path, [] => by
    rw [declareTypes, introducedOf]
    exact tabulates_pure
  | path, d :: ds => by
    rw [declareTypes, introducedOf]
    exact ((tabulates_declareType q path d).bind fun _ => tabulates_declareTypes q path ds).congr
      fun G =>
      (G.declareAll?_append _ _).symm

theorem tabulates_declareType (q : String) : ∀ (path : String) (d : Definition),
    Tabulates (declareType path d) q (·.declareAll? (d.introduced path))
  | path, .func d => by
    rw [declareType, Definition.introduced]
    exact tabulates_pure
  | path, .type d | path, .object d | path, .alias d => by
    rw [declareType, Definition.introduced]
    refine (tabulates_declareName _ _ _).congr fun G => ?_
    rw [Frame.declareAll?, List.foldlM_cons]
    exact (bind_pure _).symm
  | path, .module loc n defs => by
    rw [declareType, Definition.introduced]
    exact ((tabulates_declareName _ _ _).bind fun _ =>
      (tabulates_declareTypes q _ defs).inContext _).congr fun G => by
      rw [Frame.declareAll?, List.foldlM_cons]
      rfl

end

/-! ### Constructors, fields and aliases -/

mutual

/-- The definitions in a definition that are no modules, with the paths under which they stand. -/
def Definition.leaves (path : String) : Definition → List (String × Definition)
  | .func d => [(path, .func d)]
  | .type d => [(path, .type d)]
  | .object d => [(path, .object d)]
  | .alias d => [(path, .alias d)]
  | .module _ n defs => leavesOf (path ++ n ++ "/") defs

/-- The definitions that are no modules, with the paths under which they stand. -/
def leavesOf (path : String) : List Definition → List (String × Definition)
  | [] => []
  | d :: ds => d.leaves path ++ leavesOf path ds

end

/-- Enters the constructor of a variant of a type. -/
def declareVariant? (path name : String) (params : List String) (G : Frame) (v : Variant) :
    Option Frame :=
  (fieldMeanings? (G.under path) params v.fields).bind fun fields =>
    G.declare? (name ++ "/" ++ v.name)
      (.constructor (constructorOf (name ++ "/" ++ v.name) name params fields))

/-- Enters the constructors, the fields or the target of a definition. -/
def Definition.members? (path : String) : Definition → Frame → Option Frame
  | .type d, G =>
    (d.variants.foldlM (declareVariant? path (path ++ d.name) d.typeParams) G).map fun G =>
    G.insert (path ++ d.name)
      (.type { name := path ++ d.name, params := d.typeParams, variants := d.variants.map fun v =>
        path ++ d.name ++ "/" ++ v.name })
  | .object d, G => (fieldMeanings? (G.under path) d.typeParams d.fields).map fun fields =>
    G.insert (path ++ d.name)
      (.type
        { name := path ++ d.name, params := d.typeParams, fields
          constructor? := some (constructorOf (path ++ d.name) (path ++ d.name)
            d.typeParams fields) })
  | .alias d, G => (d.type.meaning? (G.under path) d.typeParams).map fun t =>
    G.insert (path ++ d.name)
      (.type { name := path ++ d.name, params := d.typeParams, target? := some t })
  | .func _, G | .module .., G => some G

/-- Enters the constructors, fields and targets of definitions, one after the other. -/
def membersOf? (ls : List (String × Definition)) (G : Frame) : Option Frame :=
  ls.foldlM (fun G l => l.2.members? l.1 G) G

theorem membersOf?_append (ls ks : List (String × Definition)) (G : Frame) :
    membersOf? (ls ++ ks) G = (membersOf? ls G).bind (membersOf? ks) := List.foldlM_append

theorem Checker.find?_nil (c : Checker) : c.find? [] = c.globals.under c.scopePath := rfl

theorem tabulates_declareVariants (path name : String) (d : TypeDef) :
    Tabulates (declareVariants name d) path fun G =>
    (d.variants.foldlM (declareVariant? path name d.typeParams) G).map fun G =>
      G.insert name (.type
        { name, params := d.typeParams, variants := d.variants.map fun v =>
          name ++ "/" ++ v.name }) := by
  unfold declareVariants
  generalize hsym :
    (Symbol.type
      { name, params := d.typeParams, variants := d.variants.map fun v => name ++ "/" ++ v.name }) =
    sym
  generalize d.variants = vs
  induction vs with
  | nil => exact tabulates_insertGlobal name sym
  | cons v vs ih =>
    have hvariant : ∀ fields, Tabulates (declareName (name ++ "/" ++ v.name)
        (.constructor (constructorOf (name ++ "/" ++ v.name) name d.typeParams fields)) v.loc)
      path fun G =>
          G.declare? (name ++ "/" ++ v.name)
            (.constructor (constructorOf (name ++ "/" ++ v.name) name d.typeParams fields)) :=
      fun fields => tabulates_declareName _ _ _
    rw [List.forIn_cons]
    simp only [bind_assoc, pure_bind]
    refine (Tabulates.read (v := fun G => fieldMeanings? (G.under path) d.typeParams v.fields)
      (fun c hc => by
        rw [← hc]
        exact (computes_fieldTypes d.typeParams v.fields).inContext _)
      fun fields => (hvariant fields).bind fun _ => ih).congr fun G => ?_
    rw [List.foldlM_cons, declareVariant?]
    simp only [Option.bind_eq_bind, Option.map_eq_bind, Option.bind_assoc]

mutual

theorem tabulates_declareMembers : ∀ (path : String) (ds : List Definition),
    Tabulates (declareMembers path ds) path (membersOf? (leavesOf path ds))
  | path, [] => by
    rw [declareMembers, leavesOf]
    exact tabulates_pure
  | path, d :: ds => by
    rw [declareMembers, leavesOf]
    exact (((tabulates_declareMember path d).inContext _).bind fun _ =>
      tabulates_declareMembers path ds).congr fun G =>
      (membersOf?_append _ _ G).symm

theorem tabulates_declareMember : ∀ (path : String) (d : Definition),
    Tabulates (declareMember path d) path (membersOf? (d.leaves path))
  | path, .func d => by
    rw [declareMember, Definition.leaves]
    exact tabulates_pure
  | path, .type d => by
    rw [declareMember, Definition.leaves]
    exact (tabulates_declareVariants path _ d).congr fun G => (bind_pure _).symm
  | path, .object d => by
    rw [declareMember, Definition.leaves, declareObject]
    refine (Tabulates.read (v := fun G => fieldMeanings? (G.under path) d.typeParams d.fields)
      (fun c hc => hc ▸ computes_fieldTypes _ _) fun fields => tabulates_insertGlobal _ _).congr
      fun G => ?_
    rw [membersOf?, List.foldlM_cons, Definition.members?, Option.map_eq_bind]
    exact (bind_pure _).symm
  | path, .alias d => by
    rw [declareMember, Definition.leaves, declareAlias]
    refine (Tabulates.read (v := fun G => d.type.meaning? (G.under path) d.typeParams)
      (fun c hc => hc ▸ computes_resolve _ _) fun t => tabulates_insertGlobal _ _).congr fun G => ?_
    rw [membersOf?, List.foldlM_cons, Definition.members?, Option.map_eq_bind]
    exact (bind_pure _).symm
  | path, .module loc n defs => by
    rw [declareMember, Definition.leaves]
    exact (tabulates_declareMembers _ defs).underPath path

end

/-! ### Signatures -/

/-- The type that annotations give a function. Without an annotation the result is dynamic. -/
def signatureType (m : List Ty × Option Ty) : Ty := Ty.curry m.1 (m.2.getD .any)

/-- Enters the signature of a function that is declared under a path. -/
def NamedFunction.declare? (f : NamedFunction) (path : String) (G : Frame) : Option Frame :=
  (f.func.meaning? (G.under path)).bind fun m =>
    G.declare? f.name (.function f.name (signatureType m) true)

/-- The functions of definitions, with the paths under which they are declared. -/
def signaturesOf (path : String) (ds : List Definition) : List (String × NamedFunction) :=
  (leavesOf path ds).flatMap fun l => (l.2.functions l.1).map (l.1, ·)

/-- Enters the signatures of functions, one after the other. -/
def declareAll? (fs : List (String × NamedFunction)) (G : Frame) : Option Frame :=
  fs.foldlM (fun G f => f.2.declare? f.1 G) G

theorem declareAll?_append (fs gs : List (String × NamedFunction)) (G : Frame) :
    declareAll? (fs ++ gs) G = (declareAll? fs G).bind (declareAll? gs) := List.foldlM_append

theorem tabulates_declareFunc (path name : String) (d : FuncDef) :
    Tabulates (declareFunc name d) path (NamedFunction.declare? ⟨name, d⟩ path) := by
  unfold declareFunc
  refine (Tabulates.read (v := fun G => paramMeanings? (G.under path) d.params)
    (fun c hc => hc ▸ computes_paramTypes _) fun ts =>
    Tabulates.read (v := fun G => d.resultMeaning? (G.under path))
      (fun c hc => hc ▸ computes_resultType? _) fun r =>
      tabulates_declareName _ _ _).congr fun G => ?_
  rw [NamedFunction.declare?, FuncDef.meaning?]
  simp only [Option.bind_assoc, Option.map_eq_bind, Option.bind_some, Function.comp_def,
    signatureType]

theorem signaturesOf_cons (path : String) (d : Definition) (ds : List Definition) :
    signaturesOf path (d :: ds) =
      ((d.leaves path).flatMap fun l => (l.2.functions l.1).map (l.1, ·)) ++
        signaturesOf path ds := by
  rw [signaturesOf, leavesOf, List.flatMap_append]
  rfl

mutual

theorem tabulates_declareFuncs : ∀ (path : String) (ds : List Definition),
    Tabulates (declareFuncs path ds) path (declareAll? (signaturesOf path ds))
  | path, [] => by
    rw [declareFuncs]
    exact tabulates_pure
  | path, d :: ds => by
    rw [declareFuncs, signaturesOf_cons]
    exact (((tabulates_declareFuncsOf path d).inContext _).bind fun _ =>
      tabulates_declareFuncs path ds).congr fun G =>
      (declareAll?_append _ _ G).symm

theorem tabulates_declareFuncsOf :
    ∀ (path : String) (d : Definition), Tabulates (declareFuncsOf path d) path
      (declareAll? ((d.leaves path).flatMap fun l => (l.2.functions l.1).map (l.1, ·)))
  | path, .func d => by
    rw [declareFuncsOf, Definition.leaves]
    exact (tabulates_declareFunc path _ d).congr fun G => (bind_pure _).symm
  | path, .object d => by
    rw [declareFuncsOf, Definition.leaves]
    refine (Tabulates.forM fun f _ => tabulates_declareFunc path _ f).congr fun G => ?_
    simp only [List.flatMap_singleton, Definition.functions, declareAll?, List.map_map,
      List.foldlM_map, Function.comp_def]
  | path, .module loc n defs => by
    rw [declareFuncsOf, Definition.leaves]
    exact (tabulates_declareFuncs _ defs).underPath path
  | path, .type d | path, .alias d => by
    rw [declareFuncsOf, Definition.leaves]
    exact tabulates_pure

end

mutual

/-- The functions of a program are those that are declared, in the same order. -/
theorem map_snd_signaturesOf :
    ∀ (path : String) (ds : List Definition),
      (signaturesOf path ds).map Prod.snd = functionsOf path ds
  | path, [] => rfl
  | path, d :: ds => by
    rw [signaturesOf_cons, List.map_append, map_snd_signatures path d, map_snd_signaturesOf path ds,
      functionsOf]

theorem map_snd_signatures : ∀ (path : String) (d : Definition),
    ((d.leaves path).flatMap fun l => (l.2.functions l.1).map (l.1, ·)).map Prod.snd =
      d.functions path
  | path, .func d | path, .object d => by
    simp [Definition.leaves, Definition.functions, Function.comp_def]
  | path, .type d | path, .alias d => rfl
  | path, .module loc n defs => by
    rw [Definition.leaves, Definition.functions]
    exact map_snd_signaturesOf _ defs

end

/-! ### Bodies -/

/-- A checker at the start of the body of a function. -/
def Checker.entering (c : Checker) (f : NamedFunction) : Checker :=
  { c with scopePath := pathOf f.name, nextNode := c.nextNode + stmtsNodeCount f.func.body.stmts }

/-- A checker after the type of a function was settled. -/
def Checker.finished (c : Checker) (f : NamedFunction) (t : Ty) : Checker :=
  { c with funcs := (f.name, c.settle t) :: c.funcs, globals := c.globals.insert f.name (.function
    f.name (c.settle t) true) }

/-- How a function is checked: its annotations are resolved once more, the body is checked under the
parameters, and where it never returns the result is `None`. -/
inductive ChecksFunc (f : NamedFunction) (c c' : Checker) : Prop where
  | intro (params : List Ty) (written : Option Ty) (result : Ty) (returned : Bool)
    (c₁ c₂ c₃ : Checker)
    (hmeaning : f.func.meaning? (c.globals.under (pathOf f.name)) = some (params, written))
    (hresult : Gives (match written with
      | some t => pure t
      | none => fresh) (c.entering f) result c₁)
    (hbody : Gives (checkStmts result (withParams [[]] f.func.params params) c.nextNode
      f.func.body.stmts) c₁ returned c₂)
    (hlast : returned = true ∧ c₃ = c₂ ∨ returned = false ∧ Unified result .none c₂ c₃)
    (hend : c' = c₃.finished f (Ty.curry params result))

theorem gives_finish {f : NamedFunction} {c c' : Checker} {x : Unit} {t : Ty} : Gives (do
    let t := (← get).settle t
    modify fun c => { c with funcs := (f.name, t) :: c.funcs }
    insertGlobal f.name (.function f.name t true)) c x c' ↔ c' = c.finished f t := by
  rw [gives_bind]
  constructor
  · rintro ⟨_, _, hget, h⟩
    obtain ⟨rfl, rfl⟩ := gives_get.1 hget
    obtain ⟨_, c₁, hmodify, h⟩ := gives_bind.1 h
    obtain rfl := gives_modify.1 hmodify
    exact gives_insertGlobal.1 h
  · rintro rfl
    exact ⟨c, c, gives_get.2 ⟨rfl, rfl⟩, gives_bind.2 ⟨⟨⟩, _, gives_modify.2 rfl,
      gives_insertGlobal.2 rfl⟩⟩

theorem gives_checkFunc {f : NamedFunction} {c c' : Checker} {x : Unit} :
    Gives (checkFunc f.name f.func) c x c' ↔ ChecksFunc f c c' := by
  -- What follows once the types of the parameters and of the result are known.
  let body (params : List Ty) (i : Nat) (result : Ty) : Checking Unit := do
    let returned ← checkStmts result (withParams [[]] f.func.params params) i f.func.body.stmts
    if !returned then unifyAt result .none f.func.loc
    let t := (← get).settle (Ty.curry params result)
    modify fun c => { c with funcs := (f.name, t) :: c.funcs }
    insertGlobal f.name (.function f.name t true)
  have hbody : ∀ {params : List Ty} {i : Nat} {result : Ty} {c₁ : Checker},
    Gives (body params i result) c₁ x c' ↔
      ∃ returned c₂ c₃,
        Gives (checkStmts result (withParams [[]] f.func.params params) i f.func.body.stmts) c₁
          returned c₂ ∧
        (returned = true ∧ c₃ = c₂ ∨ returned = false ∧ Unified result .none c₂ c₃) ∧
        c' = c₃.finished f (Ty.curry params result) := by
    intro params i result c₁
    rw [gives_bind]
    refine exists_congr fun returned => exists_congr fun c₂ => ?_
    cases returned with
    | true =>
      rw [Bool.not_true, if_neg Bool.false_ne_true, gives_finish]
      simp
    | false =>
      rw [Bool.not_false, if_pos rfl, gives_bind]
      simp only [gives_unifyAt, gives_finish, Bool.false_eq_true, false_and, false_or, true_and,
        exists_const, exists_and_left]
  have hresult : ∀ {written : Option Ty} {params : List Ty} {i : Nat} {c₁ : Checker},
    Gives (match written with
      | some t => pure t >>= body params i
      | none => fresh >>= body params i) c₁ x c' ↔ ∃ result c₂, Gives (match written with
        | some t => pure t
        | none => fresh) c₁ result c₂ ∧ Gives (body params i result) c₂ x c' := by
    intro written params i c₁
    cases written <;> exact gives_bind
  constructor
  · intro h
    unfold checkFunc at h
    obtain ⟨_, c₀, hpath, h⟩ := gives_bind.1 h
    obtain rfl := gives_modify.1 hpath
    obtain ⟨d, c₁, hget, h⟩ := gives_bind.1 h
    rw [(gives_get.1 hget).1, (gives_get.1 hget).2] at h
    obtain ⟨_, c₂, hnext, h⟩ := gives_bind.1 h
    obtain rfl := gives_modify.1 hnext
    obtain ⟨params, c₃, hps, h⟩ := gives_bind.1 h
    obtain ⟨rfl, hparams⟩ := (computes_paramTypes (c := c.entering f) f.func.params _ _).1 hps
    obtain ⟨written, c₄, hret, h⟩ := gives_bind.1 h
    obtain ⟨rfl, hwritten⟩ := (computes_resultType? (c := c.entering f) f.func _ _).1 hret
    obtain ⟨result, c₅, hstart, h⟩ := hresult.1 h
    obtain ⟨returned, c₆, c₇, hstmts, hlast, hend⟩ := hbody.1 h
    exact ⟨params, written, result, returned, c₅, c₆, c₇,
      FuncDef.meaning?_eq_some.2 ⟨hparams, hwritten⟩, hstart, hstmts, hlast, hend⟩
  · rintro ⟨params, written, result, returned, c₁, c₂, c₃, hmeaning, hstart, hstmts, hlast, hend⟩
    obtain ⟨hparams, hwritten⟩ := FuncDef.meaning?_eq_some.1 hmeaning
    have htail := hresult.2 ⟨result, c₁, hstart, hbody.2 ⟨returned, c₂, c₃, hstmts, hlast, hend⟩⟩
    refine gives_bind.2 ⟨⟨⟩, _, gives_modify.2 rfl, gives_bind.2 ⟨_, _, gives_get.2 ⟨rfl, rfl⟩,
      gives_bind.2 ⟨⟨⟩, _, gives_modify.2 rfl, ?_⟩⟩⟩
    exact gives_bind.2 ⟨params, c.entering f,
      (computes_paramTypes (c := c.entering f) f.func.params _ _).2 ⟨rfl, hparams⟩,
      gives_bind.2 ⟨written, c.entering f, (computes_resultType? (c := c.entering f) f.func _ _).2
        ⟨rfl, hwritten⟩, htail⟩⟩

/-! ### All rounds -/

/-- The table of names of a program after two rounds, from the names that are known beforehand. -/
def Program.types? (p : Program) (G : Frame) : Option Frame :=
  (G.declareAll? (introducedOf "" p.defs)).bind (membersOf? (leavesOf "" p.defs))

/-- The table of names of a program after all three rounds. -/
def Program.table? (p : Program) (G : Frame) : Option Frame :=
  (p.types? G).bind (declareAll? (signaturesOf "" p.defs))

/-- Checks functions one after the other. -/
def checkAll (fs : List NamedFunction) : Checking Unit :=
  fs.forM fun f => inContext ("func " ++ f.name) (checkFunc f.name f.func)

/-- The three rounds that fill the table. -/
def declareAll (defs : List Definition) : Checking Unit := do
  inContext "declare types" (declareTypes "" defs)
  inContext "declare" (underPath "" (declareMembers "" defs))
  inContext "declare" (underPath "" (declareFuncs "" defs))

theorem tabulates_declareAll (p : Program) (path : String) :
    Tabulates (declareAll p.defs) path p.table? :=
  (((tabulates_declareTypes _ "" p.defs).inContext _).bind fun _ =>
    (((tabulates_declareMembers "" p.defs).underPath _).inContext _).bind fun _ =>
      ((tabulates_declareFuncs "" p.defs).underPath _).inContext _).congr fun _ =>
        (Option.bind_assoc _ _ _).symm

theorem checkProgram_eq (p : Program) :
    checkProgram p = modify Checker.reset >>= fun _ =>
      declareAll p.defs >>= fun _ => checkAll p.functions := by
  simp only [checkProgram, declareAll, checkAll, bind_assoc]

/-- Checking a program is filling the table, and then checking the functions. -/
theorem gives_checkProgram {p : Program} {c c' : Checker} {x : Unit} :
    Gives (checkProgram p) c x c' ↔ ∃ G, p.table? c.reset.globals = some G ∧
      Gives (checkAll p.functions) { c.reset with globals := G } x c' := by
  rw [checkProgram_eq, gives_bind]
  constructor
  · rintro ⟨_, c₀, hreset, h⟩
    obtain rfl := gives_modify.1 hreset
    obtain ⟨y, c₁, hy, h⟩ := gives_bind.1 h
    obtain ⟨G, hG, rfl⟩ := (tabulates_declareAll p _ rfl).1 hy
    exact ⟨G, hG, h⟩
  · rintro ⟨G, hG, h⟩
    exact ⟨⟨⟩, c.reset, gives_modify.2 rfl,
      gives_bind.2 ⟨(), _, (tabulates_declareAll p _ rfl).2 ⟨G, hG, rfl⟩, h⟩⟩

theorem Checker.reset_new_eq (o : CheckOptions) : (Checker.new o).reset = Checker.new o := rfl

/-- A program is accepted exactly if its table can be filled and its functions then are. -/
theorem Program.check_eq_ok_iff {p : Program} {o : CheckOptions} {c : Checker} :
    p.check o = (.ok (), c) ↔ ∃ G, p.table? (Checker.new o).globals = some G ∧
      Gives (checkAll p.functions) { Checker.new o with globals := G } () c :=
  gives_checkProgram (c := Checker.new o)

end FunRiscv

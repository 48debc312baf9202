import Mathlib
import FunRiscv.Proofs.Typing.Steps

/-!
# What declarations leave behind

* `Frame.Declares`: the function symbols of a frame are those of some functions, each under its own
  name and with as many parameters.
* `Keeps`: an action that leaves a checker as it is, except that some more functions are declared.
* `keeps_declareTypes`, `keeps_declareMembers`, `keeps_declareFuncs`: the three rounds
  of declarations.
* `builtinFrame_tidy`: the builtin names are a good start.
-/

namespace FunRiscv

open Checking

/-! ### Functions in a frame -/

/-- A type takes the parameters of a function one after the other. -/
def NamedFunction.Shapes (f : NamedFunction) (t : Ty) : Prop :=
  ∃ ps r, t = Ty.curry ps r ∧ ps.length = f.func.params.length

/-- The function symbols of a frame are those of some functions, no two of which have one name. -/
structure Frame.Declares (fs : List NamedFunction) (g : Frame) : Prop where
  sound : ∀ {n q t b}, g.find? n = some (.function q t b) →
    q = n ∧ ∃ f ∈ fs, f.name = n ∧ f.Shapes t
  complete : ∀ f ∈ fs, ∃ t, g.find? f.name = some (.function f.name t true)
  nodup : (fs.map (·.name)).Nodup

/-- A symbol is a function. -/
def Symbol.IsFunction : Symbol → Prop
  | .function .. => True
  | _ => False

section Frame

variable {g : Frame} {fs : List NamedFunction}

theorem Frame.find?_insert_self (n : String) (s : Symbol) : (g.insert n s).find? n = some s := by
  simp [Frame.find?, Frame.insert]

theorem Frame.find?_insert_of_ne {n m : String} (h : m ≠ n) (s : Symbol) :
    (g.insert n s).find? m = g.find? m := by
  have hb : (m == n) = false := by simpa using h
  simp [Frame.find?, Frame.insert, List.lookup_cons, hb]

theorem Frame.Tidy.insert (h : g.Tidy) {n : String} {s : Symbol} (hs : s.Tidy) :
    (g.insert n s).Tidy := by
  intro e he
  rcases List.mem_cons.1 he with rfl | he
  · exact hs
  · exact h e he

/-- Before any function is declared, other symbols come and go. -/
theorem Frame.Declares.insert_other (h : g.Declares []) {n : String} {s : Symbol}
    (hs : ¬s.IsFunction) : (g.insert n s).Declares [] := by
  refine ⟨fun {m q t b} hm => ?_, by simp, by simp⟩
  by_cases hmn : m = n
  · rw [hmn, Frame.find?_insert_self, Option.some.injEq] at hm
    exact (hs (hm ▸ trivial)).elim
  · rw [Frame.find?_insert_of_ne hmn] at hm
    exact h.sound hm

/-- A function under a new name. -/
theorem Frame.Declares.insert_new (h : g.Declares fs) {f : NamedFunction} {t : Ty}
    (hnew : g.find? f.name = none) (ht : f.Shapes t) :
    (g.insert f.name (.function f.name t true)).Declares (fs ++ [f]) := by
  have hne : ∀ f' ∈ fs, f'.name ≠ f.name := by
    intro f' hf' heq
    obtain ⟨t', hfound⟩ := h.complete f' hf'
    rw [heq, hnew] at hfound
    cases hfound
  refine ⟨fun {m q u b} hm => ?_, fun f' hf' => ?_, ?_⟩
  · by_cases hmn : m = f.name
    · rw [hmn, Frame.find?_insert_self, Option.some.injEq, Symbol.function.injEq] at hm
      obtain ⟨rfl, rfl, -⟩ := hm
      exact ⟨hmn.symm, f, by simp, hmn.symm, ht⟩
    · rw [Frame.find?_insert_of_ne hmn] at hm
      obtain ⟨hq, f', hf', hname, hshape⟩ := h.sound hm
      exact ⟨hq, f', by simp [hf'], hname, hshape⟩
  · rcases List.mem_append.1 hf' with hf' | hf'
    · rw [Frame.find?_insert_of_ne (hne f' hf')]
      exact h.complete f' hf'
    · obtain rfl := List.mem_singleton.1 hf'
      exact ⟨t, Frame.find?_insert_self _ _⟩
  · rw [List.map_append, List.nodup_append]
    refine ⟨h.nodup, by simp, ?_⟩
    simp only [List.map_cons, List.map_nil, List.mem_singleton, forall_eq, List.forall_mem_map]
    exact hne

/-- A function takes a new type. -/
theorem Frame.Declares.insert_again (h : g.Declares fs) {f : NamedFunction} {t : Ty} (hf : f ∈ fs)
    (ht : f.Shapes t) : (g.insert f.name (.function f.name t true)).Declares fs := by
  refine ⟨fun {m q u b} hm => ?_, fun f' hf' => ?_, h.nodup⟩
  · by_cases hmn : m = f.name
    · rw [hmn, Frame.find?_insert_self, Option.some.injEq, Symbol.function.injEq] at hm
      obtain ⟨rfl, rfl, -⟩ := hm
      exact ⟨hmn.symm, f, hf, hmn.symm, ht⟩
    · rw [Frame.find?_insert_of_ne hmn] at hm
      exact h.sound hm
  · by_cases hmn : f'.name = f.name
    · exact ⟨t, by rw [hmn, Frame.find?_insert_self]⟩
    · rw [Frame.find?_insert_of_ne hmn]
      exact h.complete f' hf'

end Frame

/-! ### Actions that declare -/

/-- An action leaves a checker as it is, except that the declared functions change. -/
def Keeps {α : Type} (fs fs' : List NamedFunction) (m : Checking α) : Prop :=
  ∀ ⦃c c' : Checker⦄ ⦃x : α⦄, c.globals.Tidy → c.globals.Declares fs → Gives m c x c' →
    c'.globals.Tidy ∧ c'.globals.Declares fs' ∧ c' = { c with globals := c'.globals }

section Keeps

variable {α β : Type} {fs fs' fs'' : List NamedFunction}

theorem keeps_pure (a : α) : Keeps fs fs (pure a : Checking α) := by
  intro c c' x htidy hdecl h
  obtain ⟨rfl, rfl⟩ := gives_pure.1 h
  exact ⟨htidy, hdecl, rfl⟩

theorem Keeps.bind {m : Checking α} {f : α → Checking β} (hm : Keeps fs fs' m)
    (hf : ∀ a, Keeps fs' fs'' (f a)) : Keeps fs fs'' (m >>= f) := by
  intro c c' x htidy hdecl h
  obtain ⟨a, c₁, ha, h⟩ := gives_bind.1 h
  obtain ⟨htidy₁, hdecl₁, hrest₁⟩ := hm htidy hdecl ha
  obtain ⟨htidy₂, hdecl₂, hrest₂⟩ := hf a htidy₁ hdecl₁ h
  refine ⟨htidy₂, hdecl₂, ?_⟩
  rw [hrest₂, hrest₁]

theorem Keeps.inContext {m : Checking α} (hm : Keeps fs fs' m) (label : String) :
    Keeps fs fs' (inContext label m) :=
  fun _ _ _ htidy hdecl h => hm htidy hdecl (gives_inContext.1 h)

theorem Keeps.underPath {m : Checking α} (hm : Keeps fs fs' m) (path : String) :
    Keeps fs fs' (underPath path m) := by
  intro c c' x htidy hdecl h
  obtain ⟨c₁, hc₁, rfl⟩ := gives_underPath h
  obtain ⟨htidy₁, hdecl₁, hrest⟩ := hm (c := { c with scopePath := path }) htidy hdecl hc₁
  refine ⟨htidy₁, hdecl₁, ?_⟩
  rw [hrest]

/-- A symbol that is no function, under a new name. -/
theorem keeps_declareName {n : String} {s : Symbol} {loc : Location} (htidy : s.Tidy)
    (hs : ¬s.IsFunction) : Keeps [] [] (declareName n s loc) := by
  intro c c' x hc hdecl h
  obtain ⟨-, rfl⟩ := gives_declareName.1 h
  exact ⟨hc.insert htidy, hdecl.insert_other hs, rfl⟩

theorem keeps_insertGlobal {n : String} {s : Symbol} (htidy : s.Tidy) (hs : ¬s.IsFunction) :
    Keeps [] [] (insertGlobal n s) := by
  intro c c' x hc hdecl h
  obtain rfl := gives_insertGlobal.1 h
  exact ⟨hc.insert htidy, hdecl.insert_other hs, rfl⟩

end Keeps

/-! ### Types and modules -/

mutual

theorem keeps_declareTypes :
    ∀ (path : String) (ds : List Definition), Keeps [] [] (declareTypes path ds)
  | path, [] => by
    rw [declareTypes]
    exact keeps_pure _
  | path, d :: ds => by
    rw [declareTypes]
    exact (keeps_declareType path d).bind fun _ => keeps_declareTypes path ds

theorem keeps_declareType : ∀ (path : String) (d : Definition), Keeps [] [] (declareType path d)
  | path, .func d => by
    rw [declareType]
    exact keeps_pure _
  | path, .type d | path, .object d | path, .alias d => by
    rw [declareType]
    exact keeps_declareName ⟨by simp, by simp, by simp⟩ id
  | path, .module loc n defs => by
    rw [declareType]
    exact (keeps_declareName (s := .module ..) trivial id).bind fun _ =>
      (keeps_declareTypes _ defs).inContext _

end

/-! ### Members -/

theorem fieldTypes_spec {c c' : Checker} {ps : List String} {fields : List Field}
    {out : List (String × Ty)} (hc : c.globals.Tidy) (h : Gives (fieldTypes ps fields) c out c') :
    c' = c ∧ ∀ e ∈ out, e.2.Over (· ∈ ps) := by
  unfold fieldTypes at h
  induction fields generalizing c c' out with
  | nil =>
    obtain ⟨rfl, rfl⟩ := gives_pure.1 h
    exact ⟨rfl, by simp⟩
  | cons f fields ih =>
    rw [List.mapM_cons, gives_bind] at h
    obtain ⟨e, c₁, he, h⟩ := h
    rw [gives_bind] at he
    obtain ⟨t, c₂, ht, he⟩ := he
    obtain ⟨hsame, hover⟩ := resolve_spec hc (gives_inContext.1 ht)
    subst hsame
    obtain ⟨rfl, rfl⟩ := gives_pure.1 he
    rw [gives_bind] at h
    obtain ⟨rest, c₃, hrest, h⟩ := h
    obtain ⟨hsame, hovers⟩ := ih hc hrest
    subst hsame
    obtain ⟨rfl, rfl⟩ := gives_pure.1 h
    exact ⟨rfl, List.forall_mem_cons.2 ⟨hover, hovers⟩⟩

theorem constructorOf_tidy {name owner : String} {ps : List String} {fields : List (String × Ty)}
    (h : ∀ e ∈ fields, e.2.Over (· ∈ ps)) : (constructorOf name owner ps fields).Tidy := by
  refine Ty.over_curry.2 ⟨?_, Ty.over_named.2 ?_⟩
  · intro t ht
    obtain ⟨e, he, rfl⟩ := List.mem_map.1 ht
    exact h e he
  · intro t ht
    obtain ⟨v, hv, rfl⟩ := List.mem_map.1 ht
    exact Ty.over_var.2 hv

theorem keeps_declareVariants (name : String) (d : TypeDef) :
    Keeps [] [] (declareVariants name d) := by
  unfold declareVariants
  refine Keeps.bind ?_ fun _ => keeps_insertGlobal ⟨by simp, by simp, by simp⟩ id
  generalize d.variants = vs
  induction vs with
  | nil =>
    rw [List.forIn_nil]
    exact keeps_pure _
  | cons v vs ih =>
    rw [List.forIn_cons]
    intro c c' x hc hdecl h
    rw [gives_bind] at h
    obtain ⟨y, c₁, hy, h⟩ := h
    rw [gives_bind] at hy
    obtain ⟨fields, c₂, hfields, hy⟩ := hy
    obtain ⟨hsame, hover⟩ := fieldTypes_spec hc (gives_inContext.1 hfields)
    subst hsame
    rw [gives_bind] at hy
    obtain ⟨z, c₃, hz, hy⟩ := hy
    obtain ⟨rfl, rfl⟩ := gives_pure.1 hy
    obtain ⟨hc₁, hdecl₁, hrest₁⟩ :=
      keeps_declareName (s := .constructor _) (constructorOf_tidy hover) id hc hdecl hz
    obtain ⟨hc₂, hdecl₂, hrest₂⟩ := ih hc₁ hdecl₁ h
    refine ⟨hc₂, hdecl₂, ?_⟩
    rw [hrest₂, hrest₁]

theorem keeps_declareObject (name : String) (d : ObjectDef) :
    Keeps [] [] (declareObject name d) := by
  intro c c' x hc hdecl h
  rw [declareObject, gives_bind] at h
  obtain ⟨fields, c₁, hfields, h⟩ := h
  obtain ⟨hsame, hover⟩ := fieldTypes_spec hc hfields
  subst hsame
  refine keeps_insertGlobal (s := .type _) ⟨by simp, hover, fun k hk => ?_⟩ id hc hdecl h
  obtain rfl := Option.some.inj hk
  exact constructorOf_tidy hover

theorem keeps_declareAlias (name : String) (d : TypeAlias) : Keeps [] [] (declareAlias name d) := by
  intro c c' x hc hdecl h
  rw [declareAlias, gives_bind] at h
  obtain ⟨target, c₁, htarget, h⟩ := h
  obtain ⟨hsame, hover⟩ := resolve_spec hc htarget
  subst hsame
  refine keeps_insertGlobal (s := .type _) ⟨fun t ht => ?_, by simp, by simp⟩ id hc hdecl h
  obtain rfl := Option.some.inj ht
  exact hover

mutual

theorem keeps_declareMembers :
    ∀ (path : String) (ds : List Definition), Keeps [] [] (declareMembers path ds)
  | path, [] => by
    rw [declareMembers]
    exact keeps_pure _
  | path, d :: ds => by
    rw [declareMembers]
    exact ((keeps_declareMember path d).inContext _).bind fun _ => keeps_declareMembers path ds

theorem keeps_declareMember : ∀ (path : String) (d : Definition), Keeps [] [] (declareMember path d)
  | path, .func d => by
    rw [declareMember]
    exact keeps_pure _
  | path, .type d => by
    rw [declareMember]
    exact keeps_declareVariants _ d
  | path, .object d => by
    rw [declareMember]
    exact keeps_declareObject _ d
  | path, .alias d => by
    rw [declareMember]
    exact keeps_declareAlias _ d
  | path, .module loc n defs => by
    rw [declareMember]
    exact (keeps_declareMembers _ defs).underPath _

end

/-! ### Signatures -/

theorem paramTypes_spec {c c' : Checker} {ps : List Param} {ts : List Ty} (hc : c.globals.Tidy)
    (h : Gives (paramTypes ps) c ts c') : c' = c ∧ (∀ t ∈ ts, t.Ground) ∧ ts.length = ps.length ∧
      ∀ r : Report, r.globals = c.globals → r.path = c.scopePath → r.Params ps ts := by
  unfold paramTypes at h
  induction ps generalizing c c' ts with
  | nil =>
    obtain ⟨rfl, rfl⟩ := gives_pure.1 h
    exact ⟨rfl, by simp, rfl, fun r _ _ => .nil⟩
  | cons p ps ih =>
    rw [List.mapM_cons, gives_bind] at h
    obtain ⟨t, c₁, ht, h⟩ := h
    rw [gives_bind] at h
    obtain ⟨rest, c₂, hrest, h⟩ := h
    have hhead : c₁ = c ∧ t.Ground ∧ ∀ r : Report, r.globals = c.globals → r.path = c.scopePath →
      ∀ a ∈ p.type, r.Means a t := by
      split at ht
      · next hp =>
        obtain ⟨rfl, rfl⟩ := gives_pure.1 ht
        exact ⟨rfl, Ty.over_any, by simp [hp]⟩
      · next e hp =>
        have hresolve := gives_inContext.1 ht
        obtain ⟨hsame, hground⟩ := resolve_ground hc hresolve
        refine ⟨hsame, hground, fun r hg hpath a ha => ?_⟩
        obtain rfl : e = a := by simpa [hp] using ha
        exact ⟨c, c₁, hg.symm, hpath.symm, hresolve⟩
    obtain ⟨hsame, hground, hmeans⟩ := hhead
    subst hsame
    obtain ⟨hsame, hgrounds, hlen, hparams⟩ := ih hc hrest
    subst hsame
    obtain ⟨rfl, rfl⟩ := gives_pure.1 h
    exact ⟨rfl, List.forall_mem_cons.2 ⟨hground, hgrounds⟩, by simp [hlen], fun r hg hpath =>
      .cons (hmeans r hg hpath) (hparams r hg hpath)⟩

theorem resultType?_spec {c c' : Checker} {d : FuncDef} {t? : Option Ty} (hc : c.globals.Tidy)
    (h : Gives (resultType? d) c t? c') :
    c' = c ∧ (∀ t ∈ t?, t.Ground) ∧ (d.ret = none ↔ t? = none) ∧
      ∀ r : Report, r.globals = c.globals → r.path = c.scopePath →
        ∀ a ∈ d.ret, ∀ t ∈ t?, r.Means a t := by
  unfold resultType? at h
  split at h
  · next hret =>
    obtain ⟨rfl, rfl⟩ := gives_pure.1 h
    exact ⟨rfl, by simp, by simp [hret], by simp⟩
  · next e hret =>
    rw [gives_bind] at h
    obtain ⟨t, c₁, ht, h⟩ := h
    have hresolve := gives_inContext.1 ht
    obtain ⟨hsame, hground⟩ := resolve_ground hc hresolve
    subst hsame
    obtain ⟨rfl, rfl⟩ := gives_pure.1 h
    refine ⟨rfl, by simpa using hground, by simp [hret], fun r hg hpath a ha u hu => ?_⟩
    obtain rfl : e = a := by simpa [hret] using ha
    obtain rfl := Option.some.inj hu
    exact ⟨_, _, hg.symm, hpath.symm, hresolve⟩

theorem keeps_declareFunc (fs : List NamedFunction) (name : String) (d : FuncDef) :
    Keeps fs (fs ++ [⟨name, d⟩]) (declareFunc name d) := by
  intro c c' x hc hdecl h
  rw [declareFunc, gives_bind] at h
  obtain ⟨ts, c₁, hts, h⟩ := h
  obtain ⟨hsame, hgrounds, hlen, -⟩ := paramTypes_spec hc hts
  subst hsame
  rw [gives_bind] at h
  obtain ⟨t?, c₂, ht, h⟩ := h
  obtain ⟨hsame, hground, -, -⟩ := resultType?_spec hc ht
  subst hsame
  obtain ⟨hnew, rfl⟩ := gives_declareName.1 h
  have hcurry : (Ty.curry ts (t?.getD .any)).Ground := by
    refine Ty.over_curry.2 ⟨hgrounds, ?_⟩
    cases t? with
    | none => exact Ty.over_any
    | some t => exact hground t rfl
  exact ⟨hc.insert hcurry, hdecl.insert_new (f := ⟨name, d⟩) hnew ⟨ts, _, rfl, hlen⟩, rfl⟩

theorem keeps_declareMethods (owner : String) (ds : List FuncDef) (fs : List NamedFunction) :
    Keeps fs (fs ++ ds.map fun f => ⟨owner ++ "/" ++ f.name, f⟩)
      (ds.forM fun f => declareFunc (owner ++ "/" ++ f.name) f) := by
  induction ds generalizing fs with
  | nil =>
    rw [List.map_nil, List.append_nil]
    exact keeps_pure _
  | cons d ds ih =>
    have hstep :=
      (keeps_declareFunc fs (owner ++ "/" ++ d.name) d).bind fun _ =>
        ih (fs ++ [⟨owner ++ "/" ++ d.name, d⟩])
    rw [List.append_assoc] at hstep
    exact hstep

mutual

theorem keeps_declareFuncs : ∀ (path : String) (ds : List Definition) (fs : List NamedFunction),
    Keeps fs (fs ++ functionsOf path ds) (declareFuncs path ds)
  | path, [], fs => by
    rw [declareFuncs, functionsOf, List.append_nil]
    exact keeps_pure _
  | path, d :: ds, fs => by
    rw [declareFuncs, functionsOf, ← List.append_assoc]
    exact ((keeps_declareFuncsOf path d fs).inContext _).bind fun _ => keeps_declareFuncs path ds _

theorem keeps_declareFuncsOf : ∀ (path : String) (d : Definition) (fs : List NamedFunction),
    Keeps fs (fs ++ d.functions path) (declareFuncsOf path d)
  | path, .func d, fs => by
    rw [declareFuncsOf, Definition.functions]
    exact keeps_declareFunc fs _ d
  | path, .object d, fs => by
    rw [declareFuncsOf, Definition.functions]
    exact keeps_declareMethods (path ++ d.name) d.funcs fs
  | path, .module loc n defs, fs => by
    rw [declareFuncsOf, Definition.functions]
    exact (keeps_declareFuncs _ defs fs).underPath _
  | path, .type d, fs | path, .alias d, fs => by
    rw [declareFuncsOf, Definition.functions, List.append_nil]
    exact keeps_pure _

end

/-! ### The builtin names -/

theorem builtinGeneric_spec {name : String} {ps : List String}
    {variants : List (String × List (String × Ty))}
    (h : ∀ v ∈ variants, ∀ f ∈ v.2, f.2.Over (· ∈ ps)) :
    ∀ e ∈ builtinGeneric name ps variants, e.2.Tidy ∧ ¬e.2.IsFunction := by
  intro e he
  rcases List.mem_cons.1 he with rfl | he
  · exact ⟨⟨by simp, by simp, by simp⟩, id⟩
  · obtain ⟨⟨v, fields⟩, hv, rfl⟩ := List.mem_map.1 he
    refine ⟨Ty.over_curry.2 ⟨?_, Ty.over_named.2 ?_⟩, id⟩
    · intro t ht
      obtain ⟨f, hf, rfl⟩ := List.mem_map.1 ht
      exact h _ hv f hf
    · intro t ht
      obtain ⟨p, hp, rfl⟩ := List.mem_map.1 ht
      exact Ty.over_var.2 hp

theorem builtinFrame_spec : ∀ e ∈ builtinFrame, e.2.Tidy ∧ ¬e.2.IsFunction := by
  unfold builtinFrame
  intro e he
  simp only [List.append_assoc, List.mem_append] at he
  rcases he with he | he | he | he | he
  · simp only [List.mem_cons, List.not_mem_nil, or_false] at he
    rcases he with rfl | rfl | rfl | rfl | rfl | rfl | rfl | rfl | rfl <;>
      simp [Symbol.Tidy, Symbol.IsFunction, Ty.Ground, Ty.bool]
  all_goals
    refine builtinGeneric_spec ?_ e he
    simp only [List.forall_mem_cons, List.not_mem_nil, false_implies, implies_true, and_true]
    simp [Ty.listOf]

theorem builtinFrame_tidy : builtinFrame.Tidy := fun e he => (builtinFrame_spec e he).1

theorem builtinFrame_declares : builtinFrame.Declares [] := by
  refine ⟨fun {n q t b} h => ?_, by simp, by simp⟩
  exact ((builtinFrame_spec _ (Frame.mem_of_find? h)).2 trivial).elim

end FunRiscv

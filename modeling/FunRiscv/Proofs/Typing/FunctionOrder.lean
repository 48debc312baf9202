import Mathlib
import FunRiscv.Proofs.Typing.Tables

/-!
# The order of functions

Where every function has a written result type, the order of the functions of a
program does not matter.

* `NamedFunction.Stable`: the annotations of a function mean the same whichever
  functions are declared.
* `declareAll?_stable`: then functions can be declared in any order, and the table is the same.
* `Program.SteadyAnnotations`: where annotations are resolved twice, they mean the same.
  `Program.PlainModules`: they are resolved under one path.
* `check_functions_perm`: a program is accepted in every order or in none, with the same types.
-/

namespace FunRiscv

open Checking

/-! ### Stable annotations -/

/-- The annotations of a function that is declared under a path mean the same, whichever functions
with some names are added to a table. -/
def NamedFunction.Stable (H : Frame) (names : List String) (path : String) (f : NamedFunction)
    (m : List Ty × Option Ty) : Prop :=
  ∀ K, H.Gains names K → f.func.meaning? (K.under path) = some m

section Stable

variable {H G G₁ K : Frame} {names : List String} {path : String} {f : NamedFunction}
  {m m' : List Ty × Option Ty}

theorem Frame.Gains.type (h : H.Gains names G) {n : String} {s : TypeSymbol}
    (hs : G.find? n = some (.type s)) : H.find? n = some (.type s) := by
  rcases h n with heq | ⟨-, -, t, ht⟩
  · rw [← heq, hs]
  · rw [hs] at ht
    cases ht

/-- Annotations are stable where they have a meaning when the function is declared and at the end
have one too, be it under another path: then no name in them is one of a function. -/
theorem NamedFunction.stable_of_meaning {path' : String} (hG₁ : H.Gains names G₁)
    (hm : f.func.meaning? (G₁.under path) = some m)
    (hG : ∀ n ∈ names, ∃ t, G.find? n = some (.function n t true))
    (hm' : f.func.meaning? (G.under path') = some m') : f.Stable H names path m := by
  intro K hK
  refine FuncDef.meaning?_mono (fun n hn s hs => ?_) hm
  rw [Frame.under_eq] at hs ⊢
  cases hfound : G₁.find? n with
  | some s' =>
    rw [hfound] at hs
    obtain rfl := Option.some.inj hs
    rw [hK.of_some (hG₁.type hfound)]
  | none =>
    -- The name is no function at the end, where it stands for a type.
    have hnone : K.find? n = none := by
      rcases hK n with heq | ⟨-, hname, -⟩
      · rw [heq]
        cases hH : H.find? n with
        | none => rfl
        | some s' => rw [hG₁.of_some hH] at hfound; cases hfound
      · obtain ⟨s', hs'⟩ := FuncDef.types_of_meaning? hm' n hn
        obtain ⟨t, ht⟩ := hG n hname
        rw [Frame.under_eq, ht] at hs'
        cases hs'
    rw [hfound] at hs
    rw [hnone]
    dsimp only at hs ⊢
    split at hs
    · cases hs
    · next hempty =>
      rw [if_neg hempty]
      exact hK.of_some (hG₁.type hs)

/-- What a function of a table stands for comes from its annotations. -/
theorem declareAll?_mem {fs : List (String × NamedFunction)} (h : declareAll? fs H = some G)
    {path : String} {f : NamedFunction} (hf : (path, f) ∈ fs) :
    ∃ m G₁, H.Gains (fs.map (·.2.name)) G₁ ∧ f.func.meaning? (G₁.under path) = some m ∧
      G.find? f.name = some (.function f.name (signatureType m) true) := by
  obtain ⟨earlier, later, rfl⟩ := List.append_of_mem hf
  rw [declareAll?_append] at h
  obtain ⟨G₁, hG₁, h⟩ := Option.bind_eq_some_iff.1 h
  obtain ⟨G₂, hG₂, h⟩ := Option.bind_eq_some_iff.1 h
  obtain ⟨m, hm, -, rfl⟩ := NamedFunction.declare?_eq_some.1 hG₂
  refine ⟨m, G₁, (declareAll?_gains hG₁).mono (by simp), hm,
    (declareAll?_gains h).of_some (Frame.find?_insert_self _ _)⟩

/-- Declared functions have new and different names. -/
theorem declareAll?_names {fs : List (String × NamedFunction)} (h : declareAll? fs H = some G) :
    (fs.map (·.2.name)).Nodup ∧ ∀ f ∈ fs, H.find? f.2.name = none := by
  induction fs generalizing H with
  | nil => simp
  | cons f fs ih =>
    obtain ⟨G₁, hG₁, h⟩ := Option.bind_eq_some_iff.1 h
    obtain ⟨m, -, hnew, rfl⟩ := NamedFunction.declare?_eq_some.1 hG₁
    obtain ⟨hnodup, hnone⟩ := ih h
    have hne : ∀ g ∈ fs, g.2.name ≠ f.2.name := by
      intro g hg heq
      have hg' := hnone g hg
      rw [heq, Frame.find?_insert_self] at hg'
      cases hg'
    refine ⟨?_, List.forall_mem_cons.2 ⟨hnew, fun g hg => ?_⟩⟩
    · rw [List.map_cons, List.nodup_cons]
      refine ⟨fun hmem => ?_, hnodup⟩
      obtain ⟨g, hg, heq⟩ := List.mem_map.1 hmem
      exact hne g hg heq
    · rw [← Frame.find?_insert_of_ne (hne g hg)]
      exact hnone g hg

/-- Functions with stable annotations and new names can be declared, and the table has
their signatures. -/
theorem declareAll?_stable {fs : List (String × NamedFunction)} (hK : H.Gains names K)
    (hsub : fs.map (·.2.name) ⊆ names) (hstable : ∀ f ∈ fs, ∃ m, f.2.Stable H names f.1 m)
    (hnodup : (fs.map (·.2.name)).Nodup) (hnew : ∀ f ∈ fs, K.find? f.2.name = none) :
    ∃ G, declareAll? fs K = some G ∧
      (∀ f ∈ fs, ∀ m, f.2.Stable H names f.1 m →
        G.find? f.2.name = some (.function f.2.name (signatureType m) true)) ∧
      ∀ n, n ∉ fs.map (·.2.name) → G.find? n = K.find? n := by
  induction fs generalizing K with
  | nil => exact ⟨K, rfl, by simp, fun _ _ => rfl⟩
  | cons f fs ih =>
    rw [List.forall_mem_cons] at hstable hnew
    rw [List.map_cons, List.cons_subset] at hsub
    rw [List.map_cons, List.nodup_cons] at hnodup
    obtain ⟨m, hm⟩ := hstable.1
    have hK₁ : H.Gains names (K.insert f.2.name (.function f.2.name (signatureType m) true)) :=
      hK.trans ((Frame.gains_insert hnew.1).mono (by simpa using hsub.1))
    have hfirst : f.2.declare? f.1 K =
      some (K.insert f.2.name (.function f.2.name (signatureType m) true)) :=
      NamedFunction.declare?_eq_some.2 ⟨m, hm K hK, hnew.1, rfl⟩
    have hne : ∀ g ∈ fs, g.2.name ≠ f.2.name :=
      fun g hg heq => hnodup.1 (List.mem_map.2 ⟨g, hg, heq⟩)
    obtain ⟨G, hG, hsigs, hrest⟩ := ih hK₁ hsub.2 hstable.2 hnodup.2
      (fun g hg => (Frame.find?_insert_of_ne (hne g hg) _).trans (hnew.2 g hg))
    refine ⟨G, Option.bind_eq_some_iff.2 ⟨_, hfirst, hG⟩, List.forall_mem_cons.2 ⟨fun m' hm' => ?_,
      hsigs⟩, fun n hn => ?_⟩
    · obtain rfl : m = m' := Option.some.inj ((hm H (.refl _ _)).symm.trans (hm' H (.refl _ _)))
      rw [hrest _ hnodup.1, Frame.find?_insert_self]
    · rw [List.map_cons, List.mem_cons, not_or] at hn
      rw [hrest n hn.2, Frame.find?_insert_of_ne hn.1]

end Stable

/-! ### Paths -/

/-- A member of a module that is no object with methods and no function with a slash
in its own name. -/
def Definition.IsPlainMember : Definition → Prop
  | .object d => d.funcs = []
  | .func d => '/' ∉ d.name.toList
  | _ => True

/-- Modules contain no objects with methods and no functions with a slash in their own names. -/
def Program.PlainModules (p : Program) : Prop :=
  ∀ l ∈ leavesOf "" p.defs, l.1 = "" ∨ l.2.IsPlainMember

/-- A definition is a module. -/
def Definition.IsModule : Definition → Prop
  | .module .. => True
  | _ => False

mutual

/-- The path of a member ends with a slash, and no leaf is a module. -/
theorem leavesOf_path : ∀ (path : String) (ds : List Definition), ∀ l ∈ leavesOf path ds,
    (l.1 = path ∨ ∃ q, l.1 = q ++ "/") ∧ ¬l.2.IsModule
  | path, [] => by simp [leavesOf]
  | path, d :: ds => by
    rw [leavesOf, List.forall_mem_append]
    exact ⟨leaves_path path d, leavesOf_path path ds⟩

theorem leaves_path :
    ∀ (path : String) (d : Definition), ∀ l ∈ d.leaves path, (l.1 = path ∨ ∃ q, l.1 = q ++ "/") ∧
      ¬l.2.IsModule
  | path, .func d | path, .type d | path, .object d
  | path, .alias d => by simp [Definition.leaves, Definition.IsModule]
  | path, .module loc n defs => by
    rw [Definition.leaves]
    exact fun l hl =>
      (leavesOf_path _ defs l hl).imp_left fun h => .inr (h.elim (fun heq => ⟨_, heq⟩) id)

end

theorem pathOf_append (q : String) {n : String} (hn : '/' ∉ n.toList) :
    pathOf (q ++ "/" ++ n) = q ++ "/" := by
  have hdrop : (n.toList.reverse ++ '/' :: q.toList.reverse).dropWhile (· != '/') =
    '/' :: q.toList.reverse := by
    rw [List.dropWhile_append_of_pos]
    · rfl
    · intro a ha
      rw [bne_iff_ne]
      rintro rfl
      exact hn (List.mem_reverse.1 ha)
  have hlist : (q ++ "/" ++ n).toList.reverse = n.toList.reverse ++ '/' :: q.toList.reverse := by
    simp [String.toList_append]
  rw [pathOf, hlist, hdrop, List.reverse_cons, List.reverse_reverse]
  exact String.toList_inj.1 (by simp [String.toList_append])

/-- A function is declared at the top, or under the path that it is checked under. -/
theorem Program.PlainModules.path {p : Program} (h : p.PlainModules) {path : String}
    {f : NamedFunction} (hf : (path, f) ∈ signaturesOf "" p.defs) :
    path = "" ∨ path = pathOf f.name := by
  obtain ⟨⟨q, d⟩, hl, hf⟩ := List.mem_flatMap.1 hf
  obtain ⟨g, hg, heq⟩ := List.mem_map.1 hf
  obtain ⟨rfl, rfl⟩ := Prod.mk.inj heq
  obtain ⟨hpath, hleaf⟩ := leavesOf_path "" p.defs _ hl
  refine hpath.imp_right ?_
  rintro ⟨q', rfl⟩
  have hplain : d.IsPlainMember :=
    (h _ hl).resolve_left fun hempty => by simpa using congrArg String.toList hempty
  cases d with
  | func d =>
    obtain rfl := List.mem_singleton.1 hg
    exact (pathOf_append q' hplain).symm
  | object d =>
    rw [Definition.functions, show d.funcs = [] from hplain] at hg
    cases hg
  | type d | «alias» d => cases hg
  | module loc n defs => exact (hleaf trivial).elim

/-! ### The order of functions -/

section Order

variable {H G : Frame} {names : List String} {path stem : String} {f : NamedFunction}
  {m : List Ty × Option Ty}

/-- A function whose annotations are stable and that has a written result type keeps
its signature. -/
theorem NamedFunction.Stable.keepsSignature (hf : f.Stable H names (pathOf f.name) m)
    (hG : H.Gains names G) (htidy : G.Tidy)
    (hfind : G.find? f.name = some (.function f.name (signatureType m) true))
    (hret : f.func.ret.isSome = true) (haccepted : f.AcceptedAlone stem G) :
    f.KeepsSignature stem G := by
  obtain ⟨t, ht⟩ := haccepted.funcs
  have hmeans : f.func.meaning? (G.under (pathOf f.name)) = some m := hf G hG
  obtain ⟨hparams, hwritten⟩ := FuncDef.ground_of_meaning? htidy hmeans
  obtain ⟨params, written, result, returned, c₁, c₂, c₃, hm, hresult, -, -, hend⟩ := haccepted
  obtain rfl : m = (params, written) := Option.some.inj (hmeans.symm.trans hm)
  obtain ⟨r, rfl⟩ : ∃ r, written = some r := by
    obtain ⟨e, he⟩ := Option.isSome_iff_exists.1 hret
    have hwritten := (FuncDef.meaning?_eq_some.1 hm).2
    rw [FuncDef.resultMeaning?, he] at hwritten
    obtain ⟨r, -, hr⟩ := Option.map_eq_some_iff.1 hwritten
    exact ⟨r, hr.symm⟩
  obtain rfl : result = r := (gives_pure.1 hresult).1
  have hsettle : t = signatureType (params, some result) := by
    rw [hend, Checker.finished, List.cons.injEq, Prod.mk.injEq] at ht
    rw [← ht.1.2, Checker.settle_eq_bind]
    exact Ty.Ground.bind_eq (signatureType_ground hparams hwritten) _
  exact ⟨t, ht, hsettle ▸ hfind⟩

theorem exists_numbered (i : Nat) {fs : List NamedFunction} (hf : f ∈ fs) :
    ∃ j, (j, f) ∈ numberedFunctions i fs := by
  induction fs generalizing i with
  | nil => cases hf
  | cons g fs ih =>
    rcases List.mem_cons.1 hf with rfl | hf
    · exact ⟨i, List.mem_cons_self⟩
    · obtain ⟨j, hj⟩ := ih _ hf
      exact ⟨j, List.mem_cons_of_mem _ hj⟩

theorem mem_of_numbered {i j : Nat} {fs : List NamedFunction}
    (hf : (j, f) ∈ numberedFunctions i fs) : f ∈ fs := by
  induction fs generalizing i with
  | nil => cases hf
  | cons g fs ih =>
    rcases List.mem_cons.1 hf with heq | hf
    · exact (Prod.mk.inj heq).2 ▸ List.mem_cons_self
    · exact List.mem_cons_of_mem _ (ih hf)

/-- Functions of both orders have the same types. -/
structure Checker.SameTypes (p q : Program) (c d : Checker) : Prop where
  funcs : ∀ n, c.funcType? n = d.funcType? n
  nodes : ∀ i f, (i, f) ∈ numberedFunctions 0 p.functions →
    ∃ j, (j, f) ∈ numberedFunctions 0 q.functions ∧ ∀ k < stmtsNodeCount f.func.body.stmts,
      c.typeOf? (i + k) = d.typeOf? (j + k)

/-- The names of the functions of a program. -/
def Program.functionNames (p : Program) : List String := (signaturesOf "" p.defs).map (·.2.name)

theorem Program.functionNames_eq (p : Program) : p.functionNames = p.functions.map (·.name) := by
  rw [functionNames, functions, ← map_snd_signaturesOf, List.map_map]
  rfl

theorem Program.exists_signature {p : Program} (hf : f ∈ p.functions) :
    ∃ path, (path, f) ∈ signaturesOf "" p.defs := by
  rw [Program.functions, ← map_snd_signaturesOf] at hf
  obtain ⟨⟨path, g⟩, hg, rfl⟩ := List.mem_map.1 hf
  exact ⟨path, hg⟩

theorem Program.function_of_signature {p : Program} (hf : (path, f) ∈ signaturesOf "" p.defs) :
    f ∈ p.functions := by
  rw [Program.functions, ← map_snd_signaturesOf]
  exact List.mem_map_of_mem (f := Prod.snd) hf

/-- A function that is accepted alone has stable annotations, where it is declared and
where it is checked. -/
theorem stable_of_accepted {p : Program} (hsigs : declareAll? (signaturesOf "" p.defs) H = some G)
    (hf : (path, f) ∈ signaturesOf "" p.defs) (haccepted : f.AcceptedAlone stem G) :
    ∃ m m', f.Stable H p.functionNames path m ∧ f.Stable H p.functionNames (pathOf f.name) m' ∧
      G.find? f.name = some (.function f.name (signatureType m) true) := by
  obtain ⟨m, G₁, hG₁, hm, hfind⟩ := declareAll?_mem hsigs hf
  obtain ⟨m', t, c₁, hm', -, -⟩ := checksFunc_iff.1 haccepted
  have hnames : ∀ n ∈ p.functionNames, ∃ t, G.find? n = some (.function n t true) := by
    intro n hn
    obtain ⟨⟨path', g⟩, hg, rfl⟩ := List.mem_map.1 hn
    obtain ⟨m', -, -, -, hfind'⟩ := declareAll?_mem hsigs hg
    exact ⟨_, hfind'⟩
  exact ⟨m, m', NamedFunction.stable_of_meaning hG₁ hm hnames hm',
    NamedFunction.stable_of_meaning (declareAll?_gains hsigs) hm' hnames hm', hfind⟩

/-- Annotations that mean something both where a function is declared and where it is checked mean
the same in both places, once all types are declared. -/
def Program.SteadyAnnotations (p : Program) (G₀ : Frame) : Prop :=
  ∀ H, p.types? G₀ = some H →
    ∀ e ∈ signaturesOf "" p.defs, ∀ m, e.2.func.meaning? (H.under e.1) = some m →
    ∀ m', e.2.func.meaning? (H.under (pathOf e.2.name)) = some m' → m = m'

theorem Program.PlainModules.steady {p : Program} (h : p.PlainModules) (G₀ : Frame) :
    p.SteadyAnnotations G₀ := by
  intro H _ e he m hm m' hm'
  rcases h.path he with hpath | hpath
  · -- Names that are known as written are found so under any path.
    have hfound : e.2.func.meaning? (H.under (pathOf e.2.name)) = some m := by
      refine FuncDef.meaning?_mono (fun n _ s hs => ?_) hm
      rw [hpath, Frame.under_eq] at hs
      rw [Frame.under_eq]
      cases hfind : H.find? n with
      | none => rw [hfind] at hs; cases hs
      | some s' => rwa [hfind] at hs
    exact Option.some.inj (hfound.symm.trans hm')
  · exact Option.some.inj ((hpath ▸ hm).symm.trans hm')

/-- A function that is accepted alone keeps its signature, if its annotations mean the
same in both places. -/
theorem keepsSignature_of_accepted {p : Program} {G₀ : Frame} (hH : p.types? G₀ = some H)
    (hsigs : declareAll? (signaturesOf "" p.defs) H = some G) (hsteady : p.SteadyAnnotations G₀)
    (htidy : G.Tidy) (hf : (path, f) ∈ signaturesOf "" p.defs) (hret : f.func.ret.isSome = true)
    (haccepted : f.AcceptedAlone stem G) : f.KeepsSignature stem G := by
  obtain ⟨m, m', hm, hm', hfind⟩ := stable_of_accepted hsigs hf haccepted
  obtain rfl := hsteady H hH _ hf m (hm H (.refl _ _)) m' (hm' H (.refl _ _))
  exact hm'.keepsSignature (declareAll?_gains hsigs) htidy hfind hret haccepted

/-- The table of names does not depend on the order of functions with stable annotations. -/
theorem table?_perm {p q : Program} {G₀ H' : Frame} (hperm : q.defs.Perm p.defs)
    (hH' : q.types? G₀ = some H') (htypes : ∀ n, H'.find? n = H.find? n)
    (hsigs : declareAll? (signaturesOf "" p.defs) H = some G)
    (hstable : ∀ e ∈ signaturesOf "" p.defs, ∃ m, e.2.Stable H p.functionNames e.1 m ∧
      G.find? e.2.name = some (.function e.2.name (signatureType m) true)) :
    ∃ G', q.table? G₀ = some G' ∧ ∀ n, G'.find? n = G.find? n := by
  have hsigsPerm := signaturesOf_perm hperm ""
  have hnamesPerm : q.functionNames.Perm p.functionNames :=
    hsigsPerm.map fun e : String × NamedFunction => e.2.name
  obtain ⟨hnodup, hnew⟩ := declareAll?_names hsigs
  have hstable' := fun f hf => hstable f (hsigsPerm.mem_iff.1 hf)
  obtain ⟨G', hG', hsigs', hrest⟩ := declareAll?_stable (.refl _ H) hnamesPerm.subset
    (fun f hf => (hstable' f hf).imp fun _ hm => hm.1) (hnamesPerm.nodup_iff.2 hnodup) fun f hf =>
      hnew f (hsigsPerm.mem_iff.1 hf)
  obtain ⟨G'', hG'', hsame⟩ := declareAll?_congr htypes hG'
  refine ⟨G'', Option.bind_eq_some_iff.2 ⟨H', hH', hG''⟩, fun n => (hsame n).trans ?_⟩
  by_cases hn : n ∈ q.functionNames
  · obtain ⟨f, hf, rfl⟩ := List.mem_map.1 hn
    obtain ⟨m, hm, hfind⟩ := hstable' f hf
    rw [hfind, hsigs' f hf m hm]
  · rw [hrest n hn]
    rcases declareAll?_gains hsigs n with heq | ⟨-, hname, -⟩
    · exact heq.symm
    · exact (hn (hnamesPerm.mem_iff.2 hname)).elim

/-- Functions that are accepted alone get the same types in both orders. -/
theorem sameTypes_stackedAll {p q : Program} {o : CheckOptions} {G' : Frame}
    (hperm : q.functions.Perm p.functions) (hnodup : (p.functions.map (·.name)).Nodup) (hG : G.Tidy)
    (hfs : ∀ f ∈ p.functions, f.AcceptedAlone o.stem G ∧ f.KeepsSignature o.stem G)
    (hp : Checker.Hosts { Checker.new o with globals := G } o.stem G)
    (hq : Checker.Hosts { Checker.new o with globals := G' } o.stem G)
    (hplimit : ({ Checker.new o with globals := G }.stackedAll o.stem G
      p.functions).unifier.WithinLimit)
    (hqlimit : ({ Checker.new o with globals := G' }.stackedAll o.stem G
      q.functions).unifier.WithinLimit) :
    ({ Checker.new o with globals := G }.stackedAll o.stem G p.functions).SameTypes p q
      ({ Checker.new o with globals := G' }.stackedAll o.stem G q.functions) := by
  have hfs' := fun f hf => hfs f (hperm.mem_iff.1 hf)
  refine ⟨fun n => ?_, fun i f hf => ?_⟩
  · by_cases hn : n ∈ p.functions.map (·.name)
    · obtain ⟨f, hf, rfl⟩ := List.mem_map.1 hn
      rw [funcType?_stackedAll _ (fun f hf => (hfs f hf).1) hnodup hf,
        funcType?_stackedAll _ (fun f hf => (hfs' f hf).1) ((hperm.map _).nodup_iff.2 hnodup)
          (hperm.mem_iff.2 hf)]
    · rw [funcType?_stackedAll_before _ (fun f hf => (hfs f hf).1) hn,
        funcType?_stackedAll_before _ (fun f hf => (hfs' f hf).1) (mt (hperm.map _).mem_iff.1 hn)]
      rfl
  · obtain ⟨j, hj⟩ := exists_numbered 0 (hperm.mem_iff.2 (mem_of_numbered hf))
    exact ⟨j, hj,
      fun k hk => (typeOf?_stackedAll hp hG hfs hplimit hf hk).trans
        (typeOf?_stackedAll hq hG hfs' hqlimit hj hk).symm⟩

/-- What is accepted in one order is accepted in another, if names stand for the same
types in both. -/
theorem accepted_perm {p q : Program} {o : CheckOptions} (hperm : q.defs.Perm p.defs)
    (htypes : ∀ H, p.types? (Checker.new o).globals = some H →
      ∃ H', q.types? (Checker.new o).globals = some H' ∧ ∀ n, H'.find? n = H.find? n)
    (hret : ∀ f ∈ p.functions, f.func.ret.isSome = true)
    (hsteady : p.SteadyAnnotations (Checker.new o).globals) (hseeds : ∀ e ∈ o.symbols, e.2.Tidy)
    {c : Checker} (h : p.check o = (.ok (), c)) :
    ∃ d, q.check o = (.ok (), d) ∧ c.SameTypes p q d := by
  obtain ⟨G, hG, hrun⟩ := Program.check_eq_ok_iff.1 h
  obtain ⟨H, hH, hsigs⟩ := Option.bind_eq_some_iff.1 hG
  obtain ⟨H', hH', htypes⟩ := htypes H hH
  have htidy : G.Tidy := p.tidy_of_table? (Checker.tidy_new hseeds) hG
  have hkeeps : ∀ f ∈ p.functions, f.AcceptedAlone o.stem G → f.KeepsSignature o.stem G := by
    intro f hf haccepted
    obtain ⟨path, hpath⟩ := Program.exists_signature hf
    exact keepsSignature_of_accepted hH hsigs hsteady htidy hpath (hret f hf) haccepted
  have hhosts := Checker.hosts_new o htidy
  obtain ⟨hall, hwithin, rfl⟩ := (checkAll_iff_alone hhosts htidy hkeeps).1 hrun
  -- In the other order the table is the same, and all functions together take as many steps.
  obtain ⟨G', hG', hsame⟩ := table?_perm hperm hH' htypes hsigs fun e he => by
    obtain ⟨m, -, hm, -, hfind⟩ :=
      stable_of_accepted hsigs he (hall e.2 (Program.function_of_signature he))
    exact ⟨m, hm, hfind⟩
  have hhosts' : Checker.Hosts { Checker.new o with globals := G' } o.stem G :=
    { Checker.hosts_new o (q.tidy_of_table? (Checker.tidy_new hseeds) hG') with globals := hsame }
  have hfunctions : q.functions.Perm p.functions := functionsOf_perm hperm ""
  have hfs : ∀ f ∈ p.functions, f.AcceptedAlone o.stem G ∧ f.KeepsSignature o.stem G := fun f hf =>
    ⟨hall f hf, hkeeps f hf (hall f hf)⟩
  have hfs' := fun f hf => hfs f (hfunctions.mem_iff.1 hf)
  have hwithin' : ({ Checker.new o with globals := G' }.stackedAll o.stem G
    q.functions).unifier.WithinLimit := by
    rw [withinLimit_stackedAll] at hwithin ⊢
    rwa [(hfunctions.map _).sum_eq]
  have hrun' : Gives (checkAll q.functions) { Checker.new o with globals := G' } () _ :=
    (checkAll_iff_alone hhosts' htidy fun f hf _ => (hfs' f hf).2).2 ⟨fun f hf => (hfs' f hf).1,
      hwithin', rfl⟩
  have hnodup : (p.functions.map (·.name)).Nodup := p.functionNames_eq ▸ (declareAll?_names hsigs).1
  exact ⟨_, Program.check_eq_ok_iff.2 ⟨G', hG', hrun'⟩, sameTypes_stackedAll hfunctions hnodup htidy
    hfs hhosts hhosts' hwithin hwithin'⟩

/-- Two orders of which each is accepted, with the same types, where the other one is. -/
theorem same_of_accepted {p q : Program} {o : CheckOptions}
    (hpq : ∀ c, p.check o = (.ok (), c) → ∃ d, q.check o = (.ok (), d) ∧ c.SameTypes p q d)
    (hqp : ∀ d, q.check o = (.ok (), d) → ∃ c, p.check o = (.ok (), c) ∧ d.SameTypes q p c) :
    (p.check o).1.isOk = (q.check o).1.isOk ∧
      ∀ c d, p.check o = (.ok (), c) → q.check o = (.ok (), d) → c.SameTypes p q d := by
  refine ⟨?_, fun c d hc hd => ?_⟩
  · rw [Bool.eq_iff_iff]
    constructor
    · intro h
      obtain ⟨d, hd, -⟩ := hpq _ (check_eq_of_isOk h)
      rw [hd]
      rfl
    · intro h
      obtain ⟨c, hc, -⟩ := hqp _ (check_eq_of_isOk h)
      rw [hc]
      rfl
  · obtain ⟨d', hd', hsame⟩ := hpq c hc
    obtain rfl : d' = d := congrArg Prod.snd (hd'.symm.trans hd)
    exact hsame

/-- **Functions with written result types may come in any order.** Take a program in which every
function has a written result type, modules contain no objects with methods and no functions with a
slash in their own names, and what is known beforehand mentions no type variables but its own
parameters. Whatever the order of its top-level functions, the program is accepted or not, and where
it is accepted every function and every expression in it has the same type. -/
theorem check_functions_perm {p q : Program} {o : CheckOptions} (hperm : q.defs.Perm p.defs)
    (htypes : typeDefs q.defs = typeDefs p.defs)
    (hret : ∀ f ∈ p.functions, f.func.ret.isSome = true) (hplain : p.PlainModules)
    (hseeds : ∀ e ∈ o.symbols, e.2.Tidy) : (p.check o).1.isOk = (q.check o).1.isOk ∧
      ∀ c d, p.check o = (.ok (), c) → q.check o = (.ok (), d) → c.SameTypes p q d := by
  have hret' : ∀ f ∈ q.functions, f.func.ret.isSome = true :=
    fun f hf => hret f ((functionsOf_perm hperm "").mem_iff.1 hf)
  have hplain' : q.PlainModules := fun l hl => hplain l ((leavesOf_perm hperm "").mem_iff.1 hl)
  have hsame : ∀ {p q : Program}, typeDefs q.defs = typeDefs p.defs →
      ∀ {G₀ : Frame} (H : Frame), p.types? G₀ = some H →
      ∃ H', q.types? G₀ = some H' ∧ ∀ n, H'.find? n = H.find? n :=
    fun h _ H hH => ⟨H, types?_congr h _ ▸ hH, fun _ => rfl⟩
  exact same_of_accepted (fun _ => accepted_perm hperm (hsame htypes) hret (hplain.steady _) hseeds)
    fun _ => accepted_perm hperm.symm (hsame htypes.symm) hret' (hplain'.steady _) hseeds

/-- A function without parameters. -/
def constantFunc (name result : String) (body : List Stmt) : FuncDef where
  loc := {}
  name := name
  params := []
  ret := some (.name {} result [])
  body := ⟨{}, body⟩
  checked := true

/-- Two functions that call each other, and a module with a third one in between. -/
def mutualProgram (first second : FuncDef) : Program :=
  ⟨[], [.func first,
    .module {} "M" [.func (constantFunc "one" "u24" [.ret {} (some (.uint {} 1))])], .func second]⟩

/-- Calls another function, inside a tuple that is left to itself. -/
def callerOf (name other : String) : FuncDef :=
  constantFunc name "u24" [.expr {} (.tuple {} [.call {} (.var {} "M/one") [] [], .eraser {}]),
    .ret {} (some (.call {} (.var {} other) [] []))]

/-- Each of the two functions refers to the other, so one of them refers forward in both orders. -/
theorem check_functions_perm_mutual :
    ∃ c d, (mutualProgram (callerOf "a" "b") (callerOf "b" "a")).check {} = (.ok (), c) ∧
    (mutualProgram (callerOf "b" "a") (callerOf "a" "b")).check {} = (.ok (), d) ∧
    c.SameTypes (mutualProgram (callerOf "a" "b") (callerOf "b" "a"))
      (mutualProgram (callerOf "b" "a") (callerOf "a" "b")) d := by
  have hperm : (mutualProgram (callerOf "b" "a") (callerOf "a" "b")).defs.Perm
    (mutualProgram (callerOf "a" "b") (callerOf "b" "a")).defs :=
    .trans (.cons _ (.swap _ _ _)) (.trans (.swap _ _ _) (.cons _ (.swap _ _ _)))
  have hplain : (mutualProgram (callerOf "a" "b") (callerOf "b" "a")).PlainModules := by
    simp [Program.PlainModules, mutualProgram, callerOf, constantFunc, leavesOf, Definition.leaves,
      Definition.IsPlainMember]
  obtain ⟨hsame, htypes⟩ := check_functions_perm (o := {}) hperm rfl (by decide) hplain (by simp)
  have haccepted : ((mutualProgram (callerOf "a" "b") (callerOf "b" "a")).check {}).1.isOk =
    true := by decide +kernel
  exact ⟨_, _, check_eq_of_isOk haccepted, check_eq_of_isOk (hsame ▸ haccepted),
    htypes _ _ (check_eq_of_isOk haccepted) (check_eq_of_isOk (hsame ▸ haccepted))⟩

/-- Two functions that use a variable which is known beforehand: one adds it to itself, the other
gives it back as a string. -/
def sharingProgram : Program := ⟨[], [
  .func (constantFunc "h" "u24" [.assign {} "x" none (.binOp {} .add (.var {} "g") (.var {} "g")),
    .ret {} (some (.uint {} 1))]),
  .func (constantFunc "f" "String" [.ret {} (some (.var {} "g"))])]⟩

/-- The variable has an unknown type. Checked first, the addition is one of unknown values, which
become strings afterwards; checked second, it is one of strings. -/
theorem order_decides_unknown_type :
    ∃ p q : Program, ∃ o : CheckOptions, q.defs.Perm p.defs ∧ typeDefs q.defs = typeDefs p.defs ∧
      (∀ f ∈ p.functions, (∀ x ∈ f.func.params, x.type.isSome = true) ∧ f.func.ret.isSome = true) ∧
      p.PlainModules ∧ (p.check o).1.isOk = true ∧ (q.check o).1.isOk = false := by
  refine ⟨sharingProgram, { sharingProgram with defs := sharingProgram.defs.reverse },
    { symbols := [("g", .variable "g" (.var "a"))] }, List.reverse_perm _, rfl, by decide,
    ?_, by decide +kernel, by decide +kernel⟩
  simp [Program.PlainModules, sharingProgram, leavesOf, Definition.leaves]

end Order

end FunRiscv

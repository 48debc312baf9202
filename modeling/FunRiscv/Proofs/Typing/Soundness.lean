import Mathlib
import FunRiscv.Proofs.Typing.Declarations
import FunRiscv.Proofs.Typing.Rounds
import FunRiscv.Proofs.Typing.Statements

/-!
# Checked programs follow the rules

* `Checked`: what checking one function leaves, and `checkFunc_spec`: it does.
* `CheckedAll`: what checking functions one after the other leaves, and `checkFuncs_spec`: it does.
* `check_spec`: a program that is accepted, seen from the checker at the end.
* `check_typed`: the types found for every expression of an accepted program follow the rules.
* `selfPassing_call_not_walks`: passing arguments along the type of a callee may end in the dynamic
  type although the call has another type.
-/

namespace FunRiscv

open Checking

/-- Functions with the numbers of their first expressions, when the first function
starts at number `i`. -/
def numberedFunctions (i : Nat) : List NamedFunction → List (Nat × NamedFunction)
  | [] => []
  | f :: fs => (i, f) :: numberedFunctions (i + stmtsNodeCount f.func.body.stmts) fs

/-- Two frames with the same names, which stand for the same except that the types of
functions may differ. -/
def Frame.Alike (g g' : Frame) : Prop :=
  ∀ n, g.find? n = g'.find? n ∨ ∃ q t t', g.find? n = some (.function q t true) ∧
    g'.find? n = some (.function q t' true)

/-! ### Settled types -/

/-- What settling makes of a variable. -/
def Checker.settled (c : Checker) (v : String) : Ty := c.settle (.var v)

theorem Checker.settle_eq_bind (c : Checker) (t : Ty) : c.settle t = t.bind c.settled := by
  unfold settled settle
  rw [Unifier.apply_eq_bind, Ty.bind_bind]

theorem Checker.respects_settled {c : Checker} (h : c.unifier.Tidy) :
    Subst.Respects c.settled c.unifier.subst := by
  intro v t hv
  have hvar : c.unifier.apply (.var v) = c.unifier.apply t := by
    refine (h.coherent.triangular.respects_apply v t hv).trans ?_
    exact (Unifier.apply_eq_bind c.unifier t).symm
  rw [← Checker.settle_eq_bind, settled, settle, settle, hvar]

theorem Checker.ground_settle (c : Checker) (t : Ty) : (c.settle t).Ground :=
  Ty.Over.bind (K := fun _ => True) (fun _ _ => trivial) fun _ _ => Ty.over_any

/-- A type that is settled early is a blur of what the type becomes later. -/
theorem Checker.blurs_settle {c : Checker} (h : c.unifier.Tidy) {θ : String → Ty}
    (hθ : Subst.Respects θ c.unifier.subst) (t : Ty) : (t.bind θ).Blurs (c.settle t) := by
  rw [← hθ.bind_apply h.coherent.triangular t]
  exact Ty.Blurs.bind (f := θ) (g := fun _ => .any) (fun _ => trivial) (Ty.blurs_refl _)

/-! ### One function -/

/-- What checking a function leaves: its expressions have types that follow the rules, and the
function has a settled type. -/
structure Checked (f : NamedFunction) (t : Ty) (c c' : Checker) : Prop where
  tidy : c'.unifier.Tidy
  reaches : c.unifier.Reaches c'.unifier
  globals : c'.globals = c.globals.insert f.name (.function f.name t true)
  funcs : c'.funcs = (f.name, t) :: c.funcs
  nextNode : c'.nextNode = c.nextNode + stmtsNodeCount f.func.body.stmts
  types : ∃ new, c'.types = new ++ c.types ∧ ∀ e ∈ new, e.1 ∈ Set.Ico c.nextNode c'.nextNode
  ground : t.Ground
  shapes : f.Shapes t
  typed : ∀ θ τ, Subst.Respects θ c'.unifier.subst →
    (∀ k ∈ Set.Ico c.nextNode c'.nextNode, τ k = (c'.types.lookup k).map (Ty.bind θ)) →
      f.Typed ⟨τ, c.globals, pathOf f.name⟩ c.nextNode t

/-- The end of a function: its statements are checked, and its type is settled. -/
theorem finish_spec {f : NamedFunction} {c c' : Checker} {x : Unit} {i : Nat} {params : List Ty}
    {result : Ty} {locals : List Frame} (hc : c.Ready locals) (hresult : result.Over c.unifier.Past)
    (h : Gives (do
      let returned ← checkStmts result locals i f.func.body.stmts
      if !returned then unifyAt result .none f.func.loc
      let t := (← get).settle (Ty.curry params result)
      modify fun c => { c with funcs := (f.name, t) :: c.funcs }
      insertGlobal f.name (.function f.name t true)) c x c') :
    ∃ c₁, Advances (Set.Ico i (i + stmtsNodeCount f.func.body.stmts)) c c₁ ∧
      c' = { c₁ with
        funcs := (f.name, c₁.settle (Ty.curry params result)) :: c₁.funcs
        globals := c₁.globals.insert f.name
          (.function f.name (c₁.settle (Ty.curry params result)) true) } ∧
      ∀ θ r shown, Settles θ r (Set.Ico i (i + stmtsNodeCount f.func.body.stmts)) c₁ →
        (result.bind θ).Blurs shown →
        stmtsTyped r shown (locals.map (Frame.bind θ)) i f.func.body.stmts := by
  rw [gives_bind] at h
  obtain ⟨returned, c₁, hreturned, h⟩ := h
  obtain ⟨hadv, htyped⟩ := checksAll f.func.body.stmts i hc hresult hreturned
  have settled : ∀ {c₂ : Checker}, Gives (do
      let t := (← get).settle (Ty.curry params result)
      modify fun c => { c with funcs := (f.name, t) :: c.funcs }
      insertGlobal f.name (.function f.name t true)) c₂ x c' → c' = { c₂ with
        funcs := (f.name, c₂.settle (Ty.curry params result)) :: c₂.funcs
        globals := c₂.globals.insert f.name (.function f.name (c₂.settle (Ty.curry params result))
          true) } := by
    intro c₂ h
    rw [gives_bind] at h
    obtain ⟨_, _, hget, h⟩ := h
    obtain ⟨rfl, rfl⟩ := gives_get.1 hget
    rw [gives_bind] at h
    obtain ⟨_, c₃, hmodify, h⟩ := h
    rw [gives_insertGlobal.1 h, gives_modify.1 hmodify]
  split at h
  · rw [gives_bind] at h
    obtain ⟨y, c₂, hy, h⟩ := h
    obtain ⟨hadv₂, -⟩ :=
      advances_unified (S := ∅) hadv.tidy (hadv.reaches.over hresult) Ty.over_none
        (gives_unifyAt.1 hy)
    refine ⟨c₂, hadv.trans (hadv₂.mono (Set.empty_subset _)), settled h, fun θ r shown hs hblur =>
      ?_⟩
    exact htyped θ r shown (hs.before hadv₂ fun k hk => ⟨hk, Set.notMem_empty k⟩) hblur
  · exact ⟨c₁, hadv, settled h, htyped⟩

/-- The start of a function: its parameters have the types that they are written with, and its
result type is the written one or else a fresh variable. -/
theorem enter_spec {f : NamedFunction} {c c' : Checker} {x : Unit} (hc : c.unifier.Tidy)
    (hglobals : c.globals.Tidy) (h : Gives (checkFunc f.name f.func) c x c') : ∃ ps result c₁,
      (∀ t ∈ ps, t.Ground) ∧ ps.length = f.func.params.length ∧
      (∀ τ, Report.Params ⟨τ, c.globals, pathOf f.name⟩ f.func.params ps) ∧
      Advances ∅ (c.entering f) c₁ ∧ result.Over c₁.unifier.Past ∧
      (∀ a ∈ f.func.ret, result.Ground ∧ ∀ τ, Report.Means ⟨τ, c.globals, pathOf f.name⟩ a result) ∧
      Gives (do
        let returned ← checkStmts result (withParams [[]] f.func.params ps) c.nextNode
          f.func.body.stmts
        if !returned then unifyAt result .none f.func.loc
        let t := (← get).settle (Ty.curry ps result)
        modify fun c => { c with funcs := (f.name, t) :: c.funcs }
        insertGlobal f.name (.function f.name t true)) c₁ x c' := by
  unfold checkFunc at h
  rw [gives_bind] at h
  obtain ⟨_, c₁, hpath, h⟩ := h
  rw [gives_bind] at h
  obtain ⟨d, c₁', hget, h⟩ := h
  rw [(gives_get.1 hget).1, (gives_get.1 hget).2] at h
  dsimp only at h
  rw [gives_bind] at h
  obtain ⟨_, c₂, hnext, h⟩ := h
  have hc₂ : c₂ = c.entering f := by
    rw [gives_modify.1 hnext, gives_modify.1 hpath, Checker.entering]
  have hi : c₁.nextNode = c.nextNode := by rw [gives_modify.1 hpath]
  rw [hc₂, hi, gives_bind] at h
  obtain ⟨ps, c₃, hps, h⟩ := h
  obtain ⟨hsame, hground, hlen, hparams⟩ := paramTypes_spec (c := c.entering f) hglobals hps
  rw [hsame, gives_bind] at h
  obtain ⟨t?, c₄, ht, h⟩ := h
  obtain ⟨hsame, hground?, hnone, hmeans⟩ := resultType?_spec (c := c.entering f) hglobals ht
  rw [hsame] at h
  cases t? with
  | none =>
    rw [gives_bind] at h
    obtain ⟨result, c₅, hresult, h⟩ := h
    obtain ⟨hadv, hpast⟩ := advances_fresh (c := c.entering f) hc hresult
    exact ⟨ps, result, c₅, hground, hlen, fun τ => hparams _ rfl rfl, hadv,
      hpast, by simp [hnone.2 rfl], h⟩
  | some u =>
    simp only [pure_bind] at h
    have hu := hground? u rfl
    exact ⟨ps, u, c.entering f, hground, hlen, fun τ => hparams _ rfl rfl, .refl hc, hu.over,
      fun a ha => ⟨hu, fun τ => hmeans _ rfl rfl a ha u rfl⟩, h⟩

theorem checkFunc_spec {f : NamedFunction} {c c' : Checker} {x : Unit} (hc : c.unifier.Tidy)
    (hglobals : c.globals.Tidy) (h : Gives (checkFunc f.name f.func) c x c') :
    ∃ t, Checked f t c c' := by
  obtain ⟨ps, result, c₁, hground, hlen, hparams, hadv₁, hpast, hwritten, h⟩ :=
    enter_spec hc hglobals h
  have hready : c₁.Ready (withParams [[]] f.func.params ps) := by
    refine ⟨hadv₁.tidy, hadv₁.globals_eq ▸ hglobals,
      AreLocal.withParams ?_ fun t ht => (hground t ht).over⟩
    simp [AreLocal]
  obtain ⟨c₂, hadv₂, hend, htyped⟩ := finish_spec hready hpast h
  have hadv := (hadv₁.mono (Set.empty_subset _)).trans hadv₂
  have hrest := hadv.rest
  have hsettle : c₂.settle (Ty.curry ps result) = Ty.curry ps (c₂.settle result) := by
    rw [Checker.settle_eq_bind, Ty.bind_curry,
      List.map_congr_left fun t ht => (hground t ht).bind_eq _, List.map_id',
      Checker.settle_eq_bind]
  have hnode : c'.nextNode = c.nextNode + stmtsNodeCount f.func.body.stmts := by
    rw [hend, hrest, Checker.entering]
  have hunifier : c'.unifier = c₂.unifier := by rw [hend]
  have htypes : c'.types = c₂.types := by rw [hend]
  refine ⟨c₂.settle (Ty.curry ps result), hunifier ▸ hadv.tidy, hunifier ▸ hadv.reaches, ?_, ?_,
    hnode, ?_, Checker.ground_settle _ _, ⟨ps, _, hsettle, hlen⟩, fun θ τ hθ hτ => ?_⟩
  · rw [hend, hadv.globals_eq, Checker.entering]
  · rw [hend, hrest, Checker.entering]
  · rw [hnode, htypes]
    exact hadv.types
  · rw [hunifier] at hθ
    rw [hnode, htypes] at hτ
    have hs : Settles θ ⟨τ, c.globals, pathOf f.name⟩
      (Set.Ico c.nextNode (c.nextNode + stmtsNodeCount f.func.body.stmts)) c₂ :=
      ⟨hadv.globals_eq.symm, hadv.scopePath_eq.symm, hθ, hτ⟩
    refine ⟨ps, c₂.settle result, hsettle, hparams τ, fun a ha => ?_, ?_⟩
    · obtain ⟨hresult, hmeans⟩ := hwritten a ha
      rw [Checker.settle_eq_bind, hresult.bind_eq]
      exact hmeans τ
    · have hbody := htyped θ _ _ hs (Checker.blurs_settle hadv.tidy hθ result)
      rwa [withParams_bind, List.map_congr_left fun t ht => (hground t ht).bind_eq θ,
        List.map_id'] at hbody

/-! ### All functions -/

section Alike

variable {g g' g'' : Frame}

theorem Frame.Alike.refl (g : Frame) : g.Alike g := fun _ => .inl rfl

theorem Frame.Alike.trans (h : g.Alike g') (h' : g'.Alike g'') : g.Alike g'' := by
  intro n
  rcases h n with heq | ⟨q, t, u, hg, hg'⟩ <;> rcases h' n with heq' | ⟨q', t', u', hg₁', hg''⟩
  · exact .inl (heq.trans heq')
  · exact .inr ⟨q', t', u', heq.trans hg₁', hg''⟩
  · exact .inr ⟨q, t, u, hg, heq' ▸ hg'⟩
  · rw [hg', Option.some.injEq, Symbol.function.injEq] at hg₁'
    obtain ⟨rfl, -⟩ := hg₁'
    exact .inr ⟨q, t, u', hg, hg''⟩

/-- A declared function may take a new type. -/
theorem Frame.Declares.alike_insert {fs : List NamedFunction} (h : g.Declares fs)
    {f : NamedFunction} (hf : f ∈ fs) (t : Ty) :
    g.Alike (g.insert f.name (.function f.name t true)) := by
  intro n
  by_cases hn : n = f.name
  · obtain ⟨u, hu⟩ := h.complete f hf
    exact .inr ⟨f.name, u, t, hn ▸ hu, hn ▸ Frame.find?_insert_self _ _⟩
  · exact .inl (Frame.find?_insert_of_ne hn _).symm

end Alike

/-- What checking functions one after the other leaves. -/
structure CheckedAll (fs gs : List NamedFunction) (c c' : Checker) : Prop where
  tidy : c'.unifier.Tidy
  reaches : c.unifier.Reaches c'.unifier
  declares : c'.globals.Declares fs
  alike : c.globals.Alike c'.globals
  funcs : ∀ n, n ∉ gs.map (·.name) → c'.funcs.lookup n = c.funcs.lookup n
  nextNode : c.nextNode ≤ c'.nextNode
  types : ∃ new, c'.types = new ++ c.types ∧ ∀ e ∈ new, c.nextNode ≤ e.1
  typed : ∀ θ τ, Subst.Respects θ c'.unifier.subst →
    (∀ k, c.nextNode ≤ k → τ k = (c'.types.lookup k).map (Ty.bind θ)) →
    ∀ e ∈ numberedFunctions c.nextNode gs, ∃ g t, g.Declares fs ∧ g.Alike c'.globals ∧
      c'.funcs.lookup e.2.name = some t ∧ e.2.Typed ⟨τ, g, pathOf e.2.name⟩ e.1 t

/-- What a list of types gives for a number is not changed by types of later numbers. -/
theorem lookup_eq_of_types {types new : List (Nat × Ty)} {m k : Nat} (hnew : ∀ e ∈ new, m ≤ e.1)
    (hk : k < m) : (new ++ types).lookup k = types.lookup k := by
  have hnone : new.lookup k = none := by
    rw [List.lookup_eq_none_iff]
    intro e he
    have hne : k ≠ e.1 := by
      have := hnew e he
      omega
    simpa using hne
  rw [List.lookup_append, hnone, Option.none_or]

theorem checkFuncs_spec {fs gs : List NamedFunction} {c c' : Checker} {x : Unit} (hsub : gs ⊆ fs)
    (hnodup : (gs.map (·.name)).Nodup) (hc : c.unifier.Tidy) (hglobals : c.globals.Tidy)
    (hdecl : c.globals.Declares fs)
    (h : Gives (gs.forM fun f => inContext ("func " ++ f.name) (checkFunc f.name f.func)) c x c') :
    CheckedAll fs gs c c' := by
  induction gs generalizing c c' with
  | nil =>
    obtain ⟨-, rfl⟩ := gives_pure.1 h
    exact ⟨hc, .refl _, hdecl, .refl _, fun _ _ => rfl, Nat.le_refl _,
      ⟨[], rfl, by simp⟩, by simp [numberedFunctions]⟩
  | cons f gs ih =>
    obtain ⟨y, c₁, hy, h⟩ := gives_bind.1 h
    rw [List.map_cons, List.nodup_cons] at hnodup
    have hf : f ∈ fs := hsub (by simp)
    obtain ⟨t, hfunc⟩ := checkFunc_spec hc hglobals (gives_inContext.1 hy)
    have hglobals₁ : c₁.globals.Tidy :=
      hfunc.globals ▸ hglobals.insert (s := .function ..) hfunc.ground
    have hdecl₁ : c₁.globals.Declares fs := hfunc.globals ▸ hdecl.insert_again hf hfunc.shapes
    have hrest := ih (fun g hg => hsub (by simp [hg])) hnodup.2 hfunc.tidy hglobals₁ hdecl₁ h
    have halike : c.globals.Alike c₁.globals := hfunc.globals ▸ hdecl.alike_insert hf t
    have hnext : c.nextNode ≤ c₁.nextNode := by
      rw [hfunc.nextNode]
      omega
    obtain ⟨new₁, htypes₁, hnew₁⟩ := hfunc.types
    obtain ⟨new₂, htypes₂, hnew₂⟩ := hrest.types
    refine ⟨hrest.tidy, hfunc.reaches.trans hrest.reaches, hrest.declares, halike.trans hrest.alike,
      fun n hn => ?_, hnext.trans hrest.nextNode,
      ⟨new₂ ++ new₁, by rw [htypes₂, htypes₁, List.append_assoc], fun e he => ?_⟩,
      fun θ τ hθ hτ => ?_⟩
    · rw [List.map_cons, List.mem_cons, not_or] at hn
      have hb : (n == f.name) = false := by simpa using hn.1
      rw [hrest.funcs n hn.2, hfunc.funcs, List.lookup_cons, hb]
    · rcases List.mem_append.1 he with he | he
      · exact hnext.trans (hnew₂ e he)
      · exact (hnew₁ e he).1
    · rw [numberedFunctions, List.forall_mem_cons]
      constructor
      · refine ⟨c.globals, t, hdecl, halike.trans hrest.alike, ?_, ?_⟩
        · rw [hrest.funcs f.name hnodup.1, hfunc.funcs]
          simp
        · refine hfunc.typed θ τ (hrest.reaches.respects hrest.tidy hθ) fun k hk => ?_
          rw [hτ k hk.1, htypes₂, lookup_eq_of_types hnew₂ hk.2]
      · rw [← hfunc.nextNode]
        exact hrest.typed θ τ hθ fun k hk => hτ k (hnext.trans hk)

/-! ### Programs -/

theorem reset_new {o : CheckOptions} (ho : o.symbols = []) :
    (Checker.new o).reset.globals = builtinFrame := by
  simp [Checker.reset, Checker.new, Frame.insertAll, ho]

/-- An accepted program, seen from the checker at the end. -/
theorem check_spec {p : Program} {o : CheckOptions} {c : Checker} (ho : o.symbols = [])
    (h : p.check o = (.ok (), c)) :
    c.globals.Declares p.functions ∧ ∀ e ∈ numberedFunctions 0 p.functions,
      ∃ g t, g.Declares p.functions ∧ g.Alike c.globals ∧ c.funcType? e.2.name = some t ∧
        e.2.Typed ⟨c.typeOf?, g, pathOf e.2.name⟩ e.1 t := by
  have h : Gives (checkProgram p) (Checker.new o) () c := h
  rw [checkProgram, gives_bind] at h
  obtain ⟨_, c₀, hreset, h⟩ := h
  obtain rfl := gives_modify.1 hreset
  rw [gives_bind] at h
  obtain ⟨_, c₁, hc₁, h⟩ := h
  rw [gives_bind] at h
  obtain ⟨_, c₂, hc₂, h⟩ := h
  rw [gives_bind] at h
  obtain ⟨_, c₃, hc₃, h⟩ := h
  have hglobals := reset_new ho
  obtain ⟨htidy₁, hdecl₁, hrest₁⟩ :=
    (keeps_declareTypes "" p.defs).inContext _ (hglobals ▸ builtinFrame_tidy)
      (hglobals ▸ builtinFrame_declares) hc₁
  obtain ⟨htidy₂, hdecl₂, hrest₂⟩ :=
    ((keeps_declareMembers "" p.defs).underPath "").inContext _ htidy₁ hdecl₁ hc₂
  obtain ⟨htidy₃, hdecl₃, hrest₃⟩ :=
    ((keeps_declareFuncs "" p.defs []).underPath "").inContext _ htidy₂ hdecl₂ hc₃
  rw [hrest₂, hrest₁] at hrest₃
  have hunifier : c₃.unifier.Tidy := by
    rw [hrest₃]
    exact Unifier.tidy_new _ _
  have hnode : c₃.nextNode = 0 := by
    rw [hrest₃]
    rfl
  have hall := checkFuncs_spec (List.Subset.refl _) hdecl₃.nodup hunifier htidy₃ hdecl₃ h
  refine ⟨hall.declares, ?_⟩
  have htyped := hall.typed c.settled c.typeOf? (Checker.respects_settled hall.tidy) fun k _ => by
    rw [Checker.typeOf?, funext c.settle_eq_bind]
  rwa [hnode] at htyped

/-- The types found for an accepted program follow the rules, at every expression of
every function. -/
theorem check_typed (p : Program) (o : CheckOptions) (c : Checker) (ho : o.symbols = [])
    (h : p.check o = (.ok (), c)) :
    ∀ e ∈ numberedFunctions 0 p.functions, ∃ g t, g.Alike c.globals ∧
      c.funcType? e.2.name = some t ∧ e.2.Typed ⟨c.typeOf?, g, pathOf e.2.name⟩ e.1 t := by
  intro e he
  obtain ⟨g, t, -, halike, ht, htyped⟩ := (check_spec ho h).2 e he
  exact ⟨g, t, halike, ht, htyped⟩

/-- Whether a program is accepted can be computed. -/
theorem check_eq_of_isOk {p : Program} {o : CheckOptions} (h : (p.check o).1.isOk = true) :
    p.check o = (.ok (), (p.check o).2) := by
  rcases hr : p.check o with ⟨_ | _, c⟩
  · rw [hr] at h
    cases h
  · rfl

/-- A function that calls its parameter on what another function makes of that parameter. -/
def selfPassingMain : FuncDef where
  loc := {}
  name := "main"
  params := []
  ret := none
  body := ⟨{}, [.ret {} (some (.lambda {} [⟨{}, "f", none⟩]
    (.binOp {} .add (.call {} (.var {} "f") [.call {} (.var {} "h") [.var {} "f"] []] [])
      (.uint {} 1))))]⟩
  checked := true

/-- The program of this function, with the other function. -/
def selfPassingProgram : Program := ⟨[], [
  .func {
    loc := {}, name := "h", params := [⟨{}, "x", none⟩], ret := none, checked := true
    body := ⟨{}, [.ret {} (some (.var {} "x"))]⟩ },
  .func selfPassingMain]⟩

theorem check_typed_selfPassing : ∃ c, selfPassingProgram.check {} = (.ok (), c) ∧
    ∃ g, g.Alike c.globals ∧ NamedFunction.Typed ⟨c.typeOf?, g, pathOf "main"⟩ 1 ⟨"main",
      selfPassingMain⟩ (.func .any .u24) := by
  have haccepted : selfPassingProgram.check {} = (.ok (), (selfPassingProgram.check {}).2) :=
    check_eq_of_isOk (by decide +kernel)
  have htype : (selfPassingProgram.check {}).2.funcType? "main" = some (.func .any .u24) := by
    decide +kernel
  obtain ⟨g, t, halike, ht, htyped⟩ :=
    check_typed _ _ _ rfl haccepted (1, ⟨"main", selfPassingMain⟩)
      (List.mem_cons_of_mem _ List.mem_cons_self)
  obtain rfl : t = .func .any .u24 := Option.some.inj (ht.symm.trans htype)
  exact ⟨_, haccepted, g, halike, htyped⟩

/-- Passing arguments along the dynamic type ends in it. -/
theorem Ty.Walks.eq_any {as : List Ty} {last : Ty} (h : Ty.Walks .any as last) : last = .any := by
  induction as with
  | nil => cases h; rfl
  | cons a as ih => cases h with | any h => exact ih h

/-- The call of the parameter has number 3 and the parameter itself number 4. The call has type
`u24`, but its callee is dynamic. -/
theorem selfPassing_call_not_walks :
    ∃ c, selfPassingProgram.check {} = (.ok (), c) ∧ c.typeOf? 3 = some .u24 ∧
      ∃ callee, c.typeOf? 4 = some callee ∧ ∀ as, ¬callee.Walks as .u24 := by
  have haccepted : selfPassingProgram.check {} = (.ok (), (selfPassingProgram.check {}).2) :=
    check_eq_of_isOk (by decide +kernel)
  refine ⟨_, haccepted, by decide +kernel, .any, by decide +kernel, fun as h => ?_⟩
  cases h.eq_any

end FunRiscv

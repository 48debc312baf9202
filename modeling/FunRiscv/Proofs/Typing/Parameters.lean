import Mathlib
import FunRiscv.Proofs.Typing.Freshness

/-!
# Type parameters never leak

A check starts from a clean state, and no call leads out of the clean states. Constructors are used
one after the other, each with variables that were not made before, so that two uses share none.

* `safe_checkStmt`, `safe_checkFunc`: statements and functions. `safe_declareMember`,
  `safe_declareFunc` and others: declarations.
* `Call.safe`: any call. `Call.before_or_before`: two calls at different positions of a check come
  one after the other.
* `Call.Sealed`: no type parameter leaks from a call. `Program.parameters_never_leak`:
  nor from a check.
-/

namespace FunRiscv

open Checking

variable {c : Checker} {locals : List Frame} {i : Nat} {t : Ty}

/-! ### Statements -/

theorem safe_expectType {e : Expr} (hc : c.Clean)
    (hlocals : AreLocal (·.Over c.unifier.Made) locals) (ht : t.Over c.unifier.Made) :
    Safe (expectType locals i t e) c ((Call.expectType locals i t e).calls c) fun _ _ => True := by
  rw [expectType, Call.calls]
  refine (safe_infer e).next hc hlocals (Ty.over_all_some ht) fun found c' hc' hmoves hfound => ?_
  have ht' := hmoves.over_made ht
  exact (safe_unifyAt hc' ht' hfound).call (x := .unifyAt t found e.loc) hc'
    (.of_pair rfl rfl ht' hfound trivial)

/-- An assignment, once the type of its value is known. -/
theorem safe_assigned {n : String} {loc : Location} (hc : c.Clean)
    (hlocals : AreLocal (·.Over c.unifier.Made) locals) (ht : t.Over c.unifier.Made) :
    Safe (do return (← assignLocal locals n t loc, false)) c [(.assignLocal locals n t loc, c)]
      fun u out => AreLocal (·.Over u.Made) out.1 :=
  Safe.last (.assignLocal locals n t loc) (safe_assignLocal hc hlocals ht) hc
    (.of_type hlocals rfl ht trivial)
    fun (inner : List Frame) _ hc' _ (hinner : AreLocal _ inner) => safe_pure hc' hinner

mutual

theorem safe_checkStmt :
    ∀ (s : Stmt) {c : Checker} {locals : List Frame} {i : Nat} {result : Ty}, c.Clean →
    AreLocal (·.Over c.unifier.Made) locals → result.Over c.unifier.Made →
    Safe (checkStmt result locals i s) c (s.calls result locals i c) fun u out =>
      AreLocal (·.Over u.Made) out.1
  | .ret loc none, c, locals, i, result, hc, hlocals, hresult => by
    rw [checkStmt]
    exact Safe.last (.unifyAt result .none loc) (safe_unifyAt hc hresult Ty.over_none) hc
      (.of_pair rfl rfl hresult Ty.over_none trivial) fun _ c' hc' hmoves _ =>
        safe_pure hc' (hlocals.later hmoves)
  | .ret _ (some e), c, locals, i, result, hc, hlocals, hresult => by
    rw [checkStmt]
    exact Safe.last (.expectType locals i result e) (safe_expectType hc hlocals hresult) hc
      (.of_type hlocals rfl hresult trivial) fun _ c' hc' hmoves _ =>
        safe_pure hc' (hlocals.later hmoves)
  | .assign loc n none e, c, locals, i, result, hc, hlocals, _ => by
    rw [checkStmt, Stmt.calls]
    exact (safe_infer e).next hc hlocals Ty.over_all_none fun t c' hc' hmoves ht =>
      safe_assigned hc' (hlocals.later hmoves) ht
  | .assign loc n (some a) e, c, locals, i, result, hc, hlocals, _ => by
    rw [checkStmt, Stmt.calls]
    simp only [pure_bind]
    refine (safe_written a hc).andThen fun t c₁ hc₁ hmoves₁ ht => ?_
    have hlocals₁ := hlocals.later hmoves₁
    refine Safe.next (.expectType locals i t e) (safe_expectType hc₁ hlocals₁ (Ty.Ground.over ht))
      hc₁ (.of_type hlocals₁ rfl (Ty.Ground.over ht) trivial) fun _ c₂ hc₂ hmoves₂ _ => ?_
    exact safe_assigned hc₂ (hlocals₁.later hmoves₂) (Ty.Ground.over ht)
  | .use _ n e, c, locals, i, result, hc, hlocals, _ => by
    rw [checkStmt]
    exact Safe.last (.infer locals i none e) (safe_infer e hc hlocals Ty.over_all_none) hc
      (.of_type? hlocals rfl Ty.over_all_none trivial) fun (t : Ty) c' hc' hmoves (ht : t.Over _) =>
        safe_pure hc' ((hlocals.later hmoves).bindLocal ht)
  | .expr _ e, c, locals, i, result, hc, hlocals, _ => by
    rw [checkStmt]
    exact Safe.last (.infer locals i none e) (safe_infer e hc hlocals Ty.over_all_none) hc
      (.of_type? hlocals rfl Ty.over_all_none trivial) fun _ c' hc' hmoves _ =>
        safe_pure hc' (hlocals.later hmoves)
  | .ifThen _ x _ ss, c, locals, i, result, hc, hlocals, hresult => by
    rw [checkStmt, Stmt.calls]
    refine (safe_infer x).next hc hlocals Ty.over_all_none fun t c₁ hc₁ hmoves₁ ht => ?_
    refine Safe.next (.conditionType x.loc t) (safe_conditionType hc₁ ht) hc₁
      (.of_type areLocal_nil rfl ht trivial) fun _ c₂ hc₂ hmoves₂ _ => ?_
    have hlocals₂ := hlocals.later (hmoves₁.trans hmoves₂)
    have hresult₂ := (hmoves₁.trans hmoves₂).over_made hresult
    exact Safe.last (.checkStmts result ([] :: locals) (i + x.nodeCount) ss)
      (safe_checkStmts ss hc₂ hlocals₂.push hresult₂) hc₂
      (.of_type hlocals₂.push rfl hresult₂ trivial) fun _ c₃ hc₃ hmoves₃ _ =>
        safe_pure hc₃ (hlocals₂.later hmoves₃)
  | .ifElse _ x _ ss _ ss', c, locals, i, result, hc, hlocals, hresult => by
    rw [checkStmt, Stmt.calls]
    refine (safe_infer x).next hc hlocals Ty.over_all_none fun t c₁ hc₁ hmoves₁ ht => ?_
    refine Safe.next (.conditionType x.loc t) (safe_conditionType hc₁ ht) hc₁
      (.of_type areLocal_nil rfl ht trivial) fun _ c₂ hc₂ hmoves₂ _ => ?_
    have hlocals₂ := hlocals.later (hmoves₁.trans hmoves₂)
    have hresult₂ := (hmoves₁.trans hmoves₂).over_made hresult
    refine Safe.next (.checkStmts result ([] :: locals) (i + x.nodeCount) ss)
      (safe_checkStmts ss hc₂ hlocals₂.push hresult₂) hc₂
      (.of_type hlocals₂.push rfl hresult₂ trivial) fun _ c₃ hc₃ hmoves₃ _ => ?_
    have hlocals₃ := hlocals₂.later hmoves₃
    have hresult₃ := hmoves₃.over_made hresult₂
    exact Safe.last (.checkStmts result ([] :: locals) (i + x.nodeCount + stmtsNodeCount ss) ss')
      (safe_checkStmts ss' hc₃ hlocals₃.push hresult₃) hc₃
      (.of_type hlocals₃.push rfl hresult₃ trivial) fun _ c₄ hc₄ hmoves₄ _ =>
        safe_pure hc₄ (hlocals₃.later hmoves₄)
  | .missing, c, locals, i, result, hc, _, _ => by
    rw [checkStmt]
    exact safe_fail hc _ _

theorem safe_checkStmts :
    ∀ (ss : List Stmt) {c : Checker} {locals : List Frame} {i : Nat} {result : Ty}, c.Clean →
    AreLocal (·.Over c.unifier.Made) locals → result.Over c.unifier.Made →
    Safe (checkStmts result locals i ss) c ((Call.checkStmts result locals i ss).calls c) fun _ _ =>
      True
  | [], c, locals, i, result, hc, _, _ => by
    rw [checkStmts]
    exact safe_pure hc trivial
  | s :: ss, c, locals, i, result, hc, hlocals, hresult => by
    rw [checkStmts, Call.calls]
    refine Safe.next (.checkStmt result locals i s) (safe_checkStmt s hc hlocals hresult) hc
      (.of_type hlocals rfl hresult trivial)
      fun (out : List Frame × Bool) c₁ hc₁ hmoves₁ (hout : AreLocal _ out.1) => ?_
    have hresult₁ := hmoves₁.over_made hresult
    exact Safe.last (.checkStmts result out.1 (i + s.nodeCount) ss)
      (safe_checkStmts ss hc₁ hout hresult₁) hc₁ (.of_type hout rfl hresult₁ trivial)
      fun _ c₂ hc₂ _ _ => safe_pure hc₂ trivial

end

/-! ### Functions -/

theorem safe_paramTypes {ps : List Param} (hc : c.Clean) :
    Safe (paramTypes ps) c [] fun _ ts => ∀ t ∈ ts, t.Ground :=
  safe_mapM (fun p _ c hc => by
    split
    · exact safe_pure hc Ty.over_any
    · exact (safe_written _ hc).inContext _) hc

theorem safe_resultType? {d : FuncDef} (hc : c.Clean) :
    Safe (resultType? d) c [] fun _ t? => ∀ t ∈ t?, t.Ground := by
  unfold resultType?
  split
  · exact safe_pure hc (by simp)
  · exact ((safe_written _ hc).inContext _).before fun t c' hc' _ ht =>
      safe_pure hc' (by simpa using ht)

/-- The end of a function. -/
theorem safe_finish {n : String} (hc : c.Clean) : Safe (do
    let t := (← get).settle t
    modify fun c => { c with funcs := (n, t) :: c.funcs }
    insertGlobal n (.function n t true)) c [] fun _ _ => True where
  clean := ⟨hc.bindings, hc.types, List.forall_mem_cons.2 ⟨Ty.Ground.over (c.ground_settle t),
    hc.funcs⟩,
    hc.globals.insert (s := .function ..) (c.ground_settle t)⟩
  moves := .refl _
  calls := .nil _
  result _ _ := trivial
  blind d hd := by
    obtain ⟨G, hG, rfl⟩ := hd
    exact ⟨rfl, _, hG.insert n (.function n (c.settle t) true), rfl⟩

/-- The body of a function, once the types of its parameters and of its result are known. -/
theorem safe_body (f : NamedFunction) (i : Nat) {ts : List Ty} {result : Ty} (hc : c.Clean)
    (hts : ∀ t ∈ ts, t.Ground) (hresult : result.Over c.unifier.Made) : Safe (do
      let returned ← checkStmts result (withParams [[]] f.func.params ts) i f.func.body.stmts
      if !returned then unifyAt result .none f.func.loc
      let t := (← get).settle (Ty.curry ts result)
      modify fun c => { c with funcs := (f.name, t) :: c.funcs }
      insertGlobal f.name (.function f.name t true)) c
      ((Call.checkStmts result (withParams [[]] f.func.params ts) i f.func.body.stmts).next c
        fun (returned : Bool) c' =>
        if returned then [] else [(.unifyAt result .none f.func.loc, c')]) fun _ _ => True := by
  have hlocals : AreLocal (·.Over c.unifier.Made) (withParams [[]] f.func.params ts) :=
    areLocal_nil.push.withParams fun t ht => Ty.Ground.over (hts t ht)
  refine Safe.next (.checkStmts result (withParams [[]] f.func.params ts) i f.func.body.stmts)
    (safe_checkStmts _ hc hlocals hresult) hc (.of_type hlocals rfl hresult trivial)
    fun (returned : Bool) c₁ hc₁ hmoves₁ _ => ?_
  cases returned with
  | true => exact safe_finish hc₁
  | false =>
    have hresult₁ := hmoves₁.over_made hresult
    exact Safe.last (.unifyAt result .none f.func.loc) (safe_unifyAt hc₁ hresult₁ Ty.over_none) hc₁
      (.of_pair rfl rfl hresult₁ Ty.over_none trivial) fun _ c₂ hc₂ _ _ => safe_finish hc₂

/-- A function, once its module and its expressions' numbers are set. -/
theorem safe_entered (f : NamedFunction) (hc : c.Clean) : Safe (do
      let params ← paramTypes f.func.params
      let result ← match ← resultType? f.func with
        | some t => pure t
        | none => fresh
      let returned ← checkStmts result (withParams [[]] f.func.params params) c.nextNode
        f.func.body.stmts
      if !returned then unifyAt result .none f.func.loc
      let t := (← get).settle (Ty.curry params result)
      modify fun c => { c with funcs := (f.name, t) :: c.funcs }
      insertGlobal f.name (.function f.name t true)) (c.entering f) (f.calls c) fun _ _ =>
    True := by
  have hc₀ : (c.entering f).Clean := ⟨hc.bindings, hc.types, hc.funcs, hc.globals⟩
  rw [NamedFunction.calls]
  refine (safe_paramTypes hc₀).andThen fun ts c₁ hc₁ hmoves₁ hts => ?_
  refine (safe_resultType? hc₁).andThen fun written c₂ hc₂ hmoves₂ hwritten => ?_
  cases written with
  | none =>
    exact Safe.next .fresh (safe_fresh hc₂) hc₂ (.of_nil rfl rfl trivial)
      fun (t : Ty) c₃ hc₃ _ (ht : t.Over _) =>
      safe_body f c.nextNode hc₃ hts ht
  | some t => exact safe_body f c.nextNode hc₂ hts (Ty.Ground.over (hwritten t rfl))

theorem safe_checkFunc (f : NamedFunction) (hc : c.Clean) :
    Safe (checkFunc f.name f.func) c (f.calls c) fun _ _ => True := by
  have hentered := safe_entered f hc
  refine ⟨hentered.clean, hentered.moves, hentered.calls, hentered.result, fun d hd => ?_⟩
  obtain ⟨G, hG, rfl⟩ := hd
  exact hentered.blind _ ⟨G, hG, rfl⟩

theorem safe_checkAll (fs : List NamedFunction) (hc : c.Clean) :
    Safe (checkAll fs) c ((Call.checkAll fs).calls c) fun _ _ => True := by
  induction fs generalizing c with
  | nil => exact safe_pure hc trivial
  | cons f fs ih =>
    show Safe (do
      inContext ("func " ++ f.name) (checkFunc f.name f.func)
      checkAll fs) c _ _
    refine Safe.next (.inContext ("func " ++ f.name) (.checkFunc f))
      ((safe_checkFunc f hc).inContext _) hc (.of_nil rfl rfl trivial) fun _ c' hc' _ _ => ?_
    exact (ih hc').call (x := .checkAll fs) hc' (.of_nil rfl rfl trivial)

/-! ### Declarations -/

theorem safe_declared {n : String} {s : Symbol} {loc : Location} (hc : c.Clean) (hs : s.Tidy) :
    Safe (declareName n s loc) c [(.declareName n s loc, c)] fun _ _ => True :=
  (safe_declareName hc hs).call (x := .declareName n s loc) hc (.of_nil rfl rfl hs)

theorem safe_inserted {n : String} {s : Symbol} (hc : c.Clean) (hs : s.Tidy) :
    Safe (insertGlobal n s) c [(.insertGlobal n s, c)] fun _ _ => True :=
  (safe_insertGlobal hc hs).call (x := .insertGlobal n s) hc (.of_nil rfl rfl hs)

mutual

theorem safe_declareTypes : ∀ (path : String) (ds : List Definition) {c : Checker}, c.Clean →
    Safe (declareTypes path ds) c ((Call.declareTypes path ds).calls c) fun _ _ => True
  | path, [], c, hc => by
    rw [declareTypes]
    exact safe_pure hc trivial
  | path, d :: ds, c, hc => by
    rw [declareTypes, Call.calls]
    refine Safe.next (.declareType path d) (safe_declareType path d hc) hc (.of_nil rfl rfl trivial)
      fun _ c' hc' _ _ => ?_
    exact (safe_declareTypes path ds hc').call (x := .declareTypes path ds) hc'
      (.of_nil rfl rfl trivial)

theorem safe_declareType : ∀ (path : String) (d : Definition) {c : Checker}, c.Clean →
    Safe (declareType path d) c ((Call.declareType path d).calls c) fun _ _ => True
  | path, .func d, c, hc => by
    rw [declareType]
    exact safe_pure hc trivial
  | path, .type d, c, hc | path, .object d, c, hc | path, .alias d, c, hc => by
    rw [declareType]
    exact safe_declared hc ⟨by simp, by simp, by simp⟩
  | path, .module loc n defs, c, hc => by
    have hs : (Symbol.module (path ++ n) (defs.map fun d => path ++ n ++ "/" ++ d.name)).Tidy :=
      trivial
    rw [declareType, Call.calls]
    refine Safe.next (.declareName (path ++ n) _ loc) (safe_declareName hc hs) hc
      (.of_nil rfl rfl hs) fun _ c' hc' _ _ => ?_
    exact Safe.call (x := .inContext ("module " ++ (path ++ n))
      (.declareTypes (path ++ n ++ "/") defs))
      ((safe_declareTypes (path ++ n ++ "/") defs hc').inContext _) hc' (.of_nil rfl rfl trivial)

end

theorem safe_fieldTypes {ps : List String} {fields : List Field} (hc : c.Clean) :
    Safe (fieldTypes ps fields) c [] fun _ ts => ∀ e ∈ ts, e.2.Over (· ∈ ps) :=
  safe_mapM (fun f _ _ hc => ((safe_resolve ps f.type hc).inContext _).before fun _ _ hc' _ ht =>
    safe_pure hc' ht) hc

theorem safe_declareVariants (n : String) (ps : List String) (vs : List Variant) (hc : c.Clean) :
    Safe (Call.declareVariants n ps vs).action c ((Call.declareVariants n ps vs).calls c) fun _ _ =>
      True := by
  induction vs generalizing c with
  | nil => exact safe_pure hc trivial
  | cons v vs ih =>
    show Safe (do
      (do
        let fields ← inContext ("variant " ++ v.name) (fieldTypes ps v.fields)
        declareName (n ++ "/" ++ v.name)
          (.constructor (constructorOf (n ++ "/" ++ v.name) n ps fields)) v.loc)
      (Call.declareVariants n ps vs).action) c _ _
    rw [bind_assoc, Call.calls]
    refine ((safe_fieldTypes hc).inContext _).andThen fun fields c₁ hc₁ _ hfields => ?_
    have hs : (Symbol.constructor (constructorOf (n ++ "/" ++ v.name) n ps fields)).Tidy :=
      constructorOf_tidy hfields
    refine Safe.next (.declareName (n ++ "/" ++ v.name) _ v.loc) (safe_declareName hc₁ hs) hc₁
      (.of_nil rfl rfl hs) fun _ c₂ hc₂ _ _ => ?_
    exact (ih hc₂).call hc₂ (.of_nil rfl rfl trivial)

theorem declareVariants_eq (n : String) (d : TypeDef) : declareVariants n d = (do
    (Call.declareVariants n d.typeParams d.variants).action
    insertGlobal n (.type
      { name := n,
        params := d.typeParams, variants := d.variants.map fun v => n ++ "/" ++ v.name })) := by
  unfold declareVariants Call.action
  congr 1
  generalize d.variants = vs
  induction vs with
  | nil => rfl
  | cons v vs ih =>
    rw [List.forIn_cons]
    simp only [bind_assoc, pure_bind, List.forM_eq_forM, List.forM_cons, ih]

mutual

theorem safe_declareMembers : ∀ (path : String) (ds : List Definition) {c : Checker}, c.Clean →
    Safe (declareMembers path ds) c ((Call.declareMembers path ds).calls c) fun _ _ => True
  | path, [], c, hc => by
    rw [declareMembers]
    exact safe_pure hc trivial
  | path, d :: ds, c, hc => by
    rw [declareMembers, Call.calls]
    refine Safe.next (.inContext (path ++ d.name) (.declareMember path d))
      ((safe_declareMember path d hc).inContext _) hc (.of_nil rfl rfl trivial) fun _ c' hc' _ _ =>
        ?_
    exact (safe_declareMembers path ds hc').call (x := .declareMembers path ds) hc'
      (.of_nil rfl rfl trivial)

theorem safe_declareMember : ∀ (path : String) (d : Definition) {c : Checker}, c.Clean →
    Safe (declareMember path d) c (d.memberCalls path c) fun _ _ => True
  | path, .func d, c, hc => by
    rw [declareMember]
    exact safe_pure hc trivial
  | path, .type d, c, hc => by
    rw [declareMember, Definition.memberCalls, declareVariants_eq]
    refine Safe.next (.declareVariants (path ++ d.name) d.typeParams d.variants)
      (safe_declareVariants _ _ _ hc) hc (.of_nil rfl rfl trivial) fun _ c' hc' _ _ => ?_
    exact safe_inserted hc' ⟨by simp, by simp, by simp⟩
  | path, .object d, c, hc => by
    rw [declareMember, Definition.memberCalls, declareObject]
    refine (safe_fieldTypes hc).andThen fun fields c' hc' _ hfields =>
      safe_inserted hc' ⟨by simp, hfields, fun k hk => ?_⟩
    obtain rfl := Option.some.inj hk
    exact constructorOf_tidy hfields
  | path, .alias d, c, hc => by
    rw [declareMember, Definition.memberCalls, declareAlias]
    refine (safe_resolve d.typeParams d.type hc).andThen fun target c' hc' _ htarget =>
      safe_inserted hc' ⟨fun t ht => ?_, by simp, by simp⟩
    obtain rfl := Option.some.inj ht
    exact htarget
  | path, .module loc n defs, c, hc => by
    rw [declareMember, Definition.memberCalls]
    exact Safe.call (x := .underPath (path ++ n ++ "/") (.declareMembers (path ++ n ++ "/") defs))
      (safe_declareMembers (path ++ n ++ "/") defs (hc.under _)).underPath hc
      (.of_nil rfl rfl trivial)

end

theorem safe_declareFunc (n : String) (d : FuncDef) (hc : c.Clean) :
    Safe (declareFunc n d) c ((Call.declareFunc n d).calls c) fun _ _ => True := by
  rw [declareFunc, Call.calls]
  refine (safe_paramTypes hc).andThen fun ts c₁ hc₁ _ hts =>
    (safe_resultType? hc₁).andThen fun written c₂ hc₂ _ hwritten => ?_
  have hresult : (written.getD .any).Ground := by
    cases written with
    | none => exact Ty.over_any
    | some t => exact hwritten t rfl
  have hs : (Symbol.function n (Ty.curry ts (written.getD .any)) true).Tidy :=
    Ty.over_curry.2 ⟨hts, hresult⟩
  exact safe_declared hc₂ hs

theorem safe_declareMethods (owner : String) (ds : List FuncDef) (hc : c.Clean) :
    Safe (ds.forM fun f => declareFunc (owner ++ "/" ++ f.name) f) c
      ((Call.declareMethods owner ds).calls c) fun _ _ => True := by
  induction ds generalizing c with
  | nil => exact safe_pure hc trivial
  | cons d ds ih =>
    refine Safe.next (.declareFunc (owner ++ "/" ++ d.name) d) (safe_declareFunc _ d hc) hc
      (.of_nil rfl rfl trivial) fun _ c' hc' _ _ => ?_
    exact (ih hc').call (x := .declareMethods owner ds) hc' (.of_nil rfl rfl trivial)

mutual

theorem safe_declareFuncs : ∀ (path : String) (ds : List Definition) {c : Checker}, c.Clean →
    Safe (declareFuncs path ds) c ((Call.declareFuncs path ds).calls c) fun _ _ => True
  | path, [], c, hc => by
    rw [declareFuncs]
    exact safe_pure hc trivial
  | path, d :: ds, c, hc => by
    rw [declareFuncs, Call.calls]
    refine Safe.next (.inContext (path ++ d.name) (.declareFuncsOf path d))
      ((safe_declareFuncsOf path d hc).inContext _) hc (.of_nil rfl rfl trivial) fun _ c' hc' _ _ =>
        ?_
    exact (safe_declareFuncs path ds hc').call (x := .declareFuncs path ds) hc'
      (.of_nil rfl rfl trivial)

theorem safe_declareFuncsOf : ∀ (path : String) (d : Definition) {c : Checker}, c.Clean →
    Safe (declareFuncsOf path d) c ((Call.declareFuncsOf path d).calls c) fun _ _ => True
  | path, .func d, c, hc => by
    rw [declareFuncsOf]
    exact (safe_declareFunc (path ++ d.name) d hc).call (x := .declareFunc (path ++ d.name) d) hc
      (.of_nil rfl rfl trivial)
  | path, .object d, c, hc => by
    rw [declareFuncsOf]
    exact (safe_declareMethods (path ++ d.name) d.funcs hc).call
      (x := .declareMethods (path ++ d.name) d.funcs) hc (.of_nil rfl rfl trivial)
  | path, .module loc n defs, c, hc => by
    rw [declareFuncsOf]
    exact Safe.call (x := .underPath (path ++ n ++ "/") (.declareFuncs (path ++ n ++ "/") defs))
      (safe_declareFuncs (path ++ n ++ "/") defs (hc.under _)).underPath hc
      (.of_nil rfl rfl trivial)
  | path, .type d, c, hc | path, .alias d, c, hc => by
    rw [declareFuncsOf]
    exact safe_pure hc trivial

end

/-- Nothing is lost where a new checker is made new. -/
theorem safe_reset (hc : c.Clean) (hnew : c.reset = c) :
    Safe (modify Checker.reset) c [] fun _ _ => True where
  clean := hnew.symm ▸ hc
  moves := hnew.symm ▸ .refl _
  calls := hnew.symm ▸ .nil _
  result _ _ := trivial
  blind d hd := by
    obtain ⟨G, hG, rfl⟩ := hd
    exact ⟨rfl, .refl _⟩

theorem safe_checkProgram (p : Program) (hc : c.Clean) (hnew : c.reset = c) :
    Safe (checkProgram p) c ((Call.checkProgram p).calls c) fun _ _ => True := by
  let rest (c : Checker) : List (Call × Checker) :=
    (Call.inContext "declare types" (.declareTypes "" p.defs)).next c fun _ c =>
      (Call.inContext "declare" (.underPath "" (.declareMembers "" p.defs))).next c fun _ c =>
        (Call.inContext "declare" (.underPath "" (.declareFuncs "" p.defs))).next c fun _ c =>
          [(.checkAll p.functions, c)]
  have hcalls : (Call.checkProgram p).calls c = followed (modify Checker.reset) c fun _ => rest :=
    rfl
  rw [hcalls, checkProgram]
  refine (safe_reset hc hnew).andThen fun _ c₀ hc₀ _ _ => ?_
  refine Safe.next (.inContext "declare types" (.declareTypes "" p.defs))
    ((safe_declareTypes "" p.defs hc₀).inContext _) hc₀ (.of_nil rfl rfl trivial)
    fun _ c₁ hc₁ _ _ => ?_
  refine Safe.next (.inContext "declare" (.underPath "" (.declareMembers "" p.defs)))
    ((safe_declareMembers "" p.defs (hc₁.under _)).underPath.inContext _) hc₁
    (.of_nil rfl rfl trivial) fun _ c₂ hc₂ _ _ => ?_
  refine Safe.next (.inContext "declare" (.underPath "" (.declareFuncs "" p.defs)))
    ((safe_declareFuncs "" p.defs (hc₂.under _)).underPath.inContext _) hc₂
    (.of_nil rfl rfl trivial) fun _ c₃ hc₃ _ _ => ?_
  exact (safe_checkAll p.functions hc₃).call (x := .checkAll p.functions) hc₃
    (.of_nil rfl rfl trivial)

/-! ### All calls -/

/-- Any call from a clean state. -/
theorem Call.safe :
    ∀ (x : Call) {c : Checker}, c.Clean → x.Given c → Safe x.action c (x.parts c) x.Returns
  | .fresh, _, hc, _ => safe_fresh hc
  | .instantiate _, _, hc, hx => safe_instantiate hc hx.fits
  | .unify .., _, hc, hx => safe_unify hc (hx.first rfl) (hx.second rfl)
  | .record .., _, hc, hx => safe_record hc (hx.first rfl)
  | .declareName .., _, hc, hx => safe_declareName hc hx.fits
  | .insertGlobal .., _, hc, hx => safe_insertGlobal hc hx.fits
  | .unifyAt .., _, hc, hx => safe_unifyAt hc (hx.first rfl) (hx.second rfl)
  | .inferVar .., _, hc, hx => safe_inferVar hc hx.locals
  | .operationType .., _, hc, hx => safe_operationType hc (hx.first rfl) (hx.second rfl)
  | .conditionType .., _, hc, hx => safe_conditionType hc (hx.first rfl)
  | .lambdaParams .., _, hc, hx =>
    safe_lambdaParams hc fun t ht => hx.types t (Option.mem_toList.2 ht)
  | .infer _ _ _ e, _, hc, hx =>
    safe_infer e hc hx.locals fun t ht => hx.types t (Option.mem_toList.2 ht)
  | .inferList _ _ es, _, hc, hx => safe_inferList (safe_infers es) hc hx.locals
  | .expectAll _ _ _ es, _, hc, hx => safe_expectAll (safe_infers es) hc hx.locals (hx.first rfl)
  | .expectType .., _, hc, hx => safe_expectType hc hx.locals (hx.first rfl)
  | .applyArguments .., _, hc, hx => safe_applyArguments (fun j _ => safe_infer j.2) hc hx.locals
    (hx.first rfl)
  | .inferCases _ _ _ _ cs, _, hc, hx => safe_inferCases (safe_cases cs) hc hx.locals (hx.first rfl)
      fun t ht => hx.types t (List.mem_cons_of_mem _ (Option.mem_toList.2 ht))
  | .freshes ps, _, hc, _ => safe_freshes ps hc
  | .bindPattern _ _ _ p, _, hc, hx => safe_bindPattern p hc hx.locals (hx.first rfl)
  | .bindPatterns _ _ _ ps, _, hc, hx => safe_bindPatterns (safe_patterns ps) hc hx.locals hx.types
  | .assignLocal .., _, hc, hx => safe_assignLocal hc hx.locals (hx.first rfl)
  | .checkStmt _ _ _ s, _, hc, hx => safe_checkStmt s hc hx.locals (hx.first rfl)
  | .checkStmts _ _ _ ss, _, hc, hx => safe_checkStmts ss hc hx.locals (hx.first rfl)
  | .checkFunc f, _, hc, _ => safe_checkFunc f hc
  | .checkAll fs, _, hc, _ => safe_checkAll fs hc
  | .declareTypes path ds, _, hc, _ => safe_declareTypes path ds hc
  | .declareType path d, _, hc, _ => safe_declareType path d hc
  | .declareVariants n ps vs, _, hc, _ => safe_declareVariants n ps vs hc
  | .declareMembers path ds, _, hc, _ => safe_declareMembers path ds hc
  | .declareMember path d, _, hc, _ => safe_declareMember path d hc
  | .declareFunc n d, _, hc, _ => safe_declareFunc n d hc
  | .declareMethods owner ds, _, hc, _ => safe_declareMethods owner ds hc
  | .declareFuncs path ds, _, hc, _ => safe_declareFuncs path ds hc
  | .declareFuncsOf path d, _, hc, _ => safe_declareFuncsOf path d hc
  | .checkProgram p, _, hc, hx => safe_checkProgram p hc hx.fits
  | .inContext label x, _, hc, hx =>
    have hx' : x.Given _ := ⟨hx.locals, hx.types, hx.fits⟩
    ((Call.safe x hc hx').call hc hx').inContext label
  | .underPath path x, c, hc, hx =>
    have hx' : x.Given { c with scopePath := path } := ⟨hx.locals, hx.types, hx.fits⟩
    ((Call.safe x (hc.under path) hx').call (hc.under path) hx').underPath

/-! ### Positions -/

/-- A call ends before another one starts. -/
def Call.Before (a b : Call × Checker) : Prop := (after a.1.action a.2).unifier.Moves b.2.unifier

section Positions

variable {u u' : Unifier} {a b : Call × Checker} {l : List (Call × Checker)}

theorem Orderly.mem (h : Orderly u l u') (hb : b ∈ l) : b.2.Clean ∧ b.1.Given b.2 := by
  induction h with
  | nil => simp at hb
  | cons hc hx _ ih =>
    rcases List.mem_cons.1 hb with rfl | hb
    · exact ⟨hc, hx⟩
    · exact ih hb

theorem Orderly.moves (h : Orderly u l u') : u.Moves u' := by
  induction h with
  | nil => exact .refl _
  | cons hc hx _ ih => exact (Call.safe _ hc hx).moves.trans ih

/-- A call takes place between the start and the end. -/
theorem Orderly.moves_of_mem (h : Orderly u l u') (hb : b ∈ l) :
    u.Moves b.2.unifier ∧ (after b.1.action b.2).unifier.Moves u' := by
  induction h with
  | nil => simp at hb
  | cons hc hx hrest ih =>
    rcases List.mem_cons.1 hb with rfl | hb
    · exact ⟨.refl _, hrest.moves⟩
    · exact ⟨(Call.safe _ hc hx).moves.trans (ih hb).1, (ih hb).2⟩

/-- Of two calls the first one ends before the second one starts. -/
theorem Orderly.pairwise (h : Orderly u l u') : l.Pairwise Call.Before := by
  induction h with
  | nil => exact .nil
  | cons _ _ hrest ih => exact List.pairwise_cons.2 ⟨fun b hb => (hrest.moves_of_mem hb).1, ih⟩

theorem Call.calls_sublist_parts (x : Call) (c : Checker) : (x.calls c).Sublist (x.parts c) := by
  cases x with
  | fresh | instantiate | unify => exact List.nil_sublist _
  | _ => exact List.Sublist.refl _

/-- A call below a clean one is clean, and takes place between its start and its end. -/
theorem Call.at?_spec {path : List Nat} (hc : a.2.Clean) (hx : a.1.Given a.2)
    (h : Call.at? a path = some b) : (b.2.Clean ∧ b.1.Given b.2) ∧ a.2.unifier.Moves b.2.unifier ∧
    (after b.1.action b.2).unifier.Moves (after a.1.action a.2).unifier := by
  induction path generalizing a with
  | nil =>
    obtain rfl := Option.some.inj h
    exact ⟨⟨hc, hx⟩, .refl _, .refl _⟩
  | cons n ns ih =>
    obtain ⟨d, hd, h⟩ := Option.bind_eq_some_iff.1 h
    have hmem := (a.1.calls_sublist_parts a.2).subset (List.mem_of_getElem? hd)
    have hcalls := (Call.safe a.1 hc hx).calls
    obtain ⟨hstart, hend⟩ := hcalls.moves_of_mem hmem
    obtain ⟨hb, hstart', hend'⟩ := ih (hcalls.mem hmem).1 (hcalls.mem hmem).2 h
    exact ⟨hb, hstart.trans hstart', hend'.trans hend⟩

/-- What is below one call ends before what is below a later one starts. -/
theorem Call.before_of_lt {r : Call × Checker} {n m : Nat} {ns ms : List Nat} (hc : r.2.Clean)
    (hx : r.1.Given r.2) (hlt : n < m) (ha : Call.at? r (n :: ns) = some a)
    (hb : Call.at? r (m :: ms) = some b) : Call.Before a b := by
  obtain ⟨d, hd, ha⟩ := Option.bind_eq_some_iff.1 ha
  obtain ⟨e, he, hb⟩ := Option.bind_eq_some_iff.1 hb
  obtain ⟨hn, rfl⟩ := List.getElem?_eq_some_iff.1 hd
  obtain ⟨hm, rfl⟩ := List.getElem?_eq_some_iff.1 he
  have hcalls := (Call.safe r.1 hc hx).calls
  have hsub := r.1.calls_sublist_parts r.2
  have hbefore := List.pairwise_iff_getElem.1 (hcalls.pairwise.sublist hsub) n m hn hm hlt
  obtain ⟨hd₁, hd₂⟩ := hcalls.mem (hsub.subset (List.getElem_mem hn))
  obtain ⟨he₁, he₂⟩ := hcalls.mem (hsub.subset (List.getElem_mem hm))
  exact ((Call.at?_spec hd₁ hd₂ ha).2.2.trans hbefore).trans (Call.at?_spec he₁ he₂ hb).2.1

/-- Of two calls that make no calls, at two positions, one ends before the other one starts. -/
theorem Call.before_or_before {r : Call × Checker} {path path' : List Nat} (hc : r.2.Clean)
    (hx : r.1.Given r.2) (ha : Call.at? r path = some a) (hb : Call.at? r path' = some b)
    (hleaf : a.1.calls a.2 = []) (hleaf' : b.1.calls b.2 = []) (hne : path ≠ path') :
    Call.Before a b ∨ Call.Before b a := by
  induction path generalizing r path' with
  | nil =>
    cases path' with
    | nil => exact absurd rfl hne
    | cons m ms =>
      obtain rfl := Option.some.inj ha
      simp [Call.at?, hleaf] at hb
  | cons n ns ih =>
    cases path' with
    | nil =>
      obtain rfl := Option.some.inj hb
      simp [Call.at?, hleaf'] at ha
    | cons m ms =>
      rcases Nat.lt_trichotomy n m with hlt | rfl | hlt
      · exact .inl (Call.before_of_lt hc hx hlt ha hb)
      · obtain ⟨d, hd, ha⟩ := Option.bind_eq_some_iff.1 ha
        obtain ⟨e, he, hb⟩ := Option.bind_eq_some_iff.1 hb
        obtain rfl : d = e := Option.some.inj (hd.symm.trans he)
        have hmem := (r.1.calls_sublist_parts r.2).subset (List.mem_of_getElem? hd)
        obtain ⟨hd₁, hd₂⟩ := (Call.safe r.1 hc hx).calls.mem hmem
        exact ih hd₁ hd₂ ha hb fun h => hne (congrArg (n :: ·) h)
      · exact .inr (Call.before_of_lt hc hx hlt hb ha)

end Positions

/-- The variables that a use of a constructor makes do not occur in a later use of one. -/
theorem disjoint_of_before {k l : Constructor} {c d : Checker} (hk : k.Tidy) (hl : l.Tidy)
    (h : Call.Before (.instantiate k, c) (.instantiate l, d)) {v : String}
    (hv : (k.instantiate c.unifier).1.occurs v = true) :
    ¬(l.instantiate d.unifier).1.occurs v = true := by
  have hmade : (k.instantiate c.unifier).1.Over d.unifier.Made :=
    h.over_made (hk.replace (length_freshFor k.params c.unifier) (c.unifier.made_freshFor k.params))
  have hnew : (l.instantiate d.unifier).1.Over fun v => ¬d.unifier.Made v :=
    hl.replace (length_freshFor l.params d.unifier) (Unifier.not_made_freshFor l.params (.refl _))
  exact fun hv' => hnew v hv' (hmade v hv)

/-! ### The check of a program -/

/-- No type parameter leaks from a call: none is in the states before and after it nor in what it is
given or gives, it consists of calls of which the same holds, and it does the same whatever the
parameters that symbols declare are called, be it like a fresh variable. -/
structure Call.Sealed (x : Call) (c : Checker) : Prop where
  clean : c.Clean
  given : x.Given c
  cleanAfter : (after x.action c).Clean
  returns : ∀ r, outcome x.action c = .ok r → x.Returns (after x.action c).unifier r
  parts : Orderly c.unifier (x.parts c) (after x.action c).unifier
  blind : ∀ d, c.Respelled d → outcome x.action d = outcome x.action c ∧
    (after x.action c).Respelled (after x.action d)

theorem Call.sealed {x : Call} {c : Checker} (hc : c.Clean) (hx : x.Given c) : x.Sealed c where
  clean := hc
  given := hx
  cleanAfter := (Call.safe x hc hx).clean
  returns := (Call.safe x hc hx).result
  parts := (Call.safe x hc hx).calls
  blind := (Call.safe x hc hx).blind

theorem Checker.clean_new {o : CheckOptions} (ho : o.symbols = []) : (Checker.new o).Clean where
  bindings := by simp [Checker.new, Unifier.new, Subst.Over]
  types := by simp [Checker.new]
  funcs := by simp [Checker.new]
  globals := by
    have hbuiltin : (Checker.new o).globals = builtinFrame := by
      simp [Checker.new, Frame.insertAll, ho]
    exact hbuiltin ▸ builtinFrame_tidy

theorem Program.given_new (p : Program) (o : CheckOptions) :
    (Call.checkProgram p).Given (Checker.new o) :=
  .of_nil rfl rfl (Checker.reset_new_eq o)

theorem Program.use?_eq_some {p : Program} {o : CheckOptions} {path : List Nat} {t : Ty}
    (h : p.use? o path = some t) :
    ∃ k c, p.call? o path = some (.instantiate k, c) ∧ (k.instantiate c.unifier).1 = t := by
  unfold Program.use? at h
  split at h
  · next k c heq => exact ⟨k, c, heq, Option.some.inj h⟩
  · cases h

/-- Without symbols known beforehand, no type parameter leaks at any position of a check, and two
uses of constructors share no variable. -/
theorem Program.parameters_never_leak (p : Program) (o : CheckOptions) (ho : o.symbols = []) :
    (∀ path x c, p.call? o path = some (x, c) → x.Sealed c) ∧
      ∀ path path' t t', p.use? o path = some t → p.use? o path' = some t' → path ≠ path' →
        ∀ v, t.occurs v = true → ¬t'.occurs v = true := by
  have hc := Checker.clean_new ho
  have hx := p.given_new o
  refine ⟨fun path x c h => ?_, fun path path' t t' ht ht' hne v hv => ?_⟩
  · have hspec := (Call.at?_spec (a := (.checkProgram p, Checker.new o)) hc hx h).1
    exact Call.sealed hspec.1 hspec.2
  · obtain ⟨k, c, hk, rfl⟩ := Program.use?_eq_some ht
    obtain ⟨l, d, hl, rfl⟩ := Program.use?_eq_some ht'
    have hktidy : k.Tidy :=
      (Call.at?_spec (a := (.checkProgram p, Checker.new o)) hc hx hk).1.2.fits
    have hltidy : l.Tidy :=
      (Call.at?_spec (a := (.checkProgram p, Checker.new o)) hc hx hl).1.2.fits
    rcases Call.before_or_before (r := (.checkProgram p, Checker.new o)) hc hx hk hl rfl rfl
      hne with hbefore | hbefore
    · exact disjoint_of_before hktidy hltidy hbefore hv
    · exact fun hv' => disjoint_of_before hltidy hktidy hbefore hv' hv

/-- A box of anything, whose type parameter is spelled like the first fresh variable, and a function
that makes two boxes. -/
def twoBoxes : Program := ⟨[], [
  .object ⟨{}, "Box", ["t_1"], [⟨{}, "value", .name {} "t_1" []⟩], []⟩,
  .func ⟨{}, "main", [], none, ⟨{}, [.ret {} (some (.tuple {} [
    .call {} (.var {} "Box") [.uint {} 1] [], .call {} (.var {} "Box") [.bool {} true] []]))]⟩,
  true⟩]⟩

/-- The first fresh variable is the result of the function. The boxes get others, and hold
different things. -/
theorem parameters_never_leak_twoBoxes : (Call.checkProgram twoBoxes).Sealed (Checker.new {}) ∧
    (twoBoxes.check {}).2.funcType? "main" =
      some (.tuple [.named "Box" [.u24], .named "Box" [.bool]]) ∧
    ∃ path path', twoBoxes.use? {} path = some (.func (.var "t_2") (.named "Box" [.var "t_2"])) ∧
      twoBoxes.use? {} path' = some (.func (.var "t_3") (.named "Box" [.var "t_3"])) ∧
      ¬(Ty.func (.var "t_3") (.named "Box" [.var "t_3"])).occurs "t_2" = true := by
  obtain ⟨hsealed, hdisjoint⟩ := Program.parameters_never_leak twoBoxes {} rfl
  have hfirst : twoBoxes.use? {} [3, 0, 0, 1, 0, 0, 0, 0, 0, 0, 0, 0] =
    some (.func (.var "t_2") (.named "Box" [.var "t_2"])) := by
    decide +kernel
  have hsecond : twoBoxes.use? {} [3, 0, 0, 1, 0, 0, 0, 0, 1, 0, 0, 0, 0] =
    some (.func (.var "t_3") (.named "Box" [.var "t_3"])) := by
    decide +kernel
  exact ⟨hsealed [] _ _ rfl, by decide +kernel, _, _, hfirst, hsecond,
    hdisjoint _ _ _ _ hfirst hsecond (by decide) "t_2" (by decide)⟩

end FunRiscv

import Mathlib
import FunRiscv.Proofs.Typing.Recording

/-!
# What holds of every step

Inferring and checking are made of a few steps: they apply the substitution, make fresh variables,
unify, record types and look names up. What holds of these and of actions one after the other holds
of inferring an expression and of checking a statement.

* `Compositional`: a property of actions that holds of every step, and of actions made of such
  actions. An operation on two types is one step, whatever becomes of a failed unification in it.
* `Closed`: a property that holds of unifying as well, so that operations need no mention.
* `Compositional.infer`, `Compositional.bindPattern`, `Compositional.checkStmt`: it holds of
  inferring, binding and checking, by recursion on the tree.
-/

namespace FunRiscv.Checking

/-- The type of a field of a named type, from the symbol of its name. -/
def namedField (loc : Location) (field n : String) (args : List Ty) : Option Symbol → Checking Ty
  | some (.type s) =>
    if s.constructor?.isNone || s.params.length ≠ args.length then fail loc
      (.noFields field (.named n args))
    else match s.fields.lookup field with
      | some f => return f.replace (Ty.parameterMap s.params args)
      | none => fail loc (.noField n field)
  | _ => fail loc (.noFields field (.named n args))

/-- A property of actions that holds of every step, and of actions made of such actions. -/
structure Compositional (P : ∀ {α : Type}, Checking α → Prop) : Prop where
  pure {α : Type} (a : α) : P (pure a : Checking α)
  bind {α β : Type} {m : Checking α} {f : α → Checking β} : P m → (∀ a, P (f a)) → P (m >>= f)
  failWith {α : Type} (e : TypeError) : P (failWith e : Checking α)
  applied (t : Ty) : P (applied t)
  fresh : P fresh
  unifyAt (a b : Ty) (loc : Location) : P (unifyAt a b loc)
  operationType (loc : Location) (op : Operator) (l r : Ty) : P (operationType loc op l r)
  record (i : Nat) (t : Ty) : P (record i t)
  instantiate (k : Constructor) : P (instantiate k)
  find? (locals : List Frame) (n : String) : P (find? locals n)
  global (n : String) : P (do return (← get).globals.find? n)

namespace Compositional

variable {P : ∀ {α : Type}, Checking α → Prop}

/-! ### Steps -/

section Steps

variable (hP : Compositional P)

include hP

theorem fail {α : Type} (loc : Location) (cause : TypeCause) : P (fail loc cause : Checking α) :=
  hP.failWith _

theorem mapM {α β : Type} {act : α → Checking β} {xs : List α} (h : ∀ x ∈ xs, P (act x)) :
    P (xs.mapM act) := by
  induction xs with
  | nil => exact hP.pure _
  | cons x xs ih =>
    rw [List.forall_mem_cons] at h
    rw [List.mapM_cons]
    exact hP.bind h.1 fun _ => hP.bind (ih h.2) fun _ => hP.pure _

theorem appliedHint (t? : Option Ty) : P (t?.mapM Checking.applied) := by
  cases t? with
  | none => exact hP.pure _
  | some t => exact hP.bind (hP.applied t) fun u => hP.pure (some u)

theorem recorded (i : Nat) (t : Ty) : P (do
    Checking.record i t
    return t) := hP.bind (hP.record i t) fun _ => hP.pure t

theorem resolveName (loc : Location) (n : String) (args : List Ty) :
    P (resolveName loc n args) := by
  rw [Checking.resolveName]
  refine hP.bind (hP.find? _ _) fun s => ?_
  split
  · split
    · exact hP.fail _ _
    · split <;> exact hP.pure _
  · exact hP.fail _ _

mutual

theorem resolve (ps : List String) : ∀ e : TypeExpr, P (resolve ps e)
  | .name loc n args => by
    rw [Checking.resolve]
    split
    · exact hP.pure _
    · exact hP.bind (resolveList ps args) fun ts => hP.resolveName loc n ts
  | .func _ p r => by
    rw [Checking.resolve]
    exact hP.bind (resolve ps p) fun _ => hP.bind (resolve ps r) fun _ => hP.pure _
  | .tuple _ elems => by
    rw [Checking.resolve]
    exact hP.bind (resolveList ps elems) fun _ => hP.pure _
  | .missing => by
    rw [Checking.resolve]
    exact hP.fail _ _

theorem resolveList (ps : List String) : ∀ es : List TypeExpr, P (resolveList ps es)
  | [] => by
    rw [Checking.resolveList]
    exact hP.pure _
  | e :: es => by
    rw [Checking.resolveList]
    exact hP.bind (resolve ps e) fun _ => hP.bind (resolveList ps es) fun _ => hP.pure _

end

theorem inferVar (locals : List Frame) (loc : Location) (n : String) :
    P (inferVar locals loc n) := by
  rw [Checking.inferVar]
  refine hP.bind (hP.find? _ _) fun s => ?_
  split
  · exact hP.pure _
  · exact hP.pure _
  · split
    · exact hP.instantiate _
    · exact hP.fail _ _
  · dsimp only
    split
    · refine hP.bind (hP.find? _ _) fun owner => ?_
      split <;> exact hP.fail _ _
    · refine hP.bind (hP.pure _) fun owner => ?_
      split <;> exact hP.fail _ _

theorem conditionType (loc : Location) (t : Ty) : P (conditionType loc t) := by
  rw [Checking.conditionType]
  refine hP.bind (hP.applied t) fun u => ?_
  split
  · exact hP.pure _
  · exact hP.unifyAt _ _ _
  · split
    · exact hP.pure _
    · exact hP.fail _ _

theorem namedField (loc : Location) (field n : String) (args : List Ty) (s? : Option Symbol) :
    P (namedField loc field n args s?) := by
  unfold Checking.namedField
  split
  · split
    · exact hP.fail _ _
    · split
      · exact hP.pure _
      · exact hP.fail _ _
  · exact hP.fail _ _

theorem fieldType (loc : Location) (t : Ty) (field : String) : P (fieldType loc t field) := by
  rw [Checking.fieldType]
  refine hP.bind (hP.applied t) fun u => ?_
  split
  · exact hP.pure _
  · dsimp only
    split
    · exact hP.pure _
    · exact hP.fail _ _
  · next n args =>
    -- The table is read for one name only.
    have hsplit := hP.bind (hP.global n) fun s => hP.namedField loc field n args s
    rw [bind_assoc] at hsplit
    exact hsplit
  · exact hP.fail _ _

theorem lambdaHint (expected : Option Ty) : P (lambdaHint expected) := by
  rw [Checking.lambdaHint]
  refine hP.bind (hP.appliedHint expected) fun u => ?_
  split <;> exact hP.pure _

theorem lambdaParams (hint : Option Ty) (ps : List Param) : P (lambdaParams hint ps) := by
  induction ps generalizing hint with
  | nil => exact hP.pure _
  | cons p ps ih =>
    have hrest : ∀ x : Ty × Option Ty, P (do
        let ts ← Checking.lambdaParams x.2 ps
        return x.1 :: ts) := fun x => hP.bind (ih x.2) fun _ => hP.pure _
    rw [Checking.lambdaParams]
    split
    · simp only [pure_bind]
      exact hP.bind (hP.resolve _ _) fun t => hrest (t, hint)
    · refine hP.bind (hP.appliedHint hint) fun u => ?_
      split
      · simp only [pure_bind]
        exact hrest (_, some _)
      · simp only [pure_bind]
        exact hP.bind hP.fresh fun t => hrest (t, none)

theorem calledFields (locals : List Frame) (f : Expr) : P (calledFields locals f) := by
  rw [Checking.calledFields.eq_def]
  split
  · refine hP.bind (hP.find? _ _) fun s => ?_
    split <;> exact hP.pure _
  · exact hP.pure _

theorem assignLocal (locals : List Frame) (n : String) (t : Ty) (loc : Location) :
    P (assignLocal locals n t loc) := by
  rw [Checking.assignLocal]
  split
  · exact hP.bind (hP.unifyAt _ _ _) fun _ => hP.pure _
  · exact hP.pure _

/-! ### Expressions and patterns -/

theorem applyArguments (loc : Location) (t : Ty) {as : List Argument}
    (has : ∀ a ∈ as, ∀ expected, P (a.infer expected)) : P (applyArguments loc t as) := by
  induction as generalizing t with
  | nil => exact hP.pure _
  | cons a as ih =>
    rw [List.forall_mem_cons] at has
    rw [Checking.applyArguments]
    refine hP.bind (hP.applied t) fun u => ?_
    split
    · rw [Argument.expectType]
      exact hP.bind (hP.bind (has.1 _) fun _ => hP.unifyAt _ _ _) fun _ => ih _ has.2
    · exact hP.bind (has.1 _) fun _ => ih _ has.2
    · exact hP.bind (has.1 _) fun _ =>
        hP.bind hP.fresh fun _ => hP.bind (hP.unifyAt _ _ _) fun _ => ih _ has.2
    · exact hP.fail _ _

end Steps

mutual

/-- The property holds of inferring an expression. -/
theorem infer (hP : Compositional P) :
    ∀ (e : Expr) (locals : List Frame) (i : Nat) (expected : Option Ty),
      P (infer locals i expected e)
  | .uint .., _, _, _ | .int .., _, _, _ | .float .., _, _, _ | .str .., _, _, _
  | .bool .., _, _, _ => by
    rw [Checking.infer]
    exact hP.recorded _ _
  | .eraser _, _, _, _ => by
    rw [Checking.infer]
    exact hP.bind hP.fresh fun _ => hP.recorded _ _
  | .var loc n, locals, _, _ => by
    rw [Checking.infer]
    exact hP.bind (hP.inferVar locals loc n) fun _ => hP.recorded _ _
  | .tuple _ es, locals, i, _ => by
    rw [Checking.infer]
    exact hP.bind (inferList hP es locals _) fun _ => hP.recorded _ _
  | .list _ [], _, _, _ => by
    rw [Checking.infer]
    exact hP.bind hP.fresh fun _ => hP.recorded _ _
  | .list _ (e :: es), locals, i, _ => by
    rw [Checking.infer]
    exact hP.bind (infer hP e _ _ _) fun t =>
      hP.bind (expectAll hP es _ _ t) fun _ => hP.recorded _ _
  | .binOp loc op l r, locals, i, _ => by
    rw [Checking.infer]
    exact hP.bind (infer hP l _ _ _) fun a =>
      hP.bind (infer hP r _ _ _) fun b =>
        hP.bind (hP.operationType loc op a b) fun _ => hP.recorded _ _
  | .call loc f args named, locals, i, _ => by
    rw [Checking.infer]
    refine hP.bind (infer hP f _ _ _) fun callee =>
      hP.bind (hP.calledFields locals f) fun fields => ?_
    split
    · exact hP.failWith _
    · next placed hplaced =>
      refine hP.bind (hP.applyArguments loc callee fun a ha => ?_) fun _ => hP.recorded _ _
      rcases List.mem_append.1 ((placeArguments_perm hplaced).mem_iff.1 ha) with ha | ha
      · exact arguments hP args _ _ a ha
      · exact namedArguments hP named _ _ a ha
  | .lambda _ ps b, locals, i, expected => by
    rw [Checking.infer]
    exact hP.bind (hP.lambdaHint expected) fun hint =>
      hP.bind (hP.lambdaParams hint ps) fun ts => hP.bind (infer hP b _ _ _) fun _ =>
      hP.recorded _ _
  | .ifElse _ x a b, locals, i, _ => by
    rw [Checking.infer]
    exact hP.bind (infer hP x _ _ _) fun cond =>
      hP.bind (hP.conditionType x.loc cond) fun _ => hP.bind (infer hP a _ _ _) fun t =>
      hP.bind (infer hP b _ _ _) fun u => hP.bind (hP.unifyAt t u b.loc) fun _ => hP.recorded _ _
  | .matchOn loc x cs, locals, i, _ => by
    rw [Checking.infer]
    refine hP.bind (infer hP x _ _ _) fun t =>
      hP.bind (inferCases hP cs _ _ t none) fun result => ?_
    cases result with
    | none => exact hP.fail _ _
    | some u => exact hP.recorded _ _
  | .access loc x field, locals, i, _ => by
    rw [Checking.infer]
    exact hP.bind (infer hP x _ _ _) fun t =>
      hP.bind (hP.fieldType loc t field) fun _ => hP.recorded _ _
  | .missing, _, _, _ => by
    rw [Checking.infer]
    exact hP.fail _ _

theorem inferList (hP : Compositional P) :
    ∀ (es : List Expr) (locals : List Frame) (i : Nat), P (inferList locals i es)
  | [], _, _ => by
    rw [Checking.inferList]
    exact hP.pure _
  | e :: es, locals, i => by
    rw [Checking.inferList]
    exact hP.bind (infer hP e _ _ _) fun _ => hP.bind (inferList hP es _ _) fun _ => hP.pure _

theorem expectAll (hP : Compositional P) :
    ∀ (es : List Expr) (locals : List Frame) (i : Nat) (t : Ty), P (expectAll locals i t es)
  | [], _, _, _ => by
    rw [Checking.expectAll]
    exact hP.pure _
  | e :: es, locals, i, t => by
    rw [Checking.expectAll]
    exact hP.bind (infer hP e _ _ _) fun u =>
      hP.bind (hP.unifyAt t u e.loc) fun _ => expectAll hP es _ _ t

theorem arguments (hP : Compositional P) :
    ∀ (es : List Expr) (locals : List Frame) (i : Nat), ∀ a ∈ arguments locals i es,
      ∀ expected, P (a.infer expected)
  | [], _, _ => by simp [Checking.arguments]
  | e :: es, locals, i => by
    rw [Checking.arguments]
    exact List.forall_mem_cons.2 ⟨infer hP e locals i, arguments hP es _ _⟩

theorem namedArguments (hP : Compositional P) :
    ∀ (ns : List NamedArg) (locals : List Frame) (i : Nat),
      ∀ a ∈ (namedArguments locals i ns).map (·.value), ∀ expected, P (a.infer expected)
  | [], _, _ => by simp [Checking.namedArguments]
  | .mk loc n e :: ns, locals, i => by
    rw [Checking.namedArguments, List.map_cons]
    exact List.forall_mem_cons.2 ⟨infer hP e locals i, namedArguments hP ns _ _⟩

theorem inferCases (hP : Compositional P) :
    ∀ (cs : List Case) (locals : List Frame) (i : Nat) (t : Ty) (result : Option Ty),
      P (inferCases locals i t result cs)
  | [], _, _, _, _ => by
    rw [Checking.inferCases]
    exact hP.pure _
  | .mk loc p b :: cs, locals, i, t, result => by
    rw [Checking.inferCases]
    refine hP.bind (bindPattern hP p _ _ _) fun inner => hP.bind (infer hP b _ _ _) fun found => ?_
    cases result with
    | none =>
      simp only [pure_bind]
      exact inferCases hP cs _ _ _ _
    | some u =>
      simp only [pure_bind]
      exact hP.bind (hP.unifyAt u found b.loc) fun _ => inferCases hP cs _ _ _ _

/-- The property holds of binding a pattern. -/
theorem bindPattern (hP : Compositional P) :
    ∀ (p : Pattern) (locals : List Frame) (i : Nat) (t : Ty), P (bindPattern locals i t p)
  | .wild _, _, _, _ | .var _ _, _, _, _ => by
    rw [Checking.bindPattern]
    exact hP.pure _
  | .lit loc e, locals, i, t => by
    rw [Checking.bindPattern]
    exact hP.bind (infer hP e _ _ _) fun found =>
      hP.bind (hP.unifyAt t found loc) fun _ => hP.pure _
  | .cons loc n ps, locals, i, t => by
    rw [Checking.bindPattern]
    refine hP.bind (hP.find? _ _) fun s => ?_
    split
    · exact hP.fail _ _
    · refine hP.bind (hP.instantiate _) fun u => ?_
      dsimp only
      split
      · exact hP.fail _ _
      · exact hP.bind (hP.unifyAt _ _ _) fun _ => bindPatterns hP ps _ _ _
  | .tuple loc ps, locals, i, t => by
    rw [Checking.bindPattern]
    exact hP.bind (hP.mapM fun _ _ => hP.fresh) fun ts =>
      hP.bind (hP.unifyAt _ _ _) fun _ => bindPatterns hP ps _ _ _
  | .missing, _, _, _ => by
    rw [Checking.bindPattern]
    exact hP.fail _ _

theorem bindPatterns (hP : Compositional P) :
    ∀ (ps : List Pattern) (locals : List Frame) (i : Nat) (ts : List Ty),
      P (bindPatterns locals i ts ps)
  | [], _, _, _ => by
    rw [Checking.bindPatterns]
    exact hP.pure _
  | _ :: _, _, _, [] => by
    rw [Checking.bindPatterns]
    exact hP.pure _
  | p :: ps, locals, i, t :: ts => by
    rw [Checking.bindPatterns]
    exact hP.bind (hP.applied t) fun u =>
      hP.bind (bindPattern hP p _ _ u) fun _ => bindPatterns hP ps _ _ ts

end

theorem expectType (hP : Compositional P) (locals : List Frame) (i : Nat) (t : Ty) (e : Expr) :
    P (expectType locals i t e) := by
  rw [Checking.expectType]
  exact hP.bind (hP.infer e _ _ _) fun _ => hP.unifyAt _ _ _

/-! ### Statements -/

mutual

/-- The property holds of checking a statement. -/
theorem checkStmt (hP : Compositional P) (result : Ty) :
    ∀ (s : Stmt) (locals : List Frame) (i : Nat), P (checkStmt result locals i s)
  | .ret loc none, _, _ => by
    rw [Checking.checkStmt]
    exact hP.bind (hP.unifyAt _ _ _) fun _ => hP.pure _
  | .ret _ (some e), locals, i => by
    rw [Checking.checkStmt]
    exact hP.bind (hP.expectType _ _ _ e) fun _ => hP.pure _
  | .assign loc n none e, locals, i => by
    rw [Checking.checkStmt]
    exact hP.bind (hP.infer e _ _ _) fun _ => hP.bind (hP.assignLocal _ _ _ _) fun _ => hP.pure _
  | .assign loc n (some a) e, locals, i => by
    rw [Checking.checkStmt]
    dsimp only
    refine hP.bind (hP.resolve _ a) fun _ => hP.bind (hP.expectType _ _ _ e) fun _ => ?_
    simp only [pure_bind]
    exact hP.bind (hP.assignLocal _ _ _ _) fun _ => hP.pure _
  | .use _ n e, locals, i | .expr _ e, locals, i => by
    rw [Checking.checkStmt]
    exact hP.bind (hP.infer e _ _ _) fun _ => hP.pure _
  | .ifThen _ x _ a, locals, i => by
    rw [Checking.checkStmt]
    exact hP.bind (hP.infer x _ _ _) fun _ =>
      hP.bind (hP.conditionType _ _) fun _ =>
        hP.bind (checkStmts hP result a _ _) fun _ => hP.pure _
  | .ifElse _ x _ a _ b, locals, i => by
    rw [Checking.checkStmt]
    exact hP.bind (hP.infer x _ _ _) fun _ =>
      hP.bind (hP.conditionType _ _) fun _ => hP.bind (checkStmts hP result a _ _) fun _ =>
      hP.bind (checkStmts hP result b _ _) fun _ => hP.pure _
  | .missing, _, _ => by
    rw [Checking.checkStmt]
    exact hP.fail _ _

theorem checkStmts (hP : Compositional P) (result : Ty) :
    ∀ (ss : List Stmt) (locals : List Frame) (i : Nat), P (checkStmts result locals i ss)
  | [], _, _ => by
    rw [Checking.checkStmts]
    exact hP.pure _
  | s :: ss, locals, i => by
    rw [Checking.checkStmts]
    exact hP.bind (checkStmt hP result s _ _) fun _ =>
      hP.bind (checkStmts hP result ss _ _) fun _ => hP.pure _

end

end Compositional

/-! ### Unifying as a step -/

/-- A property of actions that holds of every step, unifying included, and of actions
made of such actions. -/
structure Closed (P : ∀ {α : Type}, Checking α → Prop) : Prop where
  pure {α : Type} (a : α) : P (pure a : Checking α)
  bind {α β : Type} {m : Checking α} {f : α → Checking β} : P m → (∀ a, P (f a)) → P (m >>= f)
  failWith {α : Type} (e : TypeError) : P (failWith e : Checking α)
  applied (t : Ty) : P (applied t)
  fresh : P fresh
  unify (a b : Ty) : P (unify a b)
  record (i : Nat) (t : Ty) : P (record i t)
  instantiate (k : Constructor) : P (instantiate k)
  find? (locals : List Frame) (n : String) : P (find? locals n)
  global (n : String) : P (do return (← get).globals.find? n)

namespace Closed

variable {P : ∀ {α : Type}, Checking α → Prop} (hP : Closed P)

include hP

theorem unifyAt (a b : Ty) (loc : Location) : P (unifyAt a b loc) := by
  rw [Checking.unifyAt]
  refine hP.bind (hP.unify a b) fun r => ?_
  cases r with
  | error e => exact hP.failWith _
  | ok => exact hP.pure _

theorem incompatible {α : Type} (loc : Location) (op : Operator) (l r : Ty) :
    P (incompatible loc op l r : Checking α) := by
  rw [Checking.incompatible]
  exact hP.bind (hP.applied l) fun _ => hP.bind (hP.applied r) fun _ => hP.failWith _

theorem sameOperands (loc : Location) (op : Operator) (l r : Ty) (test : Ty → Bool) :
    P (sameOperands loc op l r test) := by
  have hlast : ∀ t : Ty, P (if t.isVar || test t then Pure.pure t else
    Checking.incompatible loc op l r : Checking Ty) := by
    intro t
    split
    · exact hP.pure _
    · exact hP.incompatible _ _ _ _
  rw [Checking.sameOperands]
  refine hP.bind (hP.unify l r) fun result => ?_
  cases result with
  | error e => exact hP.incompatible _ _ _ _
  | ok =>
    refine hP.bind (hP.applied l) fun a => ?_
    dsimp only
    split
    · exact hP.bind (hP.applied r) hlast
    · exact hP.bind (hP.pure _) hlast

theorem operationType (loc : Location) (op : Operator) (l r : Ty) :
    P (operationType loc op l r) := by
  rw [Checking.operationType]
  split
  · exact hP.sameOperands _ _ _ _ _
  · exact hP.sameOperands _ _ _ _ _
  · refine hP.bind (hP.unify l r) fun result => ?_
    cases result with
    | error e => exact hP.incompatible _ _ _ _
    | ok => exact hP.pure _
  · refine hP.bind (hP.applied l) fun a => hP.bind (hP.applied r) fun b => ?_
    split
    · exact hP.pure _
    · exact hP.incompatible _ _ _ _
  · refine hP.bind (hP.unify .f24 l) fun result => ?_
    cases result with
    | error e => exact hP.incompatible _ _ _ _
    | ok =>
      refine hP.bind (hP.unify .f24 r) fun result => ?_
      cases result with
      | error e => exact hP.incompatible _ _ _ _
      | ok => exact hP.pure _

/-- What holds of unifying holds of every operation. -/
theorem compositional : Compositional P where
  pure := hP.pure
  bind := hP.bind
  failWith := hP.failWith
  applied := hP.applied
  fresh := hP.fresh
  unifyAt := hP.unifyAt
  operationType := hP.operationType
  record := hP.record
  instantiate := hP.instantiate
  find? := hP.find?
  global := hP.global

end Closed

end FunRiscv.Checking

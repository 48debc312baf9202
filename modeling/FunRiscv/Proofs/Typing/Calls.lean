import Mathlib
import FunRiscv.Proofs.Typing.Closed
import FunRiscv.Proofs.Typing.Rounds

/-!
# The calls of a check

A check is made of calls, each of which makes further calls or changes the checker in one step. The
points of a check are where its calls start and where they end.

* `Call`: a call, with what it is given.  `Call.action`: what it does.
* `Call.calls`: the calls that a call makes from a state, in order, each with the
  state it starts from.
* `Program.call?`: the call at a position of a check. `Program.use?`: the type that a
  constructor gets there.
-/

namespace FunRiscv

open Checking

/-! ### Actions step by step -/

namespace Checking

variable {α β : Type}

/-- How an action ends. -/
def outcome (m : Checking α) (c : Checker) : Except (Traced TypeError) α :=
  ((ExceptT.run m).run c).1

/-- The checker after an action, also after a failure. -/
def after (m : Checking α) (c : Checker) : Checker := ((ExceptT.run m).run c).2

/-- What is next where an action succeeds; nothing is where it fails. -/
def followed (m : Checking α) (c : Checker) (next : α → Checker → List β) : List β :=
  match outcome m c with
  | .ok a => next a (after m c)
  | .error _ => []

end Checking

/-! ### Calls -/

/-- A call, with what it is given. -/
inductive Call where
  -- Steps.
  | fresh
  | instantiate (k : Constructor)
  | unify (a b : Ty)
  | record (i : Nat) (t : Ty)
  | declareName (name : String) (s : Symbol) (loc : Location)
  | insertGlobal (name : String) (s : Symbol)
  -- Expressions and patterns.
  | unifyAt (a b : Ty) (loc : Location)
  | inferVar (locals : List Frame) (loc : Location) (name : String)
  | operationType (loc : Location) (op : Operator) (l r : Ty)
  | conditionType (loc : Location) (t : Ty)
  | lambdaParams (hint : Option Ty) (ps : List Param)
  | infer (locals : List Frame) (i : Nat) (expected : Option Ty) (e : Expr)
  | inferList (locals : List Frame) (i : Nat) (es : List Expr)
  | expectAll (locals : List Frame) (i : Nat) (t : Ty) (es : List Expr)
  | expectType (locals : List Frame) (i : Nat) (t : Ty) (e : Expr)
  | applyArguments (locals : List Frame) (loc : Location) (t : Ty) (js : List (Nat × Expr))
  | inferCases (locals : List Frame) (i : Nat) (scrutinee : Ty) (result : Option Ty)
    (cs : List Case)
  | freshes (ps : List Pattern)
  | bindPattern (locals : List Frame) (i : Nat) (t : Ty) (p : Pattern)
  | bindPatterns (locals : List Frame) (i : Nat) (ts : List Ty) (ps : List Pattern)
  -- Statements and functions.
  | assignLocal (locals : List Frame) (name : String) (t : Ty) (loc : Location)
  | checkStmt (result : Ty) (locals : List Frame) (i : Nat) (s : Stmt)
  | checkStmts (result : Ty) (locals : List Frame) (i : Nat) (ss : List Stmt)
  | checkFunc (f : NamedFunction)
  | checkAll (fs : List NamedFunction)
  -- Declarations.
  | declareTypes (path : String) (ds : List Definition)
  | declareType (path : String) (d : Definition)
  | declareVariants (name : String) (params : List String) (vs : List Variant)
  | declareMembers (path : String) (ds : List Definition)
  | declareMember (path : String) (d : Definition)
  | declareFunc (name : String) (d : FuncDef)
  | declareMethods (owner : String) (ds : List FuncDef)
  | declareFuncs (path : String) (ds : List Definition)
  | declareFuncsOf (path : String) (d : Definition)
  | checkProgram (p : Program)
  -- Calls under a context or a scope path.
  | inContext (label : String) (x : Call)
  | underPath (path : String) (x : Call)

namespace Call

/-- The result of a call. -/
def Result : Call → Type
  | fresh | instantiate _ | inferVar .. | operationType .. | infer .. | applyArguments .. => Ty
  | unify .. => Except TypeError Unit
  | inferCases .. => Option Ty
  | lambdaParams .. | inferList .. | freshes _ => List Ty
  | bindPattern .. | bindPatterns .. | assignLocal .. => List Frame
  | checkStmt .. => List Frame × Bool
  | checkStmts .. => Bool
  | inContext _ x | underPath _ x => x.Result
  | _ => Unit

/-- What a call does. -/
def action : (x : Call) → Checking x.Result
  | fresh => Checking.fresh
  | instantiate k => Checking.instantiate k
  | unify a b => Checking.unify a b
  | record i t => Checking.record i t
  | declareName n s loc => Checking.declareName n s loc
  | insertGlobal n s => Checking.insertGlobal n s
  | unifyAt a b loc => Checking.unifyAt a b loc
  | inferVar locals loc n => Checking.inferVar locals loc n
  | operationType loc op l r => Checking.operationType loc op l r
  | conditionType loc t => Checking.conditionType loc t
  | lambdaParams hint ps => Checking.lambdaParams hint ps
  | infer locals i expected e => Checking.infer locals i expected e
  | inferList locals i es => Checking.inferList locals i es
  | expectAll locals i t es => Checking.expectAll locals i t es
  | expectType locals i t e => Checking.expectType locals i t e
  | applyArguments locals loc t js => Checking.applyArguments loc t (js.map (argument locals))
  | inferCases locals i scrutinee result cs => Checking.inferCases locals i scrutinee result cs
  | freshes ps => ps.mapM fun _ => Checking.fresh
  | bindPattern locals i t p => Checking.bindPattern locals i t p
  | bindPatterns locals i ts ps => Checking.bindPatterns locals i ts ps
  | assignLocal locals n t loc => Checking.assignLocal locals n t loc
  | checkStmt result locals i s => Checking.checkStmt result locals i s
  | checkStmts result locals i ss => Checking.checkStmts result locals i ss
  | checkFunc f => Checking.checkFunc f.name f.func
  | checkAll fs => FunRiscv.checkAll fs
  | declareTypes path ds => Checking.declareTypes path ds
  | declareType path d => Checking.declareType path d
  | declareVariants n ps vs => (vs.forM fun v => do
      let fields ← FunRiscv.inContext ("variant " ++ v.name) (fieldTypes ps v.fields)
      Checking.declareName (n ++ "/" ++ v.name)
        (.constructor (constructorOf (n ++ "/" ++ v.name) n ps fields)) v.loc : Checking Unit)
  | declareMembers path ds => Checking.declareMembers path ds
  | declareMember path d => Checking.declareMember path d
  | declareFunc n d => Checking.declareFunc n d
  | declareMethods owner ds =>
    (ds.forM fun f => Checking.declareFunc (owner ++ "/" ++ f.name) f : Checking Unit)
  | declareFuncs path ds => Checking.declareFuncs path ds
  | declareFuncsOf path d => Checking.declareFuncsOf path d
  | checkProgram p => Checking.checkProgram p
  | inContext label x => FunRiscv.inContext label x.action
  | underPath path x => Checking.underPath path x.action

/-- The local variables at hand in a call. -/
def locals : Call → List Frame
  | inferVar locals _ _ | infer locals _ _ _ | inferList locals _ _ | expectAll locals _ _ _
  | expectType locals _ _ _
  | applyArguments locals _ _ _ | inferCases locals _ _ _ _ | bindPattern locals _ _ _
  | bindPatterns locals _ _ _
  | assignLocal locals _ _ _ | checkStmt _ locals _ _ | checkStmts _ locals _ _ => locals
  | inContext _ x | underPath _ x => x.locals
  | _ => []

/-- The other types at hand in a call. -/
def types : Call → List Ty
  | unify a b | unifyAt a b _ | operationType _ _ a b => [a, b]
  | record _ t | conditionType _ t | expectAll _ _ t _ | expectType _ _ t _ | applyArguments _ _ t _
  | bindPattern _ _ t _
  | assignLocal _ _ t _ | checkStmt t _ _ _ | checkStmts t _ _ _ => [t]
  | lambdaParams t? _ | infer _ _ t? _ => t?.toList
  | inferCases _ _ t t? _ => t :: t?.toList
  | bindPatterns _ _ ts _ => ts
  | inContext _ x | underPath _ x => x.types
  | _ => []

/-- A call and what is next where it succeeds. -/
def next (x : Call) (c : Checker) (rest : x.Result → Checker → List (Call × Checker)) :
    List (Call × Checker) :=
  (x, c) :: followed x.action c rest

end Call

/-! ### The calls of a call -/

/-- The calls that inferring the expression of number `i` makes. -/
def Expr.calls (locals : List Frame) (i : Nat) (expected : Option Ty) (c : Checker) :
    Expr → List (Call × Checker)
  | .uint .. => [(.record i .u24, c)]
  | .int .. => [(.record i .i24, c)]
  | .float .. => [(.record i .f24, c)]
  | .str .. => [(.record i .string, c)]
  | .bool .. => [(.record i .bool, c)]
  | .eraser _ => Call.fresh.next c fun t c => [(.record i t, c)]
  | .var loc n => (Call.inferVar locals loc n).next c fun t c => [(.record i t, c)]
  | .tuple _ es =>
    (Call.inferList locals (i + 1) es).next c fun ts c => [(.record i (.tuple ts), c)]
  | .list _ [] => Call.fresh.next c fun t c => [(.record i (.listOf t), c)]
  | .list _ (e :: es) => (Call.infer locals (i + 1) none e).next c fun t c =>
    (Call.expectAll locals (i + 1 + e.nodeCount) t es).next c fun _ c =>
      [(.record i (.listOf t), c)]
  | .binOp loc op l r => (Call.infer locals (i + 1) none l).next c fun a c =>
    (Call.infer locals (i + 1 + l.nodeCount) none r).next c fun b c =>
      (Call.operationType loc op a b).next c fun t c => [(.record i t, c)]
  | .call loc f args named => (Call.infer locals (i + 1) none f).next c fun callee c =>
    followed (calledFields locals f) c fun fields c =>
      match placeArguments loc fields (jobs (i + 1 + f.nodeCount) args)
        (namedJobs (i + 1 + f.nodeCount + exprsNodeCount args) named) with
      | .error _ => []
      | .ok js => (Call.applyArguments locals loc callee js).next c fun t c => [(.record i t, c)]
  | .lambda _ ps body =>
    followed (lambdaHint expected) c fun hint c => (Call.lambdaParams hint ps).next c fun ts c =>
    (Call.infer (withParams ([] :: locals) ps ts) (i + 1) none body).next c fun result c =>
      [(.record i (Ty.curry ts result), c)]
  | .ifElse _ x a b =>
    (Call.infer locals (i + 1) none x).next c fun t c =>
      (Call.conditionType x.loc t).next c fun _ c =>
    (Call.infer locals (i + 1 + x.nodeCount) none a).next c fun t c =>
      (Call.infer locals (i + 1 + x.nodeCount + a.nodeCount) (some t) b).next c fun u c =>
        (Call.unifyAt t u b.loc).next c fun _ c => [(.record i t, c)]
  | .matchOn _ x cs => (Call.infer locals (i + 1) none x).next c fun t c =>
    (Call.inferCases locals (i + 1 + x.nodeCount) t none cs).next c fun result c =>
      match result with
      | none => []
      | some t => [(.record i t, c)]
  | .access loc x field => (Call.infer locals (i + 1) none x).next c fun t c =>
    followed (fieldType loc t field) c fun t c => [(.record i t, c)]
  | .missing => []

/-- The calls that binding a pattern makes. -/
def Pattern.calls (locals : List Frame) (i : Nat) (t : Ty) (c : Checker) :
    Pattern → List (Call × Checker)
  | .lit loc e => (Call.infer locals i none e).next c fun found c => [(.unifyAt t found loc, c)]
  | .cons loc n ps =>
    match (c.find? locals n).bind Symbol.constructor? with
    | none => []
    | some k => (Call.instantiate k).next c fun u c =>
      if u.uncurry.1.length ≠ ps.length then []
      else (Call.unifyAt t u.uncurry.2 loc).next c fun _ c =>
      [(.bindPatterns locals i u.uncurry.1 ps, c)]
  | .tuple loc ps => (Call.freshes ps).next c fun ts c =>
    (Call.unifyAt t (.tuple ts) loc).next c fun _ c => [(.bindPatterns locals i ts ps, c)]
  | .wild _ | .var .. | .missing => []

/-- The calls that passing arguments to a callee makes. -/
def argumentCalls (locals : List Frame) (loc : Location) (t : Ty) (c : Checker) :
    List (Nat × Expr) → List (Call × Checker)
  | [] => []
  | j :: js =>
    match c.unifier.apply t with
    | .func p r => (Call.infer locals j.1 (some p) j.2).next c fun found c =>
      (Call.unifyAt p found j.2.loc).next c fun _ c => [(.applyArguments locals loc r js, c)]
    | .any => (Call.infer locals j.1 none j.2).next c fun _ c =>
      [(.applyArguments locals loc t js, c)]
    | .var v => (Call.infer locals j.1 none j.2).next c fun found c =>
      Call.fresh.next c fun result c =>
      (Call.unifyAt (.var v) (.func found result) loc).next c fun _ c =>
        [(.applyArguments locals loc result js, c)]
    | _ => []

/-- The calls that inferring the arms of a match makes. -/
def caseCalls (locals : List Frame) (i : Nat) (scrutinee : Ty) (result : Option Ty) (c : Checker) :
    List Case → List (Call × Checker)
  | [] => []
  | .mk _ p body :: cs => (Call.bindPattern ([] :: locals) i scrutinee p).next c fun inner c =>
    (Call.infer inner (i + p.nodeCount) result body).next c fun found c =>
      match result with
      | none => [(.inferCases locals (i + p.nodeCount + body.nodeCount) scrutinee (some found) cs,
        c)]
      | some t => (Call.unifyAt t found body.loc).next c fun _ c =>
        [(.inferCases locals (i + p.nodeCount + body.nodeCount) scrutinee (some t) cs, c)]

/-- The calls that finding the types of a lambda's parameters makes. -/
def paramCalls (hint : Option Ty) (c : Checker) : List Param → List (Call × Checker)
  | [] => []
  | p :: ps =>
    match p.type with
    | some a => followed (resolve [] a) c fun _ c => [(.lambdaParams hint ps, c)]
    | none =>
      match hint.map c.unifier.apply with
      | some (.func _ r) => [(.lambdaParams (some r) ps, c)]
      | _ => Call.fresh.next c fun _ c => [(.lambdaParams none ps, c)]

/-- The calls that checking a statement makes. -/
def Stmt.calls (result : Ty) (locals : List Frame) (i : Nat) (c : Checker) :
    Stmt → List (Call × Checker)
  | .ret loc none => [(.unifyAt result .none loc, c)]
  | .ret _ (some e) => [(.expectType locals i result e, c)]
  | .assign loc n none e =>
    (Call.infer locals i none e).next c fun t c => [(.assignLocal locals n t loc, c)]
  | .assign loc n (some a) e => followed (resolve [] a) c fun t c =>
    (Call.expectType locals i t e).next c fun _ c => [(.assignLocal locals n t loc, c)]
  | .use _ _ e | .expr _ e => [(.infer locals i none e, c)]
  | .ifThen _ x _ ss =>
    (Call.infer locals i none x).next c fun t c => (Call.conditionType x.loc t).next c fun _ c =>
    [(.checkStmts result ([] :: locals) (i + x.nodeCount) ss, c)]
  | .ifElse _ x _ ss _ ss' =>
    (Call.infer locals i none x).next c fun t c => (Call.conditionType x.loc t).next c fun _ c =>
    (Call.checkStmts result ([] :: locals) (i + x.nodeCount) ss).next c fun _ c =>
      [(.checkStmts result ([] :: locals) (i + x.nodeCount + stmtsNodeCount ss) ss', c)]
  | .missing => []

/-- The calls that checking a function makes. -/
def NamedFunction.calls (f : NamedFunction) (c : Checker) : List (Call × Checker) :=
  followed (paramTypes f.func.params) (c.entering f) fun ts c' =>
    followed (resultType? f.func) c' fun written c' =>
    let body (result : Ty) (c' : Checker) : List (Call × Checker) :=
      (Call.checkStmts result (withParams [[]] f.func.params ts) c.nextNode f.func.body.stmts).next
        c' fun (returned : Bool) c' =>
        if returned then [] else [(.unifyAt result .none f.func.loc, c')]
    match written with
    | some t => body t c'
    | none => Call.fresh.next c' body

/-- The calls that declaring the constructors, fields or target of a definition makes. -/
def Definition.memberCalls (path : String) (c : Checker) : Definition → List (Call × Checker)
  | .func _ => []
  | .type d =>
    let name := path ++ d.name
    (Call.declareVariants name d.typeParams d.variants).next c fun _ c =>
      [(.insertGlobal name (.type
        { name, params := d.typeParams, variants := d.variants.map fun v =>
          name ++ "/" ++ v.name }), c)]
  | .object d =>
    let name := path ++ d.name
    followed (fieldTypes d.typeParams d.fields) c fun fields c =>
      [(.insertGlobal name
        (.type { name, params := d.typeParams, fields,
                 constructor? := some (constructorOf name name d.typeParams fields) }), c)]
  | .alias d =>
    let name := path ++ d.name
    followed (resolve d.typeParams d.type) c fun target c =>
      [(.insertGlobal name (.type { name, params := d.typeParams, target? := some target }), c)]
  | .module _ n defs =>
    [(.underPath (path ++ n ++ "/") (.declareMembers (path ++ n ++ "/") defs), c)]

/-- The calls that a call makes from a state, in order, each with the state it starts from. -/
def Call.calls (c : Checker) : Call → List (Call × Checker)
  | fresh | instantiate _ | unify .. | record .. | declareName .. | insertGlobal .. => []
  | unifyAt a b _ => [(.unify a b, c)]
  | inferVar locals _ n =>
    match (c.find? locals n).bind Symbol.constructor? with
    | some k => [(.instantiate k, c)]
    | none => []
  | operationType _ op l r =>
    match op.kind with
    | .arithmetic | .bitwise | .comparison => [(.unify l r, c)]
    | .shift => []
    | .power => (Call.unify .f24 l).next c fun
      | .error _, _ => []
      | .ok _, c => [(.unify .f24 r, c)]
  | conditionType loc t =>
    match c.unifier.apply t with
    | .var v => [(.unifyAt .u24 (.var v) loc, c)]
    | _ => []
  | lambdaParams hint ps => paramCalls hint c ps
  | infer locals i expected e => e.calls locals i expected c
  | inferList _ _ [] => []
  | inferList locals i (e :: es) =>
    (Call.infer locals i none e).next c fun _ c => [(.inferList locals (i + e.nodeCount) es, c)]
  | expectAll _ _ _ [] => []
  | expectAll locals i t (e :: es) => (Call.infer locals i (some t) e).next c fun found c =>
    (Call.unifyAt t found e.loc).next c fun _ c => [(.expectAll locals (i + e.nodeCount) t es, c)]
  | expectType locals i t e =>
    (Call.infer locals i (some t) e).next c fun found c => [(.unifyAt t found e.loc, c)]
  | applyArguments locals loc t js => argumentCalls locals loc t c js
  | inferCases locals i scrutinee result cs => caseCalls locals i scrutinee result c cs
  | freshes [] => []
  | freshes (_ :: ps) => Call.fresh.next c fun _ c => [(.freshes ps, c)]
  | bindPattern locals i t p => p.calls locals i t c
  | bindPatterns _ _ _ [] | bindPatterns _ _ [] (_ :: _) => []
  | bindPatterns locals i (t :: ts) (p :: ps) =>
    (Call.bindPattern locals i (c.unifier.apply t) p).next c fun inner c =>
    [(.bindPatterns inner (i + p.nodeCount) ts ps, c)]
  | assignLocal locals n t loc =>
    match findIn? locals n with
    | some (.variable _ old) => [(.unifyAt old t loc, c)]
    | _ => []
  | checkStmt result locals i s => s.calls result locals i c
  | checkStmts _ _ _ [] => []
  | checkStmts result locals i (s :: ss) => (Call.checkStmt result locals i s).next c fun out c =>
    [(.checkStmts result out.1 (i + s.nodeCount) ss, c)]
  | checkFunc f => f.calls c
  | checkAll [] => []
  | checkAll (f :: fs) => (Call.inContext ("func " ++ f.name) (.checkFunc f)).next c fun _ c =>
    [(.checkAll fs, c)]
  | declareTypes _ [] => []
  | declareTypes path (d :: ds) =>
    (Call.declareType path d).next c fun _ c => [(.declareTypes path ds, c)]
  | declareType _ (.func _) => []
  | declareType path (.type d) =>
    [(.declareName (path ++ d.name) (.type { name := path ++ d.name, params := d.typeParams })
      d.loc, c)]
  | declareType path (.object d) =>
    [(.declareName (path ++ d.name) (.type { name := path ++ d.name, params := d.typeParams })
      d.loc, c)]
  | declareType path (.alias d) =>
    [(.declareName (path ++ d.name) (.type { name := path ++ d.name, params := d.typeParams })
      d.loc, c)]
  | declareType path (.module loc n defs) =>
    (Call.declareName (path ++ n)
      (.module (path ++ n) (defs.map fun d => path ++ n ++ "/" ++ d.name)) loc).next c fun _ c =>
      [(.inContext ("module " ++ (path ++ n)) (.declareTypes (path ++ n ++ "/") defs), c)]
  | declareVariants _ _ [] => []
  | declareVariants n ps (v :: vs) =>
    followed (FunRiscv.inContext ("variant " ++ v.name) (fieldTypes ps v.fields)) c fun fields c =>
    (Call.declareName (n ++ "/" ++ v.name)
      (.constructor (constructorOf (n ++ "/" ++ v.name) n ps fields)) v.loc).next c fun _ c =>
      [(.declareVariants n ps vs, c)]
  | declareMembers _ [] => []
  | declareMembers path (d :: ds) =>
    (Call.inContext (path ++ d.name) (.declareMember path d)).next c fun _ c =>
    [(.declareMembers path ds, c)]
  | declareMember path d => d.memberCalls path c
  | declareFunc n d =>
    followed (paramTypes d.params) c fun ts c => followed (resultType? d) c fun written c =>
    [(.declareName n (.function n (Ty.curry ts (written.getD .any)) true) d.loc, c)]
  | declareMethods _ [] => []
  | declareMethods owner (d :: ds) => (Call.declareFunc (owner ++ "/" ++ d.name) d).next c
    fun _ c => [(.declareMethods owner ds, c)]
  | declareFuncs _ [] => []
  | declareFuncs path (d :: ds) => (Call.inContext (path ++ d.name) (.declareFuncsOf path d)).next c
    fun _ c =>
    [(.declareFuncs path ds, c)]
  | declareFuncsOf path (.func d) => [(.declareFunc (path ++ d.name) d, c)]
  | declareFuncsOf path (.object d) => [(.declareMethods (path ++ d.name) d.funcs, c)]
  | declareFuncsOf path (.module _ n defs) =>
    [(.underPath (path ++ n ++ "/") (.declareFuncs (path ++ n ++ "/") defs), c)]
  | declareFuncsOf _ (.type _) | declareFuncsOf _ (.alias _) => []
  | checkProgram p => (Call.inContext "declare types" (.declareTypes "" p.defs)).next c.reset
    fun _ c =>
    (Call.inContext "declare" (.underPath "" (.declareMembers "" p.defs))).next c fun _ c =>
      (Call.inContext "declare" (.underPath "" (.declareFuncs "" p.defs))).next c fun _ c =>
        [(.checkAll p.functions, c)]
  | inContext _ x => [(x, c)]
  | underPath path x => [(x, { c with scopePath := path })]

/-- What a call consists of: of itself where it is one step of the unifier, and of the calls that
it makes otherwise. -/
def Call.parts (c : Checker) : Call → List (Call × Checker)
  | fresh => [(fresh, c)]
  | instantiate k => [(instantiate k, c)]
  | unify a b => [(unify a b, c)]
  | x => x.calls c

/-! ### Positions -/

/-- The call at a position below a call, if there is one: `[]` is the call itself, and `n :: ns` is
the one at `ns` below the call of number `n` that it makes. -/
def Call.at? (a : Call × Checker) : List Nat → Option (Call × Checker)
  | [] => some a
  | n :: ns => (a.1.calls a.2)[n]?.bind fun b => Call.at? b ns

/-- The call at a position of a check, if there is one, and the state it starts from. -/
def Program.call? (p : Program) (o : CheckOptions) (path : List Nat) : Option (Call × Checker) :=
  Call.at? (.checkProgram p, Checker.new o) path

/-- The type that a constructor gets at a position of a check, if one is used there. -/
def Program.use? (p : Program) (o : CheckOptions) (path : List Nat) : Option Ty :=
  match p.call? o path with
  | some (.instantiate k, c) => some (k.instantiate c.unifier).1
  | _ => none

end FunRiscv

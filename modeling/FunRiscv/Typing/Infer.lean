import FunRiscv.Number.Integer
import FunRiscv.Surface.Nodes
import FunRiscv.Typing.Arguments
import FunRiscv.Typing.Resolve

/-!
# Types of expressions

* `Checking.infer`: the type of an expression. Every expression's type is recorded under its number.
* `Checking.expectType`: infers a type and unifies it with an expected one. Only lambdas make use of
  the expected type beforehand: it gives the types of parameters that have no annotation.
* `Checking.bindPattern`: the variables that a pattern binds.
-/

namespace FunRiscv.Checking

/-! ### Steps that need no nesting -/

/-- Binds a variable in the innermost frame. -/
def bindLocal (locals : List Frame) (name : String) (t : Ty) : List Frame :=
  match locals with
  | [] => [[(name, .variable name t)]]
  | f :: fs => f.insert name (.variable name t) :: fs

/-- The part of a name before its last slash, if that slash is not its first character. -/
def ownerName? (name : String) : Option String :=
  let after := name.toList.reverse.dropWhile (· != '/')
  match after with
  | [] | [_] => none
  | _ :: owner => some (String.ofList owner.reverse)

/-- The type of a variable. -/
def inferVar (locals : List Frame) (loc : Location) (name : String) : Checking Ty := do
  match ← find? locals name with
  | some (.variable _ t) => return t
  | some (.function _ t _) => return t
  | some s =>
    match s.constructor? with
    | some k => instantiate k
    | none => fail loc (.notAValue name)
  | none =>
    let owner ← match ownerName? name with
      | some o => find? locals o
      | none => pure none
    match owner with
    | some (.type _) => fail loc (.undefinedConstructor name)
    | _ => fail loc (.undefinedVariable name)

/-- Fails because the operands of an operator are outside its class. -/
def incompatible {α : Type} (loc : Location) (op : Operator) (l r : Ty) : Checking α := do
  fail loc (.operation op.symbol (← applied l) (← applied r))

/-- The type of an operation whose operands must agree and pass a test, unless they
are still unknown. -/
def sameOperands (loc : Location) (op : Operator) (l r : Ty) (test : Ty → Bool) : Checking Ty := do
  match ← unify l r with
  | .error _ => incompatible loc op l r
  | .ok () =>
    let t ← match ← applied l with
      | .any => applied r
      | t => pure t
    if t.isVar || test t then return t else incompatible loc op l r

/-- The type of an operation from the types of its operands. -/
def operationType (loc : Location) (op : Operator) (l r : Ty) : Checking Ty := do
  match op.kind with
  | .arithmetic => sameOperands loc op l r Ty.numeric
  | .bitwise => sameOperands loc op l r Ty.integral
  | .comparison =>
    match ← unify l r with
    | .error _ => incompatible loc op l r
    | .ok () => return .u24
  | .shift =>
    let a ← applied l
    let b ← applied r
    if (a.isVar || a.integral) && (b.isVar || b.integral) then return l else incompatible loc op l r
  | .power =>
    match ← unify .f24 l with
    | .error _ => incompatible loc op l r
    | .ok () =>
      match ← unify .f24 r with
      | .error _ => incompatible loc op l r
      | .ok () => return .f24

/-- A condition is a `u24`, a truth value or dynamic; an unknown type becomes `u24`. -/
def conditionType (loc : Location) (t : Ty) : Checking Unit := do
  match ← applied t with
  | .any => return
  | .var v => unifyAt .u24 (.var v) loc
  | t => if t = .u24 || t = .bool then return else fail loc (.mismatch .u24 t)

/-- The type of a field of a value. -/
def fieldType (loc : Location) (t : Ty) (field : String) : Checking Ty := do
  match ← applied t with
  | .any => return .any
  | .tuple elems =>
    let found : Option Ty := match Number.readInt field with
      | .ok i => if i < 0 then none else elems[i.toNat]?
      | .error _ => none
    match found with
    | some e => return e
    | none => fail loc (.noTupleField (.tuple elems) field)
  | .named n args =>
    match (← get).globals.find? n with
    | some (.type s) =>
      if s.constructor?.isNone || s.params.length ≠ args.length then
        fail loc (.noFields field (.named n args))
      else match s.fields.lookup field with
        | some f => return f.replace (Ty.parameterMap s.params args)
        | none => fail loc (.noField n field)
    | _ => fail loc (.noFields field (.named n args))
  | t => fail loc (.noFields field t)

/-- The types of a lambda's parameters. One without an annotation takes the next parameter of the
expected function type, or else a fresh variable. -/
def lambdaParams (hint : Option Ty) : List Param → Checking (List Ty)
  | [] => return []
  | p :: ps => do
    let (t, hint) ← match p.type with
      | some t => do pure (← resolve [] t, hint)
      | none =>
        match ← hint.mapM applied with
        | some (.func q r) => pure (q, some r)
        | _ => do pure (← fresh, none)
    let ts ← lambdaParams hint ps
    return t :: ts

/-- The expected type of a lambda, if it is a function type. -/
def lambdaHint (expected : Option Ty) : Checking (Option Ty) := do
  match ← expected.mapM applied with
  | some (.func q r) => return some (.func q r)
  | _ => return none

/-- An argument that is still to be inferred. -/
structure Argument where
  loc : Location
  /-- Infers the type under an expected one. -/
  infer : Option Ty → Checking Ty

/-- Infers an argument and unifies it with an expected type. -/
def Argument.expectType (a : Argument) (t : Ty) : Checking Unit := do
  let found ← a.infer (some t)
  unifyAt t found a.loc

/-- The type of a call, from the type of what is called. Each argument takes one parameter; of the
dynamic type there is always one more, and an unknown type becomes a function type. -/
def applyArguments (loc : Location) (t : Ty) : List Argument → Checking Ty
  | [] => return t
  | a :: rest => do
    match ← applied t with
    | .func p r =>
      a.expectType p
      applyArguments loc r rest
    | .any =>
      let _ ← a.infer none
      applyArguments loc t rest
    | .var v =>
      let found ← a.infer none
      let result ← fresh
      unifyAt (.var v) (.func found result) loc
      applyArguments loc result rest
    | t => fail loc (.notAFunction t)

/-- The field names of the constructor that an expression names. -/
def calledFields (locals : List Frame) : Expr → Checking (List String)
  | .var _ n => do
    match ← find? locals n with
    | some s => return (s.constructor?.map (·.fields)).getD []
    | none => return []
  | _ => return []

/-! ### Expressions and patterns -/

mutual

/-- The type of the expression of number `i`, under an expected type. -/
def infer (locals : List Frame) (i : Nat) (expected : Option Ty) : Expr → Checking Ty
  | .uint .. => do
    record i .u24
    return .u24
  | .int .. => do
    record i .i24
    return .i24
  | .float .. => do
    record i .f24
    return .f24
  | .str .. => do
    record i .string
    return .string
  | .bool .. => do
    record i .bool
    return .bool
  | .eraser _ => do
    let t ← fresh
    record i t
    return t
  | .var loc n => do
    let t ← inferVar locals loc n
    record i t
    return t
  | .tuple _ elems => do
    let t := Ty.tuple (← inferList locals (i + 1) elems)
    record i t
    return t
  | .list _ [] => do
    let t := Ty.listOf (← fresh)
    record i t
    return t
  | .list _ (x :: xs) => do
    let first ← infer locals (i + 1) none x
    expectAll locals (i + 1 + x.nodeCount) first xs
    record i (.listOf first)
    return .listOf first
  | .binOp loc op l r => do
    let a ← infer locals (i + 1) none l
    let b ← infer locals (i + 1 + l.nodeCount) none r
    let t ← operationType loc op a b
    record i t
    return t
  | .call loc f args named => do
    let callee ← infer locals (i + 1) none f
    let start := i + 1 + f.nodeCount
    let fields ← calledFields locals f
    match placeArguments loc fields (arguments locals start args)
        (namedArguments locals (start + exprsNodeCount args) named) with
    | .error e => failWith e
    | .ok placed => do
      let t ← applyArguments loc callee placed
      record i t
      return t
  | .lambda _ params body => do
    let ts ← lambdaParams (← lambdaHint expected) params
    let inner := (params.zip ts).foldl (fun fs (p, t) => bindLocal fs p.name t) ([] :: locals)
    let result ← infer inner (i + 1) none body
    let t := Ty.curry ts result
    record i t
    return t
  | .ifElse _ c t f => do
    let cond ← infer locals (i + 1) none c
    conditionType c.loc cond
    let start := i + 1 + c.nodeCount
    let a ← infer locals start none t
    let b ← infer locals (start + t.nodeCount) (some a) f
    unifyAt a b f.loc
    record i a
    return a
  | .matchOn loc x cases => do
    let scrutinee ← infer locals (i + 1) none x
    match ← inferCases locals (i + 1 + x.nodeCount) scrutinee none cases with
    | none => fail loc .noCases
    | some t => do
      record i t
      return t
  | .access loc x field => do
    let target ← infer locals (i + 1) none x
    let t ← fieldType loc target field
    record i t
    return t
  | .missing => fail {} (.gap "expression")

/-- The types of expressions numbered from `i` on. -/
def inferList (locals : List Frame) (i : Nat) : List Expr → Checking (List Ty)
  | [] => return []
  | x :: xs => do
    let t ← infer locals i none x
    let ts ← inferList locals (i + x.nodeCount) xs
    return t :: ts

/-- Infers expressions numbered from `i` on, each under the same expected type. -/
def expectAll (locals : List Frame) (i : Nat) (t : Ty) : List Expr → Checking Unit
  | [] => return
  | x :: xs => do
    let found ← infer locals i (some t) x
    unifyAt t found x.loc
    expectAll locals (i + x.nodeCount) t xs

/-- Positional arguments numbered from `i` on. -/
def arguments (locals : List Frame) (i : Nat) : List Expr → List Argument
  | [] => []
  | x :: xs => ⟨x.loc, fun t => infer locals i t x⟩ :: arguments locals (i + x.nodeCount) xs

/-- Named arguments numbered from `i` on. -/
def namedArguments (locals : List Frame) (i : Nat) : List NamedArg → List (Labelled Argument)
  | [] => []
  | .mk loc n x :: rest =>
    ⟨loc, n, ⟨x.loc, fun t => infer locals i t x⟩⟩ :: namedArguments locals (i + x.nodeCount) rest

/-- The common type of match arms numbered from `i` on; `result` is the type of the
arms before them. -/
def inferCases (locals : List Frame) (i : Nat) (scrutinee : Ty) (result : Option Ty) :
    List Case → Checking (Option Ty)
  | [] => return result
  | .mk _ p body :: rest => do
    let inner ← bindPattern ([] :: locals) i scrutinee p
    let start := i + p.nodeCount
    let found ← infer inner start result body
    let t ← match result with
      | none => pure found
      | some t => do
        unifyAt t found body.loc
        pure t
    inferCases locals (start + body.nodeCount) scrutinee (some t) rest

/-- The frames with the variables that a pattern for a type binds; its literals are
numbered from `i` on. -/
def bindPattern (locals : List Frame) (i : Nat) (t : Ty) : Pattern → Checking (List Frame)
  | .wild _ => return locals
  | .var _ n => return bindLocal locals n t
  | .lit loc x => do
    let found ← infer locals i none x
    unifyAt t found loc
    return locals
  | .cons loc n args => do
    match (← find? locals n).bind Symbol.constructor? with
    | none => fail loc (.undefinedConstructor n)
    | some k => do
      let (params, result) := (← instantiate k).uncurry
      if params.length ≠ args.length then fail loc (.patternArity n params.length args.length)
      else
        unifyAt t result loc
        bindPatterns locals i params args
  | .tuple loc elems => do
    let ts ← elems.mapM fun _ => fresh
    unifyAt t (.tuple ts) loc
    bindPatterns locals i ts elems
  | .missing => fail {} (.gap "pattern")

/-- The frames with the variables that patterns for types bind. -/
def bindPatterns (locals : List Frame) (i : Nat) (ts : List Ty) :
    List Pattern → Checking (List Frame)
  | [] => return locals
  | p :: ps => do
    match ts with
    | [] => return locals
    | t :: ts =>
      let locals ← bindPattern locals i (← applied t) p
      bindPatterns locals (i + p.nodeCount) ts ps

end

/-- Infers an expression and unifies its type with an expected one. -/
def expectType (locals : List Frame) (i : Nat) (t : Ty) (x : Expr) : Checking Unit := do
  let found ← infer locals i (some t) x
  unifyAt t found x.loc

end FunRiscv.Checking

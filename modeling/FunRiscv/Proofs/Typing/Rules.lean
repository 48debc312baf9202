import Mathlib
import FunRiscv.Proofs.Typing.Actions

/-!
# The typing rules

When the types that were found for the expressions of a function are right. The rules refer to types
by the numbers of expressions and say nothing about how the types were found.

* `Report`: the type found for every number, and the names that are known outside the function.
* `Ty.Walks`: passing arguments along a type.
* `Expr.Typed`, `Pattern.Typed`: the rules of expressions and patterns, under frames that give the
  types of local variables.
* `Stmt.Typed`: the rules of statements, with the frames after them.
* `NamedFunction.Typed`: the rule of a whole function.
-/

namespace FunRiscv

/-! ### Numbers -/

/-- The numbers of expressions, the first of which has number `i`. -/
def exprNumbers (i : Nat) : List Expr → List Nat
  | [] => []
  | e :: es => i :: exprNumbers (i + e.nodeCount) es

/-- The numbers of named arguments, under their names, the first of which has number `i`. -/
def namedNumbers (i : Nat) : List NamedArg → List (Labelled Nat)
  | [] => []
  | .mk loc n e :: ns => ⟨loc, n, i⟩ :: namedNumbers (i + e.nodeCount) ns

/-- The numbers of the bodies of match arms whose expressions are numbered from `i` on. -/
def bodyNumbers (i : Nat) : List Case → List Nat
  | [] => []
  | .mk _ p body :: cs => (i + p.nodeCount) :: bodyNumbers (i + p.nodeCount + body.nodeCount) cs

/-! ### Reports -/

/-- The types found for expressions by number, and the names that are known outside the
function at hand. -/
structure Report where
  types : Nat → Option Ty
  globals : Frame
  /-- The qualification under which names are tried when they are unknown as written. -/
  path : String

namespace Report

variable (r : Report)

/-- The symbol of a name under some local frames. -/
def symbol? (locals : List Frame) (name : String) : Option Symbol :=
  symbolIn? (locals ++ [r.globals]) r.path name

/-- A written type means a type. -/
def Means (t : TypeExpr) (u : Ty) : Prop :=
  ∃ c c' : Checker, c.globals = r.globals ∧ c.scopePath = r.path ∧
    Checking.Gives (Checking.resolve [] t) c u c'

/-- The expressions of some numbers have some types. -/
def HaveTypes (ks : List Nat) (ts : List Ty) : Prop :=
  List.Forall₂ (fun k t => r.types k = some t) ks ts

/-- The first of some expressions has a type, and those of the others agree with it. -/
def Join (t : Ty) : List Nat → Prop
  | [] => False
  | k :: ks => r.types k = some t ∧ ∀ j ∈ ks, ∃ u, r.types j = some u ∧ u.Agrees t

/-- A condition is a `u24`, a truth value or dynamic. -/
def Condition (k : Nat) : Prop := ∃ t, r.types k = some t ∧ (t = .u24 ∨ t = .bool ∨ t = .any)

/-- The names of the fields of the constructor that an expression names. -/
def fieldsOf (locals : List Frame) : Expr → List String
  | .var _ n => (((r.symbol? locals n).bind Symbol.constructor?).map (·.fields)).getD []
  | _ => []

/-- The type of a field of a value of a type. -/
def Field (t : Ty) (field : String) (u : Ty) : Prop :=
  match t with
  | .any => u = .any
  | .tuple elems => ∃ k : Nat, Number.readInt field = .ok k ∧ elems[k]? = some u
  | .named n args =>
    ∃ s f, r.globals.find? n = some (.type s) ∧ s.constructor?.isSome ∧ s.params.length =
      args.length ∧ s.fields.lookup field = some f ∧ u = f.replace (Ty.parameterMap s.params args)
  | _ => False

/-- The types of parameters; one with an annotation has the type that it means. -/
def Params (ps : List Param) (ts : List Ty) : Prop :=
  List.Forall₂ (fun p t => ∀ a ∈ p.type, r.Means a t) ps ts

end Report

/-! ### Types -/

/-- Arguments are passed along a type one after the other: a function type takes one that agrees
with its parameter, and the dynamic type takes any. -/
inductive Ty.Walks : Ty → List Ty → Ty → Prop where
  | done (t : Ty) : Walks t [] t
  | func {p r a last : Ty} {as : List Ty} :
    a.Agrees p → Walks r as last → Walks (.func p r) (a :: as) last
  | any {a last : Ty} {as : List Ty} : Walks .any as last → Walks .any (a :: as) last

/-- A type is the signature of a constructor with types for its parameters. -/
def Constructor.Instance (k : Constructor) (t : Ty) : Prop :=
  ∃ ts, ts.length = k.params.length ∧ t = k.signature.replace (Ty.parameterMap k.params ts)

/-- A value that is named by a symbol has a type. -/
def Symbol.HasType : Symbol → Ty → Prop
  | .variable _ u, t => t = u
  | .function _ u _, t => t = u
  | s, t => ∃ k, s.constructor? = some k ∧ k.Instance t

/-- The type of an operation from the types of its operands. -/
def OperatorKind.HasType : OperatorKind → Ty → Ty → Ty → Prop
  | .arithmetic, l, r, t | .bitwise, l, r, t => (t = l ∨ t = r) ∧ l.Agrees r
  | .comparison, l, r, t => t = .u24 ∧ l.Agrees r
  | .shift, l, _, t => t = l
  | .power, l, r, t => t = .f24 ∧ l.Agrees .f24 ∧ r.Agrees .f24

/-- Binds parameters in the innermost frame. -/
def withParams (locals : List Frame) (ps : List Param) (ts : List Ty) : List Frame :=
  (ps.zip ts).foldl (fun fs e => Checking.bindLocal fs e.1.name e.2) locals

/-! ### Expressions and patterns -/

mutual

/-- The types found for the expression of number `i` and those under it are right. -/
def Expr.Typed (r : Report) (locals : List Frame) (i : Nat) : Expr → Prop
  | .uint .. => r.types i = some .u24
  | .int .. => r.types i = some .i24
  | .float .. => r.types i = some .f24
  | .str .. => r.types i = some .string
  | .bool .. => r.types i = some .bool
  | .eraser _ => ∃ t, r.types i = some t
  | .var _ n => ∃ s t, r.symbol? locals n = some s ∧ s.HasType t ∧ r.types i = some t
  | .tuple _ es => exprsTyped r locals (i + 1) es ∧
      ∃ ts, r.HaveTypes (exprNumbers (i + 1) es) ts ∧ r.types i = some (.tuple ts)
  | .list _ es => exprsTyped r locals (i + 1) es ∧
      ∃ t, (es ≠ [] → r.Join t (exprNumbers (i + 1) es)) ∧ r.types i = some (.listOf t)
  | .binOp _ op a b => a.Typed r locals (i + 1) ∧ b.Typed r locals (i + 1 + a.nodeCount) ∧
      ∃ l m t, r.HaveTypes [i + 1, i + 1 + a.nodeCount, i] [l, m, t] ∧ op.kind.HasType l m t
  | .call loc f args named =>
      f.Typed r locals (i + 1) ∧ exprsTyped r locals (i + 1 + f.nodeCount) args ∧
      namedTyped r locals (i + 1 + f.nodeCount + exprsNodeCount args) named ∧
      ∃ order ts callee last t,
        placeArguments loc (r.fieldsOf locals f) (exprNumbers (i + 1 + f.nodeCount) args)
          (namedNumbers (i + 1 + f.nodeCount + exprsNodeCount args) named) = .ok order ∧
        r.HaveTypes order ts ∧ r.types (i + 1) = some callee ∧ callee.Walks ts last ∧
        r.types i = some t ∧ (last = t ∨ last = .any)
  | .lambda _ ps body =>
    ∃ ts result, r.Params ps ts ∧ body.Typed r (withParams ([] :: locals) ps ts) (i + 1) ∧
      r.types (i + 1) = some result ∧ r.types i = some (Ty.curry ts result)
  | .ifElse _ c a b => c.Typed r locals (i + 1) ∧ a.Typed r locals (i + 1 + c.nodeCount) ∧
      b.Typed r locals (i + 1 + c.nodeCount + a.nodeCount) ∧ r.Condition (i + 1) ∧
      ∃ t, r.Join t [i + 1 + c.nodeCount, i + 1 + c.nodeCount + a.nodeCount] ∧ r.types i = some t
  | .matchOn _ x cases => x.Typed r locals (i + 1) ∧
      ∃ s t, r.types (i + 1) = some s ∧ casesTyped r locals (i + 1 + x.nodeCount) s cases ∧
        r.Join t (bodyNumbers (i + 1 + x.nodeCount) cases) ∧ r.types i = some t
  | .access _ x field => x.Typed r locals (i + 1) ∧
      ∃ t u, r.types (i + 1) = some t ∧ r.Field t field u ∧ r.types i = some u
  | .missing => False

/-- The types found for expressions numbered from `i` on are right. -/
def exprsTyped (r : Report) (locals : List Frame) (i : Nat) : List Expr → Prop
  | [] => True
  | e :: es => e.Typed r locals i ∧ exprsTyped r locals (i + e.nodeCount) es

/-- The types found for named arguments numbered from `i` on are right. -/
def namedTyped (r : Report) (locals : List Frame) (i : Nat) : List NamedArg → Prop
  | [] => True
  | .mk _ _ e :: ns => e.Typed r locals i ∧ namedTyped r locals (i + e.nodeCount) ns

/-- The types found in arms of a match on a value of a type are right. The variables of a pattern
are known in its arm. -/
def casesTyped (r : Report) (locals : List Frame) (i : Nat) (scrutinee : Ty) : List Case → Prop
  | [] => True
  | .mk _ p body :: cs =>
    (∃ inner, p.Typed r ([] :: locals) i scrutinee inner ∧ body.Typed r inner (i + p.nodeCount)) ∧
      casesTyped r locals (i + p.nodeCount + body.nodeCount) scrutinee cs

/-- A pattern fits values of a type, and some frames are the given ones with its variables. -/
def Pattern.Typed (r : Report) (locals : List Frame) (i : Nat) (t : Ty) :
    Pattern → List Frame → Prop
  | .wild _, inner => inner = locals
  | .var _ n, inner => inner = Checking.bindLocal locals n t
  | .lit _ e, inner => e.Typed r locals i ∧ (∃ u, r.types i = some u ∧ u.Agrees t) ∧ inner = locals
  | .cons _ n ps, inner => ∃ k ts result, (r.symbol? locals n).bind Symbol.constructor? = some k ∧
      k.Instance (Ty.curry ts result) ∧ ts.length = ps.length ∧ result.Agrees t ∧
      patternsTyped r locals i ts ps inner
  | .tuple _ ps, inner =>
    ∃ ts : List Ty, ts.length = ps.length ∧ Ty.Agrees (.tuple ts) t ∧ patternsTyped r locals
      i ts ps inner
  | .missing, _ => False

/-- Patterns fit values of types, one after the other. -/
def patternsTyped (r : Report) (locals : List Frame) (i : Nat) (ts : List Ty) :
    List Pattern → List Frame → Prop
  | [], inner => inner = locals
  | p :: ps, inner =>
    ∃ t rest mid, ts = t :: rest ∧ p.Typed r locals i t mid ∧ patternsTyped r mid (i + p.nodeCount)
      rest ps inner

end

/-! ### Statements and functions -/

/-- The frames after an assignment: a variable that some frame has keeps its type, another one is
bound in the innermost frame. -/
def Assigned (locals : List Frame) (name : String) (t : Ty) (after : List Frame) : Prop :=
  match findIn? locals name with
  | some (.variable _ old) => t.Agrees old ∧ after = locals
  | _ => after = Checking.bindLocal locals name t

mutual

/-- The types found in a statement of a function with some result type are right, and some frames
are those after it. -/
def Stmt.Typed (r : Report) (result : Ty) (locals : List Frame) (i : Nat) : Stmt → List Frame → Prop
  | .ret _ none, after => Ty.none.Agrees result ∧ after = locals
  | .ret _ (some e), after =>
    e.Typed r locals i ∧ (∃ t, r.types i = some t ∧ t.Agrees result) ∧ after = locals
  | .assign _ target type e, after => e.Typed r locals i ∧
      ∃ t u, r.types i = some t ∧ Assigned locals target u after ∧
        (∀ a, type = some a → r.Means a u ∧ t.Agrees u) ∧ (type = none → t = u)
  | .use _ n e, after =>
    e.Typed r locals i ∧ ∃ t, r.types i = some t ∧ after = Checking.bindLocal locals n t
  | .ifThen _ c _ a, after => c.Typed r locals i ∧ r.Condition i ∧
      stmtsTyped r result ([] :: locals) (i + c.nodeCount) a ∧ after = locals
  | .ifElse _ c _ a _ b, after => c.Typed r locals i ∧ r.Condition i ∧
      stmtsTyped r result ([] :: locals) (i + c.nodeCount) a ∧
      stmtsTyped r result ([] :: locals) (i + c.nodeCount + stmtsNodeCount a) b ∧ after = locals
  | .expr _ e, after => e.Typed r locals i ∧ after = locals
  | .missing, _ => False

/-- The types found in statements, one after the other, are right. -/
def stmtsTyped (r : Report) (result : Ty) (locals : List Frame) (i : Nat) : List Stmt → Prop
  | [] => True
  | s :: ss =>
    ∃ after, s.Typed r result locals i after ∧ stmtsTyped r result after (i + s.nodeCount) ss

end

/-- The types found in a function whose expressions are numbered from `i` on, and that found for the
function itself, are right. -/
def NamedFunction.Typed (r : Report) (i : Nat) (f : NamedFunction) (t : Ty) : Prop :=
  ∃ ps result, t = Ty.curry ps result ∧ r.Params f.func.params ps ∧
    (∀ a ∈ f.func.ret, r.Means a result) ∧ stmtsTyped r result (withParams [[]] f.func.params ps) i
      f.func.body.stmts

end FunRiscv

import Mathlib
import FunRiscv.Codegen.Lower
import FunRiscv.Proofs.Machine.Execution

/-!
# The meaning of programs

A big-step evaluator for the expressions and statements that code can be generated for. Values are
words of 32 bits. What has no meaning here evaluates to nothing: a variable that was not assigned, a
function used as a value, a call with the wrong number of arguments.

* `Operator.eval`: the operators on words.
* `evalExpr`, `evalArgs`, `evalCases`: expressions.  A match in which no arm applies gives zero.
* `evalStmt`, `evalStmts`, `evalBody`: statements.  Each name is one variable throughout a function.
* `Program.eval`: a call of a function of a program, with a bound on how deeply calls are nested.
-/

namespace FunRiscv

open Machine

/-- The meaning of an operator on words; powers have none. -/
def Operator.eval (op : Operator) (x y : Val) : Option Val :=
  match op with
  | .add => some (x + y)
  | .sub => some (x - y)
  | .mul => some (x * y)
  | .div => some (if y = 0 then -1 else x.sdiv y)
  | .mod => some (if y = 0 then x else x.srem y)
  | .eq => some (ofBool (x == y))
  | .ne => some (ofBool (x != y))
  | .lt => some (ofBool (x.slt y))
  | .le => some (ofBool (x.sle y))
  | .gt => some (ofBool (y.slt x))
  | .ge => some (ofBool (y.sle x))
  | .and => some (x &&& y)
  | .or => some (x ||| y)
  | .xor => some (x ^^^ y)
  | .shl => some (x <<< shiftAmount y)
  | .shr => some (x.sshiftRight (shiftAmount y))
  | .pow => none

/-- The values of variables. -/
abbrev Store := String → Option Val

/-- The values after a variable gets one. -/
def Store.set (σ : Store) (name : String) (v : Val) : Store :=
  fun x => if x = name then some v else σ x

/-! ### Expressions -/

section

variable (call : String → List Val → Option Val)

mutual

/-- The value of an expression, where calls by name mean `call`. -/
def evalExpr (σ : Store) : Expr → Option Val
  | .uint _ v => some v.toBitVec
  | .int _ v => some v.toBitVec
  | .bool _ v => some (ofBool v)
  | .eraser _ => some 0
  | .var _ name => σ name
  | .binOp _ op l r => (evalExpr σ l).bind fun x => (evalExpr σ r).bind fun y => op.eval x y
  | .call _ f args named =>
    match f, named with
    | .var _ name, [] => (evalArgs σ args).bind (call name)
    | _, _ => none
  | .ifElse _ c t e => (evalExpr σ c).bind fun x => if x ≠ 0 then evalExpr σ t else evalExpr σ e
  | .matchOn _ s cases => (evalExpr σ s).bind fun x => evalCases σ x cases
  | .float .. | .str .. | .tuple .. | .list .. | .lambda .. | .access .. | .missing => none

/-- The values of arguments. -/
def evalArgs (σ : Store) : List Expr → Option (List Val)
  | [] => some []
  | x :: xs => (evalExpr σ x).bind fun v => (evalArgs σ xs).map (v :: ·)

/-- The value of the first arm whose pattern a word fits; zero if there is none. -/
def evalCases (σ : Store) (x : Val) : List Case → Option Val
  | [] => some 0
  | .mk _ pattern body :: rest =>
    match pattern with
    | .lit _ v => (evalExpr σ v).bind fun y => if x = y then evalExpr σ body else evalCases σ x rest
    | .var _ name => evalExpr (σ.set name x) body
    | .wild _ => evalExpr σ body
    | .cons .. | .tuple .. | .missing => none

end

/-! ### Statements -/

/-- What a statement does: it leaves values in the variables, or returns a value. -/
inductive Outcome where
  | next (σ : Store)
  | done (v : Val)

mutual

/-- What a statement does. -/
def evalStmt (σ : Store) : Stmt → Option Outcome
  | .ret _ none => some (.done 0)
  | .ret _ (some x) => (evalExpr call σ x).map .done
  | .assign _ target _ x => (evalExpr call σ x).map fun v => .next (σ.set target v)
  | .use _ name x => (evalExpr call σ x).map fun v => .next (σ.set name v)
  | .ifThen _ c _ t =>
    (evalExpr call σ c).bind fun x => if x ≠ 0 then evalStmts σ t else some (.next σ)
  | .ifElse _ c _ t _ e =>
    (evalExpr call σ c).bind fun x => if x ≠ 0 then evalStmts σ t else evalStmts σ e
  | .expr _ x => (evalExpr call σ x).map fun _ => .next σ
  | .missing => none

/-- What statements do, one after the other. -/
def evalStmts (σ : Store) : List Stmt → Option Outcome
  | [] => some (.next σ)
  | s :: ss => (evalStmt σ s).bind fun
    | .next σ' => evalStmts σ' ss
    | .done v => some (.done v)

end

/-- The value that a function returns; zero if its statements come to an end. -/
def evalBody (σ : Store) (ss : List Stmt) : Option Val :=
  (evalStmts call σ ss).map fun
    | .next _ => 0
    | .done v => v

end

/-! ### Functions -/

/-- The qualified name of the function that a name means, in a function with a path. -/
def resolveName (functions : List String) (path name : String) : Option String :=
  if functions.contains name then some name
  else if path ≠ "" && functions.contains (path ++ name) then some (path ++ name)
  else none

/-- The values of parameters, where the store has those of earlier ones. -/
def bindParams (σ : Store) : List Param → List Val → Store
  | p :: ps, v :: vs => bindParams (σ.set p.name v) ps vs
  | _, _ => σ

/-- The value of a call of a function of a program, if calls are nested at most so deeply. -/
def Program.eval (p : Program) : (depth : Nat) → String → List Val → Option Val
  | 0, _, _ => none
  | depth + 1, name, args =>
    (p.functions.find? (·.name == name)).bind fun f =>
      if args.length = f.func.params.length then
        evalBody
          (fun callee vs => (resolveName (p.functions.map (·.name)) (pathOf f.name) callee).bind
            fun q => p.eval depth q vs)
          (bindParams (fun _ => none) f.func.params args) f.func.body.stmts
      else none

theorem functionLabel?_eq (c : LowerContext) (name : String) :
    c.functionLabel? name = (resolveName c.functions c.path name).map functionLabel := by
  unfold LowerContext.functionLabel? resolveName
  split
  · rfl
  · split <;> rfl

end FunRiscv

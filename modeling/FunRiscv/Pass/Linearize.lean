import FunRiscv.Number.Integer
import FunRiscv.Pass.Revise

/-!
# Linearization

Operands that are themselves operations or calls are computed beforehand into temporaries. What is
evaluated only on some condition or later, that is the arms of conditionals and matches and the
bodies of lambdas, stays in place.

* `Temporaries`: the state of the pass: the number of the last temporary, which a
  later run goes on from.
* `Hoisting`: what is left as it was is kept; every case says whether it hoisted anything.
* `Program.linearize`: the pass. The counter is first moved past the temporaries that the
  program already assigns.
-/

namespace FunRiscv

/-- How the names of temporaries start. -/
def temporaryStem : String := "__lin_"

/-- The name of the temporary of a number. -/
def temporaryName (n : Int64) : String := temporaryStem ++ toString n.toInt

/-- The number of a temporary, by its name. -/
def temporaryNumber? (name : String) : Option Int64 :=
  if name.startsWith temporaryStem then
    match Number.readInt (String.ofList (name.toList.drop temporaryStem.length)) with
    | .ok n => some (Int64.ofInt n)
    | .error _ => none
  else none

mutual

/-- The names that a statement assigns. -/
def Stmt.targets : Stmt → List String
  | .assign _ n _ _ => [n]
  | .ifThen _ _ _ t => stmtsTargets t
  | .ifElse _ _ _ t _ e => stmtsTargets t ++ stmtsTargets e
  | .ret .. | .use .. | .expr .. | .missing => []

/-- The names that statements assign. -/
def stmtsTargets : List Stmt → List String
  | [] => []
  | s :: ss => s.targets ++ stmtsTargets ss

end

/-- The greatest number of a temporary that a program assigns, or the given number if
that is greater. -/
def Program.lastTemporary (p : Program) (n : Int64) : Int64 :=
  (p.functions.flatMap fun f => stmtsTargets f.func.body.stmts).foldl (fun n t =>
    match temporaryNumber? t with
    | some m => if n < m then m else n
    | none => n) n

/-- The state of hoisting. -/
structure Temporaries where
  /-- The number of the last temporary. -/
  last : Int64 := 0
  /-- Assignments that are to stand before the current statement, the latest first. -/
  pending : List Stmt := []

/-- An action that may hoist operands, and marks whether it did. -/
abbrev Hoisting := StateT Temporaries Revised

namespace Hoisting

/-- What an action makes of a value, or the very value if the action hoists nothing. -/
def orShared {α : Type} (act : Hoisting α) (a : α) : Hoisting α := fun s =>
  let r := act.run s
  r.orShared (a, r.value.2)

/-- Computes an expression into a new temporary. -/
def name (x : Expr) : Hoisting Expr := do
  let s ← get
  let n := s.last + 1
  let name := temporaryName n
  set { last := n, pending := .assign x.loc name none x :: s.pending : Temporaries }
  Revised.replaced (.var x.loc name)

/-- Makes an operand simple, once its own operands are: an operation or a call is named. -/
def simple (x : Expr) (flat : Hoisting Expr) : Hoisting Expr := do
  let y ← flat
  if x.isComplex then name y else return y

mutual

/-- Makes the operands of an expression simple. -/
def expr (x : Expr) : Hoisting Expr :=
  match x with
  | .binOp loc op l r => orShared (do
      let l ← simple l (expr l)
      let r ← simple r (expr r)
      return .binOp loc op l r) x
  | .call loc f as ns => orShared (do
      let f ← simple f (expr f)
      let as ← operands as
      let ns ← namedOperands ns
      return .call loc f as ns) x
  | .tuple loc es => orShared (do return .tuple loc (← exprs es)) x
  | .list loc es => orShared (do return .list loc (← exprs es)) x
  | .access loc y f => orShared (do return .access loc (← expr y) f) x
  | .ifElse loc c t e => orShared (do return .ifElse loc (← expr c) t e) x
  | .matchOn loc y cs => orShared (do return .matchOn loc (← expr y) cs) x
  | .var .. | .uint .. | .int .. | .float .. | .str .. | .bool .. | .eraser .. | .lambda ..
  | .missing => pure x

/-- Makes the operands of each of some expressions simple. -/
def exprs : List Expr → Hoisting (List Expr)
  | [] => return []
  | x :: xs => do
    let x ← expr x
    let xs ← exprs xs
    return x :: xs

/-- Makes some operands simple. -/
def operands : List Expr → Hoisting (List Expr)
  | [] => return []
  | x :: xs => do
    let x ← simple x (expr x)
    let xs ← operands xs
    return x :: xs

/-- Makes some named operands simple. -/
def namedOperands : List NamedArg → Hoisting (List NamedArg)
  | [] => return []
  | .mk loc n x :: rest => do
    let first ← orShared (do return .mk loc n (← simple x (expr x))) (.mk loc n x)
    let rest ← namedOperands rest
    return first :: rest

end

/-- Runs an action with nothing pending. The assignments that are to stand before what it
gives come with that. -/
def collect {α : Type} (act : Hoisting α) : Hoisting (List Stmt × α) := do
  let outer ← get
  set { outer with pending := [] }
  let a ← act
  let inner ← get
  set { inner with pending := outer.pending }
  return (inner.pending.reverse, a)

mutual

/-- Makes the operands of a statement simple. -/
def stmt (s : Stmt) : Hoisting Stmt :=
  match s with
  | .ret loc (some x) => orShared (do return .ret loc (some (← expr x))) s
  | .assign loc target type x => orShared (do return .assign loc target type (← expr x)) s
  | .use loc n x => orShared (do return .use loc n (← expr x)) s
  | .ifThen loc c tl t => orShared (do
      let c ← expr c
      let t ← orShared (stmts t) t
      return .ifThen loc c tl t) s
  | .ifElse loc c tl t el e => orShared (do
      let c ← expr c
      let t ← orShared (stmts t) t
      let e ← orShared (stmts e) e
      return .ifElse loc c tl t el e) s
  | .expr loc x => orShared (do return .expr loc (← expr x)) s
  | .ret _ none | .missing => return s

/-- Statements, each after the assignments that its operands need. -/
def stmts : List Stmt → Hoisting (List Stmt)
  | [] => return []
  | s :: ss => do
    let (before, s) ← collect (stmt s)
    let ss ← stmts ss
    return before ++ s :: ss

end

end Hoisting

/-- Makes the operands in the body of a function simple. -/
def FuncDef.hoist (f : FuncDef) : Hoisting FuncDef := Hoisting.orShared (do
  let stmts ← Hoisting.orShared (Hoisting.stmts f.body.stmts) f.body.stmts
  return { f with body := { f.body with stmts } }) f

/-- Computes complex operands into temporaries numbered after `last`; gives the number
of the last one. -/
def Program.linearize (p : Program) (last : Int64) : Revised Program × Int64 :=
  let r := (Hoisting.orShared (p.mapFunctions FuncDef.hoist) p).run { last := p.lastTemporary last }
  (⟨r.value.1, r.changed⟩, r.value.2.last)

end FunRiscv

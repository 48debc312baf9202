import FunRiscv.Surface.Functions

/-!
# Revising expressions

* `Revised`: a value with a mark that says whether anything was replaced on the way to it.
* `shareList`: a list some of whose members were revised. It is copied only from the
  first change on.
* `Expr.rewrite`: applies a function to every expression, children first. A node none of whose
  children changed is kept.
* `Program.rewrite`: the same in every function body. Patterns are left alone.
* `Program.revise`: rewriting by a rule, which gives a replacement or nothing.
-/

namespace FunRiscv

/-- A value, and whether anything was replaced on the way to it. -/
structure Revised (α : Type) where
  value : α
  changed : Bool
deriving Repr, Inhabited

instance : Monad Revised where
  pure a := ⟨a, false⟩
  bind x f :=
    let y := f x.value
    ⟨y.value, x.changed || y.changed⟩

namespace Revised

/-- A replaced value. -/
def replaced {α : Type} (a : α) : Revised α := ⟨a, true⟩

/-- The result of a rule on a value. -/
def byRule {α : Type} (rule : α → Option α) (a : α) : Revised α :=
  match rule a with
  | some b => replaced b
  | none => pure a

/-- What became of a value, or the very value if nothing was replaced. -/
def orShared {α : Type} (r : Revised α) (a : α) : Revised α := if r.changed then r else pure a

end Revised

/-! ### Shared lists -/

section Share

variable {α : Type}

/-- The copy of a list, if there is one, after the member at a place. The first change starts it,
with the members before. -/
def copyMember (xs : List α) (i : Nat) (x : α) (r : Revised α) : Option (Array α) → Option (Array α)
  | none => if r.changed then some ((xs.take i).toArray.push r.value) else none
  | some copy => some (copy.push (if r.changed then r.value else x))

/-- The copy of a list after the members from a place on, with what became of them. -/
def copyFrom (xs : List α) : Nat → List α → List (Revised α) → Option (Array α) → Option (Array α)
  | i, x :: rest, r :: rs, copy => copyFrom xs (i + 1) rest rs (copyMember xs i x r copy)
  | _, _, _, copy => copy

/-- A list, from what became of its members. -/
def shareList (xs : List α) (rs : List (Revised α)) : Revised (List α) :=
  match copyFrom xs 0 xs rs none with
  | some copy => .replaced copy.toList
  | none => pure xs

end Share

/-! ### Rewriting -/

section Rewrite

variable (f : Expr → Revised Expr)

mutual

/-- Applies a function to every expression under an expression and then to itself. -/
def Expr.rewrite (x : Expr) : Revised Expr := do
  let children : Revised Expr :=
    match x with
    | .tuple loc es => do return .tuple loc (← shareList es (rewriteEach es))
    | .list loc es => do return .list loc (← shareList es (rewriteEach es))
    | .binOp loc op l r => do return .binOp loc op (← l.rewrite) (← r.rewrite)
    | .call loc g as ns => do
      return .call loc (← g.rewrite) (← shareList as (rewriteEach as))
        (← shareList ns (rewriteNamed ns))
    | .lambda loc ps b => do return .lambda loc ps (← b.rewrite)
    | .ifElse loc c t e => do return .ifElse loc (← c.rewrite) (← t.rewrite) (← e.rewrite)
    | .matchOn loc s cs => do return .matchOn loc (← s.rewrite) (← shareList cs (rewriteCases cs))
    | .access loc s field => do return .access loc (← s.rewrite) field
    | .var .. | .uint .. | .int .. | .float .. | .str .. | .bool .. | .eraser ..
    | .missing => pure x
  let x ← children.orShared x
  f x

def rewriteEach : List Expr → List (Revised Expr)
  | [] => []
  | x :: xs => x.rewrite :: rewriteEach xs

def rewriteNamed : List NamedArg → List (Revised NamedArg)
  | [] => []
  | .mk loc n x :: rest => (do return .mk loc n (← x.rewrite)) :: rewriteNamed rest

def rewriteCases : List Case → List (Revised Case)
  | [] => []
  | .mk loc p x :: rest => (do return .mk loc p (← x.rewrite)) :: rewriteCases rest

end

mutual

/-- Applies a function to every expression of a statement. -/
def Stmt.rewrite (s : Stmt) : Revised Stmt :=
  let parts : Revised Stmt :=
    match s with
    | .ret loc (some x) => do return .ret loc (some (← x.rewrite f))
    | .assign loc target type x => do return .assign loc target type (← x.rewrite f)
    | .use loc n x => do return .use loc n (← x.rewrite f)
    | .ifThen loc c tl t =>
      do return .ifThen loc (← c.rewrite f) tl (← shareList t (rewriteStmts t))
    | .ifElse loc c tl t el e => do
      return .ifElse loc (← c.rewrite f) tl (← shareList t (rewriteStmts t)) el
        (← shareList e (rewriteStmts e))
    | .expr loc x => do return .expr loc (← x.rewrite f)
    | .ret _ none | .missing => pure s
  parts.orShared s

def rewriteStmts : List Stmt → List (Revised Stmt)
  | [] => []
  | s :: ss => s.rewrite :: rewriteStmts ss

end

/-- Applies a function to every expression of a function body. -/
def FuncDef.rewrite (d : FuncDef) : Revised FuncDef :=
  let rewritten : Revised FuncDef := do
    let stmts ← shareList d.body.stmts (rewriteStmts f d.body.stmts)
    pure { d with body := { d.body with stmts } }
  rewritten.orShared d

/-- Applies a function to every expression of every function body. -/
def Program.rewrite (p : Program) : Revised Program :=
  (p.mapFunctions (FuncDef.rewrite f)).orShared p

end Rewrite

/-- Applies a rule to every expression of every function body. -/
def Program.revise (rule : Expr → Option Expr) (p : Program) : Revised Program :=
  p.rewrite (Revised.byRule rule)

end FunRiscv

import FunRiscv.Number.Arithmetic
import FunRiscv.Pass.Revise

/-!
# Folding of float operations

* `foldConstants`: an operation on two float literals. Comparisons fold to the `u24` literals one
  and zero. Division and remainder by zero are left for run time.
* `foldIdentity`: an operation with one literal zero or one.
* `Program.foldFloats`: applies both everywhere.
-/

namespace FunRiscv

/-- A truth value as a `u24` literal. -/
def truthLiteral (loc : Location) (b : Bool) : Expr := .uint loc (if b then 1 else 0)

/-- The value of an operation on two float literals. -/
def foldConstants (loc : Location) (op : Operator) (l r : Float) : Option Expr :=
  match op with
  | .add => some (.float loc (l + r))
  | .sub => some (.float loc (l - r))
  | .mul => some (.float loc (l * r))
  | .div => if r == 0 then none else some (.float loc (l / r))
  | .mod => if r == 0 then none else some (.float loc (Number.remainder l r))
  | .pow => some (.float loc (Number.power l r))
  | .eq => some (truthLiteral loc (l == r))
  | .ne => some (truthLiteral loc (l != r))
  | .lt => some (truthLiteral loc (decide (l < r)))
  | .le => some (truthLiteral loc (decide (l ≤ r)))
  | .gt => some (truthLiteral loc (decide (r < l)))
  | .ge => some (truthLiteral loc (decide (r ≤ l)))
  | .and | .or | .xor | .shl | .shr => none

/-- Whether an expression is the float literal of a value. -/
def Expr.isFloat (v : Float) : Expr → Bool
  | .float _ w => w == v
  | _ => false

/-- An operation with a literal zero or one on one side. -/
def foldIdentity (loc : Location) (op : Operator) (l r : Expr) : Option Expr :=
  match op with
  | .add => if r.isFloat 0 then some l else if l.isFloat 0 then some r else none
  | .sub => if r.isFloat 0 then some l else none
  | .mul =>
    if r.isFloat 1 then some l
    else if l.isFloat 1 then some r
    else if r.isFloat 0 || l.isFloat 0 then some (.float loc 0)
    else none
  | .div => if r.isFloat 1 then some l else none
  | .pow =>
    if r.isFloat 1 then some l
    else if r.isFloat 0 then some (.float loc 1)
    else none
  | _ => none

/-- The rule of float folding. -/
def floatRule : Expr → Option Expr
  | .binOp loc op (.float _ l) (.float _ r) => foldConstants loc op l r
  | .binOp loc op l r => foldIdentity loc op l r
  | _ => none

/-- Folds float operations. -/
def Program.foldFloats (p : Program) : Revised Program := p.revise floatRule

end FunRiscv

/-!
# Binary operators

* `Operator`: the seventeen operators, in the order of their codes.
* `Operator.symbol`, `Operator.ofSymbol?`: their spelling.
* `Operator.kind`: the class that decides which operands an operator takes.
-/

namespace FunRiscv

/-- A binary operator. -/
inductive Operator where
  | add | sub | mul | div | mod | pow
  | eq | ne | lt | le | gt | ge
  | and | or | xor | shl | shr
deriving DecidableEq, Repr, Inhabited

/-- Operators that take the same kinds of operands. -/
inductive OperatorKind where
  | arithmetic | comparison | bitwise | shift | power
deriving DecidableEq, Repr, Inhabited

namespace Operator

/-- All operators, in the order of their codes. -/
def all : List Operator :=
  [add, sub, mul, div, mod, pow, eq, ne, lt, le, gt, ge, and, or, xor, shl, shr]

/-- The spelling of an operator. -/
def symbol : Operator → String
  | add => "+"
  | sub => "-"
  | mul => "*"
  | div => "/"
  | mod => "%"
  | pow => "**"
  | eq => "=="
  | ne => "!="
  | lt => "<"
  | le => "<="
  | gt => ">"
  | ge => ">="
  | and => "&"
  | or => "|"
  | xor => "^"
  | shl => "<<"
  | shr => ">>"

/-- The operator with a given spelling. -/
def ofSymbol? (s : String) : Option Operator := all.find? fun op => op.symbol == s

/-- The class of an operator. -/
def kind : Operator → OperatorKind
  | add | sub | mul | div | mod => .arithmetic
  | eq | ne | lt | le | gt | ge => .comparison
  | and | or | xor => .bitwise
  | shl | shr => .shift
  | pow => .power

/-- The code of an operator: its place in `all`. -/
def code (op : Operator) : Nat := all.idxOf op

/-- The operator with a given code. -/
def ofCode? (n : Int) : Option Operator := if n < 0 then none else all[n.toNat]?

/-- The spelling of the operator with a code, or the code itself when no operator has it. -/
def codeText (n : Int) : String :=
  match ofCode? n with
  | some op => op.symbol
  | none => "Op(" ++ toString n ++ ")"

/-- The class of the operator with a code; a code without an operator counts as a power. -/
def codeKind (n : Int) : OperatorKind := ((ofCode? n).map kind).getD .power

end Operator

/-- The code of an operator class. -/
def OperatorKind.code : OperatorKind → Nat
  | .arithmetic => 0
  | .comparison => 1
  | .bitwise => 2
  | .shift => 3
  | .power => 4

end FunRiscv

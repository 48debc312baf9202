import FunRiscv.Surface.Location
import FunRiscv.Surface.Operator

/-!
# The surface tree

The tree of a program as it is written. Every node carries its location.

* `TypeExpr`: types as written.
* `Expr`, `NamedArg`, `Case`, `Pattern`: expressions and patterns; a literal pattern holds
  the literal expression.
* `Stmt`, `Block`: statements.
* `Definition`, `Program`: definitions, modules and whole programs.

A tree built by hand may lack a node where the grammar demands one; the constructors named `missing`
stand for such a gap. The reader never produces one.
-/

namespace FunRiscv

/-! ### Types as written -/

/-- A type as written in the source. -/
inductive TypeExpr where
  /-- A named type with its arguments, such as `List<u24>`. -/
  | name (loc : Location) (name : String) (args : List TypeExpr)
  /-- A function type. -/
  | func (loc : Location) (param result : TypeExpr)
  /-- A tuple type; the empty one is the unit type. -/
  | tuple (loc : Location) (elems : List TypeExpr)
  /-- A gap in a tree built by hand. -/
  | missing
deriving Repr, Inhabited

/-- A parameter of a function or of a lambda. -/
structure Param where
  loc : Location
  name : String
  type : Option TypeExpr
deriving Repr, Inhabited

/-! ### Expressions -/

mutual

/-- An expression. -/
inductive Expr where
  | var (loc : Location) (name : String)
  | uint (loc : Location) (value : UInt32)
  | int (loc : Location) (value : Int32)
  | float (loc : Location) (value : Float)
  | str (loc : Location) (bytes : List UInt8)
  | bool (loc : Location) (value : Bool)
  /-- The eraser, written as a star. -/
  | eraser (loc : Location)
  | tuple (loc : Location) (elems : List Expr)
  | list (loc : Location) (elems : List Expr)
  | binOp (loc : Location) (op : Operator) (left right : Expr)
  /-- A call: positional arguments first, then named ones. -/
  | call (loc : Location) (callee : Expr) (args : List Expr) (named : List NamedArg)
  | lambda (loc : Location) (params : List Param) (body : Expr)
  | ifElse (loc : Location) (cond thenArm elseArm : Expr)
  | matchOn (loc : Location) (scrutinee : Expr) (cases : List Case)
  | access (loc : Location) (target : Expr) (field : String)
  /-- A gap in a tree built by hand. -/
  | missing

/-- An argument given by the name of a constructor field. -/
inductive NamedArg where
  | mk (loc : Location) (name : String) (value : Expr)

/-- One arm of a match. -/
inductive Case where
  | mk (loc : Location) (pattern : Pattern) (body : Expr)

/-- A pattern of a match arm. -/
inductive Pattern where
  | var (loc : Location) (name : String)
  | wild (loc : Location)
  /-- A literal, held as the expression that writes it. -/
  | lit (loc : Location) (value : Expr)
  | cons (loc : Location) (name : String) (args : List Pattern)
  | tuple (loc : Location) (elems : List Pattern)
  /-- A gap in a tree built by hand. -/
  | missing

end

instance : Inhabited Expr := ⟨.missing⟩

instance : Inhabited Pattern := ⟨.missing⟩

namespace NamedArg

def loc : NamedArg → Location
  | mk l _ _ => l

def name : NamedArg → String
  | mk _ n _ => n

def value : NamedArg → Expr
  | mk _ _ e => e

end NamedArg

namespace Case

def loc : Case → Location
  | mk l _ _ => l

def pattern : Case → Pattern
  | mk _ p _ => p

def body : Case → Expr
  | mk _ _ e => e

end Case

namespace Expr

/-- The location of an expression; a gap has the zero location. -/
def loc : Expr → Location
  | var l _ | uint l _ | int l _ | float l _ | str l _ | bool l _ | eraser l | tuple l _ | list l _
  | binOp l _ _ _ | call l _ _ _ | lambda l _ _ | ifElse l _ _ _ | matchOn l _ _ | access l _ _ => l
  | missing => {}

/-- Literals are the constant leaves. -/
def isLiteral : Expr → Bool
  | uint .. | int .. | float .. | str .. | bool .. | eraser .. => true
  | _ => false

/-- Operations and calls are complex: as an operand they need a name of their own. -/
def isComplex : Expr → Bool
  | binOp .. | call .. => true
  | _ => false

end Expr

/-- The location of a pattern; a gap has the zero location. -/
def Pattern.loc : Pattern → Location
  | .var l _ | .wild l | .lit l _ | .cons l _ _ | .tuple l _ => l
  | .missing => {}

/-- The location of a type as written; a gap has the zero location. -/
def TypeExpr.loc : TypeExpr → Location
  | .name l _ _ | .func l _ _ | .tuple l _ => l
  | .missing => {}

/-! ### Statements -/

/-- A statement. The arms of a conditional are blocks, held as a location and a list. -/
inductive Stmt where
  | ret (loc : Location) (value : Option Expr)
  | assign (loc : Location) (target : String) (type : Option TypeExpr) (value : Expr)
  | use (loc : Location) (name : String) (value : Expr)
  /-- A conditional without an else arm. -/
  | ifThen (loc : Location) (cond : Expr) (thenLoc : Location) (thenArm : List Stmt)
  /-- A conditional with both arms. -/
  | ifElse (loc : Location) (cond : Expr) (thenLoc : Location) (thenArm : List Stmt)
      (elseLoc : Location) (elseArm : List Stmt)
  | expr (loc : Location) (value : Expr)
  /-- A gap in a tree built by hand. -/
  | missing
deriving Inhabited

/-- The location of a statement; a gap has the zero location. -/
def Stmt.loc : Stmt → Location
  | .ret l _ | .assign l _ _ _ | .use l _ _ | .ifThen l _ _ _ | .ifElse l _ _ _ _ _ | .expr l _ => l
  | .missing => {}

/-- A block of statements. -/
structure Block where
  loc : Location
  stmts : List Stmt
deriving Inhabited

/-! ### Definitions -/

/-- A field of a variant or of an object. -/
structure Field where
  loc : Location
  name : String
  type : TypeExpr
deriving Repr, Inhabited

/-- One variant of a type definition. -/
structure Variant where
  loc : Location
  name : String
  fields : List Field
deriving Repr, Inhabited

/-- A function. `checked` records that the type checker accepted it. -/
structure FuncDef where
  loc : Location
  name : String
  params : List Param
  ret : Option TypeExpr
  body : Block
  checked : Bool
deriving Inhabited

/-- A type with its variants. -/
structure TypeDef where
  loc : Location
  name : String
  typeParams : List String
  variants : List Variant
deriving Inhabited

/-- A type with fields and methods. -/
structure ObjectDef where
  loc : Location
  name : String
  typeParams : List String
  fields : List Field
  funcs : List FuncDef
deriving Inhabited

/-- A second name for a type. -/
structure TypeAlias where
  loc : Location
  name : String
  typeParams : List String
  type : TypeExpr
deriving Inhabited

/-- A definition, at the top level or in a module. -/
inductive Definition where
  | func (d : FuncDef)
  | type (d : TypeDef)
  | object (d : ObjectDef)
  | alias (d : TypeAlias)
  | module (loc : Location) (name : String) (defs : List Definition)
deriving Inhabited

/-- The name a definition introduces. -/
def Definition.name : Definition → String
  | .func d => d.name
  | .type d => d.name
  | .object d => d.name
  | .alias d => d.name
  | .module _ n _ => n

/-- An import of another file, with the names taken from it. -/
structure Import where
  loc : Location
  path : String
  names : List String
deriving Inhabited

/-- A program. -/
structure Program where
  imports : List Import
  defs : List Definition
deriving Inhabited

end FunRiscv

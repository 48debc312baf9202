import FunRiscv.Surface.Location
import FunRiscv.Trace
import FunRiscv.Ty.Basic

/-!
# Type errors

* `TypeErrorKind`: the kinds of type errors.
* `TypeCause`: what is wrong, and `TypeError`: with the place where it is.
* `TypeError.message`: how it is said.
-/

namespace FunRiscv

/-- The kinds of type errors. -/
inductive TypeErrorKind where
  | undefinedVariable | undefinedType | undefinedConstructor | mismatch | operation | generic
deriving DecidableEq, Repr, Inhabited

namespace TypeErrorKind

/-- All kinds, in the order of their codes. -/
def all : List TypeErrorKind :=
  [undefinedVariable, undefinedType, undefinedConstructor, mismatch, operation, generic]

def text : TypeErrorKind → String
  | undefinedVariable => "undefined variable"
  | undefinedType => "undefined type"
  | undefinedConstructor => "undefined constructor"
  | mismatch => "type mismatch"
  | operation => "incompatible operation"
  | generic => "type error"

/-- The text of the kind with a code, or the code itself when no kind has it. -/
def codeText (n : Int) : String :=
  match if n < 0 then none else all[n.toNat]? with
  | some k => k.text
  | none => "ErrorKind(" ++ toString n ++ ")"

end TypeErrorKind

/-- What is wrong with the types of a program. -/
inductive TypeCause where
  | undefinedVariable (name : String)
  | undefinedType (name : String)
  | undefinedConstructor (name : String)
  | mismatch (expected found : Ty)
  /-- An operator on operands outside its class. -/
  | operation (op : String) (left right : Ty)
  /-- Unification took more steps than allowed. -/
  | stepLimit (limit : Nat)
  /-- Two definitions of one name. -/
  | duplicate (name : String)
  | typeArity (name : String) (expected got : Nat)
  | notAValue (name : String)
  | notAFunction (type : Ty)
  /-- Named arguments of something that is no constructor with fields. -/
  | namedArguments
  | fieldCount (expected got : Nat)
  | fieldTwice (name : String)
  | unknownField (name : String)
  | noCases
  | patternArity (name : String) (expected got : Nat)
  | noTupleField (type : Ty) (field : String)
  | noField (owner field : String)
  | noFields (field : String) (type : Ty)
  /-- A gap in a tree built by hand. -/
  | gap (place : String)
  /-- The unifier's own bound on nesting was reached. -/
  | exhausted
deriving Repr, Inhabited

namespace TypeCause

/-- The kind of a cause. -/
def kind : TypeCause → TypeErrorKind
  | undefinedVariable _ => .undefinedVariable
  | undefinedType _ => .undefinedType
  | undefinedConstructor _ => .undefinedConstructor
  | mismatch .. => .mismatch
  | operation .. => .operation
  | _ => .generic

/-- How a cause is said. -/
def message : TypeCause → String
  | undefinedVariable n => "undefined variable: " ++ n
  | undefinedType n => "undefined type: " ++ n
  | undefinedConstructor n => "undefined constructor: " ++ n
  | mismatch e f => "type mismatch: expected " ++ e.text ++ ", found " ++ f.text
  | operation op l r => "incompatible operation: " ++ l.text ++ " " ++ op ++ " " ++ r.text
  | stepLimit n => "unification step limit exceeded (" ++ toString n ++ ")"
  | duplicate n => "duplicate definition: " ++ n
  | typeArity n e g =>
    "type " ++ n ++ " expects " ++ toString e ++ " parameters, got " ++ toString g
  | notAValue n => n ++ " is not a value"
  | notAFunction t => "cannot call non-function of type " ++ t.text
  | namedArguments => "named arguments are only allowed for constructors"
  | fieldCount e g => "constructor expects " ++ toString e ++ " fields, got " ++ toString g
  | fieldTwice n => "field " ++ n ++ " is set twice"
  | unknownField n => "unknown field: " ++ n
  | noCases => "match without cases"
  | patternArity n e g =>
    "constructor " ++ n ++ " expects " ++ toString e ++ " fields, got " ++ toString g
  | noTupleField t f => "tuple " ++ t.text ++ " has no field " ++ f
  | noField o f => o ++ " has no field " ++ f
  | noFields f t => "cannot access field " ++ f ++ " of " ++ t.text
  | gap place => "unsupported " ++ place ++ ": <nil>"
  | exhausted => "unification bound reached"

end TypeCause

/-- A type error: a cause and its place, which may be the zero location. -/
structure TypeError where
  cause : TypeCause
  loc : Location := {}
deriving Repr, Inhabited

namespace TypeError

/-- Sets the place of an error that has none. -/
def placedAt (e : TypeError) (loc : Location) : TypeError :=
  if e.loc = {} then { e with loc } else e

/-- How an error is said, with its place if it has one. -/
def message (e : TypeError) : String :=
  if e.loc = {} then e.cause.message else e.loc.text ++ ": " ++ e.cause.message

end TypeError

end FunRiscv

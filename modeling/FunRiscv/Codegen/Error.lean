import FunRiscv.Alloc.LiveRange
import FunRiscv.Surface.Location
import FunRiscv.Ty.Basic

/-!
# Errors of code generation

* `CodegenErrorKind`: the kinds of errors.
* `CodegenCause`: what is wrong, and `CodegenError`: with the place where it is.
* `CodegenError.message`: how it is said.
-/

namespace FunRiscv

/-- The kinds of errors of code generation. -/
inductive CodegenErrorKind where
  | undefinedVariable | unsupportedFeature | invalidOperation | generic
deriving DecidableEq, Repr, Inhabited

namespace CodegenErrorKind

/-- All kinds, in the order of their codes. -/
def all : List CodegenErrorKind :=
  [undefinedVariable, unsupportedFeature, invalidOperation, generic]

def text : CodegenErrorKind → String
  | undefinedVariable => "undefined variable"
  | unsupportedFeature => "unsupported feature"
  | invalidOperation => "invalid operation"
  | generic => "codegen error"

/-- The text of the kind with a code, or the code itself when no kind has it. -/
def codeText (n : Int) : String :=
  match if n < 0 then none else all[n.toNat]? with
  | some k => k.text
  | none => "ErrorKind(" ++ toString n ++ ")"

end CodegenErrorKind

/-- Why no code can be generated. -/
inductive CodegenCause where
  | undefinedVariable (name : String)
  | unsupported (feature : String)
  | tooManyParams (function : String) (count : Nat)
  | tooManyArgs (callee : String) (count : Nat)
  | literalRange (value : Int) (type : Word)
  | frameSize (function : String) (size : Int32)
  | nesting (limit : Int)
  | duplicateLabel (function label : String)
  | unwritten (register : UnwrittenRegister)
  /-- A statement is nested too deeply to be shown in a comment. -/
  | undescribable
  /-- A gap in a tree built by hand. -/
  | gap
deriving DecidableEq, Repr, Inhabited

namespace CodegenCause

def kind : CodegenCause → CodegenErrorKind
  | undefinedVariable _ => .undefinedVariable
  | unsupported _ => .unsupportedFeature
  | tooManyParams .. | tooManyArgs .. | literalRange .. | frameSize .. => .invalidOperation
  | nesting _ | duplicateLabel .. | unwritten _ | undescribable | gap => .generic

/-- The name that the error is about. -/
def subject : CodegenCause → String
  | undefinedVariable name => name
  | tooManyParams function _ | frameSize function _ | duplicateLabel function _ => function
  | tooManyArgs callee _ => callee
  | unwritten u => u.reg.text
  | unsupported _ | literalRange .. | nesting _ | undescribable | gap => ""

/-- What is said about it. -/
def detail : CodegenCause → String
  | undefinedVariable _ => ""
  | unsupported feature => feature
  | tooManyParams _ n =>
    toString n ++ " parameters, at most " ++ toString Reg.argCount ++ " supported"
  | tooManyArgs _ n => toString n ++ " arguments, at most " ++ toString Reg.argCount ++ " supported"
  | literalRange v t => "literal " ++ toString v ++ " out of " ++ t.text ++ " range"
  | frameSize _ n => "stack frame of " ++ toString n.toInt ++ " bytes is too large"
  | nesting limit => "nesting deeper than " ++ toString limit
  | duplicateLabel _ label => "duplicate label " ++ label
  | unwritten u => "register used before definition at " ++ toString u.place
  | undescribable => "statement too deep to describe"
  | gap => "incomplete tree"

end CodegenCause

/-- An error of code generation. -/
structure CodegenError where
  loc : Location
  cause : CodegenCause
deriving DecidableEq, Repr, Inhabited

/-- How an error is said: its place, unless that is unknown, its kind, and what there
is to say about it. -/
def CodegenError.message (e : CodegenError) : String :=
  let place := if e.loc = {} then [] else [e.loc.text]
  let parts := [e.cause.subject, e.cause.detail].filter (· ≠ "")
  String.intercalate ": " (place ++ e.cause.kind.text :: parts)

end FunRiscv

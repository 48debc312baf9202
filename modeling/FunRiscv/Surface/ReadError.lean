import FunRiscv.Surface.Source
import FunRiscv.Text.Quoted
import FunRiscv.Trace

/-!
# Errors of reading

* `ReadCause`: why a source text is no program.
* `ReadCause.message`: how that is said.
-/

namespace FunRiscv

/-- Why a source text is no program. -/
inductive ReadCause where
  /-- Something else was wanted than what was found. -/
  | unexpected (loc : Location) (want : String) (found : List UInt8)
  /-- A literal with a point beyond the largest double. -/
  | floatRange (loc : Location) (digits : String)
  /-- A signed literal beyond 24 bits, or without digits. -/
  | intRange (loc : Location) (literal : String)
  /-- An unsigned literal beyond 24 bits, or without digits. -/
  | uintRange (loc : Location) (literal : String)
  /-- A string literal with a bad escape or a raw line break. -/
  | badString (loc : Location)
  /-- A look left the text. -/
  | outside (access : Outside)
  /-- The reader's own bound was reached. -/
  | exhausted
deriving Inhabited

/-- The message of a cause. -/
def ReadCause.message : ReadCause → String
  | unexpected loc want found => loc.text ++ ": " ++ want ++ " expected, found " ++ Text.quote found
  | floatRange loc digits =>
    loc.text ++ ": float: strconv.ParseFloat: parsing " ++ Text.quoteText
      digits ++ ": value out of range"
  | intRange loc literal => loc.text ++ ": i24 literal out of range: " ++ literal
  | uintRange loc literal => loc.text ++ ": u24 literal out of range: " ++ literal
  | badString loc => loc.text ++ ": string: invalid syntax"
  | outside access =>
    "text left at [" ++ toString access.start ++ ":" ++ toString access.stop ++ "]"
  | exhausted => "reader bound reached"

/-- An error of reading. -/
abbrev ReadError := Traced ReadCause

end FunRiscv

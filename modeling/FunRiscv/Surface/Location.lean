/-!
# Source locations

* `Location`: where a node stands in its source text, for diagnostics only.
* `Location.text`: the location as messages show it.
-/

namespace FunRiscv

/-- The place of a node: line and column of its first byte, counted from one, and its byte span. A
node built by hand has the zero location, or any other numbers its builder likes. -/
structure Location where
  line : Int := 0
  column : Int := 0
  pos : Int := 0
  stop : Int := 0
deriving DecidableEq, Repr, Inhabited

/-- A location is shown as `line:column`, or by its byte position when it has no line. -/
def Location.text (l : Location) : String :=
  if l.line = 0 then "pos " ++ toString l.pos
  else toString l.line ++ ":" ++ toString l.column

end FunRiscv

import FunRiscv.Surface.Location

/-!
# Source texts

A source is a byte string. Positions count bytes from zero, lines end at a line feed.

* `Source`: the bytes, with the start of every line.
* `Look`: a look at a text. `Source.index`, `Source.cut` and `Source.hasPrefix` fail where they
  leave the text; whatever is to hold of the position is for their callers to see to.
* `Source.locate`: the location of a byte span.
* `Blanks`: a set of blank bytes, and `Source.passBlanks` over them.
* `Source.skip`: the end of the blanks and comments at a position. A comment runs from `#` or `//`
  to the end of its line.
-/

namespace FunRiscv

/-- The position of every line of a byte string. -/
def lineStartsOf (bytes : Array UInt8) : Array Nat :=
  #[0] ++ ((Array.range bytes.size).filter fun i => bytes[i]? == some 10).map (· + 1)

/-- A source text. -/
structure Source where
  bytes : Array UInt8
  lineStarts : Array Nat := lineStartsOf bytes
  lineStarts_eq : lineStarts = lineStartsOf bytes := by rfl

/-! ### Leaving the text -/

/-- An access to the bytes from `start` up to `stop` that is not inside the text. -/
structure Outside where
  start : Nat
  stop : Nat
deriving DecidableEq, Repr, Inhabited

/-- What comes of looking at a text: a value, or an access that left the text. -/
abbrev Look := Except Outside

/-! ### Blank bytes -/

/-- A set of blank bytes. Only codes below 64 can be blank. -/
structure Blanks where
  codes : List UInt8
  codes_lt : codes.all (· < 64) = true

namespace Blanks

/-- The set of the given codes, or nothing if one of them is too high. -/
def ofCodes? (codes : List UInt8) : Option Blanks :=
  if h : codes.all (· < 64) = true then some ⟨codes, h⟩ else none

/-- Blank, tab, carriage return and line feed. -/
def all : Blanks := ⟨[32, 9, 13, 10], by decide⟩

def contains (s : Blanks) (b : UInt8) : Bool := s.codes.contains b

end Blanks

namespace Source

/-- The length in bytes. -/
def size (src : Source) : Nat := src.bytes.size

/-- The byte at a position, if there is one. -/
def byte? (src : Source) (i : Nat) : Option UInt8 := src.bytes[i]?

/-- The bytes of a span. -/
def slice (src : Source) (i j : Nat) : List UInt8 := (src.bytes.extract i j).toList

/-- Whether the given bytes stand at a position. -/
def startsWith (src : Source) : (i : Nat) → List UInt8 → Bool
  | _, [] => true
  | i, b :: bs => src.byte? i == some b && startsWith src (i + 1) bs

/-- There is a line, and so a place in the table before the count of any of its entries. -/
theorem countP_lineStarts_lt (src : Source) (p : Nat → Bool) :
    src.lineStarts.countP p - 1 < src.lineStarts.size := by
  have hpos : 0 < src.lineStarts.size := by
    rw [src.lineStarts_eq, lineStartsOf, Array.size_append, Array.size_singleton]
    omega
  have hle : src.lineStarts.countP p ≤ src.lineStarts.size := Array.countP_le_size
  omega

/-- The location of a span. Its line is the last one that starts at or before the span. -/
def locate (src : Source) (pos : Nat) (stop : Int) : Location :=
  let line := src.lineStarts.countP (· ≤ pos)
  have _hline : line - 1 < src.lineStarts.size := src.countP_lineStarts_lt _
  { line := line
    column := (pos : Int) - (src.lineStarts[line - 1] : Nat) + 1
    pos := pos
    stop := stop }

/-! ### Looks -/

/-- The byte at a position of the text. -/
def index (src : Source) (i : Nat) : Look UInt8 :=
  if h : i < src.bytes.size then .ok src.bytes[i] else .error ⟨i, i + 1⟩

/-- The bytes of a span of the text. -/
def cut (src : Source) (i j : Nat) : Look (List UInt8) :=
  if i ≤ j ∧ j ≤ src.size then .ok (src.slice i j) else .error ⟨i, j⟩

/-- Whether the rest of the text from a position on starts with the given bytes. -/
def hasPrefix (src : Source) (i : Nat) (bs : List UInt8) : Look Bool :=
  if i ≤ src.size then .ok (src.startsWith i bs) else .error ⟨i, src.size⟩

/-- Whether a position is before the end of the text and its byte passes a test. -/
def holdsAt (src : Source) (p : UInt8 → Bool) (i : Nat) : Look Bool :=
  if i < src.size then p <$> src.index i else pure false

/-! ### Passing over bytes -/

/-- The first position at or after `i`, within `fuel` bytes, whose byte fails the test. -/
def passWithin (src : Source) (p : UInt8 → Bool) : (fuel : Nat) → (i : Nat) → Look Nat
  | 0, i => pure i
  | fuel + 1, i => do
    if ← src.holdsAt p i then passWithin src p fuel (i + 1) else return i

/-- The first position at or after `i` whose byte fails the test, or the end of the text. -/
def pass (src : Source) (p : UInt8 → Bool) (i : Nat) : Look Nat := src.passWithin p (src.size - i) i

/-- The end of the blanks at a position. -/
def passBlanks (src : Source) (blanks : Blanks) (i : Nat) : Look Nat := src.pass blanks.contains i

/-- Whether a comment starts at a position. -/
def opensComment (src : Source) (i : Nat) : Look Bool :=
  src.holdsAt (· == 0x23) i <||> src.hasPrefix i [0x2f, 0x2f]

/-- The end of the blanks and of fewer than `fuel` comments at a position. -/
def skipWithin (src : Source) : (fuel : Nat) → (i : Nat) → Look Nat
  | 0, i => pure i
  | fuel + 1, i => do
    let j ← src.passBlanks .all i
    if ← src.opensComment j then skipWithin src fuel (← src.pass (· != 10) j) else return j

/-- The end of the blanks and comments at a position: where the next token starts. No comment is
empty, so there are no more of them than bytes. -/
def skip (src : Source) (i : Nat) : Look Nat := src.skipWithin (src.size - i + 1) i

end Source

end FunRiscv

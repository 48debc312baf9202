import FunRiscv.Number.Decimal
import FunRiscv.Surface.Reading
import FunRiscv.Surface.Tree

/-!
# Reading literals

* `number`: numbers. Plain digits make a 24-bit unsigned literal, a sign makes a signed one, and a
  point with a digit after it makes a float. Hexadecimal digits follow `0x`.
* `string`: quoted strings.
-/

namespace FunRiscv.Reading

variable (src : Source)

/-- The number that digit bytes write in a base, or nothing if there are none. -/
def digitsValue? (base : Nat) (digits : List UInt8) : Option Nat :=
  if digits.isEmpty then none
  else some (Text.fromDigits base (digits.filterMap fun b => Text.hexValue? (Char.ofNat b.toNat)))

/-- The literal with a point that stands from `start` to `stop`, its digits starting at `digits`. -/
def floatLiteral (start digits point stop : Nat) (negative : Bool) : Reading Expr := do
  let loc := src.locate start stop
  let text ← look (src.cut digits stop)
  let whole := text.take (point - digits)
  let places := text.drop (point - digits + 1)
  let value := Number.ofDecimal ((digitsValue? 10 (whole ++ places)).getD 0) places.length
  if value.isInf then
    failWith (ReadCause.floatRange loc (Text.ofAscii text))
  else
    set stop
    return .float loc (if negative then -value else value)

/-- The signed literal that stands from `start` to `stop`. -/
def intLiteral (start stop : Nat) (magnitude : Option Nat) (negative : Bool) : Reading Expr := do
  let loc := src.locate start stop
  let fail : Reading Expr := do
    failWith (ReadCause.intRange loc (Text.ofAscii (← look (src.cut start stop))))
  match magnitude with
  | none => fail
  | some n =>
    let v : Int := if negative then -n else n
    if v < -0x800000 || 0x800000 ≤ v then fail
    else
      set stop
      return .int loc (Int32.ofInt v)

/-- The unsigned literal that stands from `start` to `stop`. -/
def uintLiteral (start stop : Nat) (magnitude : Option Nat) : Reading Expr := do
  let loc := src.locate start stop
  let fail : Reading Expr := do
    failWith (ReadCause.uintRange loc (Text.ofAscii (← look (src.cut start stop))))
  match magnitude with
  | none => fail
  | some n =>
    if 0x1000000 ≤ n then fail
    else
      set stop
      return .uint loc n.toUInt32

/-- Whether a point with a digit after it stands at a position. -/
def pointAt (src : Source) (i : Nat) : Look Bool :=
  if i + 1 < src.size then (· == 0x2e) <$> src.index i <&&> isDigit <$> src.index (i + 1)
  else pure false

/-- The number that starts at `start`, its digits starting at `digits`, which is later
if it has a sign. -/
def number (start digits : Nat) : Reading Expr := do
  let signed := start != digits
  let hex ← look (src.hasPrefix digits [0x30, 0x78])
  let first := if hex then digits + 2 else digits
  let stop ← look (src.pass (if hex then isHexDigit else isDigit) first)
  let pointed ← if hex then pure false else look (pointAt src stop)
  let negative ← if signed then look ((· == 0x2d) <$> src.index start) else pure false
  if pointed then
    floatLiteral src start digits stop (← look (src.pass isDigit (stop + 1))) negative
  else
    let magnitude := digitsValue? (if hex then 16 else 10) (← look (src.cut first stop))
    if signed then intLiteral src start stop magnitude negative
    else uintLiteral src start stop magnitude

/-- The position of the closing quote of a string whose inside is at `i`, within `fuel` bytes. A
byte after a backslash closes nothing; so the position may lie beyond the end of the text. -/
def quoteWithin (src : Source) : (fuel : Nat) → (i : Nat) → Look Nat
  | 0, i => pure i
  | fuel + 1, i => do
    if ← src.holdsAt (· != 0x22) i then
      if (← src.index i) == 0x5c then quoteWithin src fuel (i + 2) else quoteWithin src fuel (i + 1)
    else return i

/-- The string that starts at `start`. -/
def string (start : Nat) : Reading Expr := do
  let i ← look (quoteWithin src (src.size + 1) (start + 1))
  if src.size ≤ i then unexpectedAt src i "closing quote"
  else
    let loc := src.locate start (i + 1 : Nat)
    let quoted ← look (src.cut start (i + 1))
    match Text.unquote? quoted.tail.dropLast with
    | some bytes =>
      set (i + 1)
      return .str loc bytes
    | none => failWith (ReadCause.badString loc)

end FunRiscv.Reading

import FunRiscv.Number.Double

/-!
# Remainder and power of doubles

* `remainder`: the exact remainder with the sign of the dividend.
* `power`: powers by repeated squaring of the fraction, with the exponent of two kept apart.
-/

namespace FunRiscv.Number

/-- Not a number. -/
def notANumber : Float := Float.ofBits 0x7ff8000000000000

/-- An infinity. -/
def infinity (negative : Bool) : Float :=
  Float.ofBits (if negative then 0xfff0000000000000 else 0x7ff0000000000000)

/-- The exact remainder of the truncated quotient; it has the sign of the dividend. -/
def remainder (x y : Float) : Float :=
  match decode x, decode y with
  | .finite neg a, .finite _ b =>
    if b.mantissa = 0 then notANumber
    else
      let e := min a.exponent b.exponent
      let n := a.mantissa * Nat.pow 2 (a.exponent - e).toNat
      let d := b.mantissa * Nat.pow 2 (b.exponent - e).toNat
      ofMagnitude neg ⟨n % d, e⟩
  | .finite .., .infinite _ => x
  | _, _ => notANumber

/-- A finite non-zero double as a fraction in `[1/2, 1)`, with its sign, and an exponent of two. -/
def fraction (x : Float) : Float × Int :=
  match decode x with
  | .finite neg m =>
    if m.mantissa = 0 then (x, 0)
    else
      let width : Int := m.mantissa.log2 + 1
      (ofMagnitude neg ⟨m.mantissa, -width⟩, m.exponent + width)
  | _ => (x, 0)

/-- A double times a power of two. -/
def scale (x : Float) (e : Int) : Float :=
  match decode x with
  | .finite neg m =>
    if m.mantissa = 0 then x
    else if 3000 < m.exponent + e then infinity neg
    else if m.exponent + e < -3000 then ofMagnitude neg ⟨0, 0⟩
    else ofMagnitude neg ⟨m.mantissa, m.exponent + e⟩
  | _ => x

/-- The whole part of the magnitude of a finite double. -/
def Magnitude.whole (m : Magnitude) : Nat :=
  if 0 ≤ m.exponent then m.mantissa * Nat.pow 2 m.exponent.toNat else
    m.mantissa / Nat.pow 2 (-m.exponent).toNat

/-- Whether the magnitude has no fractional part. -/
def Magnitude.isWhole (m : Magnitude) : Bool :=
  decide (0 ≤ m.exponent) || decide (m.mantissa % Nat.pow 2 (-m.exponent).toNat = 0)

/-- Whether a double is an odd whole number. -/
def isOdd (x : Float) : Bool :=
  match decode x with
  | .finite _ m => m.isWhole && m.whole % 2 = 1
  | _ => false

/-- The state of repeated squaring: the answer and the running square, each a fraction
and an exponent. -/
structure Squaring where
  answer : Float
  answerExp : Int
  square : Float
  squareExp : Int

/-- Repeated squaring over the binary digits of `n`, of which there are at most `fuel`. It stops
early once the exponent of the square is beyond any double. -/
def squareLoop : (fuel : Nat) → (n : Nat) → Squaring → Squaring
  | 0, _, s => s
  | fuel + 1, n, s =>
    if n = 0 then s
    else if s.squareExp < -4096 || 4096 < s.squareExp then
    { s with answerExp := s.answerExp + s.squareExp }
    else
      let s := if n % 2 = 1 then
          { s with answer := s.answer * s.square, answerExp := s.answerExp + s.squareExp }
        else s
      let square := s.square * s.square
      let s := if square < 0.5 then
        { s with square := square + square, squareExp := 2 * s.squareExp - 1 }
        else { s with square := square, squareExp := 2 * s.squareExp }
      squareLoop fuel (n / 2) s

/-- The power of a finite non-zero base to a finite exponent of magnitude `y`. -/
def finitePower (x : Float) (negative : Bool) (y : Magnitude) : Float :=
  if !y.isWhole && x < 0 then notANumber
  else if 0x8000000000000000 ≤ y.whole then
    if x == -1 then 1
    else if (x.abs < 1) == !negative then 0
    else infinity false
  else
    let rest := ofMagnitude false y - ofMagnitude false ⟨y.whole, 0⟩
    let (start, n) :=
      if y.isWhole then (1.0, y.whole)
      else if 0.5 < rest then (Float.exp ((rest - 1) * Float.log x), y.whole + 1)
      else (Float.exp (rest * Float.log x), y.whole)
    let (f, e) := fraction x
    let s := squareLoop 64 n ⟨start, 0, f, e⟩
    if negative then scale (1 / s.answer) (-s.answerExp) else scale s.answer s.answerExp

/-- The power of a zero base: an odd exponent keeps the sign. -/
def zeroPower (x y : Float) : Float :=
  if y < 0 then infinity (signBit x && isOdd y)
  else if signBit x && isOdd y then x else 0

/-- The power of an infinite base: an odd exponent keeps the sign. -/
def infinitePower (x y : Float) : Float :=
  if signBit x then zeroPower (-0.0) (-y)
  else if y < 0 then 0 else infinity false

/-- Power of doubles. -/
def power (x y : Float) : Float :=
  if y == 0 || x == 1 then 1
  else if y == 1 then x
  else if x.isNaN || y.isNaN then notANumber
  else if x == 0 then zeroPower x y
  else match decode y with
    | .infinite negative =>
      if x == -1 then 1
      else if (x.abs < 1) == !negative then 0
      else infinity false
    | .finite negative m =>
      if x.isInf then infinitePower x y
      else if y == 0.5 then x.sqrt
      else if y == -0.5 then 1 / x.sqrt
      else finitePower x negative m
    | .nan => notANumber

end FunRiscv.Number

/-!
# Doubles as exact numbers

* `Magnitude`: the finite non-negative doubles as `mantissa * 2 ^ exponent`.
* `decode`: a double as sign and magnitude, an infinity, or not a number.
* `nearest`: the double nearest to a quotient of naturals, a half going to the even neighbour; a
  quotient beyond the largest double gives infinity.
-/

namespace FunRiscv.Number

/-- The number `mantissa * 2 ^ exponent`. -/
structure Magnitude where
  mantissa : Nat
  exponent : Int
deriving DecidableEq, Repr, Inhabited

/-- What a double is. -/
inductive Decoded where
  | nan
  | infinite (negative : Bool)
  | finite (negative : Bool) (magnitude : Magnitude)
deriving DecidableEq, Repr, Inhabited

/-- The least exponent of a double. -/
def leastExponent : Int := -1074

/-- The least mantissa of a double that is not subnormal, `2 ^ 52`. -/
def leastNormal : Nat := 0x10000000000000

/-- The sign among the bits of a double, `2 ^ 63`. -/
def signMask : Nat := 0x8000000000000000

/-- The sign bit of a double. -/
def signBit (x : Float) : Bool := decide (signMask ≤ x.toBits.toNat)

/-- Reads a double from its bits. -/
def decode (x : Float) : Decoded :=
  let bits := x.toBits.toNat
  let fraction := bits % leastNormal
  let biased : Nat := bits / leastNormal % 2048
  if biased = 2047 then
    if fraction = 0 then .infinite (signBit x) else .nan
  else if biased = 0 then .finite (signBit x) ⟨fraction, leastExponent⟩
  else .finite (signBit x) ⟨fraction + leastNormal, (biased : Int) - 1075⟩

/-- The quotient rounded to the nearest natural, a half going to the even neighbour. -/
def roundDiv (num den : Nat) : Nat :=
  let q := num / den
  let r := num % den
  if 2 * r < den then q
  else if den < 2 * r then q + 1
  else q + q % 2

/-- The quotient `num / den` scaled by `2 ^ (-e)`, as a numerator and a denominator. -/
def scaleDown (num den : Nat) (e : Int) : Nat × Nat :=
  if 0 ≤ e then (num, den * Nat.pow 2 e.toNat) else (num * Nat.pow 2 (-e).toNat, den)

/-- The exponent that leaves a quotient a mantissa of 53 bits, or the least one. -/
def quotientExponent (num den : Nat) : Int :=
  let guess : Int := max ((num.log2 : Int) - den.log2 - 53) leastExponent
  let (n, d) := scaleDown num den guess
  if 2 * leastNormal ≤ n / d then guess + 1 else guess

/-- The bits of the double nearest to the positive quotient `num / den`. -/
def nearestBits (num den : Nat) : Nat :=
  let e := quotientExponent num den
  let (n, d) := scaleDown num den e
  let m := roundDiv n d
  if m < leastNormal then m
  else
    let bits := (e + 1075).toNat * leastNormal + (m - leastNormal)
    if 2047 * leastNormal ≤ bits then 2047 * leastNormal else bits

/-- The double nearest to `num / den`, with a sign. -/
def nearest (negative : Bool) (num den : Nat) : Float :=
  let bits := if num = 0 then 0 else nearestBits num den
  Float.ofBits (bits + if negative then signMask else 0).toUInt64

/-- The double nearest to `m * 2 ^ e`, with a sign. -/
def ofMagnitude (negative : Bool) (m : Magnitude) : Float :=
  if 0 ≤ m.exponent then nearest negative (m.mantissa * Nat.pow 2 m.exponent.toNat) 1
  else nearest negative m.mantissa (Nat.pow 2 (-m.exponent).toNat)

end FunRiscv.Number

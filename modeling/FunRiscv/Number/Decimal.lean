import FunRiscv.Number.Double

/-!
# Decimal text of doubles

* `ofDecimal`: reads digits with a point.
* `shortest`: the fewest digits that read back as the same double, and of those the nearest.
* `text`: those digits in positional form, never with an exponent, and always with a point.
-/

namespace FunRiscv.Number

/-! ### Reading -/

/-- The double nearest to the decimal `digits / 10 ^ places`. -/
def ofDecimal (digits places : Nat) : Float := nearest false digits (Nat.pow 10 places)

/-! ### Shortest digits -/

/-- A decimal `digits * 10 ^ exponent`. -/
structure Decimal where
  digits : Nat
  exponent : Int
deriving DecidableEq, Repr, Inhabited

/-- The numbers that round to one double: a denominator and the numerators of its value
and of the two ends. -/
structure RoundingInterval where
  denominator : Nat
  value : Nat
  low : Nat
  high : Nat
  /-- Whether the ends themselves round to the double. -/
  closed : Bool
deriving DecidableEq, Repr, Inhabited

/-- The rounding interval of a magnitude. It reaches half way to each neighbour; below a power of
two the lower neighbour is half as far. -/
def Magnitude.interval (m : Magnitude) : RoundingInterval :=
  let lowStep := if m.mantissa = leastNormal && decide (leastExponent < m.exponent) then 1 else 2
  let (unit, den) := scaleDown 1 1 (2 - m.exponent)
  { denominator := den
    value := 4 * m.mantissa * unit
    low := (4 * m.mantissa - lowStep) * unit
    high := (4 * m.mantissa + 2) * unit
    closed := m.mantissa % 2 = 0 }

/-- Whether `num / den` lies in the interval. -/
def RoundingInterval.contains (r : RoundingInterval) (num den : Nat) : Bool :=
  if r.closed then
    decide (r.low * den ≤ num * r.denominator) && decide (num * r.denominator ≤ r.high * den)
  else
    decide (r.low * den < num * r.denominator) && decide (num * r.denominator < r.high * den)

/-- The least `k` with `num / den < 10 ^ k`, for a positive quotient. -/
def decimalExponent (num den : Nat) : Int :=
  if den ≤ num then ((Nat.toDigits 10 (num / den)).length : Int)
  else 1 - (((List.range 400).find? fun j => den ≤ num * Nat.pow 10 j).getD 400 : Int)

/-- A decimal as a numerator and a denominator. -/
def Decimal.quotient (d : Decimal) : Nat × Nat :=
  if 0 ≤ d.exponent then (d.digits * Nat.pow 10 d.exponent.toNat, 1) else
    (d.digits, Nat.pow 10 (-d.exponent).toNat)

/-- The nearest decimal of `count` digits inside the interval. -/
def RoundingInterval.decimal? (r : RoundingInterval) (count : Nat) : Option Decimal :=
  let e := decimalExponent r.value r.denominator - count
  let (num, den) :=
    if 0 ≤ e then (r.value, r.denominator * Nat.pow 10 e.toNat) else
      (r.value * Nat.pow 10 (-e).toNat, r.denominator)
  let inside (d : Decimal) : Bool := let (n, k) := d.quotient; r.contains n k
  let down : Decimal := ⟨num / den, e⟩
  let up : Decimal := ⟨num / den + 1, e⟩
  match inside down, inside up with
  | true, true => some ⟨roundDiv num den, e⟩
  | true, false => some down
  | false, true => some up
  | false, false => none

/-- The fewest digits that read back as the magnitude; seventeen always do. -/
def Magnitude.shortest (m : Magnitude) : Decimal :=
  if m.mantissa = 0 then ⟨0, 0⟩
  else ((List.range 17).findSome? fun k => m.interval.decimal? (k + 1)).getD ⟨0, 0⟩

/-! ### Positional text -/

/-- A decimal in positional form, with a point only if it has decimal places. -/
def Decimal.positional (d : Decimal) : String :=
  let digits := Nat.toDigits 10 d.digits
  if 0 ≤ d.exponent then
    if d.digits = 0 then "0"
    else String.ofList (digits ++ List.replicate d.exponent.toNat '0')
  else
    let places := (-d.exponent).toNat
    let padded := List.replicate (places + 1 - digits.length) '0' ++ digits
    let whole := padded.length - places
    String.ofList (padded.take whole ++ '.' :: padded.drop whole)

/-- A decimal without trailing zeros after its point. -/
def Decimal.stripped (d : Decimal) : Decimal :=
  if d.exponent < 0 && d.digits % 10 = 0 then
    let digits := (Nat.toDigits 10 d.digits).reverse
    let zeros := min (digits.takeWhile (· == '0')).length (-d.exponent).toNat
    ⟨d.digits / Nat.pow 10 zeros, d.exponent + zeros⟩
  else d

/-- The text of a double: its shortest digits in positional form, `.0` after a whole number, and a
word after which `.0` stands too for what is no number. -/
def text (x : Float) : String :=
  match decode x with
  | .nan => "NaN.0"
  | .infinite true => "-Inf.0"
  | .infinite false => "+Inf.0"
  | .finite negative m =>
    let body := m.shortest.stripped.positional
    (if negative then "-" else "") ++ (if body.contains '.' then body else body ++ ".0")

end FunRiscv.Number

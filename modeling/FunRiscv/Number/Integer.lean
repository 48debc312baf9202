/-!
# Decimal integers

* `readInt`: reads an optional sign and digits as a 64-bit integer.
-/

namespace FunRiscv.Number

/-- Why a text is no 64-bit integer. -/
inductive IntegerFault where
  | malformed
  | outOfRange
deriving DecidableEq, Repr, Inhabited

/-- How a fault is said. -/
def IntegerFault.text : IntegerFault → String
  | malformed => "invalid syntax"
  | outOfRange => "value out of range"

/-- The first number beyond the 64-bit words, `2 ^ 64`. -/
def unsignedBound : Nat := 0x10000000000000000

/-- The first number beyond the 64-bit integers, `2 ^ 63`. -/
def signedBound : Nat := 0x8000000000000000

/-- Reads digits after those that gave `n`. A value beyond 64 bits is a fault as soon
as it is reached. -/
def readDigits (n : Nat) : List Char → Except IntegerFault Nat
  | [] => pure n
  | c :: cs =>
    if 48 ≤ c.toNat && c.toNat ≤ 57 then
      let m := n * 10 + (c.toNat - 48)
      if unsignedBound ≤ m then throw .outOfRange else readDigits m cs
    else throw .malformed

/-- Reads one digit or more. -/
def readNat (cs : List Char) : Except IntegerFault Nat :=
  if cs.isEmpty then throw .malformed else readDigits 0 cs

/-- Reads an optional sign and digits as a 64-bit integer. -/
def readInt (s : String) : Except IntegerFault Int := do
  match s.toList with
  | '-' :: cs =>
    let n ← readNat cs
    if signedBound < n then throw .outOfRange else return -n
  | '+' :: cs =>
    let n ← readNat cs
    if signedBound ≤ n then throw .outOfRange else return n
  | cs =>
    let n ← readNat cs
    if signedBound ≤ n then throw .outOfRange else return n

end FunRiscv.Number

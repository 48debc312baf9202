import Mathlib
import FunRiscv.Number.Decimal

/-!
# Finite doubles

* `Packs`: a number whose exponent is that of a double. Such a number is finite as a double too.
* `isFinite_neg`, `isFinite_ofBits`: when a double that is made from another one or
  from bits is finite.
* `isFinite_ofDecimal`: a decimal within the range of doubles reads as a finite double.
-/

namespace FunRiscv.Number

open Float.Model (Format UnpackedFloat)
open Float.Model.UnpackedFloat (Sign packComponents)

/-! ### Packing -/

/-- A number whose exponent is that of a double. -/
def Packs : UnpackedFloat → Prop
  | .zero _ => True
  | .finite _ _ e _ => (e + 1075).toNat < 2047
  | .infinity _ | .notANumber => False

theorem isFinite_unpack (b : BitVec Format.binary64.numBits) :
    (UnpackedFloat.unpack .binary64 b).isFinite = true ↔
      UnpackedFloat.unpackExponent b ≠ -1#11 := by
  simp only [UnpackedFloat.unpack]
  split
  · rename_i h
    split <;> simp [UnpackedFloat.isFinite, h]
  · rename_i h
    split
    · split <;> simpa [UnpackedFloat.isFinite] using h
    · simpa [UnpackedFloat.isFinite] using h

theorem isFinite_packComponents (s : Sign) (e : BitVec Format.binary64.exponentBits)
    (m : BitVec Format.binary64.mantissaBitsWithoutImplicit) :
    (UnpackedFloat.unpack .binary64 (packComponents .binary64 s e m)).isFinite = true ↔
      e ≠ -1#11 := by
  rw [isFinite_unpack, UnpackedFloat.unpackExponent_packComponents]

theorem toNat_ne_of_ne {e : BitVec 11} (h : e ≠ -1#11) : e.toNat < 2047 := by
  have hlt := e.isLt
  have hne : e.toNat ≠ 2047 := fun heq => h (BitVec.eq_of_toNat_eq heq)
  omega

/-- What is unpacked from a double has the exponent of one. -/
theorem packs_unpack {b : BitVec Format.binary64.numBits}
    (h : UnpackedFloat.unpackExponent b ≠ -1#11) : Packs (UnpackedFloat.unpack .binary64 b) := by
  have hlt := toNat_ne_of_ne h
  have hbias : (Format.binary64.exponentBias : Int) = 1023 := rfl
  have hbits : (Format.binary64.mantissaBitsWithoutImplicit : Int) = 52 := rfl
  rw [UnpackedFloat.unpack, if_neg h]
  split
  · rename_i hzero
    rw [hzero]
    split
    · trivial
    · show (_ : Int).toNat < 2047
      simp [hbias]
  · show (_ : Int).toNat < 2047
    rw [hbias, hbits]
    omega

theorem packs_neg {u : UnpackedFloat} (h : Packs u) : Packs u.neg := by
  cases u with
  | zero s => trivial
  | finite s m e hm => exact h
  | infinity s => exact h
  | notANumber => exact h

/-- A number with the exponent of a double stays finite. -/
theorem isFinite_pack {u : UnpackedFloat} (h : Packs u) :
    (UnpackedFloat.unpack .binary64 (UnpackedFloat.pack .binary64 u)).isFinite = true := by
  cases u with
  | infinity s => exact absurd h id
  | notANumber => exact absurd h id
  | zero s =>
    refine (isFinite_packComponents s 0 0).2 ?_
    decide
  | finite s m e hm =>
    have hbias : e + (Format.binary64.exponentBias : Int) +
      (Format.binary64.mantissaBitsWithoutImplicit : Int) = e + 1075 := by
      have hexponent : (Format.binary64.exponentBias : Int) = 1023 := rfl
      have hmantissa : (Format.binary64.mantissaBitsWithoutImplicit : Int) = 52 := rfl
      omega
    have hsmall : (e + 1075).toNat < 2047 := h
    simp only [UnpackedFloat.pack, hbias]
    generalize (e + 1075).toNat = biased at hsmall
    rw [if_neg (by simpa using hsmall)]
    split
    · rw [isFinite_packComponents]
      intro heq
      have hvalue := congrArg BitVec.toNat heq
      simp at hvalue
      omega
    · rw [isFinite_packComponents]
      decide

/-! ### Doubles -/

theorem isFinite_neg {x : Float} (h : x.isFinite = true) : (-x).isFinite = true :=
  isFinite_pack (packs_neg (packs_unpack ((isFinite_unpack _).1 h)))

theorem isFinite_ofBits {bits : UInt64} (h : bits.toNat / 0x10000000000000 % 2048 ≠ 2047) :
    (Float.ofBits bits).isFinite = true := by
  refine isFinite_pack (packs_unpack fun heq => h ?_)
  have hvalue := congrArg BitVec.toNat heq
  simpa [UnpackedFloat.unpackExponent, BitVec.extractLsb, Nat.shiftRight_eq_div_pow] using hvalue

/-- The bits of a rounded quotient are at most those of infinity. -/
theorem nearestBits_le (num den : Nat) : nearestBits num den ≤ 2047 * leastNormal := by
  rw [nearestBits]
  simp only []
  split
  · rename_i h
    omega
  · split
    · exact Nat.le_refl _
    · rename_i h
      exact Nat.le_of_not_le h

theorem isInf_ofBits_infinity : (Float.ofBits (2047 * leastNormal).toUInt64).isInf = true := by
  decide +kernel

/-- A decimal within the range of doubles reads as a finite double. -/
theorem isFinite_ofDecimal {digits places : Nat} (h : (ofDecimal digits places).isInf = false) :
    (ofDecimal digits places).isFinite = true := by
  obtain ⟨bits, hbits⟩ : ∃ bits,
    (if digits = 0 then 0 else nearestBits digits (Nat.pow 10 places)) = bits := ⟨_, rfl⟩
  have hle : bits ≤ 2047 * leastNormal := by
    rw [← hbits]
    split
    · exact Nat.zero_le _
    · exact nearestBits_le _ _
  have hvalue : ofDecimal digits places = Float.ofBits bits.toUInt64 := by
    rw [ofDecimal, nearest, hbits]
    rfl
  rw [hvalue] at h ⊢
  have hne : bits ≠ 2047 * leastNormal := by
    rintro rfl
    rw [isInf_ofBits_infinity] at h
    exact absurd h (by simp)
  refine isFinite_ofBits ?_
  have hsmall : bits.toUInt64.toNat = bits := by
    have hmod : bits.toUInt64.toNat = bits % 2 ^ 64 := UInt64.toNat_ofNat'
    rw [leastNormal] at hle
    omega
  rw [hsmall]
  rw [leastNormal] at hle hne
  omega

end FunRiscv.Number

import Mathlib
import TaskMachine.Decimal.Basic

/-!
The exact values of floats, read off their bits. A float is NaN, an infinity or finite by its bits of
exponent and fraction, and the magnitude of a finite one is a rational number. Mathlib is imported as a
whole because no smaller module of it brings the lemmas about packing (`pack_unpack_of_valid`).
-/

namespace TaskMachine

open Float.Model Float.Model.UnpackedFloat

-----------------------------------------------------------------------------------------
-- Magnitudes
-----------------------------------------------------------------------------------------

namespace Decimal.Magnitude

/-- The number that a magnitude stands for. -/
def value (v : Magnitude) : ℚ :=
  v.mantissa * 2 ^ v.exponent

end Decimal.Magnitude

namespace Float

/-- The sign bit: 1 for negative numbers, negative zero and negative infinity. -/
def signBit (x : Float) : Nat :=
  x.toBits.toNat / 0x8000000000000000

/-- The 11 bits of exponent, with a bias of 1023. -/
def exponentBits (x : Float) : Nat :=
  x.toBits.toNat / 0x10000000000000 % 0x800

/-- The 52 bits of fraction. -/
def fractionBits (x : Float) : Nat :=
  x.toBits.toNat % 0x10000000000000

/-- The exact magnitude of a finite float. -/
def magnitude (x : Float) : ℚ :=
  (Decimal.Magnitude.ofFloat x).value

variable {x : Float}

/-- A float has the bits that it was made from, unless they are those of a NaN. -/
theorem toBits_ofBits {bits : UInt64}
    (number : bits.toNat / 0x10000000000000 % 0x800 ≠ 2047 ∨ bits.toNat % 0x10000000000000 = 0)
    : (Float.ofBits bits).toBits = bits := by
  apply UInt64.toBitVec_inj.mp
  refine @pack_unpack_of_valid Format.binary64 _ ⟨fun ones some => ?_⟩ (by decide)
  have exponent := congrArg BitVec.toNat ones
  have fraction : (@unpackMantissa Format.binary64 bits.toBitVec).toNat ≠ 0 :=
    fun none => some (BitVec.eq_of_toNat_eq (by simpa using none))
  simp [unpackExponent, unpackMantissa, Nat.shiftRight_eq_div_pow] at exponent fraction
  omega

/-- A float is determined by its bits. -/
theorem eq_of_toBits {y : Float} (same : x.toBits = y.toBits) : x = y := by
  obtain ⟨⟨bits, valid⟩⟩ := x
  obtain ⟨⟨bits', valid'⟩⟩ := y
  have equal : bits = bits' := same
  subst equal
  rfl

theorem signBit_lt (x : Float) : signBit x < 2 := by
  have := x.toBits.toNat_lt
  rw [signBit]
  omega

theorem fractionBits_lt (x : Float) : fractionBits x < 0x10000000000000 :=
  Nat.mod_lt _ (by omega)

private theorem magnitude_ofFloat (x : Float)
    : Decimal.Magnitude.ofFloat x
      = if exponentBits x = 0 then ⟨fractionBits x, -1074⟩
        else ⟨0x10000000000000 + fractionBits x, (exponentBits x : Int) - 1075⟩ := by
  have exponent : ((x.toBits >>> 52) &&& 0x7FF).toNat = exponentBits x := by
    simp [exponentBits, UInt64.toNat_and, Nat.shiftRight_eq_div_pow,
      Nat.and_two_pow_sub_one_eq_mod _ 11]
  have fraction : (x.toBits &&& 0xFFFFFFFFFFFFF).toNat = fractionBits x := by
    simp [fractionBits, UInt64.toNat_and, Nat.and_two_pow_sub_one_eq_mod _ 52]
  simp only [Decimal.Magnitude.ofFloat, exponent, fraction]

/-- Without bits of exponent there is no leading one in front of the fraction. -/
theorem magnitude_of_exponentBits_eq_zero (none : exponentBits x = 0)
    : magnitude x = fractionBits x * 2 ^ (-1074 : Int) := by
  rw [magnitude, magnitude_ofFloat, if_pos none, Decimal.Magnitude.value]

theorem magnitude_of_exponentBits_ne_zero (some : exponentBits x ≠ 0)
    : magnitude x
      = (0x10000000000000 + fractionBits x : Nat) * 2 ^ ((exponentBits x : Int) - 1075) := by
  rw [magnitude, magnitude_ofFloat, if_neg some, Decimal.Magnitude.value]

-----------------------------------------------------------------------------------------
-- Kinds of floats
-----------------------------------------------------------------------------------------

theorem toNat_unpackExponent (x : Float)
    : (@unpackExponent Format.binary64 x.toBits.toBitVec).toNat = exponentBits x := by
  simp [unpackExponent, exponentBits, Nat.shiftRight_eq_div_pow]

theorem toNat_unpackMantissa (x : Float)
    : (@unpackMantissa Format.binary64 x.toBits.toBitVec).toNat = fractionBits x := by
  simp [unpackMantissa, fractionBits]

/-- A float with all bits of exponent is an infinity or NaN, by whether it has a fraction, and any other
one is finite.
-/
theorem kinds (x : Float)
    : (x.isNaN = true ↔ exponentBits x = 2047 ∧ fractionBits x ≠ 0)
      ∧ (x.isInf = true ↔ exponentBits x = 2047 ∧ fractionBits x = 0)
      ∧ (x.isFinite = true ↔ exponentBits x ≠ 2047) := by
  have ones : @unpackExponent Format.binary64 x.toModel.toBits.toBitVec = -1#11
      ↔ exponentBits x = 2047 := by
    rw [← toNat_unpackExponent x, BitVec.toNat_eq]
    rfl
  have none : @unpackMantissa Format.binary64 x.toModel.toBits.toBitVec = 0#52
      ↔ fractionBits x = 0 := by
    rw [← toNat_unpackMantissa x, BitVec.toNat_eq]
    rfl
  simp only [Float.isNaN, Float.isInf, Float.isFinite, Float.Model.isNaN, Float.Model.isInf,
    Float.Model.isFinite, Float.Model.unpack, UnpackedFloat.unpack, ones, none]
  by_cases full : exponentBits x = 2047
  · by_cases whole : fractionBits x = 0
    · simp [full, whole, UnpackedFloat.isNaN, UnpackedFloat.isInf, UnpackedFloat.isFinite]
    · simp [full, whole, UnpackedFloat.isNaN, UnpackedFloat.isInf, UnpackedFloat.isFinite]
  · simp only [full, if_false]
    split
    · split
      · simp [full, UnpackedFloat.isNaN, UnpackedFloat.isInf, UnpackedFloat.isFinite]
      · simp [full, UnpackedFloat.isNaN, UnpackedFloat.isInf, UnpackedFloat.isFinite]
    · simp [full, UnpackedFloat.isNaN, UnpackedFloat.isInf, UnpackedFloat.isFinite]

end Float
end TaskMachine

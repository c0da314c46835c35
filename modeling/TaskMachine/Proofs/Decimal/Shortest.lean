import TaskMachine.Decimal.Layout
import TaskMachine.Proofs.Float.Decimals

/-!
The shortest digits of a float read back as the float. Digits are only taken if they read back, and
moving their trailing zeros into the exponent keeps the number; what is written out in full is the number
itself.
-/

namespace TaskMachine

open Float.Model Float.Model.UnpackedFloat

-----------------------------------------------------------------------------------------
-- Signs
-----------------------------------------------------------------------------------------

namespace Float

variable {x : Float}

private theorem isNegative_iff (x : Float) : FloatText.isNegative x = true ↔ signBit x ≠ 0 := by
  have shifted : (x.toBits >>> 63).toNat = signBit x := by
    simp [signBit, Nat.shiftRight_eq_div_pow]
  rw [FloatText.isNegative, bne_iff_ne, ne_eq, ← UInt64.toNat_inj, shifted]
  rfl

/-- A float is packed again as it was. -/
theorem pack_unpack_model (x : Float) : Float.ofModel (Float.Model.pack x.toModel.unpack) = x :=
  eq_of_toBits (UInt64.toBitVec_inj.mp (pack_unpack_of_valid x.toModel.valid))

/-- The absolute value of a float has the same bits but that of the sign. -/
theorem unpack_abs (finite : x.isFinite = true) : x.abs.toModel.unpack = x.toModel.unpack.abs := by
  have ordinary := (kinds x).2.2.mp finite
  have word := x.toBits.toNat_lt
  let bits := UInt64.ofNat (x.toBits.toNat % 0x8000000000000000)
  have same : bits.toNat = x.toBits.toNat % 0x8000000000000000 :=
    Nat.mod_eq_of_lt ((Nat.mod_lt _ (by decide)).trans (by decide))
  have kept : (Float.ofBits bits).toBits = bits := by
    refine toBits_ofBits (.inl ?_)
    rw [exponentBits] at ordinary
    omega
  have plus : sign (Float.ofBits bits) = .positive := by
    have bit : signBit (Float.ofBits bits) = 0 := by
      rw [signBit, kept]
      omega
    rw [sign, if_pos bit]
  have exponent : exponentBits (Float.ofBits bits) = exponentBits x := by
    rw [exponentBits, exponentBits, kept]
    omega
  have fraction : fractionBits (Float.ofBits bits) = fractionBits x := by
    rw [fractionBits, fractionBits, kept]
    omega
  have stripped : (Float.ofBits bits).toModel.unpack = x.toModel.unpack.abs := by
    rw [unpack_eq, unpack_eq, exponent, fraction, plus]
    split_ifs <;> rfl
  have absolute : x.abs = Float.ofBits bits := by
    change Float.ofModel (Float.Model.pack x.toModel.unpack.abs) = _
    rw [← stripped, pack_unpack_model]
  rw [absolute, stripped]

/-- A finite float is its absolute value with its sign. -/
theorem signed_abs (finite : x.isFinite = true)
    : (if FloatText.isNegative x then -x.abs else x.abs) = x := by
  by_cases negative : signBit x = 0
  · have positive : sign x = .positive := if_pos negative
    have same : x.toModel.unpack.abs = x.toModel.unpack := by
      rw [unpack_eq, positive]
      split_ifs <;> rfl
    rw [if_neg (by simpa [isNegative_iff] using negative)]
    change Float.ofModel (Float.Model.pack x.toModel.unpack.abs) = x
    rw [same, pack_unpack_model]
  · have minus : sign x = .negative := if_neg negative
    have same : x.toModel.unpack.abs.neg = x.toModel.unpack := by
      rw [unpack_eq, minus]
      split_ifs <;> rfl
    rw [if_pos ((isNegative_iff x).mpr negative)]
    change Float.ofModel (Float.Model.pack x.abs.toModel.unpack.neg) = x
    rw [unpack_abs finite, same, pack_unpack_model]

/-- The absolute value of a float stands for its magnitude. -/
theorem value_abs (finite : x.isFinite = true)
    : x.abs.isFinite = true ∧ value x.abs = magnitude x := by
  have stands := stands_of_finite finite
  have unpacked := unpack_abs finite
  rw [← abs_value]
  generalize x.toModel.unpack = u at stands unpacked
  generalize value x = q at stands ⊢
  cases stands with
  | zero s =>
      have finite' : x.abs.isFinite = true := by
        change x.abs.toModel.unpack.isFinite = true
        rw [unpacked]
        rfl
      have stands' := stands_of_finite finite'
      rw [unpacked] at stands'
      generalize value x.abs = r at stands' ⊢
      cases stands'
      exact ⟨finite', abs_zero.symm⟩
  | finite positive canonical =>
      obtain ⟨finite', same⟩ := value_of_unpack unpacked
      exact ⟨finite', by rw [same, abs_signed, signed_positive]⟩

theorem value_eq_signed_magnitude (x : Float)
    : value x = if FloatText.isNegative x then -magnitude x else magnitude x := by
  have sign := isNegative_iff x
  rw [value]
  split_ifs with plus minus minus
  · exact absurd plus (sign.mp minus)
  · rfl
  · rfl
  · exact absurd (sign.mpr plus) minus

private theorem abs_of_zero (finite : x.isFinite = true) (none : magnitude x = 0) : x.abs = Float.ofBits 0 := by
  have stands := stands_of_finite finite
  have unpacked : x.abs = Float.ofModel (Float.Model.pack x.toModel.unpack.abs) := rfl
  rw [← abs_value, abs_eq_zero] at none
  rw [unpacked]
  generalize x.toModel.unpack = u at stands ⊢
  generalize value x = q at stands none
  cases stands with
  | zero s =>
      have zero : (Float.ofModel (Float.Model.pack (.zero .positive))).toBits
          = (Float.ofBits 0).toBits := by decide +kernel
      exact eq_of_toBits zero
  | @finite s m e positive canonical =>
      have above : (0 : ℚ) < m * 2 ^ e := by positivity
      rw [← abs_eq_zero, abs_signed] at none
      exact absurd none above.ne'

end Float

-----------------------------------------------------------------------------------------
-- Shortest digits
-----------------------------------------------------------------------------------------

namespace Decimal

open TaskMachine.Float

variable {x : Float} {d d' : Decimal}

/-- Without digits there is nothing but zero. -/
theorem toFloat_zero (k : Int) : toFloat ⟨0, k⟩ = Float.ofBits 0 := by
  have short : ∀ k : Fin 23,
      ((Nat.toUInt64 0).toFloat / Float.exactlyRepresentablePowersOfTen[k]).toBits = 0
        ∧ ((Nat.toUInt64 0).toFloat * Float.exactlyRepresentablePowersOfTen[k]).toBits = 0 := by
    decide +kernel
  have zero : (Float.ofBits 0).toBits = 0 := by decide +kernel
  rw [toFloat, Float.ofScientific]
  by_cases small : k.natAbs ≤ 22
  · obtain ⟨quotient, product⟩ := short ⟨k.natAbs, Nat.lt_succ_of_le small⟩
    rw [dif_pos ⟨Nat.two_pow_pos 53, small⟩]
    cases decide (k < 0) with
    | true => exact eq_of_toBits (quotient.trans zero.symm)
    | false => exact eq_of_toBits (product.trans zero.symm)
  · rw [dif_neg fun given => small given.2]
    exact eq_of_toBits zero.symm

private theorem value_eq_zero_iff : d.value = 0 ↔ d.digits = 0 := by
  have power : (10 : ℚ) ^ d.exponent ≠ 0 := zpow_ne_zero _ (by norm_num)
  simp [value, power]

/-- The float of a decimal depends on nothing but the number that the decimal stands for. -/
theorem toFloat_congr (same : d.value = d'.value) : d.toFloat = d'.toFloat := by
  by_cases none : d.digits = 0
  · have none' : d'.digits = 0 := by rw [← value_eq_zero_iff, ← same, value_eq_zero_iff, none]
    obtain ⟨n, k⟩ := d
    obtain ⟨n', k'⟩ := d'
    cases none
    cases none'
    rw [toFloat_zero, toFloat_zero]
  · have some' : d'.digits ≠ 0 := by rwa [ne_eq, ← value_eq_zero_iff, ← same, value_eq_zero_iff]
    rw [toFloat_eq d none, toFloat_eq d' some', same]

/-- A decimal that stands for the magnitude of a float reads back. -/
theorem toFloat_of_magnitude (finite : x.isFinite = true) (same : d.value = magnitude x)
    : d.toFloat = x.abs := by
  by_cases none : d.digits = 0
  · have zero := value_eq_zero_iff.mpr none
    obtain ⟨n, k⟩ := d
    cases none
    rw [toFloat_zero, abs_of_zero finite (same ▸ zero)]
  · have some : magnitude x ≠ 0 := by rwa [← same, ne_eq, value_eq_zero_iff]
    rw [toFloat_eq d none, same, nearestPositive_magnitude finite some]

/-- Moving zeros into the exponent keeps the number. -/
theorem dropZeros_value (n : Nat) (d : Decimal) : (dropZeros n d).value = d.value := by
  induction n generalizing d with
  | zero => rfl
  | succ n ih =>
      rw [dropZeros]
      split_ifs with zeros
      · have ten : (d.digits : ℚ) = (d.digits / 10 : Nat) * 10 := by
          exact_mod_cast (Nat.div_mul_cancel (Nat.dvd_of_mod_eq_zero zeros.2)).symm
        rw [ih, value, value, ten, zpow_add_one₀ (by norm_num)]
        ring
      · rfl

/-- What is written out in full is the magnitude. -/
theorem expansion_value (v : Magnitude) : v.expansion.value = v.value := by
  rw [Magnitude.expansion, value, Magnitude.value]
  simp only [Nat.pow_eq]
  rcases le_total 0 v.exponent with nonneg | nonpos
  · obtain ⟨k, exponent⟩ := Int.eq_ofNat_of_zero_le nonneg
    rw [exponent, min_eq_right (by omega)]
    simp
  · obtain ⟨k, exponent⟩ := Int.exists_eq_neg_ofNat nonpos
    have ten : (10 : ℚ) ^ k = 2 ^ k * 5 ^ k := by rw [← mul_pow]; norm_num
    rw [exponent, min_eq_left (by omega)]
    simp only [Int.toNat_neg_natCast, neg_neg, Int.toNat_natCast, pow_zero, mul_one, zpow_neg,
      zpow_natCast, ten]
    push_cast
    field_simp

private theorem withDigits?_readsBack {v : Magnitude} {n : Nat} (found : withDigits? x v n = some d)
    : d.toFloat = x.abs := by
  have read {d : Decimal} (back : readsBack x d = true) : d.toFloat = x.abs :=
    eq_of_toBits (beq_iff_eq.mp back)
  rw [withDigits?] at found
  split at found
  · rename_i below above
    split_ifs at found
    · cases found
      exact read below
    · cases found
      exact read above
  · rename_i below above
    cases found
    exact read below
  · rename_i below above
    cases found
    exact read above
  · cases found

/-- The shortest digits of a finite float read back as its absolute value. -/
theorem toFloat_ofFloat (finite : x.isFinite = true) : (ofFloat x).toFloat = x.abs := by
  rw [ofFloat]
  split_ifs with none
  · refine toFloat_of_magnitude finite ?_
    rw [magnitude, Magnitude.value, none]
    simp [value]
  · dsimp only
    split
    · rename_i d found
      obtain ⟨n, -, some⟩ := List.exists_of_findSome?_eq_some found
      rw [toFloat_congr (dropZeros_value 17 d), withDigits?_readsBack some]
    · exact toFloat_of_magnitude finite (expansion_value _)

/-- A whole number that reads back as the absolute value of a float is its magnitude, unless it is so
great that other numbers are read as the same float.
-/
theorem magnitude_of_whole {n : Nat} (finite : x.isFinite = true) (back : toFloat ⟨n, 0⟩ = x.abs)
    (short : n ≤ 2 ^ 53)
    : magnitude x = n := by
  obtain ⟨finite', same⟩ := nearestFloat_exact (n := n) (by simpa using short)
  have size : magnitude (nearestFloat n) = n := by
    rw [← abs_value, same, Int.cast_natCast]
    exact abs_of_nonneg n.cast_nonneg
  have whole : value ⟨n, 0⟩ = magnitude (nearestFloat n) := by
    rw [size]
    simp [value]
  have equal : x.abs = (nearestFloat n).abs := by rw [← back, toFloat_of_magnitude finite' whole]
  rw [← (value_abs finite).2, equal, (value_abs finite').2, size]

end Decimal
end TaskMachine

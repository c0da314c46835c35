import TaskMachine.Proofs.Float.Line
import TaskMachine.Proofs.Float.Nearest

/-!
Floats as rounded numbers. What arithmetic on floats rounds, it rounds to the nearest number with 53
significant binary digits, a tie going to the even one, as long as the result is neither too great nor
so small that digits get lost. Integers become floats in the same way.
-/

namespace TaskMachine

open Float.Model Float.Model.UnpackedFloat

namespace Float

variable {x y : Float} {m : Nat} {e : Int} {q : ℚ}

-----------------------------------------------------------------------------------------
-- Rounding mantissas
-----------------------------------------------------------------------------------------

/-- What is left of a mantissa that is shifted out bit by bit: the quotient, its next bit and whether
anything is behind that.
-/
theorem shiftRight_exact (m k : Nat)
    : ExtendedMantissa.ofMantissaAndAccuracy m .exact >>> (k + 1)
      = ⟨m / 2 ^ (k + 1), m / 2 ^ k % 2 != 0, decide (m % 2 ^ k ≠ 0)⟩ := by
  induction k with
  | zero =>
      change ExtendedMantissa.shiftRightOne ⟨m, false, false⟩ = _
      simp [ExtendedMantissa.shiftRightOne, Nat.mod_one]
  | succ k ih =>
      change ExtendedMantissa.shiftRightOne
        (ExtendedMantissa.ofMantissaAndAccuracy m .exact >>> (k + 1)) = _
      have lost : m % 2 ^ (k + 1) = 0 ↔ m / 2 ^ k % 2 = 0 ∧ m % 2 ^ k = 0 := by
        rw [Nat.mod_pow_succ, Nat.add_eq_zero_iff, Nat.mul_eq_zero, and_comm]
        simp
      rw [ih]
      simp only [ExtendedMantissa.shiftRightOne, Nat.div_div_eq_div_mul, ← pow_succ, ne_eq, lost]
      rcases Nat.mod_two_eq_zero_or_one (m / 2 ^ k) with next | next
      · by_cases rest : m % 2 ^ k = 0 <;> simp [next, rest]
      · simp [next]

/-- Shifting a mantissa and rounding it rounds its quotient. -/
theorem roundedMantissa_shiftRight {k : Nat} (some : 0 < k) (m : Nat)
    : (ExtendedMantissa.ofMantissaAndAccuracy m .exact >>> k).roundedMantissa
      = Real48.roundQuotient m k := by
  obtain ⟨j, rfl⟩ := Nat.exists_eq_add_of_le' some
  have half : 2 ^ (j + 1) / 2 = 2 ^ j := by rw [pow_succ, Nat.mul_div_cancel _ two_pos]
  have rest : m % 2 ^ (j + 1) = m % 2 ^ j + 2 ^ j * (m / 2 ^ j % 2) := Nat.mod_pow_succ
  have small : m % 2 ^ j < 2 ^ j := Nat.mod_lt _ (Nat.two_pow_pos j)
  rw [shiftRight_exact]
  simp only [Real48.roundQuotient, Nat.pow_eq, half, rest, ExtendedMantissa.roundedMantissa]
  generalize m / 2 ^ (j + 1) = quotient
  generalize m % 2 ^ j = below at *
  rcases Nat.mod_two_eq_zero_or_one (m / 2 ^ j) with bit | bit
  · have near : ¬ (2 ^ j < below ∨ below = 2 ^ j ∧ quotient % 2 = 1) := by omega
    simp only [bit, Nat.mul_zero, Nat.add_zero, if_neg near]
    by_cases exact : below = 0 <;>
      simp [exact, ExtendedMantissa.accuracy, Accuracy.roundToNearestEven]
  · by_cases tie : below = 0
    · simp only [bit, tie, ExtendedMantissa.accuracy, Accuracy.roundToNearestEven]
      simp
      split <;> omega
    · simp [bit, tie, ExtendedMantissa.accuracy, Accuracy.roundToNearestEven]

/-- A mantissa with all its digits stays above the least one that has them when it is rounded. -/
theorem le_roundQuotient {n k : Nat} (lower : 2 ^ 52 * 2 ^ k ≤ n) : 2 ^ 52 ≤ Real48.roundQuotient n k := by
  have quotient : 2 ^ 52 ≤ n / 2 ^ k := (Nat.le_div_iff_mul_le (Nat.two_pow_pos k)).mpr lower
  simp only [Real48.roundQuotient, Nat.pow_eq]
  split <;> omega

/-- The first of the two shifts of rounding leaves a mantissa with all its digits, or the next power of
two, that is the number rounded.
-/
theorem rounds_first (many : 2 ^ 52 ≤ m) (e : Int)
    : ∃ r,
        (ExtendedMantissa.ofMantissaAndAccuracy m .exact >>> (m.log2 - 52)).roundedMantissa = r
        ∧ 2 ^ 52 ≤ r
        ∧ r ≤ 2 ^ 53
        ∧ Rounds 53 (m * 2 ^ e) (r * 2 ^ (e + (m.log2 - 52 : Nat))) := by
  have length : 52 ≤ m.log2 := (Nat.le_log2 (by omega)).mpr many
  have below : 2 ^ m.log2 ≤ m := Nat.log2_self_le (by omega)
  have above : m < 2 ^ (m.log2 + 1) := Nat.lt_log2_self
  obtain ⟨k, split⟩ := Nat.exists_eq_add_of_le length
  rw [split] at below above
  rw [split, Nat.add_sub_cancel_left]
  rcases Nat.eq_zero_or_pos k with rfl | surplus
  · refine ⟨m, rfl, many, above.le, ?_⟩
    simpa using HasDigits.rounds ⟨m, e, above, rfl⟩
  · have lower : 2 ^ 52 * 2 ^ k ≤ m := by rwa [← pow_add]
    have upper : m < 2 ^ 53 * 2 ^ k := by
      rw [← pow_add]
      exact above.trans_eq (by ring)
    exact ⟨_, roundedMantissa_shiftRight surplus m, le_roundQuotient lower,
      Real48.roundQuotient_le upper, Real48.rounds_roundQuotient surplus (by decide) lower upper e⟩

/-- A number with so many digits that some may be rounded away is neither too small nor too great for
floats.
-/
structure Moderate (m : Nat) (e : Int) : Prop where
  least : -1022 ≤ m.log2 + e
  greatest : m.log2 + e ≤ 1022

/-- In the middle of the range the target keeps 53 digits. -/
theorem target_of_moderate (moderate : Moderate m e) (many : 52 ≤ m.log2)
    : Format.binary64.targetExponent (totalExponent m e) = e + (m.log2 - 52 : Nat) := by
  have := moderate.least
  simp only [Format.targetExponent, totalExponent, Format.mantissaBits, Format.minExponent]
  omega

/-- The second of the two shifts of rounding moves a mantissa that has been rounded up to the next power
of two, and no other one.
-/
theorem shift_second (full : 2 ^ 52 ≤ m) (bound : m ≤ 2 ^ 53) (least : -1074 ≤ e)
    (greatest : e ≤ 970)
    : ∃ m' e',
        shiftToTargetExponent Format.binary64 m e .exact = (⟨m', false, false⟩, e')
        ∧ Canonical m' e'
        ∧ 2 ^ 52 ≤ m'
        ∧ (m' : ℚ) * 2 ^ e' = m * 2 ^ e := by
  rcases Nat.lt_or_eq_of_le bound with short | rfl
  · have length : m.log2 = 52 := (Nat.log2_eq_iff (by omega)).mpr ⟨full, short⟩
    have target : Format.binary64.targetExponent (totalExponent m e) = e := by
      simp only [Format.targetExponent, totalExponent, Format.mantissaBits, Format.minExponent, length]
      omega
    refine ⟨m, e, ?_, ⟨short, least, by omega, .inl full⟩, full, rfl⟩
    simp only [shiftToTargetExponent, shiftToExponent, target, sub_self]
    simp
    rfl
  · have target : Format.binary64.targetExponent (totalExponent (2 ^ 53) e) = e + 1 := by
      simp only [Format.targetExponent, totalExponent, Format.mantissaBits, Format.minExponent,
        Nat.log2_two_pow]
      omega
    refine ⟨2 ^ 52, e + 1, ?_, ⟨by decide, by omega, by omega, .inl le_rfl⟩, le_rfl, ?_⟩
    · simp only [shiftToTargetExponent, shiftToExponent, target, add_sub_cancel_left]
      rfl
    · rw [zpow_add_one₀ two_ne_zero]
      push_cast
      ring

/-- An unpacked float that stands for a number rounded, with a given sign. -/
inductive Rounded (s : Sign) (q : ℚ) : UnpackedFloat → Prop
  | intro {m : Nat} {e : Int} (positive : 0 < m) (canonical : Canonical m e) (full : 2 ^ 52 ≤ m)
    (rounds : Rounds 53 q (m * 2 ^ e))
    : Rounded s q (.finite s m e positive)

/-- Rounding a mantissa that has all its digits rounds the number. -/
theorem rounded_exact (s : Sign) (moderate : Moderate m e) (many : 2 ^ 52 ≤ m)
    : Rounded s (m * 2 ^ e) (roundWithAccuracy Format.binary64 s m e .exact) := by
  have length : 52 ≤ m.log2 := (Nat.le_log2 (by omega)).mpr many
  obtain ⟨r, first, full, bound, rounds⟩ := rounds_first many e
  have target := target_of_moderate moderate length
  have shift : (e + (m.log2 - 52 : Nat) - e).toNat = m.log2 - 52 := by omega
  obtain ⟨least, greatest⟩ := moderate
  obtain ⟨m', e', second, canonical, full', same⟩ :=
    shift_second (e := e + (m.log2 - 52 : Nat)) full bound (by omega) (by omega)
  have some : m' ≠ 0 := by omega
  have shifted : shiftToTargetExponent Format.binary64 m e .exact
      = (ExtendedMantissa.ofMantissaAndAccuracy m .exact >>> (m.log2 - 52),
          e + (m.log2 - 52 : Nat)) := by
    simp only [shiftToTargetExponent, shiftToExponent, target, shift]
  have done : roundWithAccuracy Format.binary64 s m e .exact
      = .finite s m' e' (Nat.pos_of_ne_zero some) := by
    simp only [roundWithAccuracy, shifted, first, second, some, dif_neg, not_false_iff]
  rw [done]
  exact .intro _ canonical full' (same ▸ rounds)

private theorem log2_mul_two_pow (positive : 0 < m) (j : Nat) : (m * 2 ^ j).log2 = m.log2 + j := by
  have some : m * 2 ^ j ≠ 0 := by positivity
  refine (Nat.log2_eq_iff some).mpr ⟨?_, ?_⟩
  · rw [pow_add]
    exact Nat.mul_le_mul_right _ (Nat.log2_self_le positive.ne')
  · rw [Nat.add_right_comm, pow_add]
    exact Nat.mul_lt_mul_of_pos_right Nat.lt_log2_self (Nat.two_pow_pos j)

/-- Rounding rounds every number that is neither too small nor too great. A mantissa that has too few
digits is first filled up with zeros.
-/
theorem rounded_round (s : Sign) (moderate : Moderate m e) (positive : 0 < m)
    : Rounded s (m * 2 ^ e) (UnpackedFloat.round Format.binary64 s m e) := by
  obtain ⟨least, greatest⟩ := moderate
  have target : Format.binary64.targetExponent (totalExponent m e) = m.log2 + e - 52 := by
    simp only [Format.targetExponent, totalExponent, Format.mantissaBits, Format.minExponent]
    omega
  have shift : (e - (m.log2 + e - 52)).toNat = 52 - m.log2 := by omega
  have length := log2_mul_two_pow positive (52 - m.log2)
  have same : ((m * 2 ^ (52 - m.log2) : Nat) : ℚ) * 2 ^ (e - (52 - m.log2 : Nat)) = m * 2 ^ e := by
    rw [zpow_sub₀ two_ne_zero, zpow_natCast]
    push_cast
    field_simp
  simp only [UnpackedFloat.round, decreaseExponent, target, shift, Nat.shiftLeft_eq]
  rw [← same]
  refine rounded_exact s ⟨by omega, by omega⟩ ?_
  exact (Nat.le_log2 (by positivity)).mp (by omega)

-----------------------------------------------------------------------------------------
-- Packed results
-----------------------------------------------------------------------------------------

/-- Packing keeps a mantissa with all its digits and its exponent. -/
theorem unpack_pack (s : Sign) (positive : 0 < m) (canonical : Canonical m e) (full : 2 ^ 52 ≤ m)
    : (Float.Model.pack (.finite s m e positive)).unpack = .finite s m e positive := by
  obtain ⟨short, least, greatest, -⟩ := canonical
  have length : m.log2 = 52 := (Nat.log2_eq_iff (by omega)).mpr ⟨full, short⟩
  obtain ⟨biased, bias⟩ := Int.eq_ofNat_of_zero_le (a := e + 1075) (by omega)
  have exponent : (e + (Format.binary64.exponentBias : Int) + (52 : Nat)).toNat = biased := by
    have constant : (Format.binary64.exponentBias : Int) = 1023 := rfl
    omega
  have inside : ¬ 2 ^ 11 ≤ biased + 1 := by omega
  have packed : UnpackedFloat.pack Format.binary64 (.finite s m e positive)
      = packComponents Format.binary64 s (BitVec.ofNat 11 biased) (BitVec.ofNat 52 m) := by
    simp only [UnpackedFloat.pack, exponent, inside, if_false, length, Format.mantissaBits]
    rfl
  have field : (BitVec.ofNat 11 biased).toNat = biased := by
    rw [BitVec.toNat_ofNat]
    exact Nat.mod_eq_of_lt (by omega)
  have notOnes : BitVec.ofNat 11 biased ≠ -1#11 := by
    rw [ne_eq, BitVec.toNat_eq, field]
    exact ne_of_lt (by change biased < 2047; omega)
  have notZero : BitVec.ofNat 11 biased ≠ 0#11 := by
    rw [ne_eq, BitVec.toNat_eq, field]
    exact ne_of_gt (by change 0 < biased; omega)
  have mantissa : (1#1 ++ BitVec.ofNat 52 m).toNat = m := by
    rw [BitVec.toNat_append, ← Nat.shiftLeft_add_eq_or_of_lt (BitVec.isLt _), BitVec.toNat_ofNat]
    change 1 <<< 52 + m % 2 ^ 52 = m
    omega
  change UnpackedFloat.unpack Format.binary64 (UnpackedFloat.pack Format.binary64 _) = _
  rw [packed]
  simp only [UnpackedFloat.unpack, unpackExponent_packComponents, unpackMantissa_packComponents,
    unpackSign_packComponents, Sign.ofBitVec_toBitVec, notOnes, notZero, if_false, mantissa, field]
  congr 1
  have constant : (Format.binary64.exponentBias : Int) + (52 : Nat) = 1075 := rfl
  omega

/-- A finite float is the number `q` rounded: it is on the side of zero on which `q` is, and its magnitude
is that of `q` rounded to 53 digits.
-/
structure Nearest (q : ℚ) (x : Float) : Prop where
  finite : x.isFinite = true
  side : 0 ≤ q * value x
  rounds : Rounds 53 |q| |value x|

/-- What is rounded stays on its side. -/
theorem Nearest.abs_sub (nearest : Nearest q x) : |q - value x| = |(|q| - |value x|)| := by
  have side := nearest.side
  rcases le_total 0 q with nonneg | nonpos
  · rcases le_total 0 (value x) with above | below
    · rw [abs_of_nonneg nonneg, abs_of_nonneg above]
    · have zero : q * value x = 0 := le_antisymm (mul_nonpos_of_nonneg_of_nonpos nonneg below) side
      rcases mul_eq_zero.mp zero with none | none <;> simp [none]
  · rcases le_total 0 (value x) with above | below
    · have zero : q * value x = 0 := le_antisymm (mul_nonpos_of_nonpos_of_nonneg nonpos above) side
      rcases mul_eq_zero.mp zero with none | none <;> simp [none]
    · rw [abs_of_nonpos nonpos, abs_of_nonpos below, ← abs_neg]
      congr 1
      ring

/-- A number that has few enough digits is not changed by rounding. -/
theorem Nearest.value_eq (nearest : Nearest q x) (short : HasDigits 53 |q|) : value x = q := by
  have same : |value x| = |q| := nearest.rounds.unique (by decide) short.rounds
  have distance := nearest.abs_sub
  rw [same, sub_self, abs_zero, abs_eq_zero, sub_eq_zero] at distance
  exact distance.symm

/-- What is rounded from 1 or more is not zero, since 1 is nearer. -/
theorem Nearest.value_ne_zero (nearest : Nearest q x) (some : 1 ≤ |q|) : value x ≠ 0 := by
  intro none
  have one : HasDigits 53 1 := ⟨1, 0, by decide, by simp⟩
  have near := nearest.rounds.nearest 1 one
  rw [none, abs_zero, sub_zero, abs_abs, abs_of_nonneg (sub_nonneg.mpr some)] at near
  linarith

/-- Only one float is nearest to a number of 1 or more. -/
theorem Nearest.unique (first : Nearest q x) (second : Nearest q y) (some : 1 ≤ |q|) : x = y := by
  have magnitude : |value x| = |value y| := first.rounds.unique (by decide) second.rounds
  refine eq_of_value first.finite second.finite ?_ (first.value_ne_zero some)
  rcases lt_or_gt_of_ne (abs_pos.mp (one_pos.trans_le some)) with negative | positive
  · have left := nonpos_of_mul_nonneg_right first.side negative
    have right := nonpos_of_mul_nonneg_right second.side negative
    rwa [abs_of_nonpos left, abs_of_nonpos right, neg_inj] at magnitude
  · have left := nonneg_of_mul_nonneg_right first.side positive
    have right := nonneg_of_mul_nonneg_right second.side positive
    rwa [abs_of_nonneg left, abs_of_nonneg right] at magnitude

/-- A float that unpacks to a mantissa and an exponent is finite and has their value. -/
theorem value_of_unpack {s : Sign} {positive : 0 < m}
    (unpacked : x.toModel.unpack = .finite s m e positive)
    : x.isFinite = true ∧ value x = signed s m e := by
  have finite : x.isFinite = true := by
    change x.toModel.unpack.isFinite = true
    rw [unpacked]
    rfl
  have stands := stands_of_finite finite
  rw [unpacked] at stands
  generalize value x = q at stands ⊢
  cases stands
  exact ⟨finite, rfl⟩

/-- Packing a rounded number gives the float nearest to it. -/
theorem nearest_of_rounded {s : Sign} {u : UnpackedFloat} (rounded : Rounded s |q| u)
    (side : q = s.apply 1 * |q|)
    : Nearest q (Float.ofModel (Float.Model.pack u)) := by
  obtain @⟨m, e, positive, canonical, full, rounds⟩ := rounded
  obtain ⟨finite, same⟩ := value_of_unpack
    (x := Float.ofModel (Float.Model.pack (.finite s m e positive)))
    (unpack_pack s positive canonical full)
  have unit : (0 : ℚ) < m * 2 ^ e := by positivity
  cases s with
  | positive =>
      rw [signed_positive] at same
      refine ⟨finite, ?_, ?_⟩
      · rw [side, same]
        simp only [Sign.apply, Int.cast_one, one_mul]
        positivity
      · rwa [same, abs_of_pos unit]
  | negative =>
      rw [signed_negative] at same
      refine ⟨finite, ?_, ?_⟩
      · rw [side, same]
        simp only [Sign.apply, Int.cast_neg, Int.cast_one, neg_one_mul, neg_mul_neg]
        positivity
      · rwa [same, abs_neg, abs_of_pos unit]

-----------------------------------------------------------------------------------------
-- Integers
-----------------------------------------------------------------------------------------

private theorem moderate_of_bounds (positive : 0 < m) (lower : (1 : ℚ) ≤ m * 2 ^ e)
    (upper : (m : ℚ) * 2 ^ e < 2 ^ (200 : Int))
    : Moderate m e := by
  have unit : (0 : ℚ) < 2 ^ e := by positivity
  constructor
  · have above : (m : ℚ) * 2 ^ e < 2 ^ ((m.log2 + 1 : Nat) + e) := by
      rw [zpow_add₀ two_ne_zero, zpow_natCast]
      gcongr
      exact_mod_cast Nat.lt_log2_self
    have exponent := (one_lt_zpow_iff_right₀ one_lt_two).mp (lower.trans_lt above)
    omega
  · have below : (2 : ℚ) ^ ((m.log2 : Nat) + e) ≤ m * 2 ^ e := by
      rw [zpow_add₀ two_ne_zero, zpow_natCast]
      gcongr
      exact_mod_cast Nat.log2_self_le positive.ne'
    have exponent := (zpow_lt_zpow_iff_right₀ one_lt_two).mp (below.trans_lt upper)
    omega

/-- Normalizing gives the float nearest to the number. -/
theorem nearest_normalize (n : Int) (e : Int) (zero : Sign) (lower : 1 ≤ |(n : ℚ) * 2 ^ e|)
    (upper : |(n : ℚ) * 2 ^ e| < 2 ^ (200 : Int))
    : Nearest (n * 2 ^ e)
        (Float.ofModel (Float.Model.pack (normalize Format.binary64 n e zero))) := by
  have unit : (0 : ℚ) < 2 ^ e := by positivity
  have magnitude : |(n : ℚ) * 2 ^ e| = n.natAbs * 2 ^ e := by
    rw [abs_mul, abs_of_pos unit, ← Int.cast_abs, Int.abs_eq_natAbs, Int.cast_natCast]
  have some : 0 < n.natAbs := by
    rw [Int.natAbs_pos]
    rintro rfl
    simp at lower
    linarith
  have moderate : Moderate n.natAbs e :=
    moderate_of_bounds some (magnitude ▸ lower) (magnitude ▸ upper)
  rcases lt_or_gt_of_ne (Int.natAbs_pos.mp some) with negative | positive
  · have mantissa : (-n).toNat = n.natAbs := by omega
    simp only [UnpackedFloat.normalize, Int.compare_eq_lt.mpr negative, mantissa]
    refine nearest_of_rounded (s := .negative) ?_ ?_
    · rw [magnitude]
      exact rounded_round .negative moderate some
    · have nonpos : (n : ℚ) * 2 ^ e ≤ 0 :=
        mul_nonpos_of_nonpos_of_nonneg (by exact_mod_cast negative.le) unit.le
      simp [Sign.apply, abs_of_nonpos nonpos]
  · have mantissa : n.toNat = n.natAbs := by omega
    simp only [UnpackedFloat.normalize, Int.compare_eq_gt.mpr positive, mantissa]
    refine nearest_of_rounded (s := .positive) ?_ ?_
    · rw [magnitude]
      exact rounded_round .positive moderate some
    · have nonneg : 0 ≤ (n : ℚ) * 2 ^ e := mul_nonneg (by exact_mod_cast positive.le) unit.le
      simp [Sign.apply, abs_of_nonneg nonneg]

private theorem one_le_abs {n : Int} (some : n ≠ 0) : (1 : ℚ) ≤ |(n : ℚ)| := by
  rw [← Int.cast_abs, Int.abs_eq_natAbs, Int.cast_natCast]
  exact_mod_cast Int.natAbs_pos.mpr some

private theorem abs_lt_of_natAbs {n : Int} (small : n.natAbs < 2 ^ 128) : |(n : ℚ)| < 2 ^ (200 : Int) := by
  have far : (2 : ℚ) ^ (128 : Int) ≤ 2 ^ (200 : Int) := zpow_le_zpow_right₀ one_le_two (by omega)
  refine lt_of_lt_of_le ?_ far
  rw [← Int.cast_abs, Int.abs_eq_natAbs, Int.cast_natCast]
  exact_mod_cast small

/-- The float of an integer is the nearest one. -/
theorem nearest_nearestFloat {n : Int} (some : n ≠ 0) (small : n.natAbs < 2 ^ 128)
    : Nearest n (nearestFloat n) := by
  have whole : (n : ℚ) * 2 ^ (0 : Int) = n := by simp
  have lower := one_le_abs some
  have upper := abs_lt_of_natAbs small
  rw [← whole] at lower upper ⊢
  exact nearest_normalize n 0 .positive lower upper

/-- Integers of up to 53 digits are floats. -/
theorem nearestFloat_exact {n : Int} (short : n.natAbs ≤ 2 ^ 53)
    : (nearestFloat n).isFinite = true ∧ value (nearestFloat n) = n := by
  by_cases some : n = 0
  · subst some
    exact ⟨by decide +kernel, by decide +kernel⟩
  · have nearest := nearest_nearestFloat some (short.trans_lt (by decide))
    refine ⟨nearest.finite, nearest.value_eq ?_⟩
    rw [← Int.cast_abs, Int.abs_eq_natAbs, Int.cast_natCast]
    simpa using hasDigits_of_le (by decide) short 0

-----------------------------------------------------------------------------------------
-- Arithmetic
-----------------------------------------------------------------------------------------

theorem abs_signed (s : Sign) (m : Nat) (e : Int) : |signed s m e| = m * 2 ^ e := by
  have unit : (0 : ℚ) ≤ m * 2 ^ e := by positivity
  cases s with
  | positive => rw [signed_positive, abs_of_nonneg unit]
  | negative => rw [signed_negative, abs_neg, abs_of_nonneg unit]

private theorem signed_eq (s : Sign) (m : Nat) (e : Int) : signed s m e = s.apply 1 * |signed s m e| := by
  rw [abs_signed]
  cases s with
  | positive => simp [signed_positive, Sign.apply]
  | negative => simp [signed_negative, Sign.apply]

/-- A float of 1 or more has all its digits. -/
theorem full_of_one_le (canonical : Canonical m e) (some : (1 : ℚ) ≤ m * 2 ^ e) : 2 ^ 52 ≤ m := by
  refine canonical.full.resolve_right ?_
  rintro rfl
  have small : (m : ℚ) * 2 ^ (-1074 : Int) < 2 ^ 53 * 2 ^ (-1074 : Int) := by
    gcongr
    exact_mod_cast canonical.short
  have tiny : (2 : ℚ) ^ 53 * 2 ^ (-1074 : Int) ≤ 1 := by
    rw [← zpow_natCast, ← zpow_add₀ two_ne_zero]
    exact zpow_le_one_of_nonpos₀ one_le_two (by norm_num)
  linarith

/-- Packing gives the float that stands for the number of the unpacked one. -/
theorem nearest_of_stands {u : UnpackedFloat} (stands : Stands u q) (some : 1 ≤ |q|)
    : Nearest q (Float.ofModel (Float.Model.pack u)) := by
  cases stands with
  | zero s => exact absurd some (by simp)
  | @finite s m e positive canonical =>
      refine nearest_of_rounded ?_ (signed_eq s m e)
      rw [abs_signed] at some ⊢
      exact .intro positive canonical (full_of_one_le canonical some)
        (HasDigits.rounds ⟨m, e, canonical.short, rfl⟩)

/-- A smaller exponent needs a longer mantissa. -/
theorem signed_decreaseExponent (s : Sign) (m : Nat) {e e' : Int} (less : e' ≤ e)
    : (s.apply (decreaseExponent m e e').1 : ℚ) * 2 ^ e' = signed s m e := by
  obtain ⟨k, rfl⟩ := Int.le.dest less
  have shift : (e' + k - e').toNat = k := by omega
  simp only [decreaseExponent, shift, Nat.shiftLeft_eq, signed, Sign.apply,
    zpow_add₀ (two_ne_zero (α := ℚ)), zpow_natCast]
  cases s with
  | positive =>
      push_cast
      ring
  | negative =>
      push_cast
      ring

/-- Adding two unpacked floats and packing the sum rounds the sum of their numbers. -/
theorem nearest_add_unpacked {u v : UnpackedFloat} {p r : ℚ} (left : Stands u p) (right : Stands v r)
    (lower : 1 ≤ |p + r|) (upper : |p + r| < 2 ^ (200 : Int))
    : Nearest (p + r) (Float.ofModel (Float.Model.pack (UnpackedFloat.add Format.binary64 u v))) := by
  cases left with
  | zero s =>
      rw [zero_add] at lower ⊢
      cases right with
      | zero s' => exact absurd lower (by simp)
      | finite positive' canonical' => exact nearest_of_stands (.finite positive' canonical') lower
  | @finite s m e positive canonical =>
      cases right with
      | zero s' =>
          rw [add_zero] at lower ⊢
          exact nearest_of_stands (.finite positive canonical) lower
      | @finite s' m' e' positive' canonical' =>
          have sum : signed s m e + signed s' m' e'
              = (s.apply (decreaseExponent m e (min e e')).1
                  + s'.apply (decreaseExponent m' e' (min e e')).1 : Int) * 2 ^ min e e' := by
            rw [Int.cast_add, add_mul, signed_decreaseExponent s m (min_le_left e e'),
              signed_decreaseExponent s' m' (min_le_right e e')]
          rw [sum] at lower upper ⊢
          exact nearest_normalize _ _ .positive lower upper

/-- The sum of two floats is the float nearest to the sum of their numbers. -/
theorem nearest_add (finite : x.isFinite = true) (finite' : y.isFinite = true)
    (lower : 1 ≤ |value x + value y|) (upper : |value x + value y| < 2 ^ (200 : Int))
    : Nearest (value x + value y) (x + y) :=
  nearest_add_unpacked (stands_of_finite finite) (stands_of_finite finite') lower upper

private theorem apply_neg (s : Sign) (n : Int) : (-s).apply n = -s.apply n := by
  cases s with
  | positive => rfl
  | negative => exact (neg_neg n).symm

private theorem apply_mul (s s' : Sign) : (s * s').apply 1 = s.apply 1 * s'.apply 1 := by
  cases s <;> cases s' <;> rfl

theorem Stands.neg {u : UnpackedFloat} (stands : Stands u q) : Stands u.neg (-q) := by
  cases stands with
  | zero s =>
      rw [neg_zero]
      exact .zero _
  | @finite s m e positive canonical =>
      have opposite : -signed s m e = signed (-s) m e := by
        rw [signed, signed, apply_neg, Int.cast_neg, neg_mul]
      rw [opposite]
      exact .finite positive canonical

/-- Subtracting is adding the opposite. -/
theorem sub_unpacked {u v : UnpackedFloat} {p r : ℚ} (left : Stands u p) (right : Stands v r)
    : UnpackedFloat.sub Format.binary64 u v = UnpackedFloat.add Format.binary64 u v.neg := by
  cases left with
  | zero s => cases right <;> rfl
  | @finite s m e positive canonical =>
      cases right with
      | zero s' => rfl
      | @finite s' m' e' positive' canonical' =>
          simp only [UnpackedFloat.sub, UnpackedFloat.add, UnpackedFloat.neg, apply_neg, sub_eq_add_neg]

/-- The difference of two floats is the float nearest to the difference of their numbers. -/
theorem nearest_sub (finite : x.isFinite = true) (finite' : y.isFinite = true)
    (lower : 1 ≤ |value x - value y|) (upper : |value x - value y| < 2 ^ (200 : Int))
    : Nearest (value x - value y) (x - y) := by
  have left := stands_of_finite finite
  have right := stands_of_finite finite'
  have difference : x - y = Float.ofModel (Float.Model.pack
      (UnpackedFloat.add Format.binary64 x.toModel.unpack y.toModel.unpack.neg)) :=
    congrArg (fun u => Float.ofModel (Float.Model.pack u)) (sub_unpacked left right)
  rw [sub_eq_add_neg] at lower upper ⊢
  rw [difference]
  exact nearest_add_unpacked left right.neg lower upper

/-- The product of two floats is the float nearest to the product of their numbers. -/
theorem nearest_mul (finite : x.isFinite = true) (finite' : y.isFinite = true)
    (some : 1 ≤ |value x|) (some' : 1 ≤ |value y|) (upper : |value x * value y| < 2 ^ (200 : Int))
    : Nearest (value x * value y) (x * y) := by
  have left := stands_of_finite finite
  have right := stands_of_finite finite'
  have product : x * y = Float.ofModel (Float.Model.pack
      (UnpackedFloat.mul Format.binary64 x.toModel.unpack y.toModel.unpack)) := rfl
  rw [product]
  generalize x.toModel.unpack = u at left ⊢
  generalize y.toModel.unpack = v at right ⊢
  generalize value x = p at *
  generalize value y = r at *
  cases left with
  | zero s => exact absurd some (by simp)
  | @finite s m e positive canonical =>
      cases right with
      | zero s' => exact absurd some' (by simp)
      | @finite s' m' e' positive' canonical' =>
          have magnitude : |signed s m e * signed s' m' e'| = (m * m' : Nat) * 2 ^ (e + e') := by
            rw [abs_mul, abs_signed, abs_signed, zpow_add₀ two_ne_zero]
            push_cast
            ring
          have side : signed s m e * signed s' m' e'
              = (s * s').apply 1 * |signed s m e * signed s' m' e'| := by
            rw [abs_mul, apply_mul, Int.cast_mul, mul_mul_mul_comm, ← signed_eq, ← signed_eq]
          have lower : 1 ≤ |signed s m e * signed s' m' e'| := by
            rw [abs_mul]
            exact one_le_mul_of_one_le_of_one_le some some'
          rw [abs_signed] at some some'
          have many : 2 ^ 52 ≤ m * m' :=
            (full_of_one_le canonical some).trans (Nat.le_mul_of_pos_right m positive')
          have moderate : Moderate (m * m') (e + e') :=
            moderate_of_bounds (Nat.mul_pos positive positive') (magnitude ▸ lower) (magnitude ▸ upper)
          refine nearest_of_rounded (s := s * s') ?_ side
          rw [magnitude]
          exact rounded_exact (s * s') moderate many

/-- Integers of up to 53 digits are added as floats like integers. -/
theorem nearestFloat_add {a b : Int} (short : a.natAbs ≤ 2 ^ 53) (short' : b.natAbs ≤ 2 ^ 53)
    (some : a + b ≠ 0)
    : nearestFloat a + nearestFloat b = nearestFloat (a + b) := by
  obtain ⟨finite, same⟩ := nearestFloat_exact short
  obtain ⟨finite', same'⟩ := nearestFloat_exact short'
  have small : (a + b).natAbs < 2 ^ 128 := by omega
  have sum := nearest_add finite finite'
  rw [same, same', ← Int.cast_add] at sum
  exact (sum (one_le_abs some) (abs_lt_of_natAbs small)).unique (nearest_nearestFloat some small)
    (one_le_abs some)

/-- Integers of up to 53 digits are subtracted as floats like integers. -/
theorem nearestFloat_sub {a b : Int} (short : a.natAbs ≤ 2 ^ 53) (short' : b.natAbs ≤ 2 ^ 53)
    (some : a - b ≠ 0)
    : nearestFloat a - nearestFloat b = nearestFloat (a - b) := by
  obtain ⟨finite, same⟩ := nearestFloat_exact short
  obtain ⟨finite', same'⟩ := nearestFloat_exact short'
  have small : (a - b).natAbs < 2 ^ 128 := by omega
  have difference := nearest_sub finite finite'
  rw [same, same', ← Int.cast_sub] at difference
  exact (difference (one_le_abs some) (abs_lt_of_natAbs small)).unique
    (nearest_nearestFloat some small) (one_le_abs some)

/-- Integers of up to 53 digits are multiplied as floats like integers, and the product is rounded. -/
theorem nearestFloat_mul {a b : Int} (short : a.natAbs ≤ 2 ^ 53) (short' : b.natAbs ≤ 2 ^ 53)
    (some : a * b ≠ 0)
    : nearestFloat a * nearestFloat b = nearestFloat (a * b) := by
  obtain ⟨finite, same⟩ := nearestFloat_exact short
  obtain ⟨finite', same'⟩ := nearestFloat_exact short'
  have small : (a * b).natAbs < 2 ^ 128 := by
    rw [Int.natAbs_mul]
    exact (Nat.mul_le_mul short short').trans_lt (by decide)
  have product := nearest_mul finite finite'
  rw [same, same', ← Int.cast_mul] at product
  exact (product (one_le_abs (left_ne_zero_of_mul some)) (one_le_abs (right_ne_zero_of_mul some))
    (abs_lt_of_natAbs small)).unique (nearest_nearestFloat some small) (one_le_abs some)

end Float
end TaskMachine

import TaskMachine.Proofs.Float.Rounding

/-!
Decimals as floats. A decimal is turned into a float as a product or as a quotient, of floats or of whole
numbers of any size, as its digits and its exponent allow. All these ways round the same number in the
same way, so the float depends on nothing but the number that the decimal stands for.
-/

namespace TaskMachine

open Float.Model Float.Model.UnpackedFloat

namespace Float

variable {x : Float} {m : Nat} {e : Int} {q r : ℚ}

-----------------------------------------------------------------------------------------
-- Numbers between mantissas
-----------------------------------------------------------------------------------------

/-- A number as rounding sees it: its whole part, whether half a unit or more is behind that, and whether
anything else is.
-/
def extended (r : ℚ) : ExtendedMantissa :=
  ⟨⌊r⌋₊, decide (1 ≤ 2 * (r - ⌊r⌋₊)), decide (r - ⌊r⌋₊ ≠ 0 ∧ 2 * (r - ⌊r⌋₊) ≠ 1)⟩

private theorem extended_add (n : Nat) {f : ℚ} (nonneg : 0 ≤ f) (small : f < 1)
    : extended (n + f) = ⟨n, decide (1 ≤ 2 * f), decide (f ≠ 0 ∧ 2 * f ≠ 1)⟩ := by
  have whole : ⌊(n : ℚ) + f⌋₊ = n := by
    rw [Nat.floor_eq_iff (by positivity)]
    constructor <;> linarith
  simp only [extended, whole, add_sub_cancel_left]

private theorem exists_fraction (nonneg : 0 ≤ r) : ∃ (n : Nat) (f : ℚ), 0 ≤ f ∧ f < 1 ∧ r = n + f := by
  have below := Nat.floor_le nonneg
  have above := Nat.lt_floor_add_one r
  exact ⟨⌊r⌋₊, r - ⌊r⌋₊, by linarith, by linarith, by ring⟩

/-- Moving the mantissa by one place halves the number. -/
theorem shiftRightOne_extended (nonneg : 0 ≤ r) : (extended r).shiftRightOne = extended (r / 2) := by
  obtain ⟨n, f, least, small, rfl⟩ := exists_fraction nonneg
  have lost : (decide (1 ≤ 2 * f) || decide (f ≠ 0 ∧ 2 * f ≠ 1)) = decide (f ≠ 0) := by
    rcases eq_or_ne f 0 with rfl | some
    · norm_num
    · by_cases tie : 2 * f = 1
      · simp [tie, some]
      · simp [some, tie]
  rcases Nat.even_or_odd' n with ⟨k, rfl | rfl⟩
  · have half : ((2 * k : Nat) + f) / 2 = (k : Nat) + f / 2 := by
      push_cast
      ring
    have near : ¬ 1 ≤ 2 * (f / 2) := by linarith
    have rest : (f / 2 ≠ 0 ∧ 2 * (f / 2) ≠ 1) ↔ f ≠ 0 :=
      ⟨fun given => by simpa using given.1, fun some => ⟨by simpa using some, by linarith⟩⟩
    rw [half, extended_add _ least small, extended_add _ (by linarith) (by linarith)]
    simp only [ExtendedMantissa.shiftRightOne, lost, near, rest]
    simp
  · have half : ((2 * k + 1 : Nat) + f) / 2 = (k : Nat) + (1 + f) / 2 := by
      push_cast
      ring
    have near : 1 ≤ 2 * ((1 + f) / 2) := by linarith
    have rest : ((1 + f) / 2 ≠ 0 ∧ 2 * ((1 + f) / 2) ≠ 1) ↔ f ≠ 0 :=
      ⟨fun given none => given.2 (by rw [none]; norm_num),
        fun some => ⟨by linarith, fun same => some (by linarith)⟩⟩
    have whole : (2 * k + 1) / 2 = k := by omega
    rw [half, extended_add _ least small, extended_add _ (by linarith) (by linarith)]
    simp only [ExtendedMantissa.shiftRightOne, lost, near, rest, whole]
    simp

/-- A shift divides by a power of two, with what is lost kept in the last two bits. -/
theorem shiftRight_extended (nonneg : 0 ≤ r) (k : Nat) : extended r >>> k = extended (r / 2 ^ k) := by
  induction k with
  | zero =>
      rw [pow_zero, div_one]
      rfl
  | succ k ih =>
      change (extended r >>> k).shiftRightOne = _
      rw [ih, shiftRightOne_extended (by positivity), pow_succ, div_div]

private theorem extended_natCast (n : Nat) : extended n = ExtendedMantissa.ofMantissaAndAccuracy n .exact := by
  have whole := extended_add n (f := 0) le_rfl one_pos
  rw [add_zero] at whole
  rw [whole]
  norm_num [ExtendedMantissa.ofMantissaAndAccuracy]

/-- The accuracy of a quotient says what the fraction behind it is. -/
theorem extended_quotient (n : Nat) {d : Nat} (positive : 0 < d)
    : extended (n / d)
      = ExtendedMantissa.ofMantissaAndAccuracy (n / d) (accuracyOfFraction (n % d) d) := by
  have some : (0 : ℚ) < d := by exact_mod_cast positive
  have split : (n : ℚ) / d = (n / d : Nat) + (n % d : Nat) / d := by
    have whole : (n : ℚ) = (n / d : Nat) * d + (n % d : Nat) := by
      exact_mod_cast (Nat.div_add_mod' n d).symm
    rw [whole, add_div, mul_div_cancel_right₀ _ some.ne']
  have small : n % d < d := Nat.mod_lt n positive
  rw [split, extended_add _ (by positivity) ((div_lt_one some).mpr (by exact_mod_cast small))]
  generalize n / d = quotient
  generalize n % d = rest at small ⊢
  have empty : (rest : ℚ) / d ≠ 0 ↔ rest ≠ 0 := by simp [some.ne']
  have half : 1 ≤ 2 * ((rest : ℚ) / d) ↔ d ≤ 2 * rest := by
    rw [← mul_div_assoc, one_le_div some]
    exact_mod_cast Iff.rfl
  have tie : 2 * ((rest : ℚ) / d) ≠ 1 ↔ 2 * rest ≠ d := by
    rw [ne_eq, ← mul_div_assoc, div_eq_one_iff_eq some.ne']
    exact_mod_cast Iff.rfl
  simp only [empty, half, tie, accuracyOfFraction]
  rcases Nat.eq_zero_or_pos rest with rfl | positive
  · simp [ExtendedMantissa.ofMantissaAndAccuracy, positive.ne']
  · rw [if_neg positive.ne']
    rcases Nat.lt_trichotomy (2 * rest) d with less | same | greater
    · rw [compare_lt_iff_lt.mpr less]
      simp [ExtendedMantissa.ofMantissaAndAccuracy, positive.ne', less.ne, less.not_ge]
    · rw [compare_eq_iff_eq.mpr same]
      simp [ExtendedMantissa.ofMantissaAndAccuracy, same]
    · rw [compare_gt_iff_gt.mpr greater]
      simp [ExtendedMantissa.ofMantissaAndAccuracy, positive.ne', greater.ne', greater.le]

/-- The whole number nearest to a number, a tie going to the even one. -/
def nearestWhole (r : ℚ) : Nat :=
  (extended r).roundedMantissa

private theorem nearestWhole_natCast (n : Nat) : nearestWhole n = n := by
  rw [nearestWhole, extended_natCast]
  rfl

/-- What is nearer to zero than to one rounds to zero. -/
theorem nearestWhole_of_lt_half (nonneg : 0 ≤ r) (small : 2 * r < 1) : nearestWhole r = 0 := by
  have fraction := extended_add 0 nonneg (by linarith)
  rw [Nat.cast_zero, zero_add] at fraction
  rw [nearestWhole, fraction, decide_eq_false small.not_ge]
  cases decide (r ≠ 0 ∧ 2 * r ≠ 1) <;> rfl

private theorem nearestWhole_ne_zero (some : 1 ≤ r) : nearestWhole r ≠ 0 := by
  obtain ⟨n, f, least, small, rfl⟩ := exists_fraction (zero_le_one.trans some)
  have whole : n ≠ 0 := by
    rintro rfl
    norm_num at some
    linarith
  rw [nearestWhole, extended_add n least small]
  generalize decide (1 ≤ 2 * f) = half
  generalize decide (f ≠ 0 ∧ 2 * f ≠ 1) = rest
  cases half <;> cases rest <;>
    simp [ExtendedMantissa.roundedMantissa, ExtendedMantissa.accuracy, Accuracy.roundToNearestEven, whole]

-----------------------------------------------------------------------------------------
-- Rounding positive numbers
-----------------------------------------------------------------------------------------

/-- The exponent of the last digit that a float keeps of a positive number. -/
def lastPlace (q : ℚ) : Int :=
  max (Int.log 2 q - 52) (-1074)

/-- An unpacked float from a mantissa that has been rounded to a number of digits, or to the next power of
two.
-/
def settled (s : Sign) (m : Nat) (e : Int) : UnpackedFloat :=
  let shifted := shiftToTargetExponent Format.binary64 m e .exact
  if some : shifted.1.mantissa = 0 then .zero s
  else .finite s shifted.1.mantissa shifted.2 (Nat.pos_of_ne_zero some)

/-- The unpacked float nearest to a positive number. -/
def nearestUnpacked (s : Sign) (q : ℚ) : UnpackedFloat :=
  settled s (nearestWhole (q / 2 ^ lastPlace q)) (lastPlace q)

/-- The logarithm of a number shows in the whole number of units of `2 ^ e` in it, if there are any. -/
theorem log_eq {n : Nat} (some : n ≠ 0) (lower : n * 2 ^ e ≤ q) (upper : q < (n + 1 : Nat) * 2 ^ e)
    : Int.log 2 q = n.log2 + e := by
  have unit : (0 : ℚ) < 2 ^ e := by positivity
  have positive : 0 < q := lt_of_lt_of_le (by positivity) lower
  have below : (2 : ℚ) ^ ((n.log2 : Int) + e) ≤ q := by
    refine le_trans ?_ lower
    rw [zpow_add₀ two_ne_zero, zpow_natCast]
    gcongr
    exact_mod_cast Nat.log2_self_le some
  have above : q < (2 : ℚ) ^ ((n.log2 : Int) + e + 1) := by
    refine upper.trans_le ?_
    rw [add_right_comm, zpow_add₀ two_ne_zero]
    gcongr
    exact_mod_cast (Nat.lt_log2_self : n < 2 ^ (n.log2 + 1))
  have least := (Int.zpow_le_iff_le_log (b := 2) one_lt_two positive).mp (by exact_mod_cast below)
  have greatest := (Int.lt_zpow_iff_log_lt (b := 2) one_lt_two positive).mp (by exact_mod_cast above)
  omega

/-- Rounding finds the last place from what it is given of a number, as long as that is enough. -/
theorem targetExponent_eq (positive : 0 < q) (enough : e ≤ lastPlace q)
    : Format.binary64.targetExponent (totalExponent ⌊q / 2 ^ e⌋₊ e) = lastPlace q := by
  have unit : (0 : ℚ) < 2 ^ e := by positivity
  have lower := Nat.floor_le (div_nonneg positive.le unit.le)
  have upper := Nat.lt_floor_add_one (q / 2 ^ e)
  rw [le_div_iff₀ unit] at lower
  rw [div_lt_iff₀ unit, ← Nat.cast_add_one] at upper
  generalize ⌊q / 2 ^ e⌋₊ = n at lower upper ⊢
  simp only [Format.targetExponent, totalExponent, Format.mantissaBits, Format.minExponent, lastPlace]
    at enough ⊢
  by_cases some : n = 0
  · subst some
    have log : Int.log 2 q < e := by
      rw [← Int.lt_zpow_iff_log_lt one_lt_two positive]
      simpa using upper
    have short : (Nat.log2 0 : Int) = 0 := by simp
    omega
  · have log := log_eq some lower upper
    omega

/-- Rounding a mantissa gives the float nearest to the number, if the mantissa has digits enough and the
accuracy says what is behind them.
-/
theorem roundWithAccuracy_eq (s : Sign) (positive : 0 < q) (enough : e ≤ lastPlace q) {n : Nat}
    {accuracy : Accuracy}
    (given : extended (q / 2 ^ e) = ExtendedMantissa.ofMantissaAndAccuracy n accuracy)
    : roundWithAccuracy Format.binary64 s n e accuracy = nearestUnpacked s q := by
  have unit : (0 : ℚ) < 2 ^ e := by positivity
  have whole : n = ⌊q / 2 ^ e⌋₊ := by
    have mantissa := congrArg ExtendedMantissa.mantissa given
    cases accuracy with
    | exact => exact mantissa.symm
    | inexact order => cases order <;> exact mantissa.symm
  obtain ⟨k, split⟩ := Int.le.dest enough
  have digits : q / 2 ^ e / 2 ^ k = q / 2 ^ lastPlace q := by
    rw [div_div, ← split, zpow_add₀ two_ne_zero, zpow_natCast]
  have first : shiftToTargetExponent Format.binary64 n e accuracy
      = (extended (q / 2 ^ lastPlace q), lastPlace q) := by
    have target := targetExponent_eq positive enough
    rw [← whole] at target
    have shift : (lastPlace q - e).toNat = k := by omega
    simp only [shiftToTargetExponent, shiftToExponent, target, shift, ← given]
    rw [shiftRight_extended (by positivity), digits, split]
  simp only [roundWithAccuracy, first]
  rfl

/-- What remains of a mantissa that is moved to where its last digit belongs. -/
theorem shiftToTargetExponent_exact (m : Nat) (e : Int)
    : (shiftToTargetExponent Format.binary64 m e .exact).1.mantissa
        = m / 2 ^ (Format.binary64.targetExponent (totalExponent m e) - e).toNat
      ∧ e ≤ (shiftToTargetExponent Format.binary64 m e .exact).2 := by
  simp only [shiftToTargetExponent, shiftToExponent, ← extended_natCast]
  generalize (Format.binary64.targetExponent (totalExponent m e) - e).toNat = k
  have power : (2 : ℚ) ^ k = (2 ^ k : Nat) := by push_cast; rfl
  rw [shiftRight_extended (by positivity), power]
  exact ⟨Nat.floor_div_eq_div m _, by omega⟩

private theorem settled_zero (s : Sign) (e : Int) : settled s 0 e = .zero s := by
  have mantissa := (shiftToTargetExponent_exact 0 e).1
  rw [Nat.zero_div] at mantissa
  rw [settled, dif_pos mantissa]

/-- Numbers below half of the least float are rounded to zero. -/
theorem nearestUnpacked_tiny (s : Sign) (positive : 0 < q) (tiny : q < 2 ^ (-1075 : Int))
    : nearestUnpacked s q = .zero s := by
  have log : Int.log 2 q < -1075 :=
    (Int.lt_zpow_iff_log_lt one_lt_two positive).mp (by exact_mod_cast tiny)
  have place : lastPlace q = -1074 := max_eq_right (by omega)
  have small : 2 * (q / 2 ^ (-1074 : Int)) < 1 := by
    have unit : (0 : ℚ) < 2 ^ (-1074 : Int) := by positivity
    rw [← mul_div_assoc, div_lt_one unit, half_unit (-1074)]
    exact (mul_lt_mul_iff_right₀ two_pos).mpr tiny
  rw [nearestUnpacked, place, nearestWhole_of_lt_half (by positivity) small, settled_zero]

/-- Numbers above all floats are rounded to infinity. -/
theorem pack_nearestUnpacked_huge (s : Sign) (huge : 2 ^ (1025 : Int) ≤ q)
    : Float.Model.pack (nearestUnpacked s q) = Float.Model.pack (.infinity s) := by
  have positive : 0 < q := lt_of_lt_of_le (by positivity) huge
  have log : 1025 ≤ Int.log 2 q :=
    (Int.zpow_le_iff_le_log one_lt_two positive).mp (by rwa [Nat.cast_ofNat])
  have place : lastPlace q = Int.log 2 q - 52 := max_eq_left (by omega)
  have some : 1 ≤ q / 2 ^ lastPlace q := by
    have unit : (0 : ℚ) < 2 ^ lastPlace q := by positivity
    have below : (2 : ℚ) ^ Int.log 2 q ≤ q := Int.zpow_log_le_self one_lt_two positive
    rw [one_le_div unit]
    exact (zpow_le_zpow_right₀ one_le_two (by omega)).trans below
  have whole := nearestWhole_ne_zero some
  rw [nearestUnpacked]
  generalize nearestWhole (q / 2 ^ lastPlace q) = n at whole ⊢
  obtain ⟨mantissa, least⟩ := shiftToTargetExponent_exact n (lastPlace q)
  have fits : 2 ^ (Format.binary64.targetExponent (totalExponent n (lastPlace q)) - lastPlace q).toNat
      ≤ n := by
    refine le_trans (Nat.pow_le_pow_right two_pos ?_) (Nat.log2_self_le whole)
    simp only [Format.targetExponent, totalExponent, Format.mantissaBits, Format.minExponent]
    omega
  have left : (shiftToTargetExponent Format.binary64 n (lastPlace q) .exact).1.mantissa ≠ 0 := by
    rw [mantissa]
    exact (Nat.div_pos fits (Nat.two_pow_pos _)).ne'
  rw [settled, dif_neg left]
  have outside : 2 ^ Format.binary64.exponentBits
      ≤ ((shiftToTargetExponent Format.binary64 n (lastPlace q) .exact).2
          + (Format.binary64.exponentBias : Int)
          + (Format.binary64.mantissaBitsWithoutImplicit : Int)).toNat + 1 := by
    have constant : (Format.binary64.exponentBias : Int) = 1023 := rfl
    have bits : (Format.binary64.mantissaBitsWithoutImplicit : Int) = 52 := rfl
    have size : 2 ^ Format.binary64.exponentBits = 2048 := rfl
    omega
  simp only [Float.Model.pack, UnpackedFloat.pack, if_pos outside]

/-- A float is the nearest one to the number that it stands for. -/
theorem nearestUnpacked_canonical (s : Sign) (positive : 0 < m) (canonical : Canonical m e)
    : nearestUnpacked s (m * 2 ^ e) = .finite s m e positive := by
  have unit : (0 : ℚ) < 2 ^ e := by positivity
  have some : (0 : ℚ) < m * 2 ^ e := by positivity
  have digits : (m : ℚ) * 2 ^ e / 2 ^ e = m := mul_div_cancel_right₀ _ unit.ne'
  have place : lastPlace (m * 2 ^ e) = e := by
    have upper : (m : ℚ) * 2 ^ e < (m + 1 : Nat) * 2 ^ e := by
      gcongr
      omega
    have short := (Nat.log2_lt positive.ne').mpr canonical.short
    have least := canonical.least
    rw [lastPlace, log_eq positive.ne' le_rfl upper]
    rcases canonical.full with full | low
    · have length := (Nat.le_log2 positive.ne').mpr full
      omega
    · omega
  have target := targetExponent_eq some place.ge
  rw [digits, Nat.floor_natCast, place] at target
  have kept : shiftToTargetExponent Format.binary64 m e .exact
      = (ExtendedMantissa.ofMantissaAndAccuracy m .exact, e) := by
    simp only [shiftToTargetExponent, shiftToExponent, target, sub_self]
    simp
    rfl
  have left : (shiftToTargetExponent Format.binary64 m e .exact).1.mantissa ≠ 0 := by
    rw [kept]
    exact positive.ne'
  rw [nearestUnpacked, place, digits, nearestWhole_natCast, settled, dif_neg left]
  simp only [kept]
  rfl

-----------------------------------------------------------------------------------------
-- Products and quotients
-----------------------------------------------------------------------------------------

/-- The unit of a mantissa of 53 digits or more does not lie above the last place that is kept. -/
theorem le_lastPlace {n : Nat} (many : 2 ^ 52 ≤ n) (e : Int) : e ≤ lastPlace (n * 2 ^ e) := by
  have some : n ≠ 0 := by omega
  have upper : (n : ℚ) * 2 ^ e < (n + 1 : Nat) * 2 ^ e := by
    gcongr
    omega
  have length := (Nat.le_log2 some).mpr many
  rw [lastPlace, log_eq some le_rfl upper]
  omega

/-- A product with digits enough is rounded. -/
theorem mul_unpacked (s s' : Sign) {m' : Nat} {e' : Int} (positive : 0 < m) (positive' : 0 < m')
    (enough : e + e' ≤ lastPlace (m * 2 ^ e * (m' * 2 ^ e')))
    : UnpackedFloat.mul Format.binary64 (.finite s m e positive) (.finite s' m' e' positive')
      = nearestUnpacked (s * s') (m * 2 ^ e * (m' * 2 ^ e')) := by
  have unit : (0 : ℚ) < 2 ^ (e + e') := by positivity
  have product : (m : ℚ) * 2 ^ e * (m' * 2 ^ e') = (m * m' : Nat) * 2 ^ (e + e') := by
    rw [zpow_add₀ two_ne_zero]
    push_cast
    ring
  have digits : (m : ℚ) * 2 ^ e * (m' * 2 ^ e') / 2 ^ (e + e') = (m * m' : Nat) := by
    rw [product, mul_div_cancel_right₀ _ unit.ne']
  refine roundWithAccuracy_eq (s * s') (by positivity) enough ?_
  rw [digits, extended_natCast]

/-- A quotient is rounded: it is computed to digits enough. -/
theorem div_unpacked (s s' : Sign) {m' : Nat} {e' : Int} (positive : 0 < m) (positive' : 0 < m')
    : UnpackedFloat.div Format.binary64 (.finite s m e positive) (.finite s' m' e' positive')
      = nearestUnpacked (s / s') (m * 2 ^ e / (m' * 2 ^ e')) := by
  have some' : (0 : ℚ) < m' := by exact_mod_cast positive'
  have quotient : (0 : ℚ) < m * 2 ^ e / (m' * 2 ^ e') := by positivity
  have log : (m.log2 : Int) + e - m'.log2 - e' - 1 ≤ Int.log 2 ((m : ℚ) * 2 ^ e / (m' * 2 ^ e')) := by
    rw [← Int.zpow_le_iff_le_log one_lt_two quotient, le_div_iff₀ (by positivity)]
    have above : (m' : ℚ) ≤ 2 ^ ((m'.log2 : Int) + 1) := by
      exact_mod_cast (Nat.lt_log2_self : m' < 2 ^ (m'.log2 + 1)).le
    have below : (2 : ℚ) ^ (m.log2 : Int) ≤ m := by
      exact_mod_cast Nat.log2_self_le positive.ne'
    calc ((2 : Nat) : ℚ) ^ ((m.log2 : Int) + e - m'.log2 - e' - 1) * (m' * 2 ^ e')
        ≤ 2 ^ ((m.log2 : Int) + e - m'.log2 - e' - 1) * (2 ^ ((m'.log2 : Int) + 1) * 2 ^ e') := by
          push_cast
          gcongr
      _ = 2 ^ (m.log2 : Int) * 2 ^ e := by
          simp only [← zpow_add₀ (two_ne_zero (α := ℚ))]
          congr 1
          ring
      _ ≤ m * 2 ^ e := by gcongr
  have enough : min (e - e') (Format.binary64.targetExponent (totalExponent m e - totalExponent m' e'))
      ≤ lastPlace (m * 2 ^ e / (m' * 2 ^ e')) := by
    simp only [Format.targetExponent, totalExponent, Format.mantissaBits, Format.minExponent, lastPlace]
    omega
  have lower := min_le_left (e - e')
    (Format.binary64.targetExponent (totalExponent m e - totalExponent m' e'))
  simp only [UnpackedFloat.div, divCore]
  generalize min (e - e') (Format.binary64.targetExponent (totalExponent m e - totalExponent m' e')) = t
    at enough lower ⊢
  refine roundWithAccuracy_eq (s / s') quotient enough ?_
  rw [← extended_quotient _ positive', Nat.shiftLeft_eq]
  congr 1
  obtain ⟨k, split⟩ := Int.le.dest lower
  have shift : (e - e' - t).toNat = k := by omega
  have exponent : (2 : ℚ) ^ e = 2 ^ k * 2 ^ t * 2 ^ e' := by
    rw [← zpow_natCast, ← zpow_add₀ two_ne_zero, ← zpow_add₀ two_ne_zero]
    congr 1
    omega
  rw [shift, exponent]
  push_cast
  field_simp

/-- A float of 1 or more as an unpacked one. -/
theorem unpack_of_one_le (finite : x.isFinite = true) (some : 1 ≤ value x)
    : ∃ (m : Nat) (e : Int) (positive : 0 < m),
        x.toModel.unpack = .finite .positive m e positive ∧ value x = m * 2 ^ e ∧ 2 ^ 52 ≤ m := by
  have stands := stands_of_finite finite
  generalize x.toModel.unpack = u at stands ⊢
  generalize value x = q at stands some ⊢
  cases stands with
  | zero s => exact absurd some (by norm_num)
  | @finite s m e positive canonical =>
      have above : (0 : ℚ) < m * 2 ^ e := by positivity
      cases s with
      | positive =>
          rw [signed_positive] at some ⊢
          exact ⟨m, e, positive, rfl, rfl, full_of_one_le canonical some⟩
      | negative =>
          rw [signed_negative] at some
          linarith

/-- The float nearest to a positive number. -/
def nearestPositive (q : ℚ) : Float :=
  Float.ofModel (Float.Model.pack (nearestUnpacked .positive q))

/-- A product is correctly rounded, here of factors of at least one. -/
theorem mul_eq_nearest {y : Float} (finite : x.isFinite = true) (finite' : y.isFinite = true)
    (some : 1 ≤ value x) (some' : 1 ≤ value y)
    : x * y = nearestPositive (value x * value y) := by
  obtain ⟨m, e, positive, unpacked, same, full⟩ := unpack_of_one_le finite some
  obtain ⟨m', e', positive', unpacked', same', full'⟩ := unpack_of_one_le finite' some'
  have product : x * y = Float.ofModel (Float.Model.pack
      (UnpackedFloat.mul Format.binary64 x.toModel.unpack y.toModel.unpack)) := rfl
  have whole : (m : ℚ) * 2 ^ e * (m' * 2 ^ e') = (m * m' : Nat) * 2 ^ (e + e') := by
    rw [zpow_add₀ two_ne_zero]
    push_cast
    ring
  have enough := le_lastPlace (full.trans (Nat.le_mul_of_pos_right m positive')) (e + e')
  rw [product, unpacked, unpacked', same, same', mul_unpacked _ _ positive positive' (whole ▸ enough)]
  rfl

/-- A quotient is correctly rounded, here of numbers of at least one. -/
theorem div_eq_nearest {y : Float} (finite : x.isFinite = true) (finite' : y.isFinite = true)
    (some : 1 ≤ value x) (some' : 1 ≤ value y)
    : x / y = nearestPositive (value x / value y) := by
  obtain ⟨m, e, positive, unpacked, same, -⟩ := unpack_of_one_le finite some
  obtain ⟨m', e', positive', unpacked', same', -⟩ := unpack_of_one_le finite' some'
  have quotient : x / y = Float.ofModel (Float.Model.pack
      (UnpackedFloat.div Format.binary64 x.toModel.unpack y.toModel.unpack)) := rfl
  rw [quotient, unpacked, unpacked', same, same', div_unpacked _ _ positive positive']
  rfl

theorem abs_value (x : Float) : |value x| = magnitude x := by
  have nonneg : 0 ≤ magnitude x := by
    rw [magnitude, Decimal.Magnitude.value]
    positivity
  rw [value]
  split
  · exact abs_of_nonneg nonneg
  · rw [abs_neg, abs_of_nonneg nonneg]

/-- The nearest float to the magnitude of a float is its absolute value. -/
theorem nearestPositive_magnitude (finite : x.isFinite = true) (some : magnitude x ≠ 0)
    : nearestPositive (magnitude x) = x.abs := by
  have stands := stands_of_finite finite
  have unpacked : x.abs = Float.ofModel (Float.Model.pack x.toModel.unpack.abs) := rfl
  rw [nearestPositive, unpacked, ← abs_value]
  rw [← abs_value] at some
  generalize x.toModel.unpack = u at stands ⊢
  generalize value x = q at stands some ⊢
  cases stands with
  | zero s => exact absurd abs_zero some
  | finite positive canonical =>
      rw [abs_signed, nearestUnpacked_canonical .positive positive canonical]
      rfl

end Float

-----------------------------------------------------------------------------------------
-- Decimals
-----------------------------------------------------------------------------------------

namespace Decimal

open TaskMachine.Float

/-- The number that a decimal stands for. -/
def value (d : Decimal) : ℚ :=
  d.digits * 10 ^ d.exponent

/-- The powers of ten in the table of those that are floats. -/
theorem powerOfTen_eq {k : Nat} (inside : k < Float.exactlyRepresentablePowersOfTen.size)
    : Float.exactlyRepresentablePowersOfTen[k] = nearestFloat (10 ^ k) := by
  have all : ∀ k : Fin 23, (Float.exactlyRepresentablePowersOfTen[k]).toBits
      = (nearestFloat (10 ^ k.val)).toBits := by decide +kernel
  exact eq_of_toBits (all ⟨k, inside⟩)

/-- Powers of ten up to the twenty-second are exact as floats. -/
theorem powerOfTen_value {k : Nat} (small : k < 23)
    : (nearestFloat (10 ^ k)).isFinite = true ∧ Float.value (nearestFloat (10 ^ k)) = 10 ^ k := by
  have size : ((10 : Int) ^ k).natAbs < 2 ^ 128 := by
    rw [Int.natAbs_pow]
    exact (Nat.pow_le_pow_right (by decide) (Nat.le_of_lt_succ small)).trans_lt (by decide)
  have nearest := nearest_nearestFloat (pow_ne_zero k (by decide)) size
  have short : HasDigits 53 |(10 : ℚ) ^ k| := by
    have few : 5 ^ k < 2 ^ 53 :=
      (Nat.pow_le_pow_right (by decide) (Nat.le_of_lt_succ small)).trans_lt (by decide)
    refine ⟨5 ^ k, k, few, ?_⟩
    rw [abs_of_nonneg (by positivity), zpow_natCast]
    push_cast
    rw [← mul_pow]
    norm_num
  push_cast at nearest
  exact ⟨nearest.finite, nearest.value_eq short⟩

/-- The short way: digits and a power of ten that are floats. -/
theorem toFloat_short {d : Decimal} (some : d.digits ≠ 0) (short : d.digits < 2 ^ 53)
    (small : d.exponent.natAbs ≤ 22)
    : d.toFloat = nearestPositive d.value := by
  obtain ⟨finite, same⟩ := nearestFloat_exact (n := d.digits) (by simpa using short.le)
  obtain ⟨finite', same'⟩ := powerOfTen_value (Nat.lt_succ_of_le small)
  have above : 1 ≤ Float.value (nearestFloat d.digits) := by
    rw [same]
    exact_mod_cast Nat.one_le_iff_ne_zero.mpr some
  have above' : 1 ≤ Float.value (nearestFloat (10 ^ d.exponent.natAbs)) := by
    rw [same']
    exact one_le_pow₀ (by norm_num)
  have digits : d.digits.toUInt64.toFloat = nearestFloat d.digits := by
    have word : d.digits.toUInt64.toNat = d.digits :=
      Nat.mod_eq_of_lt (short.trans (by decide))
    change Float.ofModel (Float.Model.pack (UnpackedFloat.ofInt _ (d.digits.toUInt64.toNat : Int))) = _
    rw [word]
    rfl
  rw [toFloat, Float.ofScientific, dif_pos ⟨short, small⟩]
  simp only [powerOfTen_eq, digits]
  rcases lt_or_ge d.exponent 0 with negative | nonneg
  · have exponent : d.exponent = -(d.exponent.natAbs : Int) := by omega
    have quotient : d.value = Float.value (nearestFloat d.digits)
        / Float.value (nearestFloat (10 ^ d.exponent.natAbs)) := by
      rw [same, same', value, Int.cast_natCast, div_eq_mul_inv, ← zpow_natCast, ← zpow_neg, ← exponent]
    rw [decide_eq_true negative, if_pos rfl, div_eq_nearest finite finite' above above', quotient]
  · have exponent : d.exponent = (d.exponent.natAbs : Int) := by omega
    have product : d.value = Float.value (nearestFloat d.digits)
        * Float.value (nearestFloat (10 ^ d.exponent.natAbs)) := by
      rw [same, same', value, Int.cast_natCast, ← zpow_natCast, ← exponent]
    rw [decide_eq_false nonneg.not_gt, if_neg (by decide), mul_eq_nearest finite finite' above above',
      product]

/-- The long way: whole numbers of any size, unless the number is beyond all floats or below them. -/
theorem ofScientific_eq {n : Nat} (some : n ≠ 0) (k : Int)
    : Float.ofModel (Float.Model.ofScientific n k) = nearestPositive (n * 10 ^ k) := by
  have positive : (0 : ℚ) < n := by exact_mod_cast Nat.pos_of_ne_zero some
  have one : (1 : ℚ) ≤ n := by exact_mod_cast Nat.one_le_iff_ne_zero.mpr some
  have limit : (2 : Int) ^ Format.binary64.exponentBits = 2048 := rfl
  rw [Float.Model.ofScientific, UnpackedFloat.ofScientific, dif_neg some]
  split_ifs with great small nonneg
  · have huge : (2 : ℚ) ^ (1025 : Int) ≤ n * 10 ^ k := by
      calc (2 : ℚ) ^ (1025 : Int) ≤ 2 ^ k := zpow_le_zpow_right₀ one_le_two (by omega)
        _ ≤ 10 ^ k := zpow_le_zpow_left₀ (by omega) two_pos.le (by norm_num)
        _ ≤ n * 10 ^ k := le_mul_of_one_le_left (by positivity) one
    rw [nearestPositive, pack_nearestUnpacked_huge .positive huge]
  · have tiny : (n : ℚ) * 10 ^ k < 2 ^ (-1075 : Int) := by
      have above : (n : ℚ) ≤ 2 ^ ((n.log2 : Int) + 1) := by
        exact_mod_cast (Nat.lt_log2_self : n < 2 ^ (n.log2 + 1)).le
      calc (n : ℚ) * 10 ^ k ≤ 2 ^ ((n.log2 : Int) + 1) * 2 ^ k := by
            have power : (10 : ℚ) ^ k ≤ 2 ^ k := by
              have nonpos : k ≤ 0 := by omega
              obtain ⟨j, rfl⟩ := Int.exists_eq_neg_ofNat nonpos
              rw [zpow_neg, zpow_neg, zpow_natCast, zpow_natCast]
              gcongr
              norm_num
            gcongr
        _ = 2 ^ ((n.log2 : Int) + 1 + k) := (zpow_add₀ two_ne_zero _ _).symm
        _ < 2 ^ (-1075 : Int) := zpow_lt_zpow_right₀ one_lt_two (by omega)
    rw [nearestPositive, nearestUnpacked_tiny .positive (by positivity) tiny]
  · have power : (10 : ℚ) ^ k = (10 ^ k.toNat : Nat) := by
      rw [Nat.cast_pow, ← zpow_natCast, Int.toNat_of_nonneg nonneg]
      rfl
    have product : ((n <<< 53 : Nat) : ℚ) * 2 ^ (-53 : Int) * ((10 ^ k.toNat : Nat) * 2 ^ (0 : Int))
        = n * 10 ^ k := by
      rw [power, Nat.shiftLeft_eq]
      push_cast
      field_simp
      norm_num
    have enough : -53 + 0 ≤ lastPlace (n * 10 ^ k) := by
      have above : (2 : ℚ) ^ (0 : Int) ≤ n * 10 ^ k := by
        rw [zpow_zero]
        exact one_le_mul_of_one_le_of_one_le one (one_le_zpow₀ (by norm_num) nonneg)
      have log : 0 ≤ Int.log 2 ((n : ℚ) * 10 ^ k) :=
        (Int.zpow_le_iff_le_log one_lt_two (by positivity)).mp (by rwa [Nat.cast_ofNat])
      rw [lastPlace]
      omega
    rw [← product] at enough ⊢
    exact congrArg (fun u => Float.ofModel (Float.Model.pack u))
      (mul_unpacked .positive .positive _ _ enough)
  · have power : (10 : ℚ) ^ k = ((10 ^ (-k).toNat : Nat) : ℚ)⁻¹ := by
      rw [Nat.cast_pow, ← zpow_natCast, Int.toNat_of_nonneg (by omega), zpow_neg, inv_inv]
      rfl
    have quotient : (n : ℚ) * 2 ^ (0 : Int) / ((10 ^ (-k).toNat : Nat) * 2 ^ (0 : Int)) = n * 10 ^ k := by
      rw [power, zpow_zero, mul_one, mul_one, div_eq_mul_inv]
    rw [← quotient]
    exact congrArg (fun u => Float.ofModel (Float.Model.pack u)) (div_unpacked .positive .positive _ _)

/-- A decimal is read as the float nearest to it, by whichever way it is converted. -/
theorem toFloat_eq (d : Decimal) (some : d.digits ≠ 0) : d.toFloat = nearestPositive d.value := by
  by_cases short : d.digits < 2 ^ 53 ∧ d.exponent.natAbs ≤ 22
  · exact toFloat_short some short.1 short.2
  · have exponent : (if decide (d.exponent < 0) = true then Int.negOfNat d.exponent.natAbs
        else Int.ofNat d.exponent.natAbs) = d.exponent := by
      split_ifs with negative
      · rw [decide_eq_true_eq] at negative
        rw [Int.negOfNat_eq]
        change -(d.exponent.natAbs : Int) = _
        omega
      · rw [decide_eq_true_eq] at negative
        change (d.exponent.natAbs : Int) = _
        omega
    rw [toFloat, Float.ofScientific, dif_neg short]
    simp only [exponent]
    exact ofScientific_eq some d.exponent

end Decimal
end TaskMachine

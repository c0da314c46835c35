import TaskMachine.Number
import TaskMachine.Proofs.Float.Exact

/-!
Floats on the number line. A finite float lies at the rational number that it stands for and the infinities
lie at the ends, and comparing floats compares their places there. Only NaN has no place.
-/

namespace TaskMachine

open Float.Model Float.Model.UnpackedFloat

namespace Float

variable {x y : Float}

-----------------------------------------------------------------------------------------
-- Unpacked floats
-----------------------------------------------------------------------------------------

/-- A mantissa and an exponent as a float has them: the mantissa has 53 binary digits, or fewer if the
exponent is the least one.
-/
structure Canonical (m : Nat) (e : Int) : Prop where
  short : m < 2 ^ 53
  least : -1074 ≤ e
  greatest : e ≤ 971
  full : 2 ^ 52 ≤ m ∨ e = -1074

/-- The sign of a float. -/
def sign (x : Float) : Sign :=
  if signBit x = 0 then .positive else .negative

private theorem sign_unpack (x : Float)
    : Sign.ofBitVec (@unpackSign Format.binary64 x.toBits.toBitVec) = sign x := by
  have bit : (@unpackSign Format.binary64 x.toBits.toBitVec).toNat = signBit x := by
    have lt := signBit_lt x
    simp only [signBit] at lt ⊢
    simp [unpackSign, Nat.shiftRight_eq_div_pow]
    omega
  have none : @unpackSign Format.binary64 x.toBits.toBitVec = 0#1 ↔ signBit x = 0 := by
    rw [← bit, BitVec.toNat_eq]
    rfl
  simp only [Sign.ofBitVec, none, sign]

/-- The shape of an unpacked float, by its bits of exponent and fraction. -/
theorem unpack_eq (x : Float)
    : x.toModel.unpack
      = if exponentBits x = 2047 then
          if fractionBits x = 0 then .infinity (sign x) else .notANumber
        else if exponentBits x = 0 then
          if some : fractionBits x = 0 then .zero (sign x)
          else .finite (sign x) (fractionBits x) (-1074) (Nat.pos_of_ne_zero some)
        else
          .finite (sign x) (2 ^ 52 + fractionBits x) (exponentBits x - 1075)
            (Nat.add_pos_left (Nat.two_pow_pos 52) _) := by
  have exponent := toNat_unpackExponent x
  have fraction := toNat_unpackMantissa x
  have ones : @unpackExponent Format.binary64 x.toBits.toBitVec = -1#11 ↔ exponentBits x = 2047 := by
    rw [← exponent, BitVec.toNat_eq]
    rfl
  have empty : @unpackExponent Format.binary64 x.toBits.toBitVec = 0#11 ↔ exponentBits x = 0 := by
    rw [← exponent, BitVec.toNat_eq]
    rfl
  have none : @unpackMantissa Format.binary64 x.toBits.toBitVec = 0#52 ↔ fractionBits x = 0 := by
    rw [← fraction, BitVec.toNat_eq]
    rfl
  have leading : (1#1 ++ @unpackMantissa Format.binary64 x.toBits.toBitVec).toNat
      = 2 ^ 52 + fractionBits x := by
    rw [BitVec.toNat_append, ← Nat.shiftLeft_add_eq_or_of_lt (BitVec.isLt _), fraction]
    simp [Nat.shiftLeft_eq]
  change unpack Format.binary64 x.toBits.toBitVec = _
  simp only [UnpackedFloat.unpack, ones, empty, none, sign_unpack, exponent, fraction, leading]
  have bias : (Format.binary64.exponentBias : Int) + (52 : Nat) = 1075 := rfl
  simp only [bias]
  by_cases subnormal : exponentBits x = 0 <;> simp [subnormal]

/-- The number that a finite float stands for. -/
def value (x : Float) : ℚ :=
  if signBit x = 0 then magnitude x else -magnitude x

/-- The end of the number line on the side of a sign. -/
def lineEnd : Sign → WithBot (WithTop ℚ)
  | .positive => ⊤
  | .negative => ⊥

/-- Where a float that is not NaN lies on the number line with its two ends. -/
def place (x : Float) : WithBot (WithTop ℚ) :=
  if x.isInf then lineEnd (sign x) else ((value x : WithTop ℚ) : WithBot (WithTop ℚ))

/-- The number that a sign, a mantissa and an exponent stand for. -/
def signed (s : Sign) (m : Nat) (e : Int) : ℚ :=
  s.apply m * 2 ^ e

/-- The unpacked float stands for a number, with the mantissa and the exponent that floats have. -/
inductive Stands : UnpackedFloat → ℚ → Prop
  | zero (s : Sign) : Stands (.zero s) 0
  | finite {s : Sign} {m : Nat} {e : Int} (positive : 0 < m) (canonical : Canonical m e)
    : Stands (.finite s m e positive) (signed s m e)

/-- What an unpacked float is, by the kinds of floats. -/
inductive Unpacks (x : Float) : UnpackedFloat → Prop
  | notANumber (nan : x.isNaN = true) : Unpacks x .notANumber
  | infinity (infinite : x.isInf = true) : Unpacks x (.infinity (sign x))
  | finite {u : UnpackedFloat} (finite : x.isFinite = true) (stands : Stands u (value x)) : Unpacks x u

theorem signed_positive (m : Nat) (e : Int) : signed .positive m e = m * 2 ^ e := by
  simp [signed, Sign.apply]

theorem signed_negative (m : Nat) (e : Int) : signed .negative m e = -(m * 2 ^ e) := by
  simp [signed, Sign.apply]

/-- The value is the magnitude with the sign. -/
theorem value_eq_signed {m : Nat} {e : Int} (magnitude : magnitude x = m * 2 ^ e)
    : value x = signed (sign x) m e := by
  rw [value, sign, magnitude]
  split
  · rw [signed_positive]
  · rw [signed_negative]

/-- What the library unpacks stands for the float. -/
theorem unpacks (x : Float) : Unpacks x x.toModel.unpack := by
  obtain ⟨nan, infinite, finite⟩ := kinds x
  have short := fractionBits_lt x
  have small : exponentBits x < 2048 := Nat.mod_lt _ (by omega)
  rw [unpack_eq]
  split_ifs with full whole none whole
  · exact .infinity (infinite.mpr ⟨full, whole⟩)
  · exact .notANumber (nan.mpr ⟨full, whole⟩)
  · have nothing : value x = 0 := by
      rw [value, magnitude_of_exponentBits_eq_zero none, whole]
      simp
    exact .finite (finite.mpr full) (nothing ▸ .zero _)
  · refine .finite (finite.mpr full) ?_
    rw [value_eq_signed (magnitude_of_exponentBits_eq_zero none)]
    exact .finite _ ⟨by omega, by omega, by omega, .inr rfl⟩
  · refine .finite (finite.mpr full) ?_
    rw [value_eq_signed (magnitude_of_exponentBits_ne_zero none)]
    exact .finite _ ⟨by omega, by omega, by omega, .inl (by omega)⟩

-----------------------------------------------------------------------------------------
-- Comparing numbers
-----------------------------------------------------------------------------------------

/-- Of two numbers with different exponents the one with the smaller exponent is the smaller one, because
the other one has all its digits.
-/
theorem lt_of_exponent_lt {m m' : Nat} {e e' : Int} (canonical : Canonical m e)
    (canonical' : Canonical m' e') (less : e < e')
    : (m : ℚ) * 2 ^ e < m' * 2 ^ e' := by
  have full : 2 ^ 52 ≤ m' := canonical'.full.resolve_right (by have := canonical.least; omega)
  have double : m < 2 * m' := by have := canonical.short; omega
  have next : (2 : ℚ) ^ (e + 1) ≤ 2 ^ e' := zpow_le_zpow_right₀ one_le_two (by omega)
  calc (m : ℚ) * 2 ^ e < (2 * m' : Nat) * 2 ^ e := by gcongr
    _ = m' * 2 ^ (e + 1) := by
        rw [zpow_add_one₀ two_ne_zero]
        push_cast
        ring
    _ ≤ m' * 2 ^ e' := by gcongr

/-- Numbers are compared by their exponents first. -/
theorem compare_canonical {m m' : Nat} {e e' : Int} (canonical : Canonical m e)
    (canonical' : Canonical m' e')
    : (compare e e').then (compare m m') = compare ((m : ℚ) * 2 ^ e) (m' * 2 ^ e') := by
  rcases lt_trichotomy e e' with less | rfl | greater
  · rw [compare_lt_iff_lt.mpr less, compare_lt_iff_lt.mpr (lt_of_exponent_lt canonical canonical' less)]
    rfl
  · have unit : (0 : ℚ) < 2 ^ e := by positivity
    rw [compare_eq_iff_eq.mpr rfl, Ordering.eq_then]
    rcases lt_trichotomy m m' with less | rfl | greater
    · rw [compare_lt_iff_lt.mpr less, compare_lt_iff_lt.mpr (by gcongr)]
    · rw [compare_eq_iff_eq.mpr rfl, compare_eq_iff_eq.mpr rfl]
    · rw [compare_gt_iff_gt.mpr greater, compare_gt_iff_gt.mpr (by gcongr)]
  · rw [compare_gt_iff_gt.mpr greater,
      compare_gt_iff_gt.mpr (lt_of_exponent_lt canonical' canonical greater)]
    rfl

/-- What increases keeps the order. -/
theorem compare_map {α β : Type} [LinearOrder α] [LinearOrder β] {f : α → β} (increasing : StrictMono f)
    (a b : α)
    : compare (f a) (f b) = compare a b := by
  rw [← cmp_eq_compare, ← cmp_eq_compare, increasing.cmp_map_eq]

private theorem compare_neg (p q : ℚ) : compare (-p) (-q) = (compare p q).swap := by
  rw [← cmp_eq_compare, ← cmp_eq_compare, cmp_swap]
  exact StrictAnti.cmp_map_eq (fun _ _ => neg_lt_neg) p q

/-- Unpacked floats that stand for numbers are compared as these, by their signs. -/
theorem Stands.compare {u v : UnpackedFloat} {p q : ℚ} (first : Stands u p) (second : Stands v q)
    : u.compare v = some (compare p q) := by
  cases first with
  | zero s =>
      cases second with
      | zero s' =>
          rw [compare_eq_iff_eq.mpr rfl]
          rfl
      | @finite s' m' e' positive' canonical' =>
          have above' : (0 : ℚ) < m' * 2 ^ e' := by positivity
          cases s' with
          | positive =>
              rw [signed_positive, compare_lt_iff_lt.mpr above']
              rfl
          | negative =>
              rw [signed_negative, compare_gt_iff_gt.mpr (neg_neg_of_pos above')]
              rfl
  | @finite s m e positive canonical =>
      have above : (0 : ℚ) < m * 2 ^ e := by positivity
      cases second with
      | zero s' =>
          cases s with
          | positive =>
              rw [signed_positive, compare_gt_iff_gt.mpr above]
              rfl
          | negative =>
              rw [signed_negative, compare_lt_iff_lt.mpr (neg_neg_of_pos above)]
              rfl
      | @finite s' m' e' positive' canonical' =>
          have above' : (0 : ℚ) < m' * 2 ^ e' := by positivity
          have same := compare_canonical canonical canonical'
          cases s with
          | positive =>
              cases s' with
              | positive =>
                  rw [signed_positive, signed_positive, ← same]
                  rfl
              | negative =>
                  rw [signed_positive, signed_negative, compare_gt_iff_gt.mpr (by linarith)]
                  rfl
          | negative =>
              cases s' with
              | positive =>
                  rw [signed_negative, signed_positive, compare_lt_iff_lt.mpr (by linarith)]
                  rfl
              | negative =>
                  rw [signed_negative, signed_negative, compare_neg, ← same]
                  rfl

/-- Unpacked floats that stand for the same number, which is not zero, are the same. -/
theorem Stands.unique {u v : UnpackedFloat} {q : ℚ} (first : Stands u q) (second : Stands v q)
    (some : q ≠ 0)
    : u = v := by
  have equal : u.beq v = true := by
    rw [UnpackedFloat.beq, first.compare second, compare_eq_iff_eq.mpr rfl]
    rfl
  obtain ⟨-, -, same | zeros | zeros⟩ := (beq_iff_ne_notANumber_and_eq u v).mp equal
  · exact same
  · cases zeros.1 ▸ first
    exact absurd rfl some
  · cases zeros.1 ▸ first
    exact absurd rfl some

theorem stands_of_finite (finite : x.isFinite = true) : Stands x.toModel.unpack (value x) := by
  have kind := unpacks x
  have number : x.toModel.unpack.isFinite = true := finite
  generalize x.toModel.unpack = u at kind number ⊢
  cases kind with
  | notANumber | infinity => cases number
  | finite _ stands => exact stands

/-- A finite float other than zero is determined by the number that it stands for. -/
theorem eq_of_value (finite : x.isFinite = true) (finite' : y.isFinite = true)
    (same : value x = value y) (some : value x ≠ 0)
    : x = y := by
  have unpacked := (stands_of_finite finite).unique (same ▸ stands_of_finite finite') some
  have bits := (unpack_inj_of_valid x.toModel.valid y.toModel.valid).mp unpacked
  exact eq_of_toBits (UInt64.toBitVec_inj.mp bits)

-----------------------------------------------------------------------------------------
-- Comparing places
-----------------------------------------------------------------------------------------

private theorem place_of_infinite (infinite : x.isInf = true) : place x = lineEnd (sign x) := by
  rw [place, infinite]
  rfl

theorem isInf_of_finite (finite : x.isFinite = true) : x.isInf = false := by
  obtain ⟨-, infinite, number⟩ := kinds x
  rw [Bool.eq_false_iff, ne_eq, infinite]
  exact fun full => number.mp finite full.1

/-- A finite float lies at its value. -/
theorem place_of_finite (finite : x.isFinite = true)
    : place x = ((value x : WithTop ℚ) : WithBot (WithTop ℚ)) := by
  rw [place, isInf_of_finite finite]
  rfl

/-- Numbers lie between the ends of the line in their order. -/
theorem compare_numbers (p q : ℚ)
    : compare ((p : WithTop ℚ) : WithBot (WithTop ℚ)) ((q : WithTop ℚ) : WithBot (WithTop ℚ))
      = compare p q :=
  (compare_map WithBot.coe_strictMono _ _).trans (compare_map WithTop.coe_strictMono p q)

private theorem compare_ends (s s' : Sign) : compare (lineEnd s) (lineEnd s') = compare s s' := by
  cases s <;> cases s' <;> decide

private theorem compare_end_number (s : Sign) (q : ℚ)
    : compare (lineEnd s) ((q : WithTop ℚ) : WithBot (WithTop ℚ))
      = match s with
        | .positive => .gt
        | .negative => .lt := by
  cases s with
  | positive => exact compare_gt_iff_gt.mpr (WithBot.coe_lt_coe.mpr (WithTop.coe_lt_top q))
  | negative => exact compare_lt_iff_lt.mpr (WithBot.bot_lt_coe _)

private theorem compare_number_end (q : ℚ) (s : Sign)
    : compare ((q : WithTop ℚ) : WithBot (WithTop ℚ)) (lineEnd s)
      = match s with
        | .positive => .lt
        | .negative => .gt := by
  cases s with
  | positive => exact compare_lt_iff_lt.mpr (WithBot.coe_lt_coe.mpr (WithTop.coe_lt_top q))
  | negative => exact compare_gt_iff_gt.mpr (WithBot.bot_lt_coe _)

/-- Unpacked floats are compared by their places. -/
theorem compare_unpack (number : x.isNaN = false) (number' : y.isNaN = false)
    : x.toModel.unpack.compare y.toModel.unpack = some (compare (place x) (place y)) := by
  have first := unpacks x
  have second := unpacks y
  generalize x.toModel.unpack = u at first ⊢
  generalize y.toModel.unpack = v at second ⊢
  cases first with
  | notANumber nan => exact absurd nan (Bool.eq_false_iff.mp number)
  | infinity infinite =>
      rw [place_of_infinite infinite]
      cases second with
      | notANumber nan => exact absurd nan (Bool.eq_false_iff.mp number')
      | infinity infinite' =>
          rw [place_of_infinite infinite', compare_ends]
          rfl
      | finite finite' stands' =>
          rw [place_of_finite finite', compare_end_number]
          generalize value y = q at stands'
          cases sign x <;> cases stands' <;> rfl
  | finite finite stands =>
      rw [place_of_finite finite]
      cases second with
      | notANumber nan => exact absurd nan (Bool.eq_false_iff.mp number')
      | infinity infinite' =>
          rw [place_of_infinite infinite', compare_number_end]
          generalize value x = p at stands
          cases sign y <;> cases stands <;> rfl
      | finite finite' stands' => rw [place_of_finite finite', stands.compare stands', compare_numbers]

/-- NaN is not compared with anything. -/
theorem compare_unpack_of_nan (nan : x.isNaN = true ∨ y.isNaN = true)
    : x.toModel.unpack.compare y.toModel.unpack = none := by
  rcases nan with nan | nan
  · have unpacked : x.toModel.unpack = .notANumber := isNaN_iff.mp nan
    rw [unpacked]
    rfl
  · have unpacked : y.toModel.unpack = .notANumber := isNaN_iff.mp nan
    rw [unpacked]
    cases x.toModel.unpack <;> rfl

/-- The library compares floats by what they unpack to. -/
theorem lt_iff : x < y ↔ x.toModel.unpack.compare y.toModel.unpack = some .lt := by
  change decide (UnpackedFloat.lt _ _ = true) = true ↔ _
  simp [UnpackedFloat.lt]

private theorem beq_iff : (x == y) = true ↔ x.toModel.unpack.compare y.toModel.unpack = some .eq := by
  change UnpackedFloat.beq _ _ = true ↔ _
  simp [UnpackedFloat.beq]

/-- Floats that are not NaN are ordered by their places, and NaN has no order. -/
theorem compareFloats_eq (x y : Float)
    : Number.compareFloats x y
      = if x.isNaN || y.isNaN then none else some (compare (place x) (place y)) := by
  simp only [Number.compareFloats, lt_iff, beq_iff]
  by_cases nan : x.isNaN = true ∨ y.isNaN = true
  · have either : (x.isNaN || y.isNaN) = true := by simpa only [Bool.or_eq_true] using nan
    rw [compare_unpack_of_nan nan, compare_unpack_of_nan nan.symm, either]
    rfl
  · obtain ⟨number, number'⟩ := not_or.mp nan
    rw [Bool.not_eq_true] at number number'
    rw [compare_unpack number number', compare_unpack number' number, number, number']
    simp only [Option.some.injEq, compare_lt_iff_lt, compare_eq_iff_eq]
    rcases lt_trichotomy (place x) (place y) with less | same | greater
    · rw [if_pos less, compare_lt_iff_lt.mpr less]
      rfl
    · rw [if_neg same.not_lt, if_neg same.not_gt, if_pos same, compare_eq_iff_eq.mpr same]
      rfl
    · rw [if_neg greater.not_gt, if_pos greater, compare_gt_iff_gt.mpr greater]
      rfl

/-- Floats that are not NaN are equal if they lie at the same place, and NaN equals nothing. -/
theorem beq_iff_place
    : (x == y) = true ↔ x.isNaN = false ∧ y.isNaN = false ∧ place x = place y := by
  rw [beq_iff]
  by_cases nan : x.isNaN = true ∨ y.isNaN = true
  · rw [compare_unpack_of_nan nan]
    rcases nan with nan | nan <;> simp only [nan] <;> simp
  · obtain ⟨number, number'⟩ := not_or.mp nan
    rw [Bool.not_eq_true] at number number'
    rw [compare_unpack number number', Option.some.injEq, compare_eq_iff_eq]
    exact ⟨fun same => ⟨number, number', same⟩, fun given => given.2.2⟩

theorem isNaN_of_finite (finite : x.isFinite = true) : x.isNaN = false := by
  obtain ⟨nan, -, number⟩ := kinds x
  rw [Bool.eq_false_iff, ne_eq, nan]
  exact fun full => number.mp finite full.1

/-- A float that is not NaN is infinite or finite, and not both. -/
theorem infinite_or_finite (number : x.isNaN = false)
    : (x.isInf = true ∧ x.isFinite = false) ∨ x.isFinite = true := by
  obtain ⟨nan, infinite, finite⟩ := kinds x
  rw [Bool.eq_false_iff, ne_eq, nan] at number
  rw [Bool.eq_false_iff, ne_eq, infinite, finite]
  tauto

/-- Only finite floats lie at a number. -/
theorem place_eq_iff {q : ℚ} (number : x.isNaN = false)
    : place x = ((q : WithTop ℚ) : WithBot (WithTop ℚ)) ↔ x.isFinite = true ∧ value x = q := by
  rcases infinite_or_finite number with ⟨infinite, outside⟩ | finite
  · rw [place_of_infinite infinite, outside]
    refine iff_of_false (fun same => ?_) (by simp)
    have apart := compare_end_number (sign x) q
    rw [compare_eq_iff_eq.mpr same] at apart
    generalize sign x = s at apart
    cases s <;> cases apart
  · rw [place_of_finite finite, WithBot.coe_inj, WithTop.coe_inj]
    exact (and_iff_right finite).symm

end Float
end TaskMachine

import TaskMachine.Operator
import TaskMachine.Proofs.Operators.Operands

/-!
Arithmetic on integers is exact or promoted: where the exact result does not fit 32 signed bits, the
operands are taken as floats, and what floats then give is still the exact result or, for a product, the
float nearest to it.
-/

namespace TaskMachine

open TaskMachine.Float (value Nearest)

-----------------------------------------------------------------------------------------
-- Operands and results
-----------------------------------------------------------------------------------------

/-- The operator computes with numbers. -/
inductive BinaryOp.IsArithmetic : BinaryOp → Prop
  | add : IsArithmetic .add
  | sub : IsArithmetic .sub
  | mul : IsArithmetic .mul
  | div : IsArithmetic .div
  | intDiv : IsArithmetic .intDiv
  | mod : IsArithmetic .mod
  | pow : IsArithmetic .pow

/-- The operator computes with a number. -/
inductive UnaryOp.IsArithmetic : UnaryOp → Prop
  | neg : IsArithmetic .neg
  | pos : IsArithmetic .pos
  | inc : IsArithmetic .inc
  | dec : IsArithmetic .dec
  | abs : IsArithmetic .abs

/-- The float is exactly an integer. -/
structure Float.Is (n : Int) (x : Float) : Prop where
  finite : x.isFinite = true
  same : value x = n

/-- An operation succeeds with the integer `n` if that fits, and else with a float, which then has the
given property.
-/
inductive Promoted (n : Int) (fallback : Float) (Good : Float → Prop) : Except Fault Value → Prop
  | integer {k : Int32} (same : k.toInt = n) : Promoted n fallback Good (.ok (.integer k))
  | float (large : ¬ Fits n) (good : Good fallback) : Promoted n fallback Good (.ok (.float fallback))

/-- A division succeeds with the integer quotient if there is one that fits, and else with a float. -/
inductive Divided (x y : Int) (fallback : Float) : Except Fault Value → Prop
  | integer {k : Int32} (exact : k.toInt * y = x) : Divided x y fallback (.ok (.integer k))
  | float (inexact : ¬ (y ∣ x ∧ Fits (x / y))) : Divided x y fallback (.ok (.float fallback))

/-- An integer division and its remainder: the remainder is smaller than the divisor and has the sign of
the dividend. The quotient of one pair of operands does not fit, and is an exact float.
-/
structure Divides (x y : Int) (quotient remainder : Except Fault Value) (q r : Int) : Prop where
  exact : x = q * y + r
  small : |r| < |y|
  side : r = 0 ∨ r.sign = x.sign
  quotient : Promoted q (nearestFloat x / nearestFloat y) (Float.Is q) quotient
  fits_iff : Fits q ↔ ¬ (x = -2 ^ 31 ∧ y = -1)
  remainder : ∃ k : Int32, remainder = .ok (.integer k) ∧ k.toInt = r

/-- What the operators give for two operands that stand for integers. -/
structure ExactOrPromoted (plain : Value → String) (a b : Value) (x y : Int) : Prop where
  add : Promoted (x + y) (nearestFloat x + nearestFloat y) (Float.Is (x + y))
    (BinaryOp.apply plain .add a b)
  sub : Promoted (x - y) (nearestFloat x - nearestFloat y) (Float.Is (x - y))
    (BinaryOp.apply plain .sub a b)
  mul : Promoted (x * y) (nearestFloat x * nearestFloat y) (Nearest (x * y))
    (BinaryOp.apply plain .mul a b)
  pow : 0 ≤ y
    → Promoted (x ^ y.toNat) (Float.pow (nearestFloat x) (nearestFloat y)) (fun _ => True)
      (BinaryOp.apply plain .pow a b)
  neg : Promoted (-x) (-nearestFloat x) (Float.Is (-x)) (UnaryOp.apply plain .neg a)
  pos : Promoted x (nearestFloat x) (Float.Is x) (UnaryOp.apply plain .pos a)
  inc : Promoted (x + 1) (nearestFloat x + 1.0) (Float.Is (x + 1)) (UnaryOp.apply plain .inc a)
  dec : Promoted (x - 1) (nearestFloat x - 1.0) (Float.Is (x - 1)) (UnaryOp.apply plain .dec a)
  abs : Promoted |x| (nearestFloat x).abs (Float.Is |x|) (UnaryOp.apply plain .abs a)
  div : y ≠ 0 → Divided x y (nearestFloat x / nearestFloat y) (BinaryOp.apply plain .div a b)
  division : y ≠ 0
    → ∃ q r,
        Divides x y (BinaryOp.apply plain .intDiv a b) (BinaryOp.apply plain .mod a b) q r

variable {a b : Value} {x y n : Int} {fallback : Float} {Good : Float → Prop}

private theorem fitsInt32_iff (n : Int) : fitsInt32 n = true ↔ Fits n := by
  simp only [fitsInt32, Fits, Bool.and_eq_true, decide_eq_true_eq]
  omega

/-- An integer result that fits is that integer, and one that does not is the float nearest to it. -/
theorem promoted_ofExact (fallsBack : ¬ Fits n → fallback = nearestFloat n)
    (good : ¬ Fits n → Good (nearestFloat n))
    : Promoted n fallback Good (.ok (Value.ofExact n)) := by
  rw [Value.ofExact]
  split
  · obtain ⟨lower, upper⟩ := (fitsInt32_iff n).mp ‹_›
    exact .integer (Int32.toInt_ofInt_of_le lower upper)
  · have large : ¬ Fits n := (fitsInt32_iff n).not.mp ‹_›
    rw [← fallsBack large]
    exact .float large (fallsBack large ▸ good large)

/-- Integers of up to 53 digits are promoted without loss. -/
theorem promoted_exact (short : n.natAbs ≤ 2 ^ 53) (fallsBack : ¬ Fits n → fallback = nearestFloat n)
    : Promoted n fallback (Float.Is n) (.ok (Value.ofExact n)) := by
  obtain ⟨finite, same⟩ := Float.nearestFloat_exact short
  exact promoted_ofExact fallsBack fun _ => ⟨finite, same⟩

private theorem ne_zero_of_large (large : ¬ Fits n) : n ≠ 0 := by
  rintro rfl
  exact large (by decide)

-----------------------------------------------------------------------------------------
-- Sums, differences, products and powers
-----------------------------------------------------------------------------------------

/-- Operands that denote integers are combined exactly. -/
theorem apply_arithmetic {op : BinaryOp} (plain : Value → String) (left : a.Denotes x)
    (right : b.Denotes y) (arithmetic : op.IsArithmetic)
    : BinaryOp.apply plain op a b = BinaryOp.exactArithmetic op x y := by
  have exact : BinaryOp.arithmetic op a b = BinaryOp.exactArithmetic op x y := by
    rw [BinaryOp.arithmetic, left.number, right.number]
  rw [← exact]
  cases arithmetic <;> cases left <;> cases right <;> rfl

private theorem promoted_add (fits : Fits x) (fits' : Fits y)
    : Promoted (x + y) (nearestFloat x + nearestFloat y) (Float.Is (x + y))
        (.ok (Value.ofExact (x + y))) := by
  refine promoted_exact ?_ fun large =>
    Float.nearestFloat_add fits.short fits'.short (ne_zero_of_large large)
  obtain ⟨lower, upper⟩ := fits
  obtain ⟨lower', upper'⟩ := fits'
  omega

private theorem promoted_sub (fits : Fits x) (fits' : Fits y)
    : Promoted (x - y) (nearestFloat x - nearestFloat y) (Float.Is (x - y))
        (.ok (Value.ofExact (x - y))) := by
  refine promoted_exact ?_ fun large =>
    Float.nearestFloat_sub fits.short fits'.short (ne_zero_of_large large)
  obtain ⟨lower, upper⟩ := fits
  obtain ⟨lower', upper'⟩ := fits'
  omega

/-- A product that does not fit is the product of the nearest floats, and these are exact. -/
theorem promoted_mul (fits : Fits x) (fits' : Fits y)
    : Promoted (x * y) (nearestFloat x * nearestFloat y) (Nearest (x * y))
        (.ok (Value.ofExact (x * y))) := by
  have small : (x * y).natAbs < 2 ^ 128 := by
    rw [Int.natAbs_mul]
    exact (Nat.mul_le_mul fits.short fits'.short).trans_lt (by decide)
  refine promoted_ofExact (fun large =>
    Float.nearestFloat_mul fits.short fits'.short (ne_zero_of_large large)) fun large => ?_
  rw [← Int.cast_mul]
  exact Float.nearest_nearestFloat (ne_zero_of_large large) small

/-- From 32 on only the parity of an exponent decides whether a power fits, and if so which it is. -/
theorem power_reduced (x : Int) {n : Nat} (many : 32 ≤ n)
    : x ^ (32 + n % 2) = x ^ n ∨ ¬ Fits (x ^ (32 + n % 2)) ∧ ¬ Fits (x ^ n) := by
  have large {m : Nat} (long : 32 ≤ m) (base : 2 ≤ x.natAbs) : ¬ Fits (x ^ m) := by
    have power : 2 ^ 32 ≤ (x ^ m).natAbs := by
      rw [Int.natAbs_pow]
      exact (Nat.pow_le_pow_right two_pos long).trans (Nat.pow_le_pow_left base m)
    rintro ⟨lower, upper⟩
    omega
  by_cases base : 2 ≤ x.natAbs
  · exact .inr ⟨large (Nat.le_add_right 32 _) base, large many base⟩
  · left
    have unit : x = -1 ∨ x = 0 ∨ x = 1 := by omega
    rcases unit with rfl | rfl | rfl
    · rcases Nat.mod_two_eq_zero_or_one n with even | odd
      · rw [(Nat.even_iff.mpr even).neg_one_pow, even]
        rfl
      · rw [(Nat.odd_iff.mpr odd).neg_one_pow, odd]
        rfl
    · rw [zero_pow (by omega), zero_pow (by omega)]
    · rw [one_pow, one_pow]

/-- A power that does not fit is the power of the nearest floats, of which nothing is promised. -/
theorem promoted_pow (x : Int) (nonneg : 0 ≤ y)
    : Promoted (x ^ y.toNat) (Float.pow (nearestFloat x) (nearestFloat y)) (fun _ => True)
        (.ok (BinaryOp.power x y)) := by
  have reduced : ∃ n, BinaryOp.power x y
        = (if fitsInt32 (x ^ n) then .integer (Int32.ofInt (x ^ n))
          else .float (Float.pow (nearestFloat x) (nearestFloat y)))
      ∧ (x ^ n = x ^ y.toNat ∨ ¬ Fits (x ^ n) ∧ ¬ Fits (x ^ y.toNat)) := by
    by_cases few : y < 32
    · refine ⟨y.toNat, ?_, .inl rfl⟩
      simp only [BinaryOp.power, if_pos few, nonneg, true_and]
      rfl
    · refine ⟨32 + y.toNat % 2, ?_, power_reduced x (by omega)⟩
      simp only [BinaryOp.power, if_neg few, nonneg, true_and]
      rfl
  obtain ⟨n, power, same | ⟨large, large'⟩⟩ := reduced
  · rw [power, same]
    split
    · obtain ⟨lower, upper⟩ := (fitsInt32_iff _).mp ‹_›
      exact .integer (Int32.toInt_ofInt_of_le lower upper)
    · exact .float ((fitsInt32_iff _).not.mp ‹_›) trivial
  · rw [power, if_neg ((fitsInt32_iff _).not.mpr large)]
    exact .float large' trivial

-----------------------------------------------------------------------------------------
-- Quotients
-----------------------------------------------------------------------------------------

/-- A quotient fits unless the least integer is divided by -1: dividing by anything else keeps the integer
or at least halves its magnitude.
-/
theorem fits_tdiv_iff (fits : Fits x) (some : y ≠ 0)
    : Fits (x.tdiv y) ↔ ¬ (x = -2 ^ 31 ∧ y = -1) := by
  obtain ⟨lower, upper⟩ := fits
  by_cases one : y = 1
  · rw [one, Int.tdiv_one]
    exact iff_of_true ⟨lower, upper⟩ (by omega)
  by_cases opposite : y = -1
  · rw [opposite, Int.tdiv_neg, Int.tdiv_one, Fits]
    omega
  · have halved : (x.tdiv y).natAbs ≤ x.natAbs / 2 := by
      rw [Int.natAbs_tdiv]
      exact Nat.div_le_div_left (by omega) two_pos
    refine iff_of_true ⟨?_, ?_⟩ (by omega) <;> omega

private theorem fits_tmod (fits : Fits y) (x : Int) (some : y ≠ 0) : Fits (x.tmod y) := by
  have magnitude := Int.natAbs_tmod x y
  have small := Nat.mod_lt x.natAbs (Int.natAbs_pos.mpr some)
  obtain ⟨lower, upper⟩ := fits
  constructor <;> omega

/-- The only quotient that does not fit is that of the least integer by -1. -/
theorem quotient_of_large (fits : Fits x) (some : y ≠ 0) (large : ¬ Fits (x.tdiv y))
    : nearestFloat x / nearestFloat y = nearestFloat (x.tdiv y) := by
  obtain ⟨rfl, rfl⟩ := not_not.mp ((fits_tdiv_iff fits some).not.mp large)
  rfl

private theorem promoted_intDiv (fits : Fits x) (some : y ≠ 0)
    : Promoted (x.tdiv y) (nearestFloat x / nearestFloat y) (Float.Is (x.tdiv y))
        (.ok (Value.ofExact (x.tdiv y))) :=
  promoted_exact ((Int.natAbs_tdiv_le_natAbs x y).trans fits.short)
    (quotient_of_large fits some)

/-- A quotient is exact without a remainder, and else a quotient of floats. -/
theorem divided_div (fits : Fits x) (some : y ≠ 0)
    : Divided x y (nearestFloat x / nearestFloat y) (BinaryOp.exactArithmetic .div x y) := by
  simp only [BinaryOp.exactArithmetic, if_neg some]
  split
  · have divides : y ∣ x := Int.dvd_iff_tmod_eq_zero.mpr ‹_›
    have quotient := promoted_intDiv fits some
    generalize outcome : Except.ok (Value.ofExact (x.tdiv y)) = result at quotient
    cases quotient with
    | integer same => exact .integer (same ▸ Int.tdiv_mul_cancel divides)
    | float large good =>
        refine .float fun exact => large ?_
        rw [Int.tdiv_eq_ediv_of_dvd divides]
        exact exact.2
  · exact .float fun exact => absurd (Int.dvd_iff_tmod_eq_zero.mp exact.1) ‹_›

/-- The whole quotient is cut towards zero, and the remainder has the sign of the dividend. -/
theorem divides_tdiv (fits : Fits x) (fits' : Fits y) (some : y ≠ 0)
    : Divides x y (BinaryOp.exactArithmetic .intDiv x y) (BinaryOp.exactArithmetic .mod x y)
        (x.tdiv y) (x.tmod y) := by
  have small : |x.tmod y| < |y| := by
    rw [Int.abs_eq_natAbs, Int.abs_eq_natAbs, Int.natAbs_tmod]
    exact_mod_cast Nat.mod_lt _ (Int.natAbs_pos.mpr some)
  refine ⟨(Int.tdiv_mul_add_tmod x y).symm, small, ?_, ?_, fits_tdiv_iff fits some, ?_⟩
  · by_cases divides : y ∣ x
    · exact .inl (Int.dvd_iff_tmod_eq_zero.mp divides)
    · exact .inr ((Int.sign_tmod x y).trans (if_neg divides))
  · simp only [BinaryOp.exactArithmetic, if_neg some]
    exact promoted_intDiv fits some
  · have fitting := fits_tmod fits' x some
    refine ⟨Int32.ofInt (x.tmod y), ?_, Int32.toInt_ofInt_of_le fitting.1 fitting.2⟩
    simp only [BinaryOp.exactArithmetic, if_neg some, Value.ofExact,
      (fitsInt32_iff _).mpr fitting, if_true]

-----------------------------------------------------------------------------------------
-- Operators with one operand
-----------------------------------------------------------------------------------------

private theorem promoted_neg (fits : Fits x)
    : Promoted (-x) (-nearestFloat x) (Float.Is (-x)) (.ok (Value.ofExact (-x))) := by
  refine promoted_exact ((Int.natAbs_neg x).trans_le fits.short) fun large => ?_
  have least : x = -2 ^ 31 := by
    obtain ⟨lower, upper⟩ := fits
    simp only [Fits] at large
    omega
  rw [least]
  rfl

private theorem promoted_abs (fits : Fits x)
    : Promoted |x| (nearestFloat x).abs (Float.Is |x|) (.ok (Value.ofExact x.natAbs)) := by
  rw [← Int.abs_eq_natAbs]
  refine promoted_exact ((Int.natAbs_abs x).trans_le fits.short) fun large => ?_
  have least : x = -2 ^ 31 := by
    obtain ⟨lower, upper⟩ := fits
    simp only [Fits, Int.abs_eq_natAbs] at large
    omega
  rw [least]
  rfl

private theorem apply_unary {op : UnaryOp} (plain : Value → String) (denotes : a.Denotes x)
    (arithmetic : op.IsArithmetic)
    : UnaryOp.apply plain op a = UnaryOp.exactArithmetic op x := by
  cases arithmetic <;> cases denotes <;> rfl

/-- Arithmetic on integers is exact, or promoted where the result does not fit. -/
theorem integers_exact_or_promoted (plain : Value → String) (left : a.Denotes x) (right : b.Denotes y)
    : ExactOrPromoted plain a b x y := by
  have fits := left.fits
  have fits' := right.fits
  have one : Fits 1 := by decide
  constructor
  case add =>
    rw [apply_arithmetic plain left right .add]
    exact promoted_add fits fits'
  case sub =>
    rw [apply_arithmetic plain left right .sub]
    exact promoted_sub fits fits'
  case mul =>
    rw [apply_arithmetic plain left right .mul]
    exact promoted_mul fits fits'
  case pow =>
    rw [apply_arithmetic plain left right .pow]
    exact promoted_pow x
  case neg =>
    rw [apply_unary plain left .neg]
    exact promoted_neg fits
  case pos =>
    rw [apply_unary plain left .pos]
    exact promoted_exact fits.short fun large => absurd fits large
  case inc =>
    rw [apply_unary plain left .inc]
    exact promoted_add fits one
  case dec =>
    rw [apply_unary plain left .dec]
    exact promoted_sub fits one
  case abs =>
    rw [apply_unary plain left .abs]
    exact promoted_abs fits
  case div =>
    rw [apply_arithmetic plain left right .div]
    exact divided_div fits
  case division =>
    intro some
    refine ⟨x.tdiv y, x.tmod y, ?_⟩
    rw [apply_arithmetic plain left right .intDiv, apply_arithmetic plain left right .mod]
    exact divides_tdiv fits fits' some

/-- The square of the greatest integer has 62 digits, so that the float is not the square itself. -/
theorem greatest_square_rounded
    : ∃ f,
        BinaryOp.apply (fun _ => "") .mul (.integer 2147483647) (.integer 2147483647) = .ok (.float f)
        ∧ Nearest (2147483647 * 2147483647) f
        ∧ value f = 2 ^ 62 - 2 ^ 32 := by
  have square :=
    (integers_exact_or_promoted (fun _ => "") (.integer 2147483647) (.integer 2147483647)).mul
  generalize outcome : BinaryOp.apply _ _ _ _ = result at square
  cases square with
  | integer same => exact absurd (same ▸ fits_toInt _) (by decide)
  | float _ good => exact ⟨_, outcome, good, by decide +kernel⟩

end TaskMachine

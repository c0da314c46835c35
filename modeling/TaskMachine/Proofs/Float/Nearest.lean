import Mathlib.Algebra.Order.Field.Power
import Mathlib.Tactic.Linarith
import Mathlib.Tactic.Ring
import TaskMachine.Codec.Real48

/-!
Rounding to a number of significant binary digits. The rounded number is determined by being nearest
and, at a tie, by its last digit; dividing by a power of two and rounding the quotient gives it.
-/

namespace TaskMachine

-----------------------------------------------------------------------------------------
-- Numbers with few digits
-----------------------------------------------------------------------------------------

/-- A number that is not negative has at most so many significant binary digits. -/
def HasDigits (digits : Nat) (q : ℚ) : Prop :=
  ∃ (m : Nat) (k : Int), m < 2 ^ digits ∧ q = m * 2 ^ k

/-- `r` is `q` rounded to so many significant binary digits: no number with as few digits is nearer to
`q`, and if another one is as near, the last digit of `r` is the even one, which is a zero, so that one
digit less is enough for `r`.
-/
structure Rounds (digits : Nat) (q r : ℚ) : Prop where
  short : HasDigits digits r
  nearest : ∀ s, HasDigits digits s → |q - r| ≤ |q - s|
  even : ∀ s, HasDigits digits s → s ≠ r → |q - s| = |q - r| → HasDigits (digits - 1) r

variable {digits : Nat} {q r s : ℚ}

private theorem hasDigits_zero (digits : Nat) : HasDigits digits 0 :=
  ⟨0, 0, by positivity, by simp⟩

/-- The next power of two has a single digit. -/
theorem hasDigits_of_le {m : Nat} (some : 0 < digits) (le : m ≤ 2 ^ digits) (k : Int)
    : HasDigits digits (m * 2 ^ k) := by
  rcases Nat.lt_or_eq_of_le le with less | rfl
  · exact ⟨m, k, less, rfl⟩
  · refine ⟨1, k + digits, Nat.one_lt_two_pow (by omega), ?_⟩
    rw [zpow_add₀ two_ne_zero, zpow_natCast]
    push_cast
    ring

/-- A number of unit `2 ^ l` in a smaller unit. -/
theorem rescale {j l : Int} (le : j ≤ l) (m : Nat)
    : (m : ℚ) * 2 ^ l = (m * 2 ^ (l - j).toNat : Nat) * 2 ^ j := by
  have exponent : (2 : ℚ) ^ l = 2 ^ (l - j).toNat * 2 ^ j := by
    rw [← zpow_natCast, ← zpow_add₀ two_ne_zero]
    congr 1
    omega
  rw [exponent]
  push_cast
  ring

/-- Half of a unit. -/
theorem half_unit (k : Int) : (2 : ℚ) ^ k = 2 * 2 ^ (k - 1) := by
  rw [zpow_sub_one₀ two_ne_zero]
  ring

/-- Between two numbers there is one with one digit more: it is half a unit beyond that of the two which
has the smaller unit.
-/
theorem exists_between_digits (first : HasDigits digits r) (second : HasDigits digits s) (less : r < s)
    : ∃ t, HasDigits (digits + 1) t ∧ r < t ∧ t < s := by
  obtain ⟨a, j, smallA, rfl⟩ := first
  obtain ⟨b, l, smallB, rfl⟩ := second
  have double : 2 ^ (digits + 1) = 2 * 2 ^ digits := by ring
  rcases le_total j l with le | le
  · have unit : (0 : ℚ) < 2 ^ (j - 1) := by positivity
    rw [rescale le b] at less ⊢
    have next : a + 1 ≤ b * 2 ^ (l - j).toNat := by
      exact_mod_cast lt_of_mul_lt_mul_right less (by positivity)
    have above : (a : ℚ) + 1 ≤ (b * 2 ^ (l - j).toNat : Nat) := by exact_mod_cast next
    refine ⟨(2 * a + 1 : Nat) * 2 ^ (j - 1), ⟨2 * a + 1, j - 1, by omega, rfl⟩, ?_, ?_⟩
    · rw [half_unit j]
      push_cast
      linarith
    · rw [half_unit j]
      push_cast at above ⊢
      nlinarith
  · have unit : (0 : ℚ) < 2 ^ (l - 1) := by positivity
    rw [rescale le a] at less ⊢
    have next : a * 2 ^ (j - l).toNat + 1 ≤ b := by
      exact_mod_cast lt_of_mul_lt_mul_right less (by positivity)
    have below : ((a * 2 ^ (j - l).toNat : Nat) : ℚ) + 1 ≤ b := by exact_mod_cast next
    refine ⟨(2 * b - 1 : Nat) * 2 ^ (l - 1), ⟨2 * b - 1, l - 1, by omega, rfl⟩, ?_, ?_⟩
    · rw [half_unit l, Nat.cast_sub (by omega)]
      push_cast at below ⊢
      nlinarith
    · rw [half_unit l, Nat.cast_sub (by omega)]
      push_cast
      linarith

/-- A number that lies between two others that are equally far from `q` is nearer to it. -/
theorem nearer_of_between {t : ℚ} (above : r < t) (below : t < s) (same : |q - r| = |q - s|)
    : |q - t| < |q - r| := by
  rcases abs_eq_abs.mp same with equal | opposite
  · linarith
  · have middle : q = (r + s) / 2 := by linarith
    rw [abs_of_pos (a := q - r) (by linarith), abs_lt]
    constructor <;> linarith

/-- There is no more than one rounded number: between two of them there would be a nearer one, as they
need one digit less.
-/
theorem Rounds.unique (some : 0 < digits) (first : Rounds digits q r) (second : Rounds digits q s)
    : r = s := by
  obtain ⟨fewer, rfl⟩ := Nat.exists_eq_add_of_le' some
  have same : |q - r| = |q - s| :=
    le_antisymm (first.nearest s second.short) (second.nearest r first.short)
  -- the argument is the same whichever of the two is the greater one
  have separate {x y : ℚ} (shortX : HasDigits fewer x) (shortY : HasDigits fewer y)
      (equal : |q - x| = |q - y|) (nearest : ∀ t, HasDigits (fewer + 1) t → |q - x| ≤ |q - t|)
      : ¬ x < y := by
    intro less
    obtain ⟨t, short, above, below⟩ := exists_between_digits shortX shortY less
    exact absurd (nearer_of_between above below equal) (not_lt.mpr (nearest t short))
  by_contra different
  have shortR := first.even s second.short (Ne.symm different) same.symm
  have shortS := second.even r first.short different same
  rcases lt_or_gt_of_ne different with less | greater
  · exact separate shortR shortS same first.nearest less
  · exact separate shortS shortR same.symm second.nearest greater

/-- A number that has few enough digits stays as it is. -/
theorem HasDigits.rounds (short : HasDigits digits q) : Rounds digits q q where
  short := short
  nearest s _ := by simp
  even s _ other tie := absurd (by simpa [sub_eq_zero, eq_comm] using tie) other

/-- Rounding no more than doubles, because zero would be as near. -/
theorem Rounds.le_double (rounds : Rounds digits q r) (nonneg : 0 ≤ q) : r ≤ 2 * q := by
  have near := rounds.nearest 0 (hasDigits_zero digits)
  rw [sub_zero, abs_of_nonneg nonneg] at near
  have := neg_le_of_abs_le near
  linarith

-----------------------------------------------------------------------------------------
-- Rounded quotients
-----------------------------------------------------------------------------------------

namespace Real48

variable {n k b : Nat}

/-- Where a multiple of a unit lies that is not next to a number. -/
theorem mul_cases (quotient b unit : Nat)
    : b * unit + unit ≤ quotient * unit
      ∨ b = quotient
      ∨ b = quotient + 1
      ∨ quotient * unit + 2 * unit ≤ b * unit := by
  rcases Nat.lt_trichotomy b quotient with less | same | greater
  · exact .inl (by rw [← Nat.succ_mul]; exact Nat.mul_le_mul_right unit less)
  · exact .inr (.inl same)
  · rcases Nat.lt_or_eq_of_le greater with far | next
    · exact .inr (.inr (.inr (by rw [← Nat.add_mul]; exact Nat.mul_le_mul_right unit far)))
    · exact .inr (.inr (.inl next.symm))

/-- No multiple of the power of two is nearer to a number than its rounded quotient is. -/
theorem roundQuotient_nearest (some : 0 < k) (n b : Nat)
    : ((n : Int) - (roundQuotient n k * 2 ^ k : Nat)).natAbs ≤ ((n : Int) - (b * 2 ^ k : Nat)).natAbs
      ∧ (((n : Int) - (b * 2 ^ k : Nat)).natAbs = ((n : Int) - (roundQuotient n k * 2 ^ k : Nat)).natAbs
          → b ≠ roundQuotient n k → roundQuotient n k % 2 = 0) := by
  have even : 2 ^ k = 2 * 2 ^ (k - 1) := by rw [← pow_succ', Nat.sub_add_cancel some]
  have half : 2 ^ k / 2 = 2 ^ (k - 1) := by omega
  have positive : 0 < 2 ^ (k - 1) := Nat.two_pow_pos _
  have whole : n / 2 ^ k * 2 ^ k + n % 2 ^ k = n := Nat.div_add_mod' n _
  have rest : n % 2 ^ k < 2 ^ k := Nat.mod_lt _ (by omega)
  have next := Nat.succ_mul (n / 2 ^ k) (2 ^ k)
  have place := mul_cases (n / 2 ^ k) b (2 ^ k)
  simp only [roundQuotient, Nat.pow_eq, half]
  generalize n / 2 ^ k = quotient at *
  generalize n % 2 ^ k = remainder at *
  generalize 2 ^ (k - 1) = H at *
  generalize 2 ^ k = U at *
  split
  · rcases place with below | rfl | rfl | above
    · rw [next]
      omega
    · rw [next]
      omega
    · omega
    · rw [next]
      omega
  · rcases place with below | rfl | rfl | above
    · omega
    · omega
    · rw [next]
      omega
    · omega

theorem roundQuotient_le (upper : n < 2 ^ digits * 2 ^ k) : roundQuotient n k ≤ 2 ^ digits := by
  have quotient : n / 2 ^ k < 2 ^ digits := (Nat.div_lt_iff_lt_mul (Nat.two_pow_pos k)).mpr upper
  simp only [roundQuotient, Nat.pow_eq]
  split <;> omega

/-- How far a number is from a multiple of a greater unit. -/
theorem distance_eq (n b k : Nat) (e : Int)
    : |(n : ℚ) * 2 ^ e - b * 2 ^ (e + k)| = ((n : Int) - (b * 2 ^ k : Nat)).natAbs * 2 ^ e := by
  have unit : (0 : ℚ) < 2 ^ e := by positivity
  have multiple : (n : ℚ) * 2 ^ e - b * 2 ^ (e + k) = (n - b * 2 ^ k) * 2 ^ e := by
    rw [zpow_add₀ two_ne_zero, zpow_natCast]
    ring
  rw [multiple, abs_mul, abs_of_pos unit, Nat.cast_natAbs]
  push_cast
  rfl

/-- A number with few digits is a multiple of a unit, or it is so small that it has few enough digits
for a smaller unit.
-/
theorem multiple_or_below (some : 0 < digits) (short : HasDigits digits s) (k : Int)
    : (∃ b : Nat, s = b * 2 ^ k) ∨ s < (2 ^ (digits - 1) : Nat) * 2 ^ k := by
  obtain ⟨a, j, small, rfl⟩ := short
  rcases le_or_gt k j with le | less
  · exact .inl ⟨_, rescale le a⟩
  · refine .inr ?_
    have unit : (0 : ℚ) < 2 ^ (k - 1) := by positivity
    have smaller : (2 : ℚ) ^ j ≤ 2 ^ (k - 1) := zpow_le_zpow_right₀ one_le_two (by omega)
    have double : 2 ^ digits = 2 ^ (digits - 1) * 2 := by rw [← pow_succ, Nat.sub_add_cancel some]
    have cast : (a : ℚ) < (2 ^ (digits - 1) : Nat) * 2 := by
      rw [double] at small
      exact_mod_cast small
    calc (a : ℚ) * 2 ^ j ≤ a * 2 ^ (k - 1) := by gcongr
      _ < (2 ^ (digits - 1) : Nat) * 2 * 2 ^ (k - 1) := by gcongr
      _ = (2 ^ (digits - 1) : Nat) * 2 ^ k := by
          rw [half_unit k]
          ring

/-- A number in units of `2 ^ e` is rounded by rounding its quotient, if that leaves just as many
digits.
-/
theorem rounds_roundQuotient (some : 0 < k) (several : 1 < digits)
    (lower : 2 ^ (digits - 1) * 2 ^ k ≤ n) (upper : n < 2 ^ digits * 2 ^ k) (e : Int)
    : Rounds digits (n * 2 ^ e) (roundQuotient n k * 2 ^ (e + k)) := by
  have unit : (0 : ℚ) < 2 ^ e := by positivity
  have bound := roundQuotient_le upper
  have nearest (b : Nat)
      : |(n : ℚ) * 2 ^ e - roundQuotient n k * 2 ^ (e + k)| ≤ |(n : ℚ) * 2 ^ e - b * 2 ^ (e + k)| := by
    rw [distance_eq, distance_eq]
    gcongr
    exact (roundQuotient_nearest some n b).1
  -- what is no multiple of the unit lies below the least number with all digits, which is nearer
  have below {s : ℚ} (less : s < (2 ^ (digits - 1) : Nat) * 2 ^ (e + k))
      : |(n : ℚ) * 2 ^ e - roundQuotient n k * 2 ^ (e + k)| < |(n : ℚ) * 2 ^ e - s| := by
    have least : ((2 ^ (digits - 1) : Nat) : ℚ) * 2 ^ (e + k) ≤ n * 2 ^ e := by
      rw [zpow_add₀ two_ne_zero, zpow_natCast, mul_comm ((2 : ℚ) ^ e), ← mul_assoc]
      gcongr
      exact_mod_cast lower
    refine (nearest (2 ^ (digits - 1))).trans_lt ?_
    rw [abs_of_nonneg (by linarith), abs_of_nonneg (by linarith)]
    linarith
  refine ⟨hasDigits_of_le (by omega) bound _, ?_, ?_⟩
  · intro s short
    rcases multiple_or_below (by omega) short (e + k) with ⟨b, rfl⟩ | less
    · exact nearest b
    · exact (below less).le
  · intro s short other tie
    rcases multiple_or_below (by omega) short (e + k) with ⟨b, rfl⟩ | less
    · rw [distance_eq, distance_eq] at tie
      have same := Nat.cast_injective (mul_right_cancel₀ unit.ne' tie)
      have even := (roundQuotient_nearest some n b).2 same (by
        intro equal
        exact other (by rw [equal]))
      obtain ⟨c, double⟩ := Nat.dvd_of_mod_eq_zero even
      have power : 2 ^ digits = 2 * 2 ^ (digits - 1) := by
        rw [← pow_succ', Nat.sub_add_cancel (by omega)]
      have less : c ≤ 2 ^ (digits - 1) := by omega
      have fewer := hasDigits_of_le (by omega) less (e + k + 1)
      rw [zpow_add_one₀ two_ne_zero] at fewer
      rw [double]
      push_cast
      convert fewer using 1
      ring
    · exact absurd tie (below less).ne'

/-- Every number of units can be rounded. One that has too many digits is divided by the power of two
that leaves just as many.
-/
theorem exists_rounds (several : 1 < digits) (n : Nat) (e : Int) : ∃ r, Rounds digits (n * 2 ^ e) r := by
  rcases Nat.lt_or_ge n (2 ^ digits) with few | many
  · exact ⟨_, HasDigits.rounds ⟨n, e, few, rfl⟩⟩
  · have positive : n ≠ 0 := Nat.ne_of_gt (Nat.lt_of_lt_of_le (Nat.two_pow_pos digits) many)
    have length : digits ≤ n.log2 := (Nat.le_log2 positive).mpr many
    obtain ⟨surplus, split⟩ := Nat.exists_eq_add_of_le length
    refine ⟨_, rounds_roundQuotient (k := surplus + 1) (by omega) several ?_ ?_ e⟩
    · rw [← pow_add]
      exact (Nat.le_log2 positive).mp (by omega)
    · rw [← pow_add]
      exact (Nat.log2_lt positive).mp (by omega)

end Real48
end TaskMachine

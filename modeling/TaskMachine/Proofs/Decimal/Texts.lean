import TaskMachine.Decimal.Layout
import TaskMachine.Decimal.Reading
import TaskMachine.Proofs.Float.Decimals

/-!
Written numbers are read as they were meant. A decimal without an exponent is written as digits with an
optional point, which are read as a decimal that stands for the same number. An integer is a sign and
digits.
-/

namespace TaskMachine

namespace NumberText

variable {c : Char} {text whole fraction rest : List Char} {d : Decimal}

-----------------------------------------------------------------------------------------
-- Digits
-----------------------------------------------------------------------------------------

theorem digit_range (digit : c.isDigit = true) : 48 ≤ c.toNat ∧ c.toNat ≤ 57 := by
  simpa [Char.isDigit, UInt32.le_iff_toNat_le] using digit

private theorem ne_of_digit {other : Char} (digit : c.isDigit = true) (different : other.isDigit = false)
    : c ≠ other := by
  rintro rfl
  rw [digit] at different
  cases different

private theorem splitSign_of_digit (digit : c.isDigit = true) (rest : List Char)
    : splitSign (c :: rest) = (false, c :: rest) := by
  have minus : c ≠ '-' := ne_of_digit digit (by decide)
  have plus : c ≠ '+' := ne_of_digit digit (by decide)
  rw [splitSign]
  · rintro _ ⟨rfl, -⟩
    exact minus rfl
  · rintro _ ⟨rfl, -⟩
    exact plus rfl

/-- Digits are split off up to the first character that is none. -/
theorem splitDigits_append (digits : ∀ c ∈ whole, c.isDigit = true)
    (stop : ∀ c ∈ rest.head?, c.isDigit = false)
    : splitDigits (whole ++ rest) = (whole, rest) := by
  have none : rest.takeWhile Char.isDigit = [] ∧ rest.dropWhile Char.isDigit = rest := by
    cases rest with
    | nil => exact ⟨rfl, rfl⟩
    | cons c rest =>
        have other : c.isDigit = false := stop c rfl
        simp [other]
  rw [splitDigits, List.takeWhile_append_of_pos digits, List.dropWhile_append_of_pos digits, none.1,
    none.2, List.append_nil]

private theorem splitDigits_all (digits : ∀ c ∈ whole, c.isDigit = true) : splitDigits whole = (whole, []) := by
  have nothing : ∀ c ∈ ([] : List Char).head?, c.isDigit = false := by simp
  have split := splitDigits_append digits nothing
  rwa [List.append_nil] at split

/-- Each further digit counts ten times less. -/
theorem ofDigits_append (text rest : List Char)
    : ofDigits (text ++ rest) = ofDigits text * 10 ^ rest.length + ofDigits rest := by
  rw [ofDigits, Nat.ofDigitChars_append, Nat.ofDigitChars_eq_ofDigitChars_zero, Nat.mul_comm]
  rfl

private theorem ofDigits_zeros (count : Nat) : ofDigits (List.replicate count '0') = 0 := by
  rw [ofDigits, Nat.ofDigitChars_replicate_zero, Nat.mul_zero]

private theorem ofDigits_toDigits (n : Nat) : ofDigits (Nat.toDigits 10 n) = n :=
  Nat.ofDigitChars_ten_toDigits

theorem isDigit_of_toDigits (n : Nat) : ∀ c ∈ Nat.toDigits 10 n, c.isDigit = true := fun _ member =>
  Nat.isDigit_of_mem_toDigits (by decide) (by decide) member

/-- The text of an integer is digits, with a sign in front of them for negative ones. -/
theorem toList_toString (n : Int)
    : (toString n).toList
      = if 0 ≤ n then Nat.toDigits 10 n.toNat else '-' :: Nat.toDigits 10 (-n).toNat := by
  have text : toString n = n.repr := rfl
  rw [text, Int.repr_eq_if]
  split_ifs
  · rw [Nat.toList_repr]
  · rw [String.toList_append, Nat.toList_repr]
    rfl

-----------------------------------------------------------------------------------------
-- Numerals
-----------------------------------------------------------------------------------------

/-- A text of digits with an optional point and the decimal that it denotes. -/
inductive Numeral : List Char → Decimal → Prop
  | whole {whole : List Char} (some : whole ≠ []) (digits : ∀ c ∈ whole, c.isDigit = true)
    : Numeral whole ⟨ofDigits whole, 0⟩
  | point {whole fraction : List Char} (some : whole ≠ []) (digits : ∀ c ∈ whole, c.isDigit = true)
      (digits' : ∀ c ∈ fraction, c.isDigit = true)
    : Numeral (whole ++ '.' :: fraction) ⟨ofDigits (whole ++ fraction), -(fraction.length : Int)⟩

/-- A numeral is read as the decimal that it denotes. -/
theorem Numeral.decimal? (numeral : Numeral text d) : NumberText.decimal? text = some d := by
  cases numeral with
  | whole some digits => simp [NumberText.decimal?, splitDigits_all digits, some, exponent?]
  | @point whole fraction some digits digits' =>
      have point : ∀ c ∈ ('.' :: fraction).head?, c.isDigit = false := by simp
      have split := splitDigits_append digits point
      simp [NumberText.decimal?, split, splitDigits_all digits', some, exponent?]

theorem Numeral.starts (numeral : Numeral text d)
    : ∃ c rest, text = c :: rest ∧ c.isDigit = true := by
  cases numeral with
  | whole some digits =>
      obtain ⟨c, rest, rfl⟩ := List.exists_cons_of_ne_nil some
      exact ⟨c, rest, rfl, digits c List.mem_cons_self⟩
  | point some digits =>
      obtain ⟨c, rest, rfl⟩ := List.exists_cons_of_ne_nil some
      exact ⟨c, _, rfl, digits c List.mem_cons_self⟩

theorem Numeral.mem (numeral : Numeral text d) (member : c ∈ text) : c.isDigit = true ∨ c = '.' := by
  cases numeral with
  | whole some digits => exact .inl (digits c member)
  | point some digits digits' =>
      rcases List.mem_append.mp member with front | back
      · exact .inl (digits c front)
      · rcases List.mem_cons.mp back with point | back
        · exact .inr point
        · exact .inl (digits' c back)

-----------------------------------------------------------------------------------------
-- Reading
-----------------------------------------------------------------------------------------

/-- Digits are read as an integer. -/
theorem integer?_whole (some : whole ≠ []) (digits : ∀ c ∈ whole, c.isDigit = true)
    : integer? whole = Option.some (ofDigits whole : Int)
      ∧ integer? ('-' :: whole) = Option.some (-(ofDigits whole : Int)) := by
  obtain ⟨c, rest, rfl⟩ := List.exists_cons_of_ne_nil some
  have plain := splitSign_of_digit (digits c List.mem_cons_self) rest
  have all : (c :: rest).all Char.isDigit = true := List.all_eq_true.mpr digits
  constructor
  · rw [integer?, plain]
    simp only [all]
    rfl
  · rw [integer?, splitSign]
    simp only [all]
    rfl

/-- The text of an integer is read as the integer. -/
theorem integer?_toString (n : Int) : integer? (toString n).toList = some n := by
  have read (k : Nat) := integer?_whole Nat.toDigits_ne_nil (isDigit_of_toDigits k)
  rw [toList_toString]
  split_ifs with nonneg
  · rw [(read _).1, ofDigits_toDigits, Int.toNat_of_nonneg nonneg]
  · have opposite : -((-n).toNat : Int) = n := by omega
    rw [(read _).2, ofDigits_toDigits, opposite]

/-- An integer has no point. -/
theorem integer?_point (some : whole ≠ []) (digits : ∀ c ∈ whole, c.isDigit = true)
    : integer? (whole ++ '.' :: fraction) = none
      ∧ integer? ('-' :: (whole ++ '.' :: fraction)) = none := by
  have other : (whole ++ '.' :: fraction).all Char.isDigit = false := by simp
  obtain ⟨c, rest, rfl⟩ := List.exists_cons_of_ne_nil some
  have plain := splitSign_of_digit (digits c List.mem_cons_self) (rest ++ '.' :: fraction)
  constructor
  · rw [integer?, List.cons_append, plain]
    simp only [← List.cons_append, other]
    simp
  · rw [integer?, splitSign]
    simp only [other]
    simp

/-- A numeral is read as the float of its decimal, with the sign in front of it. -/
theorem float?_numeral (numeral : Numeral text d)
    : float? text = some d.toFloat ∧ float? ('-' :: text) = some (-d.toFloat) := by
  have read := numeral.decimal?
  obtain ⟨c, rest, rfl, digit⟩ := numeral.starts
  have range := digit_range digit
  -- the words for infinity and for what is no number start with letters
  have lower : c.toLower = c := by
    rw [Char.toLower, dif_neg]
    rintro ⟨letter, -⟩
    have above : 65 ≤ c.toNat := by simpa [UInt32.le_iff_toNat_le] using letter
    omega
  have word (letter : Char) (others : List Char) (above : 57 < letter.toNat)
      : String.ofList ((c :: rest).map Char.toLower) ≠ String.ofList (letter :: others) := by
    intro same
    have first := List.head_eq_of_cons_eq (String.ofList_injective same)
    rw [← first, lower] at above
    omega
  have infinity := word 'i' ['n', 'f', 'i', 'n', 'i', 't', 'y'] (by decide)
  have short := word 'i' ['n', 'f'] (by decide)
  have nan := word 'n' ['a', 'n'] (by decide)
  constructor
  · rw [float?, splitSign_of_digit digit]
    simp only [if_neg nan, if_neg (not_or.mpr ⟨short, infinity⟩), read]
    rfl
  · rw [float?, splitSign]
    simp only [if_neg nan, if_neg (not_or.mpr ⟨short, infinity⟩), read]
    rfl

end NumberText

namespace Decimal

open NumberText

/-- A decimal is written as a numeral of the same number. -/
theorem numeral_positional (d : Decimal) : ∃ d', Numeral d.positional d' ∧ d'.value = d.value := by
  have some : d.digitChars ≠ [] := Nat.toDigits_ne_nil
  have digits : ∀ c ∈ d.digitChars, c.isDigit = true := isDigit_of_toDigits _
  have zeros (count : Nat) : ∀ c ∈ List.replicate count '0', c.isDigit = true := by
    intro c member
    rw [List.eq_of_mem_replicate member]
    rfl
  have number : ofDigits d.digitChars = d.digits := ofDigits_toDigits _
  rw [positional]
  split_ifs with whole inside
  · refine ⟨_, .whole (by simp [some]) (List.forall_mem_append.mpr ⟨digits, zeros _⟩), ?_⟩
    obtain ⟨k, exponent⟩ := Int.eq_ofNat_of_zero_le (a := d.exponent) (by omega)
    rw [value, value, ofDigits_append, number, ofDigits_zeros, exponent, List.length_replicate]
    simp
  · have exponent : -((-d.exponent).toNat : Int) = d.exponent := by omega
    have places : (d.digitChars.drop (d.digitChars.length - (-d.exponent).toNat)).length
        = (-d.exponent).toNat := by
      rw [List.length_drop]
      omega
    refine ⟨_, .point ?_ (fun c member => digits c (List.mem_of_mem_take member))
      (fun c member => digits c (List.mem_of_mem_drop member)), ?_⟩
    · rw [ne_eq, List.take_eq_nil_iff]
      exact not_or.mpr ⟨by omega, some⟩
    · rw [value, value, List.take_append_drop, number, places]
      simp only [exponent]
  · have exponent : -((-d.exponent).toNat : Int) = d.exponent := by omega
    have leading : ∀ c ∈ ['0'], c.isDigit = true := by simp
    have places : (List.replicate ((-d.exponent).toNat - d.digitChars.length) '0' ++ d.digitChars).length
        = (-d.exponent).toNat := by
      rw [List.length_append, List.length_replicate]
      omega
    have same : ofDigits (['0'] ++ (List.replicate ((-d.exponent).toNat - d.digitChars.length) '0'
        ++ d.digitChars)) = d.digits := by
      rw [ofDigits_append, ofDigits_append, ofDigits_zeros, number]
      simp [ofDigits, Nat.ofDigitChars]
    have numeral := Numeral.point (List.cons_ne_nil '0' []) leading (List.forall_mem_append.mpr
      ⟨zeros ((-d.exponent).toNat - d.digitChars.length), digits⟩)
    refine ⟨_, numeral, ?_⟩
    rw [value, value, same, places]
    simp only [exponent]

end Decimal
end TaskMachine

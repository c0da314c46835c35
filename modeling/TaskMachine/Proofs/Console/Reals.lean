import Mathlib.Tactic.IntervalCases
import TaskMachine.Console.Commands
import TaskMachine.Proofs.Codec.Storing

/-!
Stored reals on the command line. A real is given as the hexadecimal digits of its six bytes, two for each
byte, and white space around them does not count. The first digit of a byte may be a plus sign, which
counts as zero. Every other text is refused, and nothing is printed for it.
-/

namespace TaskMachine

-----------------------------------------------------------------------------------------
-- Digits
-----------------------------------------------------------------------------------------

namespace Hex

/-- The character is the hexadecimal digit of a number, with letters in either case. -/
def Digit (c : Char) (n : Nat) : Prop :=
  "0123456789abcdef".toList[n]? = some c ∨ "0123456789ABCDEF".toList[n]? = some c

/-- The characters from one to another are read as the digits from a number on. -/
theorem digit_of_range {c : Char} {first last shift n : Nat} (low : first ≤ c.toNat)
    (high : c.toNat ≤ last)
    (digits : ∀ code ∈ List.range' first (last + 1 - first), Digit (Char.ofNat code) (code - shift))
    (read : some (c.toNat - shift) = some n)
    : Digit c n := by
  have digit := digits c.toNat (List.mem_range'_1.mpr ⟨low, by omega⟩)
  rwa [Char.ofNat_toNat, Option.some.inj read] at digit

/-- Digits are read as their numbers, and nothing else is. -/
theorem digit?_eq_some_iff {c : Char} {n : Nat} : digit? c = some n ↔ Digit c n := by
  constructor
  · intro read
    simp only [digit?] at read
    split at read
    · rename_i decimal
      have range : 48 ≤ c.toNat ∧ c.toNat ≤ 57 := by
        simpa [Char.isDigit, UInt32.le_iff_toNat_le] using decimal
      exact digit_of_range range.1 range.2 (by unfold Digit; decide) read
    split at read
    · rename_i range
      exact digit_of_range range.1 range.2 (by unfold Digit; decide) read
    split at read
    · rename_i range
      exact digit_of_range range.1 range.2 (by unfold Digit; decide) read
    · cases read
  · rintro (lower | upper)
    · obtain ⟨small, rfl⟩ := List.getElem?_eq_some_iff.mp lower
      have short : n < 16 := small
      interval_cases n <;> rfl
    · obtain ⟨small, rfl⟩ := List.getElem?_eq_some_iff.mp upper
      have short : n < 16 := small
      interval_cases n <;> rfl

/-- Digits are characters of one byte. -/
theorem Digit.ascii {c : Char} {n : Nat} (digit : Digit c n) : c.toNat < 128 := by
  have read := digit?_eq_some_iff.mpr digit
  simp only [digit?] at read
  split at read
  · rename_i decimal
    have range : 48 ≤ c.toNat ∧ c.toNat ≤ 57 := by
      simpa [Char.isDigit, UInt32.le_iff_toNat_le] using decimal
    omega
  split at read
  · omega
  split at read
  · omega
  · cases read

end Hex

-----------------------------------------------------------------------------------------
-- Reals
-----------------------------------------------------------------------------------------

namespace TagNode

/-- A node is a real by the low byte of its tag, unless the whole tag is zero. -/
theorem isReal_iff (node : TagNode)
    : node.isReal = true ↔ node.tag.toNat % 256 ≠ 0 ∨ node.tag.toNat = 0 := by
  have low : node.tag &&& 0xFF = 0 ↔ node.tag.toNat % 256 = 0 := by
    rw [← UInt16.toNat_inj, UInt16.toNat_and, ← Nat.and_two_pow_sub_one_eq_mod _ 8]
    rfl
  rw [isReal, Bool.or_eq_true, bne_iff_ne, beq_iff_eq, ne_eq, low, ← UInt16.toNat_inj]
  rfl

/-- Bytes are the node of a real if the first one is not zero, or if the first two are. -/
theorem isReal_ofBytes (a b : UInt8) (rest : Bytes)
    : (ofBytes (a :: b :: rest)).isReal = true ↔ a ≠ 0 ∨ a = 0 ∧ b = 0 := by
  have low := a.toNat_lt
  have high := b.toNat_lt
  have tag : (ofBytes (a :: b :: rest)).tag.toNat = a.toNat + 256 * b.toNat := by
    simp only [ofBytes, List.take_succ_cons, List.take_zero, Bytes.toNat, UInt16.toNat_ofNat']
    omega
  have byte (x : UInt8) : x = 0 ↔ x.toNat = 0 := UInt8.toNat_inj.symm
  rw [isReal_iff, tag, ne_eq a, byte, byte]
  omega

end TagNode

namespace Console

/-- The first digit of a byte, which may be a plus sign instead of a zero. -/
def FirstDigit (c : Char) (n : Nat) : Prop :=
  Hex.Digit c n ∨ c = '+' ∧ n = 0

/-- A text of two digits for each byte, where `first` says what may be the first one. -/
inductive Spells (first : Char → Nat → Prop) : List Char → Bytes → Prop
  | nil : Spells first [] []
  | cons {a b : Char} {high low : Nat} {text : List Char} {bytes : Bytes} (front : first a high)
    (back : Hex.Digit b low) (others : Spells first text bytes)
    : Spells first (a :: b :: text) (UInt8.ofNat (16 * high + low) :: bytes)

/-- The six bytes of a real: the first byte is not zero, or the first two are. -/
def FormReal (bytes : Bytes) : Prop :=
  ∃ a b rest, bytes = a :: b :: rest ∧ rest.length = 4 ∧ (a ≠ 0 ∨ a = 0 ∧ b = 0)

/-- A text that spells a real is shown as the number that the real stands for. Any other text is refused
with a message, and nothing is printed.
-/
def ShowsReals (grammar : List Char → Bytes → Prop) (text : String) (config : Config) : Prop :=
  (∀ bytes,
    grammar (trim text.toList) bytes → FormReal bytes
    → (carryOut (.decodeReal text) config).run
      = .print (FloatText.console (Real48.decode (TagNode.ofBytes bytes)) ++ "\n")
          fun _ => .finish (.ok ()))
  ∧ ((∀ bytes, grammar (trim text.toList) bytes → ¬ FormReal bytes)
      → ∃ message, (carryOut (.decodeReal text) config).run = .finish (.error message))

variable {text : List Char} {bytes : Bytes}

private theorem digitPair?_eq_some_iff {a b : Char} {byte : UInt8}
    : digitPair? a b = some byte
      ↔ ∃ high low, FirstDigit a high ∧ Hex.Digit b low ∧ UInt8.ofNat (16 * high + low) = byte := by
  have first (high : Nat)
      : (if a = '+' then some 0 else Hex.digit? a) = some high ↔ FirstDigit a high := by
    by_cases plus : a = '+'
    · subst plus
      have none : ¬ Hex.Digit '+' high := fun digit => by cases Hex.digit?_eq_some_iff.mpr digit
      simp [FirstDigit, none, eq_comm]
    · simp [FirstDigit, plus, Hex.digit?_eq_some_iff]
  have pair : digitPair? a b = (if a = '+' then some 0 else Hex.digit? a).bind fun high =>
      (Hex.digit? b).bind fun low => some (UInt8.ofNat (16 * high + low)) := by
    rw [digitPair?]
    split <;> rfl
  simp only [pair, Option.bind_eq_some_iff, first, Hex.digit?_eq_some_iff, Option.some.injEq]
  constructor
  · rintro ⟨high, front, low, back, same⟩
    exact ⟨high, low, front, back, same⟩
  · rintro ⟨high, low, front, back, same⟩
    exact ⟨high, front, low, back, same⟩

/-- Bytes are read off the texts that spell them, by induction on the number of pairs. -/
theorem pairBytes_eq_ok_iff {pairs : Nat} (even : text.length = 2 * pairs)
    : pairBytes text = .ok bytes ↔ Spells FirstDigit text bytes := by
  induction pairs generalizing text bytes with
  | zero =>
      obtain rfl := List.eq_nil_of_length_eq_zero even
      constructor
      · intro read
        cases read
        exact .nil
      · rintro ⟨⟩
        rfl
  | succ pairs ih =>
      obtain ⟨a, b, rest, rfl⟩ : ∃ a b rest, text = a :: b :: rest := by
        match text, even with
        | a :: b :: rest, _ => exact ⟨a, b, rest, rfl⟩
      have even : rest.length = 2 * pairs := by
        simp only [List.length_cons] at even
        omega
      rw [pairBytes]
      constructor
      · intro read
        cases pair : digitPair? a b with
        | none =>
            rw [pair] at read
            cases read
        | some byte =>
            rw [pair] at read
            obtain ⟨high, low, front, back, rfl⟩ := digitPair?_eq_some_iff.mp pair
            cases others : pairBytes rest with
            | error message =>
                rw [others] at read
                cases read
            | ok bytes' =>
                rw [others] at read
                cases read
                exact .cons front back ((ih even).mp others)
      · intro spells
        cases spells with
        | cons front back others =>
            rw [digitPair?_eq_some_iff.mpr ⟨_, _, front, back, rfl⟩, (ih even).mpr others]
            rfl

/-- A text has twice as many characters as the bytes that it spells, and all of them are ASCII. -/
theorem Spells.ascii (spells : Spells FirstDigit text bytes)
    : text.length = 2 * bytes.length ∧ ∀ c ∈ text, c.toNat < 128 := by
  induction spells with
  | nil => exact ⟨rfl, by simp⟩
  | cons front back others ih =>
      obtain ⟨length, all⟩ := ih
      refine ⟨by simp only [List.length_cons]; omega, List.forall_mem_cons.mpr ⟨?_, ?_⟩⟩
      · rcases front with digit | ⟨rfl, -⟩
        · exact digit.ascii
        · decide
      · exact List.forall_mem_cons.mpr ⟨back.ascii, all⟩

/-- What may be the first digit of a byte may change for characters that do not occur. -/
theorem Spells.imp {first first' : Char → Nat → Prop} (spells : Spells first text bytes)
    (each : ∀ c ∈ text, ∀ n, first c n → first' c n)
    : Spells first' text bytes := by
  induction spells with
  | nil => exact .nil
  | cons front back others ih =>
      exact .cons (each _ List.mem_cons_self _ front) back
        (ih fun c member => each c (List.mem_cons_of_mem _ (List.mem_cons_of_mem _ member)))

/-- Without a plus sign, all digits are hexadecimal ones. -/
theorem spells_digits (plain : '+' ∉ text)
    : Spells FirstDigit text bytes ↔ Spells Hex.Digit text bytes := by
  constructor
  · intro spells
    refine spells.imp fun c member n first => first.resolve_right ?_
    rintro ⟨rfl, -⟩
    exact plain member
  · exact fun spells => spells.imp fun _ _ _ digit => .inl digit

/-- A real is read off the texts that spell its six bytes. -/
theorem realOfDigits_eq_ok_iff {given : String} {node : TagNode}
    : realOfDigits given = .ok node
      ↔ ∃ bytes,
          Spells FirstDigit (trim given.toList) bytes
            ∧ FormReal bytes
            ∧ TagNode.ofBytes bytes = node := by
  rw [realOfDigits]
  generalize trim given.toList = text
  dsimp only
  constructor
  · intro done
    split at done
    · cases done
    rename_i shape
    obtain ⟨length, -⟩ : text.length = 12 ∧ ∀ c ∈ text, c.toNat < 128 := by simpa using shape
    obtain ⟨bytes, read, done⟩ := bind_eq_ok.mp done
    have twelve : text.length = 2 * 6 := length
    have spells := (pairBytes_eq_ok_iff twelve).mp read
    have six := spells.ascii.1
    split at done
    · cases done
    rename_i real
    cases done
    refine ⟨bytes, spells, ?_, rfl⟩
    match bytes, six.symm.trans length, real with
    | a :: b :: rest, size, real =>
        refine ⟨a, b, rest, rfl, ?_, (TagNode.isReal_ofBytes a b rest).mp (by simpa using real)⟩
        simp only [List.length_cons] at size
        omega
  · rintro ⟨bytes, spells, ⟨a, b, rest, rfl, size, form⟩, rfl⟩
    obtain ⟨length, ascii⟩ := spells.ascii
    have twelve : text.length = 2 * 6 := by
      simp only [List.length_cons] at length
      omega
    have shape : ¬ (text.length ≠ 12 || !text.all (·.toNat < 128)) = true := by
      simpa using ⟨twelve, ascii⟩
    have real : ¬ (!(TagNode.ofBytes (a :: b :: rest)).isReal) = true := by
      simpa using (TagNode.isReal_ofBytes a b rest).mpr form
    rw [if_neg shape, (pairBytes_eq_ok_iff twelve).mpr spells]
    change (if (!(TagNode.ofBytes (a :: b :: rest)).isReal) = true then _ else _) = _
    rw [if_neg real]
    rfl

/-- A grammar that the texts of reals are read by says which texts are shown. -/
theorem showsReals_of_read {grammar : List Char → Bytes → Prop} {given : String} (config : Config)
    (read : ∀ bytes, grammar (trim given.toList) bytes ↔ Spells FirstDigit (trim given.toList) bytes)
    : ShowsReals grammar given config := by
  refine ⟨fun bytes spells real => ?_, fun none => ?_⟩
  · have accepted := realOfDigits_eq_ok_iff.mpr ⟨bytes, (read bytes).mp spells, real, rfl⟩
    simp only [carryOut, accepted]
    rfl
  · cases outcome : realOfDigits given with
    | ok node =>
        obtain ⟨bytes, spells, real, -⟩ := realOfDigits_eq_ok_iff.mp outcome
        exact absurd real (none bytes ((read bytes).mpr spells))
    | error message =>
        refine ⟨message, ?_⟩
        simp only [carryOut, outcome]
        rfl

private theorem mem_of_mem_trim {c : Char} {text : List Char} (member : c ∈ trim text) : c ∈ text := by
  have front : c ∈ (text.dropWhile isBlank).reverse :=
    (List.dropWhile_sublist _).subset (List.mem_reverse.mp member)
  exact (List.dropWhile_sublist _).subset (List.mem_reverse.mp front)

/-- The number that a stored real stands for is shown for exactly those texts that have the digits of its
six bytes, where a plus sign may be the first digit of a byte. Of the texts without a plus sign, these are
the ones with twelve hexadecimal digits.
-/
theorem decodeReal_shows (given : String) (config : Config)
    : ShowsReals (Spells FirstDigit) given config
      ∧ ('+' ∉ given.toList → ShowsReals (Spells Hex.Digit) given config) := by
  refine ⟨showsReals_of_read config fun _ => Iff.rfl, fun plain => showsReals_of_read config fun _ => ?_⟩
  exact (spells_digits fun member => plain (mem_of_mem_trim member)).symm

/-- The digits of a real between blanks are shown as its number. -/
theorem seven_shown
    : '+' ∉ " 830000000060\n".toList
      ∧ (carryOut (.decodeReal " 830000000060\n") {}).run
        = .print (FloatText.console (Real48.decode (TagNode.ofBytes [0x83, 0, 0, 0, 0, 0x60])) ++ "\n")
            fun _ => .finish (.ok ()) := by
  have plain : '+' ∉ " 830000000060\n".toList := by decide
  have zero : Hex.Digit '0' 0 := .inl rfl
  have three : Hex.Digit '3' 3 := .inl rfl
  have six : Hex.Digit '6' 6 := .inl rfl
  have eight : Hex.Digit '8' 8 := .inl rfl
  have spells : Spells Hex.Digit (trim " 830000000060\n".toList) [0x83, 0, 0, 0, 0, 0x60] :=
    .cons eight three <| .cons zero zero <| .cons zero zero <| .cons zero zero <| .cons zero zero
      <| .cons six zero .nil
  exact ⟨plain, ((decodeReal_shows _ {}).2 plain).1 _ spells ⟨0x83, 0, _, rfl, rfl, .inl (by decide)⟩⟩

/-- A plus sign is no hexadecimal digit. -/
theorem Spells.plus_not_mem (spells : Spells Hex.Digit text bytes) : '+' ∉ text := by
  have other {c : Char} {n : Nat} (digit : Hex.Digit c n) : '+' ≠ c := by
    rintro rfl
    cases Hex.digit?_eq_some_iff.mpr digit
  induction spells with
  | nil => exact List.not_mem_nil
  | cons front back others ih =>
      simp only [List.mem_cons, not_or]
      exact ⟨other front, other back, ih⟩

/-- Twelve characters with a plus sign among them are shown as a number, though not all of them are
digits.
-/
theorem plus_shown : ¬ ShowsReals (Spells Hex.Digit) "830000+00060" {} := by
  rintro ⟨-, refused⟩
  have accepted : realOfDigits "830000+00060" = .ok ⟨0x0083, 0x60000000⟩ := rfl
  obtain ⟨message, failed⟩ := refused fun bytes spells _ => spells.plus_not_mem (by decide)
  simp only [carryOut, accepted] at failed
  cases failed

end Console
end TaskMachine

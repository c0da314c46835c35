import TaskMachine.Decimal.Basic

/-!
Numbers read from text. Integers are a sign and decimal digits; floats add a point, an exponent and
the words for infinity and not-a-number. A text is read as a whole or not at all.
-/

namespace TaskMachine

namespace NumberText

/-- Splits a sign off a text; no sign counts as plus. -/
def splitSign : List Char → Bool × List Char
  | '-' :: rest => (true, rest)
  | '+' :: rest => (false, rest)
  | text => (false, text)

def splitDigits (text : List Char) : List Char × List Char :=
  (text.takeWhile Char.isDigit, text.dropWhile Char.isDigit)

def ofDigits (digits : List Char) : Nat :=
  Nat.ofDigitChars 10 digits 0

/-- An integer: an optional sign and at least one digit. -/
def integer? (text : List Char) : Option Int :=
  let (negative, rest) := splitSign text
  if rest.isEmpty || !rest.all Char.isDigit then none
  else some (if negative then -(ofDigits rest : Int) else ofDigits rest)

/-- An integer of 32 bits; a number outside the range is not read. -/
def int32? (text : List Char) : Option Int32 := do
  let n ← integer? text
  if Int32.minValue.toInt ≤ n ∧ n ≤ Int32.maxValue.toInt then some (Int32.ofInt n) else none

/-- The exponent part of a number: nothing, or the letter `e`, an optional sign and digits. -/
def exponent? : List Char → Option Int
  | [] => some 0
  | c :: rest => if c = 'e' ∨ c = 'E' then integer? rest else none

/-- An unsigned decimal: digits with an optional point, at least one digit, an optional exponent. -/
def decimal? (text : List Char) : Option Decimal :=
  let (whole, rest) := splitDigits text
  let (fraction, rest) :=
    match rest with
    | '.' :: tail => splitDigits tail
    | _ => ([], rest)
  if whole.isEmpty && fraction.isEmpty then none
  else do
    let e ← exponent? rest
    some ⟨ofDigits (whole ++ fraction), e - (fraction.length : Int)⟩

/-- A float: an optional sign, and a decimal or one of the words `inf`, `infinity` and `nan` in any
case.
-/
def float? (text : List Char) : Option Float :=
  let (negative, rest) := splitSign text
  let word := String.ofList (rest.map Char.toLower)
  let magnitude :=
    if word = "inf" ∨ word = "infinity" then some (Float.ofBits 0x7FF0000000000000)
    else if word = "nan" then some (Float.ofBits 0x7FF8000000000000)
    else (decimal? rest).map Decimal.toFloat
  magnitude.map fun x => if negative then -x else x

end NumberText

end TaskMachine

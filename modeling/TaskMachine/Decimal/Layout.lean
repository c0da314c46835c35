import TaskMachine.Decimal.Basic

/-!
How decimals and floats are written. Scripts and reports write every number positionally; the
diagnostic form keeps a point in every number and turns to an exponent for the very large and the
very small.
-/

namespace TaskMachine

namespace Decimal

/-- The digits of a decimal, most significant first; zero has the digit 0. -/
def digitChars (d : Decimal) : List Char :=
  Nat.toDigits 10 d.digits

/-- A decimal without an exponent: zeros fill up to the point, and a whole number has no point. -/
def positional (d : Decimal) : List Char :=
  let digits := d.digitChars
  let places := (-d.exponent).toNat
  if places = 0 then digits ++ List.replicate d.exponent.toNat '0'
  else if places < digits.length then
    digits.take (digits.length - places) ++ '.' :: digits.drop (digits.length - places)
  else '0' :: '.' :: List.replicate (places - digits.length) '0' ++ digits

/-- A decimal with one digit before the point and a power of ten. -/
def scientific (d : Decimal) : List Char :=
  let digits := d.digitChars
  let power := d.exponent + (digits.length - 1 : Nat)
  let fraction := if digits.length ≤ 1 then [] else '.' :: digits.drop 1
  digits.take 1 ++ fraction ++ 'e' :: (toString power).toList

end Decimal

namespace FloatText

def isNegative (x : Float) : Bool :=
  x.toBits >>> 63 != 0

/-- Writes a float: a sign, and the magnitude as `layout` has it or the given word for infinity. -/
def render (nan infinity : String) (layout : Decimal → List Char) (x : Float) : String :=
  if x.isNaN then nan
  else
    let magnitude := if x.isInf then infinity else String.ofList (layout (Decimal.ofFloat x))
    if isNegative x then "-" ++ magnitude else magnitude

/-- The text of a float in scripts: the shortest digits that read back, written positionally. -/
def script : Float → String :=
  render "NaN" "Inf" Decimal.positional

/-- The text of a float on the command line. -/
def console : Float → String :=
  render "NaN" "inf" Decimal.positional

/-- The diagnostic layout: positional from `0.0001` up to below `10 ^ 16`, with a point always. -/
def diagnosticLayout (d : Decimal) : List Char :=
  let lead := d.exponent + (d.digitChars.length : Int)
  if d.digits = 0 then ['0', '.', '0']
  else if -4 < lead ∧ lead ≤ 16 then
    if d.exponent < 0 then d.positional else d.positional ++ ['.', '0']
  else d.scientific

def diagnostic : Float → String :=
  render "NaN" "inf" diagnosticLayout

end FloatText

end TaskMachine

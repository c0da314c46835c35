import TaskMachine.Value

/-!
Numeric operands. Integers and booleans are exact; an integer result that does not fit 32 bits
becomes the float nearest to it.
-/

namespace TaskMachine

/-- The float nearest to an integer, a tie going to the even mantissa. -/
def nearestFloat (n : Int) : Float :=
  Float.ofModel (Float.Model.pack (Float.Model.UnpackedFloat.ofInt Float.Model.Format.binary64 n))

def fitsInt32 (n : Int) : Bool :=
  -2147483648 ≤ n && n ≤ 2147483647

/-- The value of an exact integer result: an integer if it fits, else the nearest float. -/
def Value.ofExact (n : Int) : Value :=
  if fitsInt32 n then .integer (Int32.ofInt n) else .float (nearestFloat n)

/-- A numeric operand. -/
inductive Number where
  | exact (n : Int)
  | float (x : Float)

namespace Number

/-- The number that a value stands for: booleans count as 0 and 1. -/
def ofValue? : Value → Option Number
  | .integer n => some (.exact n.toInt)
  | .boolean b => some (.exact (if b then 1 else 0))
  | .float x => some (.float x)
  | _ => none

def toFloat : Number → Float
  | exact n => nearestFloat n
  | float x => x

/-- The order of two floats; with NaN there is none. -/
def compareFloats (x y : Float) : Option Ordering :=
  if x < y then some .lt
  else if y < x then some .gt
  else if x == y then some .eq
  else none

/-- The order of two numbers, taken as floats unless both are exact. -/
def compare? : Number → Number → Option Ordering
  | exact a, exact b => some (compare a b)
  | a, b => compareFloats a.toFloat b.toFloat

/-- Are two numbers equal? They are taken as floats unless both are exact. -/
def equals : Number → Number → Bool
  | exact a, exact b => a == b
  | a, b => a.toFloat == b.toFloat

end Number

/-- The float that a value stands for: integers and booleans are converted. -/
def Value.float? (v : Value) : Option Float :=
  (Number.ofValue? v).map Number.toFloat

/-- Equality of values: numbers and strings by content, handles by identity. Null equals nothing,
not even itself, and a boolean equals no number.
-/
def Value.equals : Value → Value → Bool
  | .integer a, .integer b => a == b
  | .boolean a, .boolean b => a == b
  | .float a, .float b => a == b
  | .integer a, .float b => nearestFloat a.toInt == b
  | .float a, .integer b => nearestFloat b.toInt == a
  | .string a, .string b => a == b
  | a, b => a.sameIdentity b

end TaskMachine

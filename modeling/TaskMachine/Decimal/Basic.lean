/-!
Decimal numbers and their conversion to and from binary floats. `Decimal.toFloat` reads a decimal
as the nearest float; `Decimal.ofFloat` selects the fewest digits that read back.
-/

namespace TaskMachine

/-- The number `digits * 10 ^ exponent`. -/
structure Decimal where
  digits : Nat
  exponent : Int
deriving DecidableEq, Repr, Inhabited

namespace Decimal

/-- The float nearest to a decimal, a tie going to the even mantissa. -/
def toFloat (d : Decimal) : Float :=
  Float.ofScientific d.digits (d.exponent < 0) d.exponent.natAbs

/-- The magnitude `mantissa * 2 ^ exponent` of a finite float. -/
structure Magnitude where
  mantissa : Nat
  exponent : Int
deriving DecidableEq, Repr

namespace Magnitude

/-- The magnitude of a finite float, read off its bits. -/
def ofFloat (x : Float) : Magnitude :=
  let biased := ((x.toBits >>> 52) &&& 0x7FF).toNat
  let fraction := (x.toBits &&& 0xFFFFFFFFFFFFF).toNat
  if biased = 0 then ⟨fraction, -1074⟩ else ⟨0x10000000000000 + fraction, (biased : Int) - 1075⟩

/-- The greatest multiple of `10 ^ k` that does not exceed `factor` times the magnitude, counted in
units of `10 ^ k`.
-/
def floorOn (v : Magnitude) (factor : Nat) (k : Int) : Nat :=
  (factor * v.mantissa * Nat.pow 2 v.exponent.toNat * Nat.pow 10 (-k).toNat)
    / (Nat.pow 2 (-v.exponent).toNat * Nat.pow 10 k.toNat)

/-- The least `k` such that the magnitude is below `10 ^ k`: the binary logarithm gives the place up
to two steps.
-/
def scale (v : Magnitude) : Int :=
  let estimate := ((v.mantissa.log2 + v.exponent) * 30103).fdiv 100000
  if v.floorOn 1 estimate = 0 then estimate
  else if v.floorOn 1 (estimate + 1) = 0 then estimate + 1
  else estimate + 2

/-- The magnitude written out in full: a negative power of two is a negative power of ten times a
power of five.
-/
def expansion (v : Magnitude) : Decimal :=
  ⟨v.mantissa * Nat.pow 2 v.exponent.toNat * Nat.pow 5 (-v.exponent).toNat, min v.exponent 0⟩

end Magnitude

/-- Does a decimal read back as the magnitude of `x`? -/
def readsBack (x : Float) (d : Decimal) : Bool :=
  d.toFloat.toBits == x.abs.toBits

/-- The decimal with at most `n` digits that reads back as the magnitude of `x`, if there is one.
Only the two neighbours of the magnitude on the grid of the `n`-th digit come into question; of two
that read back the nearer is taken, and the upper one at a tie.
-/
def withDigits? (x : Float) (v : Magnitude) (n : Nat) : Option Decimal :=
  let k := v.scale - n
  let below : Decimal := ⟨v.floorOn 1 k, k⟩
  let above : Decimal := ⟨v.floorOn 1 k + 1, k⟩
  match readsBack x below, readsBack x above with
  | true, true => some (if v.floorOn 2 k % 2 = 0 then below else above)
  | true, false => some below
  | false, true => some above
  | false, false => none

/-- Moves up to `n` trailing zeros of the digits into the exponent. -/
def dropZeros : Nat → Decimal → Decimal
  | 0, d => d
  | n + 1, d =>
    if d.digits ≠ 0 ∧ d.digits % 10 = 0 then dropZeros n ⟨d.digits / 10, d.exponent + 1⟩ else d

/-- The decimal with the fewest digits that reads back as the magnitude of a finite float. Seventeen
digits are enough for every float; the full expansion stands for the case that none is found.
-/
def ofFloat (x : Float) : Decimal :=
  let v := Magnitude.ofFloat x
  if v.mantissa = 0 then ⟨0, 0⟩
  else
    let found := (List.range 17).findSome? fun n => withDigits? x v (n + 1)
    match found with
    | some d => dropZeros 17 d
    | none => v.expansion

end Decimal

end TaskMachine

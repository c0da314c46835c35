/-!
Bytes as stored data has them: fixed-width numbers are written low byte first, and reading takes
bytes off the front of what is left.
-/

namespace TaskMachine

abbrev Bytes := List UInt8

namespace Bytes

/-- The `n` low bytes of a number, low byte first. -/
def ofNat : Nat → Nat → Bytes
  | 0, _ => []
  | n + 1, value => UInt8.ofNat (value % 256) :: ofNat n (value / 256)

/-- The number that bytes denote, low byte first. -/
def toNat : Bytes → Nat
  | [] => 0
  | b :: rest => b.toNat + 256 * toNat rest

/-- Takes `n` bytes off the front, if there are as many. -/
def split? (n : Nat) (bytes : Bytes) : Option (Bytes × Bytes) :=
  let front := bytes.take n
  if front.length = n then some (front, bytes.drop n) else none

theorem length_ofNat (n value : Nat) : (ofNat n value).length = n := by
  induction n generalizing value with
  | zero => rfl
  | succ n ih => simp [ofNat, ih]

/-- Reading takes back off what was put in front. -/
theorem split?_append (front back : Bytes)
    : split? front.length (front ++ back) = some (front, back) := by
  simp [split?]

/-- A number that fits its bytes is read back from them. -/
theorem toNat_ofNat (n value : Nat) (h : value < Nat.pow 256 n)
    : toNat (ofNat n value) = value := by
  induction n generalizing value with
  | zero =>
    have : value = 0 := by simpa using h
    simp [ofNat, toNat, this]
  | succ n ih =>
    have hstep : Nat.pow 256 (n + 1) = Nat.pow 256 n * 256 := rfl
    have hdiv : value / 256 < Nat.pow 256 n := by omega
    have hbyte : (UInt8.ofNat (value % 256)).toNat = value % 256 := by
      simp [UInt8.toNat_ofNat']
    simp only [ofNat, toNat, ih _ hdiv, hbyte]
    omega

end Bytes

end TaskMachine

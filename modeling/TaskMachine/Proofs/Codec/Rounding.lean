import TaskMachine.Proofs.Codec.Storing
import TaskMachine.Proofs.Float.Exact

/-!
Floats that are stored and read back. A float is rounded once: the float that a stored real stands
for has that same real as its stored form, also where it was too large and became an infinity. So a
value may be rounded before it is stored.
-/

namespace TaskMachine

namespace Real48

/-- The node with given fields: a sign bit, eight bits of exponent and 39 bits of mantissa. -/
def node (sign exponent mantissa : Nat) : TagNode :=
  ⟨UInt16.ofNat (exponent + mantissa % 256 * 256),
    UInt32.ofNat (sign * 0x80000000 + mantissa / 256)⟩

-----------------------------------------------------------------------------------------
-- Fields
-----------------------------------------------------------------------------------------

/-- The bits of an assembled float are its fields, unless they would make it NaN, of which there is
only one.
-/
theorem toBits_assemble {sign exponent fraction : Nat} (bit : sign < 2) (short : exponent < 2048)
    (small : fraction < 0x10000000000000) (number : exponent ≠ 2047 ∨ fraction = 0)
    : (assemble sign exponent fraction).toBits.toNat
      = sign * 0x8000000000000000 + exponent * 0x10000000000000 + fraction := by
  have bits : (UInt64.ofNat
        (sign * 0x8000000000000000 + exponent * 0x10000000000000 + fraction)).toNat
      = sign * 0x8000000000000000 + exponent * 0x10000000000000 + fraction := by
    rw [UInt64.toNat_ofNat']
    omega
  rw [assemble, Float.toBits_ofBits, bits]
  rw [bits]
  omega

private theorem encode_assemble_infinity {sign : Nat} (bit : sign < 2)
    : encode (assemble sign 2047 0) = infinity sign := by
  obtain ⟨number, assembled⟩
      : ∃ number, number = sign * 0x8000000000000000 + 2047 * 0x10000000000000 + 0 := ⟨_, rfl⟩
  have bits : (assemble sign 2047 0).toBits.toNat = number := by
    rw [assembled]
    exact toBits_assemble bit (by omega) (by omega) (.inr rfl)
  have exponent : number / 0x10000000000000 % 0x800 = 2047 := by omega
  have fraction : number % 0x10000000000000 = 0 := by omega
  have top : number / 0x8000000000000000 = sign := by omega
  simp only [encode, bits, exponent, fraction, top, if_true]

/-- An exact multiple of the unit that is kept is not rounded. -/
theorem roundQuotient_mul (mantissa : Nat) : roundQuotient (mantissa * 0x2000) 13 = mantissa := by
  have power : Nat.pow 2 13 = 0x2000 := rfl
  simp only [roundQuotient, power]
  rw [Nat.mul_div_cancel _ (by omega), Nat.mul_mod_left, if_neg (by omega)]

-----------------------------------------------------------------------------------------
-- Stored floats
-----------------------------------------------------------------------------------------

/-- What a float is stored as: zero, an infinity, or a node with its fields in range. -/
theorem encode_cases (x : Float)
    : encode x = zero
      ∨ (∃ sign, sign < 2 ∧ encode x = infinity sign)
      ∨ ∃ sign exponent mantissa,
          sign < 2 ∧ 1 ≤ exponent ∧ exponent ≤ 255 ∧ mantissa < 0x8000000000
          ∧ encode x = node sign exponent mantissa := by
  have bits := x.toBits.toNat_lt
  have sign : x.toBits.toNat / 0x8000000000000000 < 2 := by omega
  simp only [encode]
  split
  · split
    · exact .inr (.inl ⟨_, sign, rfl⟩)
    · exact .inl rfl
  split
  · exact .inl rfl
  split
  · exact .inl rfl
  split
  · exact .inr (.inl ⟨_, sign, rfl⟩)
  · exact .inr (.inr ⟨_, _, _, sign, by omega, by omega, Nat.mod_lt _ (by omega), rfl⟩)

private theorem decode_infinity {sign : Nat} (bit : sign < 2)
    : decode (infinity sign) = assemble sign 2047 0 := by
  have payload : (UInt32.ofNat (sign * 0x80000000 + 0x7FFFFFFF)).toNat
      = sign * 0x80000000 + 0x7FFFFFFF := by
    rw [UInt32.toNat_ofNat']
    omega
  have tag : (0xFFFF : UInt16).toNat = 0xFFFF := rfl
  have top : (sign * 0x80000000 + 0x7FFFFFFF) / 0x80000000 = sign := by omega
  have high : (sign * 0x80000000 + 0x7FFFFFFF) % 0x80000000 = 0x7FFFFFFF := by omega
  simp only [decode, infinity, payload, tag, top, high]
  rw [if_neg (by omega), if_pos (And.intro trivial trivial)]

/-- A node with an exponent is read as a normal float, with the exponents counted from another zero. -/
theorem decode_node {sign exponent mantissa : Nat} (bit : sign < 2) (some : 1 ≤ exponent)
    (short : exponent ≤ 255) (small : mantissa < 0x8000000000)
    (finite : ¬ (exponent = 255 ∧ mantissa = 0x7FFFFFFFFF))
    : decode (node sign exponent mantissa) = assemble sign (exponent + 894) (mantissa * 0x2000) := by
  have tag : (UInt16.ofNat (exponent + mantissa % 256 * 256)).toNat
      = exponent + mantissa % 256 * 256 := by
    rw [UInt16.toNat_ofNat']
    omega
  have payload : (UInt32.ofNat (sign * 0x80000000 + mantissa / 256)).toNat
      = sign * 0x80000000 + mantissa / 256 := by
    rw [UInt32.toNat_ofNat']
    omega
  have top : (sign * 0x80000000 + mantissa / 256) / 0x80000000 = sign := by omega
  have high : (sign * 0x80000000 + mantissa / 256) % 0x80000000 = mantissa / 256 := by omega
  have low : (exponent + mantissa % 256 * 256) % 256 = exponent := by omega
  have rest : (exponent + mantissa % 256 * 256) / 256 = mantissa % 256 := by omega
  have whole : mantissa / 256 * 256 + mantissa % 256 = mantissa := by omega
  simp only [decode, node, tag, payload, top, high, low, rest, whole]
  rw [if_neg (by omega), if_neg (by omega)]

/-- A float whose fraction has no more digits than a node has room for is stored without rounding. -/
theorem encode_assemble {sign exponent mantissa : Nat} (bit : sign < 2) (some : 1 ≤ exponent)
    (short : exponent ≤ 255) (small : mantissa < 0x8000000000)
    : encode (assemble sign (exponent + 894) (mantissa * 0x2000)) = node sign exponent mantissa := by
  obtain ⟨number, assembled⟩
      : ∃ number, number = sign * 0x8000000000000000 + (exponent + 894) * 0x10000000000000
          + mantissa * 0x2000 := ⟨_, rfl⟩
  have bits : (assemble sign (exponent + 894) (mantissa * 0x2000)).toBits.toNat = number := by
    rw [assembled]
    exact toBits_assemble bit (by omega) (by omega) (.inl (by omega))
  have top : number / 0x8000000000000000 = sign := by omega
  have middle : number / 0x10000000000000 % 0x800 = exponent + 894 := by omega
  have low : number % 0x10000000000000 = mantissa * 0x2000 := by omega
  have power : ((exponent + 894) * 0x8000000000 + mantissa) / 0x8000000000 = exponent + 894 := by
    omega
  have rest : ((exponent + 894) * 0x8000000000 + mantissa) % 0x8000000000 = mantissa := by omega
  simp only [encode, bits, top, middle, low, roundQuotient_mul, power, rest]
  rw [if_neg (by omega), if_neg (by omega), if_neg (by omega), if_neg (by omega),
    Nat.add_sub_cancel, node]

/-- A node with fields in range is the stored form of the float that it stands for. -/
theorem encode_decode_node {sign exponent mantissa : Nat} (bit : sign < 2) (some : 1 ≤ exponent)
    (short : exponent ≤ 255) (small : mantissa < 0x8000000000)
    : encode (decode (node sign exponent mantissa)) = node sign exponent mantissa := by
  by_cases all : exponent = 255 ∧ mantissa = 0x7FFFFFFFFF
  · -- the largest node is the one of infinity
    obtain ⟨rfl, rfl⟩ := all
    have infinite : node sign 255 0x7FFFFFFFFF = infinity sign := rfl
    rw [infinite, decode_infinity bit, encode_assemble_infinity bit]
  · rw [decode_node bit some short small all, encode_assemble bit some short small]

/-- A float is rounded once: what it is read back as is stored as before. -/
theorem encode_decode_encode (x : Float) : encode (decode (encode x)) = encode x := by
  rcases encode_cases x with same | ⟨sign, bit, same⟩ | ⟨sign, e, m, bit, some, short, small, same⟩
  · rw [same]
    decide
  · rw [same, decode_infinity bit, encode_assemble_infinity bit]
  · rw [same, encode_decode_node bit some short small]

end Real48

-----------------------------------------------------------------------------------------
-- Rounded values
-----------------------------------------------------------------------------------------

namespace Value

/-- The value with a float rounded as it is when it is stored. -/
def rounded : Value → Value
  | float x => float (Real48.decode (Real48.encode x))
  | v => v

/-- Everything but a host object can be stored and read back after rounding. -/
theorem storable_rounded {v : Value} (noObject : ∀ o, v ≠ object o) : v.rounded.Storable := by
  cases v with
  | float x => exact congrArg Real48.decode (Real48.encode_decode_encode x)
  | object o => exact absurd rfl (noObject o)
  | null | integer | boolean | string | callable | array => trivial

theorem rounded_eq_array {v : Value} {a : ArrayId} : v.rounded = array a ↔ v = array a := by
  cases v <;> simp [rounded]

theorem rounded_eq_callable {v : Value} {c : CallableId}
    : v.rounded = callable c ↔ v = callable c := by
  cases v <;> simp [rounded]

theorem rounded_eq_object {v : Value} {o : ObjectId} : v.rounded = object o ↔ v = object o := by
  cases v <;> simp [rounded]

end Value
end TaskMachine

import TaskMachine.Codec.Tag

/-!
The 48-bit reals of stored data. A real has an exponent with bias 129 in its first byte, where zero
stands for the number zero, a mantissa of 39 bits without its leading one, and a sign bit on top. As
a tag node it has the exponent and the eight lowest bits of the mantissa in the tag and the rest in
the payload. The tag `0xFFFF` with all mantissa bits of the payload set stands for an infinity.
-/

namespace TaskMachine

namespace Real48

def infinity (sign : Nat) : TagNode :=
  ⟨0xFFFF, UInt32.ofNat (sign * 0x80000000 + 0x7FFFFFFF)⟩

def zero : TagNode :=
  ⟨0, 0⟩

/-- The float with given fields: a sign bit, 11 bits of exponent and 52 bits of fraction. -/
def assemble (sign exponent fraction : Nat) : Float :=
  Float.ofBits (UInt64.ofNat (sign * 0x8000000000000000 + exponent * 0x10000000000000 + fraction))

/-- The float that a node stands for. Every real but the infinities is a normal float. -/
def decode (node : TagNode) : Float :=
  let tag := node.tag.toNat
  let sign := node.payload.toNat / 0x80000000
  let high := node.payload.toNat % 0x80000000
  let exponent := tag % 256
  if exponent = 0 then Float.ofBits 0
  else if tag = 0xFFFF ∧ high = 0x7FFFFFFF then assemble sign 2047 0
  else
    let mantissa := high * 256 + tag / 256
    assemble sign (exponent + 894) (mantissa * 0x2000)

/-- The quotient of `n` by the `k`-th power of two, rounded to the nearest integer, a tie going to
the even one.
-/
def roundQuotient (n k : Nat) : Nat :=
  let quotient := n / Nat.pow 2 k
  let rest := n % Nat.pow 2 k
  let half := Nat.pow 2 k / 2
  if half < rest ∨ (rest = half ∧ quotient % 2 = 1) then quotient + 1 else quotient

/-- The node of a float, with the mantissa rounded. What is too large becomes an infinity; what is
too small becomes zero, and so does NaN. The exponent stands right above the mantissa in
`magnitude`, so a mantissa that rounds up to the next power of two carries into it.
-/
def encode (x : Float) : TagNode :=
  let bits := x.toBits.toNat
  let sign := bits / 0x8000000000000000
  let exponent := bits / 0x10000000000000 % 0x800
  let fraction := bits % 0x10000000000000
  if exponent = 2047 then if fraction = 0 then infinity sign else zero
  else if exponent = 0 then zero
  else
    let magnitude := exponent * 0x8000000000 + roundQuotient fraction 13
    let power := magnitude / 0x8000000000
    let mantissa := magnitude % 0x8000000000
    if power < 895 then zero
    else if 1149 < power then infinity sign
    else
      ⟨UInt16.ofNat (power - 894 + mantissa % 256 * 256),
        UInt32.ofNat (sign * 0x80000000 + mantissa / 256)⟩

end Real48

end TaskMachine

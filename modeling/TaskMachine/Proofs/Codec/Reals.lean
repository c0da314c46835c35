import TaskMachine.Proofs.Codec.Rounding
import TaskMachine.Proofs.Float.Nearest

/-!
The 48-bit reals as numbers. A float is stored as the nearest number with 40 significant binary digits,
which may carry it into the next power of two, to zero or to an infinity; and every real with an exponent
is the stored form of the float that it stands for.
-/

namespace TaskMachine

namespace Real48

variable {x : Float}

-----------------------------------------------------------------------------------------
-- The floats that nodes stand for
-----------------------------------------------------------------------------------------

/-- A float has the fields that it was assembled from, unless they are those of a NaN. -/
theorem fields_assemble {sign exponent fraction : Nat} (bit : sign < 2) (short : exponent < 2048)
    (small : fraction < 0x10000000000000) (number : exponent ≠ 2047 ∨ fraction = 0)
    : Float.signBit (assemble sign exponent fraction) = sign
      ∧ Float.exponentBits (assemble sign exponent fraction) = exponent
      ∧ Float.fractionBits (assemble sign exponent fraction) = fraction := by
  have bits := toBits_assemble bit short small number
  refine ⟨?_, ?_, ?_⟩
  · rw [Float.signBit, bits]
    omega
  · rw [Float.exponentBits, bits]
    omega
  · rw [Float.fractionBits, bits]
    omega

/-- The number of 40 digits that a node with these fields stands for, where `power` has the bias of
floats.
-/
def number (power mantissa : Nat) : ℚ :=
  (0x8000000000 + mantissa : Nat) * 2 ^ ((power : Int) - 1062)

/-- A node that is not the one of an infinity stands for the number of its fields. -/
theorem value_of_node {sign exponent mantissa : Nat} (bit : sign < 2) (some : 1 ≤ exponent)
    (short : exponent ≤ 255) (small : mantissa < 0x8000000000)
    (finite : ¬ (exponent = 255 ∧ mantissa = 0x7FFFFFFFFF))
    : (decode (node sign exponent mantissa)).isFinite = true
      ∧ Float.magnitude (decode (node sign exponent mantissa)) = number (exponent + 894) mantissa
      ∧ Float.signBit (decode (node sign exponent mantissa)) = sign := by
  have normal : exponent + 894 ≠ 2047 := by omega
  obtain ⟨signBit, exponentBits, fractionBits⟩ :=
    @fields_assemble sign (exponent + 894) (mantissa * 0x2000) bit (by omega) (by omega) (.inl normal)
  rw [decode_node bit some short small finite]
  refine ⟨(Float.kinds _).2.2.mpr (by rwa [exponentBits]), ?_, signBit⟩
  rw [Float.magnitude_of_exponentBits_ne_zero (by omega), exponentBits, fractionBits, number]
  have unit : ((exponent + 894 : Nat) : Int) - 1062
      = ((exponent + 894 : Nat) : Int) - 1075 + (13 : Nat) := by
    push_cast
    ring
  rw [unit, zpow_add₀ two_ne_zero, zpow_natCast]
  push_cast
  ring

-----------------------------------------------------------------------------------------
-- The nodes of floats
-----------------------------------------------------------------------------------------

/-- The exponent and the rounded mantissa of a float as one number, in which the mantissa carries into
the exponent.
-/
def carried (x : Float) : Nat :=
  Float.exponentBits x * 0x8000000000 + roundQuotient (Float.fractionBits x) 13

/-- The exponent of a float after rounding. -/
def power (x : Float) : Nat :=
  carried x / 0x8000000000

/-- The mantissa of a float after rounding. -/
def mantissa (x : Float) : Nat :=
  carried x % 0x8000000000

private theorem mantissa_lt (x : Float) : mantissa x < 0x8000000000 :=
  Nat.mod_lt _ (by omega)

private theorem encode_full (full : Float.exponentBits x = 2047)
    : encode x = if Float.fractionBits x = 0 then infinity (Float.signBit x) else zero := by
  have exponent : x.toBits.toNat / 0x10000000000000 % 0x800 = 2047 := full
  simp only [encode, exponent, if_true]
  rfl

private theorem encode_subnormal (none : Float.exponentBits x = 0) : encode x = zero := by
  have exponent : x.toBits.toNat / 0x10000000000000 % 0x800 = 0 := none
  simp [encode, exponent]

private theorem encode_normal (some : Float.exponentBits x ≠ 0) (normal : Float.exponentBits x ≠ 2047)
    : encode x
      = if power x < 895 then zero
        else if 1149 < power x then infinity (Float.signBit x)
        else node (Float.signBit x) (power x - 894) (mantissa x) := by
  have notFull : ¬ x.toBits.toNat / 0x10000000000000 % 0x800 = 2047 := normal
  have notNone : ¬ x.toBits.toNat / 0x10000000000000 % 0x800 = 0 := some
  simp only [encode, notFull, notNone, if_false]
  rfl

/-- Rounding the fraction rounds the whole mantissa, of which the leading one is a multiple of the unit
that is kept.
-/
theorem roundQuotient_leading (fraction : Nat)
    : roundQuotient (0x10000000000000 + fraction) 13 = 0x8000000000 + roundQuotient fraction 13 := by
  have unit : Nat.pow 2 13 = 0x2000 := rfl
  simp only [roundQuotient, unit]
  have quotient : (0x10000000000000 + fraction) / 0x2000 = 0x8000000000 + fraction / 0x2000 := by omega
  have rest : (0x10000000000000 + fraction) % 0x2000 = fraction % 0x2000 := by omega
  have parity : (0x8000000000 + fraction / 0x2000) % 2 = fraction / 0x2000 % 2 := by omega
  rw [quotient, rest, parity]
  split <;> omega

/-- A mantissa that is rounded up to the next power of two is the least one there. -/
theorem number_carried (x : Float)
    : number (power x) (mantissa x)
      = (0x8000000000 + roundQuotient (Float.fractionBits x) 13 : Nat)
        * 2 ^ ((Float.exponentBits x : Int) - 1062) := by
  have small := Float.fractionBits_lt x
  have upper : Float.fractionBits x < 2 ^ 39 * 2 ^ 13 := by omega
  have bound : roundQuotient (Float.fractionBits x) 13 ≤ 2 ^ 39 := roundQuotient_le upper
  rcases Nat.lt_or_eq_of_le bound with less | carry
  · have same : power x = Float.exponentBits x := by
      rw [power, carried]
      omega
    have rest : mantissa x = roundQuotient (Float.fractionBits x) 13 := by
      rw [mantissa, carried]
      omega
    rw [number, same, rest]
  · have next : power x = Float.exponentBits x + 1 := by
      rw [power, carried]
      omega
    have rest : mantissa x = 0 := by
      rw [mantissa, carried]
      omega
    have unit : ((Float.exponentBits x + 1 : Nat) : Int) - 1062
        = (Float.exponentBits x : Int) - 1062 + 1 := by
      push_cast
      ring
    rw [number, next, rest, carry, unit, zpow_add_one₀ two_ne_zero]
    push_cast
    ring

/-- A float with a leading one is rounded to the number of its rounded fields. -/
theorem rounds_normal (some : Float.exponentBits x ≠ 0)
    : Rounds 40 (Float.magnitude x) (number (power x) (mantissa x)) := by
  have small := Float.fractionBits_lt x
  have lower : 2 ^ (40 - 1) * 2 ^ 13 ≤ 0x10000000000000 + Float.fractionBits x := by omega
  have upper : 0x10000000000000 + Float.fractionBits x < 2 ^ 40 * 2 ^ 13 := by omega
  have rounds := rounds_roundQuotient (by omega) (by omega) lower upper
    ((Float.exponentBits x : Int) - 1075)
  have unit : (Float.exponentBits x : Int) - 1075 + (13 : Nat) = (Float.exponentBits x : Int) - 1062 := by
    push_cast
    ring
  rw [roundQuotient_leading, unit] at rounds
  rw [Float.magnitude_of_exponentBits_ne_zero some, number_carried]
  exact rounds

/-- What is rounded to less than the least real is stored as zero. -/
theorem number_lt_iff {power mantissa : Nat} (small : mantissa < 0x8000000000)
    : number power mantissa < 2 ^ (-128 : Int) ↔ power < 895 := by
  have least : (2 : ℚ) ^ (-128 : Int) = (0x8000000000 : Nat) * 2 ^ (-167 : Int) := by norm_num
  constructor
  · intro less
    by_contra many
    have unit : (2 : ℚ) ^ (-167 : Int) ≤ 2 ^ ((power : Int) - 1062) :=
      zpow_le_zpow_right₀ one_le_two (by omega)
    have above : (2 : ℚ) ^ (-128 : Int) ≤ number power mantissa := by
      rw [least, number]
      gcongr
      omega
    linarith
  · intro few
    have unit : (2 : ℚ) ^ ((power : Int) - 1062) ≤ 2 ^ (-168 : Int) :=
      zpow_le_zpow_right₀ one_le_two (by omega)
    calc number power mantissa ≤ (0x8000000000 + mantissa : Nat) * 2 ^ (-168 : Int) := by
          rw [number]
          gcongr
      _ < (0x10000000000 : Nat) * 2 ^ (-168 : Int) := by
          gcongr
          omega
      _ = 2 ^ (-128 : Int) := by norm_num

/-- What is rounded to the number that the greatest node would stand for, or to more, is stored as an
infinity.
-/
theorem le_number_iff {power mantissa : Nat} (small : mantissa < 0x8000000000)
    : (2 - 2 ^ (-39 : Int)) * 2 ^ 126 ≤ number power mantissa
      ↔ 1149 < power ∨ (power = 1149 ∧ mantissa = 0x7FFFFFFFFF) := by
  have greatest : ((2 : ℚ) - 2 ^ (-39 : Int)) * 2 ^ 126 = (0xFFFFFFFFFF : Nat) * 2 ^ (87 : Int) := by
    norm_num
  rw [greatest]
  rcases Nat.lt_trichotomy power 1149 with less | rfl | greater
  · have unit : (2 : ℚ) ^ ((power : Int) - 1062) ≤ 2 ^ (86 : Int) :=
      zpow_le_zpow_right₀ one_le_two (by omega)
    have below : number power mantissa < (0xFFFFFFFFFF : Nat) * 2 ^ (87 : Int) := by
      calc number power mantissa ≤ (0x8000000000 + mantissa : Nat) * 2 ^ (86 : Int) := by
            rw [number]
            gcongr
        _ < (0x10000000000 : Nat) * 2 ^ (86 : Int) := by
            gcongr
            omega
        _ ≤ (0xFFFFFFFFFF : Nat) * 2 ^ (87 : Int) := by norm_num
    simp only [not_le.mpr below, false_iff]
    omega
  · have unit : ((1149 : Nat) : Int) - 1062 = 87 := by norm_num
    rw [number, unit, mul_le_mul_iff_of_pos_right (by positivity), Nat.cast_le]
    omega
  · have unit : (2 : ℚ) ^ (88 : Int) ≤ 2 ^ ((power : Int) - 1062) :=
      zpow_le_zpow_right₀ one_le_two (by omega)
    have above : (0xFFFFFFFFFF : Nat) * (2 : ℚ) ^ (87 : Int) ≤ number power mantissa := by
      calc (0xFFFFFFFFFF : Nat) * (2 : ℚ) ^ (87 : Int)
        _ ≤ (0x8000000000 : Nat) * 2 ^ (88 : Int) := by norm_num
        _ ≤ number power mantissa := by
            rw [number]
            gcongr
            omega
    simp only [above, true_iff]
    omega

-----------------------------------------------------------------------------------------
-- Correct rounding
-----------------------------------------------------------------------------------------

/-- The only node of an infinity among those with fields in range is the greatest one. -/
theorem node_ne_infinity {sign exponent mantissa : Nat} (short : exponent ≤ 255)
    (small : mantissa < 0x8000000000) (finite : ¬ (exponent = 255 ∧ mantissa = 0x7FFFFFFFFF)) (other : Nat)
    : node sign exponent mantissa ≠ infinity other := by
  intro same
  have tag := congrArg (·.tag.toNat) same
  have payload := congrArg (·.payload.toNat) same
  have all : (0xFFFF : UInt16).toNat = 0xFFFF := rfl
  simp only [node, infinity, UInt16.toNat_ofNat', UInt32.toNat_ofNat', all] at tag payload
  omega

/-- A float without a leading one is too small to be stored, however it is rounded. -/
theorem rounds_subnormal (none : Float.exponentBits x = 0)
    : ∃ r, Rounds 40 (Float.magnitude x) r ∧ r < 2 ^ (-128 : Int) := by
  have small : (Float.fractionBits x : ℚ) < 0x10000000000000 := by
    exact_mod_cast Float.fractionBits_lt x
  rw [Float.magnitude_of_exponentBits_eq_zero none]
  have several : 1 < 40 := by omega
  obtain ⟨r, rounds⟩ := exists_rounds several (Float.fractionBits x) (-1074)
  refine ⟨r, rounds, ?_⟩
  calc r ≤ 2 * (Float.fractionBits x * 2 ^ (-1074 : Int)) := rounds.le_double (by positivity)
    _ < 2 * (0x10000000000000 * 2 ^ (-1074 : Int)) := by gcongr
    _ = 2 ^ (-1021 : Int) := by
        have leading : (0x10000000000000 : ℚ) = 2 ^ (52 : Int) := by norm_num
        rw [leading, ← zpow_add₀ two_ne_zero, ← zpow_one_add₀ two_ne_zero]
        rfl
    _ < 2 ^ (-128 : Int) := zpow_lt_zpow_right₀ one_lt_two (by omega)

/-- Every finite float has a rounded magnitude, and the node that it is stored as depends on the size of
that one only.
-/
theorem encode_finite (finite : Float.exponentBits x ≠ 2047)
    : ∃ r,
        Rounds 40 (Float.magnitude x) r
        ∧ (r < 2 ^ (-128 : Int) → encode x = zero)
        ∧ ((2 - 2 ^ (-39 : Int)) * 2 ^ 126 ≤ r → encode x = infinity (Float.signBit x))
        ∧ (2 ^ (-128 : Int) ≤ r
            → r < (2 - 2 ^ (-39 : Int)) * 2 ^ 126
            → (∀ sign, encode x ≠ infinity sign)
              ∧ (decode (encode x)).isFinite = true
              ∧ Float.magnitude (decode (encode x)) = r
              ∧ Float.signBit (decode (encode x)) = Float.signBit x) := by
  by_cases none : Float.exponentBits x = 0
  · obtain ⟨r, rounds, tiny⟩ := rounds_subnormal none
    have huge : ((2 : ℚ) ^ (-128 : Int)) < (2 - 2 ^ (-39 : Int)) * 2 ^ 126 := by norm_num
    refine ⟨r, rounds, fun _ => encode_subnormal none, ?_, ?_⟩
    · intro great
      linarith
    · intro enough
      linarith
  · have small := mantissa_lt x
    have bit := Float.signBit_lt x
    refine ⟨_, rounds_normal none, ?_, ?_, ?_⟩
    · intro tiny
      rw [encode_normal none finite, if_pos ((number_lt_iff small).mp tiny)]
    · intro huge
      rw [encode_normal none finite]
      rcases (le_number_iff small).mp huge with above | ⟨greatest, all⟩
      · rw [if_neg (by omega), if_pos above]
      · -- the node with all bits of exponent and mantissa is the one of an infinity
        rw [if_neg (by omega), if_neg (by omega), greatest, all]
        rfl
    · intro enough limited
      have some : ¬ power x < 895 := fun few => absurd ((number_lt_iff small).mpr few) (not_lt.mpr enough)
      have unlike : ¬ (1149 < power x ∨ (power x = 1149 ∧ mantissa x = 0x7FFFFFFFFF)) :=
        fun great => absurd ((le_number_iff small).mpr great) (not_le.mpr limited)
      rw [encode_normal none finite, if_neg some, if_neg (by omega)]
      obtain ⟨isFinite, magnitude, sign⟩ :=
        @value_of_node _ (power x - 894) _ bit (by omega) (by omega) small (by omega)
      refine ⟨node_ne_infinity (by omega) small (by omega), isFinite, ?_, sign⟩
      rw [magnitude]
      congr 1
      omega

/-- Every float is stored correctly rounded. The magnitude of a finite one is rounded to 40 significant
binary digits, which gives a single number. If that is below the least real, or the float is zero, the
node of zero is stored, and if it is not below the number that the greatest node would stand for, the
node of an infinity with the sign of the float. Otherwise the stored node is a real other than these that
stands for just the rounded number with the sign of the float. NaN is stored as zero, and an infinity as
itself.
-/
theorem encode_correctly_rounded (x : Float)
    : (x.isNaN = true → encode x = zero)
      ∧ (x.isInf = true → encode x = infinity (Float.signBit x))
      ∧ (x.isFinite = true
          → ∃ r,
              (∀ s, Rounds 40 (Float.magnitude x) s ↔ s = r)
              ∧ (Float.magnitude x = 0 ∨ r < 2 ^ (-128 : Int) → encode x = zero)
              ∧ ((2 - 2 ^ (-39 : Int)) * 2 ^ 126 ≤ r → encode x = infinity (Float.signBit x))
              ∧ (2 ^ (-128 : Int) ≤ r
                  → r < (2 - 2 ^ (-39 : Int)) * 2 ^ 126
                  → (encode x).isReal = true
                    ∧ (∀ sign, encode x ≠ infinity sign)
                    ∧ (decode (encode x)).isFinite = true
                    ∧ Float.magnitude (decode (encode x)) = r
                    ∧ Float.signBit (decode (encode x)) = Float.signBit x)) := by
  obtain ⟨isNaN, isInf, isFinite⟩ := Float.kinds x
  refine ⟨?_, ?_, ?_⟩
  · intro nan
    obtain ⟨full, some⟩ := isNaN.mp nan
    rw [encode_full full, if_neg some]
  · intro infinite
    obtain ⟨full, none⟩ := isInf.mp infinite
    rw [encode_full full, if_pos none]
  · intro finite
    obtain ⟨r, rounds, tiny, huge, exact⟩ := encode_finite (isFinite.mp finite)
    refine ⟨r, ?_, ?_, huge, ?_⟩
    · intro s
      constructor
      · exact fun others => others.unique (by omega) rounds
      · intro same
        rwa [same]
    · intro small
      rcases small with none | less
      · have double := rounds.le_double (by rw [none])
        have positive : (0 : ℚ) < 2 ^ (-128 : Int) := by positivity
        rw [none] at double
        exact tiny (by linarith)
      · exact tiny less
    · exact fun enough limited => ⟨isReal_encode x, exact enough limited⟩

/-- The greatest float below two is rounded to two. -/
theorem encode_below_two
    : (∀ s, Rounds 40 (Float.magnitude (Float.ofBits 0x3FFFFFFFFFFFFFFF)) s ↔ s = 2)
      ∧ encode (Float.ofBits 0x3FFFFFFFFFFFFFFF) = ⟨0x0082, 0⟩ := by
  have node : encode (Float.ofBits 0x3FFFFFFFFFFFFFFF) = ⟨0x0082, 0⟩ := by decide
  obtain ⟨r, rounds, tiny, huge, exact⟩ :=
    (encode_correctly_rounded (Float.ofBits 0x3FFFFFFFFFFFFFFF)).2.2 (by decide)
  have enough : 2 ^ (-128 : Int) ≤ r := by
    by_contra less
    have zero := tiny (.inr (not_le.mp less))
    rw [node] at zero
    cases zero
  have limited : r < (2 - 2 ^ (-39 : Int)) * 2 ^ 126 := by
    by_contra great
    have infinite := huge (not_lt.mp great)
    rw [node] at infinite
    revert infinite
    decide
  obtain ⟨-, -, -, value, -⟩ := exact enough limited
  have two : r = 2 := by
    rw [← value, node]
    have bits : Float.exponentBits (decode ⟨0x0082, 0⟩) = 1024 := by decide
    have fraction : Float.fractionBits (decode ⟨0x0082, 0⟩) = 0 := by decide
    rw [Float.magnitude_of_exponentBits_ne_zero (by omega), bits, fraction]
    norm_num
  exact ⟨two ▸ rounds, node⟩

-----------------------------------------------------------------------------------------
-- Reals that are read and stored again
-----------------------------------------------------------------------------------------

private theorem toNat_low (node : TagNode) : (node.tag &&& 0xFF).toNat = node.tag.toNat % 256 := by
  rw [UInt16.toNat_and]
  exact Nat.and_two_pow_sub_one_eq_mod _ 8

/-- Every node with an exponent has fields in range. -/
theorem exists_fields {n : TagNode} (some : n.tag &&& 0xFF ≠ 0)
    : ∃ sign exponent mantissa,
        sign < 2 ∧ 1 ≤ exponent ∧ exponent ≤ 255 ∧ mantissa < 0x8000000000
        ∧ n = node sign exponent mantissa := by
  have low : n.tag.toNat % 256 ≠ 0 := by
    intro none
    exact some (UInt16.toNat_inj.mp (by rw [toNat_low, none]; rfl))
  obtain ⟨tag, payload⟩ := n
  have tagBound := tag.toNat_lt
  have payloadBound := payload.toNat_lt
  dsimp only at low
  refine ⟨payload.toNat / 0x80000000, tag.toNat % 256,
    payload.toNat % 0x80000000 * 256 + tag.toNat / 256, by omega, by omega, by omega, by omega, ?_⟩
  simp only [node, TagNode.mk.injEq]
  constructor
  · apply UInt16.toNat_inj.mp
    rw [UInt16.toNat_ofNat']
    omega
  · apply UInt32.toNat_inj.mp
    rw [UInt32.toNat_ofNat']
    omega

/-- Every real with an exponent, the infinities among them, is the stored form of the float that it
stands for, bit for bit. Any other node is read as positive zero and stored as the node of zero. So the
floats of two different reals with exponents differ in some bit.
-/
theorem encode_decode_normalized
    : (∀ n : TagNode, n.tag &&& 0xFF ≠ 0 → encode (decode n) = n)
      ∧ (∀ n : TagNode, n.tag &&& 0xFF = 0 → (decode n).toBits = 0 ∧ encode (decode n) = ⟨0, 0⟩)
      ∧ Set.InjOn (fun n => (decode n).toBits) {n : TagNode | n.tag &&& 0xFF ≠ 0} := by
  have kept (n : TagNode) (some : n.tag &&& 0xFF ≠ 0) : encode (decode n) = n := by
    obtain ⟨sign, exponent, mantissa, bit, positive, short, small, same⟩ := exists_fields some
    rw [same, encode_decode_node bit positive short small]
  refine ⟨kept, ?_, ?_⟩
  · intro n none
    have zero : decode n = Float.ofBits 0 := by
      have low : n.tag.toNat % 256 = 0 := by
        rw [← toNat_low, none]
        rfl
      simp only [decode, low, if_true]
    rw [zero]
    decide
  · intro n some n' some' same
    have float : decode n = decode n' := Float.eq_of_toBits same
    rw [← kept n some, float, kept n' some']

/-- The greatest real below the infinities with a negative sign, both infinities, and a node without an
exponent.
-/
theorem encode_decode_greatest
    : encode (decode ⟨0xFEFF, 0xFFFFFFFF⟩) = ⟨0xFEFF, 0xFFFFFFFF⟩
      ∧ encode (decode ⟨0xFFFF, 0x7FFFFFFF⟩) = ⟨0xFFFF, 0x7FFFFFFF⟩
      ∧ encode (decode ⟨0xFFFF, 0xFFFFFFFF⟩) = ⟨0xFFFF, 0xFFFFFFFF⟩
      ∧ (decode ⟨0xFF00, 0x80001234⟩).toBits = 0
      ∧ (decode ⟨0xFFFF, 0x7FFFFFFF⟩).toBits ≠ (decode ⟨0xFFFF, 0xFFFFFFFF⟩).toBits := by
  obtain ⟨kept, none, distinct⟩ := encode_decode_normalized
  refine ⟨kept _ (by decide), kept _ (by decide), kept _ (by decide), (none _ (by decide)).1, ?_⟩
  intro same
  have nodes := distinct (by decide) (by decide) same
  revert nodes
  decide

end Real48
end TaskMachine

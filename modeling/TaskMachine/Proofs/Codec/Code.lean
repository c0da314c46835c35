import TaskMachine.ObjectFile.Reader

/-!
Stored code. An instruction is four bytes and four bytes are at most one instruction, so stored code
that is accepted is nothing but the bytes of its instructions.
-/

namespace TaskMachine

private theorem Opcode.ofByte?_eq_some {b : UInt8} {op : Opcode}
    : Opcode.ofByte? b = some op ↔ b = op.toByte := by
  constructor
  · intro found
    obtain ⟨inside, -⟩ := List.getElem?_eq_some_iff.mp found
    simp only [List.length_cons, List.length_nil] at inside
    have cases : b.toNat = 0 ∨ b.toNat = 1 ∨ b.toNat = 2 ∨ b.toNat = 3 ∨ b.toNat = 4
        ∨ b.toNat = 5 ∨ b.toNat = 6 ∨ b.toNat = 7 ∨ b.toNat = 8 ∨ b.toNat = 9 := by omega
    unfold Opcode.ofByte? at found
    rcases cases with n | n | n | n | n | n | n | n | n | n
    all_goals
      rw [n] at found
      cases found
      exact UInt8.toNat.inj n
  · intro same
    subst same
    cases op <;> rfl

namespace Instruction

private theorem toNat_operand (low high : UInt8)
    : (low.toUInt16 ||| (high.toUInt16 <<< 8)).toNat = low.toNat + 256 * high.toNat := by
  have small := low.toNat_lt
  have high_small := high.toNat_lt
  have shifted : high.toNat <<< 8 + low.toNat = high.toNat <<< 8 ||| low.toNat :=
    Nat.shiftLeft_add_eq_or_of_lt small _
  have fits : high.toNat <<< 8 % 2 ^ 16 = high.toNat <<< 8 := by
    rw [Nat.shiftLeft_eq]
    omega
  have amount : (8 : UInt16).toNat % 16 = 8 := rfl
  rw [UInt16.toNat_or, UInt16.toNat_shiftLeft, UInt8.toNat_toUInt16, UInt8.toNat_toUInt16, amount,
    fits, Nat.or_comm, ← shifted, Nat.shiftLeft_eq]
  omega

/-- Four bytes stand for an instruction if they are its bytes. -/
theorem ofBytes?_eq_some {opcode minor low high : UInt8} {i : Instruction}
    : ofBytes? opcode minor low high = some i ↔ i.toBytes = [opcode, minor, low, high] := by
  have low_small := low.toNat_lt
  have high_small := high.toNat_lt
  have number := toNat_operand low high
  simp only [ofBytes?, Option.map_eq_some_iff, Opcode.ofByte?_eq_some, toBytes, List.cons.injEq,
    and_true]
  constructor
  · intro given
    obtain ⟨op, rfl, rfl⟩ := given
    refine ⟨rfl, rfl, ?_, ?_⟩
    · apply UInt8.toNat.inj
      rw [UInt16.toNat_toUInt8, number]
      omega
    · apply UInt8.toNat.inj
      rw [UInt16.toNat_toUInt8, UInt16.toNat_shiftRight, number, Nat.shiftRight_eq_div_pow]
      have amount : (8 : UInt16).toNat % 16 = 8 := rfl
      rw [amount]
      omega
  · intro given
    obtain ⟨rfl, rfl, rfl, rfl⟩ := given
    refine ⟨i.opcode, rfl, ?_⟩
    have same : i.operand.toUInt8.toUInt16 ||| ((i.operand >>> 8).toUInt8.toUInt16 <<< 8)
        = i.operand := by
      apply UInt16.toNat.inj
      have operand_small := i.operand.toNat_lt
      have amount : (8 : UInt16).toNat % 16 = 8 := rfl
      rw [toNat_operand, UInt16.toNat_toUInt8, UInt16.toNat_toUInt8, UInt16.toNat_shiftRight, amount,
        Nat.shiftRight_eq_div_pow]
      omega
    rw [same]

theorem length_toBytes (i : Instruction) : i.toBytes.length = 4 :=
  rfl

theorem length_flatMap_toBytes (code : List Instruction)
    : (code.flatMap toBytes).length = 4 * code.length := by
  induction code with
  | nil => rfl
  | cons i code ih =>
      rw [List.flatMap_cons, List.length_append, length_toBytes, ih, List.length_cons]
      omega

end Instruction

namespace Restoring

/-- Bytes are read as instructions if they are the bytes of those, by induction on the instructions
in one direction and by the recursion of reading in the other.
-/
theorem instructions_eq_ok {done all : List Instruction} {bytes : Bytes}
    : instructions done bytes = .ok all
      ↔ ∃ code : List Instruction,
          bytes = code.flatMap Instruction.toBytes ∧ all = code.reverse ++ done := by
  constructor
  · intro read
    fun_induction instructions done bytes with
    | case1 done =>
        cases read
        exact ⟨[], rfl, rfl⟩
    | case2 done opcode minor low high rest i found ih =>
        obtain ⟨code, rfl, rfl⟩ := ih read
        refine ⟨i :: code, ?_, by simp⟩
        rw [List.flatMap_cons, Instruction.ofBytes?_eq_some.mp found]
        rfl
    | case3 => cases read
    | case4 => cases read
  · intro given
    obtain ⟨code, rfl, rfl⟩ := given
    induction code generalizing done with
    | nil => rfl
    | cons i code ih =>
        have parsed : Instruction.ofBytes? i.opcode.toByte i.minor i.operand.toUInt8
            (i.operand >>> 8).toUInt8 = some i := Instruction.ofBytes?_eq_some.mpr rfl
        rw [List.flatMap_cons, Instruction.toBytes]
        simp only [List.cons_append, List.nil_append, instructions, parsed, ih]
        simp

/-- Code is told by its bytes. -/
theorem flatMap_toBytes_injective {code code' : List Instruction}
    (bytes : code.flatMap Instruction.toBytes = code'.flatMap Instruction.toBytes)
    : code = code' := by
  have read : instructions [] (code.flatMap Instruction.toBytes) = .ok code.reverse :=
    instructions_eq_ok.mpr ⟨code, rfl, (List.append_nil _).symm⟩
  have read' : instructions [] (code.flatMap Instruction.toBytes) = .ok code'.reverse :=
    instructions_eq_ok.mpr ⟨code', bytes, (List.append_nil _).symm⟩
  rw [read] at read'
  exact List.reverse_inj.mp (Except.ok.inj read')

/-- Code is read in pieces of four bytes if it consists of these. -/
theorem code_of_aligned {bytes : Bytes} (aligned : bytes.length % 4 = 0)
    : Restoring.code bytes
      = match instructions [] bytes with
        | .ok all =>
          match all.reverse.toArray.find? (isBadJump all.reverse.toArray.size) with
          | some i => .error (.badFormat s!"invalid jump '{i.text}'")
          | none => .ok all.reverse.toArray
        | .error f => .error f := by
  simp only [Restoring.code, aligned, bne_self_eq_false, Bool.false_eq_true, if_false]
  cases instructions [] bytes <;> rfl

/-- Stored code is accepted if it is the bytes of instructions whose jumps can be executed. -/
theorem code_eq_ok {bytes : Bytes} {code : Array Instruction}
    : Restoring.code bytes = .ok code
      ↔ bytes = code.toList.flatMap Instruction.toBytes
        ∧ ∀ i ∈ code, isBadJump code.size i = false := by
  by_cases aligned : bytes.length % 4 = 0
  · rw [code_of_aligned aligned]
    constructor
    · intro accepted
      split at accepted
      · rename_i all parsed
        split at accepted
        · cases accepted
        · rename_i good
          cases accepted
          obtain ⟨listed, rfl, rfl⟩ := instructions_eq_ok.mp parsed
          rw [Array.find?_eq_none] at good
          exact ⟨by simp, fun i member => by simpa using good i member⟩
      · cases accepted
    · intro given
      obtain ⟨rfl, good⟩ := given
      have parsed : instructions [] (code.toList.flatMap Instruction.toBytes)
          = .ok code.toList.reverse := instructions_eq_ok.mpr ⟨code.toList, rfl, by simp⟩
      have none : code.find? (isBadJump code.size) = none := by
        simpa [Array.find?_eq_none] using good
      simp only [parsed, List.reverse_reverse, Array.toArray_toList, none]
  · have refused : Restoring.code bytes = .error (.badFormat "truncated code") := by
      have ragged : (bytes.length % 4 != 0) = true := by simpa using aligned
      simp only [Restoring.code, ragged, if_true]
      rfl
    rw [refused]
    constructor
    · intro accepted
      cases accepted
    · intro given
      obtain ⟨rfl, -⟩ := given
      rw [Instruction.length_flatMap_toBytes] at aligned
      omega

end Restoring
end TaskMachine

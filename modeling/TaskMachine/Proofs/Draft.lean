import Mathlib.Logic.Relation
import TaskMachine.Draft
import TaskMachine.Proofs.Computation

/-!
What a finished routine is like. Every argument that a draft declares has a variable, no jump of a
finished routine is symbolic any more, and its tables are small enough for their numbers. Jumps that
were drafted with labels stay in the code.
-/

namespace TaskMachine

/-- The arguments of a routine are declared consistently and have their variables, the targets of its
jumps are places in the code, and its literals and lines can be counted in 32 bits.
-/
structure Routine.Sound (r : Routine) : Prop where
  args : r.minArgs ≤ r.maxArgs
  locals : r.maxArgs + r.isVarargs.toNat ≤ r.numLocals
  absolute : ∀ i ∈ r.code, i.isSymbolic = false
  literals : r.literals.size < 0x100000000
  lines : ∀ mark ∈ r.lines, mark.1 < 0x100000000 ∧ mark.2 < 0x100000000

namespace Draft

/-- One more entry in a draft. Source lines are numbered in 32 bits. -/
inductive Extends : Draft → Draft → Prop
  | localVariable {d : Draft} (name : String) : Extends d (d.addLocal name).2
  | argument {d : Draft} (name : String) (isOptional : Bool)
    : Extends d (d.addArgument name isOptional).2
  | varargs {d : Draft} (name : String) : Extends d (d.addVarargs name).2
  | literal {d : Draft} (v : Value) : Extends d (d.addLiteral v).2
  | name {d : Draft} (name : String) : Extends d (d.addName name).2
  | instruction {d : Draft} (i : Instruction) : Extends d (d.addInstruction i)
  | jump {d : Draft} (flags : UInt8) (label : UInt16) : Extends d (d.addJump flags label)
  | label {d : Draft} : Extends d d.makeLabel.2
  | placed {d d' : Draft} {label : UInt16} (placed : d.placeLabel label = .ok d') : Extends d d'
  | file {d : Draft} (fileName : String) : Extends d (d.setFileName fileName)
  | line {d : Draft} (line : Nat) (small : line < 0x100000000) : Extends d (d.addLine line)

/-- The draft has been made by adding entries to an empty one. -/
def Made (d : Draft) : Prop :=
  ∃ name isProcedure, Relation.ReflTransGen Extends { name, isProcedure } d

variable {d d' : Draft}

/-- The declarations of a draft are those of a sound routine, and its marks and labels are in the
code.
-/
structure Sound (d : Draft) : Prop where
  args : d.minArgs ≤ d.maxArgs
  locals : d.maxArgs + d.isVarargs.toNat ≤ d.localNames.size
  lines : ∀ mark ∈ d.lines, mark.1 ≤ d.code.size ∧ mark.2 < 0x100000000
  labels : ∀ pc, some pc ∈ d.labels → pc ≤ d.code.size

/-- Marks and labels stay in code that gets longer. -/
theorem Sound.addInstruction (sound : d.Sound) (i : Instruction) : (d.addInstruction i).Sound := by
  have longer : d.code.size ≤ (d.code.push i).size := by simp
  refine ⟨sound.args, sound.locals, fun mark member => ?_, fun pc placed => ?_⟩
  · obtain ⟨inside, small⟩ := sound.lines mark member
    exact ⟨Nat.le_trans inside longer, small⟩
  · exact Nat.le_trans (sound.labels pc placed) longer

theorem Sound.addLine (sound : d.Sound) {line : Nat} (small : line < 0x100000000)
    : (d.addLine line).Sound := by
  refine ⟨sound.args, sound.locals, fun mark member => ?_, sound.labels⟩
  simp only [Draft.addLine, Array.mem_push] at member
  rcases member with before | rfl
  · apply sound.lines mark
    -- a mark at the same place is replaced, all others are kept
    split at before
    · split at before
      · rw [← Array.mem_toList_iff, Array.toList_pop] at before
        exact Array.mem_toList_iff.mp (List.dropLast_subset _ before)
      · exact before
    · exact before
  · exact ⟨Nat.le_refl _, small⟩

/-- Each entry keeps the draft sound, by the kinds of entries. -/
theorem Extends.sound (extends_ : Extends d d') (sound : d.Sound) : d'.Sound := by
  have args := sound.args
  have locals := sound.locals
  cases extends_ with
  | localVariable name =>
      refine ⟨args, ?_, sound.lines, sound.labels⟩
      simp only [addLocal, Array.size_push]
      omega
  | argument name isOptional =>
      refine ⟨?_, ?_, sound.lines, sound.labels⟩
      · simp only [addArgument, addLocal]
        split <;> omega
      · simp only [addArgument, addLocal, Array.size_push]
        omega
  | varargs name =>
      refine ⟨args, ?_, sound.lines, sound.labels⟩
      have one := Bool.toNat_le d.isVarargs
      simp only [addVarargs, addLocal, Array.size_push, Bool.toNat_true]
      omega
  | literal | file => exact ⟨args, locals, sound.lines, sound.labels⟩
  | label =>
      refine ⟨args, locals, sound.lines, fun pc placed => ?_⟩
      simp only [makeLabel, Array.mem_push, reduceCtorEq, or_false] at placed
      exact sound.labels pc placed
  | instruction i => exact sound.addInstruction i
  | jump flags label => exact sound.addInstruction _
  | line line small => exact sound.addLine small
  | name name =>
      simp only [addName]
      split <;> exact ⟨args, locals, sound.lines, sound.labels⟩
  | placed placed =>
      simp only [placeLabel] at placed
      split at placed
      · cases placed
        refine ⟨args, locals, sound.lines, fun pc placed => ?_⟩
        rcases Array.mem_or_eq_of_mem_setIfInBounds placed with before | here
        · exact sound.labels pc before
        · exact Nat.le_of_eq (Option.some.inj here)
      · cases placed

/-- A draft is sound however it was made. -/
theorem Made.sound (made : d.Made) : d.Sound := by
  obtain ⟨name, isProcedure, entries⟩ := made
  induction entries with
  | refl => exact ⟨Nat.le_refl _, Nat.le_refl _, by simp, by simp⟩
  | tail _ last ih => exact last.sound ih

/-- A resolved jump is not symbolic any more, and other instructions never were. -/
theorem isSymbolic_of_resolve {labels : Array (Option Nat)} {i i' : Instruction}
    (resolved : resolve labels i = .ok i')
    : i'.isSymbolic = false := by
  simp only [resolve] at resolved
  split at resolved
  · split at resolved
    · cases resolved
      have cleared : ~~~Jump.symbolic &&& Jump.symbolic = 0 := rfl
      simp [Instruction.isSymbolic, Jump.has, UInt8.and_assoc, cleared]
    · cases resolved
  · rename_i plain
    cases resolved
    simpa using plain

/-- A jump that was drafted with a label goes to the place of the label. -/
theorem target_of_resolve {labels : Array (Option Nat)} {i i' : Instruction}
    (symbolic : i.isSymbolic = true) (resolved : resolve labels i = .ok i')
    : ∃ pc, some pc ∈ labels ∧ i'.operand = UInt16.ofNat pc := by
  simp only [resolve, symbolic, if_true] at resolved
  split at resolved
  · rename_i pc placed
    cases resolved
    exact ⟨pc, Array.mem_of_getElem? (Option.join_eq_some_iff.mp placed), rfl⟩
  · cases resolved

/-- Labels are replaced in operands only. -/
theorem opcode_of_resolve {labels : Array (Option Nat)} {i i' : Instruction}
    (resolved : resolve labels i = .ok i')
    : i'.opcode = i.opcode := by
  simp only [resolve] at resolved
  split at resolved
  · split at resolved
    · cases resolved
      rfl
    · cases resolved
  · cases resolved
    rfl

/-- A table that is accepted has no more entries than numbers tell apart. -/
theorem checkTable_eq_ok {name table : String} {size : Nat} {u : Unit}
    : checkTable name table size = .ok u ↔ size ≤ maxEntries := by
  simp only [checkTable]
  split
  · rename_i few
    simp [few]
  · rename_i many
    simp [many]

/-- A draft is finished to a routine with its declarations and tables if none of these is too long and
all instructions are resolved.
-/
theorem finish_eq_ok_iff {r : Routine}
    : d.finish = .ok r
      ↔ (d.code.size ≤ maxCode ∧ d.localNames.size ≤ maxEntries ∧ d.literals.size ≤ maxEntries
          ∧ d.names.size ≤ maxEntries ∧ d.labels.size ≤ maxEntries)
        ∧ ∃ code : Array Instruction,
            List.Forall₂ (fun i i' => resolve d.labels i = .ok i') d.code.toList code.toList
            ∧ r
              = { name := d.name, isProcedure := d.isProcedure, isVarargs := d.isVarargs,
                  minArgs := d.minArgs, maxArgs := d.maxArgs, localNames := d.localNames,
                  names := d.names, code, literals := d.literals, fileName := d.fileName,
                  lines := d.lines } := by
  constructor
  · intro done
    simp only [finish] at done
    split at done
    · cases done
    rename_i short
    obtain ⟨_, locals, done⟩ := bind_eq_ok.mp done
    obtain ⟨_, literals, done⟩ := bind_eq_ok.mp done
    obtain ⟨_, names, done⟩ := bind_eq_ok.mp done
    obtain ⟨_, labels, done⟩ := bind_eq_ok.mp done
    obtain ⟨code, resolved, done⟩ := bind_eq_ok.mp done
    cases done
    rw [Array.mapM_eq_mapM_toList, map_eq_pure_bind] at resolved
    obtain ⟨code', resolvedAll, same⟩ := bind_eq_ok.mp resolved
    cases same
    exact ⟨⟨Nat.le_of_not_lt short, checkTable_eq_ok.mp locals, checkTable_eq_ok.mp literals,
      checkTable_eq_ok.mp names, checkTable_eq_ok.mp labels⟩, _, mapM_eq_ok.mp resolvedAll, rfl⟩
  · rintro ⟨⟨short, locals, literals, names, labels⟩, code, each, rfl⟩
    have resolved : d.code.mapM (resolve d.labels) = .ok code := by
      rw [Array.mapM_eq_mapM_toList, mapM_eq_ok.mpr each]
      rfl
    have fits (table : String) {size : Nat} (few : size ≤ maxEntries)
        : checkTable d.name table size = .ok () :=
      checkTable_eq_ok.mpr few
    simp only [finish, if_neg (Nat.not_lt.mpr short), fits _ locals, fits _ literals, fits _ names,
      fits _ labels, resolved]
    rfl

/-- A routine that a draft is finished to has the declarations of the draft, its tables, which are not
too long, and its code, resolved.
-/
theorem finish_eq_ok {r : Routine} (done : d.finish = .ok r)
    : (r.minArgs = d.minArgs ∧ r.maxArgs = d.maxArgs ∧ r.isVarargs = d.isVarargs
        ∧ r.localNames = d.localNames ∧ r.literals = d.literals ∧ r.lines = d.lines)
      ∧ (d.code.size ≤ maxCode ∧ d.literals.size ≤ maxEntries)
      ∧ List.Forall₂ (fun i i' => resolve d.labels i = .ok i') d.code.toList r.code.toList := by
  obtain ⟨⟨short, -, literals, -, -⟩, code, each, rfl⟩ := finish_eq_ok_iff.mp done
  exact ⟨⟨rfl, rfl, rfl, rfl, rfl, rfl⟩, ⟨short, literals⟩, each⟩

/-- Every routine that a draft is finished to is sound. -/
theorem Made.routineSound {r : Routine} (made : d.Made) (done : d.finish = .ok r) : r.Sound := by
  obtain ⟨⟨minArgs, maxArgs, isVarargs, localNames, literals, lines⟩, ⟨short, few⟩, resolved⟩ :=
    finish_eq_ok done
  have sound := made.sound
  rw [maxCode] at short
  rw [maxEntries] at few
  refine ⟨?_, ?_, ?_, ?_, ?_⟩
  · rw [minArgs, maxArgs]
    exact sound.args
  · rw [maxArgs, isVarargs, Routine.numLocals, localNames]
    exact sound.locals
  · intro i member
    obtain ⟨drafted, -, one⟩ := exists_of_mem_right resolved i (Array.mem_toList_iff.mpr member)
    exact isSymbolic_of_resolve one
  · rw [literals]
    omega
  · intro mark member
    rw [lines] at member
    obtain ⟨inside, small⟩ := sound.lines mark member
    exact ⟨by omega, small⟩

end Draft

/-- The routine has been finished from a draft in which every jump goes to a label. -/
def Routine.Composed (r : Routine) : Prop :=
  ∃ d : Draft, d.Made ∧ (∀ i ∈ d.code, i.opcode = .jump → i.isSymbolic = true) ∧ d.finish = .ok r

namespace Routine.Composed

variable {r : Routine}

/-- What is composed like a finished routine is sound. -/
theorem sound (composed : r.Composed) : r.Sound := by
  obtain ⟨d, made, -, done⟩ := composed
  exact made.routineSound done

theorem size_code_le (composed : r.Composed) : r.code.size ≤ 65535 := by
  obtain ⟨d, -, -, done⟩ := composed
  obtain ⟨-, ⟨short, -⟩, resolved⟩ := Draft.finish_eq_ok done
  have length : d.code.size = r.code.size := resolved.length_eq
  exact length ▸ short

/-- No jump leaves the code: each one goes to the place of a label, which is in the draft. -/
theorem jumps (composed : r.Composed) {i : Instruction} (member : i ∈ r.code)
    (jump : i.opcode = .jump)
    : i.operand.toNat ≤ r.code.size := by
  have short := composed.size_code_le
  obtain ⟨d, made, labelled, done⟩ := composed
  obtain ⟨-, -, resolved⟩ := Draft.finish_eq_ok done
  have length : d.code.size = r.code.size := resolved.length_eq
  obtain ⟨drafted, before, one⟩ := exists_of_mem_right resolved i (Array.mem_toList_iff.mpr member)
  have symbolic := labelled drafted (Array.mem_toList_iff.mp before)
    ((Draft.opcode_of_resolve one).symm.trans jump)
  obtain ⟨pc, placed, target⟩ := Draft.target_of_resolve symbolic one
  have inside := made.sound.labels pc placed
  rw [target, UInt16.toNat_ofNat', Nat.mod_eq_of_lt (by omega)]
  omega

end Routine.Composed
end TaskMachine

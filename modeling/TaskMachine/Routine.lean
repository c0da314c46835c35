import TaskMachine.Instruction
import TaskMachine.Value

/-!
Compiled routines: one procedure or function with its code, its tables of literals and names, and
the source lines of its instructions.
-/

namespace TaskMachine

/-- A compiled procedure or function. -/
structure Routine where
  name : String
  isProcedure : Bool
  /-- Surplus arguments are collected in an array. -/
  isVarargs : Bool
  minArgs : Nat
  maxArgs : Nat
  /-- The names of the local variables, arguments first. -/
  localNames : Array String
  /-- The names of globals and members that the code refers to. -/
  names : Array String
  code : Array Instruction
  literals : Array Value
  fileName : String
  /-- The source lines, each with the instruction that it starts at, in the order of the code. -/
  lines : Array (Nat × Nat)
deriving Inhabited

namespace Routine

def numLocals (r : Routine) : Nat :=
  r.localNames.size

def accepts (r : Routine) (count : Nat) : Bool :=
  r.minArgs ≤ count && (r.isVarargs || count ≤ r.maxArgs)

/-- The most arguments that the routine takes, if there is a limit. -/
def maxArguments (r : Routine) : Option Nat :=
  if r.isVarargs then none else some r.maxArgs

/-- Halves the range of `size` marks from `base` on and keeps the half that holds the last mark at
or before an instruction, until one mark is left.
-/
def lastMark (lines : Array (Nat × Nat)) (pc : Nat) : Nat → Nat → Nat → Nat
  | 0, base, _ => base
  | fuel + 1, base, size =>
    if size ≤ 1 then base
    else
      let half := size / 2
      let isBefore := (lines[base + half]?).any fun mark => mark.1 ≤ pc
      lastMark lines pc fuel (if isBefore then base + half else base) (size - half)

/-- The source line of an instruction: that of the last mark at or before it. The marks are in the
order of the code, so the search may halve them.
-/
def lineAt (r : Routine) (pc : Nat) : Option Nat :=
  match r.lines[lastMark r.lines pc r.lines.size 0 r.lines.size]? with
  | some (start, line) => if start ≤ pc then some line else none
  | none => none

end Routine

end TaskMachine

import TaskMachine.Fault
import TaskMachine.Routine

/-!
Routines under construction. A draft only grows: entries are appended to its tables, and the numbers
handed out for them are 16 bits wide, as operands are. Jumps are drafted with labels, which a label
that is placed later may stand for; `Draft.finish` replaces them by the places of the labels.
-/

namespace TaskMachine

structure Draft where
  name : String
  isProcedure : Bool
  isVarargs : Bool := false
  minArgs : Nat := 0
  maxArgs : Nat := 0
  localNames : Array String := #[]
  names : Array String := #[]
  code : Array Instruction := #[]
  literals : Array Value := #[]
  fileName : String := ""
  lines : Array (Nat × Nat) := #[]
  /-- Where each label is placed. -/
  labels : Array (Option Nat) := #[]
  /-- An optional argument has been declared, so further ones are optional, too. -/
  seenOptional : Bool := false
deriving Inhabited

namespace Draft

def addLocal (name : String) (d : Draft) : UInt16 × Draft :=
  (UInt16.ofNat d.localNames.size, { d with localNames := d.localNames.push name })

/-- Declares the next argument and gives the number of its variable. An argument after an optional
one is optional.
-/
def addArgument (name : String) (isOptional : Bool) (d : Draft) : UInt16 × Draft :=
  let seenOptional := d.seenOptional || isOptional
  let minArgs := if seenOptional then d.minArgs else d.minArgs + 1
  addLocal name { d with seenOptional, minArgs, maxArgs := d.maxArgs + 1 }

/-- Declares the variable for an array of surplus arguments. -/
def addVarargs (name : String) (d : Draft) : UInt16 × Draft :=
  addLocal name { d with isVarargs := true }

def addLiteral (v : Value) (d : Draft) : UInt16 × Draft :=
  (UInt16.ofNat d.literals.size, { d with literals := d.literals.push v })

/-- Enters the name of a global or a member in upper case and gives its number. A name that is there
already keeps its number.
-/
def addName (name : String) (d : Draft) : UInt16 × Draft :=
  let key := name.toUpper
  match d.names.idxOf? key with
  | some i => (UInt16.ofNat i, d)
  | none => (UInt16.ofNat d.names.size, { d with names := d.names.push key })

def addInstruction (i : Instruction) (d : Draft) : Draft :=
  { d with code := d.code.push i }

def addJump (flags : UInt8) (label : UInt16) (d : Draft) : Draft :=
  d.addInstruction { opcode := .jump, minor := flags ||| Jump.symbolic, operand := label }

/-- Makes a label that is not placed yet. -/
def makeLabel (d : Draft) : UInt16 × Draft :=
  (UInt16.ofNat d.labels.size, { d with labels := d.labels.push none })

/-- Places a label before the next instruction. A label that was placed before is moved. -/
def placeLabel (label : UInt16) (d : Draft) : Except Fault Draft :=
  if label.toNat < d.labels.size then
    .ok { d with labels := d.labels.setIfInBounds label.toNat (some d.code.size) }
  else
    let number := label.toNat
    .error (.internal s!"label {number} was never made")

def setFileName (fileName : String) (d : Draft) : Draft :=
  { d with fileName }

/-- Marks the next instruction as the first one of a source line. -/
def addLine (line : Nat) (d : Draft) : Draft :=
  let lines :=
    match d.lines.back? with
    | some (start, _) => if start = d.code.size then d.lines.pop else d.lines
    | none => d.lines
  { d with lines := lines.push (d.code.size, line) }

/-- The most instructions that a routine can have. -/
def maxCode : Nat := 65535

/-- The most entries of a table that 16-bit numbers tell apart. -/
def maxEntries : Nat := 65536

/-- Fails if a table has more entries than numbers tell apart. -/
def checkTable (name table : String) (size : Nat) : Except Fault Unit :=
  if size ≤ maxEntries then .ok ()
  else .error (.internal s!"'{name}' has too many {table} ({size})")

/-- A drafted instruction with its label replaced by the place of the label. -/
def resolve (labels : Array (Option Nat)) (i : Instruction) : Except Fault Instruction :=
  if i.isSymbolic then
    match labels[i.operand.toNat]?.join with
    | some pc => .ok { i with minor := i.minor &&& ~~~Jump.symbolic, operand := UInt16.ofNat pc }
    | none =>
      let label := i.operand.toNat
      .error (.internal s!"label {label} was never placed")
  else .ok i

/-- Completes a draft. The first table that is too long decides, and then the first jump whose label
was never placed.
-/
def finish (d : Draft) : Except Fault Routine := do
  let name := d.name
  if maxCode < d.code.size then throw (.internal s!"'{name}' has too many instructions")
  checkTable name "locals" d.localNames.size
  checkTable name "literals" d.literals.size
  checkTable name "names" d.names.size
  checkTable name "labels" d.labels.size
  let code ← d.code.mapM (resolve d.labels)
  return {
    name := d.name, isProcedure := d.isProcedure, isVarargs := d.isVarargs
    minArgs := d.minArgs, maxArgs := d.maxArgs, localNames := d.localNames, names := d.names
    code, literals := d.literals, fileName := d.fileName, lines := d.lines }

end Draft

end TaskMachine

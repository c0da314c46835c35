import TaskMachine.Codec.Saving
import TaskMachine.ObjectFile.Basic

/-!
Writing object files. Every routine and array that a process refers to is stored once, when it is
first met, and numbered in that order. A routine is entered after its literals, so it refers to
earlier routines only; an array is entered before its elements, so arrays may refer to each other in
cycles.
-/

namespace TaskMachine

/-- An object file being written. -/
structure Writer where
  file : ObjectFile
  /-- The numbers of the routines that are stored. -/
  routineIds : List (RoutineId × Nat)
  /-- The routines whose literals are being stored. -/
  inProgress : List RoutineId
  /-- The numbers of the arrays that are stored. -/
  arrayIds : List (ArrayId × Nat)
deriving Inhabited

/-- Steps of writing; what a failed step has written stays. -/
abbrev Writing := EStateM Fault Writer

namespace Writer

def new : Writer :=
  ⟨ObjectFile.empty, [], [], []⟩

/-- Stores values with a given numbering. -/
def segment (charset : Charset) (h : Heap) (numbering : Numbering Writer) (values : List Value)
    : Writing Segment := do
  let data ← saveSegment charset h numbering values
  return ⟨UInt32.ofNat values.length, data⟩

def flags (r : Routine) : UInt8 :=
  (if r.isProcedure then RoutineRecord.procedureFlag else 0)
    ||| (if r.isVarargs then RoutineRecord.varargsFlag else 0)

def routineRecord (r : Routine) (literals : Segment) : RoutineRecord where
  name := r.name
  flags := flags r
  minArgs := UInt16.ofNat r.minArgs
  maxArgs := UInt16.ofNat r.maxArgs
  localNames := r.localNames.toList
  names := r.names.toList
  code := r.code.toList.flatMap Instruction.toBytes
  literals
  fileName := r.fileName
  lines := r.lines.toList.map fun (pc, line) => (UInt32.ofNat pc, UInt32.ofNat line)

/-- Enters a routine and gives its number. -/
def enterRoutine (id : RoutineId) (record : RoutineRecord) : Writing Nat :=
  modifyGet fun w =>
    let number := w.file.routines.length
    (number, { w with
      file := { w.file with routines := w.file.routines ++ [record] }
      routineIds := (id, number) :: w.routineIds })

/-- Stores a routine, unless it is stored already, and gives its number. A routine that is reached
again while its literals are being stored cannot be stored.
-/
def routine (charset : Charset) (h : Heap) (numbering : Numbering Writer) (id : RoutineId)
    : Writing Nat := do
  let w ← get
  match w.routineIds.find? (·.1 == id) with
  | some (_, number) => return number
  | none =>
    if w.inProgress.contains id then throw .notSerializable
    set { w with inProgress := id :: w.inProgress }
    let r := h.routine id
    match (segment charset h numbering r.literals.toList).run (← get) with
    | .ok literals w => do
      set { w with inProgress := w.inProgress.erase id }
      enterRoutine id (routineRecord r literals)
    | .error fault w => do
      set { w with inProgress := w.inProgress.erase id }
      throw fault

/-- Enters an array without elements and gives its number. -/
def enterArray (id : ArrayId) (dims : List Nat) : Writing Nat :=
  modifyGet fun w =>
    let number := w.file.arrays.length
    let record := ⟨dims.map UInt32.ofNat, ⟨0, []⟩⟩
    (number, { w with
      file := { w.file with arrays := w.file.arrays ++ [record] }
      arrayIds := (id, number) :: w.arrayIds })

/-- Gives a stored array its elements. -/
def fillArray (number : Nat) (elements : Segment) : Writing Unit :=
  modify fun w =>
    { w with file := { w.file with
        arrays := w.file.arrays.modify number fun record => { record with elements } } }

/-- Stores an array, unless it is stored already, and gives its number. -/
def array (charset : Charset) (h : Heap) (numbering : Numbering Writer) (id : ArrayId)
    : Writing Nat := do
  match (← get).arrayIds.find? (·.1 == id) with
  | some (_, number) => return number
  | none =>
    let g := h.grid id
    let number ← enterArray id g.dims
    let elements ← segment charset h numbering g.cells.toList
    fillArray number elements
    return number

/-- The numbering by a writer. Each routine and each array that is entered on the way to a value is
one that was not entered before, so the depth is bounded by their number.
-/
def numberingTo (charset : Charset) (h : Heap) : Nat → Numbering Writer
  | 0 => ⟨fun _ => throw .notSerializable, fun _ => throw .notSerializable⟩
  | depth + 1 =>
    let inner := numberingTo charset h depth
    ⟨routine charset h inner, array charset h inner⟩

/-- The numbering by a writer, deep enough for every value of a heap. -/
def numbering (charset : Charset) (h : Heap) : Numbering Writer :=
  numberingTo charset h (h.routines.size + h.arrays.size + 2)

/-- The record of a call, whose routine is stored before its local variables. -/
def frameRecord (charset : Charset) (h : Heap) (f : Frame) : Writing FrameRecord := do
  let number ← (numbering charset h).routine f.routine
  let locals ← segment charset h (numbering charset h) f.locals.toList
  return {
    routine := UInt32.ofNat number
    pc := UInt32.ofNat f.pc
    wantResult := f.wantResult
    stackBase := UInt32.ofNat f.stackBase
    handlers := f.handlers.reverse.map fun handler =>
      (UInt32.ofNat handler.target, UInt32.ofNat handler.stackDepth)
    locals }

def isStorable (p : Process) : Bool :=
  (p.state == .suspended || p.state == .runnable || p.state == .waiting) && p.pendingFault.isNone

def addProcess (charset : Charset) (h : Heap) (p : Process) : Writing Unit := do
  if !isStorable p then throw .notSerializable
  let stack ← segment charset h (numbering charset h) p.stack.reverse
  let frames ← p.frames.reverse.mapM (frameRecord charset h)
  let record := {
    name := p.name, kind := p.kind, state := p.state, waitingFor := p.waitingFor, stack, frames }
  modify fun w => { w with file := { w.file with processes := w.file.processes ++ [record] } }

def addRoutine (charset : Charset) (h : Heap) (id : RoutineId) : Writing Nat :=
  (numbering charset h).routine id

def addArray (charset : Charset) (h : Heap) (id : ArrayId) : Writing Nat :=
  (numbering charset h).array id

end Writer

end TaskMachine

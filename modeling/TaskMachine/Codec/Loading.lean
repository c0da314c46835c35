import TaskMachine.Codec.Charset
import TaskMachine.Codec.Real48
import TaskMachine.Heap

/-!
Values read back from their stored form. Reading takes bytes off the front of what is left, makes a
new callable for each routine that it meets, and takes down the numbers that it was asked to
resolve, also those that it could not. A segment is loaded over a list, which changes only if all of
it could be read.
-/

namespace TaskMachine

/-- How the numbers of routines and arrays are resolved while loading. -/
structure Resolver where
  routine : Nat → Except Fault RoutineId
  array : Nat → Except Fault ArrayId

namespace Resolver

/-- The resolver for values that refer to nothing. -/
def none : Resolver where
  routine number := .error (.badFormat s!"unexpected bytecode reference {number}")
  array number := .error (.badFormat s!"unexpected array reference {number}")

end Resolver

/-- The numbers of routines and arrays that a record refers to. -/
structure References where
  routines : List Nat := []
  arrays : List Nat := []
deriving Inhabited, DecidableEq, Repr

/-- The state of reading: the bytes that are left, the heap, and the numbers met. -/
structure Loading where
  bytes : Bytes
  heap : Heap
  references : References

/-- A step of reading; what a failed step has read stays read. -/
abbrev Reader := EStateM Fault Loading

namespace Reader

/-- Takes `n` bytes off the front. If there are fewer, all are taken and the step fails. -/
def bytes (n : Nat) (shortage : Fault) : Reader Bytes := do
  let s ← get
  match Bytes.split? n s.bytes with
  | some (front, back) =>
    set { s with bytes := back }
    return front
  | none =>
    set { s with bytes := [] }
    throw shortage

def node : Reader TagNode := do
  return TagNode.ofBytes (← bytes 6 .endOfData)

def string (charset : Charset) (length : Nat) : Reader Value := do
  let text ← bytes length (.badFormat "string data truncated")
  return .string (charset.decode text)

/-- The routine of a number, as a new callable. -/
def routine (resolver : Resolver) (number : Nat) : Reader Value := do
  modify fun s =>
    { s with references := { s.references with routines := number :: s.references.routines } }
  match resolver.routine number with
  | .ok r =>
    modifyGet fun s =>
      let (heap, v) := s.heap.addSubroutine r
      (v, { s with heap })
  | .error fault => throw fault

/-- The array of a number. -/
def array (resolver : Resolver) (number : Nat) : Reader Value := do
  modify fun s =>
    { s with references := { s.references with arrays := number :: s.references.arrays } }
  match resolver.array number with
  | .ok a => return .array a
  | .error fault => throw fault

/-- A tag with four digits, as error texts show it. -/
def tagText (tag : UInt16) : String :=
  let digits := (Nat.toDigits 16 tag.toNat).map Char.toUpper
  "0x" ++ String.ofList (List.replicate (4 - digits.length) '0' ++ digits)

/-- Reads the value of a node. -/
def value (charset : Charset) (resolver : Resolver) (node : TagNode) : Reader Value := do
  let payload := node.payload.toNat
  if node.isReal then return .float (Real48.decode node)
  else if node.tag = TagNode.nullTag then return .null
  else if node.tag = TagNode.integerTag then return .integer node.payload.toInt32
  else if node.tag = TagNode.booleanTag then return .boolean (node.payload != 0)
  else if node.tag = TagNode.float32Tag then return .float (Float32.ofBits node.payload).toFloat
  else if node.tag = TagNode.stringTag then
    if payload = 0 then return .string ""
    else
      let length ← bytes 1 .endOfData
      string charset (Bytes.toNat length)
  else if node.tag = TagNode.longStringTag then string charset payload
  else if node.tag = TagNode.routineTag then routine resolver payload
  else if node.tag = TagNode.arrayTag then array resolver payload
  else
    let tag := tagText node.tag
    throw (.badFormat s!"unknown value tag {tag}")

/-- Reads `count` nodes, latest first. -/
def nodes : Nat → List TagNode → Reader (List TagNode)
  | 0, done => return done
  | count + 1, done => do
    let next ← node
    nodes count (next :: done)

/-- Reads a segment of `count` values: all nodes, and then the value of each. -/
def segment (charset : Charset) (resolver : Resolver) (count : Nat) : Reader (List Value) := do
  let reversed ← nodes count []
  reversed.reverse.mapM (value charset resolver)

end Reader

/-- The most values that a list can hold: its bytes, 24 for each value, are counted by a signed number
of 64 bits.
-/
def maxListLength : Nat :=
  0x7FFFFFFFFFFFFFFF / 24

/-- Why a segment is not loaded: with a fault, or because no list is as long as the target would have
to be, which ends the program.
-/
inductive LoadFailure where
  | fault (f : Fault)
  | tooLong
deriving DecidableEq, Repr

/-- The state of loading into a list: what reading has come to, and the list. -/
structure Filling where
  loading : Loading
  target : List Value

namespace Filling

/-- Reads, and leaves the list as it is. -/
def read {α : Type} (x : Reader α) : EStateM LoadFailure Filling α := fun s =>
  match x.run s.loading with
  | .ok a loading => .ok a { s with loading }
  | .error fault loading => .error (.fault fault) { s with loading }

/-- Fills the list up with nulls if it has not that length yet. -/
def lengthen (length : Nat) : EStateM LoadFailure Filling Unit := do
  let s ← get
  if s.target.length < length then
    if maxListLength < length then throw .tooLong
    let nulls := List.replicate (length - s.target.length) .null
    set { s with target := s.target ++ nulls }

/-- Writes values one after another, the first one at the place given. -/
def write : Nat → List Value → EStateM LoadFailure Filling Unit
  | _, [] => return
  | place, v :: rest => do
    modify fun s => { s with target := s.target.set place v }
    write (place + 1) rest

/-- Loads a segment in place. The list is not touched before all values have been read. Where the
machine cannot count up to the end of the segment, no list is long enough either.
-/
def segment (charset : Charset) (resolver : Resolver) (offset count : Nat)
    : EStateM LoadFailure Filling Unit := do
  let values ← read (Reader.segment charset resolver count)
  lengthen (offset + count)
  write offset values

end Filling

end TaskMachine

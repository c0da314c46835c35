import TaskMachine.Codec.Charset
import TaskMachine.Codec.Real48
import TaskMachine.Heap

/-!
Values in stored form. Each value has a tag node; strings and host objects have further bytes. A
segment is the nodes of a list of values followed by their further bytes, in the same order.
Routines and arrays are stored elsewhere: a value that refers to one holds its number there.
-/

namespace TaskMachine

/-- How the routines and arrays that values refer to are numbered while saving. -/
structure Numbering (σ : Type) where
  routine : RoutineId → EStateM Fault σ Nat
  array : ArrayId → EStateM Fault σ Nat

namespace Numbering

/-- The numbering for values that refer to nothing. -/
def none : Numbering Unit where
  routine _ := throw .notSerializable
  array _ := throw .notSerializable

end Numbering

/-- The stored form of a string: its length is in the node if it takes more than a byte, and else
before the bytes. The node of a short string holds the number of bytes that follow.
-/
def saveString (charset : Charset) (s : String) : Except Fault (TagNode × Bytes) :=
  let bytes := charset.encode s
  let length := bytes.length
  if length = 0 then .ok (⟨TagNode.stringTag, 0⟩, [])
  else if length ≤ 255 then
    .ok (⟨TagNode.stringTag, UInt32.ofNat (length + 1)⟩, UInt8.ofNat length :: bytes)
  else if length < 0x100000000 then .ok (⟨TagNode.longStringTag, UInt32.ofNat length⟩, bytes)
  else .error (.outOfRange "string too long to save")

/-- The stored form of a value: its node and its further bytes. -/
def saveValue {σ : Type} (charset : Charset) (h : Heap) (numbering : Numbering σ)
    : Value → EStateM Fault σ (TagNode × Bytes)
  | .null => return (⟨TagNode.nullTag, 0⟩, [])
  | .integer n => return (⟨TagNode.integerTag, n.toUInt32⟩, [])
  | .boolean b => return (⟨TagNode.booleanTag, if b then 1 else 0⟩, [])
  | .float x => return (Real48.encode x, [])
  | .string s =>
    match saveString charset s with
    | .ok stored => return stored
    | .error fault => throw fault
  | .callable c =>
    match h.callable c with
    | .direct (.subroutine r) => do
      let number ← numbering.routine r
      return (⟨TagNode.routineTag, UInt32.ofNat number⟩, [])
    | _ => throw .notSerializable
  | .array a => do
    let number ← numbering.array a
    return (⟨TagNode.arrayTag, UInt32.ofNat number⟩, [])
  | .object o =>
    match (h.object o).image? with
    | some stored => return stored
    | .none => throw .notSerializable

def saveSegment {σ : Type} (charset : Charset) (h : Heap) (numbering : Numbering σ)
    (values : List Value) : EStateM Fault σ Bytes := do
  let stored ← values.mapM (saveValue charset h numbering)
  return stored.flatMap (·.1.toBytes) ++ stored.flatMap (·.2)

end TaskMachine

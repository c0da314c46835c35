import TaskMachine.Codec.Bytes
import TaskMachine.Process.Basic

/-!
Object files: stored processes with the routines and arrays that they refer to. Records refer to
each other by their numbers, and all values are in segments of stored form.
-/

namespace TaskMachine

/-- A list of values in stored form. -/
structure Segment where
  count : UInt32
  data : Bytes
deriving DecidableEq, Repr, Inhabited

structure RoutineRecord where
  name : String
  flags : UInt8
  minArgs : UInt16
  maxArgs : UInt16
  localNames : List String
  names : List String
  /-- Four bytes for each instruction. -/
  code : Bytes
  literals : Segment
  fileName : String
  lines : List (UInt32 × UInt32)
deriving DecidableEq, Repr, Inhabited

structure ArrayRecord where
  dims : List UInt32
  elements : Segment
deriving DecidableEq, Repr, Inhabited

structure FrameRecord where
  /-- The number of the routine. -/
  routine : UInt32
  pc : UInt32
  wantResult : Bool
  stackBase : UInt32
  /-- The place and the stack height of each handler, latest last. -/
  handlers : List (UInt32 × UInt32)
  locals : Segment
deriving DecidableEq, Repr, Inhabited

structure ProcessRecord where
  name : String
  kind : ProcessKind
  state : ProcessState
  waitingFor : Option String
  stack : Segment
  /-- The calls, outermost first. -/
  frames : List FrameRecord
deriving DecidableEq, Repr, Inhabited

/-- The contents of an object file. -/
structure ObjectFile where
  signature : Bytes
  version : UInt16
  routines : List RoutineRecord
  arrays : List ArrayRecord
  processes : List ProcessRecord
deriving DecidableEq, Repr, Inhabited

namespace RoutineRecord

def procedureFlag : UInt8 := 1

/-- The flag of a routine that collects surplus arguments. -/
def varargsFlag : UInt8 := 2

end RoutineRecord

namespace ObjectFile

/-- The bytes that every object file begins with. -/
def expectedSignature : Bytes :=
  [0x43, 0x43, 0x6F, 0x62, 0x6A, 0x0D, 0x0A, 0x1A]

def expectedVersion : UInt16 := 1

def empty : ObjectFile :=
  ⟨expectedSignature, expectedVersion, [], [], []⟩

end ObjectFile

end TaskMachine

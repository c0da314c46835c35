import TaskMachine.Codec.Bytes
import TaskMachine.Fault

/-!
Tag nodes: the fixed-size part of a stored value, a 16-bit tag and a 32-bit payload in six bytes. A
tag with a zero low byte names a kind of value; any other tag is part of a 48-bit real, and so is
the all-zero tag.
-/

namespace TaskMachine

/-- The fixed-size part of a stored value. -/
structure TagNode where
  tag : UInt16
  payload : UInt32
deriving DecidableEq, Repr, Inhabited

namespace TagNode

def nullTag : UInt16 := 0x0100

def integerTag : UInt16 := 0x0200

def booleanTag : UInt16 := 0x0300

/-- The tag of a string of at most 255 bytes. -/
def stringTag : UInt16 := 0x0400

/-- The tag of a float of 32 bits. -/
def float32Tag : UInt16 := 0x0500

/-- The tag of a longer string. -/
def longStringTag : UInt16 := 0x0600

def routineTag : UInt16 := 0x0700

def arrayTag : UInt16 := 0x0800

/-- Is the node a 48-bit real? -/
def isReal (node : TagNode) : Bool :=
  node.tag &&& 0xFF != 0 || node.tag == 0

def toBytes (node : TagNode) : Bytes :=
  Bytes.ofNat 2 node.tag.toNat ++ Bytes.ofNat 4 node.payload.toNat

def ofBytes (bytes : Bytes) : TagNode :=
  ⟨UInt16.ofNat (Bytes.toNat (bytes.take 2)), UInt32.ofNat (Bytes.toNat (bytes.drop 2))⟩

end TagNode

end TaskMachine

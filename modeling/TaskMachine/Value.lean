/-!
The dynamic values that scripts compute with. Null, numbers, truth values and strings stand for
themselves; arrays, callables and host objects are handles into the heap, so that copying a value
shares what it refers to.
-/

namespace TaskMachine

structure ArrayId where
  index : Nat
deriving DecidableEq, Repr, Inhabited

structure CallableId where
  index : Nat
deriving DecidableEq, Repr, Inhabited

structure ObjectId where
  index : Nat
deriving DecidableEq, Repr, Inhabited

structure RoutineId where
  index : Nat
deriving DecidableEq, Repr, Inhabited

/-- A value of the scripting language. -/
inductive Value where
  | null
  | integer (n : Int32)
  | boolean (b : Bool)
  | float (x : Float)
  | string (s : String)
  | callable (c : CallableId)
  | array (a : ArrayId)
  | object (o : ObjectId)
deriving Inhabited

namespace Value

/-- The name of a value's kind. -/
def typeName : Value → String
  | null => "null"
  | integer _ => "integer"
  | boolean _ => "boolean"
  | float _ => "float"
  | string _ => "string"
  | callable _ => "callable"
  | array _ => "array"
  | object _ => "object"

def isNull : Value → Bool
  | null => true
  | _ => false

/-- The truth of a value, which null does not have. Every number but zero is true (also NaN), every
string but the empty one, and every handle.
-/
def truth? : Value → Option Bool
  | null => none
  | boolean b => some b
  | integer n => some (n != 0)
  | float x => some (x != 0.0)
  | string s => some (s != "")
  | callable _ | array _ | object _ => some true

def string? : Value → Option String
  | string s => some s
  | _ => none

/-- The integer that a value stands for: booleans count as 0 and 1. -/
def integer? : Value → Option Int32
  | integer n => some n
  | boolean b => some (if b then 1 else 0)
  | _ => none

/-- Two handles of the same kind that name the same thing. Other values have no identity. -/
def sameIdentity : Value → Value → Bool
  | callable c, callable d => c == d
  | array a, array b => a == b
  | object o, object p => o == p
  | _, _ => false

end Value

end TaskMachine

import TaskMachine.Codec.Tag
import TaskMachine.Value

/-!
What scripts can call and what the host lends them. A callable is a routine, a function of the host,
or a closure that puts bound arguments before those of each call. Host objects are opaque to the
machine, which only passes member accesses on to them.
-/

namespace TaskMachine

/-- An argument as the host sees it: the value and its two renderings. -/
structure Argument where
  value : Value
  plain : String
  readable : String

/-- What the host notes when one of its callables runs. -/
inductive HostEvent where
  /-- A line on the console. -/
  | line (text : String)
  /-- A call that the host keeps a record of. -/
  | call (name : String) (arguments : List String) (wantResult : Bool)
deriving DecidableEq, Repr

/-- How a host function answers: with a value or a fault, and with what it noted on the way. -/
structure HostReply where
  outcome : Except Fault Value
  events : List HostEvent := []

/-- A function of the host with fixed limits on the number of its arguments. -/
structure NativeFunction where
  name : String
  minArgs : Nat
  /-- No limit if absent. -/
  maxArgs : Option Nat
  /-- The result is dropped, so the function serves as a statement only. -/
  isProcedure : Bool
  run : List Argument → HostReply

/-- May the function be called with `count` arguments? -/
def NativeFunction.accepts (f : NativeFunction) (count : Nat) : Bool :=
  f.minArgs ≤ count && f.maxArgs.all fun limit => count ≤ limit

structure HostCallable where
  name : String
  text : String
  isProcedure : Bool
  maxArguments : Option Nat
  dimension : Nat → Nat
  accepts : Nat → Bool
  run : List Argument → Bool → HostReply

/-- What a call arrives at once all bound arguments are collected. -/
inductive Callee where
  | subroutine (routine : RoutineId)
  | native (f : NativeFunction)
  | hosted (c : HostCallable)

instance : Inhabited Callee where
  default := .native ⟨"", 0, none, false, fun _ => { outcome := .ok .null }⟩

/-- A callable value. -/
inductive Callable where
  | direct (callee : Callee)
  /-- A partial application: the bound arguments come before those of the call. -/
  | closure (base : CallableId) (bound : List Value)

instance : Inhabited Callable where
  default := .direct default

/-- An object of the host application. -/
inductive HostObject where
  /-- An object that shows nothing but its type. -/
  | sealed (typeName : String)
  /-- An object with its two texts, its members, and the stored form that it has, if any. -/
  | entity (typeName plain readable : String) (members : List (String × Value))
      (image : Option (TagNode × Bytes))

instance : Inhabited HostObject where
  default := .sealed ""

namespace HostObject

def typeName : HostObject → String
  | sealed typeName => typeName
  | entity typeName .. => typeName

def text (readable : Bool) : HostObject → String
  | sealed typeName => "#<" ++ typeName ++ ">"
  | entity _ plainText readableText .. => if readable then readableText else plainText

def getMember (name : String) : HostObject → Except Fault Value
  | sealed typeName => .error (.unknownIdentifier (typeName ++ "." ++ name))
  | entity _ _ _ members _ =>
    match members.find? (·.1 == name) with
    | some (_, v) => .ok v
    | none => .error (.unknownIdentifier name)

/-- Writes a member that the object has. -/
def setMember (name : String) (v : Value) : HostObject → Except Fault HostObject
  | sealed typeName => .error (.notAssignable (typeName ++ "." ++ name))
  | entity typeName plain readable members image =>
    match members.findIdx? (·.1 == name) with
    | some i => .ok (.entity typeName plain readable (members.set i (name, v)) image)
    | none => .error (.notAssignable name)

/-- The stored form of an object: its node and the bytes that follow. -/
def image? : HostObject → Option (TagNode × Bytes)
  | sealed _ => none
  | entity _ _ _ _ image => image

end HostObject

end TaskMachine

/-!
The errors that a running script can raise and that the loader can report. A fault is one of ten
causes; `Fault.message` is its only wording, which scripts see as text when a handler catches it.
-/

namespace TaskMachine

inductive Fault where
  /-- The target of an assignment cannot be assigned to. -/
  | notAssignable (target : String)
  /-- A value has no stored form. -/
  | notSerializable
  /-- The divisor of a division is zero. -/
  | divisionByZero
  /-- An operation does not apply to the kinds of its operands. -/
  | typeMismatch (detail : String)
  /-- A name stands for nothing. -/
  | unknownIdentifier (name : String)
  /-- An index or a size lies outside its range. -/
  | outOfRange (detail : String)
  /-- The operand stack or the call depth is exhausted. -/
  | stackOverflow (detail : String)
  /-- A script threw this text. -/
  | thrown (text : String)
  /-- The bytecode breaks an invariant of the machine. -/
  | internal (detail : String)
  /-- Stored data is malformed. -/
  | badFormat (detail : String)
deriving DecidableEq, Repr, Inhabited

namespace Fault

/-- The text of a fault; a thrown text stands for itself. -/
def message : Fault → String
  | notAssignable target => "Not assignable: " ++ target
  | notSerializable => "Value is not serializable"
  | divisionByZero => "Division by zero"
  | typeMismatch detail => "Type mismatch: " ++ detail
  | unknownIdentifier name => "Unknown identifier: " ++ name
  | outOfRange detail => "Index out of range: " ++ detail
  | stackOverflow detail => "Stack overflow: " ++ detail
  | thrown text => text
  | internal detail => "Internal VM fault: " ++ detail
  | badFormat detail => "Invalid file format: " ++ detail

/-- Internal faults and malformed data break invariants, so no handler of a script catches them. -/
def isCatchable : Fault → Bool
  | internal _ | badFormat _ => false
  | _ => true

def wrongArgumentCount (name : String) (count : Nat) : Fault :=
  .typeMismatch s!"wrong number of arguments to '{name}': {count}"

/-- The procedure `name` was called for a result. -/
def noResult (name : String) : Fault :=
  .typeMismatch s!"procedure '{name}' does not return a value"

/-- The operand stack holds fewer values than an instruction takes. -/
def underflow : Fault :=
  .internal "operand stack underflow"

/-- Stored data ends too early. -/
def endOfData : Fault :=
  .badFormat "unexpected end of data"

end Fault

end TaskMachine

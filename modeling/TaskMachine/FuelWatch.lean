import TaskMachine.Draft
import TaskMachine.Heap

/-!
A sample task: it asks for the fuel level once a turn, reports it, and ends when the level falls
below a limit. Its result is the number of turns that it watched.
-/

namespace TaskMachine

namespace FuelWatch

/-- Steps of drafting a routine. -/
abbrev Drafting := StateT Draft (Except Fault)

def number (step : Draft → UInt16 × Draft) : Drafting UInt16 :=
  modifyGet step

def emit (opcode : Opcode) (minor : UInt8) (operand : UInt16) : Drafting Unit :=
  modify (Draft.addInstruction { opcode, minor, operand })

def push (scope : Scope) (operand : UInt16) : Drafting Unit :=
  emit .push scope.toByte operand

def pop (slot : UInt16) : Drafting Unit :=
  emit .pop Scope.localSlot.toByte slot

def unary (op : UnaryOp) : Drafting Unit :=
  emit .unary op.toByte 0

/-- Calls the value on top of the stack as a statement. -/
def call (arguments : UInt16) : Drafting Unit :=
  emit .indirect IndirectOp.call.toByte arguments

def special (op : SpecialOp) (operand : UInt16) : Drafting Unit :=
  emit .special op.toByte operand

def jump (flags : UInt8) (label : UInt16) : Drafting Unit :=
  modify (Draft.addJump flags label)

def place (label : UInt16) : Drafting Unit := do
  set (← Draft.placeLabel label (← get))

def line (n : Nat) : Drafting Unit :=
  modify (Draft.addLine n)

def drafted (name : String) (isProcedure : Bool) (steps : Drafting Unit)
    : Except Fault Routine := do
  let ((), d) ← steps.run { name, isProcedure, fileName := "fuelwatch.q" }
  d.finish

/-- Prints the number of the round and the fuel level. -/
def report : Except Fault Routine :=
  drafted "REPORT" true do
    let round ← number (Draft.addArgument "ROUND" false)
    let fuel ← number (Draft.addArgument "FUEL" true)
    let print ← number (Draft.addName "Print")
    let title ← number (Draft.addLiteral (.string "Round"))
    let unit ← number (Draft.addLiteral (.string "kt"))
    line 2
    push .literal title
    push .localSlot round
    push .localSlot fuel
    push .literal unit
    emit .binary BinaryOp.concat.toByte 0
    push .named print
    call 3

/-- Watches the fuel level. Input that is no number is shown, and asked for again in the next
turn.
-/
def watch (report : Value) : Except Fault Routine :=
  drafted "FUELWATCH" false do
    let limit ← number (Draft.addArgument "LIMIT" false)
    let round ← number (Draft.addLocal "ROUND")
    let fuel ← number (Draft.addLocal "FUEL")
    let report ← number (Draft.addLiteral report)
    let question ← number (Draft.addLiteral (.string "Fuel level?"))
    let refuel ← number (Draft.addLiteral (.string "Refuel needed"))
    let print ← number (Draft.addName "Print")
    let top ← number Draft.makeLabel
    let done ← number Draft.makeLabel
    let unusable ← number Draft.makeLabel
    line 10
    push .integer 0
    pop round
    place top
    line 11
    push .localSlot round
    unary .inc
    pop round
    line 12
    jump Jump.catches unusable
    special .wait question
    unary .pos
    pop fuel
    special .uncatch 0
    line 13
    push .localSlot round
    push .localSlot fuel
    push .literal report
    call 2
    line 14
    push .localSlot fuel
    push .localSlot limit
    emit .binary BinaryOp.lt.toByte 0
    jump (Jump.ifTrue ||| Jump.pop) done
    line 15
    special .suspend 0
    jump Jump.always top
    place unusable
    line 17
    push .named print
    call 1
    special .suspend 0
    jump Jump.always top
    place done
    line 19
    push .literal refuel
    push .named print
    call 1
    push .localSlot round
    special .leave 1

end FuelWatch

/-- Adds the sample task to a heap. -/
def Heap.addFuelWatch (h : Heap) : Except Fault (Heap × RoutineId) := do
  let (h, report) := h.addRoutine (← FuelWatch.report)
  let (h, report) := h.addSubroutine report
  return h.addRoutine (← FuelWatch.watch report)

end TaskMachine

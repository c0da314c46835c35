import TaskMachine.Operator
import TaskMachine.Process.Machine

/-!
One step of a process: the next instruction of the innermost call is executed. The program counter
has moved past an instruction by the time it runs, and values that a failing instruction took off
the operand stack stay off it.
-/

namespace TaskMachine

namespace Exec

/-- The instruction has no meaning. -/
def invalid {α : Type} (i : Instruction) : Exec α :=
  let text := i.text
  raise (.internal s!"invalid instruction '{text}'")

/-- What a minor code stands for. -/
def known {α : Type} (i : Instruction) : Option α → Exec α
  | some a => pure a
  | none => invalid i

/-- A number that instructions use as an index or a count. -/
def operand (i : Instruction) : Nat :=
  i.operand.toNat

def currentRoutine : Exec Routine := do
  return (← heap).routine (← frame).routine

def nameAt (index : Nat) : Exec String := do
  match (← currentRoutine).names[index]? with
  | some name => return name
  | none => raise (.internal s!"name index {index} out of range")

def literalAt (index : Nat) : Exec Value := do
  match (← currentRoutine).literals[index]? with
  | some v => return v
  | none => raise (.internal s!"literal {index} out of range")

def localAt (index : Nat) : Exec Value := do
  match (← frame).locals[index]? with
  | some v => return v
  | none => raise (.internal s!"local {index} out of range")

def setLocal (index : Nat) (v : Value) : Exec Unit := do
  let f ← frame
  if index < f.locals.size then
    setFrame { f with locals := f.locals.setIfInBounds index v }
  else raise (.internal s!"local {index} out of range")

/-- The value of a global, or of what the host knows by that name. -/
def global (name : String) : Exec Value := do
  match (← world).get? name with
  | some v => return v
  | none => raise (.unknownIdentifier name)

/-- The boolean that an operand stands for; negative operands stand for null. -/
def booleanOperand (n : Int16) : Value :=
  if n < 0 then .null else .boolean (n != 0)

/-- Pushes a value from where the minor code says. -/
def pushFrom (i : Instruction) : Exec Unit := do
  let v ← match ← known i (Scope.ofByte? i.minor) with
    | .localSlot => localAt (operand i)
    | .literal => literalAt (operand i)
    | .integer => pure (.integer i.operand.toInt16.toInt32)
    | .boolean => pure (booleanOperand i.operand.toInt16)
    | .named => global (← nameAt (operand i))
  push v

/-- Assigns a value to where the minor code says. -/
def assign (i : Instruction) (v : Value) : Exec Unit := do
  match ← known i (Scope.ofByte? i.minor) with
  | .localSlot => setLocal (operand i) v
  | .named => setGlobal (← nameAt (operand i)) v
  | scope =>
    let kind := scope.name
    let index := operand i
    raise (.notAssignable s!"{kind} {index}")

/-- Applies an operator to the two values on top of the stack, the upper one being the right
operand.
-/
def binary (i : Instruction) : Exec Unit := do
  let op ← known i (BinaryOp.ofByte? i.minor)
  let b ← pop
  let a ← pop
  let h ← heap
  push (← lift (op.apply h.plain a b))

def unary (i : Instruction) : Exec Unit := do
  let op ← known i (UnaryOp.ofByte? i.minor)
  let a ← pop
  let h ← heap
  push (← lift (op.apply h.plain a))

/-- The flag of the condition that a value meets. -/
def conditionFlag (v : Value) : UInt8 :=
  match v.truth? with
  | some true => Jump.ifTrue
  | some false => Jump.ifFalse
  | none => Jump.ifEmpty

/-- Does a jump go to its target? A conditional one looks at the value on top of the stack. -/
def isTaken (i : Instruction) : Exec Bool := do
  if Jump.isAlways i.minor then return true
  return Jump.has i.minor (conditionFlag (← peek 0))

/-- Jumps, or installs a handler for the stack as high as it is. -/
def jump (i : Instruction) : Exec Unit := do
  if Jump.has i.minor Jump.symbolic then invalid i
  let target := operand i
  let routine ← currentRoutine
  if routine.code.size < target then
    let name := routine.name
    raise (.internal s!"jump target {target} outside '{name}'")
  if Jump.has i.minor Jump.catches then
    let f ← frame
    setFrame { f with handlers := ⟨target, (← process).stack.length⟩ :: f.handlers }
  else
    let taken ← isTaken i
    if Jump.has i.minor Jump.pop then discard pop
    if taken then setFrame { ← frame with pc := target }

def readElement (a : ArrayId) (indexes : List Value) : Exec Unit := do
  push (← lift (((← heap).grid a).get indexes))

def writeElement (a : ArrayId) (indexes : List Value) (v : Value) : Exec Unit := do
  let h ← heap
  setHeap (h.setGrid a (← lift ((h.grid a).set indexes v)))

/-- Calls or indexes the value on top of the stack with the values below it. -/
def indirect (i : Instruction) : Exec Unit := do
  let op ← known i (IndirectOp.ofByte? i.minor)
  let callee ← pop
  let args ← popMany (operand i)
  match op, callee with
  | .call, .callable c => call c args false
  | .function, .callable c | .load, .callable c => call c args true
  | .function, .array a | .load, .array a => readElement a args
  | .function, .null | .load, .null => push .null
  | .store, .array a => writeElement a args (← pop)
  | .store, .callable c => raise (.notAssignable ((← heap).callableName c))
  | op, other =>
    let verb := op.verb
    let kind := other.typeName
    raise (.typeMismatch s!"cannot {verb} a value of type {kind}")

def noMember {α : Type} (v : Value) (name : String) : Exec α :=
  let kind := v.typeName
  raise (.typeMismatch s!"{kind} has no member '{name}'")

/-- Reads or writes a member of the value on top of the stack. Null reads as null. -/
def member (i : Instruction) : Exec Unit := do
  let name ← nameAt (operand i)
  let object ← pop
  match ← known i (MemberOp.ofByte? i.minor), object with
  | .load, .object o => push (← lift (((← heap).object o).getMember name))
  | .load, .null => push .null
  | .load, other => noMember other name
  | .store, target => do
    let v ← pop
    match target with
    | .object o => do
      let h ← heap
      setHeap (h.setObject o (← lift ((h.object o).setMember name v)))
    | other => noMember other name

def rearrange (i : Instruction) : Exec Unit := do
  let n := operand i
  match ← known i (StackOp.ofByte? i.minor) with
  | .dup => push (← peek n)
  | .drop => discard (popMany n)
  | .swap => do
    let lower ← peek (n + 1)
    let upper ← peek 0
    let p ← process
    setProcess { p with stack := (p.stack.set 0 lower).set (n + 1) upper }

def dimension (v : Value) : Exec Nat := do
  let n := (← lift (Grid.expectInteger "array dimension" v)).toInt
  if n < 0 then raise (.outOfRange s!"negative array dimension {n}")
  return n.toNat

def newArray (dims : List Nat) : Exec Unit := do
  let g ← lift (Grid.new dims)
  let (h, a) := (← heap).addArray g
  setHeap h
  push (.array a)

/-- Binds the values below the callable on top of the stack. -/
def bindTop (count : Nat) : Exec Unit := do
  match ← pop with
  | .callable base => push (← makeClosure base (← popMany count))
  | _ => raise (.typeMismatch "only callables can be bound")

/-- Removes the latest handler of the innermost call. -/
def uncatch : Exec Unit := do
  let f ← frame
  match f.handlers with
  | _ :: handlers => setFrame { f with handlers }
  | [] => raise (.internal "uncatch without handler")

def special (i : Instruction) : Exec Signal := do
  let n := operand i
  match ← known i (SpecialOp.ofByte? i.minor) with
  | .uncatch => do uncatch; return .next
  | .leave => do
    let v ← if n != 0 then some <$> pop else pure none
    leave v
  | .throw => do
    let v ← pop
    raise (.thrown ((← heap).plain v))
  | .terminate => return .terminate
  | .suspend => return .suspend
  | .wait => return .wait ((← heap).plain (← literalAt n))
  | .bind => do bindTop n; return .next
  | .newArray => do
    newArray (← (← popMany n).mapM dimension)
    return .next

def execute (i : Instruction) : Exec Signal := do
  match i.opcode with
  | .push => pushFrom i
  | .pop => assign i (← pop)
  | .store => assign i (← peek 0)
  | .binary => binary i
  | .unary => unary i
  | .jump => jump i
  | .indirect => indirect i
  | .member => member i
  | .stack => rearrange i
  | .special => return ← special i
  return .next

/-- Executes the next instruction of the innermost call, or leaves the call at the end of its
code.
-/
def step : Exec Signal := do
  match (← process).frames with
  | [] => return .ended
  | f :: _ =>
    let routine := (← heap).routine f.routine
    match routine.code[f.pc]? with
    | some i => do
      setFrame { f with pc := f.pc + 1 }
      execute i
    | none =>
      if f.pc = routine.code.size then leave none
      else
        let pc := f.pc
        let name := routine.name
        raise (.internal s!"program counter {pc} outside '{name}'")

end Exec

end TaskMachine

import TaskMachine.Closure
import TaskMachine.Process.Basic

/-!
The machine that instructions work on: a process in its world. Instructions change both and may be
interrupted at any point; what they changed before that stays changed.
-/

namespace TaskMachine

/-- A process and its world. -/
structure Machine where
  world : World
  process : Process
deriving Inhabited

/-- Work of the machine that may be interrupted. -/
abbrev Exec := EStateM Interruption Machine

/-- What an instruction asks for when it has completed. -/
inductive Signal where
  /-- Go on with the next instruction. -/
  | next
  | suspend
  /-- Wait for a value that is asked for by this key. -/
  | wait (key : String)
  | terminate
  /-- The outermost call has returned. -/
  | ended
deriving DecidableEq, Repr

namespace Exec

def raise {α : Type} (f : Fault) : Exec α :=
  throw (.fault f)

/-- The result of a computation, whose fault is raised. -/
def lift {α : Type} : Except Fault α → Exec α
  | .ok a => pure a
  | .error f => raise f

def process : Exec Process :=
  return (← get).process

def world : Exec World :=
  return (← get).world

def heap : Exec Heap :=
  return (← get).world.heap

def setProcess (p : Process) : Exec Unit :=
  modify fun m => { m with process := p }

def setWorld (w : World) : Exec Unit :=
  modify fun m => { m with world := w }

def setHeap (h : Heap) : Exec Unit :=
  modify fun m => { m with world := { m.world with heap := h } }

def push (v : Value) : Exec Unit := do
  setProcess (← lift ((← process).push v))

/-- Takes the top value off the operand stack. A call takes no values from below its base. -/
def pop : Exec Value := do
  let p ← process
  match p.stack with
  | v :: rest =>
    if p.base < p.stack.length then
      setProcess { p with stack := rest }
      return v
    else raise .underflow
  | [] => raise .underflow

/-- Takes the `count` top values off the operand stack, lowest first. -/
def popMany (count : Nat) : Exec (List Value) := do
  let p ← process
  if p.base + count ≤ p.stack.length then
    setProcess { p with stack := p.stack.drop count }
    return (p.stack.take count).reverse
  else raise (.internal s!"operand stack underflow (need {count})")

/-- The value at a depth below the top of the operand stack. -/
def peek (depth : Nat) : Exec Value := do
  let p ← process
  match p.stack[depth]? with
  | some v => if p.base + depth < p.stack.length then return v else raise .underflow
  | none => raise .underflow

def frame : Exec Frame := do
  match (← process).frames with
  | frame :: _ => return frame
  | [] => raise (.internal "no active frame")

def setFrame (frame : Frame) : Exec Unit := do
  let p ← process
  setProcess { p with frames := frame :: p.frames.drop 1 }

/-- The local variables of a call: the arguments, nulls for missing ones, and the rest. -/
def localsFor (r : Routine) (args : List Value) (surplus : Option Value) : Array Value :=
  let given := args.take r.maxArgs
  let declared := given ++ List.replicate (r.maxArgs - given.length) .null ++ surplus.toList
  (declared ++ List.replicate (r.numLocals - declared.length) .null).toArray

/-- Enters a routine. Its code is executed from the next dispatch on. Surplus arguments of a routine
that collects them go into a new array.
-/
def enter (r : RoutineId) (args : List Value) (wantResult : Bool) : Exec Unit := do
  let p ← process
  if p.maxCallDepth ≤ p.frames.length then
    let limit := p.maxCallDepth
    raise (.stackOverflow s!"call depth exceeds {limit}")
  let h ← heap
  let routine := h.routine r
  if !routine.accepts args.length then
    raise (.wrongArgumentCount routine.name args.length)
  let surplus ←
    if routine.isVarargs then
      let (h, a) := h.addArray (Grid.row (args.drop routine.maxArgs))
      setHeap h
      pure (some (.array a))
    else pure none
  setProcess { p with
    frames :=
      { routine := r, pc := 0, locals := localsFor routine args surplus, handlers := [], wantResult,
        stackBase := p.stack.length } :: p.frames }

/-- Leaves the innermost call. Its caller gets the value if it asked for one; what the outermost
call returns is the result of the process.
-/
def leave (v : Option Value) : Exec Signal := do
  let p ← process
  match p.frames with
  | [] => raise (.internal "return without frame")
  | frame :: outer =>
    let p := { p with frames := outer, stack := Process.cut p.stack frame.stackBase }
    if outer.isEmpty then
      setProcess { p with result := v }
      return .ended
    else
      setProcess p
      if frame.wantResult then push (v.getD .null)
      return .next

/-- Takes the answer of the host: its notes, and its value if that is wanted. -/
def accept (reply : HostReply) (wantResult : Bool) : Exec Unit := do
  setWorld ((← world).note reply.events)
  let v ← lift reply.outcome
  if wantResult then push v

/-- Calls a callee. A routine is entered; the host answers at once. -/
def callCallee (args : List Value) (wantResult : Bool) : Callee → Exec Unit
  | .subroutine r => do
    let routine := (← heap).routine r
    if wantResult && routine.isProcedure then raise (.noResult routine.name)
    enter r args wantResult
  | .native f => do
    if !f.accepts args.length then raise (.wrongArgumentCount f.name args.length)
    if wantResult && f.isProcedure then raise (.noResult f.name)
    accept (f.run (args.map (← heap).argument)) wantResult
  | .hosted c => do
    accept (c.run (args.map (← heap).argument) wantResult) wantResult

/-- Calls a callable; bound arguments come first. -/
def call (c : CallableId) (args : List Value) (wantResult : Bool) : Exec Unit := do
  let (callee, bound) := (← heap).resolve c
  callCallee (bound ++ args) wantResult callee

def setGlobal (name : String) (v : Value) : Exec Unit := do
  match (← world).set name v with
  | some w => setWorld w
  | none => throw .endless

def makeClosure (base : CallableId) (values : List Value) : Exec Value := do
  match (Closure.bindLast values values.length).run (← heap, ⟨base, []⟩) with
  | .ok _ (h, closure) =>
    let (h, v) := closure.toValue h
    setHeap h
    return v
  | .error interruption (h, _) =>
    setHeap h
    throw interruption

end Exec

end TaskMachine

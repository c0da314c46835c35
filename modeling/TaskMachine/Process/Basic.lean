import TaskMachine.Config
import TaskMachine.Fault
import TaskMachine.World

/-!
Processes: the state of one cooperatively scheduled execution. A process owns an operand stack and
its frames, so it can stop between any two instructions and go on later. This module has the data
and the life cycle; running is in the other modules of the process.
-/

namespace TaskMachine

/-- Where a process is in its life. -/
inductive ProcessState where
  | suspended
  | runnable
  | running
  | waiting
  | ended
  | terminated
  | failed
deriving DecidableEq, Repr, Inhabited

namespace ProcessState

def isTerminal : ProcessState → Bool
  | ended | terminated | failed => true
  | _ => false

def name : ProcessState → String
  | suspended => "suspended"
  | runnable => "runnable"
  | running => "running"
  | waiting => "waiting"
  | ended => "ended"
  | terminated => "terminated"
  | failed => "failed"

/-- All states, in the order in which they are numbered. -/
def all : List ProcessState :=
  [suspended, runnable, running, waiting, ended, terminated, failed]

def ofName? (s : String) : Option ProcessState :=
  all.find? (·.name == s)

end ProcessState

/-- What a process is for. -/
inductive ProcessKind where
  | default
  | shipTask
  | planetTask
  | baseTask
deriving DecidableEq, Repr, Inhabited

namespace ProcessKind

def name : ProcessKind → String
  | default => "Default"
  | shipTask => "ShipTask"
  | planetTask => "PlanetTask"
  | baseTask => "BaseTask"

/-- All kinds, in the order in which they are numbered. -/
def all : List ProcessKind :=
  [default, shipTask, planetTask, baseTask]

def ofName? (s : String) : Option ProcessKind :=
  all.find? (·.name == s)

end ProcessKind

/-- A place to go on at after a fault, with the height that the operand stack is cut to. -/
structure Handler where
  target : Nat
  stackDepth : Nat
deriving DecidableEq, Repr, Inhabited

/-- An active call of a routine. -/
structure Frame where
  routine : RoutineId
  /-- The next instruction. -/
  pc : Nat
  locals : Array Value
  /-- The handlers, latest first. -/
  handlers : List Handler
  wantResult : Bool
  /-- The height of the operand stack when the call began. -/
  stackBase : Nat
deriving Inhabited

/-- One execution. -/
structure Process where
  id : Nat
  name : String
  kind : ProcessKind
  state : ProcessState
  /-- What a waiting process waits for. -/
  waitingFor : Option String
  /-- The operand stack, top first. -/
  stack : List Value
  /-- The active calls, innermost first. -/
  frames : List Frame
  /-- What the outermost call returned. -/
  result : Option Value
  /-- What the process failed with. -/
  failure : Option Fault
  /-- A fault to be raised when the process runs next. -/
  pendingFault : Option Fault
  maxCallDepth : Nat
  maxStackSize : Nat
deriving Inhabited

/-- Why a process or a scheduler refuses a request. -/
inductive Refusal where
  | notFound (id : Nat)
  | invalidState (id : Nat) (state : ProcessState)
deriving DecidableEq, Repr

def Refusal.message : Refusal → String
  | notFound id => s!"Process {id} not found"
  | invalidState id state =>
    let name := state.name
    s!"Process {id} is {name}, operation not allowed"

namespace Process

/-- A new process without a call. -/
def new (config : Config) (id : Nat) (name : String) : Process where
  id
  name
  kind := .default
  state := .suspended
  waitingFor := none
  stack := []
  frames := []
  result := none
  failure := none
  pendingFault := none
  maxCallDepth := config.maxCallDepth
  maxStackSize := config.maxStackSize

/-- A value on top of the operand stack, unless the stack is full. -/
def push (p : Process) (v : Value) : Except Fault Process :=
  if p.maxStackSize ≤ p.stack.length then
    let limit := p.maxStackSize
    .error (.stackOverflow s!"operand stack exceeds {limit} values")
  else .ok { p with stack := v :: p.stack }

/-- The height below which the current call may not take values. -/
def base (p : Process) : Nat :=
  match p.frames with
  | [] => 0
  | frame :: _ => frame.stackBase

/-- The operand stack cut down to a height. -/
def cut (stack : List Value) (height : Nat) : List Value :=
  stack.drop (stack.length - height)

/-- Moves from a state to another, or refuses. -/
def transition (p : Process) (source target : ProcessState) : Except Refusal Process :=
  if p.state = source then .ok { p with state := target } else .error (.invalidState p.id p.state)

def wake (p : Process) : Except Refusal Process :=
  p.transition .suspended .runnable

/-- Hands a waiting process the value that it waits for. If the operand stack is full, the process
is resumed all the same and the overflow is raised when it runs next.
-/
def resume (p : Process) (v : Value) : Except Refusal Process :=
  if p.state ≠ .waiting then .error (.invalidState p.id p.state)
  else
    let p :=
      match p.push v with
      | .ok p => p
      | .error fault => { p with pendingFault := some fault }
    { p with waitingFor := none }.transition .waiting .runnable

/-- Drops everything that a process needs only for going on. -/
def release (p : Process) : Process :=
  { p with pendingFault := none, stack := [], frames := [], waitingFor := none }

/-- Ends a process at once, unless it has ended already. No handler is run. -/
def terminate (p : Process) : Process :=
  if p.state.isTerminal then p else { p.release with state := .terminated }

/-- Goes on at the latest handler of the innermost call that has one, with the text of the fault on
the stack. The calls further in are left.
-/
def catchFault (fault : Fault) (stack : List Value) : List Frame → Option (List Value × List Frame)
  | [] => none
  | frame :: outer =>
    match frame.handlers with
    | [] => catchFault fault stack outer
    | handler :: handlers =>
      some (.string fault.message :: cut stack handler.stackDepth,
        { frame with pc := handler.target, handlers } :: outer)

/-- What a fault does to a process: a handler catches it, or the process fails and keeps its calls
for inspection.
-/
def raise (p : Process) (fault : Fault) : Process :=
  let caught := if fault.isCatchable then catchFault fault p.stack p.frames else none
  match caught with
  | some (stack, frames) => { p with stack, frames }
  | none => { p with failure := some fault, state := .failed }

/-- Takes up running: a fault that is pending is raised first. -/
def begin (p : Process) : Process :=
  let p := { p with state := .running }
  match p.pendingFault with
  | some fault => { p with pendingFault := none }.raise fault
  | none => p

end Process

end TaskMachine

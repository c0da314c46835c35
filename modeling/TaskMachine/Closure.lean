import TaskMachine.Copy

/-!
Closures and what can be asked about callables. A closure answers for its base with the bound
arguments taken into account, and a chain of closures answers for the callee behind it with all
arguments bound along the chain.
-/

namespace TaskMachine

/-- Why an operation does not complete: with a fault, or because a copy that it makes never ends. -/
inductive Interruption where
  | fault (f : Fault)
  | endless
deriving DecidableEq, Repr

/-- Counts of arguments are numbers of 64 bits, and a sum beyond them wraps around. -/
def countLimit : Nat :=
  0x10000000000000000

namespace Heap

def calleeName (h : Heap) : Callee → String
  | .subroutine r => (h.routine r).name
  | .native f => f.name
  | .hosted c => c.name

def calleeIsProcedure (h : Heap) : Callee → Bool
  | .subroutine r => (h.routine r).isProcedure
  | .native f => f.isProcedure
  | .hosted c => c.isProcedure

/-- The dimensions of a callee, as arrays have them. -/
def calleeDimension : Callee → Nat → Nat
  | .subroutine _, _ => 0
  | .native _, _ => 0
  | .hosted c, n => c.dimension n

def calleeAccepts (h : Heap) (count : Nat) : Callee → Bool
  | .subroutine r => (h.routine r).accepts count
  | .native f => f.accepts count
  | .hosted c => c.accepts count

def calleeMaxArguments (h : Heap) : Callee → Option Nat
  | .subroutine r => (h.routine r).maxArguments
  | .native f => f.maxArgs
  | .hosted c => c.maxArguments

def callableName (h : Heap) (c : CallableId) : String :=
  h.calleeName (h.resolve c).1

def callableIsProcedure (h : Heap) (c : CallableId) : Bool :=
  h.calleeIsProcedure (h.resolve c).1

/-- The dimensions of a callable: a bound argument takes the first dimension away. What is asked of a
chain of closures at once here is what each of them asks of its base (`answers_closure`).
-/
def callableDimension (h : Heap) (c : CallableId) (n : Nat) : Nat :=
  let (callee, bound) := h.resolve c
  if n = 0 then calleeDimension callee 0 - bound.length
  else calleeDimension callee ((n + bound.length) % countLimit)

/-- May a callable be called with `count` arguments? Each closure of a chain adds those that are bound
to it (`answers_closure`).
-/
def callableAccepts (h : Heap) (c : CallableId) (count : Nat) : Bool :=
  let (callee, bound) := h.resolve c
  h.calleeAccepts ((count + bound.length) % countLimit) callee

/-- The most arguments that a callable takes, if there is a limit. Each closure of a chain takes those
that are bound to it away (`answers_closure`).
-/
def callableMaxArguments (h : Heap) (c : CallableId) : Option Nat :=
  let (callee, bound) := h.resolve c
  (h.calleeMaxArguments callee).map fun limit => limit - bound.length

/-- The routine that a callable is, unless it is a closure or belongs to the host. -/
def callableRoutine? (h : Heap) (c : CallableId) : Option RoutineId :=
  match h.callable c with
  | .direct (.subroutine r) => some r
  | _ => none

/-- Does a copy of the callable differ from the callable itself? -/
def callableIsCopied (h : Heap) (c : CallableId) : Bool :=
  match h.callable c with
  | .direct _ => false
  | .closure .. => true

end Heap

/-- A closure under construction. -/
structure Closure where
  base : CallableId
  bound : List Value
deriving Inhabited

namespace Closure

/-- Steps that bind arguments; what is bound before a failure stays bound. -/
abbrev Binding := EStateM Interruption (Heap × Closure)

/-- Binds a copy of a value, unless the base takes no further argument. -/
def bind (v : Value) : Binding Unit := do
  let (h, c) ← get
  let count := c.bound.length + 1
  match h.callableMaxArguments c.base with
  | some limit =>
    if limit < count then
      let name := h.callableName c.base
      throw (.fault (.typeMismatch
        s!"'{name}' takes at most {limit} arguments, cannot bind {count}"))
  | none => pure ()
  match h.copy v with
  | some (h, v) => set (h, { c with bound := c.bound ++ [v] })
  | none => throw .endless

def bindAll : List Value → Binding Unit
  | [] => pure ()
  | v :: rest => do
    bind v
    bindAll rest

/-- Binds the last `count` of a list of values. -/
def bindLast (values : List Value) (count : Nat) : Binding Unit :=
  let available := values.length
  if available < count then
    throw (.fault (.internal s!"cannot bind {count} of {available} values"))
  else bindAll (values.drop (available - count))

def toValue (h : Heap) (c : Closure) : Heap × Value :=
  let (h, id) := h.addCallable (.closure c.base c.bound)
  (h, .callable id)

end Closure

end TaskMachine

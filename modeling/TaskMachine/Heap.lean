import TaskMachine.Callable
import TaskMachine.Grid
import TaskMachine.Routine

/-!
The heap: everything that values refer to by handle. A handle is a place in one of four tables;
allocation appends to a table and nothing is ever freed, so a new handle differs from all handles in
use. A handle beyond the end of its table reads as an empty array, an unnamed function and so on.
-/

namespace TaskMachine

/-- The things that handles refer to. -/
structure Heap where
  arrays : Array Grid
  callables : Array Callable
  objects : Array HostObject
  routines : Array Routine
deriving Inhabited

namespace Heap

def empty : Heap :=
  ⟨#[], #[], #[], #[]⟩

def grid (h : Heap) (a : ArrayId) : Grid :=
  h.arrays[a.index]?.getD ⟨[0], #[]⟩

def callable (h : Heap) (c : CallableId) : Callable :=
  h.callables[c.index]?.getD default

def object (h : Heap) (o : ObjectId) : HostObject :=
  h.objects[o.index]?.getD default

def routine (h : Heap) (r : RoutineId) : Routine :=
  h.routines[r.index]?.getD default

def addArray (h : Heap) (g : Grid) : Heap × ArrayId :=
  let id := ⟨h.arrays.size⟩
  ({ h with arrays := h.arrays.push g }, id)

def addCallable (h : Heap) (c : Callable) : Heap × CallableId :=
  let id := ⟨h.callables.size⟩
  ({ h with callables := h.callables.push c }, id)

def addObject (h : Heap) (o : HostObject) : Heap × ObjectId :=
  let id := ⟨h.objects.size⟩
  ({ h with objects := h.objects.push o }, id)

def addRoutine (h : Heap) (r : Routine) : Heap × RoutineId :=
  let id := ⟨h.routines.size⟩
  ({ h with routines := h.routines.push r }, id)

def setGrid (h : Heap) (a : ArrayId) (g : Grid) : Heap :=
  { h with arrays := h.arrays.setIfInBounds a.index g }

def setObject (h : Heap) (o : ObjectId) (object : HostObject) : Heap :=
  { h with objects := h.objects.setIfInBounds o.index object }

/-- A new callable value for a routine. Each has an identity of its own. -/
def addSubroutine (h : Heap) (r : RoutineId) : Heap × Value :=
  let (h, c) := h.addCallable (.direct (.subroutine r))
  (h, .callable c)

/-- The callee of a callable behind its chain of closures, and the arguments bound along the chain
put before `later`. A closure is made after its base, so the handles of a chain descend.
-/
def resolveFrom (h : Heap) : Nat → CallableId → List Value → Callee × List Value
  | fuel, c, later =>
    match h.callable c, fuel with
    | .direct callee, _ => (callee, later)
    | .closure base bound, fuel + 1 => resolveFrom h fuel base (bound ++ later)
    | .closure _ bound, 0 => (default, bound ++ later)

/-- The callee of a callable and all its bound arguments. -/
def resolve (h : Heap) (c : CallableId) : Callee × List Value :=
  h.resolveFrom (c.index + 1) c []

end Heap

end TaskMachine

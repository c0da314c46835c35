import TaskMachine.Copy
import TaskMachine.Text

/-!
What all processes share: the heap, the globals, and what the host noted. Names of globals do not
distinguish upper and lower case. A name that no global has is looked up with the host.
-/

namespace TaskMachine

/-- The shared surroundings of processes. -/
structure World where
  heap : Heap
  /-- The globals under their names in upper case, each name once. -/
  globals : List (String × Value)
  /-- What the host knows under a name in upper case. -/
  lookup : String → Option Value
  /-- What the host noted, latest first. -/
  events : List HostEvent
deriving Inhabited

namespace World

def empty : World :=
  ⟨Heap.empty, [], fun _ => none, []⟩

/-- A name as globals are stored under it. -/
def key (name : String) : String :=
  name.toUpper

/-- The value of a name: that of the global, or else what the host knows. -/
def get? (w : World) (name : String) : Option Value :=
  match w.globals.find? (·.1 == key name) with
  | some (_, v) => some v
  | none => w.lookup (key name)

/-- Enters a value under a stored name, in place of the one that it has. -/
def enter (w : World) (stored : String) (v : Value) : World :=
  { w with globals := (stored, v) :: w.globals.filter (·.1 != stored) }

/-- Sets a global to a copy of a value. There is no result if the copy never ends. -/
def set (w : World) (name : String) (v : Value) : Option World :=
  (w.heap.copy v).map fun (heap, v) => { w with heap }.enter (key name) v

/-- Removes a global and gives the value that it had. -/
def remove (w : World) (name : String) : Option Value × World :=
  ((w.globals.find? (·.1 == key name)).map (·.2),
    { w with globals := w.globals.filter (·.1 != key name) })

/-- Makes a function of the host available as a global. -/
def defineNative (w : World) (f : NativeFunction) : World :=
  let (heap, c) := w.heap.addCallable (.direct (.native f))
  { w with heap }.enter (key f.name) (.callable c)

/-- Takes down what the host noted, in the order of the notes. -/
def note (w : World) (events : List HostEvent) : World :=
  { w with events := events.reverse ++ w.events }

end World

end TaskMachine

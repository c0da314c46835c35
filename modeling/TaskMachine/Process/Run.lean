import TaskMachine.Process.Step

/-!
Running a process. A run goes on until the process leaves the running state by itself; since a
script may never do that, a run here is given a number of steps. A process that is still running
after them has not been interrupted in any way, and goes on from there if it is given more.
-/

namespace TaskMachine

namespace Exec

/-- Starts a process that has not been started with copies of the arguments. It stays suspended. -/
def start (r : RoutineId) (args : List Value) : Exec Unit := do
  let p ← process
  if !p.frames.isEmpty || p.state != .suspended then
    let id := p.id
    raise (.internal s!"process {id} already started")
  match (← heap).copyList args with
  | some (h, args) => do
    setHeap h
    enter r args false
  | none => throw .endless

end Exec

namespace Machine

/-- Does what an instruction asked for. -/
def obey (signal : Signal) (m : Machine) : Machine :=
  match signal with
  | .next => m
  | .suspend => { m with process := { m.process with state := .suspended } }
  | .wait key => { m with process := { m.process with state := .waiting, waitingFor := some key } }
  | .terminate => { m with process := { m.process.release with state := .terminated } }
  | .ended => { m with process := { m.process.release with state := .ended } }

/-- One step and what follows from it: a signal is obeyed and a fault is raised in the process. A
step that never completes leaves everything as it is.
-/
def advance (m : Machine) : Machine :=
  match Exec.step.run m with
  | .ok signal m => m.obey signal
  | .error (.fault f) m => { m with process := m.process.raise f }
  | .error .endless _ => m

/-- At most `fuel` steps, while the process is running. -/
def runFor : Nat → Machine → Machine
  | 0, m => m
  | fuel + 1, m => if m.process.state = .running then runFor fuel m.advance else m

/-- Runs a runnable process for at most `fuel` steps. Any other process is left alone. -/
def run (fuel : Nat) (m : Machine) : Machine :=
  if m.process.state = .runnable then runFor fuel { m with process := m.process.begin } else m

/-- More steps than any machine executes. -/
def patience : Nat := 1000000000000000000

end Machine

end TaskMachine

import TaskMachine.Json
import TaskMachine.Process.Basic
import TaskMachine.Text

/-!
The context of a process, as it is reported for inspection: what it is, where its calls are, and the
texts of its values.
-/

namespace TaskMachine

/-- The context of a call. The line is that of the instruction before the next one, which is the
call or the fault that one asks about.
-/
def Frame.context (h : Heap) (f : Frame) : Json :=
  let routine := h.routine f.routine
  let locals := routine.localNames.toList.zip f.locals.toList
  .sorted [
    ("function", .text routine.name),
    ("pc", .number f.pc),
    ("line", .ofNumber? (routine.lineAt (f.pc - 1))),
    ("handlers", .number f.handlers.length),
    ("locals", .sorted (locals.map fun (name, v) => (name, .text (h.readable v))))]

/-- The context of a process, innermost call first. -/
def Process.context (h : Heap) (p : Process) : Json :=
  .sorted [
    ("id", .number p.id),
    ("name", .text p.name),
    ("kind", .text p.kind.name),
    ("state", .text p.state.name),
    ("waiting_for", .ofText? p.waitingFor),
    ("error", .ofText? (p.failure.map Fault.message)),
    ("frames", .list (p.frames.map (Frame.context h))),
    ("stack", .list (p.stack.reverse.map fun v => .text (h.readable v)))]

end TaskMachine

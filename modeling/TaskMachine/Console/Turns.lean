import TaskMachine.Console.Dialogue
import TaskMachine.Context
import TaskMachine.Host
import TaskMachine.Scheduler

/-!
Running processes over several turns. Each turn begins by letting every suspended process run again.
Within a turn processes are dispatched as long as one is runnable; only then is a line of input
read, which goes to the first process that waits. A turn ends when nothing is runnable and nothing
waits. Nothing interrupts a run from outside.
-/

namespace TaskMachine

/-- Where a run is. -/
inductive Stage where
  /-- A turn is about to begin. -/
  | opening (turn : Nat)
  /-- A turn has begun. -/
  | inside (turn : Nat)
deriving DecidableEq, Repr

/-- A run over turns. -/
structure Turns where
  scheduler : Scheduler
  /-- The number of turns. -/
  last : Nat
  stage : Stage

/-- Something that a run reports. -/
inductive Note where
  | turn (n : Nat)
  /-- A line that a script printed. -/
  | printed (text : String)
  /-- A process ended. -/
  | ended (outcome : Outcome)
  /-- A process stopped and is still alive. -/
  | paused (id : Nat)

/-- How a run goes on. -/
inductive Move where
  /-- It went on by itself. -/
  | on (notes : List Note) (t : Turns)
  /-- It needs a line of input for a process that waits. -/
  | ask (id : Nat) (key : String)
  | over

namespace Turns

/-- Lets every suspended process run again. -/
def wakeAll (s : Scheduler) : Scheduler :=
  { s with processes := s.processes.map fun p =>
      match p.wake with
      | .ok p => p
      | .error _ => p }

/-- What scripts printed since the last time, in order, and the scheduler without the notes of
it.
-/
def collect (s : Scheduler) : List Note × Scheduler :=
  let printed := s.world.events.reverse.filterMap fun event =>
    match event with
    | .line text => some (Note.printed text)
    | .call .. => none
  (printed, { s with world := { s.world with events := [] } })

/-- The next move of a run; a dispatch takes at most `fuel` steps. -/
def next (fuel : Nat) (t : Turns) : Move :=
  match t.stage with
  | .opening n =>
    if n ≤ t.last then
      .on [.turn n] { t with scheduler := wakeAll t.scheduler, stage := .inside n }
    else .over
  | .inside n =>
    match t.scheduler.runNext fuel with
    | (.finished outcome, s) =>
      let (printed, s) := collect s
      .on (printed ++ [.ended outcome]) { t with scheduler := s }
    | (.progress id, s) =>
      let (printed, s) := collect s
      .on (printed ++ [.paused id]) { t with scheduler := s }
    | (.idle, _) =>
      match t.scheduler.waiting with
      | (id, key) :: _ => .ask id key
      | [] =>
        if t.scheduler.processes.isEmpty then .over
        else .on [] { t with stage := .opening (n + 1) }

/-- Hands a line of input to the process that waits for it. -/
def answer (t : Turns) (id : Nat) (line : String) : Turns :=
  match t.scheduler.resume id (Host.readInput line) with
  | .ok scheduler => { t with scheduler }
  | .error _ => t

end Turns

def Outcome.text (h : Heap) (o : Outcome) : String :=
  let id := o.id
  let name := o.name
  let label := s!"[{id}] {name}"
  match o.state with
  | .ended =>
    match o.result with
    | some v => label ++ " ended => " ++ h.readable v
    | none => label ++ " ended"
  | .failed => label ++ " failed: " ++ ((o.failure.map Fault.message).getD "")
  | state => label ++ " " ++ state.name

/-- The text of a note. Contexts of processes are shown only if asked for. -/
def Note.text (trace : Bool) (s : Scheduler) : Note → String
  | turn n => s!"-- turn {n} --\n"
  | printed text => text ++ "\n"
  | ended outcome => outcome.text s.world.heap ++ "\n"
  | paused id =>
    match trace, s.get? id with
    | true, some p => (p.context s.world.heap).pretty ++ "\n"
    | _, _ => ""

namespace Turns

/-- Plays a run for at most `rounds` moves. It ends early at the end of input. -/
def play (fuel : Nat) (trace : Bool) : Nat → Turns → Course Scheduler
  | 0, t => return t.scheduler
  | rounds + 1, t =>
    match t.next fuel with
    | .over => return t.scheduler
    | .on notes t => do
      Course.print (String.join (notes.map (Note.text trace t.scheduler)))
      play fuel trace rounds t
    | .ask id key => do
      Course.print s!"[{id}] {key} "
      match ← Course.ask with
      | some line => play fuel trace rounds (t.answer id line)
      | none => do
        Course.print "\n"
        return t.scheduler

end Turns

end TaskMachine

import TaskMachine.Process.Run

/-!
The scheduler: it holds processes in the order in which they were added, runs one of them at a time,
and hands back a report of each process that has ended. All its processes share one world.
-/

namespace TaskMachine

/-- The final report of a process. -/
structure Outcome where
  id : Nat
  name : String
  kind : ProcessKind
  state : ProcessState
  result : Option Value
  failure : Option Fault
deriving Inhabited

def Process.outcome (p : Process) : Outcome :=
  { id := p.id, name := p.name, kind := p.kind, state := p.state, result := p.result,
    failure := p.failure }

/-- What one dispatch did. -/
inductive Dispatch where
  /-- No process is runnable. -/
  | idle
  /-- A process ran and has not ended. -/
  | progress (id : Nat)
  /-- A process ran to its end and is no longer among the processes. -/
  | finished (outcome : Outcome)

structure Scheduler where
  config : Config
  /-- The processes in the order in which they were added. -/
  processes : List Process
  /-- The id of the next process. -/
  nextId : Nat
  world : World
deriving Inhabited

/-- Processes that no scheduler holds, by number. A number is vacant once its process has been
adopted.
-/
abbrev Detached := Array (Option Process)

/-- A process that no scheduler holds. -/
abbrev Detached.Member := Process

namespace Scheduler

def new (config : Config) : Scheduler :=
  { config, processes := [], nextId := 1, world := World.empty }

/-- Adds a process that starts with a routine. If it cannot start, no id is used up. -/
def addNamed (s : Scheduler) (name : String) (kind : ProcessKind) (r : RoutineId)
    (args : List Value) : Except Interruption Nat × Scheduler :=
  let id := s.nextId
  let p := { Process.new s.config id name with kind }
  match (Exec.start r args).run ⟨s.world, p⟩ with
  | .ok () m =>
    (.ok id, { s with world := m.world, processes := s.processes ++ [m.process], nextId := id + 1 })
  | .error e m => (.error e, { s with world := m.world })

/-- Adds a process named after its routine. -/
def add (s : Scheduler) (r : RoutineId) (args : List Value) : Except Interruption Nat × Scheduler :=
  s.addNamed (s.world.heap.routine r).name .default r args

/-- A process with the settings of a scheduler, which does not hold it. -/
def detached (s : Scheduler) (id : Nat) (name : String) : Process :=
  Process.new s.config id name

/-- Takes in a process from elsewhere under a new id. -/
def adopt (s : Scheduler) (p : Process) : Nat × Scheduler :=
  let id := s.nextId
  (id, { s with processes := s.processes ++ [{ p with id }], nextId := id + 1 })

def get? (s : Scheduler) (id : Nat) : Option Process :=
  s.processes.find? (·.id == id)

/-- Puts a process in the place of the one with its id. -/
def put (s : Scheduler) (p : Process) : Scheduler :=
  { s with processes := s.processes.map fun q => if q.id = p.id then p else q }

/-- Changes the process with an id, unless it refuses. -/
def update (s : Scheduler) (id : Nat) (change : Process → Except Refusal Process)
    : Except Refusal Scheduler :=
  match s.get? id with
  | none => .error (.notFound id)
  | some p => (change p).map s.put

def wake (s : Scheduler) (id : Nat) : Except Refusal Scheduler :=
  s.update id Process.wake

/-- Hands a waiting process its value. -/
def resume (s : Scheduler) (id : Nat) (v : Value) : Except Refusal Scheduler :=
  s.update id fun p => p.resume v

/-- Ends a process at once and removes it. -/
def terminate (s : Scheduler) (id : Nat) : Except Refusal (Outcome × Scheduler) :=
  match s.get? id with
  | none => .error (.notFound id)
  | some p => .ok (p.terminate.outcome, { s with processes := s.processes.filter (·.id != id) })

def terminateAll (s : Scheduler) : List Outcome × Scheduler :=
  (s.processes.map fun p => p.terminate.outcome, { s with processes := [] })

/-- The waiting processes, each with what it waits for. -/
def waiting (s : Scheduler) : List (Nat × String) :=
  s.processes.filterMap fun p =>
    if p.state = .waiting then p.waitingFor.map fun key => (p.id, key) else none

def hasRunnable (s : Scheduler) : Bool :=
  s.processes.any (·.state == .runnable)

/-- Runs the first runnable process until it leaves the running state, for at most `fuel` steps. -/
def runNext (fuel : Nat) (s : Scheduler) : Dispatch × Scheduler :=
  match s.processes.span (·.state != .runnable) with
  | (_, []) => (.idle, s)
  | (before, p :: after) =>
    let m := Machine.run fuel ⟨s.world, p⟩
    if m.process.state.isTerminal then
      (.finished m.process.outcome, { s with world := m.world, processes := before ++ after })
    else
      (.progress p.id, { s with world := m.world, processes := before ++ m.process :: after })

/-- At most `count` dispatches, with the reports of the processes that ended. -/
def runTimes (fuel : Nat) : Nat → Scheduler → List Outcome × Scheduler
  | 0, s => ([], s)
  | count + 1, s =>
    match s.runNext fuel with
    | (.idle, s) => ([], s)
    | (.progress _, s) => runTimes fuel count s
    | (.finished outcome, s) =>
      let (outcomes, s) := runTimes fuel count s
      (outcome :: outcomes, s)

/-- Dispatches until no process is runnable. No dispatch leaves its process runnable or makes
another one so, hence there are at most as many dispatches as processes.
-/
def run (fuel : Nat) (s : Scheduler) : List Outcome × Scheduler :=
  runTimes fuel s.processes.length s

end Scheduler

end TaskMachine

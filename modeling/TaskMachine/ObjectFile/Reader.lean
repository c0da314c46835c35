import TaskMachine.Codec.Loading
import TaskMachine.ObjectFile.Basic

/-!
Loading object files. Arrays are made first, empty, so that everything may refer to them; then
routines in their order, then the elements of the arrays, and last the processes. Under the strict
policy the first malformed record ends the loading. Otherwise a malformed record is skipped, and so
is every routine and array that refers to a skipped one, directly or through others.
-/

namespace TaskMachine

inductive RecordKind where
  | routine
  | array
  | process
deriving DecidableEq, Repr

def RecordKind.name : RecordKind → String
  | routine => "Bytecode"
  | array => "Array"
  | process => "Process"

/-- A record that was not loaded. -/
structure Skipped where
  kind : RecordKind
  index : Nat
  reason : Fault
deriving DecidableEq, Repr

/-- What was loaded. -/
structure Loaded where
  routines : List RoutineId
  processes : List Process
  skipped : List Skipped

/-- The state of loading. -/
structure Restored where
  heap : Heap
  /-- The routines by the numbers of their records; none where a record was skipped. -/
  routines : Array (Option RoutineId) := #[]
  /-- The arrays by the numbers of their records. -/
  arrays : Array (Option ArrayId) := #[]
  /-- The skipped records, latest first. -/
  skipped : List Skipped := []

/-- Steps of loading. -/
abbrev Restoring := EStateM Fault Restored

namespace Restoring

def bad {α : Type} (detail : String) : Restoring α :=
  throw (.badFormat detail)

/-- Puts a record among the skipped ones. -/
def reject (kind : RecordKind) (index : Nat) (reason : Fault) : Restoring Unit :=
  modify fun s => { s with skipped := ⟨kind, index, reason⟩ :: s.skipped }

/-- Tries to load a record. What becomes of a malformed one is for the policy to say. -/
def accept {α : Type} (policy : LoadPolicy) (kind : RecordKind) (index : Nat) (load : Restoring α)
    : Restoring (Option α) := do
  match load.run (← get) with
  | .ok a s => do
    set s
    return some a
  | .error fault s => do
    set s
    match policy with
    | .skipMalformed => do
      reject kind index fault
      return none
    | .strict =>
      let name := kind.name
      let reason := fault.message
      bad s!"{name} record {index}: {reason}"

/-- The numbers of the records loaded so far. -/
def resolver (s : Restored) : Resolver where
  routine number :=
    match s.routines[number]?.join with
    | some r => .ok r
    | none => .error (.badFormat s!"unresolved bytecode reference {number}")
  array number :=
    match s.arrays[number]?.join with
    | some a => .ok a
    | none => .error (.badFormat s!"unresolved array reference {number}")

/-- Loads the values of a segment, which they must fill, with the references among them. -/
def segment (charset : Charset) (segment : Segment) : Restoring (List Value × References) := do
  let s ← get
  let reading := Reader.segment charset (resolver s) segment.count.toNat
  match reading.run ⟨segment.data, s.heap, {}⟩ with
  | .ok values loading => do
    set { s with heap := loading.heap }
    if !loading.bytes.isEmpty then bad "trailing data after segment"
    return (values, loading.references)
  | .error fault _ => throw fault

/-- The instructions of stored code, latest first. -/
def instructions : List Instruction → Bytes → Except Fault (List Instruction)
  | done, [] => .ok done
  | done, opcode :: minor :: low :: high :: rest =>
    match Instruction.ofBytes? opcode minor low high with
    | some i => instructions (i :: done) rest
    | none =>
      let number := opcode.toNat
      .error (.badFormat s!"invalid opcode {number}")
  | _, _ => .error (.badFormat "truncated code")

/-- Is the instruction a jump that cannot be executed in code of a given size? -/
def isBadJump (size : Nat) (i : Instruction) : Bool :=
  i.opcode == .jump && (Jump.has i.minor Jump.symbolic || size < i.operand.toNat)

/-- Stored code with all jumps inside it. -/
def code (bytes : Bytes) : Except Fault (Array Instruction) := do
  if bytes.length % 4 != 0 then throw (.badFormat "truncated code")
  let code := (← instructions [] bytes).reverse.toArray
  match code.find? (isBadJump code.size) with
  | some i =>
    let text := i.text
    throw (.badFormat s!"invalid jump '{text}'")
  | none => return code

def routine (charset : Charset) (record : RoutineRecord) : Restoring (RoutineId × References) := do
  let code ←
    match code record.code with
    | .ok code => pure code
    | .error fault => throw fault
  let isVarargs := record.flags &&& RoutineRecord.varargsFlag != 0
  let minArgs := record.minArgs.toNat
  let maxArgs := record.maxArgs.toNat
  if maxArgs < minArgs || record.localNames.length < maxArgs + (if isVarargs then 1 else 0) then
    bad "inconsistent argument declaration"
  let (literals, references) ← segment charset record.literals
  let r : Routine := {
    name := record.name
    isProcedure := record.flags &&& RoutineRecord.procedureFlag != 0
    isVarargs, minArgs, maxArgs
    localNames := record.localNames.toArray
    names := record.names.toArray
    code
    literals := literals.toArray
    fileName := record.fileName
    lines := (record.lines.map fun (pc, line) => (pc.toNat, line.toNat)).toArray }
  modifyGet fun s =>
    let (heap, id) := s.heap.addRoutine r
    ((id, references), { s with heap })

/-- Makes an array without its elements. -/
def shell (record : ArrayRecord) : Restoring ArrayId := do
  match Grid.new (record.dims.map UInt32.toNat) with
  | .ok g =>
    modifyGet fun s =>
      let (heap, id) := s.heap.addArray g
      (id, { s with heap })
  | .error fault => throw fault

/-- Gives an array its elements. -/
def elements (charset : Charset) (id : ArrayId) (record : ArrayRecord) : Restoring References := do
  let (values, references) ← segment charset record.elements
  let g := (← get).heap.grid id
  let size := g.size
  let stored := values.length
  if stored ≠ size then bad s!"array has {size} elements, {stored} stored"
  modify fun s => { s with heap := s.heap.setGrid id (g.replace values.toArray) }
  return references

/-- What a process waits for; only processes that can go on are loaded. -/
def waitingFor (record : ProcessRecord) : Except Fault (Option String) :=
  match record.state, record.waitingFor with
  | .waiting, some key => .ok (some key)
  | .waiting, none => .error (.badFormat "waiting process without key")
  | .suspended, _ | .runnable, _ => .ok none
  | state, _ =>
    let name := state.name
    .error (.badFormat s!"cannot restore a {name} process")

/-- A handler that lies in its code and its part of the stack. -/
def handler (codeSize stackBase stackSize : Nat) (target depth : UInt32) : Except Fault Handler :=
  let target := target.toNat
  let depth := depth.toNat
  if codeSize < target || depth < stackBase || stackSize < depth then
    .error (.badFormat s!"invalid handler Handler \x7b target: {target}, stack_depth: {depth} \x7d")
  else .ok ⟨target, depth⟩

def check {α : Type} : Except Fault α → Restoring α
  | .ok a => pure a
  | .error fault => throw fault

/-- Loads a call that stands on one whose part of the stack begins at `outerBase`. -/
def frame (charset : Charset) (stackSize outerBase : Nat) (record : FrameRecord)
    : Restoring Frame := do
  let id ← check ((resolver (← get)).routine record.routine.toNat)
  let r := (← get).heap.routine id
  let name := r.name
  let pc := record.pc.toNat
  let stackBase := record.stackBase.toNat
  if r.code.size < pc then bad s!"pc {pc} outside '{name}'"
  if stackBase < outerBase || stackSize < stackBase then bad s!"invalid stack base {stackBase}"
  let handlers ← check (record.handlers.mapM fun (target, depth) =>
    handler r.code.size stackBase stackSize target depth)
  let (locals, _) ← segment charset record.locals
  let needed := r.numLocals
  if locals.length < needed then bad s!"'{name}' needs {needed} locals"
  return {
    routine := id, pc, locals := locals.toArray, handlers := handlers.reverse
    wantResult := record.wantResult, stackBase }

/-- Loads calls, outermost first; the result is innermost first, after `outer`. -/
def frames (charset : Charset) (stackSize : Nat) : Nat → List Frame → List FrameRecord →
    Restoring (List Frame)
  | _, outer, [] => return outer
  | outerBase, outer, record :: rest => do
    let f ← frame charset stackSize outerBase record
    frames charset stackSize f.stackBase (f :: outer) rest

/-- Loads a process. It has no id yet. -/
def process (config : Config) (charset : Charset) (record : ProcessRecord) : Restoring Process := do
  let waitingFor ← check (waitingFor record)
  let (stack, _) ← segment charset record.stack
  let frames ← frames charset stack.length 0 [] record.frames
  if frames.isEmpty then bad "process without frames"
  return { Process.new config 0 record.name with
    state := record.state, kind := record.kind, waitingFor, stack := stack.reverse, frames }

/-- The least of the numbers without a record. -/
def firstMissing {α : Type} (table : Array (Option α)) (numbers : List Nat) : Option Nat :=
  (numbers.filter fun number => (table[number]?.join).isNone).min?

/-- Why a record cannot stay: it refers to one that is not there. -/
def missing (s : Restored) (references : References) : Option Fault :=
  match firstMissing s.arrays references.arrays, firstMissing s.routines references.routines with
  | some number, _ => some (.badFormat s!"refers to skipped array record {number}")
  | none, some number => some (.badFormat s!"refers to skipped bytecode record {number}")
  | none, none => none

/-- Skips a routine that is there if it refers to a skipped record. -/
def dropRoutine (index : Nat) (references : References) : Restoring Unit := do
  let s ← get
  match s.routines[index]?.join, missing s references with
  | some _, some reason => do
    reject .routine index reason
    modify fun s => { s with routines := s.routines.setIfInBounds index none }
  | _, _ => return

/-- Skips an array that is there if it refers to a skipped record. -/
def dropArray (index : Nat) (references : References) : Restoring Unit := do
  let s ← get
  match s.arrays[index]?.join, missing s references with
  | some _, some reason => do
    reject .array index reason
    modify fun s => { s with arrays := s.arrays.setIfInBounds index none }
  | _, _ => return

/-- Applies a step to the members of a list and their places, from `index` on. -/
def eachFrom {α : Type} (step : Nat → α → Restoring Unit) : Nat → List α → Restoring Unit
  | _, [] => return
  | index, a :: rest => do
    step index a
    eachFrom step (index + 1) rest

/-- Skips records that refer to skipped ones until a round skips none. Each round but the last skips
one at least, so there are at most as many as records.
-/
def dropDependents (routineRefs arrayRefs : List References) : Nat → Restoring Unit
  | 0 => return
  | rounds + 1 => do
    let before := (← get).skipped.length
    eachFrom dropRoutine 0 routineRefs
    eachFrom dropArray 0 arrayRefs
    if (← get).skipped.length ≠ before then dropDependents routineRefs arrayRefs rounds

/-- Applies a step to the members of a list and their places, from `index` on, and collects the
results, latest first.
-/
def collectFrom {α β : Type} (step : Nat → α → Restoring β) : Nat → List β → List α →
    Restoring (List β)
  | _, done, [] => return done
  | index, done, a :: rest => do
    let b ← step index a
    collectFrom step (index + 1) (b :: done) rest

def collect {α β : Type} (step : Nat → α → Restoring β) (items : List α) : Restoring (List β) := do
  return (← collectFrom step 0 [] items).reverse

/-- Makes the array of a record and enters it. -/
def enterShell (policy : LoadPolicy) (index : Nat) (record : ArrayRecord) : Restoring Unit := do
  let id ← accept policy .array index (shell record)
  modify fun s => { s with arrays := s.arrays.push id }

/-- Loads the routine of a record and enters it. -/
def enterRoutine (policy : LoadPolicy) (charset : Charset) (index : Nat) (record : RoutineRecord)
    : Restoring References := do
  let loaded ← accept policy .routine index (routine charset record)
  modify fun s => { s with routines := s.routines.push (loaded.map (·.1)) }
  return (loaded.map (·.2)).getD {}

/-- Fills the array of a record, unless the record was skipped. -/
def enterElements (policy : LoadPolicy) (charset : Charset) (index : Nat) (record : ArrayRecord)
    : Restoring References := do
  match (← get).arrays[index]?.join with
  | none => return {}
  | some id =>
    match ← accept policy .array index (elements charset id record) with
    | some references => return references
    | none => do
      modify fun s => { s with arrays := s.arrays.setIfInBounds index none }
      return {}

/-- Loads all records of an object file. -/
def load (config : Config) (charset : Charset) (file : ObjectFile) : Restoring Loaded := do
  let policy := config.loadPolicy
  eachFrom (enterShell policy) 0 file.arrays
  let routineRefs ← collect (enterRoutine policy charset) file.routines
  let arrayRefs ← collect (enterElements policy charset) file.arrays
  dropDependents routineRefs arrayRefs (routineRefs.length + arrayRefs.length + 1)
  let processes ← collect
    (fun index record => accept policy .process index (process config charset record))
    file.processes
  let s ← get
  return {
    routines := s.routines.toList.filterMap id
    processes := processes.filterMap id
    skipped := s.skipped.reverse }

end Restoring

def ObjectFile.load (config : Config) (charset : Charset) (h : Heap) (file : ObjectFile)
    : Except Fault (Heap × Loaded) :=
  match (Restoring.load config charset file).run { heap := h } with
  | .ok loaded s => .ok (s.heap, loaded)
  | .error fault _ => .error fault

end TaskMachine

import TaskMachine.Blank
import TaskMachine.Codec.Hex
import TaskMachine.Console.Arguments
import TaskMachine.Console.Turns
import TaskMachine.Diagnostic
import TaskMachine.FuelWatch
import TaskMachine.Listing
import TaskMachine.ObjectFile.Container
import TaskMachine.ObjectFile.Reader
import TaskMachine.ObjectFile.Writer
import TaskMachine.Settings

/-!
The commands of the command line.
-/

namespace TaskMachine

namespace Console

/-- A result whose fault ends the command. -/
def check {α : Type} : Except Fault α → Course α
  | .ok a => return a
  | .error fault => throw fault.message

def interruptionMessage : Interruption → String
  | .fault fault => fault.message
  | .endless => "copy without end"

/-- The settings of a file, or the default ones. -/
def loadSettings (path : Option String) : Course Config := do
  match path with
  | none => return {}
  | some path => do
    let data ← Course.within s!"cannot read {path}: " (Course.read path)
    match Utf8.decode? data with
    | none => throw s!"cannot read {path}: stream did not contain valid UTF-8"
    | some text => Course.within s!"{path}: " (check (Config.ofToml text))

def fileTrouble (verb path : String) : String :=
  (Fault.badFormat s!"cannot {verb} {path}: ").message

/-- Loads an object file and warns of each record that is skipped. -/
def loadObjects (path : String) (config : Config) : Course (Heap × Loaded) := do
  let data ← Course.within (fileTrouble "read" path) (Course.read path)
  let file ← check (ObjectFile.ofBytes data)
  let charset ← check (Charset.ofLabel config.charset)
  let (h, loaded) ← check (file.load config charset Heap.empty)
  for skipped in loaded.skipped do
    let kind := skipped.kind.name
    let index := skipped.index
    let reason := skipped.reason.message
    Course.print s!"warning: skipped {kind} record {index}: {reason}\n"
  return (h, loaded)

/-- Adds processes to an object file. -/
def storeAll (charset : Charset) (h : Heap) : Writer → List Process → Course Writer
  | w, [] => return w
  | w, p :: rest =>
    match (Writer.addProcess charset h p).run w with
    | .ok () w => storeAll charset h w rest
    | .error fault _ =>
      let id := p.id
      let name := p.name
      throw s!"process {id} '{name}': {fault.message}"

def saveProcesses (s : Scheduler) (path : String) : Course Unit := do
  let charset ← check (Charset.ofLabel s.config.charset)
  let w ← storeAll charset s.world.heap Writer.new s.processes
  Course.within (fileTrouble "write" path) (Course.write path w.file.toBytes)

/-- Writes the sample task. -/
def demo (path : String) (limit : Int32) (config : Config) : Course Unit := do
  let (h, task) ← check Heap.empty.addFuelWatch
  let s := Scheduler.new config
  let s := { s with world := { s.world with heap := h } }
  match s.addNamed "Fuel watch" .shipTask task [.integer limit] with
  | (.error e, _) => throw (interruptionMessage e)
  | (.ok _, s) => do
    saveProcesses s path
    Course.print s!"Wrote {path}\n"

/-- Runs the processes of a file. -/
def run (path : String) (trace : Bool) (turns : Nat) (save : Option String) (config : Config)
    : Course Unit := do
  let (h, loaded) ← loadObjects path config
  let s := Scheduler.new config
  let s := { s with world := Host.register { s.world with heap := h } }
  let s := loaded.processes.foldl (fun s p => (s.adopt p).2) s
  let s ← Turns.play Machine.patience trace Machine.patience ⟨s, turns, .opening 1⟩
  let count := s.processes.length
  match save with
  | some out => do
    saveProcesses s out
    Course.print s!"Saved {count} process(es) to {out}\n"
  | none => if count ≠ 0 then Course.print s!"{count} process(es) still alive\n"

/-- The line of a call in the contents of a file. -/
def callText (h : Heap) (f : Frame) : String :=
  let routine := h.routine f.routine
  let name := routine.name
  let pc := f.pc
  let line :=
    match routine.lineAt pc with
    | some line => s!" line {line}"
    | none => ""
  s!"  at {name} pc {pc}{line}\n"

/-- The lines of a process in the contents of a file. -/
def processText (h : Heap) (p : Process) : String :=
  let name := p.name
  let kind := p.kind.name
  let state := p.state.name
  let waiting :=
    match p.waitingFor with
    | some key => ", waiting for " ++ Diagnostic.string key
    | none => ""
  let stack := String.intercalate ", " (p.stack.reverse.map h.readable)
  s!"Process '{name}' ({kind}, {state}{waiting})\n"
    ++ String.join (p.frames.map (callText h)) ++ s!"  stack: [{stack}]\n"

/-- Shows the contents of a file. -/
def dump (path : String) (config : Config) : Course Unit := do
  let (h, loaded) ← loadObjects path config
  for r in loaded.routines do
    Course.print ((h.routine r).listing h ++ "\n")
  for p in loaded.processes do
    Course.print (processText h p)

/-- The value of two hexadecimal digits, of which the first may be a plus sign instead. -/
def digitPair? (a b : Char) : Option UInt8 := do
  let high ← if a = '+' then some 0 else Hex.digit? a
  let low ← Hex.digit? b
  some (UInt8.ofNat (16 * high + low))

/-- The bytes of pairs of digits. -/
def pairBytes : List Char → Except String Bytes
  | a :: b :: rest =>
    match digitPair? a b with
    | some byte => (pairBytes rest).map (byte :: ·)
    | none => .error ("invalid hex digits '" ++ String.ofList [a, b] ++ "'")
  | _ => .ok []

/-- The node of a stored real in twelve hexadecimal digits. -/
def realOfDigits (digits : String) : Except String TagNode := do
  let text := trim digits.toList
  if text.length ≠ 12 || !text.all (·.toNat < 128) then
    throw ("expected 12 hex digits, got '" ++ String.ofList text ++ "'")
  let node := TagNode.ofBytes (← pairBytes text)
  if !node.isReal then throw ("tag " ++ Reader.tagText node.tag ++ " is not a real")
  return node

def carryOut (command : Command) (config : Config) : Course Unit :=
  match command with
  | .demo out limit => demo out limit config
  | .run file trace turns save => run file trace turns save config
  | .dump file => dump file config
  | .decodeReal digits =>
    match realOfDigits digits with
    | .ok node => Course.print (FloatText.console (Real48.decode node) ++ "\n")
    | .error message => throw message
  | .encodeReal x => Course.print (Hex.upperText (Real48.encode x).toBytes ++ "\n")

/-- How the program ends. -/
structure Exit where
  code : Nat
  /-- What goes to the error output. -/
  message : String

def usage : String :=
  "Usage: cosmos [--config <FILE>] [--verbose] <demo|run|dump|real|help>\n"

def versionText : String :=
  "cosmos 0.3.0\n"

/-- The whole program. Without a settings file among the arguments the default one is used, if there
is one.
-/
def program (defaultSettings : Option String) (args : List String) : Dialogue Exit :=
  match request args with
  | .misuse => .finish ⟨2, usage⟩
  | .help => .print usage fun _ => .finish ⟨0, ""⟩
  | .version => .print versionText fun _ => .finish ⟨0, ""⟩
  | .invoke i => do
    let course : Course Unit := do carryOut i.command (← loadSettings (i.config.or defaultSettings))
    match ← course.run with
    | .ok () => return ⟨0, ""⟩
    | .error message => return ⟨1, "Error: " ++ message ++ "\n"⟩

end Console

end TaskMachine

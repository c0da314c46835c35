import TaskMachine.Console.Dialogue

/-!
A sandbox in which dialogues are followed: a tree of files, input that is known beforehand, and a
record of what was printed. A directory is there if a file lies in it.
-/

namespace TaskMachine

/-- Why a path cannot be used. -/
inductive PathFault where
  | missing
  | notDirectory
  | isDirectory
deriving DecidableEq, Repr

def PathFault.message : PathFault → String
  | missing => "No such file or directory (os error 2)"
  | notDirectory => "Not a directory (os error 20)"
  | isDirectory => "Is a directory (os error 21)"

/-- Files by the steps of their paths. -/
structure Files where
  entries : List (List String × Bytes)

namespace Files

def steps (path : String) : List String :=
  (path.splitOn "/").filter fun step => step != "" && step != "."

/-- Does the path name a directory by its ending? -/
def namesDirectory (path : String) : Bool :=
  match (path.splitOn "/").getLast? with
  | some last => last == "" || last == "." || last == ".."
  | none => true

/-- The contents of the file at the end of some steps. -/
def find? (f : Files) (place : List String) : Option Bytes :=
  (f.entries.find? (·.1 == place)).map (·.2)

def isDirectory (f : Files) (place : List String) : Bool :=
  place.isEmpty || f.entries.any fun (p, _) => place.isPrefixOf p && place.length < p.length

/-- The place that steps lead to from a directory. All but the last must lead into directories. -/
def walk (f : Files) (dir : List String) : List String → Except PathFault (List String)
  | [] => .ok dir
  | step :: rest =>
    let place := if step = ".." then dir.dropLast else dir ++ [step]
    if rest.isEmpty || f.isDirectory place then walk f place rest
    else if (f.find? place).isSome then .error .notDirectory
    else .error .missing

def read (f : Files) (path : String) : Except PathFault Bytes := do
  let place ← f.walk [] (steps path)
  if f.isDirectory place then .error .isDirectory
  else
    match f.find? place with
    | some data => if namesDirectory path then .error .notDirectory else .ok data
    | none => .error .missing

/-- Writes a file, in place of one that is there. -/
def write (f : Files) (path : String) (data : Bytes) : Except PathFault Files := do
  let place ← f.walk [] (steps path)
  if f.isDirectory place then .error .isDirectory
  else if namesDirectory path then
    .error (if (f.find? place).isSome then .notDirectory else .isDirectory)
  else .ok ⟨(place, data) :: f.entries.filter (·.1 != place)⟩

/-- Puts a file at a path, with all directories on the way. -/
def put (f : Files) (path : String) (data : Bytes) : Files :=
  ⟨(steps path, data) :: f.entries.filter (·.1 != steps path)⟩

end Files

structure Sandbox where
  files : Files
  /-- The lines of input that are not read yet. -/
  input : List String
  /-- What was printed. -/
  output : String := ""

/-- The lines of a text, each with its line end; the last one may lack it. -/
def inputLines (text : String) : List String :=
  let lines := text.splitOn "\n"
  let complete := lines.dropLast.map (· ++ "\n")
  match lines.getLast? with
  | some last => if last.isEmpty then complete else complete ++ [last]
  | none => complete

namespace Dialogue

/-- Follows a dialogue to its result. -/
def follow {α : Type} (s : Sandbox) : Dialogue α → α × Sandbox
  | finish a => (a, s)
  | print text next => follow { s with output := s.output ++ text } (next ())
  | ask next =>
    match s.input with
    | [] => follow s (next (.ok none))
    | line :: rest => follow { s with input := rest } (next (.ok (some line)))
  | read path next => follow s (next ((s.files.read path).mapError PathFault.message))
  | write path data next =>
    match s.files.write path data with
    | .ok files => follow { s with files } (next (.ok ()))
    | .error fault => follow s (next (.error fault.message))

end Dialogue

end TaskMachine

import TaskMachine.Console.Commands

/-!
The command line program: carries out the dialogue of its arguments at the terminal.
-/

namespace TaskMachine

def troubleText : IO.Error → String
  | .noFileOrDirectory .. => "No such file or directory (os error 2)"
  | .permissionDenied .. => "Permission denied (os error 13)"
  | .inappropriateType _ code _ =>
    if code = 20 then "Not a directory (os error 20)" else "Is a directory (os error 21)"
  | e => toString e

/-- The result of an action at the terminal. -/
def attempt {α : Type} (action : IO α) : IO (Except String α) := do
  try return .ok (← action)
  catch e => return .error (troubleText e)

/-- A line of input, or nothing at its end. -/
def inputLine : IO (Option String) := do
  let line ← (← IO.getStdin).getLine
  return if line.isEmpty then none else some line

def Dialogue.carryOut {α : Type} : Dialogue α → IO α
  | finish a => return a
  | print text next => do
    let output ← IO.getStdout
    output.putStr text
    output.flush
    carryOut (next ())
  | ask next => do carryOut (next (← attempt inputLine))
  | read path next => do
    let data ← attempt (IO.FS.readBinFile path)
    carryOut (next (data.map fun bytes => bytes.toList))
  | write path data next => do
    carryOut (next (← attempt (IO.FS.writeBinFile path ⟨data.toArray⟩)))

/-- The default settings file, if it is there. -/
def defaultSettings : IO (Option String) := do
  let base ←
    match ← IO.getEnv "XDG_CONFIG_HOME" with
    | some dir => if dir.startsWith "/" then pure (some dir) else pure none
    | none => pure none
  let home := (← IO.getEnv "HOME").map (· ++ "/.config")
  match base.or home with
  | some dir => do
    let path := dir ++ "/cosmos/config.toml"
    match ← attempt (IO.FS.readBinFile path) with
    | .ok _ => return some path
    | .error _ => return none
  | none => return none

end TaskMachine

def main (args : List String) : IO UInt32 := do
  let ending ← (TaskMachine.Console.program (← TaskMachine.defaultSettings) args).carryOut
  IO.eprint ending.message
  return UInt32.ofNat ending.code

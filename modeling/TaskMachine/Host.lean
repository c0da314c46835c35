import TaskMachine.Blank
import TaskMachine.Decimal.Reading
import TaskMachine.World

/-!
The functions that the console lends to scripts, and how it reads what is typed.
-/

namespace TaskMachine

namespace Host

/-- The number that a text stands for: an integer if it fits, else a finite float. -/
def readNumber? (s : List Char) : Option Value :=
  match NumberText.int32? s with
  | some n => some (.integer n)
  | none =>
    match NumberText.float? s with
    | some x => if x.isFinite then some (.float x) else none
    | none => none

/-- The value of typed text: null if it is blank, a number if it is one, and else the text itself
without blanks around it.
-/
def readInput (line : String) : Value :=
  let text := trim line.toList
  if text.isEmpty then .null else (readNumber? text).getD (.string (String.ofList text))

def print (args : List Argument) : HostReply :=
  { outcome := .ok .null, events := [.line (String.intercalate " " (args.map Argument.plain))] }

/-- A function of one argument that keeps null and fails only as `f` does. -/
def present (f : Argument → Except Fault Value) (args : List Argument) : HostReply :=
  match args with
  | a :: _ => { outcome := if a.value.isNull then .ok .null else f a }
  | [] => { outcome := .ok .null }

/-- The number of characters of the plain text. -/
def length (a : Argument) : Except Fault Value :=
  .ok (.integer (Int32.ofNat a.plain.length))

def text (a : Argument) : Except Fault Value :=
  .ok (.string a.plain)

/-- The number that a string stands for, or null. -/
def number (a : Argument) : Except Fault Value :=
  match a.value with
  | .string s => .ok ((readNumber? (trim s.toList)).getD .null)
  | v =>
    let kind := v.typeName
    .error (.typeMismatch s!"Val expects a string, got {kind}")

def functions : List NativeFunction := [
  { name := "PRINT", minArgs := 0, maxArgs := none, isProcedure := true, run := print },
  { name := "LEN", minArgs := 1, maxArgs := some 1, isProcedure := false, run := present length },
  { name := "STR", minArgs := 1, maxArgs := some 1, isProcedure := false, run := present text },
  { name := "VAL", minArgs := 1, maxArgs := some 1, isProcedure := false, run := present number }]

def register (w : World) : World :=
  functions.foldl World.defineNative w

end Host

end TaskMachine

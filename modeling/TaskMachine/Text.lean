import TaskMachine.Decimal.Layout
import TaskMachine.Heap

/-!
The texts of values. The plain text is what scripts print and join; the readable text is the form of
a literal, in which strings are quoted.
-/

namespace TaskMachine

/-- A character within quotes: quotes, backslashes, line ends and tabs are escaped. -/
def quotedChar (c : Char) : List Char :=
  if c = '"' then ['\\', '"']
  else if c = '\\' then ['\\', '\\']
  else if c = '\n' then ['\\', 'n']
  else if c = '\t' then ['\\', 't']
  else [c]

def quoted (s : String) : String :=
  String.ofList ('"' :: s.toList.flatMap quotedChar ++ ['"'])

namespace Heap

def calleeText (h : Heap) : Callee → String
  | .subroutine r =>
    let routine := h.routine r
    (if routine.isProcedure then "#<procedure " else "#<function ") ++ routine.name ++ ">"
  | .native f => "#<builtin " ++ f.name ++ ">"
  | .hosted c => c.text

def callableText (h : Heap) (c : CallableId) : String :=
  match h.callable c with
  | .direct callee => h.calleeText callee
  | .closure .. => "#<closure>"

/-- The text of a value, plain or readable. -/
def text (h : Heap) (readable : Bool) : Value → String
  | .null => "Empty"
  | .integer n => toString n.toInt
  | .boolean b =>
    match readable, b with
    | true, true => "True"
    | true, false => "False"
    | false, true => "YES"
    | false, false => "NO"
  | .float x => FloatText.script x
  | .string s => if readable then quoted s else s
  | .callable c => h.callableText c
  | .array _ => "#<array>"
  | .object o => (h.object o).text readable

def plain (h : Heap) (v : Value) : String :=
  h.text false v

def readable (h : Heap) (v : Value) : String :=
  h.text true v

/-- A value as the host sees it among the arguments of a call. -/
def argument (h : Heap) (v : Value) : Argument :=
  ⟨v, h.plain v, h.readable v⟩

end Heap

end TaskMachine

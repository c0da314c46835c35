import TaskMachine.Printable
import TaskMachine.Text

/-!
The diagnostic texts of strings and values. They tell every string from every other, also where some
of its characters cannot be seen.
-/

namespace TaskMachine

namespace Diagnostic

/-- A character by its code point. -/
def codePoint (c : Char) : List Char :=
  ['\\', 'u', '\x7b'] ++ Nat.toDigits 16 c.toNat ++ ['\x7d']

def character (c : Char) : List Char :=
  if c = Char.ofNat 0 then ['\\', '0']
  else if c = '\t' then ['\\', 't']
  else if c = '\r' then ['\\', 'r']
  else if c = '\n' then ['\\', 'n']
  else if c = '\\' then ['\\', '\\']
  else if c = '"' then ['\\', '"']
  else if isPrintable c then [c]
  else codePoint c

def string (s : String) : String :=
  String.ofList ('"' :: s.toList.flatMap character ++ ['"'])

/-- The diagnostic text of a value, which names the kind of a plain one. -/
def value (h : Heap) (v : Value) : String :=
  match v with
  | .null => "Null"
  | .integer n => "Integer(" ++ toString n.toInt ++ ")"
  | .boolean b => "Boolean(" ++ (if b then "true" else "false") ++ ")"
  | .float x => "Float(" ++ FloatText.diagnostic x ++ ")"
  | .string s => "String(" ++ string s ++ ")"
  | v => h.readable v

end Diagnostic

end TaskMachine

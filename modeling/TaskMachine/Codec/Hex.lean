import TaskMachine.Codec.Bytes

/-!
Bytes as hexadecimal text, two digits a byte.
-/

namespace TaskMachine

namespace Hex

def ofByte (b : UInt8) : List Char :=
  [Nat.digitChar (b.toNat / 16), Nat.digitChar (b.toNat % 16)]

/-- The text of bytes, with letters in lower case. -/
def text (bytes : Bytes) : String :=
  String.ofList (bytes.flatMap ofByte)

/-- The text of bytes, with letters in upper case. -/
def upperText (bytes : Bytes) : String :=
  String.ofList ((bytes.flatMap ofByte).map Char.toUpper)

/-- The value of a digit, with letters in either case. -/
def digit? (c : Char) : Option Nat :=
  let n := c.toNat
  if c.isDigit then some (n - 48)
  else if 97 ≤ n ∧ n ≤ 102 then some (n - 87)
  else if 65 ≤ n ∧ n ≤ 70 then some (n - 55)
  else none

/-- The bytes of a text, latest first, after those already read. -/
def bytesAfter : Bytes → List Char → Option Bytes
  | done, [] => some done
  | _, [_] => none
  | done, a :: b :: rest =>
    match digit? a, digit? b with
    | some high, some low => bytesAfter (UInt8.ofNat (16 * high + low) :: done) rest
    | _, _ => none

def bytes? (s : String) : Option Bytes :=
  (bytesAfter [] s.toList).map List.reverse

end Hex

end TaskMachine

import TaskMachine.Codec.Bytes

/-!
Text as UTF-8 bytes. Bytes are read one character at a time; where they do not continue a character,
reading resumes at the byte that does not fit. Lenient reading puts U+FFFD in such a place, strict
reading refuses the text.
-/

namespace TaskMachine

namespace Utf8

def encode (s : String) : Bytes :=
  s.toList.flatMap String.utf8EncodeChar

/-- Reads `n` continuation bytes, the first within the given bounds, onto the leading bits. -/
def continuation : Nat → UInt8 → UInt8 → Nat → Bytes → Option Char × Bytes
  | 0, _, _, code, rest => (some (Char.ofNat code), rest)
  | _ + 1, _, _, _, [] => (none, [])
  | n + 1, low, high, code, b :: rest =>
    if low ≤ b ∧ b ≤ high then continuation n 0x80 0xBF (code * 64 + (b.toNat - 0x80)) rest
    else (none, b :: rest)

/-- Reads the character that starts with the byte `b`, or nothing if it is malformed. The bounds of
the second byte exclude overlong forms, surrogates and codes beyond the last character.
-/
def next (b : UInt8) (rest : Bytes) : Option Char × Bytes :=
  if b < 0x80 then (some (Char.ofNat b.toNat), rest)
  else if b < 0xC2 then (none, rest)
  else if b < 0xE0 then continuation 1 0x80 0xBF (b.toNat - 0xC0) rest
  else if b < 0xF0 then
    continuation 2 (if b = 0xE0 then 0xA0 else 0x80) (if b = 0xED then 0x9F else 0xBF)
      (b.toNat - 0xE0) rest
  else if b < 0xF5 then
    continuation 3 (if b = 0xF0 then 0x90 else 0x80) (if b = 0xF4 then 0x8F else 0xBF)
      (b.toNat - 0xF0) rest
  else (none, rest)

/-- Reads all characters, latest first, with `none` for what is malformed. Each takes a byte at
least, so as many steps as there are bytes are enough.
-/
def readAll : Nat → List (Option Char) → Bytes → List (Option Char)
  | _, done, [] => done
  | 0, done, _ => done
  | fuel + 1, done, b :: rest =>
    let (c, rest) := next b rest
    readAll fuel (c :: done) rest

/-- The characters of a text, with `none` for what is malformed. -/
def characters (bytes : Bytes) : List (Option Char) :=
  (readAll bytes.length [] bytes).reverse

def decode (bytes : Bytes) : String :=
  String.ofList ((characters bytes).map fun c => c.getD '\uFFFD')

/-- Reads a text strictly. -/
def decode? (bytes : Bytes) : Option String :=
  ((characters bytes).mapM id).map String.ofList

end Utf8

end TaskMachine

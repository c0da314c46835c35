import TaskMachine.Codec.Utf8

/-!
Character encodings: how text is written as bytes, and read from them. Encodings of one byte a
character share the ASCII half and differ in the table of the upper half. What an encoding cannot
write becomes a numeric reference; encodings for reading only write UTF-8.
-/

namespace TaskMachine

/-- How the bytes of an encoding are understood. -/
inductive Encoding where
  | utf8
  /-- One byte a character: ASCII, and the characters of the bytes from `0x80` on. -/
  | singleByte (name : String) (upper : List Nat)
  /-- Two bytes a unit, for reading only. -/
  | utf16 (bigEndian : Bool)
  /-- Reads any text as a single replacement character. -/
  | replacement
deriving DecidableEq, Repr

namespace Encoding

/-- The upper half of the Western European code page. -/
def windows1252Upper : List Nat := [
    0x20AC, 0x81, 0x201A, 0x192, 0x201E, 0x2026, 0x2020, 0x2021, 0x2C6, 0x2030, 0x160, 0x2039, 0x152, 0x8D, 0x17D, 0x8F,
    0x90, 0x2018, 0x2019, 0x201C, 0x201D, 0x2022, 0x2013, 0x2014, 0x2DC, 0x2122, 0x161, 0x203A, 0x153, 0x9D, 0x17E, 0x178,
    0xA0, 0xA1, 0xA2, 0xA3, 0xA4, 0xA5, 0xA6, 0xA7, 0xA8, 0xA9, 0xAA, 0xAB, 0xAC, 0xAD, 0xAE, 0xAF,
    0xB0, 0xB1, 0xB2, 0xB3, 0xB4, 0xB5, 0xB6, 0xB7, 0xB8, 0xB9, 0xBA, 0xBB, 0xBC, 0xBD, 0xBE, 0xBF,
    0xC0, 0xC1, 0xC2, 0xC3, 0xC4, 0xC5, 0xC6, 0xC7, 0xC8, 0xC9, 0xCA, 0xCB, 0xCC, 0xCD, 0xCE, 0xCF,
    0xD0, 0xD1, 0xD2, 0xD3, 0xD4, 0xD5, 0xD6, 0xD7, 0xD8, 0xD9, 0xDA, 0xDB, 0xDC, 0xDD, 0xDE, 0xDF,
    0xE0, 0xE1, 0xE2, 0xE3, 0xE4, 0xE5, 0xE6, 0xE7, 0xE8, 0xE9, 0xEA, 0xEB, 0xEC, 0xED, 0xEE, 0xEF,
    0xF0, 0xF1, 0xF2, 0xF3, 0xF4, 0xF5, 0xF6, 0xF7, 0xF8, 0xF9, 0xFA, 0xFB, 0xFC, 0xFD, 0xFE, 0xFF]

/-- The upper half of the Cyrillic code page. -/
def windows1251Upper : List Nat := [
    0x402, 0x403, 0x201A, 0x453, 0x201E, 0x2026, 0x2020, 0x2021, 0x20AC, 0x2030, 0x409, 0x2039, 0x40A, 0x40C, 0x40B, 0x40F,
    0x452, 0x2018, 0x2019, 0x201C, 0x201D, 0x2022, 0x2013, 0x2014, 0x98, 0x2122, 0x459, 0x203A, 0x45A, 0x45C, 0x45B, 0x45F,
    0xA0, 0x40E, 0x45E, 0x408, 0xA4, 0x490, 0xA6, 0xA7, 0x401, 0xA9, 0x404, 0xAB, 0xAC, 0xAD, 0xAE, 0x407,
    0xB0, 0xB1, 0x406, 0x456, 0x491, 0xB5, 0xB6, 0xB7, 0x451, 0x2116, 0x454, 0xBB, 0x458, 0x405, 0x455, 0x457,
    0x410, 0x411, 0x412, 0x413, 0x414, 0x415, 0x416, 0x417, 0x418, 0x419, 0x41A, 0x41B, 0x41C, 0x41D, 0x41E, 0x41F,
    0x420, 0x421, 0x422, 0x423, 0x424, 0x425, 0x426, 0x427, 0x428, 0x429, 0x42A, 0x42B, 0x42C, 0x42D, 0x42E, 0x42F,
    0x430, 0x431, 0x432, 0x433, 0x434, 0x435, 0x436, 0x437, 0x438, 0x439, 0x43A, 0x43B, 0x43C, 0x43D, 0x43E, 0x43F,
    0x440, 0x441, 0x442, 0x443, 0x444, 0x445, 0x446, 0x447, 0x448, 0x449, 0x44A, 0x44B, 0x44C, 0x44D, 0x44E, 0x44F]

/-- The upper half of the Cyrillic code page with box drawings. -/
def ibm866Upper : List Nat := [
    0x410, 0x411, 0x412, 0x413, 0x414, 0x415, 0x416, 0x417, 0x418, 0x419, 0x41A, 0x41B, 0x41C, 0x41D, 0x41E, 0x41F,
    0x420, 0x421, 0x422, 0x423, 0x424, 0x425, 0x426, 0x427, 0x428, 0x429, 0x42A, 0x42B, 0x42C, 0x42D, 0x42E, 0x42F,
    0x430, 0x431, 0x432, 0x433, 0x434, 0x435, 0x436, 0x437, 0x438, 0x439, 0x43A, 0x43B, 0x43C, 0x43D, 0x43E, 0x43F,
    0x2591, 0x2592, 0x2593, 0x2502, 0x2524, 0x2561, 0x2562, 0x2556, 0x2555, 0x2563, 0x2551, 0x2557, 0x255D, 0x255C, 0x255B, 0x2510,
    0x2514, 0x2534, 0x252C, 0x251C, 0x2500, 0x253C, 0x255E, 0x255F, 0x255A, 0x2554, 0x2569, 0x2566, 0x2560, 0x2550, 0x256C, 0x2567,
    0x2568, 0x2564, 0x2565, 0x2559, 0x2558, 0x2552, 0x2553, 0x256B, 0x256A, 0x2518, 0x250C, 0x2588, 0x2584, 0x258C, 0x2590, 0x2580,
    0x440, 0x441, 0x442, 0x443, 0x444, 0x445, 0x446, 0x447, 0x448, 0x449, 0x44A, 0x44B, 0x44C, 0x44D, 0x44E, 0x44F,
    0x401, 0x451, 0x404, 0x454, 0x407, 0x457, 0x40E, 0x45E, 0xB0, 0x2219, 0xB7, 0x221A, 0x2116, 0xA4, 0x25A0, 0xA0]

/-- The upper half that keeps each byte as a private character. -/
def userDefinedUpper : List Nat :=
  (List.range 128).map (0xF780 + ·)

def name : Encoding → String
  | utf8 => "UTF-8"
  | singleByte name _ => name
  | utf16 true => "UTF-16BE"
  | utf16 false => "UTF-16LE"
  | replacement => "replacement"

/-- The numeric reference that stands for a character without a byte. -/
def reference (c : Char) : Bytes :=
  Utf8.encode ("&#" ++ toString c.toNat ++ ";")

/-- The bytes of a character in an encoding of one byte a character. -/
def singleByteOf (upper : List Nat) (c : Char) : Bytes :=
  if c.toNat < 128 then [UInt8.ofNat c.toNat]
  else
    match upper.findIdx? (· == c.toNat) with
    | some i => [UInt8.ofNat (128 + i)]
    | none => reference c

/-- The character of a byte in an encoding of one byte a character. -/
def charOf (upper : List Nat) (b : UInt8) : Char :=
  if b < 128 then Char.ofNat b.toNat
  else
    match upper[b.toNat - 128]? with
    | some code => Char.ofNat code
    | none => '\uFFFD'

def encode (e : Encoding) (s : String) : Bytes :=
  match e with
  | singleByte _ upper => s.toList.flatMap (singleByteOf upper)
  | utf8 | utf16 _ | replacement => Utf8.encode s

/-- The units of two bytes, latest first, and whether a byte is left over. -/
def units (bigEndian : Bool) (done : List Nat) : Bytes → List Nat × Bool
  | [] => (done, false)
  | [_] => (done, true)
  | a :: b :: rest =>
    let unit := if bigEndian then a.toNat * 256 + b.toNat else b.toNat * 256 + a.toNat
    units bigEndian (unit :: done) rest

/-- Is a unit the first of a pair? -/
def isLead (unit : Nat) : Bool :=
  0xD800 ≤ unit && unit < 0xDC00

def isTrail (unit : Nat) : Bool :=
  0xDC00 ≤ unit && unit < 0xE000

/-- The characters of units, latest first. A unit without its partner is malformed; what is left
over at the end counts once, together with a first unit before it.
-/
def joinUnits (leftOver : Bool) (done : List Char) : List Nat → List Char
  | [] => if leftOver then '\uFFFD' :: done else done
  | [unit] =>
    if isLead unit then '\uFFFD' :: done
    else
      let c := if isTrail unit then '\uFFFD' else Char.ofNat unit
      if leftOver then '\uFFFD' :: c :: done else c :: done
  | unit :: next :: rest =>
    if isLead unit then
      if isTrail next then
        let code := 0x10000 + (unit - 0xD800) * 0x400 + (next - 0xDC00)
        joinUnits leftOver (Char.ofNat code :: done) rest
      else joinUnits leftOver ('\uFFFD' :: done) (next :: rest)
    else
      let c := if isTrail unit then '\uFFFD' else Char.ofNat unit
      joinUnits leftOver (c :: done) (next :: rest)

def decode (e : Encoding) (bytes : Bytes) : String :=
  match e with
  | utf8 => Utf8.decode bytes
  | singleByte _ upper => String.ofList (bytes.map (charOf upper))
  | utf16 bigEndian =>
    let (reversed, leftOver) := units bigEndian [] bytes
    String.ofList (joinUnits leftOver [] reversed.reverse).reverse
  | replacement => if bytes.isEmpty then "" else "\uFFFD"

end Encoding

end TaskMachine

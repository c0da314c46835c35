import TaskMachine.Codec.Bytes
import TaskMachine.Codec.Utf8

/-!
Layouts: how a kind of data is written as bytes and taken back off the front of bytes. Layouts of
records are put together from those of their fields, so that writing and reading always agree on the
order.
-/

namespace TaskMachine

/-- The written form of a kind of data. -/
structure Layout (α : Type) where
  put : α → Bytes
  take? : Bytes → Option (α × Bytes)

namespace Layout

/-- A number of `n` bytes. -/
def number (n : Nat) : Layout Nat where
  put := Bytes.ofNat n
  take? s := (Bytes.split? n s).map fun (front, back) => (Bytes.toNat front, back)

/-- A layout whose data are taken for others, where the reader may refuse. -/
def refine {α β : Type} (l : Layout α) (read : α → Option β) (write : β → α) : Layout β where
  put b := l.put (write b)
  take? s :=
    match l.take? s with
    | some (a, rest) => (read a).map fun b => (b, rest)
    | none => none

/-- A layout whose data are taken for others. -/
def convert {α β : Type} (l : Layout α) (read : α → β) (write : β → α) : Layout β :=
  l.refine (fun a => some (read a)) write

/-- One datum after another. -/
def both {α β : Type} (l : Layout α) (m : Layout β) : Layout (α × β) where
  put := fun (a, b) => l.put a ++ m.put b
  take? s :=
    match l.take? s with
    | some (a, rest) => (m.take? rest).map fun (b, rest) => ((a, b), rest)
    | none => none

def byte : Layout UInt8 :=
  (number 1).convert UInt8.ofNat UInt8.toNat

def word16 : Layout UInt16 :=
  (number 2).convert UInt16.ofNat UInt16.toNat

def word32 : Layout UInt32 :=
  (number 4).convert UInt32.ofNat UInt32.toNat

/-- A truth value: a byte that is 0 or 1. -/
def flag : Layout Bool :=
  byte.refine
    (fun b => if b = 0 then some false else if b = 1 then some true else none)
    (fun b => if b then 1 else 0)

def bytesOf (n : Nat) : Layout Bytes where
  put bytes := bytes
  take? := Bytes.split? n

/-- Takes `count` data, latest first. -/
def takeEach {α : Type} (l : Layout α) : Nat → List α → Bytes → Option (List α × Bytes)
  | 0, done, s => some (done, s)
  | count + 1, done, s =>
    match l.take? s with
    | some (a, rest) => takeEach l count (a :: done) rest
    | none => none

/-- A list: its length in eight bytes, and its members. -/
def list {α : Type} (l : Layout α) : Layout (List α) where
  put items := (number 8).put items.length ++ items.flatMap l.put
  take? s :=
    match (number 8).take? s with
    | some (count, rest) => (l.takeEach count [] rest).map fun (done, rest) => (done.reverse, rest)
    | none => none

/-- Bytes: their number in eight bytes, and they themselves. -/
def bytes : Layout Bytes where
  put bytes := (number 8).put bytes.length ++ bytes
  take? s :=
    match (number 8).take? s with
    | some (count, rest) => Bytes.split? count rest
    | none => none

/-- A string in UTF-8, which is checked. -/
def string : Layout String :=
  bytes.refine Utf8.decode? Utf8.encode

/-- Something or nothing: a byte that is 1 or 0, and the datum if there is one. -/
def optional {α : Type} (l : Layout α) : Layout (Option α) where
  put
    | none => flag.put false
    | some a => flag.put true ++ l.put a
  take? s :=
    match flag.take? s with
    | some (true, rest) => (l.take? rest).map fun (a, rest) => (some a, rest)
    | some (false, rest) => some (none, rest)
    | none => none

/-- One of the given cases, by its place among them in 32 bits. -/
def choice {α : Type} [DecidableEq α] (cases : List α) : Layout α :=
  word32.refine (fun i => cases[i.toNat]?) (fun a => UInt32.ofNat (cases.idxOf a))

end Layout

end TaskMachine

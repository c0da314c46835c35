import TaskMachine.Fault
import TaskMachine.Value

/-!
The contents of an array: a box of dimensions and one cell for each index tuple in it, stored row by
row. Reading and writing go through `Grid.position`, which turns an index tuple into a cell.
-/

namespace TaskMachine

/-- The number of cells of a box: the product of its dimensions. -/
def volume : List Nat → Nat
  | [] => 1
  | d :: rest => d * volume rest

structure Grid where
  dims : List Nat
  cells : Array Value
deriving Inhabited

namespace Grid

/-- The most cells that an array may have. -/
def maxCells : Nat := 10000000

/-- Does every product of leading dimensions, times `total`, stay within the limit? -/
def fits : Nat → List Nat → Bool
  | _, [] => true
  | total, d :: rest => total * d ≤ maxCells && fits (total * d) rest

def dimsText (dims : List Nat) : String :=
  "[" ++ String.intercalate ", " (dims.map toString) ++ "]"

/-- A grid of nulls. There must be a dimension, and no product of leading dimensions may exceed the
limit.
-/
def new (dims : List Nat) : Except Fault Grid :=
  if dims.isEmpty then .error (.outOfRange "array needs at least one dimension")
  else if fits 1 dims then .ok ⟨dims, Array.replicate (volume dims) .null⟩
  else
    let text := dimsText dims
    .error (.outOfRange s!"array dimensions {text} too large")

/-- Values cut or filled up with nulls to a given number. -/
def resize (n : Nat) (values : Array Value) : Array Value :=
  values.extract 0 n ++ Array.replicate (n - values.size) .null

/-- A grid with given dimensions and cells; cells that are missing are null, surplus ones are
dropped.
-/
def ofParts (dims : List Nat) (cells : Array Value) : Grid :=
  ⟨dims, resize (volume dims) cells⟩

/-- A row of values: an array with one dimension. -/
def row (values : List Value) : Grid :=
  ⟨[values.length], values.toArray⟩

/-- Replaces the cells, keeping their number. -/
def replace (g : Grid) (cells : Array Value) : Grid :=
  { g with cells := resize g.cells.size cells }

def size (g : Grid) : Nat :=
  g.cells.size

/-- The number of dimensions for 0, the size of the `n`-th dimension for `n`, and 0 beyond the
last.
-/
def dimension (g : Grid) : Nat → Nat
  | 0 => g.dims.length
  | n + 1 => g.dims[n]?.getD 0

/-- The integer that a value stands for, or the error that names what should have been one. -/
def expectInteger (what : String) (v : Value) : Except Fault Int32 :=
  match v.integer? with
  | some n => .ok n
  | none =>
    let kind := v.typeName
    .error (.typeMismatch s!"{what} must be an integer, got {kind}")

/-- The cell of an index tuple in a box, counted from `before`. The first index that is null, no
integer or out of range decides; a null index names no cell.
-/
def positionFrom : Nat → List Nat → List Value → Except Fault (Option Nat)
  | before, d :: dims, v :: indexes =>
    if v.isNull then .ok none
    else do
      let i ← expectInteger "array index" v
      let n := i.toInt
      if 0 ≤ n ∧ n < d then positionFrom (before * d + n.toNat) dims indexes
      else .error (.outOfRange s!"{n} not in 0..{d}")
  | before, _, _ => .ok (some before)

def position (g : Grid) (indexes : List Value) : Except Fault (Option Nat) :=
  if indexes.length = g.dims.length then positionFrom 0 g.dims indexes
  else
    let expected := g.dims.length
    let given := indexes.length
    .error (.typeMismatch s!"array has {expected} dimensions, {given} indexes given")

/-- Reads a cell; a null index reads as null. -/
def get (g : Grid) (indexes : List Value) : Except Fault Value := do
  match ← g.position indexes with
  | some i => .ok (g.cells[i]?.getD .null)
  | none => .ok .null

/-- Writes a cell; a null index is refused. -/
def set (g : Grid) (indexes : List Value) (v : Value) : Except Fault Grid := do
  match ← g.position indexes with
  | some i => .ok { g with cells := g.cells.setIfInBounds i v }
  | none => .error (.typeMismatch "array index must not be empty")

end Grid

end TaskMachine

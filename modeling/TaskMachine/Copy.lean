import TaskMachine.Heap

/-!
Copies of values. A value that changes its owner is copied: arrays are copied cell by cell, with
sharing and cycles kept, and a closure gets bound arguments of its own. Everything else is immutable
and shared.

Within one copy an array is copied once, but each bound argument of a closure is a copy of its own.
So a copy never ends where a closure's bound arguments lead back to that closure. `Heap.copy`
follows a value as deep as a copy that ends can go, and has no result beyond that.
-/

namespace TaskMachine

/-- The arrays copied so far, each with its copy. -/
abbrev Copied := List (ArrayId × ArrayId)

namespace Heap

/-- Copies values one after another; `done` holds the copies made so far, latest first. -/
def copyEach (step : Heap → Copied → Value → Option (Heap × Copied × Value)) (h : Heap)
    (copied : Copied) (done : List Value) : List Value → Option (Heap × Copied × List Value)
  | [] => some (h, copied, done.reverse)
  | v :: rest =>
    match step h copied v with
    | some (h, copied, v) => copyEach step h copied (v :: done) rest
    | none => none

/-- Copies a value down to a depth. An array is entered among the copied ones before its cells are
copied, so a cycle leads back to the copy.
-/
def copyTo : Nat → Heap → Copied → Value → Option (Heap × Copied × Value)
  | depth, h, copied, .array a =>
    match copied.find? (·.1 == a), depth with
    | some (_, copy), _ => some (h, copied, .array copy)
    | none, 0 => none
    | none, depth + 1 => do
      let g := h.grid a
      let (h, copy) := h.addArray (Grid.ofParts g.dims #[])
      let (h, copied, cells) ← copyEach (copyTo depth) h ((a, copy) :: copied) [] g.cells.toList
      some (h.setGrid copy ((h.grid copy).replace cells.toArray), copied, .array copy)
  | depth, h, copied, .callable c =>
    match h.callable c, depth with
    | .direct _, _ => some (h, copied, .callable c)
    | .closure .., 0 => none
    | .closure base bound, depth + 1 => do
      let alone := fun h _ v => (copyTo depth h [] v).map fun (h, _, v) => (h, [], v)
      let (h, _, bound) ← copyEach alone h [] [] bound
      let (h, c) := h.addCallable (.closure base bound)
      some (h, copied, .callable c)
  | _, h, copied, v => some (h, copied, v)

/-- How deep a copy that ends can go: between two closures it enters each array at most once, and it
enters no closure again.
-/
def copyDepth (h : Heap) : Nat :=
  (h.callables.size + 1) * (h.arrays.size + 1)

def copy (h : Heap) (v : Value) : Option (Heap × Value) :=
  (h.copyTo h.copyDepth [] v).map fun (h, _, v) => (h, v)

/-- Copies values one after another, each on its own. -/
def copyList (h : Heap) : List Value → Option (Heap × List Value)
  | [] => some (h, [])
  | v :: rest => do
    let (h, v) ← h.copy v
    let (h, rest) ← copyList h rest
    some (h, v :: rest)

end Heap

end TaskMachine

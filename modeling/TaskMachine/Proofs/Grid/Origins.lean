import TaskMachine.Proofs.Grid.Offsets
import TaskMachine.Proofs.Regularity

/-!
Wherever an array comes from, it is a total map on the coordinates in its box: it has one cell for each of
them, and index tuples read and write just the cells that they name.
-/

namespace TaskMachine

-----------------------------------------------------------------------------------------
-- Where arrays come from
-----------------------------------------------------------------------------------------

/-- The heaps that come about: arrays are made, rows of arguments are packed, values are copied, object
files are loaded, elements are written and code is executed, in any order. Everything else in a heap may
change at will.
-/
inductive Heap.Arises : Heap → Prop
  | empty : Arises Heap.empty
  | made {h : Heap} {dims : List Nat} {g : Grid} (arises : Arises h) (done : Grid.new dims = .ok g)
    : Arises (h.addArray g).1
  | packed {h : Heap} (arises : Arises h) (values : List Value)
    : Arises (h.addArray (Grid.row values)).1
  | copied {h h' : Heap} {v v' : Value} (arises : Arises h) (copies : h.copy v = some (h', v'))
    : Arises h'
  | loaded {config : Config} {charset : Charset} {file : ObjectFile} {h h' : Heap} {loaded : Loaded}
    (arises : Arises h) (done : file.load config charset h = .ok (h', loaded))
    : Arises h'
  | written {h : Heap} {a : ArrayId} {indexes : List Value} {v : Value} {g : Grid} (arises : Arises h)
    (done : (h.grid a).set indexes v = .ok g)
    : Arises (h.setGrid a g)
  | executed {m : Machine} (arises : Arises m.world.heap) : Arises m.advance.world.heap
  | other {h h' : Heap} (arises : Arises h) (arrays : h'.arrays = h.arrays) : Arises h'

/-- All arrays of a heap that comes about have every cell in place, by induction on how it does. -/
theorem Heap.Arises.sound {h : Heap} (arises : h.Arises) (a : ArrayId) : (h.grid a).Sound := by
  induction arises generalizing a with
  | empty => exact sound_empty.grids a
  | made _ done ih => exact (evolves_addArray _ (Grid.sound_of_new done)).grids ih a
  | packed _ values ih => exact (evolves_addArray _ (Grid.sound_row values)).grids ih a
  | copied _ copies ih => exact (evolves_copy copies).grids ih a
  | loaded _ done ih => exact ObjectFile.invariant_of_load invariant_grids ih done a
  | written _ done ih => exact (evolves_setGrid fun sound => sound.set done).grids ih a
  | executed _ ih => exact (Machine.evolves_advance _).grids ih a
  | @other h h' _ arrays ih =>
      have same : h'.grid a = h.grid a := by rw [grid, grid, arrays]
      rw [same]
      exact ih a

-----------------------------------------------------------------------------------------
-- What arrays are
-----------------------------------------------------------------------------------------

namespace Grid

/-- The array is a total map on the coordinates in its box. -/
structure TotalMap (g : Grid) : Prop where
  size : g.cells.size = g.dims.prod
  inBounds : ∀ {indexes k}, g.position indexes = .ok (some k) → k < g.cells.size
  count
    : ∀ {indexes},
        indexes.length ≠ g.dims.length
        → ∀ v, ∃ detail,
            g.get indexes = .error (.typeMismatch detail)
            ∧ g.set indexes v = .error (.typeMismatch detail)
  names
    : ∀ {indexes},
        indexes.length = g.dims.length
        → (∃ coords, Names g.dims indexes coords) ∨ ∃ d v, FirstMiss d v g.dims indexes
  misses
    : ∀ {indexes d v}, FirstMiss d v g.dims indexes → ∀ w, Decides d v (g.get indexes) (g.set indexes w)
  get
    : ∀ {indexes coords},
        Names g.dims indexes coords
        → ∃ inside : offset g.dims coords < g.cells.size,
            g.get indexes = .ok g.cells[offset g.dims coords]
  set
    : ∀ {indexes coords},
        Names g.dims indexes coords
        → ∀ v, ∃ inside : offset g.dims coords < g.cells.size,
            g.set indexes v = .ok { g with cells := g.cells.set (offset g.dims coords) v inside }
  update
    : ∀ {indexes indexes' coords coords' v g'},
        Names g.dims indexes coords
        → Names g.dims indexes' coords'
        → g.set indexes' v = .ok g'
        → g'.get indexes = if coords = coords' then .ok v else g.get indexes
  distinct
    : ∀ {coords coords'},
        Inside g.dims coords
        → Inside g.dims coords'
        → offset g.dims coords = offset g.dims coords'
        → coords = coords'
  covering : ∀ k < g.cells.size, ∃ coords, Inside g.dims coords ∧ offset g.dims coords = k
  /-- Indexes have 31 bits, which is enough for the cells of any array but a single row of arguments that
  is longer.
  -/
  reached
    : (∀ k < g.cells.size, ∃ indexes coords, Names g.dims indexes coords ∧ offset g.dims coords = k)
      ↔ (g.dims.length = 1 → g.cells.size ≤ 2 ^ 31)

variable {g : Grid}

/-- Every number of a cell is that of named coordinates unless there are more cells in a row than indexes. -/
theorem Sound.reached (sound : g.Sound)
    : (∀ k < g.cells.size, ∃ indexes coords, Names g.dims indexes coords ∧ offset g.dims coords = k)
      ↔ (g.dims.length = 1 → g.cells.size ≤ 2 ^ 31) := by
  constructor
  · intro reached single
    obtain ⟨d, row⟩ := List.length_eq_one_iff.mp single
    rw [row] at reached
    by_contra! long
    obtain ⟨indexes, coords, names, last⟩ := reached (2 ^ 31) long
    cases names with
    | @cons _ i _ _ _ _ denotes less rest =>
        have fits := denotes.fits
        cases rest
        simp only [offset, volume, Nat.mul_one, Nat.add_zero] at last
        rw [last] at fits
        revert fits
        decide
  · intro short k below
    have few : volume g.dims ≤ 2 ^ 31 := by
      rcases sound.bounded with single | inside
      · rw [← sound.size]
        exact short single
      · exact (volume_le inside).trans (by decide)
    rw [sound.size] at below
    obtain ⟨coords, inside, cell⟩ := exists_offset_eq below
    obtain ⟨indexes, names⟩ := inside.exists_names fun i member =>
      (inside.lt_volume member).trans_le few
    exact ⟨indexes, coords, names, cell⟩

/-- An array with every cell in place is a total map. -/
theorem Sound.totalMap (sound : g.Sound) : g.TotalMap where
  size := sound.size.trans (volume_eq_prod g.dims)
  inBounds place := lt_size_of_position sound place
  count wrong v := refused_of_length wrong v
  names length := names_or_misses length
  misses miss w := miss.decides w
  get names := ⟨names.inside.offset_lt_size sound, names.get_eq _⟩
  set names v := ⟨names.inside.offset_lt_size sound, names.set_eq _ v⟩
  update names names' written := get_set sound names names' written
  distinct inside inside' same := inside.eq_of_offset inside' same
  covering k below := exists_offset_eq (by rwa [← sound.size])
  reached := sound.reached

end Grid

/-- Writing an element that cannot be written fails, and the machine is as it was. -/
theorem Exec.run_writeElement_of_error {m : Machine} {a : ArrayId} {indexes : List Value} {v : Value}
    {f : Fault} (failed : (m.world.heap.grid a).set indexes v = .error f)
    : (writeElement a indexes v).run m = .error (.fault f) m := by
  have run : (writeElement a indexes v).run m
      = ((lift ((m.world.heap.grid a).set indexes v) >>= fun g =>
          setHeap (m.world.heap.setGrid a g)).run m) := rfl
  rw [run, failed]
  rfl

/-- Every array that comes about is a total map on its box, and a write that fails changes nothing. -/
theorem arrays_are_total_maps
    : (∀ h : Heap, h.Arises → ∀ a, (h.grid a).TotalMap)
      ∧ ∀ (m : Machine) a indexes v f,
          (m.world.heap.grid a).set indexes v = .error f
          → (Exec.writeElement a indexes v).run m = .error (.fault f) m := by
  constructor
  · intro h arises a
    exact (arises.sound a).totalMap
  · intro m a indexes v f failed
    exact Exec.run_writeElement_of_error failed

/-- A box of two rows with 12 in its last cell and another value in the last cell of the first row. -/
def twoRows (v : Value) : Grid :=
  ⟨[2, 3], #[.null, .null, v, .null, .null, .integer 12]⟩

/-- Two arrays apart that look the same. -/
def twinRows : Machine where
  world := { World.empty with heap := { Heap.empty with arrays := #[twoRows .null, twoRows .null] } }
  process := Process.new {} 1 "p"

/-- A new box that has been written and copied is a total map: 7 is found where it has been written, 12
where it was, and an index outside of its dimension decides before one that is null.
-/
theorem written_and_copied
    : twinRows.world.heap.Arises
      ∧ (twoRows (.integer 7)).get [.boolean false, .integer 2] = .ok (.integer 7)
      ∧ (twoRows (.integer 7)).get [.integer 1, .integer 2] = .ok (.integer 12)
      ∧ (Exec.writeElement ⟨1⟩ [.integer 2, .null] (.integer 7)).run twinRows
        = .error (.fault (.outOfRange "2 not in 0..2")) twinRows := by
  have made : Grid.new [2, 3] = .ok (Grid.ofParts [2, 3] #[]) := rfl
  have filled : ((Heap.empty.addArray (Grid.ofParts [2, 3] #[])).1.grid ⟨0⟩).set
      [.boolean true, .integer 2] (.integer 12) = .ok (twoRows .null) := rfl
  have copies : ({ Heap.empty with arrays := #[twoRows .null] } : Heap).copy (.array ⟨0⟩)
      = some (twinRows.world.heap, .array ⟨1⟩) := rfl
  have arises : twinRows.world.heap.Arises := .copied (.written (.made .empty made) filled) copies
  have first : Grid.Names [2, 3] [.integer 0, .integer 2] [0, 2] :=
    .cons (.integer 0) (by decide) (.cons (.integer 2) (by decide) .nil)
  have first' : Grid.Names [2, 3] [.boolean false, .integer 2] [0, 2] :=
    .cons (.boolean false) (by decide) (.cons (.integer 2) (by decide) .nil)
  have last : Grid.Names [2, 3] [.integer 1, .integer 2] [1, 2] :=
    .cons (.integer 1) (by decide) (.cons (.integer 2) (by decide) .nil)
  have written : (twoRows .null).set [.integer 0, .integer 2] (.integer 7)
      = .ok (twoRows (.integer 7)) := rfl
  have total : (twoRows .null).TotalMap := arrays_are_total_maps.1 _ arises ⟨1⟩
  exact ⟨arises, total.update first' first written, total.update last first written,
    arrays_are_total_maps.2 twinRows ⟨1⟩ _ _ _ rfl⟩

end TaskMachine

import TaskMachine.Grid

/-!
Grids as the machine makes them: there is a dimension, every cell of the box is there, and a grid
with several dimensions has passed the limit. Making, reading and writing grids keep to this.
-/

namespace TaskMachine

namespace Grid

/-- The cells are those of the box. A single dimension may be as long as it likes, since rows of
arguments are not checked.
-/
structure Sound (g : Grid) : Prop where
  some : g.dims ≠ []
  size : g.cells.size = volume g.dims
  bounded : g.dims.length = 1 ∨ fits 1 g.dims = true

variable {g : Grid}

/-- A grid can be made if there is a dimension and none of the leading products is too large. -/
theorem new_eq_ok {dims : List Nat} {g : Grid}
    : Grid.new dims = .ok g
      ↔ dims ≠ [] ∧ fits 1 dims = true ∧ g = ⟨dims, Array.replicate (volume dims) .null⟩ := by
  cases dims with
  | nil => simp [Grid.new]
  | cons d rest =>
      simp only [Grid.new, List.isEmpty_cons, Bool.false_eq_true, if_false]
      split
      · rename_i inside
        simp [inside, eq_comm]
      · rename_i outside
        simp [outside]

theorem size_resize (n : Nat) (values : Array Value) : (resize n values).size = n := by
  simp only [resize, Array.size_append, Array.size_extract, Array.size_replicate]
  omega

theorem resize_of_size {n : Nat} {values : Array Value} (size : values.size = n)
    : resize n values = values := by
  subst size
  simp [resize]

/-- A new array fills its box. -/
theorem sound_of_new {dims : List Nat} (made : Grid.new dims = .ok g) : g.Sound := by
  obtain ⟨some, inside, rfl⟩ := new_eq_ok.mp made
  exact ⟨some, by simp, .inr inside⟩

theorem sound_row (values : List Value) : (row values).Sound :=
  ⟨by simp [row], by simp [row, volume], .inl rfl⟩

/-- A grid with the dimensions of another one is as sound as that. -/
theorem Sound.ofParts (sound : g.Sound) (cells : Array Value) : (ofParts g.dims cells).Sound :=
  ⟨sound.some, size_resize _ _, sound.bounded⟩

theorem Sound.replace (sound : g.Sound) (cells : Array Value) : (g.replace cells).Sound :=
  ⟨sound.some, (size_resize _ _).trans sound.size, sound.bounded⟩

/-- A cell is written if the indexes lead to one. -/
theorem set_eq_ok {g' : Grid} {indexes : List Value} {v : Value}
    : g.set indexes v = .ok g'
      ↔ ∃ i, g.position indexes = .ok (some i) ∧ g' = { g with cells := g.cells.setIfInBounds i v } := by
  rw [Grid.set]
  cases g.position indexes with
  | error fault => exact iff_of_false nofun (by simp)
  | ok cell =>
      cases cell with
      | none => exact iff_of_false nofun (by simp)
      | some i =>
          change Except.ok _ = Except.ok g' ↔ _
          simp [eq_comm]

/-- An assignment to a cell leaves the box full. -/
theorem Sound.set {g' : Grid} {indexes : List Value} {v : Value} (sound : g.Sound)
    (written : g.set indexes v = .ok g')
    : g'.Sound := by
  obtain ⟨i, -, rfl⟩ := set_eq_ok.mp written
  exact ⟨sound.some, by simpa using sound.size, sound.bounded⟩

/-- A sound grid without too many cells is one that can be made. -/
theorem Sound.fits (sound : g.Sound) (few : g.cells.size ≤ maxCells) : fits 1 g.dims = true := by
  rcases sound.bounded with single | inside
  · obtain ⟨d, dims⟩ := List.length_eq_one_iff.mp single
    have size := sound.size
    rw [dims] at size ⊢
    simp only [volume, Nat.mul_one] at size
    simp only [Grid.fits, Nat.one_mul, Bool.and_true, decide_eq_true_eq]
    omega
  · exact inside

/-- A box whose leading products stay within the limit has no more cells than that, by induction on
the dimensions.
-/
theorem mul_volume_le {total : Nat} {dims : List Nat} (small : total ≤ maxCells)
    (inside : Grid.fits total dims = true)
    : total * volume dims ≤ maxCells := by
  induction dims generalizing total with
  | nil => simpa [volume] using small
  | cons d rest ih =>
      simp only [Grid.fits, Bool.and_eq_true, decide_eq_true_eq] at inside
      rw [volume, ← Nat.mul_assoc]
      exact ih inside.1 inside.2

/-- A box that fits has no more cells than arrays may have. -/
theorem volume_le {dims : List Nat} (inside : Grid.fits 1 dims = true) : volume dims ≤ maxCells := by
  simpa using mul_volume_le (by decide) inside

/-- The cells of a sound grid can be counted in 32 bits if its dimensions can. -/
theorem Sound.size_lt (sound : g.Sound) (short : ∀ d ∈ g.dims, d < 0x100000000)
    : g.cells.size < 0x100000000 := by
  rw [sound.size]
  rcases sound.bounded with single | inside
  · obtain ⟨d, dims⟩ := List.length_eq_one_iff.mp single
    rw [dims, volume, volume, Nat.mul_one]
    exact short d (by simp [dims])
  · exact Nat.lt_of_le_of_lt (volume_le inside) (by decide)

-----------------------------------------------------------------------------------------
-- What is in the cells
-----------------------------------------------------------------------------------------

variable {v w : Value}

theorem mem_resize {n : Nat} {values : Array Value} (member : w ∈ resize n values)
    : w ∈ values ∨ w = .null := by
  rcases Array.mem_append.mp member with kept | filled
  · rw [← Array.mem_toList_iff, Array.toList_extract] at kept
    exact .inl (Array.mem_toList_iff.mp (List.mem_of_mem_drop (List.mem_of_mem_take kept)))
  · exact .inr (Array.eq_of_mem_replicate filled)

/-- A new array holds nulls. -/
theorem cells_of_new {dims : List Nat} (made : Grid.new dims = .ok g) (member : w ∈ g.cells)
    : w = .null := by
  obtain ⟨-, -, rfl⟩ := new_eq_ok.mp made
  exact Array.eq_of_mem_replicate member

/-- What is read from an array is one of its cells or null. -/
theorem get_eq_ok {indexes : List Value} (read : g.get indexes = .ok v)
    : v ∈ g.cells ∨ v = .null := by
  simp only [Grid.get] at read
  cases place : g.position indexes with
  | error fault =>
      rw [place] at read
      cases read
  | ok cell =>
      rw [place] at read
      cases cell with
      | none =>
          cases read
          exact .inr rfl
      | some i =>
          cases read
          cases found : g.cells[i]? with
          | none => exact .inr rfl
          | some w => exact .inl (Array.mem_of_getElem? found)

/-- After a cell has been written, each cell is one of those before or holds the value written. -/
theorem cells_of_set {g' : Grid} {indexes : List Value} (written : g.set indexes v = .ok g')
    (member : w ∈ g'.cells)
    : w ∈ g.cells ∨ w = v := by
  obtain ⟨i, -, rfl⟩ := set_eq_ok.mp written
  exact Array.mem_or_eq_of_mem_setIfInBounds member

end Grid
end TaskMachine

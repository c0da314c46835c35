import Mathlib.Algebra.BigOperators.Group.List.Basic
import TaskMachine.Proofs.Grid
import TaskMachine.Proofs.Operators.Operands

/-!
Arrays as maps from the coordinates in a box. The cells are numbered row by row, so that different
coordinates in the box have different numbers and every number below the volume is one of them. An index
tuple names coordinates, or the first index that names none decides what becomes of it.
-/

namespace TaskMachine

namespace Grid

-----------------------------------------------------------------------------------------
-- Numbering the cells of a box
-----------------------------------------------------------------------------------------

/-- The coordinates lie in the box. -/
inductive Inside : List Nat → List Nat → Prop
  | nil : Inside [] []
  | cons {d i : Nat} {dims coords : List Nat} (less : i < d) (rest : Inside dims coords)
    : Inside (d :: dims) (i :: coords)

/-- The number of the cell with the given coordinates, row by row. -/
def offset : List Nat → List Nat → Nat
  | _ :: dims, i :: coords => i * volume dims + offset dims coords
  | _, _ => 0

variable {dims coords coords' : List Nat}

/-- The cells of a box are counted by the product of its dimensions. -/
theorem volume_eq_prod (dims : List Nat) : volume dims = dims.prod := by
  induction dims with
  | nil => rfl
  | cons d dims ih => rw [volume, ih, List.prod_cons]

/-- Coordinates in the box have a number below its volume, by induction on the dimensions: the first
coordinate leaves out at least one layer.
-/
theorem Inside.offset_lt (inside : Inside dims coords) : offset dims coords < volume dims := by
  induction inside with
  | nil => exact Nat.one_pos
  | @cons d i dims coords less rest ih =>
      rw [offset, volume]
      calc i * volume dims + offset dims coords < i * volume dims + volume dims := by omega
        _ = (i + 1) * volume dims := by ring
        _ ≤ d * volume dims := Nat.mul_le_mul_right _ less

/-- No dimension of a box with coordinates in it is larger than its volume. -/
theorem Inside.lt_volume (inside : Inside dims coords) {i : Nat} (member : i ∈ coords)
    : i < volume dims := by
  induction inside with
  | nil => cases member
  | @cons d j dims coords less rest ih =>
      have layer : 0 < volume dims := Nat.zero_lt_of_lt rest.offset_lt
      have some : 0 < d := Nat.zero_lt_of_lt less
      rw [volume]
      rcases List.mem_cons.mp member with rfl | later
      · exact less.trans_le (Nat.le_mul_of_pos_right d layer)
      · exact (ih later).trans_le (Nat.le_mul_of_pos_left _ some)

/-- Coordinates in the box are determined by their number: the first one is the quotient by the volume of
a layer, and the remainder is the number in that layer.
-/
theorem Inside.eq_of_offset (inside : Inside dims coords) (inside' : Inside dims coords')
    (same : offset dims coords = offset dims coords')
    : coords = coords' := by
  induction inside generalizing coords' with
  | nil =>
      cases inside'
      rfl
  | @cons d i dims coords less rest ih =>
      cases inside' with
      | @cons _ i' _ coords' less' rest' =>
          have small := rest.offset_lt
          have small' := rest'.offset_lt
          have layer : 0 < volume dims := by omega
          rw [offset, offset] at same
          have first : i = i' := by
            have quotient := congrArg (· / volume dims) same
            simpa [Nat.mul_add_div layer, Nat.mul_comm _ (volume dims), Nat.div_eq_of_lt small,
              Nat.div_eq_of_lt small'] using quotient
          subst first
          rw [ih rest' (by omega)]

/-- Every number below the volume is that of coordinates in the box. -/
theorem exists_offset_eq {dims : List Nat} {k : Nat} (below : k < volume dims)
    : ∃ coords, Inside dims coords ∧ offset dims coords = k := by
  induction dims generalizing k with
  | nil =>
      obtain rfl : k = 0 := Nat.lt_one_iff.mp below
      exact ⟨[], .nil, rfl⟩
  | cons d dims ih =>
      rw [volume] at below
      have layer : 0 < volume dims := by
        refine Nat.pos_of_ne_zero fun none => ?_
        rw [none, Nat.mul_zero] at below
        exact Nat.not_lt_zero k below
      obtain ⟨coords, inside, remainder⟩ := ih (Nat.mod_lt k layer)
      refine ⟨k / volume dims :: coords, .cons ?_ inside, ?_⟩
      · exact (Nat.div_lt_iff_lt_mul layer).mpr below
      · rw [offset, remainder, Nat.div_add_mod']

-----------------------------------------------------------------------------------------
-- Index tuples
-----------------------------------------------------------------------------------------

/-- The index tuple stands for coordinates in the box. -/
inductive Names : List Nat → List Value → List Nat → Prop
  | nil : Names [] [] []
  | cons {d i : Nat} {v : Value} {dims coords : List Nat} {indexes : List Value} (denotes : v.Denotes i)
    (less : i < d) (rest : Names dims indexes coords)
    : Names (d :: dims) (v :: indexes) (i :: coords)

/-- The value is no index of a dimension. -/
def Misses (d : Nat) (v : Value) : Prop :=
  ∀ i : Nat, v.Denotes i → d ≤ i

/-- The first index of the tuple, from the left, that misses its dimension is `v`, and `d` is that
dimension. There are as many indexes as dimensions.
-/
inductive FirstMiss (d : Nat) (v : Value) : List Nat → List Value → Prop
  | here {dims : List Nat} {indexes : List Value} (misses : Misses d v)
    (length : indexes.length = dims.length)
    : FirstMiss d v (d :: dims) (v :: indexes)
  | later {d' i : Nat} {v' : Value} {dims : List Nat} {indexes : List Value} (denotes : v'.Denotes i)
    (less : i < d') (rest : FirstMiss d v dims indexes)
    : FirstMiss d v (d' :: dims) (v' :: indexes)

/-- What reading and writing give if `v` is the first index that misses its dimension `d`. -/
inductive Decides (d : Nat) : Value → Except Fault Value → Except Fault Grid → Prop
  | null : Decides d .null (.ok .null) (.error (.typeMismatch "array index must not be empty"))
  | noInteger {v : Value} (some : v ≠ .null) (none : ∀ n, ¬ v.Denotes n) (detail : String)
    : Decides d v (.error (.typeMismatch detail)) (.error (.typeMismatch detail))
  | outside {v : Value} {n : Int} (denotes : v.Denotes n) (outside : ¬ (0 ≤ n ∧ n < d)) (detail : String)
    : Decides d v (.error (.outOfRange detail)) (.error (.outOfRange detail))

variable {g g' : Grid} {v w : Value} {indexes indexes' : List Value} {n : Int}

theorem Names.inside (names : Names dims indexes coords) : Inside dims coords := by
  induction names with
  | nil => exact .nil
  | cons _ less _ ih => exact .cons less ih

theorem Names.length_eq (names : Names dims indexes coords) : indexes.length = dims.length := by
  induction names with
  | nil => rfl
  | cons _ _ _ ih => exact congrArg (· + 1) ih

theorem FirstMiss.length_eq {d : Nat} (miss : FirstMiss d v dims indexes)
    : indexes.length = dims.length := by
  induction miss with
  | here _ length => exact congrArg (· + 1) length
  | later _ _ _ ih => exact congrArg (· + 1) ih

/-- Where all indexes before one are inside, this one misses its dimension. -/
theorem FirstMiss.misses {d : Nat} (miss : FirstMiss d v dims indexes) : Misses d v := by
  induction miss with
  | here misses => exact misses
  | later _ _ _ ih => exact ih

private theorem expectInteger_of_denotes (what : String) (denotes : v.Denotes n)
    : v.isNull = false ∧ ∃ k, expectInteger what v = .ok k ∧ k.toInt = n := by
  cases denotes with
  | integer k => exact ⟨rfl, k, rfl, rfl⟩
  | boolean b =>
      refine ⟨rfl, if b then 1 else 0, rfl, ?_⟩
      cases b <;> rfl

/-- An index that stands for an integer has to be one of the dimension. -/
theorem positionFrom_cons (denotes : v.Denotes n) (before d : Nat) (dims : List Nat)
    (indexes : List Value)
    : positionFrom before (d :: dims) (v :: indexes)
      = if 0 ≤ n ∧ n < d then positionFrom (before * d + n.toNat) dims indexes
        else .error (.outOfRange s!"{n} not in 0..{d}") := by
  obtain ⟨present, k, integer, rfl⟩ := expectInteger_of_denotes "array index" denotes
  simp only [positionFrom, present, integer, Bool.false_eq_true, if_false]
  rfl

/-- Indexes that name coordinates lead to the cell of these, by induction on the tuple. -/
theorem Names.positionFrom_eq (names : Names dims indexes coords) (before : Nat)
    : positionFrom before dims indexes = .ok (some (before * volume dims + offset dims coords)) := by
  induction names generalizing before with
  | nil => simp [positionFrom, volume, offset]
  | @cons d i v dims coords indexes denotes less rest ih =>
      have inside : 0 ≤ (i : Int) ∧ (i : Int) < d := by omega
      rw [positionFrom_cons denotes, if_pos inside, ih, volume, offset, Int.toNat_natCast]
      congr 2
      ring

/-- An index tuple that names coordinates leads to their cell. -/
theorem Names.position_eq (names : Names g.dims indexes coords)
    : g.position indexes = .ok (some (offset g.dims coords)) := by
  rw [position, if_pos names.length_eq, names.positionFrom_eq, Nat.zero_mul, Nat.zero_add]

/-- The indexes before the first one that misses its dimension only lead to that one. -/
theorem FirstMiss.positionFrom_eq {d : Nat} (miss : FirstMiss d v dims indexes) (before : Nat)
    : ∃ before' after rest,
        positionFrom before dims indexes = positionFrom before' (d :: after) (v :: rest) := by
  induction miss generalizing before with
  | here => exact ⟨_, _, _, rfl⟩
  | later denotes less _ ih =>
      rw [positionFrom_cons denotes, if_pos (by omega)]
      exact ih _

/-- A value is null, stands for an integer or is refused where an integer is expected. -/
theorem null_or_denotes_or_refused (v : Value)
    : v = .null
      ∨ (∃ n, v.Denotes n)
      ∨ v ≠ .null ∧ (∀ n, ¬ v.Denotes n)
        ∧ ∀ what, ∃ detail, expectInteger what v = .error (.typeMismatch detail) := by
  cases v with
  | null => exact .inl rfl
  | integer n => exact .inr (.inl ⟨_, .integer n⟩)
  | boolean b => exact .inr (.inl ⟨_, .boolean b⟩)
  | float | string | callable | array | object =>
      refine .inr (.inr ⟨nofun, fun n denotes => ?_, fun what => ⟨_, rfl⟩⟩)
      cases denotes

/-- The first index that misses its dimension decides, whatever follows it. -/
theorem FirstMiss.decides {d : Nat} (miss : FirstMiss d v g.dims indexes) (w : Value)
    : Decides d v (g.get indexes) (g.set indexes w) := by
  obtain ⟨before, after, rest, place⟩ := miss.positionFrom_eq 0
  replace place : g.position indexes = positionFrom before (d :: after) (v :: rest) := by
    rw [position, if_pos miss.length_eq, place]
  rcases null_or_denotes_or_refused v with rfl | ⟨n, denotes⟩ | ⟨some, none, refused⟩
  · simp only [Grid.get, Grid.set, place, positionFrom]
    exact .null
  · have outside : ¬ (0 ≤ n ∧ n < d) := by
      rintro ⟨nonneg, less⟩
      have natural : v.Denotes (n.toNat : Int) := by rwa [Int.toNat_of_nonneg nonneg]
      have above := miss.misses n.toNat natural
      omega
    rw [positionFrom_cons denotes, if_neg outside] at place
    simp only [Grid.get, Grid.set, place]
    exact .outside denotes outside _
  · obtain ⟨detail, failed⟩ := refused "array index"
    have present : v.isNull = false := by
      cases v with
      | null => exact absurd rfl some
      | _ => rfl
    simp only [Grid.get, Grid.set, place, positionFrom, present, failed, Bool.false_eq_true, if_false]
    exact .noInteger some none detail

/-- An index tuple of the right length names coordinates, or has a first index that misses its dimension,
by induction on the dimensions.
-/
theorem names_or_misses {dims : List Nat} {indexes : List Value} (length : indexes.length = dims.length)
    : (∃ coords, Names dims indexes coords) ∨ ∃ d v, FirstMiss d v dims indexes := by
  induction dims generalizing indexes with
  | nil =>
      obtain rfl := List.length_eq_zero_iff.mp length
      exact .inl ⟨[], .nil⟩
  | cons d dims ih =>
      obtain ⟨v, indexes, rfl⟩ := List.exists_cons_of_length_eq_add_one length
      have shorter : indexes.length = dims.length := Nat.succ.inj length
      by_cases misses : Misses d v
      · exact .inr ⟨d, v, .here misses shorter⟩
      · simp only [Misses, not_forall, not_le] at misses
        obtain ⟨i, denotes, less⟩ := misses
        rcases ih shorter with ⟨coords, names⟩ | ⟨d', v', miss⟩
        · exact .inl ⟨i :: coords, .cons denotes less names⟩
        · exact .inr ⟨d', v', .later denotes less miss⟩

/-- An index tuple of the wrong length is refused. -/
theorem refused_of_length (wrong : indexes.length ≠ g.dims.length) (w : Value)
    : ∃ detail,
        g.get indexes = .error (.typeMismatch detail) ∧ g.set indexes w = .error (.typeMismatch detail) := by
  have place : ∃ detail, g.position indexes = .error (.typeMismatch detail) := by
    rw [position, if_neg wrong]
    exact ⟨_, rfl⟩
  obtain ⟨detail, place⟩ := place
  refine ⟨detail, ?_, ?_⟩
  · simp only [Grid.get, place]
    rfl
  · simp only [Grid.set, place]
    rfl

/-- Coordinates in the box can be named if they are below 2³¹. -/
theorem Inside.exists_names (inside : Inside dims coords) (small : ∀ i ∈ coords, i < 2 ^ 31)
    : ∃ indexes, Names dims indexes coords := by
  induction inside with
  | nil => exact ⟨[], .nil⟩
  | @cons d i dims coords less rest ih =>
      obtain ⟨indexes, names⟩ := ih fun j member => small j (.tail i member)
      have denotes : (Value.integer (Int32.ofNat i)).Denotes i := by
        have same : (Int32.ofNat i).toInt = i := Int32.toInt_ofNat_of_lt (small i (.head coords))
        have whole := Value.Denotes.integer (Int32.ofNat i)
        rwa [same] at whole
      exact ⟨_ :: indexes, .cons denotes less names⟩

-----------------------------------------------------------------------------------------
-- Reading and writing cells
-----------------------------------------------------------------------------------------

/-- Coordinates in the box of an array with every cell in place have a cell. -/
theorem Inside.offset_lt_size (inside : Inside g.dims coords) (sound : g.Sound)
    : offset g.dims coords < g.cells.size := by
  rw [sound.size]
  exact inside.offset_lt

/-- An index tuple that leads to a cell leads to one of the array. -/
theorem lt_size_of_position {k : Nat} (sound : g.Sound) (place : g.position indexes = .ok (some k))
    : k < g.cells.size := by
  have length : indexes.length = g.dims.length := by
    by_contra wrong
    rw [position, if_neg wrong] at place
    cases place
  rcases names_or_misses length with ⟨coords, names⟩ | ⟨d, v, miss⟩
  · rw [names.position_eq] at place
    cases place
    exact names.inside.offset_lt_size sound
  · -- writing would succeed
    have decides := miss.decides .null
    rw [set_eq_ok.mpr ⟨k, place, rfl⟩] at decides
    generalize g.get indexes = read at decides
    cases decides

/-- A tuple that names coordinates reads their cell. -/
theorem Names.get_eq (names : Names g.dims indexes coords)
    (inside : offset g.dims coords < g.cells.size)
    : g.get indexes = .ok g.cells[offset g.dims coords] := by
  have read : g.get indexes = .ok (g.cells[offset g.dims coords]?.getD .null) := by
    simp only [Grid.get, names.position_eq]
    rfl
  rw [read, Array.getElem?_eq_getElem inside, Option.getD_some]

/-- A tuple that names coordinates writes their cell. -/
theorem Names.set_eq (names : Names g.dims indexes coords)
    (inside : offset g.dims coords < g.cells.size) (v : Value)
    : g.set indexes v = .ok { g with cells := g.cells.set (offset g.dims coords) v inside } := by
  rw [set_eq_ok.mpr ⟨_, names.position_eq, rfl⟩, Array.setIfInBounds, dif_pos inside]

/-- Reading after writing gives the value written if both tuples name the same coordinates, and else what
was there before.
-/
theorem get_set (sound : g.Sound) (names : Names g.dims indexes coords)
    (names' : Names g.dims indexes' coords') (written : g.set indexes' v = .ok g')
    : g'.get indexes = if coords = coords' then .ok v else g.get indexes := by
  have inside := names.inside.offset_lt_size sound
  have inside' := names'.inside.offset_lt_size sound
  rw [names'.set_eq inside'] at written
  cases written
  have read := Names.get_eq (g := { g with cells := g.cells.set (offset g.dims coords') v inside' }) names
    (by simpa using inside)
  rw [read, names.get_eq inside, Array.getElem_set]
  by_cases same : coords = coords'
  · rw [if_pos same, if_pos (by rw [same])]
  · have apart : offset g.dims coords' ≠ offset g.dims coords := fun equal =>
      same (names.inside.eq_of_offset names'.inside equal.symm)
    rw [if_neg same, if_neg apart]

end Grid
end TaskMachine

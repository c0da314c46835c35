import Mathlib.Algebra.Group.Nat.Defs
import TaskMachine.Codec.Layout
import TaskMachine.Proofs.Codec.Utf8

/-!
Layouts that can be relied on. What is written is taken back off the front of whatever bytes it is
put before, and from less than all of it nothing is taken: no written form is the beginning of
another one. The layouts of records are put together from such layouts, so they are such layouts.
-/

namespace TaskMachine

namespace Bytes

/-- Of too few bytes none are taken. -/
theorem split?_of_lt {n : Nat} {bytes : Bytes} (few : bytes.length < n) : split? n bytes = none := by
  simp only [split?, List.length_take]
  rw [if_neg (by omega)]

/-- Part of two written forms is part of the first one, or the first one and part of the second. -/
theorem part_append {first second front more : Bytes} (cut : first ++ second = front ++ more)
    : (∃ missing, first = front ++ missing ∧ missing ≠ [])
      ∨ ∃ begun, front = first ++ begun ∧ second = begun ++ more := by
  rcases List.append_eq_append_iff.mp cut with ⟨begun, front, second⟩ | ⟨missing, first, rest⟩
  · exact .inr ⟨begun, front, second⟩
  · by_cases whole : missing = []
    · subst whole
      rw [List.append_nil] at first
      exact .inr ⟨[], by rw [first, List.append_nil], by rw [rest]; rfl⟩
    · exact .inl ⟨missing, first, whole⟩

end Bytes

namespace Utf8

/-- Text that was written is well formed. -/
theorem decode?_encode (s : String) : decode? (encode s) = some s := by
  have read : characters (encode s) = s.toList.map some := by
    rw [characters, encode, readAll_encode (length_le_encode _)]
    simp
  rw [decode?, read, List.mapM_map]
  have each : s.toList.mapM (id ∘ some) = some (s.toList.map id) := List.mapM_pure
  rw [each, List.map_id, Option.map_some, String.ofList_toList]

end Utf8

namespace Layout

variable {α β : Type}

/-- A reader gives back a datum from its written form, whatever follows, and gives nothing if part
of the written form is missing at the end.
-/
structure Recovers (take? : Bytes → Option (α × Bytes)) (written : Bytes) (a : α) : Prop where
  back : ∀ rest, take? (written ++ rest) = some (a, rest)
  part : ∀ front more, written = front ++ more → more ≠ [] → take? front = none

-----------------------------------------------------------------------------------------
-- Readers, one after another
-----------------------------------------------------------------------------------------

namespace Recovers

variable {take? : Bytes → Option (α × Bytes)} {written : Bytes} {a : α}

/-- What is known already needs no bytes. -/
theorem nothing : Recovers (fun s => some (a, s)) [] a where
  back _ := rfl
  part _ _ cut lacking := absurd (List.append_eq_nil_iff.mp cut.symm).2 lacking

/-- So many bytes, as they are. -/
theorem split (bytes : Bytes) : Recovers (Bytes.split? bytes.length) bytes bytes where
  back := Bytes.split?_append bytes
  part front more cut lacking := by
    have total : bytes.length = front.length + more.length := by
      rw [cut, List.length_append]
    have positive := List.length_pos_iff.mpr lacking
    exact Bytes.split?_of_lt (by omega)

/-- One reader after another: what follows the first datum is read according to it. -/
theorem andThen {next? whole? : Bytes → Option (β × Bytes)} {written' : Bytes} {b : β}
    (first : Recovers take? written a) (second : Recovers next? written' b)
    (goesOn : ∀ s rest, take? s = some (a, rest) → whole? s = next? rest)
    (stops : ∀ s, take? s = none → whole? s = none)
    : Recovers whole? (written ++ written') b where
  back rest := by
    rw [List.append_assoc, goesOn _ _ (first.back (written' ++ rest)), second.back]
  part front more cut lacking := by
    rcases Bytes.part_append cut with ⟨missing, within, gap⟩ | ⟨begun, rfl, within⟩
    · exact stops front (first.part front missing within gap)
    · rw [goesOn _ _ (first.back begun), second.part begun more within lacking]

/-- What is read is taken for something else. -/
theorem map (f : α → β) (reads : Recovers take? written a)
    : Recovers (fun s => (take? s).map fun (a, rest) => (f a, rest)) written (f a) where
  back rest := by simp only [reads.back, Option.map_some]
  part front more cut lacking := by simp only [reads.part front more cut lacking, Option.map_none]

end Recovers

-----------------------------------------------------------------------------------------
-- Data that are read as they were written
-----------------------------------------------------------------------------------------

/-- A datum is laid out faithfully: its written form takes some bytes, and the reader of the layout
gives it back if these are few enough for their number to be written in eight bytes.
-/
structure Faithful (l : Layout α) (a : α) : Prop where
  nonempty : l.put a ≠ []
  reads : (l.put a).length < 2 ^ 64 → Recovers l.take? (l.put a) a

namespace Faithful

variable {l : Layout α} {m : Layout β} {a : α} {b : β}

private theorem recovers_number {n value : Nat} (fits : value < Nat.pow 256 n)
    : Recovers (number n).take? ((number n).put value) value := by
  have reads := (Recovers.split (Bytes.ofNat n value)).map Bytes.toNat
  rwa [Bytes.length_ofNat, Bytes.toNat_ofNat n value fits] at reads

theorem number {n value : Nat} (positive : 0 < n) (fits : value < Nat.pow 256 n)
    : (number n).Faithful value where
  nonempty empty := by
    have length := Bytes.length_ofNat n value
    have short : (Bytes.ofNat n value).length = 0 := congrArg List.length empty
    omega
  reads _ := recovers_number fits

/-- A datum that the reader may refuse is read back if its own written form is not refused. -/
theorem refine {read : α → Option β} {write : β → α} (faithful : l.Faithful (write b))
    (same : read (write b) = some b)
    : (l.refine read write).Faithful b where
  nonempty := faithful.nonempty
  reads small := by
    have reads : Recovers (l.refine read write).take? (l.put (write b) ++ []) b :=
      (faithful.reads small).andThen Recovers.nothing
        (fun s rest taken => by simp only [Layout.refine, taken, same, Option.map_some])
        (fun s none => by simp only [Layout.refine, none])
    rwa [List.append_nil] at reads

theorem convert {read : α → β} {write : β → α} (faithful : l.Faithful (write b))
    (same : read (write b) = b)
    : (l.convert read write).Faithful b :=
  faithful.refine (congrArg some same)

theorem byte (b : UInt8) : byte.Faithful b :=
  (number (by decide) b.toNat_lt).convert UInt8.ofNat_toNat

theorem word16 (n : UInt16) : word16.Faithful n :=
  (number (by decide) n.toNat_lt).convert UInt16.ofNat_toNat

theorem word32 (n : UInt32) : word32.Faithful n :=
  (number (by decide) n.toNat_lt).convert UInt32.ofNat_toNat

theorem flag (b : Bool) : flag.Faithful b :=
  (byte _).refine (by cases b <;> rfl)

/-- A case is told by its place among all cases. -/
theorem choice [DecidableEq α] {cases : List α} (few : cases.length < 2 ^ 32) (among : a ∈ cases)
    : (choice cases).Faithful a := by
  refine (word32 _).refine ?_
  have inside := List.idxOf_lt_length_of_mem among
  have place : (UInt32.ofNat (cases.idxOf a)).toNat = cases.idxOf a := by
    rw [UInt32.toNat_ofNat']
    omega
  rw [place, List.getElem?_eq_getElem inside, List.getElem_idxOf]

/-- One datum after another is read back, and a cut falls into the one or the other. -/
theorem both (first : l.Faithful a) (second : m.Faithful b) : (l.both m).Faithful (a, b) where
  nonempty empty := first.nonempty (List.append_eq_nil_iff.mp empty).1
  reads small := by
    have length : (l.put a).length + (m.put b).length < 2 ^ 64 := by
      rwa [← List.length_append]
    have front := first.reads (by omega)
    have back := (second.reads (by omega)).map fun b => (a, b)
    exact front.andThen back (fun s rest taken => by simp only [Layout.both, taken])
      (fun s none => by simp only [Layout.both, none])

/-- Exactly so many bytes. -/
theorem bytesOf {n : Nat} {bytes : Bytes} (length : bytes.length = n) (positive : 0 < n)
    : (bytesOf n).Faithful bytes where
  nonempty empty := by
    have short : bytes.length = 0 := congrArg List.length empty
    omega
  reads _ := by
    subst length
    exact Recovers.split bytes

/-- Members are read one after another, by induction on them. -/
theorem recovers_takeEach {items : List α}
    (each : ∀ a ∈ items, Recovers l.take? (l.put a) a) (done : List α)
    : Recovers (l.takeEach items.length done) (items.flatMap l.put) (items.reverse ++ done) := by
  induction items generalizing done with
  | nil => exact Recovers.nothing
  | cons a items ih =>
      have first := each a List.mem_cons_self
      have others := ih (fun b among => each b (List.mem_cons_of_mem a among)) (a :: done)
      rw [List.reverse_cons, List.append_assoc]
      exact first.andThen others (fun s rest taken => by simp only [List.length_cons, takeEach, taken])
        (fun s none => by simp only [List.length_cons, takeEach, none])

private theorem length_put_le_flatMap {items : List α} (among : a ∈ items)
    : (l.put a).length ≤ (items.flatMap l.put).length := by
  obtain ⟨front, back, rfl⟩ := List.append_of_mem among
  simp only [List.flatMap_append, List.flatMap_cons, List.length_append]
  omega

/-- Since every member takes some bytes, there are no more members than bytes. -/
theorem length_le_flatMap {items : List α} (each : ∀ a ∈ items, l.put a ≠ [])
    : items.length ≤ (items.flatMap l.put).length := by
  induction items with
  | nil => exact Nat.le_refl 0
  | cons a items ih =>
      have positive := List.length_pos_iff.mpr (each a List.mem_cons_self)
      have others := ih fun b among => each b (List.mem_cons_of_mem a among)
      simp only [List.flatMap_cons, List.length_append, List.length_cons]
      omega

/-- A list is read back, and a cut falls into its length or into one of its members. -/
theorem list {items : List α} (each : ∀ a ∈ items, l.Faithful a) : l.list.Faithful items where
  nonempty empty := by
    have length := Bytes.length_ofNat 8 items.length
    rw [show Bytes.ofNat 8 items.length = [] from (List.append_eq_nil_iff.mp empty).1] at length
    exact absurd length (by decide)
  reads small := by
    have total : (items.flatMap l.put).length < 2 ^ 64 := by
      have added : (items.flatMap l.put).length ≤ (l.list.put items).length := by
        simp only [Layout.list, List.length_append]
        omega
      omega
    have few := length_le_flatMap fun a among => (each a among).nonempty
    have count : Recovers (Layout.number 8).take? ((Layout.number 8).put items.length) items.length :=
      recovers_number (Nat.lt_of_le_of_lt few total)
    have one : ∀ a ∈ items, Recovers l.take? (l.put a) a := fun a among =>
      (each a among).reads (Nat.lt_of_le_of_lt (length_put_le_flatMap among) total)
    have members := (recovers_takeEach one []).map List.reverse
    rw [List.append_nil, List.reverse_reverse] at members
    exact count.andThen members (fun s rest taken => by simp only [Layout.list, taken])
      (fun s none => by simp only [Layout.list, none])

/-- Bytes are read back, and a cut falls into their number or leaves too few. -/
theorem bytes (data : Bytes) : bytes.Faithful data where
  nonempty empty := by
    have length := Bytes.length_ofNat 8 data.length
    rw [show Bytes.ofNat 8 data.length = [] from (List.append_eq_nil_iff.mp empty).1] at length
    exact absurd length (by decide)
  reads small := by
    have added : data.length ≤ (Layout.bytes.put data).length := by
      simp only [Layout.bytes, List.length_append]
      omega
    have count : Recovers (Layout.number 8).take? ((Layout.number 8).put data.length) data.length :=
      recovers_number (Nat.lt_of_le_of_lt added small)
    exact count.andThen (Recovers.split data) (fun s rest taken => by simp only [Layout.bytes, taken])
      (fun s none => by simp only [Layout.bytes, none])

theorem string (s : String) : string.Faithful s :=
  (bytes _).refine (Utf8.decode?_encode s)

theorem optional {content : Option α} (present : ∀ a ∈ content, l.Faithful a)
    : l.optional.Faithful content := by
  cases content with
  | none =>
      have absent := flag false
      refine ⟨absent.nonempty, fun small => ?_⟩
      have reads : Recovers l.optional.take? (Layout.flag.put false ++ []) none :=
        (absent.reads small).andThen Recovers.nothing
          (fun s rest taken => by simp only [Layout.optional, taken])
          (fun s none => by simp only [Layout.optional, none])
      rwa [List.append_nil] at reads
  | some a =>
      have here := flag true
      refine ⟨fun empty => here.nonempty (List.append_eq_nil_iff.mp empty).1, fun small => ?_⟩
      have length : (Layout.flag.put true).length + (l.put a).length < 2 ^ 64 := by
        rwa [← List.length_append]
      have datum := ((present a rfl).reads (by omega)).map some
      exact (here.reads (by omega)).andThen datum
        (fun s rest taken => by simp only [Layout.optional, taken])
        (fun s none => by simp only [Layout.optional, none])

end Faithful
end Layout
end TaskMachine

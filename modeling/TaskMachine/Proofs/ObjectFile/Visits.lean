import Mathlib.Data.Finset.Card
import Mathlib.Logic.Relation
import TaskMachine.Proofs.ObjectFile.Growth

/-!
The way of a writer through a heap. Storing a value leads to the routine or the array that the value
refers to, and from there on to whatever that is stored with. What has a number already is passed by,
so a writer visits the parts of a heap depth first.
-/

namespace TaskMachine

-----------------------------------------------------------------------------------------
-- Routines and arrays, and what they refer to
-----------------------------------------------------------------------------------------

/-- What is stored once and referred to by its number. -/
inductive Part where
  | routine (r : RoutineId)
  | array (a : ArrayId)
deriving DecidableEq

/-- The values that a part is stored with. -/
def Part.values (h : Heap) : Part → List Value
  | .routine r => (h.routine r).literals.toList
  | .array a => (h.grid a).cells.toList

namespace Heap

/-- The part that a value refers to. -/
def part? (h : Heap) : Value → Option Part
  | .array a => some (.array a)
  | .callable c =>
    match h.callable c with
    | .direct (.subroutine r) => some (.routine r)
    | _ => none
  | _ => none

/-- The parts that a part refers to, in the order in which they are met. -/
def parts (h : Heap) (x : Part) : List Part :=
  (x.values h).filterMap h.part?

/-- The first part refers to the second one. -/
def Refers (h : Heap) (x y : Part) : Prop :=
  y ∈ h.parts x

/-- The second routine is a literal of the first one. -/
def Mentions (h : Heap) (r q : RoutineId) : Prop :=
  h.Refers (.routine r) (.routine q)

/-- The value can be stored, as far as that does not depend on what it refers to. -/
def CanStore (charset : Charset) (h : Heap) : Value → Prop
  | .string s => (charset.encode s).length < 0x100000000
  | .callable c => ∃ r, h.callable c = .direct (.subroutine r)
  | .object o => (h.object o).image?.isSome
  | _ => True

/-- The parts with a place on the heap. -/
def allParts (h : Heap) : Finset Part :=
  (Finset.range h.routines.size).image (fun i => .routine ⟨i⟩)
    ∪ (Finset.range h.arrays.size).image fun i => .array ⟨i⟩

theorem card_allParts_le (h : Heap) : h.allParts.card ≤ h.routines.size + h.arrays.size := by
  have routines := Finset.card_image_le (s := Finset.range h.routines.size)
    (f := fun i => Part.routine ⟨i⟩)
  have arrays := Finset.card_image_le (s := Finset.range h.arrays.size)
    (f := fun i => Part.array ⟨i⟩)
  rw [Finset.card_range] at routines arrays
  exact (Finset.card_union_le _ _).trans (Nat.add_le_add routines arrays)

/-- A part without a place on the heap refers to nothing. -/
theorem parts_eq_nil {h : Heap} {x : Part} (outside : x ∉ h.allParts) : h.parts x = [] := by
  simp only [allParts, Finset.mem_union, Finset.mem_image, Finset.mem_range, not_or, not_exists,
    not_and] at outside
  cases x with
  | routine r =>
      have missing : h.routines.size ≤ r.index :=
        Nat.le_of_not_lt fun inside => outside.1 r.index inside rfl
      simp only [parts, Part.values, Heap.routine, Array.getElem?_eq_none missing]
      rfl
  | array a =>
      have missing : h.arrays.size ≤ a.index :=
        Nat.le_of_not_lt fun inside => outside.2 a.index inside rfl
      simp only [parts, Part.values, Heap.grid, Array.getElem?_eq_none missing]
      rfl

/-- A routine leads to something through an array, or through literal routines only, by induction on
the way there.
-/
theorem through_array_or_mentions {h : Heap} {r : RoutineId} {y : Part}
    (leads : Relation.TransGen h.Refers (.routine r) y)
    : (∃ a, Relation.ReflTransGen h.Refers (.routine r) (.array a)
        ∧ Relation.ReflTransGen h.Refers (.array a) y)
      ∨ ∃ q, y = .routine q ∧ Relation.TransGen h.Mentions r q := by
  induction leads with
  | @single y refers =>
      cases y with
      | routine q => exact .inr ⟨q, rfl, .single refers⟩
      | array a => exact .inl ⟨a, .single refers, .refl⟩
  | @tail y z _ refers ih =>
      rcases ih with ⟨a, before, after⟩ | ⟨q, rfl, mentions⟩
      · exact .inl ⟨a, before, after.tail refers⟩
      · cases z with
        | routine q' => exact .inr ⟨q', rfl, mentions.tail refers⟩
        | array a =>
            have way : Relation.TransGen h.Refers (.routine r) (.routine q) :=
              Relation.TransGen.lift Part.routine (fun _ _ => id) _ _ mentions
            exact .inl ⟨a, way.to_reflTransGen.tail refers, .refl⟩

end Heap

/-- How the number of a part is found while saving. -/
def Numbering.part {σ : Type} (numbering : Numbering σ) : Part → EStateM Fault σ Nat
  | .routine r => numbering.routine r
  | .array a => numbering.array a

namespace Writer

variable {charset : Charset} {h : Heap} {numbering : Numbering Writer} {depth : Nat}
  {w w' w₁ : Writer}

-----------------------------------------------------------------------------------------
-- Storing values
-----------------------------------------------------------------------------------------

/-- Parts are given their numbers one after another. -/
inductive Visits (numbering : Numbering Writer) : Writer → List Part → Writer → Prop
  | nil {w : Writer} : Visits numbering w [] w
  | cons {w w₁ w₂ : Writer} {x : Part} {xs : List Part} {n : Nat}
    (first : (numbering.part x).run w = .ok n w₁) (others : Visits numbering w₁ xs w₂)
    : Visits numbering w (x :: xs) w₂

private theorem visits_nil : Visits numbering w [] w' ↔ w' = w := by
  constructor
  · intro visits
    cases visits
    rfl
  · rintro rfl
    exact .nil

/-- A visit to some parts is a visit to the first one and then to the others. -/
theorem visits_cons {x : Part} {xs : List Part}
    : Visits numbering w (x :: xs) w'
      ↔ ∃ w₁, (∃ n, (numbering.part x).run w = .ok n w₁) ∧ Visits numbering w₁ xs w' := by
  constructor
  · intro visits
    cases visits with
    | cons first others => exact ⟨_, ⟨_, first⟩, others⟩
  · rintro ⟨w₁, ⟨n, first⟩, others⟩
    exact .cons first others

private theorem visits_singleton {x : Part}
    : Visits numbering w [x] w' ↔ ∃ n, (numbering.part x).run w = .ok n w' := by
  simp [visits_cons, visits_nil]

private theorem visits_append {xs ys : List Part}
    : Visits numbering w (xs ++ ys) w'
      ↔ ∃ w₁, Visits numbering w xs w₁ ∧ Visits numbering w₁ ys w' := by
  induction xs generalizing w with
  | nil => simp [visits_nil]
  | cons x xs ih =>
      rw [List.cons_append, visits_cons]
      constructor
      · rintro ⟨w₁, first, others⟩
        obtain ⟨w₂, others, last⟩ := ih.mp others
        exact ⟨w₂, visits_cons.mpr ⟨w₁, first, others⟩, last⟩
      · rintro ⟨w₂, visits, last⟩
        obtain ⟨w₁, first, others⟩ := visits_cons.mp visits
        exact ⟨w₁, first, ih.mpr ⟨w₂, others, last⟩⟩

/-- A value is stored if it can be, and if the part that it refers to can be visited. -/
theorem saveValue_ok_iff {v : Value}
    : (∃ stored, (saveValue charset h numbering v).run w = .ok stored w')
      ↔ h.CanStore charset v ∧ Visits numbering w (h.part? v).toList w' := by
  cases v with
  | null | integer | boolean | float =>
      simp only [Heap.CanStore, Heap.part?, Option.toList_none, visits_nil, true_and]
      exact exists_run_pure
  | string s =>
      simp only [saveValue, Heap.CanStore, Heap.part?, Option.toList_none, visits_nil]
      rw [← saveString_ok_iff]
      cases saveString charset s with
      | ok stored => exact exists_run_pure.trans (by simp)
      | error fault => simp [run_throw]
  | callable c =>
      simp only [saveValue, Heap.CanStore, Heap.part?]
      split
      · rename_i r direct
        simp only [direct, Option.toList_some, visits_singleton]
        exact exists_run_bind_pure.trans (by simp [Numbering.part])
      · rename_i other
        have never : ¬ ∃ r, h.callable c = .direct (.subroutine r) := not_exists.mpr other
        simp [never, run_throw]
  | array a =>
      simp only [Heap.CanStore, Heap.part?, Option.toList_some, visits_singleton, true_and]
      exact exists_run_bind_pure
  | object o =>
      simp only [saveValue, Heap.CanStore, Heap.part?, Option.toList_none, visits_nil]
      cases (h.object o).image? with
      | some stored => exact exists_run_pure.trans (by simp)
      | none => simp [run_throw]

/-- Values are stored if each can be, one after another, by induction on the values. -/
theorem mapM_saveValue_ok_iff {values : List Value}
    : (∃ stored, (values.mapM (saveValue charset h numbering)).run w = .ok stored w')
      ↔ (∀ v ∈ values, h.CanStore charset v)
        ∧ Visits numbering w (values.filterMap h.part?) w' := by
  induction values generalizing w with
  | nil =>
      simp only [List.not_mem_nil, false_implies, implies_true, List.filterMap_nil, visits_nil,
        true_and]
      exact exists_run_pure
  | cons v values ih =>
      have split : (v :: values).filterMap h.part?
          = (h.part? v).toList ++ values.filterMap h.part? := by
        rw [List.filterMap_cons]
        cases h.part? v <;> rfl
      rw [split, visits_append, List.forall_mem_cons]
      constructor
      · rintro ⟨stored, ran⟩
        obtain ⟨first, w₁, others, ranFirst, ranOthers, rfl⟩ := run_mapM_cons_eq_ok.mp ran
        obtain ⟨can, visits⟩ := saveValue_ok_iff.mp ⟨first, ranFirst⟩
        obtain ⟨canOthers, visitsOthers⟩ := ih.mp ⟨others, ranOthers⟩
        exact ⟨⟨can, canOthers⟩, w₁, visits, visitsOthers⟩
      · rintro ⟨⟨can, canOthers⟩, w₁, visits, visitsOthers⟩
        obtain ⟨first, ranFirst⟩ := saveValue_ok_iff.mpr ⟨can, visits⟩
        obtain ⟨others, ranOthers⟩ := ih.mpr ⟨canOthers, visitsOthers⟩
        exact ⟨_, run_mapM_cons_eq_ok.mpr ⟨first, w₁, others, ranFirst, ranOthers, rfl⟩⟩

/-- A segment is stored just if each value can be, and all that they refer to is visited. -/
theorem segment_ok_iff {values : List Value}
    : (∃ stored, (segment charset h numbering values).run w = .ok stored w')
      ↔ (∀ v ∈ values, h.CanStore charset v)
        ∧ Visits numbering w (values.filterMap h.part?) w' := by
  rw [segment, exists_run_bind_pure, saveSegment, exists_run_bind_pure]
  exact mapM_saveValue_ok_iff

-----------------------------------------------------------------------------------------
-- Visiting a part
-----------------------------------------------------------------------------------------

/-- The part has a number. -/
def Has (w : Writer) : Part → Prop
  | .routine r => (numberOf w.routineIds r).isSome
  | .array a => (numberOf w.arrayIds a).isSome

/-- The part is a routine whose literals are being stored. -/
def Busy (w : Writer) : Part → Prop
  | .routine r => r ∈ w.inProgress
  | .array _ => False

/-- The writer while it stores what a part is stored with: a routine is in progress then, and an array
has its number already.
-/
def opened (w : Writer) (h : Heap) : Part → Writer
  | .routine r => w.withBusy (r :: w.inProgress)
  | .array a => w.withArray a ⟨(h.grid a).dims.map UInt32.ofNat, ⟨0, []⟩⟩

private theorem has_withRoutine {r : RoutineId} {record : RoutineRecord} {y : Part}
    : (w.withRoutine r record).Has y ↔ w.Has y ∨ y = .routine r := by
  cases y with
  | routine q =>
      rw [Has, Has, withRoutine, numberOf_cons, Part.routine.injEq]
      split_ifs with same
      · simp [same]
      · exact (or_iff_left (Ne.symm same)).symm
  | array a => simp [Has, withRoutine]

theorem has_withArray {a : ArrayId} {record : ArrayRecord} {y : Part}
    : (w.withArray a record).Has y ↔ w.Has y ∨ y = .array a := by
  cases y with
  | array b =>
      rw [Has, Has, withArray, numberOf_cons, Part.array.injEq]
      split_ifs with same
      · simp [same]
      · exact (or_iff_left (Ne.symm same)).symm
  | routine r => simp [Has, withArray]

/-- Filling an array and changing what is in progress give no numbers. -/
theorem has_withElements {n : Nat} {elements : Segment} {y : Part}
    : (w.withElements n elements).Has y ↔ w.Has y := by
  cases y <;> rfl

theorem has_withBusy {busy : List RoutineId} {y : Part} : (w.withBusy busy).Has y ↔ w.Has y := by
  cases y <;> rfl

/-- What has been entered stays entered. -/
theorem Grows.has (grows : Grows w w') {y : Part} (has : w.Has y) : w'.Has y := by
  cases y with
  | routine r =>
      obtain ⟨n, found⟩ := Option.isSome_iff_exists.mp has
      exact Option.isSome_iff_exists.mpr ⟨n, grows.routineIds r n found⟩
  | array a =>
      obtain ⟨n, found⟩ := Option.isSome_iff_exists.mp has
      exact Option.isSome_iff_exists.mpr ⟨n, grows.arrayIds a n found⟩

theorem NumbersOnce.grows (once : NumbersOnce numbering) {x : Part} {n : Nat}
    (ran : (numbering.part x).run w = .ok n w')
    : Grows w w' := by
  cases x with
  | routine r => exact ((once.routine r).of_ok ran).1
  | array a => exact ((once.array a).of_ok ran).1

theorem NumbersOnce.has (once : NumbersOnce numbering) {x : Part} {n : Nat}
    (ran : (numbering.part x).run w = .ok n w')
    : w'.Has x := by
  cases x with
  | routine r => exact Option.isSome_iff_exists.mpr ⟨n, once.routineNumber r w n w' ran⟩
  | array a => exact Option.isSome_iff_exists.mpr ⟨n, once.arrayNumber a w n w' ran⟩

/-- What is visited has a number from then on, and what had one keeps it. -/
theorem Visits.grows (once : NumbersOnce numbering) {xs : List Part}
    (visits : Visits numbering w xs w')
    : Grows w w' ∧ ∀ x ∈ xs, w'.Has x := by
  induction visits with
  | nil => exact ⟨.refl _, by simp⟩
  | cons first others ih =>
      obtain ⟨grows, has⟩ := ih
      refine ⟨(once.grows first).trans grows, List.forall_mem_cons.mpr ⟨?_, has⟩⟩
      exact grows.has (once.has first)

/-- A part with a number is passed by. -/
theorem run_part_known {x : Part} (known : w.Has x)
    : ∃ n, ((numberingTo charset h (depth + 1)).part x).run w = .ok n w := by
  cases x with
  | routine r =>
      obtain ⟨n, found⟩ := Option.isSome_iff_exists.mp known
      exact ⟨n, run_routine_known found⟩
  | array a =>
      obtain ⟨n, found⟩ := Option.isSome_iff_exists.mp known
      exact ⟨n, run_array_known found⟩

/-- A part that is entered already costs nothing. -/
theorem eq_of_run_known {x : Part} {n : Nat} (known : w.Has x)
    (ran : ((numberingTo charset h (depth + 1)).part x).run w = .ok n w')
    : w' = w := by
  obtain ⟨m, again⟩ : ∃ m, ((numberingTo charset h (depth + 1)).part x).run w = .ok m w :=
    run_part_known known
  rw [ran] at again
  cases again
  rfl

/-- A part without a number gets one if it is not in progress, and if what it is stored with can be
stored.
-/
theorem visits_of_run {x : Part} {n : Nat} (new : ¬ w.Has x)
    (ran : ((numberingTo charset h (depth + 1)).part x).run w = .ok n w')
    : ¬ w.Busy x ∧ (∀ v ∈ x.values h, h.CanStore charset v)
      ∧ ∃ w₁, Visits (numberingTo charset h depth) (w.opened h x) (h.parts x) w₁
        ∧ (∀ y, w'.Has y ↔ w₁.Has y ∨ y = x) ∧ w'.inProgress = w.inProgress := by
  have once := numbersOnce_numberingTo charset h depth
  cases x with
  | routine r =>
      have none : numberOf w.routineIds r = none := Option.not_isSome_iff_eq_none.mp new
      by_cases busy : r ∈ w.inProgress
      · cases (run_routine_busy none busy).symm.trans ran
      · have cases_ := (run_routine_new none busy).symm.trans ran
        split at cases_
        · rename_i literals w₁ stored
          cases cases_
          obtain ⟨can, visits⟩ := segment_ok_iff.mp ⟨literals, stored⟩
          have grows := (visits.grows once).1
          refine ⟨busy, can, w₁, visits, fun y => ?_, ?_⟩
          · rw [has_withRoutine, has_withBusy]
          · change w₁.inProgress.erase r = w.inProgress
            rw [grows.inProgress]
            exact List.erase_cons_head r w.inProgress
        · cases cases_
  | array a =>
      have none : numberOf w.arrayIds a = none := Option.not_isSome_iff_eq_none.mp new
      have cases_ := (run_array_new none).symm.trans ran
      split at cases_
      · rename_i elements w₁ stored
        cases cases_
        obtain ⟨can, visits⟩ := segment_ok_iff.mp ⟨elements, stored⟩
        have grows := (visits.grows once).1
        refine ⟨id, can, w₁, visits, fun y => ?_, grows.inProgress⟩
        rw [has_withElements]
        constructor
        · exact .inl
        · rintro (has | rfl)
          · exact has
          · exact grows.has (has_withArray.mpr (.inr rfl))
      · cases cases_

/-- A new part is stored by a visit to what it refers to. -/
theorem run_of_visits {x : Part} (new : ¬ w.Has x) (idle : ¬ w.Busy x)
    (can : ∀ v ∈ x.values h, h.CanStore charset v)
    (visits : Visits (numberingTo charset h depth) (w.opened h x) (h.parts x) w₁)
    : ∃ n w', ((numberingTo charset h (depth + 1)).part x).run w = .ok n w' := by
  cases x with
  | routine r =>
      obtain ⟨literals, stored⟩ := segment_ok_iff.mpr ⟨can, visits⟩
      simp only [opened, Part.values] at stored
      have ran : (routine charset h (numberingTo charset h depth) r).run w = _ :=
        run_routine_new (Option.not_isSome_iff_eq_none.mp new) idle
      rw [stored] at ran
      exact ⟨_, _, ran⟩
  | array a =>
      obtain ⟨elements, stored⟩ := segment_ok_iff.mpr ⟨can, visits⟩
      simp only [opened, Part.values] at stored
      have ran : (array charset h (numberingTo charset h depth) a).run w = _ :=
        run_array_new (Option.not_isSome_iff_eq_none.mp new)
      rw [stored] at ran
      exact ⟨_, _, ran⟩

-----------------------------------------------------------------------------------------
-- Storing processes
-----------------------------------------------------------------------------------------

end Writer

/-- The values that a process is stored with. -/
def Process.storedValues (p : Process) : List Value :=
  p.stack.reverse ++ p.frames.reverse.flatMap fun f => f.locals.toList

/-- The parts that a process refers to, in the order in which they are met. -/
def Process.parts (h : Heap) (p : Process) : List Part :=
  p.stack.reverse.filterMap h.part?
    ++ p.frames.reverse.flatMap fun f => .routine f.routine :: f.locals.toList.filterMap h.part?

namespace Writer

variable {charset : Charset} {h : Heap} {w w' : Writer}

private theorem frameRecord_ok_iff {f : Frame}
    : (∃ record, (frameRecord charset h f).run w = .ok record w')
      ↔ (∀ v ∈ f.locals.toList, h.CanStore charset v)
        ∧ Visits (numbering charset h) w
            (.routine f.routine :: f.locals.toList.filterMap h.part?) w' := by
  rw [visits_cons]
  constructor
  · rintro ⟨record, ran⟩
    obtain ⟨n, w₁, numbered, ran⟩ := run_bind_eq_ok.mp ran
    obtain ⟨locals, w₂, stored, ran⟩ := run_bind_eq_ok.mp ran
    cases ran
    obtain ⟨can, visits⟩ := segment_ok_iff.mp ⟨locals, stored⟩
    exact ⟨can, w₁, ⟨n, numbered⟩, visits⟩
  · rintro ⟨can, w₁, ⟨n, numbered⟩, visits⟩
    obtain ⟨locals, stored⟩ := segment_ok_iff.mpr ⟨can, visits⟩
    exact ⟨_, run_bind_eq_ok.mpr ⟨n, w₁, numbered, run_bind_eq_ok.mpr ⟨locals, w', stored, rfl⟩⟩⟩

/-- The records of calls are made just if those of their parts are. -/
theorem frameRecords_ok_iff {fs : List Frame}
    : (∃ records, (fs.mapM (frameRecord charset h)).run w = .ok records w')
      ↔ (∀ v ∈ fs.flatMap fun f => f.locals.toList, h.CanStore charset v)
        ∧ Visits (numbering charset h) w
            (fs.flatMap fun f => .routine f.routine :: f.locals.toList.filterMap h.part?) w' := by
  induction fs generalizing w with
  | nil =>
      simp only [List.flatMap_nil, List.not_mem_nil, false_implies, implies_true, visits_nil,
        true_and]
      constructor
      · rintro ⟨records, ran⟩
        cases ran
        rfl
      · rintro rfl
        exact ⟨[], rfl⟩
  | cons f fs ih =>
      simp only [List.flatMap_cons, List.forall_mem_append, visits_append]
      constructor
      · rintro ⟨records, ran⟩
        obtain ⟨record, w₁, others, ranFirst, ranOthers, rfl⟩ := run_mapM_cons_eq_ok.mp ran
        obtain ⟨can, visits⟩ := frameRecord_ok_iff.mp ⟨record, ranFirst⟩
        obtain ⟨canOthers, visitsOthers⟩ := ih.mp ⟨others, ranOthers⟩
        exact ⟨⟨can, canOthers⟩, w₁, visits, visitsOthers⟩
      · rintro ⟨⟨can, canOthers⟩, w₁, visits, visitsOthers⟩
        obtain ⟨record, ranFirst⟩ := frameRecord_ok_iff.mpr ⟨can, visits⟩
        obtain ⟨others, ranOthers⟩ := ih.mpr ⟨canOthers, visitsOthers⟩
        exact ⟨_, run_mapM_cons_eq_ok.mpr ⟨record, w₁, others, ranFirst, ranOthers, rfl⟩⟩

/-- A process is stored if it is in a state for that, if its values can be stored, and if the parts
that it refers to can be visited.
-/
theorem processRecord_ok_iff {p : Process}
    : (∃ record, (processRecord charset h p).run w = .ok record w')
      ↔ isStorable p = true ∧ (∀ v ∈ p.storedValues, h.CanStore charset v)
        ∧ Visits (numbering charset h) w (p.parts h) w' := by
  simp only [processRecord, Process.storedValues, Process.parts, List.forall_mem_append,
    visits_append]
  cases isStorable p with
  | false =>
      constructor
      · rintro ⟨record, ran⟩
        cases ran
      · rintro ⟨storable, -⟩
        cases storable
  | true =>
      simp only [Bool.not_true, Bool.false_eq_true, if_false]
      constructor
      · rintro ⟨record, ran⟩
        obtain ⟨stack, w₁, ranStack, ran⟩ := run_bind_eq_ok.mp ran
        obtain ⟨frames, w₂, ranFrames, ran⟩ := run_bind_eq_ok.mp ran
        cases ran
        obtain ⟨can, visits⟩ := segment_ok_iff.mp ⟨stack, ranStack⟩
        obtain ⟨canFrames, visitsFrames⟩ := frameRecords_ok_iff.mp ⟨frames, ranFrames⟩
        exact ⟨trivial, ⟨can, canFrames⟩, w₁, visits, visitsFrames⟩
      · rintro ⟨-, ⟨can, canFrames⟩, w₁, visits, visitsFrames⟩
        obtain ⟨stack, ranStack⟩ := segment_ok_iff.mpr ⟨can, visits⟩
        obtain ⟨frames, ranFrames⟩ := frameRecords_ok_iff.mpr ⟨canFrames, visitsFrames⟩
        exact ⟨_, run_bind_eq_ok.mpr ⟨stack, w₁, ranStack,
          run_bind_eq_ok.mpr ⟨frames, w', ranFrames, rfl⟩⟩⟩

end Writer
end TaskMachine

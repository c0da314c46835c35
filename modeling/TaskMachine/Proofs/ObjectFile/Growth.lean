import TaskMachine.Proofs.ObjectFile.Writing

/-!
What storing leaves behind, completed or not. Numbers and records are added one to one and never
changed or taken away, and a routine whose literals were being stored is not any more.
-/

namespace TaskMachine.Writer

variable {α β : Type} {charset : Charset} {h : Heap} {numbering : Numbering Writer}
  {w w' : Writer}

-----------------------------------------------------------------------------------------
-- The outcomes of storing routines and arrays
-----------------------------------------------------------------------------------------

theorem run_routine_known {r : RoutineId} {n : Nat} (known : numberOf w.routineIds r = some n)
    : (routine charset h numbering r).run w = .ok n w := by
  obtain ⟨entry, found, rfl⟩ := Option.map_eq_some_iff.mp known
  simp only [routine, EStateM.run_bind, EStateM.run_get, found]
  rfl

/-- A routine cannot be stored while its literals are. -/
theorem run_routine_busy {r : RoutineId} (new : numberOf w.routineIds r = none)
    (busy : r ∈ w.inProgress)
    : (routine charset h numbering r).run w = .error .notSerializable w := by
  have unknown : w.routineIds.find? (·.1 == r) = none := Option.map_eq_none_iff.mp new
  have found : w.inProgress.contains r = true := List.contains_iff_mem.mpr busy
  simp only [routine, EStateM.run_bind, EStateM.run_get, unknown, found, if_true]
  rfl

/-- A routine is stored after its literals, and is in progress meanwhile. -/
theorem run_routine_new {r : RoutineId} (new : numberOf w.routineIds r = none)
    (idle : r ∉ w.inProgress)
    : (routine charset h numbering r).run w
      = match (segment charset h numbering (h.routine r).literals.toList).run
          (w.withBusy (r :: w.inProgress)) with
        | .ok literals w₁ =>
          .ok w₁.file.routines.length ((w₁.withBusy (w₁.inProgress.erase r)).withRoutine r
            (routineRecord (h.routine r) literals))
        | .error fault w₁ => .error fault (w₁.withBusy (w₁.inProgress.erase r)) := by
  have unknown : w.routineIds.find? (·.1 == r) = none := Option.map_eq_none_iff.mp new
  have absent : w.inProgress.contains r = false := by simpa using idle
  simp only [routine, EStateM.run_bind, EStateM.run_get, unknown, absent, Bool.false_eq_true,
    if_false, EStateM.run_set, withBusy]
  generalize (segment charset h numbering (h.routine r).literals.toList).run
    { w with inProgress := r :: w.inProgress } = result
  cases result <;> rfl

theorem run_array_known {a : ArrayId} {n : Nat} (known : numberOf w.arrayIds a = some n)
    : (array charset h numbering a).run w = .ok n w := by
  obtain ⟨entry, found, rfl⟩ := Option.map_eq_some_iff.mp known
  simp only [array, EStateM.run_bind, EStateM.run_get, found]
  rfl

/-- An array is entered before its elements. If one of these cannot be stored, it stays without any. -/
theorem run_array_new {a : ArrayId} (new : numberOf w.arrayIds a = none)
    : (array charset h numbering a).run w
      = match (segment charset h numbering (h.grid a).cells.toList).run
          (w.withArray a ⟨(h.grid a).dims.map UInt32.ofNat, ⟨0, []⟩⟩) with
        | .ok elements w₁ =>
          .ok w.file.arrays.length (w₁.withElements w.file.arrays.length elements)
        | .error fault w₁ => .error fault w₁ := by
  have unknown : w.arrayIds.find? (·.1 == a) = none := Option.map_eq_none_iff.mp new
  simp only [array, EStateM.run_bind, EStateM.run_get, unknown]
  show EStateM.bind (segment charset h numbering (h.grid a).cells.toList) _ (w.withArray a _) = _
  simp only [EStateM.bind, EStateM.run]
  generalize segment charset h numbering (h.grid a).cells.toList
    (w.withArray a ⟨(h.grid a).dims.map UInt32.ofNat, ⟨0, []⟩⟩) = result
  cases result <;> rfl

-----------------------------------------------------------------------------------------
-- Steps that only add
-----------------------------------------------------------------------------------------

/-- The records that are there are numbered one to one. -/
structure Counted (w : Writer) : Prop where
  routineIds : Numbered (numberOf w.routineIds) w.file.routines.length
  arrayIds : Numbered (numberOf w.arrayIds) w.file.arrays.length

/-- Whatever becomes of the step, it only adds numbers and records. -/
structure Adds (x : Writing α) : Prop where
  grows : ∀ w, Grows w (stateOf (x.run w))
  counted : ∀ w, w.Counted → (stateOf (x.run w)).Counted

theorem Adds.pure (a : α) : Adds (pure a : Writing α) :=
  ⟨.refl, fun _ counted => counted⟩

theorem Adds.throw (fault : Fault) : Adds (throw fault : Writing α) :=
  ⟨.refl, fun _ counted => counted⟩

theorem Adds.bind {x : Writing α} {f : α → Writing β} (first : Adds x) (next : ∀ a, Adds (f a))
    : Adds (x >>= f) := by
  constructor
  · intro w
    have grows := first.grows w
    rw [EStateM.run_bind]
    cases ran : x.run w with
    | ok a w₁ =>
        rw [ran] at grows
        exact grows.trans ((next a).grows w₁)
    | error fault w₁ =>
        rw [ran] at grows
        exact grows
  · intro w before
    have counted := first.counted w before
    rw [EStateM.run_bind]
    cases ran : x.run w with
    | ok a w₁ =>
        rw [ran] at counted
        exact (next a).counted w₁ counted
    | error fault w₁ =>
        rw [ran] at counted
        exact counted

/-- Steps for the members of a list only add if each does, by induction on the list. -/
theorem Adds.mapM {f : α → Writing β} (each : ∀ a, Adds (f a)) (items : List α)
    : Adds (items.mapM f) := by
  induction items with
  | nil => exact .pure _
  | cons a rest ih =>
      rw [List.mapM_cons]
      exact .bind (each a) fun b => .bind ih fun bs => .pure _

/-- What adds has only added when it completes. -/
theorem Adds.of_ok {x : Writing α} (adds : Adds x) {a : α} (ran : x.run w = .ok a w')
    : Grows w w' ∧ (w.Counted → w'.Counted) := by
  have grows := adds.grows w
  have counted := adds.counted w
  rw [ran] at grows counted
  exact ⟨grows, counted⟩

/-- Giving numbers only adds, and what gets a number has it from then on. -/
structure NumbersOnce (numbering : Numbering Writer) : Prop where
  routine : ∀ r, Adds (numbering.routine r)
  array : ∀ a, Adds (numbering.array a)
  routineNumber
    : ∀ r w n w',
        (numbering.routine r).run w = .ok n w'
        → numberOf w'.routineIds r = some n
  arrayNumber
    : ∀ a w n w',
        (numbering.array a).run w = .ok n w'
        → numberOf w'.arrayIds a = some n

private theorem counted_withRoutine {r : RoutineId} {record : RoutineRecord} (counted : w.Counted)
    (new : numberOf w.routineIds r = none)
    : (w.withRoutine r record).Counted := by
  refine ⟨?_, counted.arrayIds⟩
  simp only [withRoutine, List.length_append, List.length_singleton]
  exact counted.routineIds.enter new

theorem counted_withArray {a : ArrayId} {record : ArrayRecord} (counted : w.Counted)
    (new : numberOf w.arrayIds a = none)
    : (w.withArray a record).Counted := by
  refine ⟨counted.routineIds, ?_⟩
  simp only [withArray, List.length_append, List.length_singleton]
  exact counted.arrayIds.enter new

private theorem counted_withElements {n : Nat} {elements : Segment} (counted : w.Counted)
    : (w.withElements n elements).Counted := by
  refine ⟨counted.routineIds, ?_⟩
  rw [withElements, List.length_modify]
  exact counted.arrayIds

/-- Filling an array changes no record that was there before it was entered. -/
theorem grows_withElements {a : ArrayId} {record : ArrayRecord} {elements : Segment}
    (new : numberOf w.arrayIds a = none) (grows : Grows (w.withArray a record) w')
    : Grows w (w'.withElements w.file.arrays.length elements) := by
  have grown := (grows_withArray record new).trans grows
  refine { grown with arrays := ?_ }
  intro m record' found
  have before := (List.getElem?_eq_some_iff.mp found).1
  rw [withElements, List.getElem?_modify_ne _ _ (Nat.ne_of_gt before)]
  exact grown.arrays m record' found

-----------------------------------------------------------------------------------------
-- Values
-----------------------------------------------------------------------------------------

section

variable (numbers : NumbersOnce numbering)
include numbers

/-- Storing a value adds what it refers to, by the kinds of values. -/
theorem adds_saveValue (v : Value) : Adds (saveValue charset h numbering v) := by
  cases v with
  | null | integer | boolean | float => exact .pure _
  | string s =>
      simp only [saveValue]
      split
      · exact .pure _
      · exact .throw _
  | callable c =>
      simp only [saveValue]
      split
      · exact .bind (numbers.routine _) fun _ => .pure _
      · exact .throw _
  | array a => exact .bind (numbers.array a) fun _ => .pure _
  | object o =>
      simp only [saveValue]
      split
      · exact .pure _
      · exact .throw _

theorem adds_segment (values : List Value) : Adds (segment charset h numbering values) :=
  .bind (.bind (.mapM (adds_saveValue numbers) values) fun _ => .pure _) fun _ => .pure _

-----------------------------------------------------------------------------------------
-- Routines and arrays
-----------------------------------------------------------------------------------------

/-- After its literals, a routine is as new as before, and no longer in progress. -/
theorem after_literals {r : RoutineId} (new : numberOf w.routineIds r = none) (values : List Value)
    (w₁ : Writer)
    (ran : stateOf ((segment charset h numbering values).run (w.withBusy (r :: w.inProgress))) = w₁)
    : Grows w (w₁.withBusy (w₁.inProgress.erase r))
      ∧ (w.Counted → (w₁.withBusy (w₁.inProgress.erase r)).Counted)
      ∧ numberOf w₁.routineIds r = none
      ∧ w₁.inProgress.erase r = w.inProgress := by
  have adds : Adds (segment charset h numbering values) := adds_segment numbers values
  have grows := adds.grows (w.withBusy (r :: w.inProgress))
  have counted := adds.counted (w.withBusy (r :: w.inProgress))
  rw [ran] at grows counted
  have after : w₁.inProgress.erase r = w.inProgress := by
    rw [grows.inProgress]
    exact List.erase_cons_head r w.inProgress
  refine ⟨?_, ?_, ?_, after⟩
  · exact { grows with
      inProgress := after
      kept := fun q member => grows.kept q (List.mem_cons_of_mem _ member) }
  · intro before
    obtain ⟨routineIds, arrayIds⟩ := counted { before with }
    exact ⟨routineIds, arrayIds⟩
  · rw [grows.kept r List.mem_cons_self]
    exact new

/-- A routine adds its record after those that it refers to. -/
theorem adds_routine (r : RoutineId) : Adds (routine charset h numbering r) := by
  have outcome (w : Writer)
      : Grows w (stateOf ((routine charset h numbering r).run w))
        ∧ (w.Counted → (stateOf ((routine charset h numbering r).run w)).Counted) := by
    cases known : numberOf w.routineIds r with
    | some n =>
        rw [run_routine_known known]
        exact ⟨.refl w, id⟩
    | none =>
        by_cases busy : r ∈ w.inProgress
        · rw [run_routine_busy known busy]
          exact ⟨.refl w, id⟩
        · rw [run_routine_new known busy]
          cases ran : (segment charset h numbering (h.routine r).literals.toList).run
              (w.withBusy (r :: w.inProgress)) with
          | error fault w₁ =>
              obtain ⟨grows, counted, -, -⟩ := after_literals numbers known _ w₁ (by rw [ran]; rfl)
              exact ⟨grows, counted⟩
          | ok literals w₁ =>
              obtain ⟨grows, counted, new, after⟩ :=
                after_literals numbers known _ w₁ (by rw [ran]; rfl)
              have idle : r ∉ (w₁.withBusy (w₁.inProgress.erase r)).inProgress := by
                rwa [withBusy, after]
              exact ⟨grows.trans (grows_withRoutine _ new idle),
                fun before => counted_withRoutine (counted before) new⟩
  exact ⟨fun w => (outcome w).1, fun w => (outcome w).2⟩

/-- An array adds its record before its elements are stored, which may refer to it. -/
theorem adds_array (a : ArrayId) : Adds (array charset h numbering a) := by
  have outcome (w : Writer)
      : Grows w (stateOf ((array charset h numbering a).run w))
        ∧ (w.Counted → (stateOf ((array charset h numbering a).run w)).Counted) := by
    cases known : numberOf w.arrayIds a with
    | some n =>
        rw [run_array_known known]
        exact ⟨.refl w, id⟩
    | none =>
        rw [run_array_new known]
        have adds : Adds (segment charset h numbering (h.grid a).cells.toList) :=
          adds_segment numbers _
        have grows := adds.grows (w.withArray a ⟨(h.grid a).dims.map UInt32.ofNat, ⟨0, []⟩⟩)
        have counted := adds.counted (w.withArray a ⟨(h.grid a).dims.map UInt32.ofNat, ⟨0, []⟩⟩)
        cases ran : (segment charset h numbering (h.grid a).cells.toList).run
            (w.withArray a ⟨(h.grid a).dims.map UInt32.ofNat, ⟨0, []⟩⟩) with
        | error fault w₁ =>
            rw [ran] at grows counted
            exact ⟨(grows_withArray _ known).trans grows,
              fun before => counted (counted_withArray before known)⟩
        | ok elements w₁ =>
            rw [ran] at grows counted
            exact ⟨grows_withElements known grows,
              fun before => counted_withElements (counted (counted_withArray before known))⟩
  exact ⟨fun w => (outcome w).1, fun w => (outcome w).2⟩

omit numbers in
/-- The number that is given for a routine is the one it is entered under. -/
theorem number_of_routine {r : RoutineId} {n : Nat}
    (ran : (routine charset h numbering r).run w = .ok n w')
    : numberOf w'.routineIds r = some n := by
  cases known : numberOf w.routineIds r with
  | some m =>
      rw [run_routine_known known] at ran
      cases ran
      exact known
  | none =>
      by_cases busy : r ∈ w.inProgress
      · rw [run_routine_busy known busy] at ran
        cases ran
      · rw [run_routine_new known busy] at ran
        split at ran
        · cases ran
          exact (numberOf_cons ..).trans (if_pos rfl)
        · cases ran

/-- The number that is given for an array is the one it is entered under. -/
theorem number_of_array {a : ArrayId} {n : Nat}
    (ran : (array charset h numbering a).run w = .ok n w')
    : numberOf w'.arrayIds a = some n := by
  cases known : numberOf w.arrayIds a with
  | some m =>
      rw [run_array_known known] at ran
      cases ran
      exact known
  | none =>
      rw [run_array_new known] at ran
      split at ran
      · rename_i elements w₁ stored
        cases ran
        obtain ⟨grows, -⟩ := (adds_segment numbers _).of_ok stored
        exact grows.arrayIds a _ ((numberOf_cons ..).trans (if_pos rfl))
      · cases ran

end

/-- Numbers of any depth are given once, by induction on the depth. -/
theorem numbersOnce_numberingTo (charset : Charset) (h : Heap) (depth : Nat)
    : NumbersOnce (numberingTo charset h depth) := by
  induction depth with
  | zero =>
      refine ⟨fun _ => .throw _, fun _ => .throw _, ?_, ?_⟩
      · intro r w n w' ran
        cases ran
      · intro a w n w' ran
        cases ran
  | succ depth ih =>
      exact ⟨adds_routine ih, adds_array ih, fun _ _ _ _ => number_of_routine,
        fun _ _ _ _ => number_of_array ih⟩

theorem numbersOnce (charset : Charset) (h : Heap) : NumbersOnce (Writer.numbering charset h) :=
  numbersOnce_numberingTo charset h _

-----------------------------------------------------------------------------------------
-- Processes
-----------------------------------------------------------------------------------------

theorem adds_frameRecord (f : Frame) : Adds (frameRecord charset h f) :=
  .bind ((numbersOnce charset h).routine _) fun _ =>
    .bind (adds_segment (numbersOnce charset h) _) fun _ => .pure _

/-- What a process is stored as before its record is put last. -/
def processRecord (charset : Charset) (h : Heap) (p : Process) : Writing ProcessRecord := do
  if !isStorable p then throw .notSerializable
  let stack ← segment charset h (Writer.numbering charset h) p.stack.reverse
  let frames ← p.frames.reverse.mapM (frameRecord charset h)
  return { name := p.name, kind := p.kind, state := p.state, waitingFor := p.waitingFor, stack, frames }

theorem adds_processRecord (p : Process) : Adds (processRecord charset h p) := by
  simp only [processRecord]
  split
  · exact .bind (.throw _) fun _ => .bind (adds_segment (numbersOnce charset h) _) fun _ =>
      .bind (.mapM adds_frameRecord _) fun _ => .pure _
  · exact .bind (adds_segment (numbersOnce charset h) _) fun _ =>
      .bind (.mapM adds_frameRecord _) fun _ => .pure _

/-- A process is stored by making its record and putting it last. -/
theorem addProcess_eq (p : Process)
    : addProcess charset h p
      = processRecord charset h p >>= fun record => modify fun w => w.withProcess record := by
  simp only [addProcess, processRecord]
  split
  · rfl
  · simp only [bind_assoc, pure_bind]
    rfl

end TaskMachine.Writer

import TaskMachine.Proofs.ObjectFile.Complete
import TaskMachine.Proofs.ObjectFile.Growth

/-!
Storing what was loaded. A writer that stores loaded routines, arrays and processes goes the way of
the one that wrote the file: what the first one entered under a number was restored from the record
with that number, so the second one enters the same record under the same number.
-/

namespace TaskMachine.Writer

-----------------------------------------------------------------------------------------
-- Numbers of a table
-----------------------------------------------------------------------------------------

section

variable {α : Type} [DecidableEq α] {ids : List (α × Nat)} {table : Nat → Option α} {size : Nat}
  {a : α}

/-- The numbers are the places in a table, up to a size. -/
def NumbersOf (ids : List (α × Nat)) (table : Nat → Option α) (size : Nat) : Prop :=
  ∀ a n, numberOf ids a = some n ↔ n < size ∧ table n = some a

theorem NumbersOf.none (numbers : NumbersOf ids table size)
    (distinct : ∀ i j a, table i = some a → table j = some a → i = j) {n : Nat}
    (entry : table n = some a) (later : size ≤ n)
    : numberOf ids a = none := by
  rw [Option.eq_none_iff_forall_ne_some]
  intro m found
  obtain ⟨inside, there⟩ := (numbers a m).mp found
  rw [distinct m n a there entry] at inside
  omega

/-- What has its place next gets the next number. -/
theorem NumbersOf.enter (numbers : NumbersOf ids table size)
    (distinct : ∀ i j a, table i = some a → table j = some a → i = j) (entry : table size = some a)
    : NumbersOf ((a, size) :: ids) table (size + 1) := by
  intro b n
  rw [numberOf_cons]
  split
  · rename_i same
    subst same
    constructor
    · rintro ⟨⟩
      exact ⟨Nat.lt_succ_self _, entry⟩
    · intro given
      rw [distinct n size a given.2 entry]
  · rename_i different
    rw [numbers b n]
    constructor
    · exact fun given => ⟨Nat.lt_succ_of_lt given.1, given.2⟩
    · intro given
      refine ⟨Nat.lt_of_le_of_ne (Nat.le_of_lt_succ given.1) fun same => ?_, given.2⟩
      rw [same, entry] at given
      exact different (Option.some.inj given.2)

end

-----------------------------------------------------------------------------------------
-- Two writers in step
-----------------------------------------------------------------------------------------

variable {final : ObjectFile} {routines : Nat → Option RoutineId} {arrays : Nat → Option ArrayId}
  {h h' : Heap} {P : Value → Prop} {R : RoutineId → Prop} {numbering numbering' : Numbering Writer}
  {limit : Nat} {w w₁ w₂ w' w₁' : Writer}

/-- How many routines and arrays are stored. -/
def size (w : Writer) : Nat :=
  w.file.routines.length + w.file.arrays.length

private theorem size_withRoutine (w : Writer) (r : RoutineId) (record : RoutineRecord)
    : (w.withRoutine r record).size = w.size + 1 := by
  rw [size, size, withRoutine, List.length_append, List.length_singleton, Nat.add_right_comm]

private theorem size_withArray (w : Writer) (a : ArrayId) (record : ArrayRecord)
    : (w.withArray a record).size = w.size + 1 := by
  rw [size, size, withArray, List.length_append, List.length_singleton, Nat.add_assoc]

private theorem size_withElements (w : Writer) (n : Nat) (elements : Segment)
    : (w.withElements n elements).size = w.size := by
  rw [size, size, withElements, List.length_modify]

/-- The records that the second writer has beyond those of the first are in the file. -/
structure AddsPartOf (final : ObjectFile) (w w₁ : Writer) : Prop where
  routines
    : ∀ (n : Nat) record,
        w.file.routines.length ≤ n
        → w₁.file.routines[n]? = some record
        → final.routines[n]? = some record
  arrays
    : ∀ (n : Nat) record,
        w.file.arrays.length ≤ n
        → w₁.file.arrays[n]? = some record
        → final.arrays[n]? = some record
  routines_le : w₁.file.routines.length ≤ final.routines.length
  arrays_le : w₁.file.arrays.length ≤ final.arrays.length

/-- The second writer has the file of the first, with the numbers of what was restored from it. -/
structure Copies (routines : Nat → Option RoutineId) (arrays : Nat → Option ArrayId)
    (w w' : Writer) : Prop where
  file : w'.file = w.file
  routineIds : NumbersOf w'.routineIds routines w.file.routines.length
  arrayIds : NumbersOf w'.arrayIds arrays w.file.arrays.length

/-- The first writer is to become `w₁`, which is part of the file, and `w'` is its copy. What is in
progress in the copy is stored later than all that. The first writer is to get fewer records than a
limit.
-/
structure InStep (final : ObjectFile) (routines : Nat → Option RoutineId)
    (arrays : Nat → Option ArrayId) (limit : Nat) (w w₁ w' : Writer) : Prop where
  counted : w.Counted
  part : AddsPartOf final w w₁
  copies : Copies routines arrays w w'
  ahead : ∀ r ∈ w'.inProgress, ∀ n, routines n = some r → w₁.file.routines.length ≤ n
  short : w₁.size < w.size + limit

/-- Records have been added. -/
structure MoreRecords (w w₁ : Writer) : Prop where
  routines
    : ∀ (n : Nat) record,
        w.file.routines[n]? = some record
        → w₁.file.routines[n]? = some record
  arrays : ∀ (n : Nat) record, w.file.arrays[n]? = some record → w₁.file.arrays[n]? = some record

theorem Grows.moreRecords (grows : Grows w w₁) : MoreRecords w w₁ :=
  ⟨grows.routines, grows.arrays⟩

theorem MoreRecords.trans (first : MoreRecords w w₁) (next : MoreRecords w₁ w₂) : MoreRecords w w₂ where
  routines n record found := next.routines n record (first.routines n record found)
  arrays n record found := next.arrays n record (first.arrays n record found)

private theorem length_le_of_getElem? {α : Type} {list more : List α}
    (kept : ∀ (n : Nat) a, list[n]? = some a → more[n]? = some a)
    : list.length ≤ more.length := by
  by_contra fewer
  have still := kept _ _ (List.getElem?_eq_getElem (Nat.lt_of_not_le fewer))
  rw [List.getElem?_eq_none (Nat.le_refl _)] at still
  cases still

/-- A file with more records has at least as many routines. -/
theorem MoreRecords.routines_le (more : MoreRecords w w₁)
    : w.file.routines.length ≤ w₁.file.routines.length :=
  length_le_of_getElem? more.routines

theorem MoreRecords.arrays_le (more : MoreRecords w w₁)
    : w.file.arrays.length ≤ w₁.file.arrays.length :=
  length_le_of_getElem? more.arrays

/-- Two steps are in step if the first and the second one are. -/
theorem InStep.first (inStep : InStep final routines arrays limit w w₂ w')
    (more : MoreRecords w₁ w₂)
    : InStep final routines arrays limit w w₁ w' := by
  have routines_le := more.routines_le
  have arrays_le := more.arrays_le
  refine ⟨inStep.counted, ⟨?_, ?_, ?_, ?_⟩, inStep.copies, ?_, ?_⟩
  · exact fun n record beyond found => inStep.part.routines n record beyond
      (more.routines n record found)
  · exact fun n record beyond found => inStep.part.arrays n record beyond
      (more.arrays n record found)
  · exact Nat.le_trans routines_le inStep.part.routines_le
  · exact Nat.le_trans arrays_le inStep.part.arrays_le
  · exact fun r busy n entry => Nat.le_trans routines_le (inStep.ahead r busy n entry)
  · have short := inStep.short
    simp only [size] at short ⊢
    omega

/-- Writers that are in step stay so when both have added the same records. -/
theorem InStep.next (inStep : InStep final routines arrays limit w w₂ w')
    (more : MoreRecords w w₁) (counted : w₁.Counted) (copies : Copies routines arrays w₁ w₁')
    (inProgress : w₁'.inProgress = w'.inProgress)
    : InStep final routines arrays limit w₁ w₂ w₁' := by
  have routines_le := more.routines_le
  have arrays_le := more.arrays_le
  refine ⟨counted, ⟨?_, ?_, inStep.part.routines_le, inStep.part.arrays_le⟩, copies, ?_, ?_⟩
  · exact fun n record beyond found => inStep.part.routines n record
      (Nat.le_trans routines_le beyond) found
  · exact fun n record beyond found => inStep.part.arrays n record
      (Nat.le_trans arrays_le beyond) found
  · rw [inProgress]
    exact inStep.ahead
  · have short := inStep.short
    simp only [size] at short ⊢
    omega

-----------------------------------------------------------------------------------------
-- Entering and filling records
-----------------------------------------------------------------------------------------

section

variable {r r' : RoutineId} {a a' : ArrayId}

/-- What is in progress is not stored. -/
theorem Copies.withBusy (copies : Copies routines arrays w w') (busy busy' : List RoutineId)
    : Copies routines arrays (w.withBusy busy) (w'.withBusy busy') :=
  { copies with }

/-- Both writers enter a routine under the number for which it was restored. -/
theorem Copies.withRoutine (copies : Copies routines arrays w w')
    (distinct : ∀ i j r, routines i = some r → routines j = some r → i = j)
    (entry : routines w.file.routines.length = some r') (record : RoutineRecord)
    : Copies routines arrays (w.withRoutine r record) (w'.withRoutine r' record) := by
  refine ⟨?_, ?_, copies.arrayIds⟩
  · simp only [Writer.withRoutine, copies.file]
  · simp only [Writer.withRoutine, copies.file, List.length_append, List.length_singleton]
    exact copies.routineIds.enter distinct entry

/-- Both writers enter an array under the number for which it was restored. -/
theorem Copies.withArray (copies : Copies routines arrays w w')
    (distinct : ∀ i j a, arrays i = some a → arrays j = some a → i = j)
    (entry : arrays w.file.arrays.length = some a') (record : ArrayRecord)
    : Copies routines arrays (w.withArray a record) (w'.withArray a' record) := by
  refine ⟨?_, copies.routineIds, ?_⟩
  · simp only [Writer.withArray, copies.file]
  · simp only [Writer.withArray, copies.file, List.length_append, List.length_singleton]
    exact copies.arrayIds.enter distinct entry

theorem Copies.withElements (copies : Copies routines arrays w w') (n : Nat) (elements : Segment)
    : Copies routines arrays (w.withElements n elements) (w'.withElements n elements) := by
  refine ⟨?_, copies.routineIds, ?_⟩
  · simp only [Writer.withElements, copies.file]
  · simp only [Writer.withElements, List.length_modify]
    exact copies.arrayIds

private theorem moreRecords_withRoutine (w : Writer) (busy : List RoutineId) (r : RoutineId)
    (record : RoutineRecord)
    : MoreRecords w ((w.withBusy busy).withRoutine r record) where
  routines _ _ found := getElem?_append_of_some found
  arrays _ _ found := found

/-- The writers are in step while they store the literals of a routine, which itself is entered after
these: its record is the last one, and one record less is to come.
-/
theorem InStep.literals {busy : List RoutineId} {record : RoutineRecord}
    (inStep
      : InStep final routines arrays (limit + 1) w ((w₁.withBusy busy).withRoutine r record) w')
    (distinct : ∀ i j r, routines i = some r → routines j = some r → i = j)
    (entry : routines w₁.file.routines.length = some r')
    : InStep final routines arrays limit (w.withBusy (r :: w.inProgress)) w₁
        (w'.withBusy (r' :: w'.inProgress)) := by
  obtain ⟨counted, part, copies, ahead, -⟩ := inStep.first (moreRecords_withRoutine w₁ busy r record)
  refine ⟨{ counted with }, { part with }, copies.withBusy _ _, ?_, ?_⟩
  · intro q busy m there
    rcases List.mem_cons.mp busy with rfl | before
    · exact Nat.le_of_eq (distinct m _ q there entry).symm
    · exact ahead q before m there
  · have limited := inStep.short
    rw [size_withRoutine] at limited
    exact Nat.lt_of_succ_lt_succ limited

/-- The writers are in step while they store the cells of an array, which itself is entered before
these and filled afterwards: its record is the first one, and one record less is to come.
-/
theorem InStep.cells {elements : Segment}
    (inStep
      : InStep final routines arrays (limit + 1) w (w₁.withElements w.file.arrays.length elements) w')
    (distinct : ∀ i j a, arrays i = some a → arrays j = some a → i = j)
    (new : numberOf w.arrayIds a = none) (entry : arrays w.file.arrays.length = some a')
    (record : ArrayRecord)
    : InStep final routines arrays limit (w.withArray a record) w₁ (w'.withArray a' record) := by
  obtain ⟨counted, part, copies, ahead, limited⟩ := inStep
  refine ⟨counted_withArray counted new, ⟨part.routines, ?_, part.routines_le, ?_⟩,
    copies.withArray distinct entry record, ahead, ?_⟩
  · intro m record beyond found
    simp only [Writer.withArray, List.length_append, List.length_singleton] at beyond
    refine part.arrays m record (Nat.le_of_succ_le beyond) ?_
    rwa [Writer.withElements, List.getElem?_modify_ne _ _ (Nat.ne_of_lt beyond)]
  · have below := part.arrays_le
    rwa [Writer.withElements, List.length_modify] at below
  · rw [size_withElements] at limited
    rw [size_withArray]
    omega

end

/-- What the first numbering gives a number is what was restored for that number by the second. -/
structure Replays (final : ObjectFile) (routines : Nat → Option RoutineId)
    (arrays : Nat → Option ArrayId) (P : Value → Prop) (R : RoutineId → Prop) (limit : Nat)
    (numbering numbering' : Numbering Writer) : Prop where
  routine
    : ∀ w w₁ w' r r' n,
        R r
        → (numbering.routine r).run w = .ok n w₁
        → routines n = some r'
        → InStep final routines arrays limit w w₁ w'
        → ∃ w₁', (numbering'.routine r').run w' = .ok n w₁' ∧ Copies routines arrays w₁ w₁'
  array
    : ∀ w w₁ w' a a' n,
        P (.array a)
        → (numbering.array a).run w = .ok n w₁
        → arrays n = some a'
        → InStep final routines arrays limit w w₁ w'
        → ∃ w₁', (numbering'.array a').run w' = .ok n w₁' ∧ Copies routines arrays w₁ w₁'

-----------------------------------------------------------------------------------------
-- Values
-----------------------------------------------------------------------------------------

/-- How a value is stored that stands for itself depends on nothing else. -/
theorem saveValue_standsAlone {v : Value} (standsAlone : ¬ v.IsHandle)
    : ∃ stored : Except Fault (TagNode × Bytes),
        ∀ (h : Heap) (numbering : Numbering Writer) (w : Writer),
          (saveValue .utf8 h numbering v).run w
            = match stored with
              | .ok out => .ok out w
              | .error fault => .error fault w := by
  cases v with
  | null => exact ⟨.ok _, fun _ _ _ => rfl⟩
  | integer n => exact ⟨.ok _, fun _ _ _ => rfl⟩
  | boolean b => exact ⟨.ok _, fun _ _ _ => rfl⟩
  | float x => exact ⟨.ok _, fun _ _ _ => rfl⟩
  | string s =>
      refine ⟨saveString .utf8 s, fun _ _ _ => ?_⟩
      simp only [saveValue]
      cases saveString .utf8 s <;> rfl
  | callable | array | object => exact absurd trivial standsAlone

section

variable (few : final.routines.length ≤ 0x100000000) (fewArrays : final.arrays.length ≤ 0x100000000)
  (scope : h.Scope P R) (numbers : NumbersOnce numbering)
  (numbers' : NumbersOnce numbering')
  (replays : Replays final routines arrays P R limit numbering numbering')
include few fewArrays scope numbers replays

/-- What was restored for the item of a value is stored like the value. -/
theorem replay_value {v v' : Value} {item : Item} {out : TagNode × Bytes} (among : P v)
    (stores : Stores h numbering w v item w₁)
    (saved : (saveValue .utf8 h numbering v).run w = .ok out w₁)
    (denotes : item.Denotes routines arrays h' v')
    (inStep : InStep final routines arrays limit w w₁ w')
    : ∃ w₁', (saveValue .utf8 h' numbering' v').run w' = .ok out w₁'
      ∧ Copies routines arrays w₁ w₁' := by
  cases stores with
  | plain standsAlone =>
      cases denotes
      obtain ⟨stored, form⟩ := saveValue_standsAlone standsAlone
      rw [form] at saved
      cases stored with
      | error fault => cases saved
      | ok out' =>
          cases saved
          exact ⟨w', by rw [form], inStep.copies⟩
  | @routine _ c r number direct numbered =>
      obtain ⟨c', r', rfl, entry, there⟩ := denotes
      have counted := ((numbers.routine r).of_ok numbered).2 inStep.counted
      have inside := counted.routineIds.lt _ _ (numbers.routineNumber _ _ _ _ numbered)
      have below := inStep.part.routines_le
      rw [UInt32.toNat_ofNat_small (by omega)] at entry
      obtain ⟨w₁', ran, copies⟩ :=
        replays.routine _ _ _ _ _ _ (scope.called _ _ among direct) numbered entry inStep
      simp only [saveValue, direct, EStateM.run_bind, numbered] at saved
      cases saved
      have direct' : h'.callable c' = .direct (.subroutine r') := by
        rw [Heap.callable, there, Option.getD_some]
      refine ⟨w₁', ?_, copies⟩
      simp only [saveValue, direct', EStateM.run_bind, ran]
      rfl
  | @array _ a number numbered =>
      obtain ⟨a', rfl, entry⟩ := denotes
      have counted := ((numbers.array a).of_ok numbered).2 inStep.counted
      have inside := counted.arrayIds.lt _ _ (numbers.arrayNumber _ _ _ _ numbered)
      have below := inStep.part.arrays_le
      rw [UInt32.toNat_ofNat_small (by omega)] at entry
      obtain ⟨w₁', ran, copies⟩ := replays.array _ _ _ _ _ _ among numbered entry inStep
      simp only [saveValue, EStateM.run_bind, numbered] at saved
      cases saved
      refine ⟨w₁', ?_, copies⟩
      simp only [saveValue, EStateM.run_bind, ran]
      rfl

include numbers'

/-- What was restored for the items of values is stored like the values, by induction on these. -/
theorem replay_values {values values' : List Value} {items : List Item}
    {stored : List (TagNode × Bytes)} {rest rest' : Bytes} (among : ∀ v ∈ values, P v)
    (saved : (values.mapM (saveValue .utf8 h numbering)).run w = .ok stored w₁)
    (parsed : Item.parseAll? .utf8 (stored.map (·.1)) (stored.flatMap (·.2) ++ rest)
      = some (items, rest'))
    (denotes : List.Forall₂ (Item.Denotes routines arrays h') items values')
    (inStep : InStep final routines arrays limit w w₁ w')
    : ∃ w₁', (values'.mapM (saveValue .utf8 h' numbering')).run w' = .ok stored w₁'
      ∧ Copies routines arrays w₁ w₁' := by
  induction values generalizing w w' stored items values' with
  | nil =>
      cases saved
      cases parsed
      cases denotes
      exact ⟨w', rfl, inStep.copies⟩
  | cons v values ih =>
      obtain ⟨⟨node, data⟩, w₀, others, first, next, rfl⟩ := run_mapM_cons_eq_ok.mp saved
      obtain ⟨item, stores, form⟩ :=
        stores_of_saveValue (scope.storable v (among v List.mem_cons_self)) first
      simp only [List.map_cons, List.flatMap_cons, List.append_assoc, Item.parseAll?, form,
        Option.map_eq_some_iff, Prod.exists, Prod.mk.injEq] at parsed
      obtain ⟨items, _, parsed, rfl, rfl⟩ := parsed
      obtain ⟨v', values', one, each, rfl⟩ := List.forall₂_cons_left_iff.mp denotes
      obtain ⟨grows, counted⟩ := (adds_saveValue numbers v).of_ok first
      obtain ⟨growsRest, -⟩ := (Adds.mapM (adds_saveValue numbers) values).of_ok next
      obtain ⟨w₀', ran, copies⟩ := replay_value few fewArrays scope numbers replays
        (among v List.mem_cons_self) stores first one (inStep.first growsRest.moreRecords)
      obtain ⟨grows', -⟩ := (adds_saveValue numbers' v').of_ok ran
      obtain ⟨w₁', ranRest, copiesRest⟩ :=
        ih (fun u member => among u (List.mem_cons_of_mem _ member)) next parsed each
          (inStep.next grows.moreRecords (counted inStep.counted) copies grows'.inProgress)
      exact ⟨w₁', run_mapM_cons_eq_ok.mpr ⟨_, w₀', others, ran, ranRest, rfl⟩, copiesRest⟩

/-- What was restored from a segment is stored as that segment. -/
theorem replay_segment {values values' : List Value} {items : List Item} {stored : Segment}
    (among : ∀ v ∈ values, P v) (short : values.length < 0x100000000)
    (ran : (segment .utf8 h numbering values).run w = .ok stored w₁)
    (parsed : stored.items? .utf8 = some items)
    (denotes : List.Forall₂ (Item.Denotes routines arrays h') items values')
    (inStep : InStep final routines arrays limit w w₁ w')
    : ∃ w₁', (segment .utf8 h' numbering' values').run w' = .ok stored w₁'
      ∧ Copies routines arrays w₁ w₁' := by
  obtain ⟨bytes, _, saved, done⟩ := run_bind_eq_ok.mp ran
  cases done
  obtain ⟨nodes, _, savedAll, done⟩ := run_bind_eq_ok.mp saved
  cases done
  have count : (UInt32.ofNat values.length).toNat = values.length :=
    UInt32.toNat_ofNat_small short
  obtain ⟨_, -, length, -⟩ :=
    storesAll_of_mapM (fun v member => scope.storable v (among v member)) savedAll
  have front := nodes?_append (nodes.map (·.1)) (nodes.flatMap (·.2))
  rw [List.length_map, length, List.flatMap_map] at front
  have same := Segment.length_items parsed
  simp only [Segment.items?, count, Item.segment?, front] at parsed
  split at parsed
  · rename_i parsedAll
    cases parsed
    rw [← List.append_nil (nodes.flatMap (·.2))] at parsedAll
    obtain ⟨w₁', ranAll, copies⟩ := replay_values few fewArrays scope numbers numbers' replays among
      savedAll parsedAll denotes inStep
    have length' : values'.length = values.length := by
      rw [← denotes.length_eq, same, count]
    refine ⟨w₁', run_bind_eq_ok.mpr ⟨_, _, run_bind_eq_ok.mpr ⟨_, _, ranAll, rfl⟩, ?_⟩, copies⟩
    rw [length']
    rfl
  · cases parsed

-----------------------------------------------------------------------------------------
-- Routines and arrays
-----------------------------------------------------------------------------------------

variable {config : Config} {loaded : Loaded} {processes : Nat → Option Process}
  (restored : Restoring.Restoration config .utf8 final h' loaded routines arrays processes)
include restored

omit few fewArrays scope numbers numbers' replays restored in
/-- The record of a routine that was compiled from a record is that record. -/
theorem routineRecord_compile {r : Routine} {literals : Segment} {code : Array Instruction}
    (values : List Value)
    (bytes : (routineRecord r literals).code = code.toList.flatMap Instruction.toBytes)
    : routineRecord ((routineRecord r literals).compile code values) literals
      = routineRecord r literals := by
  have procedure : ((routineRecord r literals).compile code values).isProcedure = r.isProcedure :=
    flags_procedure r
  have varargs : ((routineRecord r literals).compile code values).isVarargs = r.isVarargs :=
    flags_varargs r
  have sameFlags : flags ((routineRecord r literals).compile code values) = flags r := by
    rw [flags, flags, procedure, varargs]
  have back : Function.LeftInverse
      (fun mark : Nat × Nat => (UInt32.ofNat mark.1, UInt32.ofNat mark.2))
      (fun mark : UInt32 × UInt32 => (mark.1.toNat, mark.2.toNat)) :=
    fun mark => Prod.ext UInt32.ofNat_toNat UInt32.ofNat_toNat
  have lines := back.list_map (routineRecord r literals).lines
  rw [routineRecord, sameFlags, RoutineRecord.compile]
  simp only [UInt16.ofNat_toNat, ← bytes]
  rw [lines]
  rfl

/-- What was restored for a routine is stored like the routine. -/
theorem replay_routine {r : RoutineId} {r' : RoutineId} {n : Nat} (among : R r)
    (ran : (routine .utf8 h numbering r).run w = .ok n w₁) (entry : routines n = some r')
    (inStep : InStep final routines arrays (limit + 1) w w₁ w')
    : ∃ w₁', (routine .utf8 h' numbering' r').run w' = .ok n w₁' ∧ Copies routines arrays w₁ w₁' := by
  cases known : numberOf w.routineIds r with
  | some m =>
      rw [run_routine_known known] at ran
      cases ran
      have inside := inStep.counted.routineIds.lt r n known
      exact ⟨w', run_routine_known ((inStep.copies.routineIds r' n).mpr ⟨inside, entry⟩),
        inStep.copies⟩
  | none =>
      obtain ⟨idle, literals, w₀, stored, rfl, rfl⟩ := routine_eq_ok known ran
      obtain ⟨short, amongLiterals⟩ := scope.literals r among
      have grows := (after_literals numbers known _ w₀ (by rw [stored]; rfl)).1
      have more := grows.moreRecords.routines_le
      obtain ⟨record, there, code, items, values, bytes, parsed, compiled, each⟩ :=
        restored.routine _ _ entry
      -- the record of the number is the one that was entered
      have last : final.routines[w₀.file.routines.length]?
          = some (routineRecord (h.routine r) literals) :=
        inStep.part.routines _ _ more (by simp [withRoutine, withBusy])
      rw [last] at there
      cases there
      have new : numberOf w'.routineIds r' = none :=
        inStep.copies.routineIds.none restored.distinctRoutines entry more
      have idle' : r' ∉ w'.inProgress := by
        intro busy
        have later := inStep.ahead r' busy _ entry
        simp only [withRoutine, withBusy, List.length_append, List.length_singleton] at later
        omega
      obtain ⟨w₀', ran', copies⟩ := replay_segment few fewArrays scope numbers numbers' replays
        amongLiterals (by rwa [Array.length_toList]) stored parsed each
        (inStep.literals restored.distinctRoutines entry)
      have routine' : h'.routine r' = (routineRecord (h.routine r) literals).compile code values := by
        rw [Heap.routine, compiled, Option.getD_some]
      have literals' : (h'.routine r').literals.toList = values := by
        rw [routine']
        rfl
      have record' : routineRecord (h'.routine r') literals = routineRecord (h.routine r) literals := by
        rw [routine', routineRecord_compile values bytes]
      have number : w₀'.file.routines.length = w₀.file.routines.length := by rw [copies.file]
      have copies := copies.withBusy (w₀.inProgress.erase r) (w₀'.inProgress.erase r')
      refine ⟨_, ?_, copies.withRoutine restored.distinctRoutines entry _⟩
      rw [run_routine_new new idle', literals', ran', ← number, ← record']

/-- What was restored for an array is stored like the array. -/
theorem replay_array {a a' : ArrayId} {n : Nat} (among : P (.array a))
    (ran : (array .utf8 h numbering a).run w = .ok n w₁) (entry : arrays n = some a')
    (inStep : InStep final routines arrays (limit + 1) w w₁ w')
    : ∃ w₁', (array .utf8 h' numbering' a').run w' = .ok n w₁' ∧ Copies routines arrays w₁ w₁' := by
  cases known : numberOf w.arrayIds a with
  | some m =>
      rw [run_array_known known] at ran
      cases ran
      have inside := inStep.counted.arrayIds.lt a n known
      exact ⟨w', run_array_known ((inStep.copies.arrayIds a' n).mpr ⟨inside, entry⟩),
        inStep.copies⟩
  | none =>
      obtain ⟨elements, w₀, stored, rfl, rfl⟩ := array_eq_ok known ran
      obtain ⟨short, amongCells⟩ := scope.cells a among
      obtain ⟨grows, -⟩ := (adds_segment numbers _).of_ok stored
      have first := grows.arrays w.file.arrays.length _ (by simp [withArray]; rfl)
      obtain ⟨record, there, items, values, parsed, filled, each⟩ := restored.array _ _ entry
      -- the record of the number is the one that was entered and filled
      have last : final.arrays[w.file.arrays.length]?
          = some ⟨(h.grid a).dims.map UInt32.ofNat, elements⟩ := by
        refine inStep.part.arrays _ _ (Nat.le_refl _) ?_
        rw [withElements, List.getElem?_modify_eq, first]
        rfl
      rw [last] at there
      cases there
      have new : numberOf w'.arrayIds a' = none :=
        inStep.copies.arrayIds.none restored.distinctArrays entry (Nat.le_refl _)
      have grid' : h'.grid a'
          = ⟨((h.grid a).dims.map UInt32.ofNat).map UInt32.toNat, values.toArray⟩ := by
        rw [Heap.grid, filled, Option.getD_some]
      have dims' : (h'.grid a').dims.map UInt32.ofNat = (h.grid a).dims.map UInt32.ofNat := by
        rw [grid', List.map_map, List.map_map]
        exact List.map_congr_left fun d _ => UInt32.ofNat_toNat
      have cells' : (h'.grid a').cells.toList = values := by rw [grid']
      have sizes : w'.file.arrays.length = w.file.arrays.length := by rw [inStep.copies.file]
      obtain ⟨w₀', ran', copies⟩ := replay_segment few fewArrays scope numbers numbers' replays
        amongCells (by rwa [Array.length_toList]) stored parsed each
        (inStep.cells restored.distinctArrays known entry _)
      refine ⟨w₀'.withElements w.file.arrays.length elements, ?_, copies.withElements _ _⟩
      rw [run_array_new new, cells', dims', ran', sizes]

end

section

variable (few : final.routines.length ≤ 0x100000000) (fewArrays : final.arrays.length ≤ 0x100000000)
  (scope : h.Scope P R)
  {config : Config} {loaded : Loaded} {processes : Nat → Option Process}
  (restored : Restoring.Restoration config .utf8 final h' loaded routines arrays processes)
include few fewArrays scope restored

/-- Numberings replay each other as far as their depths go, by induction on the first depth. -/
theorem replays_numberingTo (depth limit : Nat)
    : Replays final routines arrays P R limit (numberingTo .utf8 h depth)
        (numberingTo .utf8 h' limit) := by
  induction depth generalizing limit with
  | zero =>
      constructor
      · intro w w₁ w' r r' n _ ran
        cases ran
      · intro w w₁ w' a a' n _ ran
        cases ran
  | succ depth ih =>
      have numbers := numbersOnce_numberingTo .utf8 h depth
      cases limit with
      | zero =>
          -- the first writer cannot get fewer records than it has
          have impossible {w w₁ w' : Writer} (inStep : InStep final routines arrays 0 w w₁ w')
              (grows : Grows w w₁)
              : False := by
            have short := inStep.short
            have routines_le := grows.moreRecords.routines_le
            have arrays_le := grows.moreRecords.arrays_le
            simp only [size] at short
            omega
          constructor
          · intro w w₁ w' r r' n _ ran _ inStep
            exact (impossible inStep ((adds_routine numbers r).of_ok ran).1).elim
          · intro w w₁ w' a a' n _ ran _ inStep
            exact (impossible inStep ((adds_array numbers a).of_ok ran).1).elim
      | succ limit =>
          have numbers' := numbersOnce_numberingTo .utf8 h' limit
          constructor
          · intro w w₁ w' r r' n among ran entry inStep
            exact replay_routine few fewArrays scope numbers numbers' (ih limit) restored among ran
              entry inStep
          · intro w w₁ w' a a' n among ran entry inStep
            exact replay_array few fewArrays scope numbers numbers' (ih limit) restored among ran
              entry inStep

-----------------------------------------------------------------------------------------
-- Processes
-----------------------------------------------------------------------------------------

/-- Numbering the loaded file takes the way that the numbering before took. -/
theorem replays_numbering
    : Replays final routines arrays P R (h'.routines.size + h'.arrays.size + 2)
        (Writer.numbering .utf8 h) (Writer.numbering .utf8 h') :=
  replays_numberingTo few fewArrays scope restored _ _

/-- What was restored from the record of a call is stored as that record. -/
theorem replay_frame {f f' : Frame} {record : FrameRecord} (among : FrameIn P R f)
    (ran : (frameRecord .utf8 h f).run w = .ok record w₁)
    (denotes : Restoring.FrameDenotes .utf8 routines arrays h' record f')
    (inStep : InStep final routines arrays (h'.routines.size + h'.arrays.size + 2) w w₁ w')
    : ∃ w₁', (frameRecord .utf8 h' f').run w' = .ok record w₁' ∧ Copies routines arrays w₁ w₁' := by
  have replays := replays_numbering few fewArrays scope restored
  have numbers := numbersOnce .utf8 h
  have numbers' := numbersOnce .utf8 h'
  obtain ⟨called, short, amongLocals⟩ := among
  obtain ⟨number, w₀, numbered, ran⟩ := run_bind_eq_ok.mp ran
  obtain ⟨locals, _, stored, ran⟩ := run_bind_eq_ok.mp ran
  cases ran
  obtain ⟨r', items, values, entry, parsed, each, rfl⟩ := denotes
  obtain ⟨grows, counted⟩ := (numbers.routine _).of_ok numbered
  obtain ⟨growsLocals, -⟩ := (adds_segment numbers _).of_ok stored
  have first := inStep.first growsLocals.moreRecords
  have inside := (counted inStep.counted).routineIds.lt _ _ (numbers.routineNumber _ _ _ _ numbered)
  have below := first.part.routines_le
  rw [UInt32.toNat_ofNat_small (by omega)] at entry
  obtain ⟨w₀', ranRoutine, copies⟩ := replays.routine _ _ _ _ _ _ called numbered entry first
  obtain ⟨grows', -⟩ := (numbers'.routine _).of_ok ranRoutine
  obtain ⟨w₁', ranLocals, copiesAll⟩ := replay_segment few fewArrays scope numbers numbers' replays
    amongLocals (by rwa [Array.length_toList]) stored parsed each
    (inStep.next grows.moreRecords (counted inStep.counted) copies grows'.inProgress)
  refine ⟨w₁', run_bind_eq_ok.mpr ⟨_, _, ranRoutine, run_bind_eq_ok.mpr ⟨_, _, ranLocals, ?_⟩⟩,
    copiesAll⟩
  have back : Function.LeftInverse
      (fun handler : Handler => (UInt32.ofNat handler.target, UInt32.ofNat handler.stackDepth))
      (fun handler : UInt32 × UInt32 => (⟨handler.1.toNat, handler.2.toNat⟩ : Handler)) :=
    fun handler => Prod.ext UInt32.ofNat_toNat UInt32.ofNat_toNat
  simp only [FrameRecord.restore, List.reverse_reverse, UInt32.ofNat_toNat]
  rw [back.list_map]
  rfl

/-- Calls are stored one after another, by induction on the calls. -/
theorem replay_frames {fs fs' : List Frame} {records : List FrameRecord}
    (among : ∀ f ∈ fs, FrameIn P R f)
    (ran : (fs.mapM (frameRecord .utf8 h)).run w = .ok records w₁)
    (denotes : List.Forall₂ (Restoring.FrameDenotes .utf8 routines arrays h') records fs')
    (inStep : InStep final routines arrays (h'.routines.size + h'.arrays.size + 2) w w₁ w')
    : ∃ w₁', (fs'.mapM (frameRecord .utf8 h')).run w' = .ok records w₁'
      ∧ Copies routines arrays w₁ w₁' := by
  induction fs generalizing w w' records fs' with
  | nil =>
      cases ran
      cases denotes
      exact ⟨w', rfl, inStep.copies⟩
  | cons f fs ih =>
      obtain ⟨record, w₀, others, first, next, rfl⟩ := run_mapM_cons_eq_ok.mp ran
      obtain ⟨f', fs', one, each, rfl⟩ := List.forall₂_cons_left_iff.mp denotes
      obtain ⟨grows, counted⟩ := (adds_frameRecord f).of_ok first
      obtain ⟨growsRest, -⟩ := (Adds.mapM adds_frameRecord fs).of_ok next
      obtain ⟨w₀', ranFirst, copies⟩ := replay_frame few fewArrays scope restored
        (among f List.mem_cons_self) first one (inStep.first growsRest.moreRecords)
      obtain ⟨grows', -⟩ := (adds_frameRecord f').of_ok ranFirst
      obtain ⟨w₁', ranRest, copiesRest⟩ :=
        ih (fun g member => among g (List.mem_cons_of_mem _ member)) next each
          (inStep.next grows.moreRecords (counted inStep.counted) copies grows'.inProgress)
      exact ⟨w₁', run_mapM_cons_eq_ok.mpr ⟨record, w₀', others, ranFirst, ranRest, rfl⟩, copiesRest⟩

/-- What was restored from the record of a process is stored as that record. -/
theorem replay_process {p p' : Process} {record : ProcessRecord} (among : ProcessIn P R p)
    (keyed : p.Keyed) (ran : (processRecord .utf8 h p).run w = .ok record w₁)
    (denotes : Restoring.ProcessDenotes config .utf8 routines arrays h' record p')
    (inStep : InStep final routines arrays (h'.routines.size + h'.arrays.size + 2) w w₁ w')
    : ∃ w₁', (processRecord .utf8 h' p').run w' = .ok record w₁'
      ∧ Copies routines arrays w₁ w₁' := by
  have replays := replays_numbering few fewArrays scope restored
  have numbers := numbersOnce .utf8 h
  have numbers' := numbersOnce .utf8 h'
  obtain ⟨short, amongStack⟩ := among.stack
  cases storable : isStorable p with
  | false =>
      simp only [processRecord, storable, Bool.not_false, if_true] at ran
      cases ran
  | true =>
      simp only [processRecord, storable, Bool.not_true, Bool.false_eq_true, if_false] at ran
      obtain ⟨stack, w₀, stored, ran⟩ := run_bind_eq_ok.mp ran
      obtain ⟨frames, _, storedFrames, ran⟩ := run_bind_eq_ok.mp ran
      cases ran
      obtain ⟨rest, ⟨items, parsed, each⟩, calls⟩ := denotes
      obtain ⟨grows, counted⟩ := (adds_segment numbers _).of_ok stored
      obtain ⟨growsFrames, -⟩ := (Adds.mapM adds_frameRecord _).of_ok storedFrames
      obtain ⟨w₀', ranStack, copies⟩ := replay_segment few fewArrays scope numbers numbers' replays
        (fun v member => amongStack v (List.mem_reverse.mp member)) (by rwa [List.length_reverse])
        stored parsed each (inStep.first growsFrames.moreRecords)
      obtain ⟨grows', -⟩ := (adds_segment numbers' _).of_ok ranStack
      obtain ⟨w₁', ranFrames, copiesAll⟩ := replay_frames few fewArrays scope restored
        (fun f member => among.frames f (List.mem_reverse.mp member)) storedFrames calls
        (inStep.next grows.moreRecords (counted inStep.counted) copies grows'.inProgress)
      have storable' : isStorable p' = true := by
        rw [rest]
        simp only [isStorable, Bool.and_eq_true] at storable
        simp only [isStorable, storable.1]
        rfl
      refine ⟨w₁', ?_, copiesAll⟩
      simp only [processRecord, storable', Bool.not_true, Bool.false_eq_true, if_false]
      refine run_bind_eq_ok.mpr ⟨_, _, ranStack, run_bind_eq_ok.mpr ⟨_, _, ranFrames, ?_⟩⟩
      rw [rest]
      simp only [keyed.waitingFor_eq]
      rfl

end

end TaskMachine.Writer

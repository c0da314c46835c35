import TaskMachine.ObjectFile.Writer
import TaskMachine.Proofs.Codec.Storing
import TaskMachine.Proofs.ObjectFile.Records

/-!
What a writer holds while it stores values. The records are numbered one to one, every routine is
complete and refers to earlier ones only, and every array is complete unless its elements are being
stored right now. Storing more adds numbers and records, and changes none.
-/

namespace TaskMachine

-----------------------------------------------------------------------------------------
-- Numbers
-----------------------------------------------------------------------------------------

section

variable {α : Type} [DecidableEq α]

/-- The number in a list of numbers. -/
def numberOf (ids : List (α × Nat)) (a : α) : Option Nat :=
  (ids.find? (·.1 == a)).map (·.2)

theorem numberOf_cons (ids : List (α × Nat)) (a b : α) (n : Nat)
    : numberOf ((a, n) :: ids) b = if a = b then some n else numberOf ids b := by
  by_cases same : a = b
  · simp [numberOf, same]
  · have different : (a == b) = false := beq_eq_false_iff_ne.mpr same
    simp [numberOf, same, different]

/-- The records up to a number are numbered one to one. -/
structure Numbered (number : α → Option Nat) (size : Nat) : Prop where
  lt : ∀ a n, number a = some n → n < size
  once : ∀ a b n, number a = some n → number b = some n → a = b
  all : ∀ n, n < size → ∃ a, number a = some n

/-- What has no number yet can get the next one. -/
theorem Numbered.enter {ids : List (α × Nat)} {size : Nat} (numbered : Numbered (numberOf ids) size)
    {a : α} (new : numberOf ids a = none)
    : Numbered (numberOf ((a, size) :: ids)) (size + 1) := by
  have cases_ (b n) (found : numberOf ((a, size) :: ids) b = some n)
      : (b = a ∧ n = size) ∨ numberOf ids b = some n := by
    rw [numberOf_cons] at found
    split at found
    · rename_i same
      exact .inl ⟨same.symm, (Option.some.inj found).symm⟩
    · exact .inr found
  refine ⟨?_, ?_, ?_⟩
  · intro b n found
    rcases cases_ b n found with ⟨-, rfl⟩ | before
    · exact Nat.lt_succ_self _
    · exact Nat.lt_succ_of_lt (numbered.lt b n before)
  · intro b c n first second
    rcases cases_ b n first with ⟨rfl, rfl⟩ | before
    · rcases cases_ c n second with ⟨rfl, -⟩ | before'
      · rfl
      · exact absurd (numbered.lt c n before') (Nat.lt_irrefl _)
    · rcases cases_ c n second with ⟨rfl, rfl⟩ | before'
      · exact absurd (numbered.lt b n before) (Nat.lt_irrefl _)
      · exact numbered.once b c n before before'
  · intro n inside
    rcases Nat.lt_succ_iff_lt_or_eq.mp inside with before | rfl
    · obtain ⟨b, found⟩ := numbered.all n before
      refine ⟨b, ?_⟩
      rw [numberOf_cons, if_neg, found]
      intro same
      subst same
      rw [new] at found
      cases found
    · exact ⟨a, by rw [numberOf_cons, if_pos rfl]⟩

end

/-- The value is stored as the item when routines and arrays have the given numbers. -/
inductive Coded (routines : RoutineId → Option Nat) (arrays : ArrayId → Option Nat) (h : Heap)
    : Value → Item → Prop
  | plain {v : Value} (standsAlone : ¬ v.IsHandle)
    : Coded routines arrays h v (.plain v)
  | routine {c : CallableId} {r : RoutineId} {number : Nat}
    (direct : h.callable c = .direct (.subroutine r)) (numbered : routines r = some number)
    : Coded routines arrays h (.callable c) (.routine (UInt32.ofNat number).toNat)
  | array {a : ArrayId} {number : Nat} (numbered : arrays a = some number)
    : Coded routines arrays h (.array a) (.array (UInt32.ofNat number).toNat)

/-- The segment holds the items of the values. -/
def Segment.Codes (routines : RoutineId → Option Nat) (arrays : ArrayId → Option Nat) (h : Heap)
    (segment : Segment) (values : List Value) : Prop :=
  ∃ items, segment.items? .utf8 = some items ∧ List.Forall₂ (Coded routines arrays h) values items

section

variable {routines routines' : RoutineId → Option Nat} {arrays arrays' : ArrayId → Option Nat}
  {h : Heap}

/-- A value stays coded when more is numbered. -/
theorem Coded.mono {v : Value} {item : Item} (coded : Coded routines arrays h v item)
    (moreRoutines : ∀ r n, routines r = some n → routines' r = some n)
    (moreArrays : ∀ a n, arrays a = some n → arrays' a = some n)
    : Coded routines' arrays' h v item := by
  cases coded with
  | plain standsAlone => exact .plain standsAlone
  | routine direct numbered => exact .routine direct (moreRoutines _ _ numbered)
  | array numbered => exact .array (moreArrays _ _ numbered)

/-- A segment stays the code of its values when more is numbered. -/
theorem Segment.Codes.mono {segment : Segment} {values : List Value}
    (codes : segment.Codes routines arrays h values)
    (moreRoutines : ∀ r n, routines r = some n → routines' r = some n)
    (moreArrays : ∀ a n, arrays a = some n → arrays' a = some n)
    : segment.Codes routines' arrays' h values := by
  obtain ⟨items, parsed, each⟩ := codes
  exact ⟨items, parsed, each.imp fun _ _ coded => coded.mono moreRoutines moreArrays⟩

/-- Numbers below a bound are stored as numbers below it. -/
theorem toNat_ofNat_le (n : Nat) : (UInt32.ofNat n).toNat ≤ n := by
  rw [UInt32.toNat_ofNat']
  exact Nat.mod_le _ _

/-- A segment refers to numbered records only. -/
theorem Segment.Codes.wellMade {segment : Segment} {values : List Value} {sizeRoutines sizeArrays : Nat}
    (codes : segment.Codes routines arrays h values)
    (routinesBelow : ∀ r n, routines r = some n → n < sizeRoutines)
    (arraysBelow : ∀ a n, arrays a = some n → n < sizeArrays)
    : segment.WellMade .utf8 sizeRoutines sizeArrays := by
  obtain ⟨items, parsed, each⟩ := codes
  refine ⟨items, parsed, fun item member => ?_⟩
  obtain ⟨v, -, coded⟩ := exists_of_mem_right each item member
  cases coded with
  | plain => trivial
  | routine direct numbered =>
      exact Nat.lt_of_le_of_lt (toNat_ofNat_le _) (routinesBelow _ _ numbered)
  | array numbered => exact Nat.lt_of_le_of_lt (toNat_ofNat_le _) (arraysBelow _ _ numbered)

end

namespace Writer

-----------------------------------------------------------------------------------------
-- The records of a writer
-----------------------------------------------------------------------------------------

variable {h : Heap} {P : Value → Prop} {R : RoutineId → Prop} {pending : List Nat}
  {w w' w'' : Writer}

/-- The record with the number is that of the routine, and refers to earlier routines only. -/
def RoutineStored (h : Heap) (w : Writer) (r : RoutineId) (n : Nat) : Prop :=
  ∃ literals, w.file.routines[n]? = some (routineRecord (h.routine r) literals)
    ∧ literals.Codes (numberOf w.routineIds) (numberOf w.arrayIds) h (h.routine r).literals.toList
    ∧ literals.WellMade .utf8 n w.file.arrays.length

/-- The record with the number is that of the array, with its elements unless those are pending. -/
def ArrayStored (h : Heap) (pending : List Nat) (w : Writer) (a : ArrayId) (n : Nat) : Prop :=
  ∃ elements, w.file.arrays[n]? = some ⟨(h.grid a).dims.map UInt32.ofNat, elements⟩
    ∧ (n ∉ pending → elements.Codes (numberOf w.routineIds) (numberOf w.arrayIds) h
        (h.grid a).cells.toList)

/-- The records of a writer are numbered one to one and belong to the routines and arrays that have
their numbers. The elements of some arrays may be pending.
-/
structure Sound (h : Heap) (P : Value → Prop) (R : RoutineId → Prop) (pending : List Nat)
    (w : Writer) : Prop where
  routineIds : Numbered (numberOf w.routineIds) w.file.routines.length
  arrayIds : Numbered (numberOf w.arrayIds) w.file.arrays.length
  routine : ∀ r n, numberOf w.routineIds r = some n → R r ∧ RoutineStored h w r n
  array : ∀ a n, numberOf w.arrayIds a = some n → P (.array a) ∧ ArrayStored h pending w a n

/-- What has a number keeps it. -/
structure MoreNumbers (w w' : Writer) : Prop where
  routineIds : ∀ r n, numberOf w.routineIds r = some n → numberOf w'.routineIds r = some n
  arrayIds : ∀ a n, numberOf w.arrayIds a = some n → numberOf w'.arrayIds a = some n

theorem MoreNumbers.trans (first : MoreNumbers w w') (next : MoreNumbers w' w'')
    : MoreNumbers w w'' where
  routineIds r n found := next.routineIds r n (first.routineIds r n found)
  arrayIds a n found := next.arrayIds a n (first.arrayIds a n found)

/-- Numbers and records have been added. Routines whose literals are being stored have got none. -/
structure Grows (w w' : Writer) : Prop extends MoreNumbers w w' where
  routines
    : ∀ (n : Nat) record,
        w.file.routines[n]? = some record
        → w'.file.routines[n]? = some record
  arrays : ∀ (n : Nat) record, w.file.arrays[n]? = some record → w'.file.arrays[n]? = some record
  processes : w'.file.processes = w.file.processes
  inProgress : w'.inProgress = w.inProgress
  kept : ∀ r ∈ w.inProgress, numberOf w'.routineIds r = numberOf w.routineIds r

theorem Grows.refl (w : Writer) : Grows w w :=
  ⟨⟨fun _ _ same => same, fun _ _ same => same⟩, fun _ _ same => same, fun _ _ same => same, rfl,
    rfl, fun _ _ => rfl⟩

theorem Grows.trans (first : Grows w w') (next : Grows w' w'') : Grows w w'' where
  toMoreNumbers := first.toMoreNumbers.trans next.toMoreNumbers
  routines n record found := next.routines n record (first.routines n record found)
  arrays n record found := next.arrays n record (first.arrays n record found)
  processes := next.processes.trans first.processes
  inProgress := next.inProgress.trans first.inProgress
  kept r member := by
    rw [next.kept r (by rwa [first.inProgress]), first.kept r member]

theorem Grows.arrays_le (grows : Grows w w') : w.file.arrays.length ≤ w'.file.arrays.length := by
  by_contra fewer
  have present := List.getElem?_eq_getElem (Nat.lt_of_not_le fewer)
  have still := grows.arrays _ _ present
  rw [List.getElem?_eq_none (Nat.le_refl _)] at still
  cases still

/-- The record of a routine stays in a file that grows. -/
theorem RoutineStored.mono {r : RoutineId} {n : Nat} (stored : RoutineStored h w r n)
    (grows : Grows w w')
    : RoutineStored h w' r n := by
  obtain ⟨literals, found, codes, made⟩ := stored
  exact ⟨literals, grows.routines _ _ found, codes.mono grows.routineIds grows.arrayIds,
    made.mono (Nat.le_refl _) grows.arrays_le⟩

/-- The record of an array stays in a file that grows, and so do its elements unless they are pending.
-/
theorem ArrayStored.mono {a : ArrayId} {n : Nat} (stored : ArrayStored h pending w a n)
    (grows : Grows w w')
    : ArrayStored h pending w' a n := by
  obtain ⟨elements, found, codes⟩ := stored
  exact ⟨elements, grows.arrays _ _ found,
    fun complete => (codes complete).mono grows.routineIds grows.arrayIds⟩

-----------------------------------------------------------------------------------------
-- Entering records
-----------------------------------------------------------------------------------------

/-- The writer with one more routine. -/
def withRoutine (w : Writer) (r : RoutineId) (record : RoutineRecord) : Writer :=
  { w with
    file := { w.file with routines := w.file.routines ++ [record] }
    routineIds := (r, w.file.routines.length) :: w.routineIds }

/-- The writer with one more array. -/
def withArray (w : Writer) (a : ArrayId) (record : ArrayRecord) : Writer :=
  { w with
    file := { w.file with arrays := w.file.arrays ++ [record] }
    arrayIds := (a, w.file.arrays.length) :: w.arrayIds }

/-- The writer with the elements of an array. -/
def withElements (w : Writer) (n : Nat) (elements : Segment) : Writer :=
  { w with file := { w.file with
      arrays := w.file.arrays.modify n fun record => { record with elements } } }

/-- A record may be added for a routine that has no number yet and is not in progress. -/
theorem grows_withRoutine {r : RoutineId} (record : RoutineRecord)
    (new : numberOf w.routineIds r = none) (idle : r ∉ w.inProgress)
    : Grows w (w.withRoutine r record) where
  routineIds q n found := by
    rw [withRoutine, numberOf_cons, if_neg, found]
    intro same
    subst same
    rw [new] at found
    cases found
  arrayIds a n found := found
  routines n record found := getElem?_append_of_some found
  arrays n record found := found
  processes := rfl
  inProgress := rfl
  kept q busy := by
    rw [withRoutine, numberOf_cons, if_neg]
    intro same
    subst same
    exact idle busy

theorem grows_withArray {a : ArrayId} (record : ArrayRecord) (new : numberOf w.arrayIds a = none)
    : Grows w (w.withArray a record) where
  routineIds q n found := found
  arrayIds b n found := by
    rw [withArray, numberOf_cons, if_neg, found]
    intro same
    subst same
    rw [new] at found
    cases found
  routines n record found := found
  arrays n record found := getElem?_append_of_some found
  processes := rfl
  inProgress := rfl
  kept q busy := rfl

/-- A routine that has no number is entered with its literals. -/
theorem Sound.withRoutine (sound : Sound h P R pending w) {r : RoutineId} {literals : Segment}
    (new : numberOf w.routineIds r = none) (idle : r ∉ w.inProgress) (among : R r)
    (codes : literals.Codes (numberOf w.routineIds) (numberOf w.arrayIds) h
      (h.routine r).literals.toList)
    : Sound h P R pending (w.withRoutine r (routineRecord (h.routine r) literals)) := by
  have grows := grows_withRoutine (routineRecord (h.routine r) literals) new idle
  refine ⟨?_, sound.arrayIds, ?_, ?_⟩
  · simp only [Writer.withRoutine, List.length_append, List.length_singleton]
    exact sound.routineIds.enter new
  · intro q n found
    have found' := found
    rw [Writer.withRoutine, numberOf_cons] at found'
    split at found'
    · rename_i same
      cases found'
      subst same
      refine ⟨among, literals, ?_, codes.mono grows.routineIds grows.arrayIds, ?_⟩
      · simp [Writer.withRoutine]
      · exact codes.wellMade sound.routineIds.lt sound.arrayIds.lt
    · obtain ⟨known, stored⟩ := sound.routine q n found'
      exact ⟨known, stored.mono grows⟩
  · intro a n found
    obtain ⟨known, stored⟩ := sound.array a n found
    exact ⟨known, stored.mono grows⟩

/-- An array that has no number is entered with its elements pending. -/
theorem Sound.withArray (sound : Sound h P R pending w) {a : ArrayId}
    (new : numberOf w.arrayIds a = none) (among : P (.array a)) (elements : Segment)
    : Sound h P R (w.file.arrays.length :: pending)
        (w.withArray a ⟨(h.grid a).dims.map UInt32.ofNat, elements⟩) := by
  have grows := grows_withArray ⟨(h.grid a).dims.map UInt32.ofNat, elements⟩ new
  refine ⟨sound.routineIds, ?_, ?_, ?_⟩
  · simp only [Writer.withArray, List.length_append, List.length_singleton]
    exact sound.arrayIds.enter new
  · intro q n found
    obtain ⟨known, stored⟩ := sound.routine q n found
    exact ⟨known, stored.mono grows⟩
  · intro b n found
    have found' := found
    rw [Writer.withArray, numberOf_cons] at found'
    split at found'
    · rename_i same
      cases found'
      subst same
      refine ⟨among, elements, by simp [Writer.withArray], ?_⟩
      intro complete
      exact absurd List.mem_cons_self complete
    · obtain ⟨known, elements', there, codes⟩ := (sound.array b n found').imp id (·.mono grows)
      exact ⟨known, elements', there, fun complete => codes (List.not_mem_of_not_mem_cons complete)⟩

/-- A pending array is completed. -/
theorem Sound.withElements {n : Nat} (sound : Sound h P R (n :: pending) w) {a : ArrayId}
    (numbered : numberOf w.arrayIds a = some n) {elements : Segment}
    (codes : elements.Codes (numberOf w.routineIds) (numberOf w.arrayIds) h
      (h.grid a).cells.toList)
    : Sound h P R pending (w.withElements n elements) := by
  have length : (w.withElements n elements).file.arrays.length = w.file.arrays.length := by
    simp [Writer.withElements]
  refine ⟨sound.routineIds, ?_, ?_, ?_⟩
  · rw [length]
    exact sound.arrayIds
  · intro q m found
    obtain ⟨known, literals, there, codesLiterals, made⟩ := sound.routine q m found
    exact ⟨known, literals, there, codesLiterals, by rwa [length]⟩
  · intro b m found
    obtain ⟨known, elements', there, codes'⟩ := sound.array b m found
    refine ⟨known, ?_⟩
    by_cases here : n = m
    · subst here
      have same := sound.arrayIds.once a b n numbered found
      subst same
      refine ⟨elements, ?_, fun _ => codes⟩
      simp only [Writer.withElements, List.getElem?_modify_eq, there]
      rfl
    · refine ⟨elements', ?_, fun complete => codes' ?_⟩
      · rw [Writer.withElements, List.getElem?_modify_ne _ _ here, there]
      · intro member
        rcases List.mem_cons.mp member with rfl | later
        · exact here rfl
        · exact complete later

end Writer
end TaskMachine

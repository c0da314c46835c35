import Mathlib.Data.List.Perm.Subperm
import TaskMachine.Proofs.ObjectFile.Passes

/-!
Skipping what refers to skipped records. Every round that skips something lists one record more, and
there are only so many, so the rounds end with one that finds nothing to skip; then whatever is left
refers to records that are left.
-/

namespace TaskMachine.Restoring

variable {α : Type} {charset : Charset} {file : ObjectFile} {before s : Restored}

/-- Nothing is missing if each number has its record. -/
theorem firstMissing_eq_none {table : Array (Option α)} {numbers : List Nat}
    : firstMissing table numbers = none ↔ ∀ n ∈ numbers, (table[n]?.join).isSome := by
  rw [firstMissing, List.min?_eq_none_iff, List.filter_eq_nil_iff]
  simp [Option.isSome_iff_ne_none]

/-- Nothing is missing from the references of items if all of them are resolved. -/
theorem missing_referencesOf {items : List Item}
    : missing s (referencesOf items) = none
      ↔ ∀ item ∈ items, item.Resolved s.routineAt s.arrayAt := by
  have split : missing s (referencesOf items) = none
      ↔ firstMissing s.arrays (referencesOf items).arrays = none
        ∧ firstMissing s.routines (referencesOf items).routines = none := by
    unfold missing
    cases firstMissing s.arrays (referencesOf items).arrays <;>
      cases firstMissing s.routines (referencesOf items).routines <;> simp
  rw [split, firstMissing_eq_none, firstMissing_eq_none]
  simp only [mem_referencesOf_routines, mem_referencesOf_arrays]
  constructor
  · intro found item member
    cases item with
    | plain v => trivial
    | routine number => exact found.2 number member
    | array number => exact found.1 number member
  · intro resolved
    exact ⟨fun n member => resolved _ member, fun n member => resolved _ member⟩

/-- A routine that is there is dropped if something is missing from its references. -/
theorem dropRoutine_cases (i : Nat) (references : References) (s : Restored)
    : (((s.routineAt i).isSome → missing s references = none)
        ∧ (dropRoutine i references).run s = .ok () s)
      ∨ ((s.routineAt i).isSome ∧ ∃ reason, missing s references = some reason
        ∧ (dropRoutine i references).run s
          = .ok () { withSkipped s .routine i reason with
              routines := s.routines.setIfInBounds i none }) := by
  simp only [dropRoutine, EStateM.run_bind, EStateM.run_get, Restored.routineAt]
  cases s.routines[i]?.join with
  | none => exact .inl ⟨by simp, rfl⟩
  | some r =>
      cases missing s references with
      | none => exact .inl ⟨by simp, rfl⟩
      | some reason => exact .inr ⟨rfl, reason, rfl, rfl⟩

/-- An array that is there is dropped if something is missing from its references. -/
theorem dropArray_cases (i : Nat) (references : References) (s : Restored)
    : (((s.arrayAt i).isSome → missing s references = none)
        ∧ (dropArray i references).run s = .ok () s)
      ∨ ((s.arrayAt i).isSome ∧ ∃ reason, missing s references = some reason
        ∧ (dropArray i references).run s
          = .ok () { withSkipped s .array i reason with
              arrays := s.arrays.setIfInBounds i none }) := by
  simp only [dropArray, EStateM.run_bind, EStateM.run_get, Restored.arrayAt]
  cases s.arrays[i]?.join with
  | none => exact .inl ⟨by simp, rfl⟩
  | some r =>
      cases missing s references with
      | none => exact .inl ⟨by simp, rfl⟩
      | some reason => exact .inr ⟨rfl, reason, rfl, rfl⟩

/-- Entries have disappeared since, and nothing else has changed. -/
structure Dropped (charset : Charset) (file : ObjectFile) (before s : Restored) : Prop where
  accounted : Accounted charset file s
  heap : s.heap = before.heap
  routinesSize : s.routines.size = before.routines.size
  arraysSize : s.arrays.size = before.arrays.size
  routines : ∀ i r, s.routineAt i = some r → before.routineAt i = some r
  arrays : ∀ i a, s.arrayAt i = some a → before.arrayAt i = some a

/-- The references of the records that are there are those of their values, which lie inside the
tables.
-/
structure Known (charset : Charset) (file : ObjectFile) (before : Restored)
    (routineRefs arrayRefs : List References) : Prop where
  routines : ∀ i r, before.routineAt i = some r → ∃ record items,
    file.routines[i]? = some record ∧ record.literals.items? charset = some items
    ∧ routineRefs[i]? = some (referencesOf items)
    ∧ ∀ item ∈ items, item.Within before.routines.size before.arrays.size
  arrays : ∀ i a, before.arrayAt i = some a → ∃ record items,
    file.arrays[i]? = some record ∧ record.elements.items? charset = some items
    ∧ arrayRefs[i]? = some (referencesOf items)
    ∧ ∀ item ∈ items, item.Within before.routines.size before.arrays.size

/-- Every record that is there refers to records that are there. -/
structure Closed (s : Restored) (routineRefs arrayRefs : List References) : Prop where
  routines : ∀ i refs, routineRefs[i]? = some refs → (s.routineAt i).isSome → missing s refs = none
  arrays : ∀ i refs, arrayRefs[i]? = some refs → (s.arrayAt i).isSome → missing s refs = none

/-- A record whose references are not all there could not have been loaded. -/
theorem Dropped.unloadable {key : RecordKey} {seg : Segment} {items : List Item} {reason : Fault}
    (dropped : Dropped charset file before s) (held : seg ∈ file.segments key)
    (parsed : seg.items? charset = some items)
    (within : ∀ item ∈ items, item.Within before.routines.size before.arrays.size)
    (lacking : missing s (referencesOf items) = some reason)
    : file.Unloadable charset key := by
  refine dropped.accounted.unready held ?_ ?_
  · rw [dropped.routinesSize, dropped.arraysSize]
    exact ⟨items, parsed, within⟩
  · intro ready
    obtain ⟨items', again, resolved⟩ := ready
    rw [parsed] at again
    cases again
    rw [missing_referencesOf.mpr resolved] at lacking
    cases lacking

/-- One step of a pass does nothing, or lists one record more. -/
def DropsOrStays (step : Restoring Unit) (P : Restored → Prop) (s : Restored) : Prop :=
  step.run s = .ok () s
    ∨ ∃ s', step.run s = .ok () s' ∧ P s' ∧ s.skipped.length < s'.skipped.length

variable {routineRefs arrayRefs : List References}

/-- A routine is dropped only if it refers to a skipped record, so it is unloadable itself. -/
theorem dropped_dropRoutine {i : Nat} {refs : References}
    (known : Known charset file before routineRefs arrayRefs) (found : routineRefs[i]? = some refs)
    (dropped : Dropped charset file before s)
    : DropsOrStays (dropRoutine i refs) (Dropped charset file before) s := by
  rcases dropRoutine_cases i refs s with ⟨-, same⟩ | ⟨present, reason, lacking, done⟩
  · exact .inl same
  · obtain ⟨r, entry⟩ := Option.isSome_iff_exists.mp present
    obtain ⟨record, items, there, parsed, again, within⟩ := known.routines i r (dropped.routines i r entry)
    rw [found] at again
    cases again
    have held : record.literals ∈ file.segments (.routine, i) := by
      simp [ObjectFile.segments, there]
    refine .inr ⟨_, done, ?_, Nat.lt_succ_self _⟩
    refine ⟨?_, dropped.heap, ?_, dropped.arraysSize, ?_, dropped.arrays⟩
    · exact dropped.accounted.drop_routine present (dropped.unloadable held parsed within lacking)
    · rw [Array.size_setIfInBounds, dropped.routinesSize]
    · exact fun j r entry => dropped.routines j r (entry_of_clear entry).2

/-- An array is dropped only if it refers to a skipped record, so it is unloadable itself. -/
theorem dropped_dropArray {i : Nat} {refs : References}
    (known : Known charset file before routineRefs arrayRefs) (found : arrayRefs[i]? = some refs)
    (dropped : Dropped charset file before s)
    : DropsOrStays (dropArray i refs) (Dropped charset file before) s := by
  rcases dropArray_cases i refs s with ⟨-, same⟩ | ⟨present, reason, lacking, done⟩
  · exact .inl same
  · obtain ⟨a, entry⟩ := Option.isSome_iff_exists.mp present
    obtain ⟨record, items, there, parsed, again, within⟩ := known.arrays i a (dropped.arrays i a entry)
    rw [found] at again
    cases again
    have held : record.elements ∈ file.segments (.array, i) := by
      simp [ObjectFile.segments, there]
    refine .inr ⟨_, done, ?_, Nat.lt_succ_self _⟩
    refine ⟨?_, dropped.heap, dropped.routinesSize, ?_, dropped.routines, ?_⟩
    · exact dropped.accounted.drop_array present (dropped.unloadable held parsed within lacking)
    · rw [Array.size_setIfInBounds, dropped.arraysSize]
    · exact fun j a entry => dropped.arrays j a (entry_of_clear entry).2

/-- A pass lists some record, or none of its steps does anything, by induction on the members. -/
theorem eachFrom_drops {step : Nat → α → Restoring Unit} {items : List α} {start : Nat}
    {P : Restored → Prop}
    (each : ∀ i a s, items[i]? = some a → P s → DropsOrStays (step (start + i) a) P s)
    (first : P s)
    : ((∀ i a, items[i]? = some a → (step (start + i) a).run s = .ok () s)
        ∧ (eachFrom step start items).run s = .ok () s)
      ∨ ∃ s', (eachFrom step start items).run s = .ok () s' ∧ P s'
        ∧ s.skipped.length < s'.skipped.length := by
  induction items generalizing start s with
  | nil => exact .inl ⟨by simp, rfl⟩
  | cons a rest ih =>
      have shifted (i : Nat) : start + 1 + i = start + (i + 1) := by omega
      have others (i b s) (found : rest[i]? = some b) (holds : P s)
          : DropsOrStays (step (start + 1 + i) b) P s := by
        rw [shifted]
        exact each (i + 1) b s found holds
      simp only [eachFrom, EStateM.run_bind]
      rcases each 0 a s rfl first with same | ⟨s₁, done, next, more⟩
      · rw [Nat.add_zero] at same
        simp only [same]
        rcases ih others first with ⟨stays, sameAll⟩ | ⟨s₂, doneAll, last, more⟩
        · refine .inl ⟨?_, sameAll⟩
          intro i b found
          cases i with
          | zero =>
              cases found
              exact same
          | succ i =>
              rw [← shifted]
              exact stays i b found
        · exact .inr ⟨s₂, doneAll, last, more⟩
      · rw [Nat.add_zero] at done
        simp only [done]
        rcases ih others next with ⟨-, sameAll⟩ | ⟨s₂, doneAll, last, moreAll⟩
        · exact .inr ⟨s₁, sameAll, next, more⟩
        · exact .inr ⟨s₂, doneAll, last, Nat.lt_trans more moreAll⟩

/-- No more records are listed than there are places in the tables. -/
theorem Accounted.length_le (accounted : Accounted charset file s)
    : s.skipped.length ≤ s.routines.size + s.arrays.size := by
  let keys : List RecordKey := (List.range s.routines.size).map (.routine, ·)
    ++ (List.range s.arrays.size).map (.array, ·)
  have inside : s.listed ⊆ keys := by
    intro key member
    obtain ⟨kind, i⟩ := key
    cases kind with
    | routine => simp [keys, ((accounted.routines i).mp member).1]
    | array => simp [keys, ((accounted.arrays i).mp member).1]
    | process => exact absurd member (accounted.processes i)
  have bound := (accounted.nodup.subperm inside).length_le
  simpa [keys, Restored.listed] using bound

/-- A round in which no step does anything finds nothing missing. -/
theorem closed_of_same
    (routines : ∀ i refs, routineRefs[i]? = some refs → (dropRoutine i refs).run s = .ok () s)
    (arrays : ∀ i refs, arrayRefs[i]? = some refs → (dropArray i refs).run s = .ok () s)
    : Closed s routineRefs arrayRefs := by
  have not_longer (skipped : Skipped) : s.skipped ≠ skipped :: s.skipped := by simp
  constructor
  · intro i refs found present
    rcases dropRoutine_cases i refs s with ⟨fine, -⟩ | ⟨-, reason, -, done⟩
    · exact fine present
    · rw [routines i refs found] at done
      injection done with _ same
      exact absurd (congrArg Restored.skipped same) (not_longer _)
  · intro i refs found present
    rcases dropArray_cases i refs s with ⟨fine, -⟩ | ⟨-, reason, -, done⟩
    · exact fine present
    · rw [arrays i refs found] at done
      injection done with _ same
      exact absurd (congrArg Restored.skipped same) (not_longer _)

/-- Enough rounds leave only records that refer to records that are left, by induction on the number
of rounds: one that does not end it lists some record.
-/
theorem dropDependents_closes {rounds : Nat}
    (known : Known charset file before routineRefs arrayRefs)
    (dropped : Dropped charset file before s)
    (enough : before.routines.size + before.arrays.size < rounds + s.skipped.length)
    : ∃ s', (dropDependents routineRefs arrayRefs rounds).run s = .ok () s'
      ∧ Dropped charset file before s' ∧ Closed s' routineRefs arrayRefs := by
  induction rounds generalizing s with
  | zero =>
      have bound := dropped.accounted.length_le
      rw [dropped.routinesSize, dropped.arraysSize] at bound
      omega
  | succ rounds ih =>
      have routineSteps (i refs s) (found : routineRefs[i]? = some refs)
          (dropped : Dropped charset file before s)
          : DropsOrStays (dropRoutine (0 + i) refs) (Dropped charset file before) s := by
        rw [Nat.zero_add]
        exact dropped_dropRoutine known found dropped
      have arraySteps (i refs s) (found : arrayRefs[i]? = some refs)
          (dropped : Dropped charset file before s)
          : DropsOrStays (dropArray (0 + i) refs) (Dropped charset file before) s := by
        rw [Nat.zero_add]
        exact dropped_dropArray known found dropped
      have further (s₁ : Restored) (dropped : Dropped charset file before s₁)
          (more : s.skipped.length < s₁.skipped.length)
          : ∃ s', (if s₁.skipped.length ≠ s.skipped.length then
                dropDependents routineRefs arrayRefs rounds else pure ()).run s₁ = .ok () s'
              ∧ Dropped charset file before s' ∧ Closed s' routineRefs arrayRefs := by
        rw [if_pos (by omega)]
        exact ih dropped (by omega)
      simp only [dropDependents, EStateM.run_bind, EStateM.run_get]
      rcases eachFrom_drops routineSteps dropped with
        ⟨stays, same⟩ | ⟨s₁, done, dropped₁, more⟩
      · simp only [same]
        rcases eachFrom_drops arraySteps dropped with
          ⟨staysArrays, sameArrays⟩ | ⟨s₂, done, dropped₂, more⟩
        · simp only [sameArrays, ne_eq, not_true_eq_false, if_false]
          refine ⟨s, rfl, dropped, closed_of_same ?_ ?_⟩
          · simpa using stays
          · simpa using staysArrays
        · simp only [done]
          exact further s₂ dropped₂ more
      · simp only [done]
        rcases eachFrom_drops arraySteps dropped₁ with
          ⟨-, sameArrays⟩ | ⟨s₂, done, dropped₂, moreAll⟩
        · simp only [sameArrays]
          exact further s₁ dropped₁ more
        · simp only [done]
          exact further s₂ dropped₂ (Nat.lt_trans more moreAll)

end TaskMachine.Restoring

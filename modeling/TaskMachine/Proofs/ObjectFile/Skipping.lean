import TaskMachine.Proofs.ObjectFile.Dependents

/-!
Loading with malformed records skipped. The load succeeds whatever the file holds, lists exactly the
records that cannot be loaded, each once, and restores all the others completely.
-/

namespace TaskMachine

namespace Restoring

variable {charset : Charset} {file : ObjectFile} {s : Restored}

-----------------------------------------------------------------------------------------
-- Routines and arrays
-----------------------------------------------------------------------------------------

/-- The tables are final: the records without an entry are listed, and every entry was loaded from a
record that is in order and refers to entries only.
-/
structure Settled (charset : Charset) (file : ObjectFile) (s : Restored) : Prop where
  accounted : Accounted charset file s
  routinesSize : s.routines.size = file.routines.length
  arraysSize : s.arrays.size = file.arrays.length
  routine : ∀ i r, s.routineAt i = some r → file.WellMade charset (.routine, i)
    ∧ ∃ record, file.routines[i]? = some record
      ∧ RoutineDenotes charset s.routineAt s.arrayAt s.heap record r
  array : ∀ i a, s.arrayAt i = some a → file.WellMade charset (.array, i)
    ∧ ∃ record, file.arrays[i]? = some record
      ∧ ArrayDenotes charset s.routineAt s.arrayAt s.heap record a
  distinctRoutines : Distinct s.routines
  distinctArrays : Distinct s.arrays

/-- What was left when nothing was missing any more goes on standing for its record. -/
theorem later_all {compiled dropped : Restored} {h h' : Heap} {items : List Item} {values : List Value}
    (each : List.Forall₂ (Item.Denotes compiled.routineAt compiled.arrayAt h) items values)
    (resolved : ∀ item ∈ items, item.Resolved dropped.routineAt dropped.arrayAt)
    (routines : ∀ i r, dropped.routineAt i = some r → compiled.routineAt i = some r)
    (arrays : ∀ i a, dropped.arrayAt i = some a → compiled.arrayAt i = some a)
    (kept : h.KeepsCallables h')
    : List.Forall₂ (Item.Denotes dropped.routineAt dropped.arrayAt h') items values := by
  induction each with
  | nil => exact .nil
  | cons one _ ih =>
      refine .cons (one.later (resolved _ List.mem_cons_self) ?_ ?_ kept) ?_
      · intro n r r' before after
        rw [routines n r' after] at before
        exact Option.some.inj before
      · intro n a a' before after
        rw [arrays n a' after] at before
        exact Option.some.inj before
      · exact ih fun item member => resolved item (List.mem_cons_of_mem _ member)

private theorem settled_of_closed {made compiled filled dropped : Restored}
    {routineRefs arrayRefs : List References}
    (compiles : Compiled charset file made routineRefs compiled)
    (fills : Filled charset file compiled arrayRefs filled)
    (drops : Dropped charset file filled dropped)
    (closed : Closed dropped routineRefs arrayRefs)
    (madeSize : made.arrays.size = file.arrays.length)
    (routinesSize : routineRefs.length = file.routines.length)
    (arraysSize : arrayRefs.length = file.arrays.length)
    (distinct : Distinct made.arrays)
    : Settled charset file dropped := by
  have routinesBefore (i r) (entry : dropped.routineAt i = some r) : compiled.routineAt i = some r := by
    have := drops.routines i r entry
    rwa [Restored.routineAt, fills.routines] at this
  have arraysBefore (i a) (entry : dropped.arrayAt i = some a) : compiled.arrayAt i = some a :=
    fills.before i a (drops.arrays i a entry)
  have sizes : dropped.arrays.size = file.arrays.length := by
    rw [drops.arraysSize, fills.size, compiles.arrays, madeSize]
  refine ⟨drops.accounted, ?_, sizes, ?_, ?_, ?_, ?_⟩
  · rw [drops.routinesSize, fills.routines, compiles.size, routinesSize]
  · intro i r entry
    obtain ⟨record, items, there, sound, parsed, known, within, code, items', values, bytes, again,
      stored, each⟩ := compiles.entry i r (routinesBefore i r entry)
    rw [parsed] at again
    cases again
    have resolved := missing_referencesOf.mp
      (closed.routines i _ known (Option.isSome_iff_exists.mpr ⟨r, entry⟩))
    refine ⟨⟨record, there, sound, items, parsed, ?_⟩, record, there, code, items, values, bytes,
      parsed, ?_, ?_⟩
    · rwa [← madeSize]
    · rw [drops.heap, fills.compiledRoutines, stored]
    · refine later_all each resolved routinesBefore arraysBefore ?_
      rw [drops.heap]
      exact fills.callables
  · intro i a entry
    have inside : i < arrayRefs.length := by
      rw [arraysSize, ← sizes]
      exact lt_of_entry (Option.isSome_iff_exists.mpr ⟨a, entry⟩)
    obtain ⟨record, items, there, sound, parsed, known, within, items', values, again, stored, each⟩ :=
      fills.filled i a inside (drops.arrays i a entry)
    rw [parsed] at again
    cases again
    have resolved := missing_referencesOf.mp
      (closed.arrays i _ known (Option.isSome_iff_exists.mpr ⟨a, entry⟩))
    refine ⟨⟨record, there, sound, items, parsed, ?_⟩, record, there, items, values, parsed, ?_, ?_⟩
    · rwa [compiles.size, routinesSize, compiles.arrays, madeSize] at within
    · rw [drops.heap, stored]
    · refine later_all each resolved routinesBefore arraysBefore ?_
      rw [drops.heap]
      exact .of_eq rfl
  · intro i j r first second
    exact compiles.distinct i j r (routinesBefore i r first) (routinesBefore j r second)
  · intro i j a first second
    have inMade (k) (entry : dropped.arrayAt k = some a) : made.arrayAt k = some a := by
      have := arraysBefore k a entry
      rwa [Restored.arrayAt, compiles.arrays] at this
    exact distinct i j a (inMade i first) (inMade j second)

/-- What the fixpoint is about: the references that were collected are those of the records. -/
theorem known_of_filled {made compiled filled : Restored} {routineRefs arrayRefs : List References}
    (compiles : Compiled charset file made routineRefs compiled)
    (fills : Filled charset file compiled arrayRefs filled)
    (madeSize : made.arrays.size = file.arrays.length)
    (arraysSize : arrayRefs.length = file.arrays.length)
    : Known charset file filled routineRefs arrayRefs := by
  have sizeRoutines : filled.routines.size = routineRefs.length := by rw [fills.routines, compiles.size]
  have sizeArrays : filled.arrays.size = made.arrays.size := by rw [fills.size, compiles.arrays]
  constructor
  · intro i r entry
    rw [Restored.routineAt, fills.routines] at entry
    obtain ⟨record, items, there, -, parsed, known, within, -⟩ := compiles.entry i r entry
    refine ⟨record, items, there, parsed, known, fun item member => ?_⟩
    have earlier : i ≤ filled.routines.size := by
      rw [sizeRoutines, ← compiles.size]
      exact Nat.le_of_lt (lt_of_entry (Option.isSome_iff_exists.mpr ⟨r, entry⟩))
    rw [sizeArrays]
    exact (within item member).mono earlier (Nat.le_refl _)
  · intro i a entry
    have inside : i < arrayRefs.length := by
      rw [arraysSize, ← madeSize, ← sizeArrays]
      exact lt_of_entry (Option.isSome_iff_exists.mpr ⟨a, entry⟩)
    obtain ⟨record, items, there, -, parsed, known, within, -⟩ := fills.filled i a inside entry
    refine ⟨record, items, there, parsed, known, ?_⟩
    rwa [fills.routines, fills.size]

-----------------------------------------------------------------------------------------
-- Processes
-----------------------------------------------------------------------------------------

/-- The routines that were loaded have the code and the variables of their records. -/
def SameShape (file : ObjectFile) (s : Restored) : Prop :=
  ∀ n r, s.routineAt n = some r → ∃ record, file.routines[n]? = some record
    ∧ (s.heap.routine r).code.size = record.code.length / 4
    ∧ (s.heap.routine r).numLocals = record.localNames.length

theorem RoutineDenotes.shape {routines : Nat → Option RoutineId} {arrays : Nat → Option ArrayId}
    {h : Heap} {record : RoutineRecord} {r : RoutineId}
    (denotes : RoutineDenotes charset routines arrays h record r)
    : (h.routine r).code.size = record.code.length / 4
      ∧ (h.routine r).numLocals = record.localNames.length := by
  obtain ⟨code, items, values, bytes, -, stored, -⟩ := denotes
  have compiled : h.routine r = record.compile code values := by
    rw [Heap.routine, stored, Option.getD_some]
  rw [compiled, bytes, Instruction.length_flatMap_toBytes]
  constructor
  · simp [RoutineRecord.compile]
  · simp [RoutineRecord.compile, Routine.numLocals]

private theorem Settled.sameShape (settled : Settled charset file s) : SameShape file s := by
  intro n r entry
  obtain ⟨-, record, there, denotes⟩ := settled.routine n r entry
  exact ⟨record, there, denotes.shape⟩

/-- A ready segment has its references inside the tables. -/
theorem Ready.wellMade {seg : Segment} {items : List Item} (ready : Ready charset s seg items)
    : seg.WellMade charset s.routines.size s.arrays.size :=
  ⟨items, ready.1, fun item member => within_of_resolved (ready.2 item member)⟩

section

variable {i : Nat} {record : ProcessRecord} (found : file.processes[i]? = some record)
  (shapes : SameShape file s) (routinesSize : s.routines.size = file.routines.length)
  (arraysSize : s.arrays.size = file.arrays.length)
include found shapes routinesSize arraysSize

/-- A process that can be loaded passes its own checks. -/
theorem wellMade_of_processReady (ready : ProcessReady charset s record)
    : file.WellMade charset (.process, i) := by
  have made (seg : Segment) (ready : ∃ items, Ready charset s seg items)
      : seg.WellMade charset file.routines.length file.arrays.length := by
    obtain ⟨items, ready⟩ := ready
    rw [← routinesSize, ← arraysSize]
    exact ready.wellMade
  refine ⟨record, found, ready.state, ready.some, made _ ready.stack, ready.bases, ?_⟩
  intro f active
  obtain ⟨id, entry, sound, locals⟩ := ready.frames f active
  obtain ⟨r, there, code, names⟩ := shapes _ id entry
  rw [code, names] at sound
  exact ⟨⟨r, there, sound⟩, made _ locals⟩

/-- A process that cannot be loaded fails its own checks or refers to a listed record. -/
theorem Listing.unready_process (listing : Listing charset file s)
    (unready : ¬ ProcessReady charset s record)
    : file.Unloadable charset (.process, i) := by
  by_contra loadable
  have present : file.Has (.process, i) := (List.getElem?_eq_some_iff.mp found).1
  have well : file.WellMade charset (.process, i) := by
    by_contra bad
    exact loadable (.malformed present bad)
  obtain ⟨_, again, state, some, stack, bases, frames⟩ := well
  rw [found] at again
  cases again
  have ready {seg : Segment} (held : seg ∈ file.segments (.process, i))
      (made : seg.WellMade charset file.routines.length file.arrays.length)
      : ∃ items, Ready charset s seg items := by
    by_contra lacking
    rw [← routinesSize, ← arraysSize] at made
    exact loadable (listing.unready held made lacking)
  refine unready ⟨state, ready (by simp [ObjectFile.segments, found]) stack, some, bases, ?_⟩
  intro f active
  obtain ⟨⟨r, there, sound⟩, locals⟩ := frames f active
  cases entry : s.routineAt f.routine.toNat with
  | none =>
      have inside : f.routine.toNat < s.routines.size := by
        rw [routinesSize]
        exact (List.getElem?_eq_some_iff.mp there).1
      have listed := (listing.routines _).mpr ⟨inside, entry⟩
      exact absurd (.dependent (.frame found active) (listing.unloadable _ listed)) loadable
  | some id =>
      obtain ⟨r', there', code, names⟩ := shapes _ id entry
      rw [there] at there'
      cases there'
      refine ⟨id, entry, by rwa [code, names], ready ?_ locals⟩
      simp only [ObjectFile.segments, found, Option.toList_some, List.flatMap_cons,
        List.flatMap_nil, List.append_nil]
      exact List.mem_cons_of_mem _ (List.mem_map_of_mem active)

end

/-- While processes are loaded, the tables stay as they are, and the processes that could not be
loaded are listed, too.
-/
structure Processed (config : Config) (charset : Charset) (file : ObjectFile) (settled : Restored)
    (results : List (Option Process)) (s : Restored) : Prop where
  listing : Listing charset file s
  processes : Marks s.listed .process results.toArray
  routines : s.routines = settled.routines
  arrays : s.arrays = settled.arrays
  grown : settled.heap.Grown s.heap
  entry : ∀ i p, results[i]?.join = some p → file.WellMade charset (.process, i)
    ∧ ∃ record, file.processes[i]? = some record
      ∧ ProcessDenotes config charset s.routineAt s.arrayAt s.heap record p

private theorem FrameDenotes.kept_all {routines : Nat → Option RoutineId} {arrays : Nat → Option ArrayId}
    {h h' : Heap} {records : List FrameRecord} {fs : List Frame}
    (each : List.Forall₂ (FrameDenotes charset routines arrays h) records fs)
    (kept : h.KeepsCallables h')
    : List.Forall₂ (FrameDenotes charset routines arrays h') records fs :=
  each.imp fun _ _ one => one.kept kept

theorem ProcessDenotes.kept {config : Config} {routines : Nat → Option RoutineId}
    {arrays : Nat → Option ArrayId} {h h' : Heap} {record : ProcessRecord} {p : Process}
    (denotes : ProcessDenotes config charset routines arrays h record p) (kept : h.KeepsCallables h')
    : ProcessDenotes config charset routines arrays h' record p := by
  obtain ⟨items, parsed, each⟩ := denotes.stack
  exact ⟨denotes.rest, ⟨items, parsed, each.imp fun _ _ one => one.kept kept⟩,
    FrameDenotes.kept_all denotes.frames kept⟩

private theorem processed_process {config : Config} {settled : Restored} {results : List (Option Process)}
    {record : ProcessRecord} (found : file.processes[results.length]? = some record)
    (base : Settled charset file settled)
    (processed : Processed config charset file settled results s)
    : ∃ result s', (accept .skipMalformed .process results.length (process config charset record)).run s
          = .ok result s'
        ∧ Processed config charset file settled (results ++ [result]) s' := by
  have shapes : SameShape file s := by
    intro n r entry
    rw [Restored.routineAt, processed.routines] at entry
    obtain ⟨record, there, code, names⟩ := base.sameShape n r entry
    refine ⟨record, there, ?_, ?_⟩
    all_goals rwa [Heap.routine, processed.grown.routines]
  have routinesSize : s.routines.size = file.routines.length := by
    rw [processed.routines, base.routinesSize]
  have arraysSize : s.arrays.size = file.arrays.length := by rw [processed.arrays, base.arraysSize]
  have entries {i : Nat} {result : Option Process} {p : Process}
      (entry : (results ++ [result])[i]?.join = some p)
      : (i = results.length ∧ result = some p) ∨ results[i]?.join = some p := by
    have entry' : (results.toArray.push result)[i]?.join = some p := by simpa using entry
    simpa using entry_of_push entry'
  rw [run_accept]
  rcases process_cases config charset record s with
    ⟨ready, p, h', done, grown, denotes⟩ | ⟨unready, fault, h', failed, grown⟩
  · rw [done]
    refine ⟨_, _, rfl, { processed.listing with }, ?_, processed.routines, processed.arrays,
      processed.grown.trans grown, ?_⟩
    · rw [← List.push_toArray]
      exact processed.processes.push_some p
    · intro i q entry
      rcases entries entry with ⟨rfl, same⟩ | earlier
      · cases same
        exact ⟨wellMade_of_processReady found shapes routinesSize arraysSize ready, record, found,
          denotes⟩
      · obtain ⟨made, record', there, loaded⟩ := processed.entry i q earlier
        exact ⟨made, record', there, loaded.kept grown.callables⟩
  · rw [failed]
    have unloadable := processed.listing.unready_process found shapes routinesSize arraysSize unready
    have new : (RecordKind.process, results.length) ∉ s.listed := by
      simpa using processed.processes.not_new
    refine ⟨_, _, rfl, ⟨?_, ?_, ?_, ?_⟩, ?_, processed.routines, processed.arrays,
      processed.grown.trans grown, ?_⟩
    · exact List.nodup_cons.mpr ⟨new, processed.listing.nodup⟩
    · exact processed.listing.routines.other (by simp [Skipped.key])
    · exact processed.listing.arrays.other (by simp [Skipped.key])
    · intro key member
      rcases List.mem_cons.mp member with rfl | there
      · exact unloadable
      · exact processed.listing.unloadable key there
    · rw [← List.push_toArray]
      exact processed.processes.push_none
    · intro i q entry
      rcases entries entry with ⟨-, same⟩ | earlier
      · cases same
      · obtain ⟨made, record', there, loaded⟩ := processed.entry i q earlier
        exact ⟨made, record', there, loaded.kept grown.callables⟩

/-- All passes, one after another. -/
theorem load_processed (config : Config) (policy : config.loadPolicy = .skipMalformed)
    (charset : Charset) (file : ObjectFile) (h : Heap)
    : ∃ settled results s,
        Settled charset file settled
        ∧ Processed config charset file settled results s
        ∧ results.length = file.processes.length
        ∧ (load config charset file).run { heap := h }
          = .ok ⟨s.routines.toList.filterMap id, results.filterMap id, s.skipped.reverse⟩ s := by
  obtain ⟨made, ranShells, shelled, madeSize⟩ := shells charset file h
  obtain ⟨routineRefs, compiled, ranRoutines, routinesSize, compiles⟩ := compiles shelled madeSize
  obtain ⟨arrayRefs, filled, ranElements, arraysSize, fills⟩ :=
    fills shelled madeSize compiles routinesSize
  have known := known_of_filled compiles fills madeSize arraysSize
  have start : Dropped charset file filled filled :=
    ⟨fills.accounted, rfl, rfl, rfl, fun _ _ entry => entry, fun _ _ entry => entry⟩
  have enough : filled.routines.size + filled.arrays.size
      < (routineRefs.length + arrayRefs.length + 1) + filled.skipped.length := by
    rw [fills.routines, compiles.size, fills.size, compiles.arrays, madeSize, arraysSize]
    omega
  obtain ⟨dropped, ranDrops, drops, closed⟩ := dropDependents_closes known start enough
  have settled := settled_of_closed compiles fills drops closed madeSize routinesSize arraysSize
    shelled.distinct
  have first : Processed config charset file dropped [] dropped := by
    refine ⟨settled.accounted.toListing, ?_, rfl, rfl, .refl _, by simp⟩
    intro i
    simp [settled.accounted.processes i]
  have pass : ∃ results s, (collect (fun index record =>
        accept .skipMalformed .process index (process config charset record)) file.processes).run
          dropped = .ok results s
      ∧ results.length = file.processes.length
      ∧ Processed config charset file dropped results s := by
    refine collect_induction (P := Processed config charset file dropped) ?_ first
    intro results record s found processed
    exact processed_process found settled processed
  obtain ⟨results, s, ranProcesses, length, processed⟩ := pass
  refine ⟨dropped, results, s, settled, processed, length, ?_⟩
  simp only [load, policy, EStateM.run_bind, ranShells, ranRoutines, ranElements, ranDrops,
    ranProcesses]
  rfl

end Restoring
end TaskMachine

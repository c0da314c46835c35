import Mathlib.Data.List.Nodup
import TaskMachine.Proofs.Heap.Reach
import TaskMachine.Proofs.ObjectFile.Skipping

/-!
What loading gives when malformed records are skipped: every record is either listed, because it
cannot be loaded, or restored completely, and nothing that can be reached from the result belongs to
a listed one.
-/

namespace TaskMachine

/-- The values that the loaded routines and processes hold. -/
def Loaded.Holds (loaded : Loaded) (h : Heap) (v : Value) : Prop :=
  (∃ r ∈ loaded.routines, v ∈ (h.routine r).literals) ∨ ∃ p ∈ loaded.processes, p.Holds h v

namespace Restoring

variable {charset : Charset} {file : ObjectFile} {s : Restored}

-----------------------------------------------------------------------------------------
-- Tables of a finished load
-----------------------------------------------------------------------------------------

/-- The loaded routines and processes are those of the tables, in the order of their records, and
every entry of the tables was restored completely from its record, with references to entries of the
tables. No two records share a routine or an array.
-/
structure Restoration (config : Config) (charset : Charset) (file : ObjectFile) (h : Heap)
    (loaded : Loaded) (routines : Nat → Option RoutineId) (arrays : Nat → Option ArrayId)
    (processes : Nat → Option Process) : Prop where
  routinesLoaded : loaded.routines = (List.range file.routines.length).filterMap routines
  processesLoaded : loaded.processes = (List.range file.processes.length).filterMap processes
  routine : ∀ i r, routines i = some r → ∃ record, file.routines[i]? = some record
    ∧ RoutineDenotes charset routines arrays h record r
  array : ∀ i a, arrays i = some a → ∃ record, file.arrays[i]? = some record
    ∧ ArrayDenotes charset routines arrays h record a
  process : ∀ i p, processes i = some p → ∃ record, file.processes[i]? = some record
    ∧ ProcessDenotes config charset routines arrays h record p
  distinctRoutines : ∀ i j r, routines i = some r → routines j = some r → i = j
  distinctArrays : ∀ i j a, arrays i = some a → arrays j = some a → i = j

private theorem filterMap_table {α : Type} (table : List (Option α))
    : table.filterMap id = (List.range table.length).filterMap fun i => table[i]?.join := by
  have entries : (List.range table.length).map (fun i => table[i]?.join) = table := by
    apply List.ext_getElem
    · simp
    · intro i _ inside
      simp [inside]
  conv => lhs; rw [← entries]
  rw [List.filterMap_map]
  rfl

/-- The record has an entry in its table. -/
def Entered (routines : Nat → Option RoutineId) (arrays : Nat → Option ArrayId)
    (processes : Nat → Option Process) : RecordKey → Prop
  | (.routine, i) => (routines i).isSome
  | (.array, i) => (arrays i).isSome
  | (.process, i) => (processes i).isSome

section

variable {config : Config} {h : Heap} {loaded : Loaded} {routines : Nat → Option RoutineId}
  {arrays : Nat → Option ArrayId} {processes : Nat → Option Process}
  (restored : Restoration config charset file h loaded routines arrays processes)
include restored

/-- The items of what an entered record holds are all resolved. -/
theorem Restoration.resolved {key : RecordKey} (entered : Entered routines arrays processes key)
    {seg : Segment} (held : seg ∈ file.segments key) {items : List Item}
    (parsed : seg.items? charset = some items)
    : ∀ item ∈ items, item.Resolved routines arrays := by
  have all {items' values} (again : seg.items? charset = some items')
      (each : List.Forall₂ (Item.Denotes routines arrays h) items' values)
      : ∀ item ∈ items, item.Resolved routines arrays := by
    rw [parsed] at again
    cases again
    intro item member
    obtain ⟨v, -, denotes⟩ := exists_of_mem_left each item member
    exact denotes.resolved
  obtain ⟨kind, i⟩ := key
  cases kind with
  | routine =>
      obtain ⟨r, entry⟩ := Option.isSome_iff_exists.mp entered
      obtain ⟨record, there, code, items', values, -, again, -, each⟩ := restored.routine i r entry
      simp only [ObjectFile.segments, there, Option.toList_some, List.map_cons, List.map_nil,
        List.mem_singleton] at held
      subst held
      exact all again each
  | array =>
      obtain ⟨a, entry⟩ := Option.isSome_iff_exists.mp entered
      obtain ⟨record, there, items', values, again, -, each⟩ := restored.array i a entry
      simp only [ObjectFile.segments, there, Option.toList_some, List.map_cons, List.map_nil,
        List.mem_singleton] at held
      subst held
      exact all again each
  | process =>
      obtain ⟨p, entry⟩ := Option.isSome_iff_exists.mp entered
      obtain ⟨record, there, denotes⟩ := restored.process i p entry
      simp only [ObjectFile.segments, there, Option.toList_some, List.flatMap_cons,
        List.flatMap_nil, List.append_nil, List.mem_cons, List.mem_map] at held
      rcases held with rfl | ⟨f, active, rfl⟩
      · obtain ⟨items', again, each⟩ := denotes.stack
        exact all again each
      · obtain ⟨_, -, _, items', values, -, again, each, -⟩ :=
          exists_of_mem_left denotes.frames f active
        exact all again each

/-- An entered record refers to entered records only. -/
theorem Restoration.entered_of_refersTo {key target : RecordKey}
    (entered : Entered routines arrays processes key) (refers : file.RefersTo charset key target)
    : Entered routines arrays processes target := by
  cases refers with
  | routine held parsed member => exact restored.resolved entered held parsed _ member
  | array held parsed member => exact restored.resolved entered held parsed _ member
  | frame found active =>
      obtain ⟨p, entry⟩ := Option.isSome_iff_exists.mp entered
      obtain ⟨record, there, denotes⟩ := restored.process _ p entry
      rw [found] at there
      cases there
      obtain ⟨_, -, id, _, _, entry, -⟩ := exists_of_mem_left denotes.frames _ active
      exact Option.isSome_iff_exists.mpr ⟨id, entry⟩

-----------------------------------------------------------------------------------------
-- What can be reached from the result
-----------------------------------------------------------------------------------------

/-- The value is no handle, or the handle of an array or a routine of an entered record. -/
def FromRecord (routines : Nat → Option RoutineId) (arrays : Nat → Option ArrayId) (h : Heap)
    : Value → Prop
  | .array a => ∃ i, arrays i = some a
  | .callable c =>
      ∃ i r, routines i = some r ∧ h.callables[c.index]? = some (.direct (.subroutine r))
  | .object _ => False
  | _ => True

omit restored in
/-- What an item of a record denotes comes from the record. -/
theorem FromRecord.of_denotes {seg : Segment} {items : List Item} {values : List Value} {v : Value}
    (parsed : seg.items? charset = some items)
    (each : List.Forall₂ (Item.Denotes routines arrays h) items values) (member : v ∈ values)
    : FromRecord routines arrays h v := by
  obtain ⟨item, found, denotes⟩ := exists_of_mem_right each v member
  cases item with
  | plain w =>
      subst denotes
      have standsAlone := Segment.not_handle parsed found
      cases v with
      | array | callable | object => exact absurd trivial standsAlone
      | null | integer | boolean | float | string => trivial
  | routine number =>
      obtain ⟨c, r, rfl, entry, stored⟩ := denotes
      exact ⟨number, r, entry, stored⟩
  | array number =>
      obtain ⟨a, rfl, entry⟩ := denotes
      exact ⟨number, entry⟩

theorem Restoration.literal {i : Nat} {r : RoutineId} (entry : routines i = some r) {v : Value}
    (held : v ∈ (h.routine r).literals)
    : FromRecord routines arrays h v := by
  obtain ⟨record, -, code, items, values, -, parsed, stored, each⟩ := restored.routine i r entry
  rw [Heap.routine, stored, Option.getD_some] at held
  exact .of_denotes parsed each (List.mem_toArray.mp held)

/-- What values of the result lead to are values of the result. -/
theorem Restoration.step {v w : Value} (known : FromRecord routines arrays h v)
    (leads : h.LeadsTo v w)
    : FromRecord routines arrays h w := by
  cases leads with
  | cell held =>
      obtain ⟨i, entry⟩ := known
      obtain ⟨record, -, items, values, parsed, stored, each⟩ := restored.array i _ entry
      rw [Heap.grid, stored, Option.getD_some] at held
      exact .of_denotes parsed each (List.mem_toArray.mp held)
  | literal routine held =>
      obtain ⟨i, r, entry, direct⟩ := known
      rw [Heap.callable, direct] at routine
      cases routine
      exact restored.literal entry held
  | base closure =>
      obtain ⟨i, r, entry, direct⟩ := known
      rw [Heap.callable, direct] at closure
      cases closure
  | bound closure held =>
      obtain ⟨i, r, entry, direct⟩ := known
      rw [Heap.callable, direct] at closure
      cases closure
  | member held => exact known.elim

/-- What the result holds comes from records with an entry. -/
theorem Restoration.root {v : Value} (held : loaded.Holds h v) : FromRecord routines arrays h v := by
  rcases held with ⟨r, among, held⟩ | ⟨p, among, held⟩
  · rw [restored.routinesLoaded, List.mem_filterMap] at among
    obtain ⟨i, -, entry⟩ := among
    exact restored.literal entry held
  · rw [restored.processesLoaded, List.mem_filterMap] at among
    obtain ⟨i, -, entry⟩ := among
    obtain ⟨record, -, denotes⟩ := restored.process i p entry
    rcases held with onStack | ⟨f, active, held⟩
    · obtain ⟨items, parsed, each⟩ := denotes.stack
      exact .of_denotes parsed each (List.mem_reverse.mpr onStack)
    · obtain ⟨_, -, id, items, values, entry, parsed, each, rfl⟩ :=
        exists_of_mem_right denotes.frames f (List.mem_reverse.mpr active)
      rcases held with inLocals | inLiterals
      · exact .of_denotes parsed each (List.mem_toArray.mp inLocals)
      · exact restored.literal entry inLiterals

/-- What is reached from loaded processes comes from records, as literals and elements do. -/
theorem Restoration.reached {v : Value} (reached : h.Reached (loaded.Holds h) v)
    : FromRecord routines arrays h v :=
  reached.induct (fun _ => restored.root) (fun _ _ => restored.step)

theorem Restoration.live {v : Value} (live : h.Live loaded.processes v)
    : FromRecord routines arrays h v :=
  live.induct (fun _ held => restored.root (.inr held)) (fun _ _ => restored.step)

/-- What the loaded processes lead to is on the heap. -/
theorem Restoration.array_lt {a : ArrayId} (live : h.Live loaded.processes (.array a))
    : a.index < h.arrays.size := by
  obtain ⟨i, entry⟩ := restored.live live
  obtain ⟨record, -, items, values, -, filled, -⟩ := restored.array i a entry
  exact (Array.getElem?_eq_some_iff.mp filled).1

theorem Restoration.callable_lt {c : CallableId} (live : h.Live loaded.processes (.callable c))
    : c.index < h.callables.size := by
  obtain ⟨i, r, -, stored⟩ := restored.live live
  exact (Array.getElem?_eq_some_iff.mp stored).1

end

-----------------------------------------------------------------------------------------
-- Restored or listed
-----------------------------------------------------------------------------------------

section

variable {config : Config} {settled : Restored} {results : List (Option Process)}
  (base : Settled charset file settled) (processed : Processed config charset file settled results s)
  (length : results.length = file.processes.length)
include base processed length

/-- After the last pass the loaded records restore what they denote. -/
theorem Processed.restoration (skipped : List Skipped)
    : Restoration config charset file s.heap
        ⟨s.routines.toList.filterMap id, results.filterMap id, skipped⟩
        s.routineAt s.arrayAt (fun i => results[i]?.join) := by
  have routineAt : s.routineAt = settled.routineAt := by
    funext i
    rw [Restored.routineAt, Restored.routineAt, processed.routines]
  have arrayAt : s.arrayAt = settled.arrayAt := by
    funext i
    rw [Restored.arrayAt, Restored.arrayAt, processed.arrays]
  refine ⟨?_, ?_, ?_, ?_, ?_, ?_, ?_⟩
  · have entries : (fun i : Nat => s.routines.toList[i]?.join) = s.routineAt := by
      funext i
      rw [Array.getElem?_toList, Restored.routineAt]
    simp only [filterMap_table, Array.length_toList, entries]
    rw [processed.routines, base.routinesSize]
  · simp only [filterMap_table, length]
  · intro i r entry
    rw [routineAt] at entry
    obtain ⟨-, record, there, denotes⟩ := base.routine i r entry
    rw [routineAt, arrayAt]
    refine ⟨record, there, denotes.mono (fun _ _ entry => entry) (fun _ _ entry => entry)
      processed.grown.callables ?_⟩
    intro routine stored
    rwa [processed.grown.routines]
  · intro i a entry
    rw [arrayAt] at entry
    obtain ⟨-, record, there, denotes⟩ := base.array i a entry
    rw [routineAt, arrayAt]
    refine ⟨record, there, denotes.mono (fun _ _ entry => entry) (fun _ _ entry => entry)
      processed.grown.callables ?_⟩
    intro g stored
    rwa [processed.grown.arrays]
  · intro i p entry
    exact (processed.entry i p entry).2
  · rw [routineAt]
    exact base.distinctRoutines
  · rw [arrayAt]
    exact base.distinctArrays

/-- A record has an entry if it is there and not listed. -/
theorem Processed.entered_iff {key : RecordKey}
    : Entered s.routineAt s.arrayAt (fun i => results[i]?.join) key
      ↔ file.Has key ∧ key ∉ s.listed := by
  obtain ⟨kind, i⟩ := key
  cases kind with
  | routine =>
      rw [ObjectFile.Has, ← base.routinesSize, ← processed.routines]
      exact processed.listing.routines.entered_iff
  | array =>
      rw [ObjectFile.Has, ← base.arraysSize, ← processed.arrays]
      exact processed.listing.arrays.entered_iff
  | process =>
      rw [ObjectFile.Has, ← length, ← List.size_toArray, ← processed.processes.entered_iff,
        List.getElem?_toArray, Entered]

omit length in
/-- A record with an entry passes its own checks. -/
theorem Processed.wellMade {key : RecordKey}
    (entered : Entered s.routineAt s.arrayAt (fun i => results[i]?.join) key)
    : file.WellMade charset key := by
  obtain ⟨kind, i⟩ := key
  cases kind with
  | routine =>
      obtain ⟨r, entry⟩ := Option.isSome_iff_exists.mp entered
      rw [Restored.routineAt, processed.routines] at entry
      exact (base.routine i r entry).1
  | array =>
      obtain ⟨a, entry⟩ := Option.isSome_iff_exists.mp entered
      rw [Restored.arrayAt, processed.arrays] at entry
      exact (base.array i a entry).1
  | process =>
      obtain ⟨p, entry⟩ := Option.isSome_iff_exists.mp entered
      exact (processed.entry i p entry).1

/-- Exactly the records that cannot be loaded are listed, by induction on why they cannot be. -/
theorem Processed.listed_iff {key : RecordKey} : key ∈ s.listed ↔ file.Unloadable charset key := by
  constructor
  · exact processed.listing.unloadable key
  · intro unloadable
    by_contra absent
    have entered : Entered s.routineAt s.arrayAt (fun i => results[i]?.join) key :=
      (processed.entered_iff base length).mpr ⟨unloadable.has, absent⟩
    clear absent
    induction unloadable with
    | malformed present bad => exact bad (processed.wellMade base entered)
    | dependent refers _ ih =>
        exact ih ((processed.restoration base length []).entered_of_refersTo entered refers)

end

end Restoring

/-- With malformed records skipped, every object file can be loaded. A record is listed, once, exactly
if it cannot be loaded, and all others are restored. An array that can be reached from the result is
that of a record that is not listed, and has all its elements.
-/
theorem ObjectFile.load_skipping (config : Config) (charset : Charset) (file : ObjectFile) (h : Heap)
    : ∃ h' loaded routines arrays processes,
        file.load { config with loadPolicy := .skipMalformed } charset h = .ok (h', loaded)
        ∧ Restoring.Restoration { config with loadPolicy := .skipMalformed } charset file h' loaded
            routines arrays processes
        ∧ (loaded.skipped.map Skipped.key).Nodup
        ∧ (∀ key, key ∈ loaded.skipped.map Skipped.key ↔ file.Unloadable charset key)
        ∧ (∀ key, Restoring.Entered routines arrays processes key
            ↔ file.Has key ∧ key ∉ loaded.skipped.map Skipped.key)
        ∧ ∀ a, h'.Reached (loaded.Holds h') (.array a) →
            ∃ i record, file.arrays[i]? = some record ∧ arrays i = some a
              ∧ (.array, i) ∉ loaded.skipped.map Skipped.key
              ∧ Restoring.ArrayDenotes charset routines arrays h' record a := by
  obtain ⟨settled, results, s, base, processed, length, ran⟩ := Restoring.load_processed
    { config with loadPolicy := .skipMalformed } rfl charset file h
  have restored := processed.restoration base length s.skipped.reverse
  have listed : s.skipped.reverse.map Skipped.key = s.listed.reverse := by
    rw [List.map_reverse, Restored.listed]
  refine ⟨s.heap, _, s.routineAt, s.arrayAt, fun i => results[i]?.join, ?_, restored, ?_, ?_, ?_, ?_⟩
  · rw [ObjectFile.load, ran]
  · rw [listed, List.nodup_reverse]
    exact processed.listing.nodup
  · intro key
    rw [listed, List.mem_reverse]
    exact processed.listed_iff base length
  · intro key
    rw [listed, List.mem_reverse]
    exact processed.entered_iff base length
  · intro a reached
    obtain ⟨i, entry⟩ := restored.reached reached
    obtain ⟨record, there, denotes⟩ := restored.array i a entry
    refine ⟨i, record, there, entry, ?_, denotes⟩
    rw [listed, List.mem_reverse]
    exact processed.listing.arrays.not_present (Option.isSome_iff_exists.mpr ⟨a, entry⟩)

end TaskMachine

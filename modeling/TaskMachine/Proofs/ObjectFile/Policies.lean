import TaskMachine.Proofs.ObjectFile.Complete

/-!
The two policies of loading. They differ on files with malformed records only: a file is loaded
strictly exactly if nothing is reported when malformed records are skipped. What is loaded then has
the same shape under both, whatever is on the heaps that it is loaded into.
-/

namespace TaskMachine

namespace Restoring

-----------------------------------------------------------------------------------------
-- Two loads of one file
-----------------------------------------------------------------------------------------

/-- Routines and arrays belong together if two loads made them of the same record. -/
def pairing (routines routines' : Nat → Option RoutineId) (arrays arrays' : Nat → Option ArrayId)
    : Pairing where
  arrays a a' := ∃ i, arrays i = some a ∧ arrays' i = some a'
  routines r r' := ∃ i, routines i = some r ∧ routines' i = some r'

variable {config : Config} {charset : Charset} {file : ObjectFile} {h h' : Heap}
  {routines routines' : Nat → Option RoutineId} {arrays arrays' : Nat → Option ArrayId}

/-- The values that two loads read in a segment correspond, item by item. -/
theorem segment_values {seg : Segment} {items items' : List Item} {values values' : List Value}
    (parsed : seg.items? charset = some items) (parsed' : seg.items? charset = some items')
    (each : List.Forall₂ (Item.Denotes routines arrays h) items values)
    (each' : List.Forall₂ (Item.Denotes routines' arrays' h') items' values')
    : List.Forall₂ ((pairing routines routines' arrays arrays').Values h h') values values' := by
  rw [parsed] at parsed'
  cases parsed'
  have among : ∀ item ∈ items, item ∈ items := fun _ => id
  have left := List.Forall₂.flip ((List.forall₂_and_left _ _).mpr ⟨among, each⟩)
  refine forall₂_through left each' fun v item v' one one' => ?_
  obtain ⟨member, denotes⟩ := one
  cases item with
  | plain w =>
      cases denotes
      cases one'
      exact .plain (Segment.not_handle parsed member)
  | routine number =>
      obtain ⟨c, r, rfl, entry, stored⟩ := denotes
      obtain ⟨c', r', rfl, entry', stored'⟩ := one'
      refine .routine ?_ ?_ ⟨number, entry, entry'⟩
      · rw [Heap.callable, stored, Option.getD_some]
      · rw [Heap.callable, stored', Option.getD_some]
  | array number =>
      obtain ⟨a, rfl, entry⟩ := denotes
      obtain ⟨a', rfl, entry'⟩ := one'
      exact .array ⟨number, entry, entry'⟩

/-- Two routines that a record denotes are alike. -/
theorem RoutineDenotes.same {record : RoutineRecord} {r r' : RoutineId}
    (denotes : RoutineDenotes charset routines arrays h record r)
    (denotes' : RoutineDenotes charset routines' arrays' h' record r')
    : (pairing routines routines' arrays arrays').SameRoutine h h' (h.routine r) (h'.routine r') := by
  obtain ⟨code, items, values, bytes, parsed, stored, each⟩ := denotes
  obtain ⟨code', items', values', bytes', parsed', stored', each'⟩ := denotes'
  have sameCode : code' = code :=
    Array.toList_inj.mp (flatMap_toBytes_injective (bytes'.symm.trans bytes))
  have result : h.routine r = record.compile code values := by
    rw [Heap.routine, stored, Option.getD_some]
  have result' : h'.routine r' = record.compile code values' := by
    rw [Heap.routine, stored', Option.getD_some, sameCode]
  rw [result, result']
  exact ⟨rfl, segment_values parsed parsed' each each'⟩

/-- Two arrays that a record denotes are alike. -/
theorem ArrayDenotes.same {record : ArrayRecord} {a a' : ArrayId}
    (denotes : ArrayDenotes charset routines arrays h record a)
    (denotes' : ArrayDenotes charset routines' arrays' h' record a')
    : (pairing routines routines' arrays arrays').SameGrid h h' (h.grid a) (h'.grid a') := by
  obtain ⟨items, values, parsed, filled, each⟩ := denotes
  obtain ⟨items', values', parsed', filled', each'⟩ := denotes'
  rw [Heap.grid, filled, Option.getD_some, Heap.grid, filled', Option.getD_some]
  exact ⟨rfl, segment_values parsed parsed' each each'⟩

theorem FrameDenotes.same {record : FrameRecord} {f f' : Frame}
    (denotes : FrameDenotes charset routines arrays h record f)
    (denotes' : FrameDenotes charset routines' arrays' h' record f')
    : (pairing routines routines' arrays arrays').Frames h h' f f' := by
  obtain ⟨r, items, values, entry, parsed, each, rfl⟩ := denotes
  obtain ⟨r', items', values', entry', parsed', each', rfl⟩ := denotes'
  exact ⟨rfl, ⟨_, entry, entry'⟩, segment_values parsed parsed' each each'⟩

/-- Two processes that a record denotes are alike. -/
theorem ProcessDenotes.same {record : ProcessRecord} {p p' : Process}
    (denotes : ProcessDenotes config charset routines arrays h record p)
    (denotes' : ProcessDenotes config charset routines' arrays' h' record p')
    : (pairing routines routines' arrays arrays').Processes config h h' p p' := by
  obtain ⟨rest, ⟨items, parsed, stack⟩, frames⟩ := denotes
  obtain ⟨rest', ⟨items', parsed', stack'⟩, frames'⟩ := denotes'
  refine ⟨⟨?_, ?_⟩, ?_⟩
  · exact List.forall₂_reverse_iff.mp (segment_values parsed parsed' stack stack')
  · apply List.forall₂_reverse_iff.mp
    exact forall₂_through (List.Forall₂.flip frames) frames' fun _ _ _ => FrameDenotes.same
  · rw [rest', rest]
    rfl

section

variable {loaded loaded' : Loaded} {processes processes' : Nat → Option Process}
  (restored : Restoration config charset file h loaded routines arrays processes)
  (restored' : Restoration config charset file h' loaded' routines' arrays' processes')
include restored restored'

/-- What two loads made of the records of a file has the same shape. -/
theorem Restoration.isomorphism : (pairing routines routines' arrays arrays').Isomorphism h h' := by
  refine ⟨?_, ?_, ?_, ?_, ?_, ?_⟩
  · intro a a' paired
    obtain ⟨i, entry, entry'⟩ := paired
    obtain ⟨record, there, denotes⟩ := restored.array i a entry
    obtain ⟨record', there', denotes'⟩ := restored'.array i a' entry'
    rw [there] at there'
    cases there'
    exact denotes.same denotes'
  · intro r r' paired
    obtain ⟨i, entry, entry'⟩ := paired
    obtain ⟨record, there, denotes⟩ := restored.routine i r entry
    obtain ⟨record', there', denotes'⟩ := restored'.routine i r' entry'
    rw [there] at there'
    cases there'
    exact denotes.same denotes'
  · intro a a' b' first second
    obtain ⟨i, entry, entry'⟩ := first
    obtain ⟨j, other, other'⟩ := second
    cases restored.distinctArrays i j a entry other
    exact Option.some.inj (entry'.symm.trans other')
  · intro a b a' first second
    obtain ⟨i, entry, entry'⟩ := first
    obtain ⟨j, other, other'⟩ := second
    cases restored'.distinctArrays i j a' entry' other'
    exact Option.some.inj (entry.symm.trans other)
  · intro r r' q' first second
    obtain ⟨i, entry, entry'⟩ := first
    obtain ⟨j, other, other'⟩ := second
    cases restored.distinctRoutines i j r entry other
    exact Option.some.inj (entry'.symm.trans other')
  · intro r q r' first second
    obtain ⟨i, entry, entry'⟩ := first
    obtain ⟨j, other, other'⟩ := second
    cases restored'.distinctRoutines i j r' entry' other'
    exact Option.some.inj (entry.symm.trans other)

variable (present : ∀ key, file.Has key → Entered routines arrays processes key)
  (present' : ∀ key, file.Has key → Entered routines' arrays' processes' key)
include present present'

/-- If both loads restored every record, their routines belong together in their order. -/
theorem Restoration.sameRoutines
    : List.Forall₂ (pairing routines routines' arrays arrays').routines loaded.routines
        loaded'.routines := by
  have entries {table : Nat → Option RoutineId}
      (all : ∀ i, i < file.routines.length → (table i).isSome)
      : List.Forall₂ (fun i r => table i = some r) (List.range file.routines.length)
          ((List.range file.routines.length).filterMap table) := by
    conv => rhs; rw [← List.length_range (n := file.routines.length)]
    refine forall₂_filterMap_range fun i j there => ?_
    obtain ⟨inside, rfl⟩ := List.getElem?_eq_some_iff.mp there
    rw [List.length_range] at inside
    obtain ⟨r, entry⟩ := Option.isSome_iff_exists.mp (all i inside)
    exact ⟨r, entry, by rw [List.getElem_range, entry]⟩
  rw [restored.routinesLoaded, restored'.routinesLoaded]
  have left := entries fun i inside => present (.routine, i) inside
  have right := entries fun i inside => present' (.routine, i) inside
  exact forall₂_through (List.Forall₂.flip left) right fun _ i _ entry entry' => ⟨i, entry, entry'⟩

/-- If both loads restored every record, their processes correspond in their order. -/
theorem Restoration.sameProcesses
    : List.Forall₂ ((pairing routines routines' arrays arrays').Processes config h h')
        loaded.processes loaded'.processes :=
  forall₂_through (List.Forall₂.flip (restored.forall₂_processes present))
    (restored'.forall₂_processes present') fun _ _ _ one one' => one.same one'

end

end Restoring

-----------------------------------------------------------------------------------------
-- Strict and lenient loads
-----------------------------------------------------------------------------------------

namespace ObjectFile

/-- A file is loaded strictly exactly if none of its records is one that cannot be loaded. -/
theorem strict_iff_loadable (config : Config) (charset : Charset) (file : ObjectFile) (h : Heap)
    : (∃ result, file.load { config with loadPolicy := .strict } charset h = .ok result)
      ↔ ∀ key, ¬ file.Unloadable charset key := by
  constructor
  · intro given
    obtain ⟨⟨h', loaded⟩, done⟩ := given
    exact loadable_of_strict done
  · intro loadable
    obtain ⟨h', loaded, _, _, _, done, -⟩ := file.load_of_loadable config charset h loadable
    exact ⟨(h', loaded), done⟩

/-- With malformed records skipped, nothing is reported exactly if the file can be loaded strictly,
whatever is on the heap then. A strict load restores every record and reports nothing. The lenient
load into the same heap gives the very same, and into another one the same routines and processes, in
the same order and up to an isomorphism of their routines and arrays.
-/
theorem load_strict_iff_unreported (config : Config) (charset : Charset) (file : ObjectFile)
    (h h₀ : Heap)
    : ∃ h' loaded,
        file.load { config with loadPolicy := .skipMalformed } charset h = .ok (h', loaded)
        ∧ ((∃ result, file.load { config with loadPolicy := .strict } charset h₀ = .ok result)
          ↔ loaded.skipped = [])
        ∧ ∀ h₁ loaded₁,
            file.load { config with loadPolicy := .strict } charset h₀ = .ok (h₁, loaded₁)
            → file.load { config with loadPolicy := .skipMalformed } charset h₀ = .ok (h₁, loaded₁)
              ∧ loaded₁.skipped = []
              ∧ (∃ routines arrays processes,
                  Restoring.Restoration { config with loadPolicy := .skipMalformed } charset file h₁
                      loaded₁ routines arrays processes
                    ∧ ∀ key, file.Has key → Restoring.Entered routines arrays processes key)
              ∧ ∃ pairing : Pairing,
                  pairing.Isomorphism h₁ h'
                  ∧ List.Forall₂ pairing.routines loaded₁.routines loaded.routines
                  ∧ List.Forall₂ (pairing.Processes config h₁ h') loaded₁.processes
                      loaded.processes := by
  obtain ⟨h', loaded, routines, arrays, processes, done, restored, -, listed, entered, -⟩ :=
    file.load_skipping config charset h
  have unreported : loaded.skipped = [] ↔ ∀ key, ¬ file.Unloadable charset key := by
    rw [← List.map_eq_nil_iff (f := Skipped.key), List.eq_nil_iff_forall_not_mem]
    exact forall_congr' fun key => not_congr (listed key)
  refine ⟨h', loaded, done, (file.strict_iff_loadable config charset h₀).trans unreported.symm, ?_⟩
  intro h₁ loaded₁ strict
  have loadable := loadable_of_strict strict
  obtain ⟨_, _, routines₁, arrays₁, processes₁, again, report, restored₁, present₁⟩ :=
    file.load_of_loadable config charset h₀ loadable
  rw [strict] at again
  cases again
  have present (key : RecordKey) (has : file.Has key)
      : Restoring.Entered routines arrays processes key := by
    refine (entered key).mpr ⟨has, ?_⟩
    rw [unreported.mpr loadable]
    exact List.not_mem_nil
  refine ⟨load_lenient_of_strict strict, report, ⟨_, _, _, restored₁, present₁⟩, ?_⟩
  refine ⟨_, restored₁.isomorphism restored, restored₁.sameRoutines restored present₁ present, ?_⟩
  exact (restored₁.sameProcesses restored present₁ present).imp fun _ _ one =>
    ⟨one.contents, one.rest⟩

/-- A file of one array, which contains itself, and one routine, with the array as its literal. -/
def ringFile : ObjectFile :=
  { empty with
    arrays := [⟨[1], ⟨1, [0, 8, 0, 0, 0, 0]⟩⟩]
    routines := [{
      name := "ring", flags := 0, minArgs := 0, maxArgs := 0, localNames := [], names := [],
      code := [], literals := ⟨1, [0, 8, 0, 0, 0, 0]⟩, fileName := "", lines := [] }] }

/-- The file is loaded strictly into an empty heap, so it is loaded without a report into one with an
array.
-/
theorem ringFile_unreported
    : ∃ h₁ loaded₁ h' loaded,
        ringFile.load { loadPolicy := .strict } .utf8 .empty = .ok (h₁, loaded₁)
        ∧ ringFile.load { loadPolicy := .skipMalformed } .utf8
            { Heap.empty with arrays := #[⟨[1], #[.null]⟩] } = .ok (h', loaded)
        ∧ loaded.skipped = []
        ∧ ∃ pairing : Pairing,
            pairing.Isomorphism h₁ h'
            ∧ List.Forall₂ pairing.routines loaded₁.routines loaded.routines := by
  obtain ⟨⟨h₁, loaded₁⟩, strict⟩
      : ∃ result, ringFile.load { loadPolicy := .strict } .utf8 .empty = .ok result :=
    ⟨_, rfl⟩
  obtain ⟨h', loaded, lenient, unreported, agree⟩ :=
    load_strict_iff_unreported {} .utf8 ringFile { Heap.empty with arrays := #[⟨[1], #[.null]⟩] }
      .empty
  obtain ⟨-, -, -, pairing, iso, sameRoutines, -⟩ := agree h₁ loaded₁ strict
  exact ⟨h₁, loaded₁, h', loaded, strict, lenient, unreported.mp ⟨_, strict⟩, pairing, iso,
    sameRoutines⟩

end ObjectFile
end TaskMachine

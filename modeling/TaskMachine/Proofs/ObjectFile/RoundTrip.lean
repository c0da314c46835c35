import TaskMachine.Proofs.Heap.Isomorphism
import TaskMachine.Proofs.ObjectFile.Restoration
import TaskMachine.Proofs.ObjectFile.Stored
import TaskMachine.Proofs.ObjectFile.Strict

/-!
Storing processes and loading them again. The file numbers the stored routines and arrays one to one
and loading makes one routine and one array for each number, so the loaded processes are the stored
ones up to an isomorphism of what they lead to.
-/

namespace TaskMachine

/-- If no record of a file is one that cannot be loaded, everything is loaded, also strictly. -/
theorem ObjectFile.load_of_loadable (config : Config) (charset : Charset) (file : ObjectFile)
    (h : Heap) (loadable : ∀ key, ¬ file.Unloadable charset key)
    : ∃ h' loaded routines arrays processes,
        file.load { config with loadPolicy := .strict } charset h = .ok (h', loaded)
        ∧ loaded.skipped = []
        ∧ Restoring.Restoration { config with loadPolicy := .skipMalformed } charset file h' loaded
            routines arrays processes
        ∧ ∀ key, file.Has key → Restoring.Entered routines arrays processes key := by
  obtain ⟨settled, results, s, base, processed, length, ran⟩ := Restoring.load_processed
    { config with loadPolicy := .skipMalformed } rfl charset file h
  have restored := processed.restoration base length s.skipped.reverse
  have unlisted (key : RecordKey) : key ∉ s.listed := by
    intro listed
    exact loadable key ((processed.listed_iff base length).mp listed)
  have none : s.skipped = [] := List.map_eq_nil_iff.mp (List.eq_nil_iff_forall_not_mem.mpr unlisted)
  have report : s.skipped.reverse = [] := by rw [none, List.reverse_nil]
  refine ⟨s.heap, _, s.routineAt, s.arrayAt, fun i => results[i]?.join, ?_, report, restored, ?_⟩
  · apply load_strict_of_lenient _ report
    rw [ObjectFile.load, ran]
  · intro key present
    exact (processed.entered_iff base length).mpr ⟨present, unlisted key⟩

-----------------------------------------------------------------------------------------
-- Lists
-----------------------------------------------------------------------------------------

/-- Lists that are related through a third one are related. -/
theorem forall₂_through {α β γ : Type} {R : α → β → Prop} {S : β → γ → Prop} {T : α → γ → Prop}
    {left : List α} {middle : List β} {right : List γ} (first : List.Forall₂ R left middle)
    (next : List.Forall₂ S middle right) (both : ∀ a b c, R a b → S b c → T a c)
    : List.Forall₂ T left right := by
  induction first generalizing right with
  | nil =>
      cases next
      exact .nil
  | cons one _ ih =>
      cases next with
      | cons one' others => exact .cons (both _ _ _ one one') (ih others)

/-- A table with an entry for each record lists the entries in the order of the records. -/
theorem forall₂_filterMap_range {α β : Type} {R : α → β → Prop} {records : List α}
    {table : Nat → Option β}
    (entries : ∀ i record, records[i]? = some record → ∃ b, table i = some b ∧ R record b)
    : List.Forall₂ R records ((List.range records.length).filterMap table) := by
  induction records generalizing table with
  | nil => exact .nil
  | cons record records ih =>
      obtain ⟨b, entry, one⟩ := entries 0 record rfl
      rw [List.length_cons, List.range_succ_eq_map, List.filterMap_cons_some entry,
        List.filterMap_map]
      exact .cons one (ih fun i other there => entries (i + 1) other there)

/-- If every record was restored, the loaded processes are those of the records, in their order. -/
theorem Restoring.Restoration.forall₂_processes {config : Config} {charset : Charset}
    {file : ObjectFile} {h : Heap} {loaded : Loaded} {routines : Nat → Option RoutineId}
    {arrays : Nat → Option ArrayId} {processes : Nat → Option Process}
    (restored : Restoration config charset file h loaded routines arrays processes)
    (present : ∀ key, file.Has key → Entered routines arrays processes key)
    : List.Forall₂ (ProcessDenotes config charset routines arrays h) file.processes
        loaded.processes := by
  rw [restored.processesLoaded]
  apply forall₂_filterMap_range
  intro i record there
  have inside := (List.getElem?_eq_some_iff.mp there).1
  obtain ⟨p, entry⟩ := Option.isSome_iff_exists.mp (present (.process, i) inside)
  obtain ⟨record', there', denotes⟩ := restored.process i p entry
  rw [there] at there'
  cases there'
  exact ⟨p, entry, denotes⟩

-----------------------------------------------------------------------------------------
-- What belongs together
-----------------------------------------------------------------------------------------

namespace Writer

/-- Routines and arrays belong together if one was stored with the number that the other one was
loaded for.
-/
def pairing (w : Writer) (routines : Nat → Option RoutineId) (arrays : Nat → Option ArrayId)
    : Pairing where
  arrays a a' := ∃ n, numberOf w.arrayIds a = some n ∧ arrays n = some a'
  routines r r' := ∃ n, numberOf w.routineIds r = some n ∧ routines n = some r'

/-- The record of a routine is compiled to the routine with its numbers of arguments in 16 bits and the
given literals.
-/
theorem compile_routineRecord {r : Routine} (sound : r.Sound) (literals : Segment)
    (values : List Value)
    : (routineRecord r literals).compile r.code values
      = { r.narrowed with literals := values.toArray } := by
  have lines : (r.lines.toList.map fun mark =>
      ((UInt32.ofNat mark.1).toNat, (UInt32.ofNat mark.2).toNat)) = r.lines.toList := by
    conv => rhs; rw [← List.map_id r.lines.toList]
    apply List.map_congr_left
    intro mark member
    obtain ⟨start, line⟩ := sound.lines mark (Array.mem_toList_iff.mp member)
    rw [UInt32.toNat_ofNat_small start, UInt32.toNat_ofNat_small line]
    rfl
  simp only [RoutineRecord.compile, routineRecord, flags_procedure, flags_varargs,
    UInt16.toNat_ofNat', Array.toArray_toList, List.map_map, Function.comp_def, lines]
  rfl

section

variable {h h' : Heap} {ps : List Process} {w : Writer} {routines : Nat → Option RoutineId}
  {arrays : Nat → Option ArrayId} (stored : Stored h ps w)
include stored

/-- The value that is loaded for an item corresponds to the one that was stored as the item. -/
theorem Stored.values_of_denotes {v v' : Value} {item : Item}
    (coded : Coded (numberOf w.routineIds) (numberOf w.arrayIds) h v item)
    (denotes : item.Denotes routines arrays h' v')
    : (w.pairing routines arrays).Values h h' v v' := by
  cases coded with
  | plain standsAlone =>
      cases denotes
      exact .plain standsAlone
  | routine direct numbered =>
      obtain ⟨c', r', rfl, entry, there⟩ := denotes
      rw [stored.routine_small numbered] at entry
      refine .routine direct ?_ ⟨_, numbered, entry⟩
      rw [Heap.callable, there, Option.getD_some]
  | array numbered =>
      obtain ⟨a', rfl, entry⟩ := denotes
      rw [stored.array_small numbered] at entry
      exact .array ⟨_, numbered, entry⟩

theorem Stored.segment_values {segment : Segment} {values values' : List Value} {items : List Item}
    (codes : segment.Codes (numberOf w.routineIds) (numberOf w.arrayIds) h values)
    (parsed : segment.items? .utf8 = some items)
    (each : List.Forall₂ (Item.Denotes routines arrays h') items values')
    : List.Forall₂ ((w.pairing routines arrays).Values h h') values values' := by
  obtain ⟨items', parsed', coded⟩ := codes
  rw [parsed] at parsed'
  cases parsed'
  exact forall₂_through coded each fun _ _ _ => stored.values_of_denotes

/-- What a stored routine is compiled to again is the same but for its literals. -/
theorem Stored.compile {r : RoutineId} (called : h.Called ps r) (literals : Segment)
    (values : List Value)
    : (routineRecord (h.routine r) literals).compile (h.routine r).code values
      = { h.routine r with literals := values.toArray } := by
  have sound := stored.regular.routines r called
  rw [compile_routineRecord sound, sound.narrowed_eq (stored.restorable.args r called)]

variable {config : Config} {loaded : Loaded} {processes : Nat → Option Process}
  (restored : Restoring.Restoration config .utf8 w.file h' loaded routines arrays processes)
include restored

/-- A routine and the one that its record is loaded as are the same. -/
theorem Stored.sameRoutine {r r' : RoutineId} (paired : (w.pairing routines arrays).routines r r')
    : (w.pairing routines arrays).SameRoutine h h' (h.routine r) (h'.routine r') := by
  obtain ⟨n, numbered, entry⟩ := paired
  obtain ⟨called, literals, found, codes, -⟩ := stored.sound.routine r n numbered
  obtain ⟨record, there, code, items, values, bytes, parsed, compiled, each⟩ :=
    restored.routine n r' entry
  rw [found] at there
  cases there
  have same : code = (h.routine r).code :=
    Array.toList_inj.mp (Restoring.flatMap_toBytes_injective bytes.symm)
  have result : h'.routine r' = { h.routine r with literals := values.toArray } := by
    rw [Heap.routine, compiled, Option.getD_some, same, stored.compile called]
  refine ⟨by rw [result], ?_⟩
  rw [result]
  exact stored.segment_values codes parsed each

/-- An array and the one that its record is loaded as are the same. -/
theorem Stored.sameGrid {a a' : ArrayId} (paired : (w.pairing routines arrays).arrays a a')
    : (w.pairing routines arrays).SameGrid h h' (h.grid a) (h'.grid a') := by
  obtain ⟨n, numbered, entry⟩ := paired
  obtain ⟨live, elements, found, complete⟩ := stored.sound.array a n numbered
  obtain ⟨record, there, items, values, parsed, filled, each⟩ := restored.array n a' entry
  rw [found] at there
  cases there
  have result : h'.grid a' = ⟨(h.grid a).dims, values.toArray⟩ := by
    rw [Heap.grid, filled, Option.getD_some, map_toNat_ofNat (stored.restorable.dims a live)]
  rw [result]
  exact ⟨rfl, stored.segment_values (complete List.not_mem_nil) parsed each⟩

/-- What was stored and what was loaded have the same shape. -/
theorem Stored.isomorphism : (w.pairing routines arrays).Isomorphism h h' := by
  have arrayIds := stored.sound.arrayIds
  have routineIds := stored.sound.routineIds
  refine ⟨fun _ _ => stored.sameGrid restored, fun _ _ => stored.sameRoutine restored, ?_, ?_, ?_, ?_⟩
  · intro a a' b' first second
    obtain ⟨n, numbered, entry⟩ := first
    obtain ⟨m, numbered', entry'⟩ := second
    rw [numbered] at numbered'
    cases numbered'
    rw [entry] at entry'
    exact Option.some.inj entry'
  · intro a b a' first second
    obtain ⟨n, numbered, entry⟩ := first
    obtain ⟨m, numbered', entry'⟩ := second
    have same := restored.distinctArrays n m a' entry entry'
    subst same
    exact arrayIds.once a b n numbered numbered'
  · intro r r' q' first second
    obtain ⟨n, numbered, entry⟩ := first
    obtain ⟨m, numbered', entry'⟩ := second
    rw [numbered] at numbered'
    cases numbered'
    rw [entry] at entry'
    exact Option.some.inj entry'
  · intro r q r' first second
    obtain ⟨n, numbered, entry⟩ := first
    obtain ⟨m, numbered', entry'⟩ := second
    have same := restored.distinctRoutines n m r' entry entry'
    subst same
    exact routineIds.once r q n numbered numbered'

-----------------------------------------------------------------------------------------
-- Processes
-----------------------------------------------------------------------------------------

omit restored in
/-- A loaded call is the stored one. -/
theorem Stored.sameFrame {p : Process} (among : p ∈ ps) {f f' : Frame} (active : f ∈ p.frames)
    {record : FrameRecord} (one : FrameStored h w f record)
    (denotes : Restoring.FrameDenotes .utf8 routines arrays h' record f')
    : (w.pairing routines arrays).Frames h h' f f' := by
  obtain ⟨number, locals, numbered, codes, rfl⟩ := one
  obtain ⟨r', items, values, entry, parsed, each, rfl⟩ := denotes
  rw [stored.routine_small numbered] at entry
  refine ⟨?_, ⟨number, numbered, entry⟩, stored.segment_values codes parsed each⟩
  have few := stored.countable.stack p among
  have called := Heap.called_of_active (h := h) among active
  have short := stored.countable.code _ called
  have formed := ((stored.regular.processes p among).1).frames f active
  have pc := formed.pc_le
  have base := formed.base_le
  have handlers : f.handlers.reverse.map (fun handler =>
      (⟨(UInt32.ofNat handler.target).toNat, (UInt32.ofNat handler.stackDepth).toNat⟩ : Handler))
      = f.handlers.reverse := by
    conv => rhs; rw [← List.map_id f.handlers.reverse]
    apply List.map_congr_left
    intro handler member
    have installed := List.mem_reverse.mp member
    obtain ⟨target, -⟩ := formed.handlers handler installed
    have below := stored.restorable.handlers p among f active handler installed
    rw [UInt32.toNat_ofNat_small (by omega), UInt32.toNat_ofNat_small (by omega)]
    rfl
  simp only [FrameRecord.restore, List.map_map, Function.comp_def, handlers, List.reverse_reverse]
  rw [UInt32.toNat_ofNat_small (by omega), UInt32.toNat_ofNat_small (by omega)]

omit restored in
/-- A loaded process is the stored one. -/
theorem Stored.sameProcess {p p' : Process} (among : p ∈ ps) {record : ProcessRecord}
    (one : ProcessStored h w p record)
    (denotes : Restoring.ProcessDenotes config .utf8 routines arrays h' record p')
    : (w.pairing routines arrays).Processes config h h' p p' := by
  obtain ⟨stack, frames, codes, each, rfl⟩ := one
  obtain ⟨rest, ⟨items, parsed, values⟩, calls⟩ := denotes
  obtain ⟨-, keyed⟩ := stored.regular.processes p among
  refine ⟨⟨?_, ?_⟩, ?_⟩
  · exact List.forall₂_reverse_iff.mp (stored.segment_values codes parsed values)
  · have active : ∀ f ∈ p.frames.reverse, f ∈ p.frames := fun f => List.mem_reverse.mp
    have eachActive := (List.forall₂_and_left _ _).mpr ⟨active, each⟩
    apply List.forall₂_reverse_iff.mp
    exact forall₂_through eachActive calls fun f record f' one => stored.sameFrame among one.1 one.2
  · rw [rest]
    simp only [keyed.waitingFor_eq]

/-- The loaded processes are the stored ones, in their order. -/
theorem Stored.sameProcesses
    (present : ∀ key, w.file.Has key → Restoring.Entered routines arrays processes key)
    : List.Forall₂ ((w.pairing routines arrays).Processes config h h') ps loaded.processes := by
  have denotes := restored.forall₂_processes present
  have among : ∀ p ∈ ps, p ∈ ps := fun _ => id
  have each := (List.forall₂_and_left _ _).mpr ⟨among, stored.processes⟩
  exact forall₂_through each denotes fun p record p' one => stored.sameProcess one.1 one.2

end

/-- Processes that have all been accepted by a new writer are loaded from its file again, strictly and
with nothing to report. What they lead to has the same shape as before, and nothing is added to it.
-/
theorem load_stored_processes (config : Config) {h : Heap} {ps : List Process} {w : Writer} {u : Unit}
    (restorable : Restorable h ps) (regular : Regular h ps) (countable : Countable h ps w.file)
    (accepted : (ps.forM (addProcess .utf8 h)).run new = .ok u w) (h₀ : Heap)
    : ∃ h' loaded pairing,
        w.file.load { config with loadPolicy := .strict } .utf8 h₀ = .ok (h', loaded)
        ∧ loaded.skipped = []
        ∧ Pairing.Isomorphism pairing h h'
        ∧ List.Forall₂ (pairing.Processes config h h') ps loaded.processes
        ∧ (∀ v, h.Live ps v → ∃ v', h'.Live loaded.processes v' ∧ pairing.Values h h' v v')
        ∧ (∀ v', h'.Live loaded.processes v' → ∃ v, h.Live ps v ∧ pairing.Values h h' v v') := by
  have stored := stored_of_addProcesses restorable regular countable accepted
  obtain ⟨h', loaded, routines, arrays, processes, done, report, restored, present⟩ :=
    w.file.load_of_loadable config .utf8 h₀ fun _ => stored.loadable
  have iso := stored.isomorphism restored
  have same : List.Forall₂ ((w.pairing routines arrays).Processes config h h') ps loaded.processes :=
    (stored.sameProcesses restored present).imp fun _ _ one => ⟨one.contents, one.rest⟩
  have contents := same.imp fun _ _ one => one.contents
  refine ⟨h', loaded, w.pairing routines arrays, done, report, iso, same, ?_, ?_⟩
  · exact fun v live => iso.live contents live
  · intro v' live
    have swapped := contents.imp fun _ _ one => one.swap
    obtain ⟨v, live', same⟩ := iso.swap.live (List.Forall₂.flip swapped) live
    exact ⟨v, live', same.swap⟩

/-- A heap with an array that contains itself and a routine with that array as its literal. -/
def ringHeap : Heap where
  arrays := #[⟨[1], #[.array ⟨0⟩]⟩]
  callables := #[]
  objects := #[]
  routines := #[{
    name := "wait", isProcedure := true, isVarargs := false, minArgs := 0, maxArgs := 0,
    localNames := #[], names := #[], code := #[], literals := #[.array ⟨0⟩], fileName := "",
    lines := #[] }]

/-- A process that waits with the array on its stack, in a call of the routine with a handler. -/
def ringProcess : Process :=
  { Process.new {} 1 "ring" with
    state := .waiting
    waitingFor := some "key"
    stack := [.array ⟨0⟩]
    frames := [{
      routine := ⟨0⟩, pc := 0, locals := #[.array ⟨0⟩], handlers := [⟨0, 1⟩], wantResult := false,
      stackBase := 0 }] }

private theorem ring_live {v : Value} (live : ringHeap.Live [ringProcess] v) : v = .array ⟨0⟩ := by
  apply live.induct (P := fun v => v = .array ⟨0⟩)
  · intro v held
    simpa [ringProcess, ringHeap, Process.Holds, Heap.routine] using held
  · intro v w same leads
    subst same
    cases leads with
    | cell held => simpa [ringHeap, Heap.grid] using held

private theorem ring_called {r : RoutineId} (called : ringHeap.Called [ringProcess] r) : r = ⟨0⟩ := by
  rcases called with ⟨p, among, f, active, rfl⟩ | ⟨c, live, -⟩
  · simp only [List.mem_singleton] at among
    subst among
    simp only [ringProcess, List.mem_singleton] at active
    rw [active]
  · cases ring_live live

/-- The ring can be restored, as its one value is an array. -/
theorem ring_restorable : Restorable ringHeap [ringProcess] := by
  refine ⟨?_, ?_, ?_, ?_, ?_, ?_, ?_⟩
  · intro v live
    rw [ring_live live]
    trivial
  · intro r called
    rw [ring_called called]
    simp [ringHeap, Heap.routine]
  · intro r called
    rw [ring_called called]
    simp [ringHeap, Heap.routine]
  · intro a live
    cases ring_live live
    simp [ringHeap, Heap.grid]
  · intro a live
    cases ring_live live
    simp [ringHeap, Heap.grid, Grid.maxCells]
  · simp [ringProcess]
  · simp [ringProcess]

private theorem ring_regular : Regular ringHeap [ringProcess] := by
  refine ⟨?_, ?_, ?_⟩
  · intro a live
    cases ring_live live
    exact ⟨by simp [ringHeap, Heap.grid], rfl, .inl rfl⟩
  · intro r called
    rw [ring_called called]
    refine ⟨?_, ?_, ?_, ?_, ?_⟩ <;> simp [ringHeap, Heap.routine, Routine.numLocals]
  · simp only [List.forall_mem_singleton]
    refine ⟨⟨?_, by simp [ringProcess]⟩, by simp [Process.Keyed, ringProcess]⟩
    simp only [ringProcess, List.forall_mem_singleton]
    refine ⟨?_, ?_, ?_, ?_⟩ <;> simp [ringHeap, Heap.routine, Routine.numLocals]

/-- The array is loaded as one that contains itself. -/
theorem ring_loaded
    : ∃ w h' loaded p' a',
        ([ringProcess].forM (addProcess .utf8 ringHeap)).run new = .ok () w
        ∧ w.file.load { loadPolicy := .strict } .utf8 ringHeap = .ok (h', loaded)
        ∧ loaded.processes = [p'] ∧ p'.waitingFor = some "key"
        ∧ p'.stack = [.array a'] ∧ (h'.grid a').cells = #[.array a'] := by
  obtain ⟨w, accepted, routines, arrays⟩
      : ∃ w, ([ringProcess].forM (addProcess .utf8 ringHeap)).run new = .ok () w
        ∧ w.file.routines.length = 1 ∧ w.file.arrays.length = 1 :=
    ⟨_, rfl, rfl, rfl⟩
  have countable : Countable ringHeap [ringProcess] w.file := by
    refine ⟨?_, ?_, ?_, ?_, ?_⟩
    · simp [ringProcess]
    · simp [ringProcess]
    · intro r called
      rw [ring_called called]
      simp [ringHeap, Heap.routine]
    · simp [routines]
    · simp [arrays]
  obtain ⟨h', loaded, pairing, done, -, iso, same, -, -⟩ :=
    load_stored_processes {} ring_restorable ring_regular countable accepted ringHeap
  obtain ⟨p', others, ⟨contents, rest⟩, last, processes⟩ := List.forall₂_cons_left_iff.mp same
  cases last
  obtain ⟨v, others, onStack, last, stack⟩ := List.forall₂_cons_left_iff.mp contents.stack
  cases last
  cases onStack with
  | plain standsAlone => exact absurd trivial standsAlone
  | @array _ a' paired =>
      obtain ⟨v, others, inCell, last, cells⟩ :=
        List.forall₂_cons_left_iff.mp (iso.grid _ _ paired).cells
      cases last
      cases inCell with
      | plain standsAlone => exact absurd trivial standsAlone
      | @array _ b' paired' =>
          have back := iso.arrayOnce _ _ _ paired' paired
          subst back
          refine ⟨w, h', loaded, p', b', accepted, done, processes, ?_, stack, ?_⟩
          · rw [rest]
            rfl
          · exact Array.toList_inj.mp cells

end Writer
end TaskMachine

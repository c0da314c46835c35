import TaskMachine.Proofs.Heap.Reach
import TaskMachine.Proofs.ObjectFile.Numbers

/-!
Writing object files. Whatever is stored without a fault leaves all records sound: values, then
routines and arrays to any depth, then whole processes one after another.
-/

namespace TaskMachine

/-- The values and the routines of a kind lead only to such values and routines. The values can be
stored, and there are never more of them together than a segment can count.
-/
structure Heap.Scope (h : Heap) (P : Value → Prop) (R : RoutineId → Prop) : Prop where
  storable : ∀ v, P v → v.Storable
  called : ∀ c r, P (.callable c) → h.callable c = .direct (.subroutine r) → R r
  cells
    : ∀ a,
        P (.array a)
        → (h.grid a).cells.size < 0x100000000 ∧ ∀ v ∈ (h.grid a).cells.toList, P v
  literals
    : ∀ r,
        R r
        → (h.routine r).literals.size < 0x100000000 ∧ ∀ v ∈ (h.routine r).literals.toList, P v

namespace Writer

variable {h : Heap} {P : Value → Prop} {R : RoutineId → Prop} {pending : List Nat}
  {w w' : Writer} {numbering : Numbering Writer}

-----------------------------------------------------------------------------------------
-- The steps of storing routines and arrays
-----------------------------------------------------------------------------------------

/-- The writer while the literals of a routine are being stored. -/
def withBusy (w : Writer) (inProgress : List RoutineId) : Writer :=
  { w with inProgress }

/-- Storing a routine that has no number stores its literals while it is in progress. -/
theorem routine_eq_ok {r : RoutineId} {n : Nat} (new : numberOf w.routineIds r = none)
    (ran : (routine .utf8 h numbering r).run w = .ok n w')
    : r ∉ w.inProgress
      ∧ ∃ literals w₁,
          (segment .utf8 h numbering (h.routine r).literals.toList).run
              (w.withBusy (r :: w.inProgress)) = .ok literals w₁
          ∧ n = w₁.file.routines.length
          ∧ w' = (w₁.withBusy (w₁.inProgress.erase r)).withRoutine r
              (routineRecord (h.routine r) literals) := by
  have unknown : w.routineIds.find? (·.1 == r) = none := Option.map_eq_none_iff.mp new
  simp only [routine, EStateM.run_bind, EStateM.run_get, unknown] at ran
  by_cases busy : r ∈ w.inProgress
  · have found : w.inProgress.contains r = true := List.contains_iff_mem.mpr busy
    simp only [found, if_true] at ran
    cases ran
  · have idle : w.inProgress.contains r = false := by simpa using busy
    simp only [idle, Bool.false_eq_true, if_false, EStateM.run_bind, EStateM.run_set,
      EStateM.run_get] at ran
    refine ⟨busy, ?_⟩
    split at ran
    · rename_i literals w₁ stored
      cases ran
      exact ⟨literals, w₁, stored, rfl, rfl⟩
    · cases ran

/-- Storing an array that has no number enters it, stores its elements, and fills it with them. -/
theorem array_eq_ok {a : ArrayId} {n : Nat} (new : numberOf w.arrayIds a = none)
    (ran : (array .utf8 h numbering a).run w = .ok n w')
    : ∃ elements w₁,
        (segment .utf8 h numbering (h.grid a).cells.toList).run
            (w.withArray a ⟨(h.grid a).dims.map UInt32.ofNat, ⟨0, []⟩⟩) = .ok elements w₁
        ∧ n = w.file.arrays.length ∧ w' = w₁.withElements n elements := by
  have unknown : w.arrayIds.find? (·.1 == a) = none := Option.map_eq_none_iff.mp new
  obtain ⟨_, _, got, ran⟩ := run_bind_eq_ok.mp ran
  cases got
  rw [unknown] at ran
  obtain ⟨number, w₀, entered, ran⟩ := run_bind_eq_ok.mp ran
  cases entered
  obtain ⟨elements, w₁, stored, ran⟩ := run_bind_eq_ok.mp ran
  obtain ⟨_, w₂, filled, ran⟩ := run_bind_eq_ok.mp ran
  cases filled
  cases ran
  exact ⟨elements, w₁, stored, rfl, rfl⟩

-----------------------------------------------------------------------------------------
-- Values
-----------------------------------------------------------------------------------------

/-- The numbering stores what has no number yet and keeps all records sound. -/
structure Numbers (h : Heap) (P : Value → Prop) (R : RoutineId → Prop)
    (numbering : Numbering Writer) : Prop where
  routine
    : ∀ pending w r n w',
        R r
        → Sound h P R pending w
        → (numbering.routine r).run w = .ok n w'
        → Sound h P R pending w' ∧ Grows w w' ∧ numberOf w'.routineIds r = some n
  array
    : ∀ pending w a n w',
        P (.array a)
        → Sound h P R pending w
        → (numbering.array a).run w = .ok n w'
        → Sound h P R pending w' ∧ Grows w w' ∧ numberOf w'.arrayIds a = some n

section

variable (scope : h.Scope P R) (numbers : Numbers h P R numbering)
include scope numbers

private theorem sound_of_stores {v : Value} {item : Item} (stores : Stores h numbering w v item w')
    (among : P v) (sound : Sound h P R pending w)
    : Sound h P R pending w' ∧ Grows w w'
      ∧ Coded (numberOf w'.routineIds) (numberOf w'.arrayIds) h v item := by
  cases stores with
  | plain standsAlone => exact ⟨sound, .refl w, .plain standsAlone⟩
  | routine direct numbered =>
      obtain ⟨sound', grows, found⟩ :=
        numbers.routine pending w _ _ w' (scope.called _ _ among direct) sound numbered
      exact ⟨sound', grows, .routine direct found⟩
  | array numbered =>
      obtain ⟨sound', grows, found⟩ := numbers.array pending w _ _ w' among sound numbered
      exact ⟨sound', grows, .array found⟩

/-- Storing values one after another keeps all records sound, by induction on the values. -/
theorem sound_of_storesAll {values : List Value} {items : List Item}
    (stores : StoresAll h numbering w values items w') (among : ∀ v ∈ values, P v)
    (sound : Sound h P R pending w)
    : Sound h P R pending w' ∧ Grows w w'
      ∧ List.Forall₂ (Coded (numberOf w'.routineIds) (numberOf w'.arrayIds) h) values items := by
  induction stores with
  | nil => exact ⟨sound, .refl _, .nil⟩
  | cons first others ih =>
      obtain ⟨sound₁, grows₁, coded⟩ :=
        sound_of_stores scope numbers first (among _ List.mem_cons_self) sound
      obtain ⟨sound₂, grows₂, codedAll⟩ :=
        ih (fun v member => among v (List.mem_cons_of_mem _ member)) sound₁
      exact ⟨sound₂, grows₁.trans grows₂,
        .cons (coded.mono grows₂.routineIds grows₂.arrayIds) codedAll⟩

/-- A stored segment holds the items of its values. -/
theorem sound_of_segment {values : List Value} {stored : Segment} (among : ∀ v ∈ values, P v)
    (few : values.length < 0x100000000) (sound : Sound h P R pending w)
    (ran : (segment .utf8 h numbering values).run w = .ok stored w')
    : Sound h P R pending w' ∧ Grows w w'
      ∧ stored.Codes (numberOf w'.routineIds) (numberOf w'.arrayIds) h values := by
  obtain ⟨bytes, w₁, saved, done⟩ := run_bind_eq_ok.mp ran
  cases done
  obtain ⟨items, stores, parsed⟩ :=
    storesAll_of_saveSegment (fun v member => scope.storable v (among v member)) saved
  obtain ⟨sound', grows, coded⟩ := sound_of_storesAll scope numbers stores among sound
  have count : (UInt32.ofNat values.length).toNat = values.length := by
    rw [UInt32.toNat_ofNat', Nat.mod_eq_of_lt few]
  refine ⟨sound', grows, items, ?_, coded⟩
  simp only [Segment.items?, count, parsed]

-----------------------------------------------------------------------------------------
-- Routines and arrays
-----------------------------------------------------------------------------------------

/-- Storing a routine stores its literals first, and the routine is none of those stored with them. -/
theorem sound_of_routine {r : RoutineId} {n : Nat} (among : R r) (sound : Sound h P R pending w)
    (ran : (routine .utf8 h numbering r).run w = .ok n w')
    : Sound h P R pending w' ∧ Grows w w' ∧ numberOf w'.routineIds r = some n := by
  cases known : numberOf w.routineIds r with
  | some number =>
      obtain ⟨entry, found, rfl⟩ := Option.map_eq_some_iff.mp known
      simp only [routine, EStateM.run_bind, EStateM.run_get, found] at ran
      cases ran
      exact ⟨sound, .refl w, known⟩
  | none =>
      obtain ⟨idle, literals, w₁, stored, rfl, rfl⟩ := routine_eq_ok known ran
      obtain ⟨few, among'⟩ := scope.literals r among
      have busy : Sound h P R pending (w.withBusy (r :: w.inProgress)) := { sound with }
      obtain ⟨sound₁, grows, codes⟩ := sound_of_segment scope numbers among'
        (by rwa [Array.length_toList]) busy stored
      have new : numberOf w₁.routineIds r = none := by
        rw [grows.kept r List.mem_cons_self]
        exact known
      have after : w₁.inProgress.erase r = w.inProgress := by
        rw [grows.inProgress]
        exact List.erase_cons_head r w.inProgress
      rw [after]
      have grown : Grows w (w₁.withBusy w.inProgress) :=
        { grows with
          inProgress := rfl
          kept := fun q member => grows.kept q (List.mem_cons_of_mem _ member) }
      have last : Sound h P R pending (w₁.withBusy w.inProgress) := { sound₁ with }
      refine ⟨last.withRoutine new idle among codes, ?_, ?_⟩
      · exact grown.trans (grows_withRoutine _ new idle)
      · exact (numberOf_cons ..).trans (if_pos rfl)

/-- Storing an array enters it before its elements, which may refer to it. -/
theorem sound_of_array {a : ArrayId} {n : Nat} (among : P (.array a))
    (sound : Sound h P R pending w) (ran : (array .utf8 h numbering a).run w = .ok n w')
    : Sound h P R pending w' ∧ Grows w w' ∧ numberOf w'.arrayIds a = some n := by
  cases known : numberOf w.arrayIds a with
  | some number =>
      obtain ⟨entry, found, rfl⟩ := Option.map_eq_some_iff.mp known
      simp only [array, EStateM.run_bind, EStateM.run_get, found] at ran
      cases ran
      exact ⟨sound, .refl w, known⟩
  | none =>
      obtain ⟨elements, w₁, stored, rfl, rfl⟩ := array_eq_ok known ran
      obtain ⟨few, among'⟩ := scope.cells a among
      obtain ⟨sound₁, grows, codes⟩ := sound_of_segment scope numbers among'
        (by rwa [Array.length_toList]) (sound.withArray known among ⟨0, []⟩) stored
      have entered := grows_withArray (w := w) ⟨(h.grid a).dims.map UInt32.ofNat, ⟨0, []⟩⟩ known
      have numbered : numberOf w₁.arrayIds a = some w.file.arrays.length :=
        grows.arrayIds _ _ ((numberOf_cons ..).trans (if_pos rfl))
      have grown := entered.trans grows
      refine ⟨sound₁.withElements numbered codes, { grown with arrays := ?_ }, numbered⟩
      intro m record found
      have before := (List.getElem?_eq_some_iff.mp found).1
      rw [withElements, List.getElem?_modify_ne _ _ (Nat.ne_of_gt before)]
      exact grown.arrays m record found

end

variable (scope : h.Scope P R)
include scope

/-- The numbering of any depth keeps all records sound, by induction on the depth. -/
theorem numbers_numberingTo (depth : Nat) : Numbers h P R (numberingTo .utf8 h depth) := by
  induction depth with
  | zero =>
      constructor
      · intro pending w r n w' _ _ ran
        cases ran
      · intro pending w a n w' _ _ ran
        cases ran
  | succ depth ih =>
      constructor
      · intro pending w r n w' among sound ran
        exact sound_of_routine scope ih among sound ran
      · intro pending w a n w' among sound ran
        exact sound_of_array scope ih among sound ran

-----------------------------------------------------------------------------------------
-- Processes
-----------------------------------------------------------------------------------------

/-- The record is that of the call. -/
def FrameStored (h : Heap) (w : Writer) (f : Frame) (record : FrameRecord) : Prop :=
  ∃ number locals,
    numberOf w.routineIds f.routine = some number
    ∧ locals.Codes (numberOf w.routineIds) (numberOf w.arrayIds) h f.locals.toList
    ∧ record = {
        routine := UInt32.ofNat number
        pc := UInt32.ofNat f.pc
        wantResult := f.wantResult
        stackBase := UInt32.ofNat f.stackBase
        handlers := f.handlers.reverse.map fun handler =>
          (UInt32.ofNat handler.target, UInt32.ofNat handler.stackDepth)
        locals }

/-- The record is that of the process. -/
def ProcessStored (h : Heap) (w : Writer) (p : Process) (record : ProcessRecord) : Prop :=
  ∃ stack frames,
    stack.Codes (numberOf w.routineIds) (numberOf w.arrayIds) h p.stack.reverse
    ∧ List.Forall₂ (FrameStored h w) p.frames.reverse frames
    ∧ record = {
        name := p.name, kind := p.kind, state := p.state, waitingFor := p.waitingFor, stack, frames }

omit scope in
theorem FrameStored.mono {f : Frame} {record : FrameRecord} (stored : FrameStored h w f record)
    (more : MoreNumbers w w')
    : FrameStored h w' f record := by
  obtain ⟨number, locals, numbered, codes, rfl⟩ := stored
  exact ⟨number, locals, more.routineIds _ _ numbered, codes.mono more.routineIds more.arrayIds, rfl⟩

omit scope in
theorem ProcessStored.mono {p : Process} {record : ProcessRecord} (stored : ProcessStored h w p record)
    (more : MoreNumbers w w')
    : ProcessStored h w' p record := by
  obtain ⟨stack, frames, codes, each, rfl⟩ := stored
  exact ⟨stack, frames, codes.mono more.routineIds more.arrayIds,
    each.imp fun _ _ one => one.mono more, rfl⟩

/-- The parts of a call can be stored: its routine and its local variables are in the scope. -/
def FrameIn (P : Value → Prop) (R : RoutineId → Prop) (f : Frame) : Prop :=
  R f.routine ∧ f.locals.size < 0x100000000 ∧ ∀ v ∈ f.locals.toList, P v

private theorem sound_of_frameRecord {f : Frame} {record : FrameRecord} (among : FrameIn P R f)
    (sound : Sound h P R pending w) (ran : (frameRecord .utf8 h f).run w = .ok record w')
    : Sound h P R pending w' ∧ Grows w w' ∧ FrameStored h w' f record := by
  have numbers : Numbers h P R (Writer.numbering .utf8 h) := numbers_numberingTo scope _
  obtain ⟨called, few, values⟩ := among
  obtain ⟨number, w₁, numbered, ran⟩ := run_bind_eq_ok.mp ran
  obtain ⟨locals, w₂, stored, ran⟩ := run_bind_eq_ok.mp ran
  cases ran
  obtain ⟨sound₁, grows₁, found⟩ := numbers.routine _ _ _ _ _ called sound numbered
  obtain ⟨sound₂, grows₂, codes⟩ := sound_of_segment scope numbers values
    (by rwa [Array.length_toList]) sound₁ stored
  exact ⟨sound₂, grows₁.trans grows₂, number, locals, grows₂.routineIds _ _ found, codes, rfl⟩

/-- Calls are stored one after another, by induction on the calls. -/
theorem sound_of_frameRecords {fs : List Frame} {records : List FrameRecord}
    (among : ∀ f ∈ fs, FrameIn P R f) (sound : Sound h P R pending w)
    (ran : (fs.mapM (frameRecord .utf8 h)).run w = .ok records w')
    : Sound h P R pending w' ∧ Grows w w' ∧ List.Forall₂ (FrameStored h w') fs records := by
  induction fs generalizing w records with
  | nil =>
      cases ran
      exact ⟨sound, .refl _, .nil⟩
  | cons f fs ih =>
      obtain ⟨record, w₁, others, first, next, rfl⟩ := run_mapM_cons_eq_ok.mp ran
      obtain ⟨sound₁, grows₁, stored⟩ :=
        sound_of_frameRecord scope (among f List.mem_cons_self) sound first
      obtain ⟨sound₂, grows₂, storedAll⟩ :=
        ih (fun g member => among g (List.mem_cons_of_mem _ member)) sound₁ next
      exact ⟨sound₂, grows₁.trans grows₂, .cons (stored.mono grows₂.toMoreNumbers) storedAll⟩

/-- The writer with one more process. -/
def withProcess (w : Writer) (record : ProcessRecord) : Writer :=
  { w with file := { w.file with processes := w.file.processes ++ [record] } }

/-- The parts of a process can be stored. -/
structure ProcessIn (P : Value → Prop) (R : RoutineId → Prop) (p : Process) : Prop where
  stack : p.stack.length < 0x100000000 ∧ ∀ v ∈ p.stack, P v
  frames : ∀ f ∈ p.frames, FrameIn P R f

/-- A process that is accepted is in a state to be stored, and its record is put last. -/
theorem sound_of_addProcess {p : Process} {u : Unit} (among : ProcessIn P R p)
    (sound : Sound h P R pending w) (ran : (addProcess .utf8 h p).run w = .ok u w')
    : isStorable p = true
      ∧ ∃ w₁ record,
          Sound h P R pending w₁ ∧ Grows w w₁ ∧ ProcessStored h w₁ p record
          ∧ w' = w₁.withProcess record := by
  have numbers : Numbers h P R (Writer.numbering .utf8 h) := numbers_numberingTo scope _
  obtain ⟨few, values⟩ := among.stack
  cases storable : isStorable p with
  | false =>
      simp only [addProcess, storable, Bool.not_false, if_true] at ran
      cases ran
  | true =>
      simp only [addProcess, storable, Bool.not_true, Bool.false_eq_true, if_false] at ran
      obtain ⟨stack, w₁, stored, ran⟩ := run_bind_eq_ok.mp ran
      obtain ⟨frames, w₂, storedFrames, ran⟩ := run_bind_eq_ok.mp ran
      cases ran
      obtain ⟨sound₁, grows₁, codes⟩ := sound_of_segment scope numbers
        (fun v member => values v (List.mem_reverse.mp member)) (by rwa [List.length_reverse])
        sound stored
      obtain ⟨sound₂, grows₂, each⟩ := sound_of_frameRecords scope
        (fun f member => among.frames f (List.mem_reverse.mp member)) sound₁ storedFrames
      exact ⟨rfl, w₂, _, sound₂, grows₁.trans grows₂,
        ⟨stack, frames, codes.mono grows₂.routineIds grows₂.arrayIds, each, rfl⟩, rfl⟩

/-- Processes that are all accepted are stored in their order, by induction on them. -/
theorem sound_of_addProcesses {ps : List Process} {u : Unit} (among : ∀ p ∈ ps, ProcessIn P R p)
    (sound : Sound h P R pending w) (ran : (ps.forM (addProcess .utf8 h)).run w = .ok u w')
    : Sound h P R pending w' ∧ MoreNumbers w w' ∧ (∀ p ∈ ps, isStorable p = true)
      ∧ ∃ records, w'.file.processes = w.file.processes ++ records
        ∧ List.Forall₂ (ProcessStored h w') ps records := by
  induction ps generalizing w with
  | nil =>
      cases ran
      exact ⟨sound, (Grows.refl _).toMoreNumbers, by simp, [], by simp, .nil⟩
  | cons p ps ih =>
      obtain ⟨_, w₁, first, ran⟩ := run_bind_eq_ok.mp ran
      obtain ⟨storable, w₀, record, sound₀, grows, stored, rfl⟩ :=
        sound_of_addProcess scope (among p List.mem_cons_self) sound first
      have sound₁ : Sound h P R pending (w₀.withProcess record) := { sound₀ with }
      obtain ⟨sound', more, storables, records, appended, each⟩ :=
        ih (fun q member => among q (List.mem_cons_of_mem _ member)) sound₁ ran
      have later : MoreNumbers w₀ w' := ⟨more.routineIds, more.arrayIds⟩
      refine ⟨sound', grows.toMoreNumbers.trans later, ?_, record :: records, ?_,
        .cons (stored.mono later) each⟩
      · exact List.forall_mem_cons.mpr ⟨storable, storables⟩
      · rw [appended, withProcess, grows.processes, List.append_assoc]
        rfl

omit scope in
/-- A new writer has stored nothing yet. -/
theorem sound_new (h : Heap) (P : Value → Prop) (R : RoutineId → Prop) : Sound h P R [] new := by
  refine ⟨⟨?_, ?_, ?_⟩, ⟨?_, ?_, ?_⟩, ?_, ?_⟩ <;> simp [new, ObjectFile.empty, numberOf]

end Writer
end TaskMachine

import TaskMachine.Proofs.ObjectFile.Replay
import TaskMachine.Proofs.ObjectFile.Rounding
import TaskMachine.Proofs.Process.Reachable

/-!
Storing loaded processes again. The file of processes that were stored at any time of their lives is
the file of the processes that are loaded from it, record for record: it does not depend on where
things are in the heap, and rounding floats again changes nothing.
-/

namespace TaskMachine

/-- The process of the machine is somewhere in its life. It leads to no host object, and every list of
values that it leads to can be counted in 32 bits.
-/
structure Machine.Saveable (m : Machine) : Prop where
  life : ∃ m₀, Machine.Origin m₀ ∧ Relation.ReflTransGen Machine.Event m₀ m
  objectFree : m.world.heap.ObjectFree [m.process]
  stack : m.process.stack.length < 0x100000000
  locals : ∀ f ∈ m.process.frames, f.locals.size < 0x100000000
  cells
    : ∀ a,
        m.world.heap.Live [m.process] (.array a)
        → (m.world.heap.grid a).cells.size < 0x100000000
  literals
    : ∀ r,
        m.world.heap.Called [m.process] r
        → (m.world.heap.routine r).literals.size < 0x100000000

namespace Machine

variable {m : Machine}

theorem Saveable.keyed (saveable : m.Saveable) : m.process.Keyed := by
  obtain ⟨m₀, origin, run⟩ := saveable.life
  exact keyed_of_events origin run

/-- What the rounded process leads to leads to such values and routines only. -/
theorem Saveable.scope (saveable : m.Saveable)
    : m.world.heap.rounded.Scope (m.world.heap.rounded.Live [m.process.rounded])
        (m.world.heap.rounded.Called [m.process.rounded]) where
  storable v live := Heap.storable_live_rounded saveable.objectFree live
  called c r live direct := .inr ⟨c, live, direct⟩
  cells a live := by
    refine ⟨?_, fun v member => .step live (.cell (Array.mem_toList_iff.mp member))⟩
    rw [Heap.grid_rounded, Grid.rounded, Array.size_map]
    exact saveable.cells a (Heap.live_array_rounded saveable.objectFree live)
  literals r called := by
    refine ⟨?_, fun v member => ?_⟩
    · rw [Heap.routine_rounded, Routine.rounded, Array.size_map]
      exact saveable.literals r (Heap.called_rounded saveable.objectFree called)
    · have held := Array.mem_toList_iff.mp member
      rcases called with ⟨p, among, f, active, rfl⟩ | ⟨c, live, direct⟩
      · exact Heap.live_of_holds among (.inr ⟨f, active, .inr held⟩)
      · exact .step live (.literal direct held)

/-- A machine that can be saved stores nothing beyond what is live and what is called. -/
theorem Saveable.processIn (saveable : m.Saveable)
    : Writer.ProcessIn (m.world.heap.rounded.Live [m.process.rounded])
        (m.world.heap.rounded.Called [m.process.rounded]) m.process.rounded where
  stack := by
    refine ⟨?_, fun _ held => Heap.live_of_holds List.mem_cons_self (.inl held)⟩
    rw [Process.rounded, List.length_map]
    exact saveable.stack
  frames f' active' := by
    obtain ⟨f, active, rfl⟩ := List.mem_map.mp active'
    refine ⟨Heap.called_of_active List.mem_cons_self active', ?_, fun v member => ?_⟩
    · rw [Frame.rounded, Array.size_map]
      exact saveable.locals f active
    · exact Heap.live_of_holds List.mem_cons_self
        (.inr ⟨_, active', .inl (Array.mem_toList_iff.mp member)⟩)

end Machine

namespace Writer

variable {w w₁ w' : Writer} {u : Unit}

/-- Processes of machines are stored in the states that the machines are in. -/
def addMachines (ms : List Machine) : Writing Unit :=
  ms.forM fun m => addProcess .utf8 m.world.heap m.process

/-- A process is stored by entering what it leads to and putting its record last. -/
theorem run_addProcess_eq_ok {h : Heap} {p : Process}
    (ran : (addProcess .utf8 h p).run w = .ok u w')
    : ∃ record w₁, (processRecord .utf8 h p).run w = .ok record w₁ ∧ w' = w₁.withProcess record := by
  rw [addProcess_eq] at ran
  obtain ⟨record, w₁, made, done⟩ := run_bind_eq_ok.mp ran
  cases done
  exact ⟨record, w₁, made, rfl⟩

/-- Machines only add records, one process each, by induction on them. -/
theorem moreRecords_addMachines {ms : List Machine} (ran : (addMachines ms).run w = .ok u w')
    : MoreRecords w w'
      ∧ ∃ records, w'.file.processes = w.file.processes ++ records := by
  induction ms generalizing w with
  | nil =>
      cases ran
      exact ⟨⟨fun _ _ found => found, fun _ _ found => found⟩, [], (List.append_nil _).symm⟩
  | cons m ms ih =>
      obtain ⟨_, w₁, first, ran⟩ := run_bind_eq_ok.mp ran
      obtain ⟨record, w₀, made, rfl⟩ := run_addProcess_eq_ok first
      obtain ⟨grows, -⟩ := (adds_processRecord m.process).of_ok made
      obtain ⟨more, records, appended⟩ := ih ran
      refine ⟨grows.moreRecords.trans ⟨more.routines, more.arrays⟩, record :: records, ?_⟩
      rw [appended, withProcess, grows.processes, List.append_assoc]
      rfl

section

variable {final : ObjectFile} {routines : Nat → Option RoutineId} {arrays : Nat → Option ArrayId}
  {h' : Heap} {config : Config} {loaded : Loaded} {processes : Nat → Option Process}
  (few : final.routines.length ≤ 0x100000000) (fewArrays : final.arrays.length ≤ 0x100000000)
  (restored : Restoring.Restoration config .utf8 final h' loaded routines arrays processes)
include few fewArrays restored

/-- Processes that were restored are stored like those of the machines, by induction on these. -/
theorem replay_processes {ms : List Machine} {ps' : List Process} {records : List ProcessRecord}
    (saveable : ∀ m ∈ ms, m.Saveable) (ran : (addMachines ms).run w = .ok u w₁)
    (appended : w₁.file.processes = w.file.processes ++ records)
    (denotes : List.Forall₂ (Restoring.ProcessDenotes config .utf8 routines arrays h') records ps')
    (inStep : InStep final routines arrays (h'.routines.size + h'.arrays.size + 2) w w₁ w')
    : ∃ w₁', (ps'.forM (addProcess .utf8 h')).run w' = .ok () w₁'
      ∧ Copies routines arrays w₁ w₁' := by
  induction ms generalizing w w' records ps' with
  | nil =>
      cases ran
      obtain rfl := List.append_right_eq_self.mp appended.symm
      cases denotes
      exact ⟨w', rfl, inStep.copies⟩
  | cons m ms ih =>
      obtain ⟨_, w₂, first, ran⟩ := run_bind_eq_ok.mp ran
      have one := saveable m List.mem_cons_self
      have rounded : (addProcess .utf8 m.world.heap.rounded m.process.rounded).run w = .ok () w₂ := by
        rw [addProcess_rounded]
        exact first
      obtain ⟨record, w₀, made, rfl⟩ := run_addProcess_eq_ok rounded
      obtain ⟨more, records', appended'⟩ := moreRecords_addMachines ran
      obtain ⟨grows, counted⟩ := (adds_processRecord _).of_ok made
      obtain rfl : records = record :: records' := by
        rw [appended', withProcess, grows.processes, List.append_assoc] at appended
        exact (List.append_cancel_left appended).symm
      obtain ⟨p', ps', denotesFirst, denotesRest, rfl⟩ := List.forall₂_cons_left_iff.mp denotes
      have later : MoreRecords w₀ w₁ := ⟨more.routines, more.arrays⟩
      obtain ⟨w₀', made', copies⟩ := replay_process few fewArrays one.scope restored one.processIn
        one.keyed made denotesFirst (inStep.first later)
      obtain ⟨grows', -⟩ := (adds_processRecord p').of_ok made'
      have counted' := counted inStep.counted
      have copies' : Copies routines arrays (w₀.withProcess record) (w₀'.withProcess record) := by
        refine ⟨?_, copies.routineIds, copies.arrayIds⟩
        simp only [withProcess, copies.file]
      obtain ⟨w₁', ranRest, copiesRest⟩ :=
        ih (fun m' member => saveable m' (List.mem_cons_of_mem _ member)) ran appended' denotesRest
          (inStep.next ⟨grows.routines, grows.arrays⟩ ⟨counted'.routineIds, counted'.arrayIds⟩ copies'
            grows'.inProgress)
      refine ⟨w₁', run_bind_eq_ok.mpr ⟨(), w₀'.withProcess record, ?_, ranRest⟩, copiesRest⟩
      rw [addProcess_eq]
      exact run_bind_eq_ok.mpr ⟨record, w₀', made', rfl⟩

end

/-- A table with an entry of its own for every record is no longer than what the entries are in. -/
theorem length_le_of_entries {α : Type} (table : Nat → Option α) (index : α → Nat) {length size : Nat}
    (entries : ∀ n, n < length → ∃ a, table n = some a ∧ index a < size)
    (distinct : ∀ i j a b, table i = some a → table j = some b → index a = index b → i = j)
    : length ≤ size := by
  choose entry there below using entries
  have once : Function.Injective fun n : Fin length => (⟨index (entry n n.2), below n n.2⟩ : Fin size) :=
    fun i j same => Fin.ext (distinct i j _ _ (there i i.2) (there j j.2) (congrArg Fin.val same))
  simpa using Fintype.card_le_of_injective _ once

/-- What was restored from all records of a file is as much as the file has. -/
theorem size_le_of_restoration {final : ObjectFile} {routines : Nat → Option RoutineId}
    {arrays : Nat → Option ArrayId} {h' : Heap} {config : Config} {loaded : Loaded}
    {processes : Nat → Option Process}
    (restored : Restoring.Restoration config .utf8 final h' loaded routines arrays processes)
    (present : ∀ key, final.Has key → Restoring.Entered routines arrays processes key)
    : final.routines.length ≤ h'.routines.size ∧ final.arrays.length ≤ h'.arrays.size := by
  constructor
  · refine length_le_of_entries routines RoutineId.index ?_ ?_
    · intro n inside
      obtain ⟨r, entry⟩ := Option.isSome_iff_exists.mp (present (.routine, n) inside)
      obtain ⟨_, -, _, _, _, -, -, compiled, -⟩ := restored.routine n r entry
      exact ⟨r, entry, (Array.getElem?_eq_some_iff.mp compiled).1⟩
    · intro i j r q entry entry' same
      exact restored.distinctRoutines i j r entry
        (entry'.trans (congrArg (fun n => some (RoutineId.mk n)) same.symm))
  · refine length_le_of_entries arrays ArrayId.index ?_ ?_
    · intro n inside
      obtain ⟨a, entry⟩ := Option.isSome_iff_exists.mp (present (.array, n) inside)
      obtain ⟨_, -, _, _, -, filled, -⟩ := restored.array n a entry
      exact ⟨a, entry, (Array.getElem?_eq_some_iff.mp filled).1⟩
    · intro i j a b entry entry' same
      exact restored.distinctArrays i j a entry
        (entry'.trans (congrArg (fun n => some (ArrayId.mk n)) same.symm))

/-- A writer that stores the processes loaded from its file makes the same file. -/
theorem resaved_file (config : Config) {ms : List Machine} {w : Writer} {u : Unit}
    (saveable : ∀ m ∈ ms, m.Saveable) (accepted : (addMachines ms).run new = .ok u w)
    (few : w.file.routines.length ≤ 0x100000000) (fewArrays : w.file.arrays.length ≤ 0x100000000)
    {h₀ h' : Heap} {loaded : Loaded}
    (done : w.file.load { config with loadPolicy := .strict } .utf8 h₀ = .ok (h', loaded))
    : ∃ w', (loaded.processes.forM (addProcess .utf8 h')).run new = .ok () w' ∧ w'.file = w.file := by
  obtain ⟨_, _, routines, arrays, processes, again, -, restored, present⟩ :=
    w.file.load_of_loadable config .utf8 h₀ (ObjectFile.loadable_of_strict done)
  rw [done] at again
  cases again
  have inStep : InStep w.file routines arrays (h'.routines.size + h'.arrays.size + 2) new w new := by
    obtain ⟨routines_le, arrays_le⟩ := size_le_of_restoration restored present
    refine ⟨⟨⟨?_, ?_, ?_⟩, ⟨?_, ?_, ?_⟩⟩, ⟨fun _ _ _ found => found, fun _ _ _ found => found,
      Nat.le_refl _, Nat.le_refl _⟩, ⟨rfl, ?_, ?_⟩, ?_, ?_⟩
    all_goals simp [new, ObjectFile.empty, numberOf, NumbersOf, size]
    omega
  obtain ⟨w', ran, copies⟩ := replay_processes few fewArrays restored saveable accepted rfl
    (restored.forall₂_processes present) inStep
  exact ⟨w', ran, copies.file⟩

/-- A machine with an array that contains itself and a float that is rounded. The array is the argument
of a call.
-/
def loopMachine : Machine where
  world := { World.empty with heap := { Heap.empty with
    arrays := #[⟨[2], #[.array ⟨0⟩, .float 0.1]⟩]
    routines := #[{
      name := "loop", isProcedure := true, isVarargs := false, minArgs := 1, maxArgs := 1,
      localNames := #["a"], names := #[], code := #[], literals := #[], fileName := "",
      lines := #[] }] } }
  process := { Process.new {} 1 "loop" with
    frames := [{
      routine := ⟨0⟩, pc := 0, locals := #[.array ⟨0⟩], handlers := [], wantResult := false,
      stackBase := 0 }] }

private theorem loop_live {v : Value} (live : loopMachine.world.heap.Live [loopMachine.process] v)
    : v = .array ⟨0⟩ ∨ v = .float 0.1 := by
  apply live.induct (P := fun v => v = .array ⟨0⟩ ∨ v = .float 0.1)
  · intro v held
    refine .inl ?_
    simpa [loopMachine, Process.new, Process.Holds, Heap.routine] using held
  · intro v w known leads
    rcases known with rfl | rfl
    · cases leads with
      | cell held => simpa [loopMachine, Heap.grid] using held
    · cases leads

private theorem loop_saveable : loopMachine.Saveable := by
  refine ⟨?_, ?_, ?_, ?_, ?_, ?_⟩
  · exact ⟨⟨loopMachine.world, Process.new {} 1 "loop"⟩, .created {} 1 "loop" .default _,
      .single (.entered ⟨0⟩ [.array ⟨0⟩] false)⟩
  · intro o live
    rcases loop_live live with same | same <;> cases same
  · simp [loopMachine, Process.new]
  · simp [loopMachine]
  · intro a live
    rcases loop_live live with same | same
    · cases same
      simp [loopMachine, Heap.grid]
    · cases same
  · intro r called
    rcases called with ⟨p, among, f, active, rfl⟩ | ⟨c, live, -⟩
    · simp only [List.mem_singleton] at among
      subst among
      simp only [loopMachine, List.mem_singleton] at active
      rw [active]
      simp [loopMachine, Heap.routine]
    · rcases loop_live live with same | same <;> cases same

/-- The machine is stored twice, and both processes are loaded and stored again. -/
theorem loop_resaved
    : ∃ w h' loaded w',
        (addMachines [loopMachine, loopMachine]).run new = .ok () w
        ∧ w.file.load { loadPolicy := .strict } .utf8 .empty = .ok (h', loaded)
        ∧ (loaded.processes.forM (addProcess .utf8 h')).run new = .ok () w'
        ∧ w'.file = w.file := by
  obtain ⟨w, accepted, routines, arrays⟩
      : ∃ w, (addMachines [loopMachine, loopMachine]).run new = .ok () w
        ∧ w.file.routines.length = 1 ∧ w.file.arrays.length = 1 :=
    ⟨_, rfl, rfl, rfl⟩
  have loads : ((stateOf ((addMachines [loopMachine, loopMachine]).run new)).file.load
      { loadPolicy := .strict } .utf8 .empty).isOk = true := by
    decide +kernel
  rw [accepted, stateOf_ok] at loads
  cases done : w.file.load { loadPolicy := .strict } .utf8 .empty with
  | error fault =>
      rw [done] at loads
      cases loads
  | ok result =>
      obtain ⟨h', loaded⟩ := result
      have saveable : ∀ m ∈ [loopMachine, loopMachine], m.Saveable := by
        intro m member
        rcases List.mem_pair.mp member with rfl | rfl <;> exact loop_saveable
      obtain ⟨w', ran, same⟩ := resaved_file {} saveable accepted (by omega) (by omega) done
      exact ⟨w, h', loaded, w', accepted, done, ran, same⟩

end Writer
end TaskMachine

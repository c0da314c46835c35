import TaskMachine.Proofs.ObjectFile.Resaving
import TaskMachine.Proofs.Regularity

/-!
Which stored processes are loaded again. Most checks of a strict reader cannot fail for a process that
a writer has accepted: they ask for what building and running keep to anyway. Two of them ask for
more. Handlers may reach above the operand stack, since values that were there when they were
installed can be taken off it, and rows of surplus arguments may be longer than arrays can be made.
-/

namespace TaskMachine

-----------------------------------------------------------------------------------------
-- What is stored for a process
-----------------------------------------------------------------------------------------

/-- Each value of a segment is coded by one of its items. -/
theorem Segment.Codes.coded {routines : RoutineId → Option Nat} {arrays : ArrayId → Option Nat}
    {h : Heap} {segment : Segment} {values : List Value}
    (codes : segment.Codes routines arrays h values) {v : Value} (member : v ∈ values)
    : ∃ item, Coded routines arrays h v item := by
  obtain ⟨items, -, each⟩ := codes
  obtain ⟨item, -, coded⟩ := exists_of_mem_left each v member
  exact ⟨item, coded⟩

namespace Writer

/-- Everything that stored processes lead to is stored, by induction on how it is reached. -/
theorem coded_of_live {h : Heap} {P : Value → Prop} {R : RoutineId → Prop} {ps : List Process}
    {w : Writer} {records : List ProcessRecord} (sound : Sound h P R [] w)
    (each : List.Forall₂ (ProcessStored h w) ps records) {v : Value} (live : h.Live ps v)
    : ∃ item, Coded (numberOf w.routineIds) (numberOf w.arrayIds) h v item := by
  have literals {r : RoutineId} {n : Nat} (numbered : numberOf w.routineIds r = some n) {v : Value}
      (held : v ∈ (h.routine r).literals)
      : ∃ item, Coded (numberOf w.routineIds) (numberOf w.arrayIds) h v item := by
    obtain ⟨-, _, -, codes, -⟩ := sound.routine r n numbered
    exact codes.coded (Array.mem_toList_iff.mpr held)
  apply live.induct (P := fun v =>
    ∃ item, Coded (numberOf w.routineIds) (numberOf w.arrayIds) h v item)
  · intro v root
    obtain ⟨p, among, held⟩ := root
    obtain ⟨record, -, stack, frames, codes, calls, -⟩ := exists_of_mem_left each p among
    rcases held with onStack | ⟨f, active, held⟩
    · exact codes.coded (List.mem_reverse.mpr onStack)
    · obtain ⟨_, -, number, locals, numbered, codesLocals, -⟩ :=
        exists_of_mem_left calls f (List.mem_reverse.mpr active)
      rcases held with variable_ | literal
      · exact codesLocals.coded (Array.mem_toList_iff.mpr variable_)
      · exact literals numbered literal
  · intro v v' stored leads
    obtain ⟨item, coded⟩ := stored
    cases leads with
    | cell held =>
        cases coded with
        | plain standsAlone => exact absurd trivial standsAlone
        | array numbered =>
            obtain ⟨-, _, -, codes⟩ := sound.array _ _ numbered
            exact (codes List.not_mem_nil).coded (Array.mem_toList_iff.mpr held)
    | literal direct held =>
        cases coded with
        | plain standsAlone => exact absurd trivial standsAlone
        | routine direct' numbered =>
            rw [direct] at direct'
            cases direct'
            exact literals numbered held
    | base closure | bound closure =>
        cases coded with
        | plain standsAlone => exact absurd trivial standsAlone
        | routine direct numbered =>
            rw [closure] at direct
            cases direct
    | member =>
        cases coded with
        | plain standsAlone => exact absurd trivial standsAlone

end Writer

-----------------------------------------------------------------------------------------
-- Rounding keeps everything in order
-----------------------------------------------------------------------------------------

theorem Grid.Sound.rounded {g : Grid} (sound : g.Sound) : g.rounded.Sound :=
  ⟨sound.some, (Array.size_map).trans sound.size, sound.bounded⟩

theorem Routine.Sound.rounded {r : Routine} (sound : r.Sound) : r.rounded.Sound :=
  ⟨sound.args, sound.locals, sound.absolute, Array.size_map.trans_lt sound.literals, sound.lines⟩

/-- Rounding touches values only, and what makes a process well formed does not depend on these. -/
theorem Process.WellFormed.rounded {h : Heap} {p : Process} (formed : p.WellFormed h)
    : p.rounded.WellFormed h.rounded := by
  refine ⟨fun f' active' => ?_, List.pairwise_map.mpr formed.bases⟩
  obtain ⟨f, active, rfl⟩ := List.mem_map.mp active'
  have call := formed.frames f active
  rw [Process.rounded, List.length_map, Frame.rounded, Heap.routine_rounded]
  exact ⟨call.pc_le, call.base_le, call.numLocals_le.trans_eq Array.size_map.symm, call.handlers⟩

/-- Without objects, rounding leaves processes regular, as only floats change. -/
theorem Regular.rounded {h : Heap} {ps : List Process} (objectFree : h.ObjectFree ps)
    (regular : Regular h ps)
    : Regular h.rounded (ps.map Process.rounded) where
  grids a live := by
    rw [Heap.grid_rounded]
    exact (regular.grids a (Heap.live_array_rounded objectFree live)).rounded
  routines r called := by
    rw [Heap.routine_rounded]
    exact (regular.routines r (Heap.called_rounded objectFree called)).rounded
  processes p' among' := by
    obtain ⟨p, among, rfl⟩ := List.mem_map.mp among'
    obtain ⟨formed, keyed⟩ := regular.processes p among
    exact ⟨formed.rounded, keyed⟩

-----------------------------------------------------------------------------------------
-- Machines that can be stored
-----------------------------------------------------------------------------------------

namespace Machine

/-- All routines that the process leads to have been composed, and it leads to no host object. What it
leads to can be counted by the format: arguments in 16 bits and everything else in 32 bits.
-/
structure Composed (m : Machine) : Prop where
  routines : ∀ r, m.world.heap.Called [m.process] r → (m.world.heap.routine r).Composed
  args : ∀ r, m.world.heap.Called [m.process] r → (m.world.heap.routine r).maxArgs ≤ 65535
  objectFree : m.world.heap.ObjectFree [m.process]
  stack : m.process.stack.length < 0x100000000
  locals : ∀ f ∈ m.process.frames, f.locals.size < 0x100000000
  depths : ∀ f ∈ m.process.frames, ∀ handler ∈ f.handlers, handler.stackDepth < 0x100000000
  dims
    : ∀ a,
        m.world.heap.Live [m.process] (.array a)
        → ∀ d ∈ (m.world.heap.grid a).dims, d < 0x100000000

/-- What a reader asks of a stored process that running does not see to: no handler reaches above the
stack, and no array has more cells than one can be made with.
-/
structure Reloadable (m : Machine) : Prop where
  handlers
    : ∀ f ∈ m.process.frames,
        ∀ handler ∈ f.handlers, handler.stackDepth ≤ m.process.stack.length
  cells
    : ∀ a,
        m.world.heap.Live [m.process] (.array a)
        → (m.world.heap.grid a).cells.size ≤ Grid.maxCells

variable {m₀ m : Machine}

/-- A process that holds no handles leads to nothing else. -/
theorem holds_of_live {h : Heap} {p : Process} (plain : ∀ v, p.Holds h v → ¬ v.IsHandle) {v : Value}
    (live : h.Live [p] v)
    : p.Holds h v := by
  apply live.induct (P := p.Holds h)
  · rintro v ⟨q, among, held⟩
    rwa [List.mem_singleton.mp among] at held
  · intro v w held leads
    have standsAlone := plain v held
    cases leads with
    | cell | literal | base | bound | member => exact absurd trivial standsAlone

/-- A process that holds no handles leads to the routines of its calls only. -/
theorem composed_of_plain (plain : ∀ v, m.process.Holds m.world.heap v → ¬ v.IsHandle)
    (routines
      : ∀ f ∈ m.process.frames, (m.routineOf f).Composed ∧ (m.routineOf f).maxArgs ≤ 65535)
    (stack : m.process.stack.length < 0x100000000)
    (locals : ∀ f ∈ m.process.frames, f.locals.size < 0x100000000)
    (depths : ∀ f ∈ m.process.frames, ∀ handler ∈ f.handlers, handler.stackDepth < 0x100000000)
    : m.Composed := by
  have active {r : RoutineId} (called : m.world.heap.Called [m.process] r)
      : ∃ f ∈ m.process.frames, f.routine = r := by
    rcases called with ⟨p, among, f, active, same⟩ | ⟨c, live, -⟩
    · rw [List.mem_singleton.mp among] at active
      exact ⟨f, active, same⟩
    · exact absurd trivial (plain _ (holds_of_live plain live))
  refine ⟨fun r called => ?_, fun r called => ?_, fun o live => ?_, stack, locals, depths,
    fun a live => ?_⟩
  · obtain ⟨f, among, rfl⟩ := active called
    exact (routines f among).1
  · obtain ⟨f, among, rfl⟩ := active called
    exact (routines f among).2
  · exact plain _ (holds_of_live plain live) trivial
  · exact absurd trivial (plain _ (holds_of_live plain live))

/-- What has been composed can be stored at any time of its life. -/
theorem Composed.saveable (composed : m.Composed) (regular : Regular m.world.heap [m.process])
    (origin : Origin m₀) (run : Relation.ReflTransGen Event m₀ m)
    : m.Saveable where
  life := ⟨m₀, origin, run⟩
  objectFree := composed.objectFree
  stack := composed.stack
  locals := composed.locals
  cells a live := (regular.grids a live).size_lt (composed.dims a live)
  literals r called := (composed.routines r called).sound.literals

/-- With no more records than numbers can count, everything that is stored can be counted. -/
theorem Composed.countable (composed : m.Composed) {file : ObjectFile}
    (few : file.routines.length ≤ 0x100000000) (fewArrays : file.arrays.length ≤ 0x100000000)
    : Countable m.world.heap.rounded [m.process.rounded] file := by
  refine ⟨?_, ?_, ?_, few, fewArrays⟩
  · simpa [Process.rounded] using composed.stack
  · simpa [Process.rounded, Frame.rounded] using composed.locals
  · intro r called
    have short := (composed.routines r (Heap.called_rounded composed.objectFree called)).size_code_le
    rw [Heap.routine_rounded]
    exact Nat.lt_of_le_of_lt short (by decide)

/-- What a composed machine has in use can be restored once its process has calls to go on with. -/
theorem Composed.restorable (composed : m.Composed) (active : m.process.frames ≠ [])
    (reloadable : m.Reloadable)
    : Restorable m.world.heap.rounded [m.process.rounded] where
  values v live := Heap.storable_live_rounded composed.objectFree live
  jumps r called i member jump _ := by
    rw [Heap.routine_rounded] at member ⊢
    exact (composed.routines r (Heap.called_rounded composed.objectFree called)).jumps member jump
  args r called := by
    rw [Heap.routine_rounded]
    exact composed.args r (Heap.called_rounded composed.objectFree called)
  dims a live := by
    rw [Heap.grid_rounded]
    exact composed.dims a (Heap.live_array_rounded composed.objectFree live)
  cells a live := by
    rw [Heap.grid_rounded, Grid.rounded, Array.size_map]
    exact reloadable.cells a (Heap.live_array_rounded composed.objectFree live)
  frames := by simpa [Process.rounded] using active
  handlers := by simpa [Process.rounded, Frame.rounded] using reloadable.handlers

end Machine

-----------------------------------------------------------------------------------------
-- Storing and loading
-----------------------------------------------------------------------------------------

namespace Writer

variable {m₀ m : Machine} {w : Writer} {u : Unit}

/-- What can be stored has not come to its end. -/
theorem going_of_isStorable {p : Process} (storable : isStorable p = true)
    : p.state.isTerminal = false := by
  simp only [isStorable, Bool.and_eq_true, Bool.or_eq_true, beq_iff_eq] at storable
  rcases storable.1 with (suspended | runnable) | waiting
  · rw [suspended]
    rfl
  · rw [runnable]
    rfl
  · rw [waiting]
    rfl

theorem pendingFault_of_isStorable {p : Process} (storable : isStorable p = true)
    : p.pendingFault = none := by
  simp only [isStorable, Bool.and_eq_true, Option.isNone_iff_eq_none] at storable
  exact storable.2

/-- A process is one that can be loaded again if all records of its file are in order. -/
theorem reloadable_of_loadable (saveable : m.Saveable) (composed : m.Composed)
    (regular : Regular m.world.heap [m.process])
    (accepted : (addProcess .utf8 m.world.heap.rounded m.process.rounded).run new = .ok u w)
    (loadable : ∀ key, ¬ w.file.Unloadable .utf8 key)
    : m.Reloadable := by
  have inOrder (key : RecordKey) (present : w.file.Has key) : w.file.WellMade .utf8 key :=
    by_contra fun bad => loadable key (.malformed present bad)
  obtain ⟨-, w₁, record, sound, grows, stored, rfl⟩ :=
    sound_of_addProcess saveable.scope saveable.processIn (sound_new ..) accepted
  have processes : (w₁.withProcess record).file.processes = [record] := by
    rw [withProcess, grows.processes]
    rfl
  constructor
  · intro f active handler installed
    have there : (w₁.withProcess record).file.processes[0]? = some record := by rw [processes]; rfl
    obtain ⟨_, found, -, -, stackMade, -, calls⟩ :=
      inOrder (.process, 0) (by simp [ObjectFile.Has, processes])
    rw [there] at found
    cases found
    obtain ⟨stack, frames, codes, each, rfl⟩ := stored
    obtain ⟨frameRecord, among, number, locals, -, -, rfl⟩ :=
      exists_of_mem_left each f.rounded (List.mem_reverse.mpr (List.mem_map_of_mem active))
    obtain ⟨⟨_, -, checked⟩, -⟩ := calls _ among
    obtain ⟨-, -, below⟩ := checked.handlers _ (List.mem_map_of_mem (List.mem_reverse.mpr installed))
    rw [UInt32.toNat_ofNat_small (composed.depths f active handler installed), codes.count,
      List.length_reverse, Process.rounded, List.length_map] at below
    exact below
  · intro a live
    have storedAs := coded_of_live sound (.cons stored .nil)
      (Heap.rounded_live composed.objectFree live)
    obtain ⟨item, coded⟩ := storedAs
    cases coded with
    | plain standsAlone => exact absurd trivial standsAlone
    | @array _ n numbered =>
        obtain ⟨-, elements, there, -⟩ := sound.array a n numbered
        obtain ⟨_, found, checked, -⟩ := inOrder (.array, n) (sound.arrayIds.lt a n numbered)
        cases there.symm.trans found
        have fits := checked.fits
        rw [Heap.grid_rounded, Grid.rounded, map_toNat_ofNat (composed.dims a live)] at fits
        rw [(regular.grids a live).size]
        exact Grid.volume_le fits

/-- A started process that a new writer has accepted is regular and in a call, and its file is that of
the process with rounded floats, too.
-/
theorem of_accepted (origin : m₀.Origin) (active : m₀.process.frames ≠ [])
    (sound : m₀.world.heap.Sound) (run : Relation.ReflTransGen Machine.OrderlyEvent m₀ m)
    (composed : m.Composed)
    (accepted : (addProcess .utf8 m.world.heap m.process).run new = .ok u w)
    : Regular m.world.heap [m.process]
      ∧ m.Saveable
      ∧ (addProcess .utf8 m.world.heap.rounded m.process.rounded).run new = .ok u w
      ∧ isStorable m.process = true
      ∧ m.process.frames ≠ [] := by
  have events : Relation.ReflTransGen Machine.Event m₀ m :=
    run.lift id fun _ _ orderly => orderly.event
  have regular := Machine.regular_of_events origin sound run
  have saveable := composed.saveable regular origin events
  have rounded : (addProcess .utf8 m.world.heap.rounded m.process.rounded).run new = .ok u w := by
    rw [addProcess_rounded]
    exact accepted
  obtain ⟨storable, -⟩ :=
    sound_of_addProcess saveable.scope saveable.processIn (sound_new ..) rounded
  have inCall := (Machine.underway_of_events active events).frames_ne_nil
    (going_of_isStorable storable)
  exact ⟨regular, saveable, rounded, storable, inCall⟩

/-- A process that has been accepted by a new writer, at any time after it was started, is loaded
again strictly just if its handlers do not reach above its stack and no array that it leads to is too
large.
-/
theorem load_accepted (config : Config) (origin : m₀.Origin) (active : m₀.process.frames ≠ [])
    (sound : m₀.world.heap.Sound) (run : Relation.ReflTransGen Machine.OrderlyEvent m₀ m)
    (composed : m.Composed)
    (accepted : (addProcess .utf8 m.world.heap m.process).run new = .ok u w)
    (few : w.file.routines.length ≤ 0x100000000) (fewArrays : w.file.arrays.length ≤ 0x100000000)
    (h₀ : Heap)
    : (∃ h' loaded, w.file.load { config with loadPolicy := .strict } .utf8 h₀ = .ok (h', loaded))
      ↔ m.Reloadable := by
  obtain ⟨regular, saveable, rounded, -, inCall⟩ :=
    of_accepted origin active sound run composed accepted
  constructor
  · rintro ⟨h', loaded, done⟩
    exact reloadable_of_loadable saveable composed regular rounded
      (ObjectFile.loadable_of_strict done)
  · intro reloadable
    have stored : Stored m.world.heap.rounded [m.process.rounded] w :=
      stored_of_addProcesses (u := u) (composed.restorable inCall reloadable)
        (regular.rounded composed.objectFree) (composed.countable few fewArrays)
        (run_bind_eq_ok.mpr ⟨u, w, rounded, rfl⟩)
    obtain ⟨h', loaded, _, _, _, done, -⟩ :=
      w.file.load_of_loadable config .utf8 h₀ fun _ => stored.loadable
    exact ⟨h', loaded, done⟩

-----------------------------------------------------------------------------------------
-- A handler above the stack
-----------------------------------------------------------------------------------------

/-- A draft that installs a handler with a value on the stack, rearranges the stack and stops. -/
def handlerDraft (i : Instruction) : Draft where
  name := "P"
  isProcedure := true
  code := #[⟨.push, 2, 1⟩, ⟨.jump, 48, 0⟩, i, ⟨.special, 4, 0⟩]
  labels := #[some 4]

/-- The routine that is finished from the draft. -/
def handlerRoutine (i : Instruction) : Routine where
  name := "P"
  isProcedure := true
  isVarargs := false
  minArgs := 0
  maxArgs := 0
  localNames := #[]
  names := #[]
  code := #[⟨.push, 2, 1⟩, ⟨.jump, 16, 4⟩, i, ⟨.special, 4, 0⟩]
  literals := #[]
  fileName := ""
  lines := #[]

private theorem handlerDraft_made (i : Instruction) : (handlerDraft i).Made := by
  have drafted := (((((Relation.ReflTransGen.refl.tail (Draft.Extends.label
    (d := { name := "P", isProcedure := true }))).tail (.instruction ⟨.push, 2, 1⟩)).tail
    (.jump 16 0)).tail (.instruction i)).tail (.instruction ⟨.special, 4, 0⟩))
  exact ⟨"P", true, drafted.tail (.placed (show Draft.placeLabel 0 _ = .ok _ from rfl))⟩

private theorem handlerDraft_labelled {i : Instruction} (plain : i.opcode ≠ .jump)
    : ∀ j ∈ (handlerDraft i).code, j.opcode = .jump → j.isSymbolic = true := by
  intro j member jump
  simp only [handlerDraft, List.mem_toArray, List.mem_cons, List.not_mem_nil, or_false] at member
  rcases member with rfl | rfl | rfl | rfl
  · cases jump
  · rfl
  · exact absurd jump plain
  · cases jump

/-- The draft is finished with its one label resolved. -/
theorem handlerDraft_finish {i : Instruction} (plain : i.opcode ≠ .jump)
    : (handlerDraft i).finish = .ok (handlerRoutine i) := by
  have resolved : Draft.resolve #[some 4] i = .ok i := by
    simp [Draft.resolve, Instruction.isSymbolic, plain]
  have code
      : (handlerDraft i).code.mapM (Draft.resolve (handlerDraft i).labels)
        = .ok (handlerRoutine i).code := by
    rw [Array.mapM_eq_mapM_toList]
    simp only [handlerDraft, List.mapM_cons, List.mapM_nil, resolved]
    rfl
  simp only [Draft.finish, code]
  rfl

/-- A new process that has been started with the routine. -/
def handlerStart (i : Instruction) : Machine :=
  stateOf ((Exec.start ⟨0⟩ []).run
    ⟨{ World.empty with heap := { Heap.empty with routines := #[handlerRoutine i] } },
      Process.new {} 1 "p"⟩)

private theorem handlerStart_origin (i : Instruction) : (handlerStart i).Origin := by
  have ran : (Exec.start ⟨0⟩ []).run
      ⟨{ World.empty with heap := { Heap.empty with routines := #[handlerRoutine i] } },
        { Process.new {} 1 "p" with kind := .default }⟩ = .ok () (handlerStart i) := rfl
  exact .started ran

/-- The process when it has stopped, with given numbers on its stack. -/
def handlerStop (i : Instruction) (numbers : List Int32) : Machine where
  world := { World.empty with heap := { Heap.empty with routines := #[handlerRoutine i] } }
  process := { Process.new {} 1 "p" with
    stack := numbers.map .integer
    frames := [{
      routine := ⟨0⟩, pc := 4, locals := #[], handlers := [⟨4, 1⟩], wantResult := false,
      stackBase := 0 }] }

private theorem handler_plain {i : Instruction} {numbers : List Int32} (v : Value)
    (held : (handlerStop i numbers).process.Holds (handlerStop i numbers).world.heap v)
    : ¬ v.IsHandle := by
  rcases held with onStack | ⟨f, active, held⟩
  · obtain ⟨n, -, rfl⟩ := List.mem_map.mp onStack
    exact id
  · rw [handlerStop, List.mem_singleton] at active
    subst active
    rcases held with variable_ | literal
    · exact absurd variable_ (Array.not_mem_empty v)
    · exact absurd literal (Array.not_mem_empty v)

/-- The sample is composed as finished routines are. -/
theorem handler_composed {i : Instruction} (plain : i.opcode ≠ .jump) {numbers : List Int32}
    (few : numbers.length < 0x100000000)
    : (handlerStop i numbers).Composed := by
  refine Machine.composed_of_plain handler_plain ?_ (by simpa [handlerStop] using few)
    (by simp [handlerStop]) (by simp [handlerStop])
  intro f active
  rw [handlerStop, List.mem_singleton] at active
  subst active
  exact ⟨⟨handlerDraft i, handlerDraft_made i, handlerDraft_labelled plain,
    handlerDraft_finish plain⟩, Nat.zero_le _⟩

/-- A process that has stopped with its handler in reach is loaded again. -/
theorem handler_loaded
    : ∃ w h' loaded,
        (addProcess .utf8 (handlerStop ⟨.stack, 0, 0⟩ [1, 1]).world.heap
          (handlerStop ⟨.stack, 0, 0⟩ [1, 1]).process).run new = .ok () w
        ∧ w.file.load { loadPolicy := .strict } .utf8 .empty = .ok (h', loaded) := by
  have routine : (handlerRoutine ⟨.stack, 0, 0⟩).Composed :=
    ⟨handlerDraft ⟨.stack, 0, 0⟩, handlerDraft_made _, handlerDraft_labelled (by decide),
      handlerDraft_finish (by decide)⟩
  have sound : (handlerStart ⟨.stack, 0, 0⟩).world.heap.Sound :=
    Heap.sound_empty.addRoutine routine.sound
  have woken := Machine.Event.orderly (m := handlerStart ⟨.stack, 0, 0⟩)
    (.woken (Process.wake_eq_ok.mpr ⟨rfl, rfl⟩)) sound (.refl _)
  have run : Relation.ReflTransGen Machine.OrderlyEvent (handlerStart ⟨.stack, 0, 0⟩)
      (handlerStop ⟨.stack, 0, 0⟩ [1, 1]) := .head woken (Machine.orderly_run 5 sound)
  obtain ⟨w, accepted, routines, arrays⟩
      : ∃ w, (addProcess .utf8 (handlerStop ⟨.stack, 0, 0⟩ [1, 1]).world.heap
          (handlerStop ⟨.stack, 0, 0⟩ [1, 1]).process).run new = .ok () w
        ∧ w.file.routines.length = 1 ∧ w.file.arrays.length = 0 :=
    ⟨_, rfl, rfl, rfl⟩
  have reloadable : (handlerStop ⟨.stack, 0, 0⟩ [1, 1]).Reloadable := by
    refine ⟨by simp [handlerStop], fun a live => ?_⟩
    exact absurd trivial (handler_plain _ (Machine.holds_of_live handler_plain live))
  obtain ⟨h', loaded, done⟩ := (load_accepted {} (handlerStart_origin _) (List.cons_ne_nil _ _) sound
    run
    (handler_composed (by decide) (by decide)) accepted (by omega) (by omega) .empty).mpr reloadable
  exact ⟨w, h', loaded, accepted, done⟩

/-- A process that has dropped the value below its handler is accepted, but it is not loaded again. -/
theorem handler_above_stack
    : ∃ d r m₀ p m w fault,
        Draft.Made d
        ∧ (∀ i ∈ d.code, i.opcode = .jump → i.isSymbolic = true)
        ∧ d.finish = .ok r ∧ r.maxArgs < 65536
        ∧ (Exec.start ⟨0⟩ []).run
            ⟨{ World.empty with heap := { Heap.empty with routines := #[r] } },
              Process.new {} 1 "p"⟩ = .ok () m₀
        ∧ m₀.process.wake = .ok p
        ∧ m = Machine.run 5 { m₀ with process := p }
        ∧ (addProcess .utf8 m.world.heap m.process).run new = .ok () w
        ∧ w.file.load { loadPolicy := .strict } .utf8 .empty = .error fault := by
  obtain ⟨w, accepted, made⟩
      : ∃ w, (addProcess .utf8 (handlerStop ⟨.stack, 1, 1⟩ []).world.heap
          (handlerStop ⟨.stack, 1, 1⟩ []).process).run new = .ok () w
        ∧ w = stateOf ((addProcess .utf8 (handlerStop ⟨.stack, 1, 1⟩ []).world.heap
          (handlerStop ⟨.stack, 1, 1⟩ []).process).run new) :=
    ⟨_, rfl, rfl⟩
  have refused : (w.file.load { loadPolicy := .strict } .utf8 .empty).isOk = false := by
    rw [made]
    decide +kernel
  cases loads : w.file.load { loadPolicy := .strict } .utf8 .empty with
  | ok loaded =>
      rw [loads] at refused
      cases refused
  | error fault =>
      exact ⟨handlerDraft ⟨.stack, 1, 1⟩, handlerRoutine ⟨.stack, 1, 1⟩, handlerStart ⟨.stack, 1, 1⟩,
        _, handlerStop ⟨.stack, 1, 1⟩ [], w, fault, handlerDraft_made _,
        handlerDraft_labelled (by decide), handlerDraft_finish (by decide), by decide, rfl,
        Process.wake_eq_ok.mpr ⟨rfl, rfl⟩, rfl, accepted, loads⟩

end Writer
end TaskMachine

import TaskMachine.Proofs.ObjectFile.Stored
import TaskMachine.Proofs.Process.Reachable

/-!
Everything that the machine makes is regular. Drafts are finished to sound routines, loading adds
sound arrays and routines only, and running a process keeps all arrays sound and the process in order.
-/

namespace TaskMachine

/-- All arrays of the heap are boxes with every cell in place, and all its routines are sound. -/
structure Heap.Sound (h : Heap) : Prop where
  grids : ∀ a, (h.grid a).Sound
  routines : ∀ r, (h.routine r).Sound

namespace Heap

variable {h h' : Heap}

theorem sound_empty : empty.Sound := by
  constructor
  · intro a
    exact ⟨by simp [grid, empty], by simp [grid, empty, volume], .inl (by simp [grid, empty])⟩
  · intro r
    exact ⟨Nat.le_refl 0, Nat.le_refl 0, fun i member => absurd member (Array.not_mem_empty i),
      by change 0 < 2 ^ 32; decide, fun mark member => absurd member (Array.not_mem_empty mark)⟩

/-- Evolution keeps a heap sound, as it keeps its routines and the boxes of its arrays full. -/
theorem Sound.evolves (sound : h.Sound) (evolves : h.Evolves h') : h'.Sound := by
  refine ⟨evolves.grids sound.grids, fun r => ?_⟩
  rw [routine, evolves.routines]
  exact sound.routines r

theorem Sound.addRoutine (sound : h.Sound) {r : Routine} (new : r.Sound)
    : (h.addRoutine r).1.Sound := by
  refine ⟨sound.grids, fun q => ?_⟩
  simp only [Heap.addRoutine, routine, Array.getElem?_push]
  split
  · exact new
  · exact sound.routines q

/-- What can be kept of a heap as long as all its arrays are sound: it withstands changes that leave them
sound, and sound routines that are added.
-/
structure Invariant (P : Heap → Prop) : Prop where
  grids : ∀ {h}, P h → ∀ a, (h.grid a).Sound
  evolves : ∀ {h h'}, P h → h.Evolves h' → P h'
  addRoutine : ∀ {h r}, P h → r.Sound → P (h.addRoutine r).1

private theorem invariant_sound : Invariant Sound :=
  ⟨Sound.grids, Sound.evolves, fun sound new => sound.addRoutine new⟩

theorem invariant_grids : Invariant fun h => ∀ a, (h.grid a).Sound :=
  ⟨id, fun sound evolves => evolves.grids sound, fun sound _ => sound⟩

/-- Growth consists of changes that an invariant withstands. -/
theorem Invariant.grown {P : Heap → Prop} (invariant : Invariant P) (kept : P h) (grown : h.Grown h')
    : P h' :=
  invariant.evolves kept (.of_arrays grown.routines grown.arrays)

/-- Processes in order are regular in a sound heap. -/
theorem Sound.regular (sound : h.Sound) {ps : List Process}
    (formed : ∀ p ∈ ps, p.WellFormed h ∧ p.Keyed)
    : Regular h ps :=
  ⟨fun a _ => sound.grids a, fun r _ => sound.routines r, formed⟩

end Heap

-----------------------------------------------------------------------------------------
-- Loading
-----------------------------------------------------------------------------------------

/-- A routine that is compiled from a record in order is sound. -/
theorem RoutineRecord.Sound.compile {record : RoutineRecord} (sound : record.Sound)
    {code : Array Instruction} (bytes : record.code = code.toList.flatMap Instruction.toBytes)
    {values : List Value} (stored : values.length = record.literals.count.toNat)
    : (record.compile code values).Sound := by
  obtain ⟨code', bytes', good⟩ := sound.code
  have same : code' = code :=
    Array.toList_inj.mp (Restoring.flatMap_toBytes_injective (bytes'.symm.trans bytes))
  subst same
  refine ⟨sound.args, ?_, ?_, ?_, ?_⟩
  · have locals := sound.locals
    simp only [RoutineRecord.compile, Routine.numLocals, List.size_toArray]
    cases varargs : record.flags &&& varargsFlag != 0
    all_goals rw [varargs] at locals; simpa using locals
  · intro i member
    have inside := good i member
    by_cases jump : i.opcode = .jump
    · simp only [Restoring.isBadJump, jump, beq_self_eq_true, Bool.true_and,
        Bool.or_eq_false_iff] at inside
      simp [Instruction.isSymbolic, inside.1]
    · simp [Instruction.isSymbolic, jump]
  · rw [RoutineRecord.compile, List.size_toArray, stored]
    exact record.literals.count.toNat_lt
  · intro mark member
    simp only [RoutineRecord.compile, List.mem_toArray, List.mem_map] at member
    obtain ⟨line, -, rfl⟩ := member
    exact ⟨line.1.toNat_lt, line.2.toNat_lt⟩

namespace Restoring

variable {P : Heap → Prop} {α β : Type}

/-- The step keeps what holds of the heap, whether it completes or not. -/
def Keeps (P : Heap → Prop) (x : Restoring α) : Prop :=
  ∀ s, P s.heap → P (stateOf (x.run s)).heap

theorem Keeps.pure (a : α) : Keeps P (pure a) :=
  fun _ held => held

theorem Keeps.get : Keeps P get :=
  fun _ held => held

theorem Keeps.modify {f : Restored → Restored} (same : ∀ s, (f s).heap = s.heap)
    : Keeps P (modify f) := by
  intro s held
  change P (f s).heap
  rwa [same s]

theorem Keeps.bind {x : Restoring α} {f : α → Restoring β} (first : Keeps P x)
    (next : ∀ a, Keeps P (f a))
    : Keeps P (x >>= f) := by
  intro s held
  have kept := first s held
  rw [EStateM.run_bind]
  cases ran : x.run s with
  | ok a s₁ =>
      rw [ran] at kept
      exact next a s₁ kept
  | error fault s₁ =>
      rw [ran] at kept
      exact kept

/-- A record that is refused leaves nothing behind but its report. -/
theorem keeps_accept {x : Restoring α} (keeps : Keeps P x) (kind : RecordKind) (index : Nat)
    : Keeps P (accept .skipMalformed kind index x) := by
  intro s held
  have kept := keeps s held
  rw [run_accept]
  cases ran : x.run s with
  | ok a s₁ =>
      rw [ran] at kept
      exact kept
  | error fault s₁ =>
      rw [ran] at kept
      exact kept

/-- A pass keeps what each of its steps keeps, by induction on the records. -/
theorem keeps_eachFrom {step : Nat → α → Restoring Unit} (keeps : ∀ index a, Keeps P (step index a))
    (index : Nat) (items : List α)
    : Keeps P (eachFrom step index items) := by
  induction items generalizing index with
  | nil => exact .pure ()
  | cons a rest ih => exact .bind (keeps index a) fun _ => ih (index + 1)

private theorem keeps_collect {step : Nat → α → Restoring β} (keeps : ∀ index a, Keeps P (step index a))
    (items : List α)
    : Keeps P (collect step items) := by
  have collected (index : Nat) (done : List β) : Keeps P (collectFrom step index done items) := by
    induction items generalizing index done with
    | nil => exact .pure done
    | cons a rest ih => exact .bind (keeps index a) fun b => ih (index + 1) (b :: done)
  exact .bind (collected 0 []) fun _ => .pure _

private theorem keeps_shell (invariant : Heap.Invariant P) (record : ArrayRecord)
    : Keeps P (shell record) := by
  intro s held
  rw [run_shell]
  cases made : Grid.new (record.dims.map UInt32.toNat) with
  | ok g => exact invariant.evolves held (s.heap.evolves_addArray (Grid.sound_of_new made))
  | error fault => exact held

theorem keeps_routine (invariant : Heap.Invariant P) (charset : Charset) (record : RoutineRecord)
    : Keeps P (routine charset record) := by
  intro s held
  rcases routine_cases charset record s with
    ⟨code, items, values, h', bytes, inOrder, ⟨parsed, -⟩, ran, grown, denotes⟩
    | ⟨-, fault, h', failed, grown⟩
  · rw [ran]
    refine invariant.addRoutine (invariant.grown held grown) (inOrder.compile bytes ?_)
    rw [← denotes.length_eq, Segment.length_items parsed]
  · rw [failed]
    exact invariant.grown held grown

/-- The elements of an array are filled into a box that stays as it is. -/
theorem keeps_elements (invariant : Heap.Invariant P) (charset : Charset) (id : ArrayId)
    (record : ArrayRecord)
    : Keeps P (elements charset id record) := by
  intro s held
  rcases elements_cases charset id record s with
    ⟨items, values, h', ⟨parsed, -⟩, full, ran, grown, denotes⟩ | ⟨-, fault, h', failed, grown⟩
  · rw [ran]
    have box := invariant.grids held id
    refine invariant.evolves (invariant.grown held grown)
      (Heap.evolves_setGrid fun _ => ⟨box.some, ?_, box.bounded⟩)
    rw [List.size_toArray, ← denotes.length_eq, Segment.length_items parsed, full]
    exact box.size
  · rw [failed]
    exact invariant.grown held grown

private theorem keeps_process (invariant : Heap.Invariant P) (config : Config) (charset : Charset)
    (record : ProcessRecord)
    : Keeps P (process config charset record) := by
  intro s held
  rcases process_cases config charset record s with ⟨-, p, h', ran, grown, -⟩
    | ⟨-, fault, h', failed, grown⟩
  · rw [ran]
    exact invariant.grown held grown
  · rw [failed]
    exact invariant.grown held grown

/-- Records that are dropped stay in the heap. -/
theorem keeps_dropDependents (routineRefs arrayRefs : List References) (rounds : Nat)
    : Keeps P (dropDependents routineRefs arrayRefs rounds) := by
  have reject (kind : RecordKind) (index : Nat) (reason : Fault) : Keeps P (reject kind index reason) :=
    .modify fun _ => rfl
  have routine (index : Nat) (references : References) : Keeps P (dropRoutine index references) := by
    refine .bind .get fun s => ?_
    split
    · exact .bind (reject _ _ _) fun _ => .modify fun _ => rfl
    · exact .pure ()
  have array (index : Nat) (references : References) : Keeps P (dropArray index references) := by
    refine .bind .get fun s => ?_
    split
    · exact .bind (reject _ _ _) fun _ => .modify fun _ => rfl
    · exact .pure ()
  induction rounds with
  | zero => exact .pure ()
  | succ rounds ih =>
      refine .bind .get fun s => .bind (keeps_eachFrom routine 0 _) fun _ =>
        .bind (keeps_eachFrom array 0 _) fun _ => .bind .get fun s' => ?_
      split
      · exact ih
      · exact .pure ()

/-- Loading keeps an invariant of the heap, by its passes. -/
theorem keeps_load (invariant : Heap.Invariant P) (config : Config)
    (policy : config.loadPolicy = .skipMalformed) (charset : Charset) (file : ObjectFile)
    : Keeps P (load config charset file) := by
  simp only [load, policy]
  refine .bind (keeps_eachFrom (fun index record => ?_) 0 _) fun _ =>
    .bind (keeps_collect (fun index record => ?_) _) fun routineRefs =>
    .bind (keeps_collect (fun index record => ?_) _) fun arrayRefs =>
    .bind (keeps_dropDependents _ _ _) fun _ =>
    .bind (keeps_collect (fun index record => ?_) _) fun processes => .bind .get fun s => .pure _
  · exact .bind (keeps_accept (keeps_shell invariant record) _ _) fun _ => .modify fun _ => rfl
  · exact .bind (keeps_accept (keeps_routine invariant charset record) _ _) fun _ =>
      .bind (.modify fun _ => rfl) fun _ => .pure _
  · refine .bind .get fun s => ?_
    split
    · exact .pure _
    · rename_i id _
      refine .bind (keeps_accept (keeps_elements invariant charset id record) _ _) fun references => ?_
      split
      · exact .pure _
      · exact .bind (.modify fun _ => rfl) fun _ => .pure _
  · exact keeps_accept (keeps_process invariant config charset record) _ _

end Restoring

/-- Loading an object file keeps an invariant of the heap, whatever is in the file. -/
theorem ObjectFile.invariant_of_load {P : Heap → Prop} (invariant : Heap.Invariant P) {config : Config}
    {charset : Charset} {file : ObjectFile} {h h' : Heap} {loaded : Loaded} (kept : P h)
    (done : file.load config charset h = .ok (h', loaded))
    : P h' := by
  have lenient := file.load_lenient done
  have kept := Restoring.keeps_load invariant { config with loadPolicy := .skipMalformed } rfl charset
    file { heap := h } kept
  simp only [load] at lenient
  split at lenient
  · rename_i ran
    rw [ran] at kept
    cases lenient
    exact kept
  · cases lenient

/-- Loading an object file into a sound heap leaves it sound, whatever is in the file. -/
theorem ObjectFile.sound_of_load {config : Config} {charset : Charset} {file : ObjectFile}
    {h h' : Heap} {loaded : Loaded} (sound : h.Sound)
    (done : file.load config charset h = .ok (h', loaded))
    : h'.Sound :=
  invariant_of_load Heap.invariant_sound sound done

-----------------------------------------------------------------------------------------
-- Running
-----------------------------------------------------------------------------------------

namespace Machine

variable {m m' : Machine}

/-- The heap goes on through a step and what follows from it. -/
theorem evolves_advance (m : Machine) : m.world.heap.Evolves m.advance.world.heap := by
  have advanced := m.advanced
  generalize m.advance = after at advanced ⊢
  cases advanced with
  | obeyed changes signal => cases signal <;> exact changes.evolves
  | raised changes fault => exact changes.evolves
  | endless | ended | returned | overflowed => exact .refl _

/-- The heap goes on through every event that is not a change of the surroundings. -/
theorem Event.evolves (event : Event m m')
    : m.world.heap.Evolves m'.world.heap ∨ ∃ w, m' = { m with world := w } := by
  cases event with
  | advanced => exact .inl m.evolves_advance
  | begun | woken | resumed | terminated | relabelled => exact .inl (.refl _)
  | started r args => exact .inl (Changes.evolves (Exec.stays_start r args m))
  | entered r args wantResult => exact .inl (Changes.evolves (Exec.stays_enter r args wantResult m))
  | called c args wantResult => exact .inl (Changes.evolves (Exec.stays_call c args wantResult m))
  | pushed v => exact .inl (Changes.evolves (Exec.stays_push v m))
  | surrounded w => exact .inr ⟨w, rfl⟩

/-- An event whose change of the surroundings, if it is one, leaves the heap sound. -/
structure OrderlyEvent (m m' : Machine) : Prop where
  event : Event m m'
  outside : ∀ w, m' = { m with world := w } → w.heap.Sound

/-- Any orderly events leave the heap sound, by induction on the run. -/
theorem sound_of_events (sound : m.world.heap.Sound)
    (run : Relation.ReflTransGen OrderlyEvent m m')
    : m'.world.heap.Sound := by
  induction run with
  | refl => exact sound
  | tail _ orderly ih =>
      rcases orderly.event.evolves with evolves | ⟨w, rfl⟩
      · exact ih.evolves evolves
      · exact orderly.outside w rfl

/-- An event through which a sound heap goes on is orderly. -/
theorem Event.orderly (event : Event m m') (sound : m.world.heap.Sound)
    (evolves : m.world.heap.Evolves m'.world.heap)
    : OrderlyEvent m m' := by
  refine ⟨event, ?_⟩
  rintro w rfl
  exact sound.evolves evolves

/-- Running is a sequence of orderly events, by induction on the number of steps. -/
theorem orderly_runFor (fuel : Nat) (sound : m.world.heap.Sound)
    : Relation.ReflTransGen OrderlyEvent m (runFor fuel m) := by
  induction fuel generalizing m with
  | zero => exact .refl
  | succ fuel ih =>
      rw [runFor]
      split
      · rename_i running
        have evolves := m.evolves_advance
        exact .head (Event.orderly (.advanced running) sound evolves) (ih (sound.evolves evolves))
      · exact .refl

/-- A run is a chain of orderly steps. -/
theorem orderly_run (fuel : Nat) (sound : m.world.heap.Sound)
    : Relation.ReflTransGen OrderlyEvent m (m.run fuel) := by
  rw [run]
  split
  · rename_i runnable
    exact .head (Event.orderly (.begun runnable) sound (.refl _)) (orderly_runFor fuel sound)
  · exact .refl

/-- Any orderly events in the life of a process leave it regular. -/
theorem regular_of_events (origin : Origin m) (sound : m.world.heap.Sound)
    (run : Relation.ReflTransGen OrderlyEvent m m')
    : Regular m'.world.heap [m'.process] := by
  have events : Relation.ReflTransGen Event m m' := run.lift id fun _ _ orderly => orderly.event
  have formed : m'.WellFormed :=
    wellFormed_of_transitions (events.lift id fun _ _ => .event) origin.wellFormed
  have keyed : m'.process.Keyed := keyed_of_events origin events
  exact (sound_of_events sound run).regular (by simpa using ⟨formed, keyed⟩)

end Machine
end TaskMachine

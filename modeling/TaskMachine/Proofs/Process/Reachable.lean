import TaskMachine.Proofs.ObjectFile.Restoration
import TaskMachine.Proofs.ObjectFile.Strict
import TaskMachine.Proofs.Process.Isolation
import TaskMachine.Proofs.Process.WellFormed

/-!
Every process is well formed: those that are started and those that come out of an object file are,
and whatever happens to a well-formed process leaves it well formed. So a step always finds its
program counter in or at the end of the code, and what it takes from the stack is there.
-/

namespace TaskMachine

open Machine

-----------------------------------------------------------------------------------------
-- Processes out of an object file
-----------------------------------------------------------------------------------------

namespace Restoring

variable {config : Config} {charset : Charset} {file : ObjectFile} {h : Heap} {loaded : Loaded}
  {routines : Nat → Option RoutineId} {arrays : Nat → Option ArrayId}

/-- A loaded call is in order for the loaded routine, as its record is for the record of that. -/
theorem FrameDenotes.wellFormed {height : Nat} {record : FrameRecord} {f : Frame}
    {called : RoutineRecord}
    (denotes : FrameDenotes charset routines arrays h record f)
    (sound : record.Sound (called.code.length / 4) called.localNames.length height)
    (shape : ∀ id, routines record.routine.toNat = some id →
      (h.routine id).code.size = called.code.length / 4
      ∧ (h.routine id).numLocals = called.localNames.length)
    : f.WellFormed (h.routine f.routine) height := by
  obtain ⟨id, items, values, entry, parsed, each, rfl⟩ := denotes
  obtain ⟨code, names⟩ := shape id entry
  have stored : values.length = record.locals.count.toNat := by
    rw [← each.length_eq, Segment.length_items parsed]
  refine ⟨?_, sound.base, ?_, ?_⟩
  · exact code ▸ sound.pc
  · simp only [FrameRecord.restore, List.size_toArray, names, stored]
    exact sound.locals
  · intro handler member
    simp only [FrameRecord.restore, List.mem_reverse, List.mem_map] at member
    obtain ⟨pair, among, rfl⟩ := member
    obtain ⟨target, above, -⟩ := sound.handlers pair among
    exact ⟨code ▸ target, above⟩

/-- The loaded calls have the bases of their records. -/
theorem FrameDenotes.bases {records : List FrameRecord} {fs : List Frame}
    (each : List.Forall₂ (FrameDenotes charset routines arrays h) records fs)
    : fs.map (·.stackBase) = records.map (·.stackBase.toNat) := by
  induction each with
  | nil => rfl
  | cons one _ ih =>
      obtain ⟨_, _, _, -, -, -, rfl⟩ := one
      rw [List.map_cons, List.map_cons, ih]
      rfl

/-- A process that was loaded from a record in order waits for something just if it is waiting. -/
theorem Restoration.keyed {processes : Nat → Option Process}
    (restored : Restoration config charset file h loaded routines arrays processes) {i : Nat}
    {p : Process} (entry : processes i = some p) (made : file.WellMade charset (.process, i))
    : p.Keyed := by
  obtain ⟨record, there, denotes⟩ := restored.process i p entry
  obtain ⟨_, again, state, -⟩ := made
  rw [there] at again
  cases again
  rw [denotes.rest, Process.Keyed]
  rcases state with suspended | runnable | ⟨waiting, key⟩
  · simp [suspended]
  · simp [runnable]
  · simp [waiting, key]

/-- A process that was loaded from a record in order is well formed. -/
theorem Restoration.wellFormed {processes : Nat → Option Process}
    (restored : Restoration config charset file h loaded routines arrays processes) {i : Nat}
    {p : Process} (entry : processes i = some p) (made : file.WellMade charset (.process, i))
    : p.WellFormed h := by
  obtain ⟨record, there, denotes⟩ := restored.process i p entry
  obtain ⟨_, again, -, -, -, bases, calls⟩ := made
  rw [there] at again
  cases again
  obtain ⟨items, parsed, each⟩ := denotes.stack
  have height : p.stack.length = record.stack.count.toNat := by
    rw [← List.length_reverse, ← each.length_eq, Segment.length_items parsed]
  constructor
  · intro f active
    obtain ⟨frameRecord, among, denotesFrame⟩ :=
      exists_of_mem_right denotes.frames f (List.mem_reverse.mpr active)
    obtain ⟨⟨called, found, sound⟩, -⟩ := calls frameRecord among
    rw [height]
    refine denotesFrame.wellFormed sound fun id entry => ?_
    obtain ⟨routineRecord, stored, denotesRoutine⟩ := restored.routine _ id entry
    rw [found] at stored
    cases stored
    exact denotesRoutine.shape
  · have ascending : (p.frames.reverse.map (·.stackBase)).Pairwise (· ≤ ·) := by
      rw [FrameDenotes.bases denotes.frames]
      exact bases
    rwa [List.pairwise_map, List.pairwise_reverse] at ascending

end Restoring

/-- What is loaded is restored from records in order, under either policy. -/
theorem ObjectFile.restoration_of_load {config : Config} {charset : Charset} {file : ObjectFile}
    {h h' : Heap} {loaded : Loaded} (done : file.load config charset h = .ok (h', loaded))
    : ∃ routines arrays processes,
        Restoring.Restoration { config with loadPolicy := .skipMalformed } charset file h' loaded
          routines arrays processes
        ∧ ∀ key, Restoring.Entered routines arrays processes key → file.WellMade charset key := by
  have lenient := file.load_lenient done
  obtain ⟨settled, results, s, base, processed, length, ran⟩ := Restoring.load_processed
    { config with loadPolicy := .skipMalformed } rfl charset file h
  have restored := processed.restoration base length s.skipped.reverse
  rw [ObjectFile.load, ran] at lenient
  cases lenient
  exact ⟨_, _, _, restored, fun _ entered => processed.wellMade base entered⟩

/-- Every loaded process is restored from a record in order. -/
theorem ObjectFile.restored_of_load {config : Config} {charset : Charset} {file : ObjectFile}
    {h h' : Heap} {loaded : Loaded} (done : file.load config charset h = .ok (h', loaded))
    {p : Process} (among : p ∈ loaded.processes)
    : ∃ routines arrays processes i,
        Restoring.Restoration { config with loadPolicy := .skipMalformed } charset file h' loaded
          routines arrays processes
        ∧ processes i = some p
        ∧ file.WellMade charset (.process, i) := by
  obtain ⟨routines, arrays, processes, restored, made⟩ := file.restoration_of_load done
  rw [restored.processesLoaded, List.mem_filterMap] at among
  obtain ⟨i, -, entry⟩ := among
  exact ⟨_, _, _, i, restored, entry, made _ (Option.isSome_iff_exists.mpr ⟨p, entry⟩)⟩

/-- Loading gives well-formed processes only, whatever is in the file. -/
theorem ObjectFile.wellFormed_of_load {config : Config} {charset : Charset} {file : ObjectFile}
    {h h' : Heap} {loaded : Loaded} (done : file.load config charset h = .ok (h', loaded))
    {p : Process} (among : p ∈ loaded.processes)
    : p.WellFormed h' ∧ p.Keyed := by
  obtain ⟨routines, arrays, processes, i, restored, entry, made⟩ := file.restored_of_load done among
  exact ⟨restored.wellFormed entry made, restored.keyed entry made⟩

-----------------------------------------------------------------------------------------
-- Origins and transitions
-----------------------------------------------------------------------------------------

namespace Machine

/-- The machine has a process at the beginning of its life: it is new, has been started with a
routine, or comes out of an object file that was loaded into the world.
-/
inductive Origin : Machine → Prop
  | created (config : Config) (id : Nat) (name : String) (kind : ProcessKind) (w : World)
    : Origin ⟨w, { Process.new config id name with kind }⟩
  | started {config : Config} {id : Nat} {name : String} {kind : ProcessKind} {w : World}
    {r : RoutineId} {args : List Value} {m : Machine}
    (ran : (Exec.start r args).run ⟨w, { Process.new config id name with kind }⟩ = .ok () m)
    : Origin m
  | loaded {config : Config} {charset : Charset} {file : ObjectFile} {w : World} {h : Heap}
    {loaded : Loaded} {p : Process} (done : file.load config charset w.heap = .ok (h, loaded))
    (among : p ∈ loaded.processes)
    : Origin ⟨{ w with heap := h }, p⟩

/-- What can happen to a machine: the events in the life of its process, and, at any time, any
instruction whatever, a step, and any fault being raised.
-/
inductive Transition : Machine → Machine → Prop
  | event {m m' : Machine} (event : Event m m')
    : Transition m m'
  | executed {m : Machine} (i : Instruction)
    : Transition m (stateOf ((Exec.execute i).run m))
  | stepped {m : Machine}
    : Transition m (stateOf (Exec.step.run m))
  | raised {m : Machine} (fault : Fault)
    : Transition m { m with process := m.process.raise fault }

variable {m m' : Machine}

/-- A process is well formed when its life begins. -/
theorem Origin.wellFormed (origin : Origin m) : m.WellFormed := by
  cases origin with
  | created => exact .of_no_frames rfl
  | @started config id name kind w r args m ran =>
      have entered := Exec.stays_start r args ⟨w, { Process.new config id name with kind }⟩
      rw [Exec.Stays, ran] at entered
      exact entered.wellFormed (.of_no_frames rfl)
  | loaded done among => exact (ObjectFile.wellFormed_of_load done among).1

/-- Every event keeps a process well formed, by the kinds of events. -/
theorem Event.wellFormed (event : Event m m') (formed : m.WellFormed) : m'.WellFormed := by
  cases event with
  | advanced running => exact formed.advance
  | begun runnable => exact Process.WellFormed.begin formed
  | woken accepted => exact Process.WellFormed.wake formed accepted
  | resumed accepted => exact Process.WellFormed.resume formed accepted
  | terminated => exact Process.WellFormed.terminate formed
  | relabelled id kind => exact ⟨formed.frames, formed.bases⟩
  | started r args => exact (Exec.stays_start r args m).wellFormed formed
  | entered r args wantResult => exact (Exec.stays_enter r args wantResult m).wellFormed formed
  | called c args wantResult => exact (Exec.stays_call c args wantResult m).wellFormed formed
  | pushed v => exact (Exec.stays_push v m).wellFormed formed
  | surrounded w kept =>
      refine ⟨?_, formed.bases⟩
      intro f active
      rw [kept f active]
      exact formed.frames f active

/-- What happens to a process leaves it well formed. -/
theorem Transition.wellFormed (transition : Transition m m') (formed : m.WellFormed)
    : m'.WellFormed := by
  cases transition with
  | event event => exact event.wellFormed formed
  | executed i => exact wellFormed_execute i formed
  | stepped => exact wellFormed_step formed
  | raised fault => exact Process.WellFormed.raise formed fault

/-- Whatever happens to a well-formed process leaves it well formed, by induction on the run. -/
theorem wellFormed_of_transitions (run : Relation.ReflTransGen Transition m m')
    (formed : m.WellFormed)
    : m'.WellFormed := by
  induction run with
  | refl => exact formed
  | tail _ transition ih => exact transition.wellFormed ih

-----------------------------------------------------------------------------------------
-- What a process waits for
-----------------------------------------------------------------------------------------

theorem Changes.keyed (changes : Changes m m') (keyed : m.process.Keyed) : m'.process.Keyed := by
  have same := changes.sameLife
  rw [Process.Keyed, same.state, same.waitingFor]
  exact keyed

theorem Origin.keyed (origin : Origin m) : m.process.Keyed := by
  have new (config : Config) (id : Nat) (name : String) (kind : ProcessKind)
      : ({ Process.new config id name with kind } : Process).Keyed := by
    simp [Process.Keyed, Process.new]
  cases origin with
  | created => exact new ..
  | @started config id name kind w r args m ran =>
      have entered := Exec.stays_start r args ⟨w, { Process.new config id name with kind }⟩
      rw [Exec.Stays, ran] at entered
      exact entered.keyed (new ..)
  | loaded done among => exact (ObjectFile.wellFormed_of_load done among).2

/-- Raising a fault leaves a running process running, or lets it fail. -/
theorem keyed_raise {p : Process} (keyed : p.Keyed) (running : p.state = .running) (fault : Fault)
    : (p.raise fault).Keyed := by
  rcases p.raise_cases fault with ⟨-, _, _, _, _, _, -, -, -, raised⟩ | raised
  · rw [raised]
    exact keyed
  · rw [raised]
    simpa [Process.Keyed, running] using keyed

/-- One step of a running process leaves it waiting just if it asked for something. -/
theorem keyed_advance (keyed : m.process.Keyed) (running : m.process.state = .running)
    : m.advance.process.Keyed := by
  have advanced := m.advanced
  generalize m.advance = after at advanced ⊢
  cases advanced with
  | obeyed changes signal =>
      have none : m.process.waitingFor = none := by simpa [Process.Keyed, running] using keyed
      have same := changes.sameLife
      cases signal <;>
        simp [obey, Process.Keyed, Process.release, same.state, same.waitingFor, running, none]
  | raised changes fault =>
      exact keyed_raise (changes.keyed keyed) (changes.sameLife.state.trans running) fault
  | endless => exact keyed
  | ended => simp [Process.Keyed, Process.release]
  | returned => exact keyed
  | overflowed called fault =>
      refine keyed_raise ?_ ?_ fault
      · exact keyed
      · exact running

/-- Every event leaves the process waiting for something just if it is waiting, by the kinds of
events.
-/
theorem Event.keyed (event : Event m m') (keyed : m.process.Keyed) : m'.process.Keyed := by
  cases event with
  | advanced running => exact keyed_advance keyed running
  | begun runnable =>
      have none : m.process.waitingFor = none := by simpa [Process.Keyed, runnable] using keyed
      simp only [Process.begin]
      split
      · exact keyed_raise (by simp [Process.Keyed, none]) rfl _
      · simp [Process.Keyed, none]
  | woken accepted =>
      obtain ⟨suspended, rfl⟩ := Process.wake_eq_ok.mp accepted
      simpa [Process.Keyed, suspended] using keyed
  | resumed accepted =>
      obtain ⟨-, ⟨-, rfl⟩ | ⟨-, rfl⟩⟩ := Process.resume_eq_ok.mp accepted
      · simp [Process.Keyed]
      · simp [Process.Keyed]
  | terminated =>
      rw [Process.terminate]
      split
      · exact keyed
      · simp [Process.Keyed, Process.release]
  | relabelled id kind => exact keyed
  | started r args => exact (Exec.stays_start r args m).keyed keyed
  | entered r args wantResult => exact (Exec.stays_enter r args wantResult m).keyed keyed
  | called c args wantResult => exact (Exec.stays_call c args wantResult m).keyed keyed
  | pushed v => exact (Exec.stays_push v m).keyed keyed
  | surrounded w kept => exact keyed

/-- A process that has been through any events is waiting just if it waits for something. -/
theorem keyed_of_events (origin : Origin m) (run : Relation.ReflTransGen Event m m')
    : m'.process.Keyed := by
  induction run with
  | refl => exact origin.keyed
  | tail _ event ih => exact event.keyed ih

-----------------------------------------------------------------------------------------
-- Processes that are underway
-----------------------------------------------------------------------------------------

/-- A process that is started is in a call. -/
theorem frames_of_start {r : RoutineId} {args : List Value}
    (ran : (Exec.start r args).run m = .ok () m')
    : m'.process.frames ≠ [] := by
  obtain ⟨p, m₁, found, ran⟩ := run_bind_eq_ok.mp ran
  cases found
  dsimp only at ran
  split at ran
  · obtain ⟨_, _, raised, -⟩ := run_bind_eq_ok.mp ran
    cases raised
  obtain ⟨h, m₂, found, ran⟩ := run_bind_eq_ok.mp ran
  cases found
  split at ran
  · obtain ⟨_, m₃, -, ran⟩ := run_bind_eq_ok.mp ran
    obtain ⟨f, same, -⟩ := Exec.enter_eq_ok ran
    rw [same]
    exact List.cons_ne_nil _ _
  · cases ran

/-- An elementary change leaves a call where there is one, by the cases of the change. -/
theorem Change.frames_ne_nil (change : Change m m') (active : m.process.frames ≠ [])
    : m'.process.frames ≠ [] := by
  cases change with
  | world | push | drop | swap => exact active
  | assign | goto | install | uninstall | enter => exact List.cons_ne_nil _ _

theorem Changes.frames_ne_nil (changes : Changes m m') (active : m.process.frames ≠ [])
    : m'.process.frames ≠ [] := by
  induction changes with
  | refl => exact active
  | tail _ change ih => exact change.frames_ne_nil ih

/-- Elementary changes leave no call, so the process stays under way. -/
theorem Changes.underway (changes : Changes m m') (underway : m.process.Underway)
    : m'.process.Underway := by
  intro none
  rw [changes.sameLife.state]
  exact underway (by_contra fun active => changes.frames_ne_nil active none)

/-- A fault leaves the call of its handler, or ends the process. -/
theorem underway_raise (p : Process) (fault : Fault) : (p.raise fault).Underway := by
  rcases p.raise_cases fault with ⟨-, _, _, _, _, _, -, -, -, raised⟩ | raised
  · rw [raised]
    exact fun none => absurd none (List.cons_ne_nil _ _)
  · rw [raised]
    exact fun _ => rfl

/-- One step leaves the process in a call or ends it: only the outermost call is left without a
caller.
-/
theorem underway_advance (underway : m.process.Underway) (running : m.process.state = .running)
    : m.advance.process.Underway := by
  have advanced := m.advanced
  generalize m.advance = after at advanced ⊢
  cases advanced with
  | obeyed changes signal =>
      have active : m.process.frames ≠ [] := underway.frames_ne_nil (by rw [running]; rfl)
      have kept := changes.frames_ne_nil active
      cases signal with
      | next | suspend | wait => exact fun none => absurd none kept
      | terminate | ended => exact fun _ => rfl
  | raised | overflowed => exact underway_raise _ _
  | endless => exact underway
  | ended => exact fun _ => rfl
  | returned called => exact fun none => absurd none called

/-- Every event leaves the process in a call unless it has ended, by the kinds of events. -/
theorem Event.underway (event : Event m m') (underway : m.process.Underway)
    : m'.process.Underway := by
  cases event with
  | advanced running => exact underway_advance underway running
  | begun runnable =>
      simp only [Process.begin]
      split
      · exact underway_raise _ _
      · exact fun none => absurd none (underway.frames_ne_nil (by rw [runnable]; rfl))
  | woken accepted =>
      obtain ⟨suspended, rfl⟩ := Process.wake_eq_ok.mp accepted
      exact fun none => absurd none (underway.frames_ne_nil (by rw [suspended]; rfl))
  | resumed accepted =>
      obtain ⟨waiting, ⟨-, rfl⟩ | ⟨-, rfl⟩⟩ := Process.resume_eq_ok.mp accepted
      all_goals exact fun none => absurd none (underway.frames_ne_nil (by rw [waiting]; rfl))
  | terminated =>
      rw [Process.terminate]
      split
      · exact underway
      · exact fun _ => rfl
  | relabelled | surrounded => exact underway
  | started r args => exact (Exec.stays_start r args m).underway underway
  | entered r args wantResult => exact (Exec.stays_enter r args wantResult m).underway underway
  | called c args wantResult => exact (Exec.stays_call c args wantResult m).underway underway
  | pushed v => exact (Exec.stays_push v m).underway underway

/-- A process that is in a call stays in one until it ends, by induction on the events. -/
theorem underway_of_events (active : m.process.frames ≠ [])
    (run : Relation.ReflTransGen Event m m')
    : m'.process.Underway := by
  induction run with
  | refl => exact fun none => absurd none active
  | tail _ event ih => exact event.underway ih

-----------------------------------------------------------------------------------------
-- Processes that are undecided
-----------------------------------------------------------------------------------------

theorem Changes.undecided (changes : Changes m m') (undecided : m.process.Undecided)
    : m'.process.Undecided := by
  have same := changes.sameLife
  rw [Process.Undecided, same.state, same.result, same.failure]
  exact undecided

theorem Origin.undecided (origin : Origin m) : m.process.Undecided := by
  cases origin with
  | created => exact fun _ => ⟨rfl, rfl⟩
  | @started config id name kind w r args m ran =>
      have entered := Exec.stays_start r args ⟨w, { Process.new config id name with kind }⟩
      rw [Exec.Stays, ran] at entered
      exact entered.undecided fun _ => ⟨rfl, rfl⟩
  | loaded done among =>
      obtain ⟨_, _, _, i, restored, entry, -⟩ := ObjectFile.restored_of_load done among
      obtain ⟨record, -, denotes⟩ := restored.process i _ entry
      rw [denotes.rest]
      exact fun _ => ⟨rfl, rfl⟩

/-- One step leaves the process undecided or ends it: only the outermost call returns a result. -/
theorem undecided_advance (undecided : m.process.Undecided) (running : m.process.state = .running)
    : m.advance.process.Undecided := by
  have advanced := m.advanced
  generalize m.advance = after at advanced ⊢
  cases advanced with
  | obeyed changes signal =>
      have kept := changes.undecided undecided
      have state := changes.sameLife.state.trans running
      cases signal with
      | next => exact kept
      | suspend | wait => exact fun _ => kept (by rw [state]; rfl)
      | terminate | ended => exact fun going => nomatch going
  | raised changes fault => exact (changes.undecided undecided).raise fault
  | endless => exact undecided
  | ended => exact fun going => nomatch going
  | returned => exact undecided
  | overflowed called fault =>
      refine Process.Undecided.raise ?_ fault
      exact undecided

/-- Every event leaves the process undecided or ends it, by the kinds of events. -/
theorem Event.undecided (event : Event m m') (undecided : m.process.Undecided)
    : m'.process.Undecided := by
  cases event with
  | advanced running => exact undecided_advance undecided running
  | begun runnable =>
      have going := undecided (by rw [runnable]; rfl)
      simp only [Process.begin]
      split
      · refine Process.Undecided.raise ?_ _
        exact fun _ => going
      · exact fun _ => going
  | woken accepted =>
      obtain ⟨suspended, rfl⟩ := Process.wake_eq_ok.mp accepted
      exact fun _ => undecided (by rw [suspended]; rfl)
  | resumed accepted =>
      obtain ⟨waiting, ⟨-, rfl⟩ | ⟨-, rfl⟩⟩ := Process.resume_eq_ok.mp accepted
      all_goals exact fun _ => undecided (by rw [waiting]; rfl)
  | terminated =>
      rw [Process.terminate]
      split
      · exact undecided
      · exact fun going => nomatch going
  | relabelled | surrounded => exact undecided
  | started r args => exact (Exec.stays_start r args m).undecided undecided
  | entered r args wantResult => exact (Exec.stays_enter r args wantResult m).undecided undecided
  | called c args wantResult => exact (Exec.stays_call c args wantResult m).undecided undecided
  | pushed v => exact (Exec.stays_push v m).undecided undecided

/-- A process that has been through any events is undecided until it ends, by induction on them. -/
theorem undecided_of_events (origin : Origin m) (run : Relation.ReflTransGen Event m m')
    : m'.process.Undecided := by
  induction run with
  | refl => exact origin.undecided
  | tail _ event ih => exact event.undecided ih

-----------------------------------------------------------------------------------------
-- What well-formedness rules out
-----------------------------------------------------------------------------------------

/-- Nothing is looked for where it is not: the program counter is at an instruction or at the end of
the code, values that are taken off the stack, looked at or exchanged are on it, and the stack
reaches to the height that leaving a call cuts it to.
-/
structure InRange (m : Machine) : Prop where
  counter
    : ∀ f outer,
        m.process.frames = f :: outer
        → (∃ i, (m.routineOf f).code[f.pc]? = some i
            ∧ Exec.step.run m
              = (Exec.execute i).run (m.withFrames ({ f with pc := f.pc + 1 } :: outer)))
          ∨ (f.pc = (m.routineOf f).code.size ∧ Exec.step.run m = (Exec.leave none).run m)
  split
    : ∀ count values m',
        (Exec.popMany count).run m = .ok values m'
        → values.length = count ∧ m.process.stack = values.reverse ++ m'.process.stack
  look : ∀ depth v m', (Exec.peek depth).run m = .ok v m' → depth < m.process.stack.length
  swap
    : ∀ i m',
        StackOp.ofByte? i.minor = some .swap
        → (Exec.rearrange i).run m = .ok () m'
        → Exec.operand i + 1 < m.process.stack.length
  cut
    : ∀ f ∈ m.process.frames,
        (Process.cut m.process.stack f.stackBase).length = f.stackBase

/-- A well-formed process has its counter in its code and its handlers on its stack. -/
theorem WellFormed.inRange (formed : m.WellFormed) : m.InRange where
  counter f outer frames := by
    have inside := (formed.frames f (by simp [frames])).pc_le
    rw [Exec.run_step frames]
    cases next : (m.routineOf f).code[f.pc]? with
    | some i => exact .inl ⟨i, rfl, rfl⟩
    | none =>
        have atEnd : f.pc = (m.routineOf f).code.size :=
          Nat.le_antisymm inside (Array.getElem?_eq_none_iff.mp next)
        exact .inr ⟨atEnd, if_pos atEnd⟩
  split count values m' done := by
    rcases Exec.popMany_cases count m with ⟨present, popped⟩ | ⟨-, _, failed⟩
    · rw [popped] at done
      cases done
      rw [List.length_reverse, List.length_take, List.reverse_reverse]
      exact ⟨by omega, (List.take_append_drop count _).symm⟩
    · rw [failed] at done
      cases done
  look depth v m' done := by
    obtain ⟨-, found, -⟩ := Exec.peek_eq_ok done
    exact (List.getElem?_eq_some_iff.mp found).1
  swap i m' meant done := by
    obtain ⟨upper, between, lower, rest, stack, length, -, -⟩ := Exec.swap_eq_ok meant done
    rw [stack, ← length]
    simp only [List.length_append, List.length_cons]
    omega
  cut f active := by
    rw [Process.length_cut]
    exact Nat.min_eq_left (formed.frames f active).base_le

/-- A process is well formed all along, if it has just begun its life or is well formed to begin with,
whatever happens to it and also in the middle of a step. So no step finds its program counter outside
the code, and none takes, looks at or exchanges values that are not on the stack.
-/
theorem wellFormed_throughout {m m' m'' : Machine} (start : m.Origin ∨ m.WellFormed)
    (run : Relation.ReflTransGen Transition m m') (changed : Changes m' m'')
    : m.WellFormed ∧ m''.WellFormed ∧ m''.InRange := by
  have first : m.WellFormed := by
    rcases start with origin | formed
    · exact origin.wellFormed
    · exact formed
  have formed := changed.wellFormed (wellFormed_of_transitions run first)
  exact ⟨first, formed, formed.inRange⟩

/-- A call in a call of a new process. -/
theorem nestedCall_wellFormed : nestedCall.WellFormed ∧ nestedCall.InRange := by
  have created : fresh.Origin := .created {} 0 "p" .default .empty
  have outer : Event fresh freshCall := .entered ⟨0⟩ [] true
  have inner : Event freshCall nestedCall := .entered ⟨0⟩ [] true
  have run := (Relation.ReflTransGen.single (Transition.event outer)).tail (Transition.event inner)
  exact (wellFormed_throughout (.inl created) run .refl).2

end Machine
end TaskMachine

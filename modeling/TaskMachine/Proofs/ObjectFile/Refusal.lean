import Mathlib.Data.List.Induction
import TaskMachine.Proofs.ObjectFile.Complete
import TaskMachine.Proofs.ObjectFile.Growth

/-!
What a writer is left with by calls that it refuses. Such a call takes nothing away, and it leaves no
routine in progress, but the arrays that it was storing the elements of stay without them. Those
arrays, and whatever leads to one of them, are what cannot be loaded from the file.
-/

namespace TaskMachine

/-- The record of an array is without the elements that the array has. -/
def ObjectFile.Unfinished (file : ObjectFile) (n : Nat) : Prop :=
  ∃ dims, file.arrays[n]? = some ⟨dims, ⟨0, []⟩⟩ ∧ volume (dims.map UInt32.toNat) ≠ 0

namespace Writer

variable {α β : Type} {h : Heap} {P : Value → Prop} {R : RoutineId → Prop} {pending : List Nat}
  {w w' : Writer} {numbering : Numbering Writer}

-----------------------------------------------------------------------------------------
-- Steps that may break off
-----------------------------------------------------------------------------------------

/-- The record of an array is there, but for its elements. -/
def Shell (w : Writer) (n : Nat) : Prop :=
  ∃ dims, w.file.arrays[n]? = some ⟨dims, ⟨0, []⟩⟩

theorem Shell.mono {n : Nat} (shell : w.Shell n) (grows : Grows w w') : w'.Shell n := by
  obtain ⟨dims, found⟩ := shell
  exact ⟨dims, grows.arrays _ _ found⟩

/-- The step keeps all records sound. If it breaks off, it leaves new arrays without elements. -/
structure Keeps (h : Heap) (P : Value → Prop) (R : RoutineId → Prop) (x : Writing α) : Prop where
  completed
    : ∀ pending w a w',
        Sound h P R pending w
        → x.run w = .ok a w'
        → Sound h P R pending w'
  broken
    : ∀ pending w fault w',
        Sound h P R pending w
        → x.run w = .error fault w'
        → ∃ left, Sound h P R (left ++ pending) w'
          ∧ ∀ n ∈ left, w.file.arrays.length ≤ n ∧ w'.Shell n

theorem Keeps.pure (a : α) : Keeps h P R (pure a : Writing α) where
  completed _ _ _ _ sound ran := by
    cases ran
    exact sound
  broken _ _ _ _ _ ran := by cases ran

theorem Keeps.throw (fault : Fault) : Keeps h P R (throw fault : Writing α) where
  completed _ _ _ _ _ ran := by cases ran
  broken _ _ _ _ sound ran := by
    cases ran
    exact ⟨[], sound, by simp⟩

/-- The parts of a computation may be looked at one after another, as each only adds. -/
theorem Keeps.bind {x : Writing α} {f : α → Writing β} (adds : Adds x) (first : Keeps h P R x)
    (next : ∀ a, Keeps h P R (f a))
    : Keeps h P R (x >>= f) := by
  constructor
  · intro pending w b w' sound ran
    obtain ⟨a, w₁, ranFirst, ranNext⟩ := run_bind_eq_ok.mp ran
    exact (next a).completed _ _ _ _ (first.completed _ _ _ _ sound ranFirst) ranNext
  · intro pending w fault w' sound ran
    rcases run_bind_eq_error.mp ran with ranFirst | ⟨a, w₁, ranFirst, ranNext⟩
    · exact first.broken _ _ _ _ sound ranFirst
    · obtain ⟨left, sound', new⟩ :=
        (next a).broken _ _ _ _ (first.completed _ _ _ _ sound ranFirst) ranNext
      have more := (adds.of_ok ranFirst).1.arrays_le
      exact ⟨left, sound', fun n member => (new n member).imp (Nat.le_trans more) id⟩

/-- Steps for the members of a list keep all records sound if each does, by induction on the list. -/
theorem Keeps.mapM {f : α → Writing β} {items : List α} (adds : ∀ a, Adds (f a))
    (each : ∀ a ∈ items, Keeps h P R (f a))
    : Keeps h P R (items.mapM f) := by
  induction items with
  | nil => exact .pure _
  | cons a rest ih =>
      rw [List.mapM_cons]
      refine .bind (adds a) (each a List.mem_cons_self) fun b => ?_
      exact .bind (.mapM adds rest) (ih fun a member => each a (List.mem_cons_of_mem _ member))
        fun bs => .pure _

-----------------------------------------------------------------------------------------
-- Values, routines and arrays
-----------------------------------------------------------------------------------------

/-- Giving numbers to what is in the scope keeps all records sound. -/
structure KeepsNumbers (h : Heap) (P : Value → Prop) (R : RoutineId → Prop)
    (numbering : Numbering Writer) : Prop where
  routine : ∀ r, R r → Keeps h P R (numbering.routine r)
  array : ∀ a, P (.array a) → Keeps h P R (numbering.array a)

section

variable (scope : h.Scope P R) (once : NumbersOnce numbering)
  (keeps : KeepsNumbers h P R numbering)
include scope once keeps

private theorem keeps_saveValue {v : Value} (among : P v)
    : Keeps h P R (saveValue .utf8 h numbering v) := by
  cases v with
  | null | integer | boolean | float => exact .pure _
  | string s =>
      rw [saveValue]
      split
      · exact .pure _
      · exact .throw _
  | callable c =>
      rw [saveValue]
      split
      · rename_i r direct
        exact .bind (once.routine r) (keeps.routine r (scope.called c r among direct))
          fun n => .pure _
      · exact .throw _
  | array a => exact .bind (once.array a) (keeps.array a among) fun n => .pure _
  | object o =>
      rw [saveValue]
      split
      · exact .pure _
      · exact .throw _

/-- A segment keeps its scope if all its values are in it. -/
theorem keeps_segment {values : List Value} (among : ∀ v ∈ values, P v)
    : Keeps h P R (segment .utf8 h numbering values) := by
  have each : Keeps h P R (values.mapM (saveValue .utf8 h numbering)) :=
    .mapM (adds_saveValue once) fun v member => keeps_saveValue scope once keeps (among v member)
  have adds : Adds (values.mapM (saveValue .utf8 h numbering)) := .mapM (adds_saveValue once) values
  exact .bind (.bind adds fun _ => .pure _) (.bind adds each fun _ => .pure _) fun _ => .pure _

/-- A routine whose literals cannot be stored leaves what they left. -/
theorem keeps_routine (numbers : Numbers h P R numbering) {r : RoutineId} (among : R r)
    : Keeps h P R (routine .utf8 h numbering r) where
  completed pending w n w' sound ran := (sound_of_routine scope numbers among sound ran).1
  broken pending w fault w' sound ran := by
    cases known : numberOf w.routineIds r with
    | some n =>
        rw [run_routine_known known] at ran
        cases ran
    | none =>
        by_cases busy : r ∈ w.inProgress
        · rw [run_routine_busy known busy] at ran
          cases ran
          exact ⟨[], sound, by simp⟩
        · rw [run_routine_new known busy] at ran
          split at ran
          · cases ran
          · rename_i w₁ stored
            cases ran
            have inside : Sound h P R pending (w.withBusy (r :: w.inProgress)) := { sound with }
            obtain ⟨left, sound₁, new⟩ :=
              (keeps_segment scope once keeps (scope.literals r among).2).broken _ _ _ _ inside stored
            exact ⟨left, { sound₁ with }, new⟩

/-- An array whose elements cannot be stored is left without them. -/
theorem keeps_array (numbers : Numbers h P R numbering) {a : ArrayId} (among : P (.array a))
    : Keeps h P R (array .utf8 h numbering a) where
  completed pending w n w' sound ran := (sound_of_array scope numbers among sound ran).1
  broken pending w fault w' sound ran := by
    cases known : numberOf w.arrayIds a with
    | some n =>
        rw [run_array_known known] at ran
        cases ran
    | none =>
        rw [run_array_new known] at ran
        split at ran
        · cases ran
        · rename_i w₁ stored
          cases ran
          obtain ⟨left, sound₁, new⟩ :=
            (keeps_segment scope once keeps (scope.cells a among).2).broken _ _ _ _
              (sound.withArray known among ⟨0, []⟩) stored
          have entered : (w.withArray a ⟨(h.grid a).dims.map UInt32.ofNat, ⟨0, []⟩⟩).Shell
              w.file.arrays.length := ⟨(h.grid a).dims.map UInt32.ofNat, by simp [withArray]⟩
          have adds : Adds (segment .utf8 h numbering (h.grid a).cells.toList) := adds_segment once _
          have grows := adds.grows (w.withArray a ⟨(h.grid a).dims.map UInt32.ofNat, ⟨0, []⟩⟩)
          rw [stored, stateOf_error] at grows
          refine ⟨left ++ [w.file.arrays.length], ?_, fun n member => ?_⟩
          · rwa [List.append_assoc]
          · rcases List.mem_append.mp member with inner | here
            · obtain ⟨later, shell⟩ := new n inner
              simp only [withArray, List.length_append, List.length_singleton] at later
              exact ⟨by omega, shell⟩
            · obtain rfl := List.mem_singleton.mp here
              exact ⟨Nat.le_refl _, entered.mono grows⟩

end

section

variable (scope : h.Scope P R)
include scope

/-- The numbering of any depth keeps all records sound, by induction on the depth. -/
theorem keepsNumbers_numberingTo (depth : Nat) : KeepsNumbers h P R (numberingTo .utf8 h depth) := by
  induction depth with
  | zero => exact ⟨fun _ _ => .throw _, fun _ _ => .throw _⟩
  | succ depth ih =>
      have once := numbersOnce_numberingTo .utf8 h depth
      have numbers := numbers_numberingTo scope depth
      exact ⟨fun r among => keeps_routine scope once ih numbers among,
        fun a among => keeps_array scope once ih numbers among⟩

private theorem keeps_frameRecord {f : Frame} (among : FrameIn P R f)
    : Keeps h P R (frameRecord .utf8 h f) := by
  have once := numbersOnce .utf8 h
  have keeps : KeepsNumbers h P R (Writer.numbering .utf8 h) := keepsNumbers_numberingTo scope _
  obtain ⟨called, -, values⟩ := among
  exact .bind (once.routine _) (keeps.routine _ called) fun _ =>
    .bind (adds_segment once _) (keeps_segment scope once keeps values) fun _ => .pure _

/-- A process keeps the scope that it is in. -/
theorem keeps_processRecord {p : Process} (among : ProcessIn P R p)
    : Keeps h P R (processRecord .utf8 h p) := by
  have once := numbersOnce .utf8 h
  have keeps : KeepsNumbers h P R (Writer.numbering .utf8 h) := keepsNumbers_numberingTo scope _
  have stack := keeps_segment scope once keeps
    fun v member => among.stack.2 v (List.mem_reverse.mp member)
  have frames : Keeps h P R (p.frames.reverse.mapM (frameRecord .utf8 h)) :=
    .mapM adds_frameRecord fun f member =>
      keeps_frameRecord scope (among.frames f (List.mem_reverse.mp member))
  have stored := Keeps.bind (adds_segment once _) stack fun segment =>
    Keeps.bind (Adds.mapM adds_frameRecord _) frames fun records => Keeps.pure ({
      name := p.name, kind := p.kind, state := p.state, waitingFor := p.waitingFor, stack := segment
      frames := records } : ProcessRecord)
  simp only [processRecord]
  split
  · exact .bind (.throw _) (.throw _) fun _ => stored
  · exact stored

end

-----------------------------------------------------------------------------------------
-- Calls of a writer
-----------------------------------------------------------------------------------------

/-- What a writer can be asked to store. -/
inductive Call
  | process (p : Process)
  | routine (r : RoutineId)
  | array (a : ArrayId)

/-- Stores what is asked for. -/
def Call.make (h : Heap) : Call → Writing Unit
  | process p => addProcess .utf8 h p
  | routine r => do let _ ← addRoutine .utf8 h r
  | array a => do let _ ← addArray .utf8 h a

/-- What is asked for is in the scope, and a process fits the format. -/
def Call.In (h : Heap) (P : Value → Prop) (R : RoutineId → Prop) : Call → Prop
  | process p => ProcessIn P R p ∧ p.Fits h
  | routine r => R r
  | array a => P (.array a)

/-- The writer after calls, any of which it may have refused. -/
def attempts (h : Heap) (calls : List Call) (w : Writer) : Writer :=
  calls.foldl (fun w call => stateOf ((call.make h).run w)) w

/-- A refused call takes nothing away, and it adds no process. -/
theorem grows_of_refused {call : Call} {fault : Fault}
    (refused : (call.make h).run w = .error fault w')
    : Grows w w' := by
  have once := numbersOnce .utf8 h
  cases call with
  | process p =>
      rw [Call.make, addProcess_eq, EStateM.run_bind] at refused
      have adds : Adds (processRecord .utf8 h p) := adds_processRecord p
      have grows := adds.grows w
      split at refused
      · cases refused
      · rename_i ran
        rw [ran] at grows
        cases refused
        exact grows
  | routine r =>
      have grows : Grows w (stateOf ((Call.make h (.routine r)).run w)) :=
        (Adds.bind (once.routine r) fun _ => .pure ()).grows w
      rwa [refused] at grows
  | array a =>
      have grows : Grows w (stateOf ((Call.make h (.array a)).run w)) :=
        (Adds.bind (once.array a) fun _ => .pure ()).grows w
      rwa [refused] at grows

/-- Whatever is added to a file keeps the scope that it is in. -/
theorem keeps_call (scope : h.Scope P R) {call : Call} (among : call.In h P R)
    : Keeps h P R (call.make h) := by
  have once := numbersOnce .utf8 h
  have keeps : KeepsNumbers h P R (Writer.numbering .utf8 h) := keepsNumbers_numberingTo scope _
  cases call with
  | process p =>
      rw [Call.make, addProcess_eq]
      refine .bind (adds_processRecord p) (keeps_processRecord scope among.1) fun record => ?_
      refine ⟨fun _ _ _ _ sound ran => ?_, fun _ _ _ _ _ ran => by cases ran⟩
      cases ran
      exact { sound with }
  | routine r => exact .bind (once.routine r) (keeps.routine r among) fun _ => .pure ()
  | array a => exact .bind (once.array a) (keeps.array a among) fun _ => .pure ()

/-- Everything in the writer is in order but for arrays that are left without elements. -/
structure Held (h : Heap) (P : Value → Prop) (R : RoutineId → Prop) (pending : List Nat) (w : Writer)
    : Prop where
  sound : Sound h P R pending w
  shells : ∀ n ∈ pending, w.Shell n
  processes
    : ∀ record ∈ w.file.processes,
        ∃ p, p.Fits h ∧ isStorable p = true ∧ ProcessStored h w p record

/-- What is added leaves in order what was there, but for the arrays without elements that it left. -/
theorem Held.grown (held : Held h P R pending w) (left : List Nat) (grows : Grows w w')
    (sound : Sound h P R (left ++ pending) w') (new : ∀ n ∈ left, w'.Shell n)
    : Held h P R (left ++ pending) w' := by
  refine ⟨sound, fun n member => ?_, ?_⟩
  · rcases List.mem_append.mp member with here | before
    · exact new n here
    · exact (held.shells n before).mono grows
  · rw [grows.processes]
    intro record member
    obtain ⟨p, fits, storable, stored⟩ := held.processes record member
    exact ⟨p, fits, storable, stored.mono grows.toMoreNumbers⟩

/-- An accepted call leaves no array without elements. -/
theorem Held.accepted (scope : h.Scope P R) (held : Held h P R pending w) {call : Call} {u : Unit}
    (among : call.In h P R) (ran : (call.make h).run w = .ok u w')
    : Held h P R pending w' := by
  have once := numbersOnce .utf8 h
  have kept := (keeps_call scope among).completed _ _ _ _ held.sound ran
  cases call with
  | process p =>
      obtain ⟨storable, w₁, record, sound, grows, stored, rfl⟩ :=
        sound_of_addProcess scope among.1 held.sound ran
      obtain ⟨-, shells, processes⟩ := held.grown [] grows sound (by simp)
      refine ⟨kept, shells, fun record' member => ?_⟩
      rcases List.mem_append.mp member with before | last
      · exact processes record' before
      · obtain rfl := List.mem_singleton.mp last
        exact ⟨p, among.2, storable, stored⟩
  | routine r =>
      have grows := ((Adds.bind (once.routine r) fun _ => .pure ()).of_ok ran).1
      exact held.grown [] grows kept (by simp)
  | array a =>
      have grows := ((Adds.bind (once.array a) fun _ => .pure ()).of_ok ran).1
      exact held.grown [] grows kept (by simp)

/-- A refused call leaves new arrays without elements, and everything else in order. -/
theorem Held.refused (scope : h.Scope P R) (held : Held h P R pending w) {call : Call} {fault : Fault}
    (among : call.In h P R) (ran : (call.make h).run w = .error fault w')
    : ∃ left, Held h P R (left ++ pending) w' ∧ ∀ n ∈ left, w.file.arrays.length ≤ n := by
  obtain ⟨left, sound, new⟩ := (keeps_call scope among).broken _ _ _ _ held.sound ran
  exact ⟨left, held.grown left (grows_of_refused ran) sound fun n member => (new n member).2,
    fun n member => (new n member).1⟩

/-- The array has been entered by a call that was refused. -/
def Abandoned (h : Heap) (calls : List Call) (n : Nat) : Prop :=
  ∃ before call after fault w',
    calls = before ++ call :: after
    ∧ (call.make h).run (attempts h before new) = .error fault w'
    ∧ (attempts h before new).file.arrays.length ≤ n
    ∧ n < w'.file.arrays.length

theorem Abandoned.append {calls : List Call} {n : Nat} (abandoned : Abandoned h calls n)
    (more : List Call)
    : Abandoned h (calls ++ more) n := by
  obtain ⟨before, call, after, fault, w', rfl, rest⟩ := abandoned
  exact ⟨before, call, after ++ more, fault, w', by simp, rest⟩

/-- After any calls everything is in order but for arrays that refused calls have entered, by
induction on the calls.
-/
theorem held_of_attempts (scope : h.Scope P R) {calls : List Call}
    (among : ∀ call ∈ calls, call.In h P R)
    : ∃ pending, Held h P R pending (attempts h calls new) ∧ ∀ n ∈ pending, Abandoned h calls n := by
  induction calls using List.reverseRecOn with
  | nil =>
      refine ⟨[], ⟨sound_new h P R, by simp, ?_⟩, by simp⟩
      simp [attempts, new, ObjectFile.empty]
  | append_singleton calls call ih =>
      obtain ⟨pending, held, abandoned⟩ :=
        ih fun call member => among call (List.mem_append_left _ member)
      have last := among call (by simp)
      have made : attempts h (calls ++ [call]) new
          = stateOf ((call.make h).run (attempts h calls new)) := by
        simp [attempts]
      rw [made]
      cases ran : (call.make h).run (attempts h calls new) with
      | ok u w' =>
          exact ⟨pending, held.accepted scope last ran, fun n member => (abandoned n member).append _⟩
      | error fault w' =>
          obtain ⟨left, held', new_⟩ := held.refused scope last ran
          refine ⟨left ++ pending, held', fun n member => ?_⟩
          rcases List.mem_append.mp member with here | before
          · obtain ⟨dims, found⟩ := held'.shells n member
            exact ⟨calls, call, [], fault, w', rfl, ran, new_ n here,
              (List.getElem?_eq_some_iff.mp found).1⟩
          · exact (abandoned n before).append _

-----------------------------------------------------------------------------------------
-- What can be loaded
-----------------------------------------------------------------------------------------

/-- An array that is left without elements is unfinished, unless there are none to be stored. -/
theorem Held.array_wellMade (held : Held h P R pending w) (inOrder : h.InOrder P R) {n : Nat}
    (inside : n < w.file.arrays.length) (finished : ¬ w.file.Unfinished n)
    : w.file.WellMade .utf8 (.array, n) := by
  by_cases waits : n ∈ pending
  · obtain ⟨a, numbered⟩ := held.sound.arrayIds.all n inside
    obtain ⟨live, elements, found, -⟩ := held.sound.array a n numbered
    obtain ⟨dims, shell⟩ := held.shells n waits
    have empty : volume (dims.map UInt32.toNat) = 0 :=
      by_contra fun some => finished ⟨dims, shell, some⟩
    obtain ⟨some, fits⟩ := inOrder.shape live
    rw [found] at shell
    cases shell
    exact ⟨_, found, ⟨some, fits, empty.symm⟩, [], rfl, by simp⟩
  · exact held.sound.array_wellMade inOrder inside waits

/-- What cannot be loaded is what leads to an unfinished array. -/
theorem Held.unloadable_iff (held : Held h P R pending w) (inOrder : h.InOrder P R)
    (few : w.file.routines.length ≤ 0x100000000) (key : RecordKey)
    : w.file.Unloadable .utf8 key
      ↔ ∃ n, w.file.Unfinished n ∧ Relation.ReflTransGen (w.file.RefersTo .utf8) key (.array, n) := by
  constructor
  · intro unloadable
    induction unloadable with
    | @malformed key present bad =>
        obtain ⟨kind, n⟩ := key
        cases kind with
        | routine => exact absurd (held.sound.routine_wellMade inOrder present) bad
        | array =>
            exact ⟨n, by_contra fun finished => bad (held.array_wellMade inOrder present finished),
              .refl⟩
        | process =>
            obtain ⟨p, fits, storable, stored⟩ := held.processes _ (List.getElem_mem present)
            exact absurd (held.sound.process_wellMade inOrder few fits storable
              (List.getElem?_eq_getElem present) stored) bad
    | dependent refers _ ih =>
        obtain ⟨n, unfinished, path⟩ := ih
        exact ⟨n, unfinished, .head refers path⟩
  · rintro ⟨n, ⟨dims, found, some⟩, path⟩
    induction path using Relation.ReflTransGen.head_induction_on with
    | refl =>
        refine .malformed (List.getElem?_eq_some_iff.mp found).1 ?_
        rintro ⟨record, there, checked, -⟩
        rw [found] at there
        cases there
        exact some checked.count.symm
    | head refers _ ih => exact .dependent refers ih

/-- After any calls, of which any may have been refused, exactly those records cannot be loaded that
lead to an unfinished array, and every unfinished array was entered by a refused call. So the file is
loaded strictly if none is there.
-/
theorem load_after_refusals (config : Config) (scope : h.Scope P R) (inOrder : h.InOrder P R)
    {calls : List Call} (among : ∀ call ∈ calls, call.In h P R)
    (few : (attempts h calls new).file.routines.length ≤ 0x100000000) (h₀ : Heap)
    : (∀ key,
        (attempts h calls new).file.Unloadable .utf8 key
        ↔ ∃ n, (attempts h calls new).file.Unfinished n
          ∧ Relation.ReflTransGen ((attempts h calls new).file.RefersTo .utf8) key (.array, n))
      ∧ (∀ n, (attempts h calls new).file.Unfinished n → Abandoned h calls n)
      ∧ ((∃ h' loaded,
            (attempts h calls new).file.load { config with loadPolicy := .strict } .utf8 h₀
              = .ok (h', loaded))
          ↔ ∀ n, ¬ (attempts h calls new).file.Unfinished n) := by
  obtain ⟨pending, held, abandoned⟩ := held_of_attempts scope among
  have unloadable := held.unloadable_iff inOrder few
  refine ⟨unloadable, ?_, ?_, ?_⟩
  · rintro n ⟨dims, found, some⟩
    refine abandoned n (by_contra fun complete => ?_)
    obtain ⟨_, there, checked, -⟩ :=
      held.sound.array_wellMade inOrder (List.getElem?_eq_some_iff.mp found).1 complete
    rw [found] at there
    cases there
    exact some checked.count.symm
  · rintro ⟨h', loaded, done⟩ n unfinished
    exact ObjectFile.loadable_of_strict done (.array, n)
      ((unloadable (.array, n)).mpr ⟨n, unfinished, .refl⟩)
  · intro finished
    have loadable (key : RecordKey) : ¬ (attempts h calls new).file.Unloadable .utf8 key := by
      intro bad
      obtain ⟨n, unfinished, -⟩ := (unloadable key).mp bad
      exact finished n unfinished
    obtain ⟨h', loaded, _, _, _, done, -⟩ :=
      (attempts h calls new).file.load_of_loadable config .utf8 h₀ loadable
    exact ⟨h', loaded, done⟩

-----------------------------------------------------------------------------------------
-- A routine that leads to itself
-----------------------------------------------------------------------------------------

/-- A heap with a routine that leads to itself through an array, and another one that does nothing. -/
def knotHeap : Heap where
  arrays := #[⟨[1], #[.callable ⟨0⟩]⟩]
  callables := #[.direct (.subroutine ⟨0⟩)]
  objects := #[]
  routines := #[
    { name := "B", isProcedure := false, isVarargs := false, minArgs := 0, maxArgs := 0,
      localNames := #[], names := #[], code := #[], literals := #[.array ⟨0⟩], fileName := "",
      lines := #[] },
    { name := "Q", isProcedure := true, isVarargs := false, minArgs := 0, maxArgs := 0,
      localNames := #[], names := #[], code := #[], literals := #[], fileName := "", lines := #[] }]

/-- A process in a call of the other routine with the array on its stack. -/
def knotProcess : Process :=
  { Process.new {} 1 "q" with
    stack := [.array ⟨0⟩]
    frames := [{
      routine := ⟨1⟩, pc := 0, locals := #[], handlers := [], wantResult := false,
      stackBase := 0 }] }

/-- The array, and the callable in it. -/
def KnotValue (v : Value) : Prop :=
  v = .array ⟨0⟩ ∨ v = .callable ⟨0⟩

/-- The two routines. -/
def KnotRoutine (r : RoutineId) : Prop :=
  r = ⟨0⟩ ∨ r = ⟨1⟩

/-- The knot is closed: it leads to nothing beyond. -/
theorem knot_scope : knotHeap.Scope KnotValue KnotRoutine := by
  constructor
  · rintro v (rfl | rfl) <;> trivial
  · rintro c r (same | same) direct
    · cases same
    · cases same
      cases direct
      exact .inl rfl
  · rintro a (same | same)
    · cases same
      simp [knotHeap, Heap.grid, KnotValue]
    · cases same
  · rintro r (rfl | rfl) <;> simp [knotHeap, Heap.routine, KnotValue]

private theorem knot_inOrder : knotHeap.InOrder KnotValue KnotRoutine := by
  constructor
  · rintro r (rfl | rfl)
    all_goals constructor <;> simp [knotHeap, Heap.routine, Routine.numLocals]
  · rintro r (rfl | rfl) <;> simp [knotHeap, Heap.routine]
  · rintro r (rfl | rfl) <;> simp [knotHeap, Heap.routine]
  · rintro r (rfl | rfl) <;> simp [knotHeap, Heap.routine]
  · rintro a (same | same)
    · cases same
      exact ⟨by simp [knotHeap, Heap.grid], rfl, .inl rfl⟩
    · cases same
  · rintro a (same | same)
    · cases same
      simp [knotHeap, Heap.grid]
    · cases same
  · rintro a (same | same)
    · cases same
      simp [knotHeap, Heap.grid, Grid.maxCells]
    · cases same

/-- The routine is refused, and the array that it was storing makes the file of the process useless. -/
theorem knot_refused
    : ¬ ∃ h' loaded,
        (attempts knotHeap [.routine ⟨0⟩, .process knotProcess] new).file.load
          { loadPolicy := .strict } .utf8 .empty = .ok (h', loaded) := by
  have fits : knotProcess.Fits knotHeap := by
    refine ⟨⟨?_, by simp [knotProcess]⟩, ?_, ?_, ?_, ?_⟩
    · simp only [knotProcess, List.forall_mem_singleton]
      refine ⟨?_, ?_, ?_, ?_⟩ <;> simp [knotHeap, Heap.routine, Routine.numLocals]
    all_goals simp [knotProcess, Process.new, Process.Keyed]
  have among : ∀ call ∈ [Call.routine ⟨0⟩, .process knotProcess],
      call.In knotHeap KnotValue KnotRoutine := by
    intro call member
    rcases List.mem_pair.mp member with rfl | rfl
    · exact .inl rfl
    · refine ⟨⟨by simp [knotProcess, KnotValue], ?_⟩, fits⟩
      simp [knotProcess, FrameIn, KnotValue, KnotRoutine]
  obtain ⟨-, -, loads⟩ :=
    load_after_refusals {} knot_scope knot_inOrder among (by decide +kernel) .empty
  rw [loads]
  intro finished
  exact finished 0 ⟨[1], rfl, by decide⟩

/-- The writer does not go on as if the refused call had not been made: without it, the process is
stored in another file, which is loaded.
-/
theorem refused_call_leaves_trace
    : ∃ h r q fault w₁ w₂ w₂' refusal,
        (addRoutine .utf8 h r).run new = .error fault w₁
        ∧ (addProcess .utf8 h q).run w₁ = .ok () w₂
        ∧ w₂.file.load { loadPolicy := .strict } .utf8 .empty = .error refusal
        ∧ (addProcess .utf8 h q).run new = .ok () w₂'
        ∧ ∃ h' loaded, w₂'.file.load { loadPolicy := .strict } .utf8 .empty = .ok (h', loaded) := by
  obtain ⟨w₁, w₂, w₂', refused, accepted, alone, after, without⟩
      : ∃ w₁ w₂ w₂',
          (addRoutine .utf8 knotHeap ⟨0⟩).run new = .error .notSerializable w₁
          ∧ (addProcess .utf8 knotHeap knotProcess).run w₁ = .ok () w₂
          ∧ (addProcess .utf8 knotHeap knotProcess).run new = .ok () w₂'
          ∧ w₂ = attempts knotHeap [.routine ⟨0⟩, .process knotProcess] new
          ∧ w₂' = attempts knotHeap [.process knotProcess] new :=
    ⟨_, _, _, rfl, rfl, rfl, rfl, rfl⟩
  have fails : (w₂.file.load { loadPolicy := .strict } .utf8 .empty).isOk = false := by
    rw [after]
    decide +kernel
  have loads : (w₂'.file.load { loadPolicy := .strict } .utf8 .empty).isOk = true := by
    rw [without]
    decide +kernel
  cases done : w₂.file.load { loadPolicy := .strict } .utf8 .empty with
  | ok loaded =>
      rw [done] at fails
      cases fails
  | error refusal =>
      cases done' : w₂'.file.load { loadPolicy := .strict } .utf8 .empty with
      | ok loaded =>
          exact ⟨knotHeap, ⟨0⟩, knotProcess, .notSerializable, w₁, w₂, w₂', refusal, refused,
            accepted, done, alone, loaded.1, loaded.2, done'⟩
      | error refusal =>
          rw [done'] at loads
          cases loads

end Writer
end TaskMachine

import TaskMachine.Proofs.Heap.Depth
import TaskMachine.Proofs.Regularity

/-!
Calls and their arguments. A routine is entered if the depth of calls allows it and the number of
arguments suits the routine. Its call then finds the arguments in its first local variables, with
surplus ones in a new array behind them if the routine collects them, and null in all others.
-/

namespace TaskMachine

-----------------------------------------------------------------------------------------
-- Where routines come from
-----------------------------------------------------------------------------------------

/-- Routines are finished from drafts or come out of object files. -/
inductive Routine.Provided : Routine → Prop
  | finished {d : Draft} {r : Routine} (made : d.Made) (done : d.finish = .ok r) : Provided r
  | loaded {config : Config} {charset : Charset} {file : ObjectFile} {h h' : Heap} {loaded : Loaded}
    {r : RoutineId} (done : file.load config charset h = .ok (h', loaded))
    (among : r ∈ loaded.routines)
    : Provided (h'.routine r)

/-- Every loaded routine is compiled from a record in order, whatever is in the file. -/
theorem ObjectFile.compiled_of_routine {config : Config} {charset : Charset} {file : ObjectFile}
    {h h' : Heap} {loaded : Loaded} (done : file.load config charset h = .ok (h', loaded))
    {r : RoutineId} (among : r ∈ loaded.routines)
    : ∃ (record : RoutineRecord) (code : Array Instruction) (values : List Value),
        h'.routine r = record.compile code values ∧ (record.compile code values).Sound := by
  obtain ⟨routines, arrays, processes, restored, made⟩ := file.restoration_of_load done
  rw [restored.routinesLoaded, List.mem_filterMap] at among
  obtain ⟨i, -, entry⟩ := among
  obtain ⟨record, found, code, items, values, bytes, parsed, stored, denotes⟩ :=
    restored.routine i r entry
  obtain ⟨_, again, sound, -⟩ := made (.routine, i) (Option.isSome_iff_exists.mpr ⟨r, entry⟩)
  rw [found] at again
  cases again
  have length : values.length = record.literals.count.toNat := by
    rw [← denotes.length_eq, Segment.length_items parsed]
  refine ⟨record, code, values, ?_, sound.compile bytes length⟩
  rw [Heap.routine, stored, Option.getD_some]

theorem Routine.Provided.sound {r : Routine} (provided : r.Provided) : r.Sound := by
  cases provided with
  | finished made done => exact made.routineSound done
  | loaded done among =>
      obtain ⟨record, code, values, same, sound⟩ := ObjectFile.compiled_of_routine done among
      exact same ▸ sound

/-- No routine requires more arguments than can be counted. A draft has a limited number of local
variables, and a record has 16 bits for it.
-/
theorem Routine.Provided.counted {r : Routine} (provided : r.Provided) : r.minArgs < countLimit := by
  rw [countLimit]
  cases provided with
  | @finished d _ made done =>
      obtain ⟨⟨-, few, -⟩, code, -, rfl⟩ := Draft.finish_eq_ok_iff.mp done
      have args := made.sound.args
      have locals := made.sound.locals
      rw [Draft.maxEntries] at few
      simp only
      omega
  | loaded done among =>
      obtain ⟨record, code, values, same, -⟩ := ObjectFile.compiled_of_routine done among
      have few := record.minArgs.toNat_lt
      rw [same, RoutineRecord.compile]
      simp only
      omega

-----------------------------------------------------------------------------------------
-- The local variables of a call
-----------------------------------------------------------------------------------------

/-- The number of arguments suits a routine if there are neither too few nor, unless the routine
collects them, too many.
-/
def Routine.Suits (r : Routine) (count : Nat) : Prop :=
  r.minArgs ≤ count ∧ (count ≤ r.maxArgs ∨ r.isVarargs = true)

theorem Routine.accepts_iff {r : Routine} {count : Nat} : r.accepts count = true ↔ r.Suits count := by
  simp only [accepts, Suits, Bool.and_eq_true, Bool.or_eq_true, decide_eq_true_eq]
  exact and_congr_right fun _ => or_comm

/-- The local variables hold the arguments of a call, before which the heap was `h` and after which it
is `h'`: first those that the routine declares, null where one is missing, then an array with just
the surplus ones if the routine collects them, and null in all others.
-/
structure Routine.Seats (r : Routine) (args : List Value) (h h' : Heap) (locals : Array Value)
    : Prop where
  size : locals.size = r.numLocals
  given : ∀ i, i < r.maxArgs → locals[i]? = some (args[i]?.getD .null)
  surplus
    : r.isVarargs = true
      → ∃ a, h.arrays.size ≤ a.index ∧ locals[r.maxArgs]? = some (.array a)
          ∧ h'.grid a = ⟨[args.length - r.maxArgs], (args.drop r.maxArgs).toArray⟩
  rest
    : ∀ i, r.maxArgs + r.isVarargs.toNat ≤ i → i < r.numLocals → locals[i]? = some .null
  heap
    : h' = if r.isVarargs then (h.addArray (Grid.row (args.drop r.maxArgs))).1 else h

section

variable {r : Routine} {args : List Value} {surplus : Option Value}

/-- The variables that are declared for arguments, with nulls for missing ones. -/
def Routine.declared (r : Routine) (args : List Value) : List Value :=
  args.take r.maxArgs ++ List.replicate (r.maxArgs - (args.take r.maxArgs).length) .null

private theorem Routine.length_declared (r : Routine) (args : List Value)
    : (r.declared args).length = r.maxArgs := by
  simp only [declared, List.length_append, List.length_take, List.length_replicate]
  omega

/-- A declared variable holds its argument, or null. -/
theorem Routine.declared_get {i : Nat} (inside : i < r.maxArgs)
    : (r.declared args)[i]? = some (args[i]?.getD .null) := by
  by_cases given : i < args.length
  · have among : i < (args.take r.maxArgs).length := by
      rw [List.length_take]
      omega
    rw [declared, List.getElem?_append_left among, List.getElem?_take_of_lt inside,
      List.getElem?_eq_getElem given, Option.getD_some]
  · have behind : (args.take r.maxArgs).length ≤ i := by
      rw [List.length_take]
      omega
    have missing : args[i]? = none := List.getElem?_eq_none_iff.mpr (Nat.not_lt.mp given)
    have short : (args.take r.maxArgs).length = args.length := by
      rw [List.length_take]
      omega
    rw [declared, List.getElem?_append_right behind, List.getElem?_replicate, short, if_pos (by omega),
      missing, Option.getD_none]

/-- The local variables are the declared ones, the surplus arguments and nulls, in this order. -/
theorem Exec.toList_localsFor (r : Routine) (args : List Value) (surplus : Option Value)
    : (Exec.localsFor r args surplus).toList
      = r.declared args ++ surplus.toList
        ++ List.replicate (r.numLocals - (r.maxArgs + surplus.toList.length)) .null := by
  have length : (r.declared args ++ surplus.toList).length = r.maxArgs + surplus.toList.length := by
    rw [List.length_append, Routine.length_declared]
  rw [← length]
  rfl

/-- Where the routine has a variable for each argument, every variable is in its place. -/
theorem Exec.localsFor_get (args : List Value) (surplus : Option Value)
    (enough : r.maxArgs + surplus.toList.length ≤ r.numLocals)
    : (Exec.localsFor r args surplus).size = r.numLocals
      ∧ (∀ i, i < r.maxArgs → (Exec.localsFor r args surplus)[i]? = some (args[i]?.getD .null))
      ∧ (∀ v, surplus = some v → (Exec.localsFor r args surplus)[r.maxArgs]? = some v)
      ∧ ∀ i, r.maxArgs + surplus.toList.length ≤ i → i < r.numLocals
          → (Exec.localsFor r args surplus)[i]? = some .null := by
  have length := r.length_declared args
  have all : (r.declared args ++ surplus.toList).length = r.maxArgs + surplus.toList.length := by
    rw [List.length_append, length]
  refine ⟨?_, fun i inside => ?_, ?_, fun i behind inside => ?_⟩
  · rw [← Array.length_toList, Exec.toList_localsFor, List.length_append, all, List.length_replicate]
    omega
  · have declared : i < (r.declared args).length := length.symm ▸ inside
    rw [← Array.getElem?_toList, Exec.toList_localsFor, List.append_assoc,
      List.getElem?_append_left declared, Routine.declared_get inside]
  · rintro v rfl
    rw [← Array.getElem?_toList, Exec.toList_localsFor, List.append_assoc,
      List.getElem?_append_right (Nat.le_of_eq length), length, Nat.sub_self]
    rfl
  · rw [← Array.getElem?_toList, Exec.toList_localsFor, List.getElem?_append_right (all ▸ behind),
      List.getElem?_replicate, if_pos (by omega)]

end

-----------------------------------------------------------------------------------------
-- Entering a routine
-----------------------------------------------------------------------------------------

/-- The array of surplus arguments, if the routine collects them, and the heap that it is on. -/
def Heap.collectSurplus (h : Heap) (r : Routine) (args : List Value) : Heap × Option Value :=
  if r.isVarargs then
    let (h, a) := h.addArray (Grid.row (args.drop r.maxArgs))
    (h, some (.array a))
  else (h, none)

/-- The machine in a new call of a routine. -/
def Machine.inCall (m : Machine) (r : RoutineId) (args : List Value) (wantResult : Bool) : Machine :=
  let routine := m.world.heap.routine r
  let (heap, surplus) := m.world.heap.collectSurplus routine args
  { world := { m.world with heap }
    process := { m.process with
      frames :=
        { routine := r, pc := 0, locals := Exec.localsFor routine args surplus, handlers := [],
          wantResult, stackBase := m.process.stack.length } :: m.process.frames } }

/-- A routine is entered unless the calls are too deep or the number of arguments does not suit it. -/
theorem Exec.run_enter (r : RoutineId) (args : List Value) (wantResult : Bool) (m : Machine)
    : (Exec.enter r args wantResult).run m
      = if m.process.maxCallDepth ≤ m.process.frames.length then
          .error (.fault (.stackOverflow s!"call depth exceeds {m.process.maxCallDepth}")) m
        else if (m.world.heap.routine r).accepts args.length then
          .ok () (m.inCall r args wantResult)
        else
          .error (.fault (.wrongArgumentCount (m.world.heap.routine r).name args.length)) m := by
  have process : Exec.process.run m = .ok m.process m := rfl
  have heap : Exec.heap.run m = .ok m.world.heap m := rfl
  simp only [Exec.enter, EStateM.run_bind, process]
  split
  · rfl
  simp only [EStateM.run_bind, heap]
  cases accepted : (m.world.heap.routine r).accepts args.length with
  | false => rfl
  | true =>
      simp only [Bool.not_true, Bool.false_eq_true, if_false, if_true, Machine.inCall,
        Heap.collectSurplus]
      cases (m.world.heap.routine r).isVarargs <;> rfl

/-- A call of a sound routine finds its arguments in its local variables. -/
theorem Routine.Sound.seats {m : Machine} {r : RoutineId} (sound : (m.world.heap.routine r).Sound)
    (args : List Value) (wantResult : Bool)
    : ∃ locals h',
        (m.world.heap.routine r).Seats args m.world.heap h' locals
        ∧ m.inCall r args wantResult
          = { world := { m.world with heap := h' }
              process := { m.process with
                frames :=
                  { routine := r, pc := 0, locals, handlers := [], wantResult,
                    stackBase := m.process.stack.length } :: m.process.frames } } := by
  have locals := sound.locals
  cases collects : (m.world.heap.routine r).isVarargs with
  | false =>
      rw [collects, Bool.toNat_false] at locals
      obtain ⟨size, given, -, rest⟩ :=
        Exec.localsFor_get args none locals
      refine ⟨_, _, ⟨size, given, ?_, ?_, rfl⟩, ?_⟩
      · simp [collects]
      · rw [collects]
        exact rest
      · simp only [Machine.inCall, Heap.collectSurplus, collects, Bool.false_eq_true, if_false]
  | true =>
      rw [collects, Bool.toNat_true] at locals
      obtain ⟨size, given, surplus, rest⟩ :=
        Exec.localsFor_get args (some (.array ⟨m.world.heap.arrays.size⟩)) locals
      refine ⟨_, _, ⟨size, given, ?_, ?_, rfl⟩, ?_⟩
      · intro _
        refine ⟨⟨m.world.heap.arrays.size⟩, Nat.le_refl _, surplus _ rfl, ?_⟩
        rw [if_pos collects, Heap.grid_addArray_new, Grid.row, List.length_drop]
      · rw [collects]
        exact rest
      · simp only [Machine.inCall, Heap.collectSurplus, collects, if_true, Heap.addArray]

/-- A routine is entered, or nothing is changed. -/
theorem Exec.enter_cases (r : RoutineId) (args : List Value) (wantResult : Bool) (m : Machine)
    : (m.process.frames.length < m.process.maxCallDepth
        ∧ (m.world.heap.routine r).Suits args.length
        ∧ (Exec.enter r args wantResult).run m = .ok () (m.inCall r args wantResult))
      ∨ (¬ (m.process.frames.length < m.process.maxCallDepth
            ∧ (m.world.heap.routine r).Suits args.length)
        ∧ ∃ e, (Exec.enter r args wantResult).run m = .error e m) := by
  rw [Exec.run_enter, ← Routine.accepts_iff]
  by_cases deep : m.process.maxCallDepth ≤ m.process.frames.length
  · rw [if_pos deep]
    exact .inr ⟨fun given => absurd given.1 (Nat.not_lt.mpr deep), _, rfl⟩
  rw [if_neg deep]
  by_cases accepted : (m.world.heap.routine r).accepts args.length = true
  · rw [if_pos accepted]
    exact .inl ⟨Nat.lt_of_not_le deep, accepted, rfl⟩
  · rw [if_neg accepted]
    exact .inr ⟨fun given => accepted given.2, _, rfl⟩

/-- A routine is entered just if the calls are not too deep and the number of arguments suits it. Then
there is one call more, at its beginning, without handlers and with its base on top of the stack,
whose local variables hold the arguments. Else nothing is changed.
-/
theorem enter_seats_arguments {m : Machine} {r : RoutineId}
    (provided : (m.world.heap.routine r).Provided) (args : List Value) (wantResult : Bool)
    : ((∃ m', (Exec.enter r args wantResult).run m = .ok () m')
        ↔ m.process.frames.length < m.process.maxCallDepth
          ∧ (m.world.heap.routine r).Suits args.length)
      ∧ (∀ m',
          (Exec.enter r args wantResult).run m = .ok () m'
          → ∃ locals h',
              (m.world.heap.routine r).Seats args m.world.heap h' locals
              ∧ m'
                = { world := { m.world with heap := h' }
                    process := { m.process with
                      frames :=
                        { routine := r, pc := 0, locals, handlers := [], wantResult,
                          stackBase := m.process.stack.length } :: m.process.frames } })
      ∧ ∀ e m', (Exec.enter r args wantResult).run m = .error e m' → m' = m := by
  rcases Exec.enter_cases r args wantResult m with ⟨room, suits, entered⟩ | ⟨unfit, e, failed⟩
  · rw [entered]
    refine ⟨⟨fun _ => ⟨room, suits⟩, fun _ => ⟨_, rfl⟩⟩, ?_, ?_⟩
    · intro m' same
      cases same
      exact provided.sound.seats args wantResult
    · intro e m' same
      cases same
  · rw [failed]
    refine ⟨⟨?_, fun fit => absurd fit unfit⟩, ?_, ?_⟩
    · intro given
      obtain ⟨m', same⟩ := given
      cases same
    · intro m' same
      cases same
    · intro e' m' same
      cases same
      rfl

/-- A draft with a required and an optional argument, an array for the surplus ones and one more
local variable.
-/
def collectingDraft : Draft :=
  let d : Draft := { name := "F", isProcedure := false }
  (((d.addArgument "A" false).2.addArgument "B" true).2.addVarargs "REST").2.addLocal "TMP" |>.2

/-- The routine that it is finished to. -/
def collecting : Routine where
  name := "F"
  isProcedure := false
  isVarargs := true
  minArgs := 1
  maxArgs := 2
  localNames := #["A", "B", "REST", "TMP"]
  names := #[]
  code := #[]
  literals := #[]
  fileName := ""
  lines := #[]

private theorem collecting_provided : collecting.Provided := by
  have made : collectingDraft.Made :=
    ⟨"F", false, .tail (.tail (.tail (.single (.argument "A" false)) (.argument "B" true))
      (.varargs "REST")) (.localVariable "TMP")⟩
  have code
      : collectingDraft.code.mapM (Draft.resolve collectingDraft.labels) = .ok collecting.code := by
    rw [Array.mapM_eq_mapM_toList]
    rfl
  have done : collectingDraft.finish = .ok collecting := by
    simp only [Draft.finish, code]
    rfl
  exact .finished made done

/-- A process in a world with that routine. -/
def collectingStart : Machine where
  world := { World.empty with heap := { Heap.empty with routines := #[collecting] } }
  process := .new {} 0 "p"

/-- With four arguments the last two are in the array, and the variable behind it is null. -/
theorem enter_seats_four
    : ∃ m' f a,
        (Exec.enter ⟨0⟩ [.integer 1, .integer 2, .integer 3, .integer 4] true).run collectingStart
          = .ok () m'
        ∧ m'.process.frames = [f] ∧ f.pc = 0 ∧ f.locals.size = 4
        ∧ f.locals[0]? = some (.integer 1) ∧ f.locals[1]? = some (.integer 2)
        ∧ f.locals[2]? = some (.array a)
        ∧ m'.world.heap.grid a = ⟨[2], #[.integer 3, .integer 4]⟩
        ∧ f.locals[3]? = some .null := by
  have provided : (collectingStart.world.heap.routine ⟨0⟩).Provided := collecting_provided
  obtain ⟨enters, seats, -⟩ := enter_seats_arguments provided
    [.integer 1, .integer 2, .integer 3, .integer 4] true
  obtain ⟨m', entered⟩ := enters.mpr ⟨by decide, by decide, .inr rfl⟩
  obtain ⟨locals, h', seated, rfl⟩ := seats m' entered
  obtain ⟨a, -, there, grid⟩ := seated.surplus rfl
  exact ⟨_, _, a, entered, rfl, rfl, seated.size, seated.given 0 (by decide),
    seated.given 1 (by decide), there, grid, seated.rest 3 (by decide) (by decide)⟩

end TaskMachine

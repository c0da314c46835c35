import TaskMachine.Proofs.Codec.Malformed
import TaskMachine.Proofs.ObjectFile.Growth
import TaskMachine.Proofs.ObjectFile.RoundTrip
import TaskMachine.Proofs.Process.Reachable

/-!
A routine that is stored alone. Its numbers of arguments are stored in 16 bits and everything else as
it is, so the routine that is loaded again is the stored one if it takes 65535 arguments at most. A
draft may declare one argument more, and its routine comes back without arguments.
-/

namespace TaskMachine

/-- Values of the types that refer to nothing and are stored exactly. -/
def Value.Basic : Value → Prop
  | .null | .boolean _ | .integer _ | .string _ => True
  | _ => False

theorem Value.Basic.not_handle {v : Value} (basic : v.Basic) : ¬ v.IsHandle := by
  cases v with
  | null | boolean | integer | string => exact id
  | float | callable | array | object => exact basic.elim

/-- Basic values stay as they are. -/
theorem Value.Basic.rounded {v : Value} (basic : v.Basic) : v.rounded = v := by
  cases v with
  | float x => exact basic.elim
  | _ => rfl

/-- Items that stand for themselves denote just their values. -/
theorem Item.denotes_plain {routines : Nat → Option RoutineId} {arrays : Nat → Option ArrayId}
    {h : Heap} {values values' : List Value}
    (each : List.Forall₂ (Item.Denotes routines arrays h) (values.map .plain) values')
    : values' = values := by
  rw [List.forall₂_map_left_iff] at each
  exact (List.forall₂_eq_eq_eq ▸ each.imp fun _ _ same => same.symm : values = values').symm

/-- The object file with just one routine. -/
def ObjectFile.ofRoutine (record : RoutineRecord) : ObjectFile :=
  { ObjectFile.empty with routines := [record] }

namespace Writer

variable {h : Heap} {id : RoutineId}

-----------------------------------------------------------------------------------------
-- Storing
-----------------------------------------------------------------------------------------

/-- Texts that were stored are not too long. -/
theorem short_of_segment {numbering : Numbering Writer} {values : List Value} {literals : Segment}
    {w w' : Writer} (stored : (segment .utf8 h numbering values).run w = .ok literals w')
    : ∀ v ∈ values, v.Short := by
  obtain ⟨bytes, w₁, saved, -⟩ := run_bind_eq_ok.mp stored
  obtain ⟨parts, w₂, savedAll, -⟩ := run_bind_eq_ok.mp saved
  exact short_of_mapM savedAll

/-- Basic values are stored as they are, and nothing else is. -/
theorem segment_basic {values : List Value} (few : values.length < 0x100000000)
    (basic : ∀ v ∈ values, v.Basic) (short : ∀ v ∈ values, v.Short) (numbering : Numbering Writer)
    (w : Writer)
    : ∃ literals,
        (segment .utf8 h numbering values).run w = .ok literals w
        ∧ literals.items? .utf8 = some (values.map .plain) := by
  have standAlone (v : Value) (member : v ∈ values) : ¬ v.IsHandle := (basic v member).not_handle
  obtain ⟨bytes, saved, parsed⟩
      : ∃ bytes, (saveSegment .utf8 h numbering values).run w = .ok bytes w ∧ _ :=
    saveSegment_plain standAlone short w
  refine ⟨_, run_bind_eq_ok.mpr ⟨bytes, w, saved, rfl⟩, ?_⟩
  have exact_ : (values.map fun v => Item.plain v.rounded) = values.map .plain :=
    List.map_congr_left fun v member => by rw [(basic v member).rounded]
  have whole := parsed []
  rw [List.append_nil, exact_] at whole
  rw [Segment.items?, UInt32.toNat_ofNat_small few, whole]

/-- A routine whose literals are basic is stored alone, if their texts are not too long. -/
theorem run_addRoutine_basic (h : Heap) (id : RoutineId)
    (few : (h.routine id).literals.size < 0x100000000)
    (basic : ∀ v ∈ (h.routine id).literals, v.Basic) (short : ∀ v ∈ (h.routine id).literals, v.Short)
    : ∃ literals w,
        (addRoutine .utf8 h id).run new = .ok 0 w
        ∧ w.file = .ofRoutine (routineRecord (h.routine id) literals)
        ∧ literals.items? .utf8 = some ((h.routine id).literals.toList.map .plain) := by
  let inner := numberingTo .utf8 h (h.routines.size + h.arrays.size + 1)
  obtain ⟨literals, stored, items⟩ := segment_basic (h := h) few
    (fun v member => basic v (Array.mem_toList_iff.mp member))
    (fun v member => short v (Array.mem_toList_iff.mp member)) inner (new.withBusy [id])
  have ran : (routine .utf8 h inner id).run new = _ := run_routine_new rfl List.not_mem_nil
  change (segment .utf8 h inner (h.routine id).literals.toList).run
    (new.withBusy (id :: new.inProgress)) = _ at stored
  rw [stored] at ran
  exact ⟨literals, _, ran, rfl, items⟩

/-- What a new writer does with a routine whose literals are basic. -/
theorem file_of_addRoutine (few : (h.routine id).literals.size < 0x100000000)
    (basic : ∀ v ∈ (h.routine id).literals, v.Basic) {n : Nat} {w : Writer}
    (accepted : (addRoutine .utf8 h id).run new = .ok n w)
    : (∀ v ∈ (h.routine id).literals, v.Short)
      ∧ ∃ literals,
          w.file = .ofRoutine (routineRecord (h.routine id) literals)
          ∧ literals.items? .utf8 = some ((h.routine id).literals.toList.map .plain) := by
  obtain ⟨-, stored, w₁, ran, -⟩ := routine_eq_ok rfl accepted
  have short (v : Value) (member : v ∈ (h.routine id).literals) : v.Short :=
    short_of_segment ran v (Array.mem_toList_iff.mpr member)
  obtain ⟨literals, w', again, file, items⟩ := run_addRoutine_basic h id few basic short
  rw [accepted] at again
  cases again
  exact ⟨short, literals, file, items⟩

-----------------------------------------------------------------------------------------
-- Loading
-----------------------------------------------------------------------------------------

section

variable {r : Routine} (sound : r.Sound) {literals : Segment} {values : List Value}
  (items : literals.items? .utf8 = some (values.map .plain))
include sound items

/-- Whatever is loaded from the file with just the routine has its numbers of arguments in 16 bits. -/
theorem narrowed_of_restored {config : Config} {h' : Heap} {loaded : Loaded}
    {routines : Nat → Option RoutineId} {arrays : Nat → Option ArrayId}
    {processes : Nat → Option Process}
    (restored : Restoring.Restoration config .utf8 (.ofRoutine (routineRecord r literals)) h' loaded
      routines arrays processes)
    {i : Nat} {r' : RoutineId} (entry : routines i = some r')
    : h'.routine r' = { r.narrowed with literals := values.toArray } := by
  obtain ⟨record, found, code, items', values', bytes, parsed, compiled, each⟩ :=
    restored.routine i r' entry
  obtain ⟨-, rfl⟩ : i = 0 ∧ routineRecord r literals = record := by
    simpa [ObjectFile.ofRoutine, List.getElem?_singleton] using found
  obtain rfl : values.map .plain = items' := Option.some.inj (items.symm.trans parsed)
  have same : code = r.code :=
    Array.toList_inj.mp (Restoring.flatMap_toBytes_injective bytes.symm)
  rw [Heap.routine, compiled, Option.getD_some, same, Item.denotes_plain each,
    compile_routineRecord sound]

/-- The file with just the routine is loaded if no jump leaves the code and the numbers of arguments
are consistent in 16 bits.
-/
theorem load_ofRoutine
    (jumps
      : ∀ i ∈ r.code,
          i.opcode = .jump
          → Jump.has i.minor Jump.symbolic = false
          → i.operand.toNat ≤ r.code.size)
    (args : r.narrowed.minArgs ≤ r.narrowed.maxArgs)
    (locals : r.narrowed.maxArgs + r.isVarargs.toNat ≤ r.numLocals) (config : Config) (h₀ : Heap)
    : ∃ h' loaded r',
        (ObjectFile.ofRoutine (routineRecord r literals)).load
            { config with loadPolicy := .strict } .utf8 h₀
          = .ok (h', loaded)
        ∧ loaded.routines = [r'] ∧ loaded.skipped = []
        ∧ h'.routine r' = { r.narrowed with literals := values.toArray } := by
  have record := routineRecord_sound sound jumps args locals literals
  have within : ∀ item ∈ values.map Item.plain, item.Within 0 0 := by
    intro item member
    obtain ⟨v, -, rfl⟩ := List.mem_map.mp member
    trivial
  have loadable (key : RecordKey)
      : ¬ (ObjectFile.ofRoutine (routineRecord r literals)).Unloadable .utf8 key := by
    intro unloadable
    induction unloadable with
    | @malformed key present bad =>
        obtain ⟨kind, i⟩ := key
        cases kind with
        | routine =>
            obtain rfl : i = 0 := Nat.lt_one_iff.mp present
            exact bad ⟨_, rfl, record, _, items, within⟩
        | array | process => exact absurd present (Nat.not_lt_zero i)
    | dependent _ _ ih => exact ih
  obtain ⟨h', loaded, routines, arrays, processes, done, report, restored, present⟩ :=
    ObjectFile.load_of_loadable config .utf8 _ h₀ loadable
  obtain ⟨r', entry⟩ := Option.isSome_iff_exists.mp (present (.routine, 0) Nat.zero_lt_one)
  refine ⟨h', loaded, r', done, ?_, report, narrowed_of_restored sound items restored entry⟩
  rw [restored.routinesLoaded]
  change (List.range 1).filterMap routines = [r']
  rw [List.range_one, List.filterMap_cons_some entry, List.filterMap_nil]

end

/-- A routine from a draft with labels for its jumps, whose literals are null, logical values, integers
and texts, is stored by a new writer if its texts are not too long. Strict loading gives back just the
same routine if it takes 65535 arguments at most, and in no other case.
-/
theorem reload_routine (h : Heap) (id : RoutineId) (composed : (h.routine id).Composed)
    (basic : ∀ v ∈ (h.routine id).literals, v.Basic)
    : ((∃ n w, (addRoutine .utf8 h id).run new = .ok n w)
        ↔ ∀ v ∈ (h.routine id).literals, v.Short)
      ∧ ∀ n w,
          (addRoutine .utf8 h id).run new = .ok n w
          → ∀ (config : Config) (h₀ : Heap),
              (∃ h' loaded r',
                  w.file.load { config with loadPolicy := .strict } .utf8 h₀ = .ok (h', loaded)
                  ∧ loaded.routines = [r'] ∧ h'.routine r' = h.routine id)
              ↔ (h.routine id).maxArgs ≤ 65535 := by
  have sound := composed.sound
  constructor
  · constructor
    · rintro ⟨n, w, accepted⟩
      exact (file_of_addRoutine sound.literals basic accepted).1
    · intro short
      obtain ⟨literals, w, accepted, -⟩ := run_addRoutine_basic h id sound.literals basic short
      exact ⟨0, w, accepted⟩
  · intro n w accepted config h₀
    obtain ⟨-, literals, file, items⟩ := file_of_addRoutine sound.literals basic accepted
    rw [file]
    constructor
    · rintro ⟨h', loaded, r', done, alone, same⟩
      obtain ⟨routines, arrays, processes, restored, -⟩ := ObjectFile.restoration_of_load done
      have among : r' ∈ loaded.routines := alone ▸ List.mem_singleton_self r'
      rw [restored.routinesLoaded, List.mem_filterMap] at among
      obtain ⟨i, -, entry⟩ := among
      have narrowed := congrArg Routine.maxArgs (narrowed_of_restored sound items restored entry)
      rw [same] at narrowed
      simp only [Routine.narrowed] at narrowed
      omega
    · intro limit
      have narrowed := sound.narrowed_eq limit
      obtain ⟨h', loaded, r', done, alone, -, same⟩ :=
        load_ofRoutine sound items (fun i member jump _ => composed.jumps member jump)
          (by rw [narrowed]; exact sound.args) (by rw [narrowed]; exact sound.locals) config h₀
      rw [narrowed, Array.toArray_toList] at same
      exact ⟨h', loaded, r', done, alone, same⟩

-----------------------------------------------------------------------------------------
-- One argument more
-----------------------------------------------------------------------------------------

/-- A draft that declares a number of arguments, all of them required. -/
def declaring : Nat → Draft
  | 0 => { name := "P", isProcedure := true }
  | n + 1 => ((declaring n).addArgument "" false).2

private theorem declaring_made (n : Nat) : (declaring n).Made := by
  refine ⟨"P", true, ?_⟩
  induction n with
  | zero => exact .refl
  | succ n ih => exact ih.tail (.argument "" false)

/-- The routine that the draft is finished to. -/
def declared (n : Nat) : Routine where
  name := "P"
  isProcedure := true
  isVarargs := false
  minArgs := n
  maxArgs := n
  localNames := Array.replicate n ""
  names := #[]
  code := #[]
  literals := #[]
  fileName := ""
  lines := #[]

private theorem declaring_eq (n : Nat)
    : declaring n
      = { name := "P", isProcedure := true, minArgs := n, maxArgs := n,
          localNames := Array.replicate n "" } := by
  induction n with
  | zero => rfl
  | succ n ih =>
      rw [declaring, ih]
      simp [Draft.addArgument, Draft.addLocal, Array.replicate_succ]

/-- As many arguments may be declared as there are numbers for local variables. -/
theorem declaring_finish {n : Nat} (few : n ≤ 65536) : (declaring n).finish = .ok (declared n) := by
  rw [declaring_eq]
  refine Draft.finish_eq_ok_iff.mpr ⟨⟨Nat.zero_le _, ?_, Nat.zero_le _, Nat.zero_le _, Nat.zero_le _⟩,
    #[], .nil, rfl⟩
  rw [Array.size_replicate]
  exact few

/-- A heap with just a routine. -/
def heapOf (r : Routine) : Heap :=
  { Heap.empty with routines := #[r] }

/-- A routine with two arguments and a text. -/
def greeting : Routine :=
  { declared 2 with literals := #[.string "é"] }

private theorem greeting_composed : greeting.Composed := by
  obtain ⟨name, isProcedure, entries⟩ := declaring_made 2
  refine ⟨((declaring 2).addLiteral (.string "é")).2,
    ⟨name, isProcedure, entries.tail (.literal _)⟩, ?_, ?_⟩
  · intro i member
    exact absurd member (Array.not_mem_empty i)
  · exact Draft.finish_eq_ok_iff.mpr ⟨by decide, #[], .nil, rfl⟩

/-- The text is short and the arguments are few, so the same routine is loaded again. -/
theorem reload_greeting
    : ∃ n w h' loaded r',
        (addRoutine .utf8 (heapOf greeting) ⟨0⟩).run new = .ok n w
        ∧ w.file.load { loadPolicy := .strict } .utf8 .empty = .ok (h', loaded)
        ∧ loaded.routines = [r'] ∧ h'.routine r' = greeting := by
  have one (v : Value) (member : v ∈ #[Value.string "é"]) : v = .string "é" := by
    simpa using member
  obtain ⟨accepts, reloads⟩ := reload_routine (heapOf greeting) ⟨0⟩ greeting_composed
    (fun v member => one v member ▸ trivial)
  obtain ⟨n, w, accepted⟩ := accepts.mpr fun v member => by
    rw [one v member]
    change (Charset.utf8.encode "é").length < 2 ^ 32
    decide
  obtain ⟨h', loaded, r', done, alone, same⟩ :=
    (reloads n w accepted {} .empty).mpr (by decide)
  exact ⟨n, w, h', loaded, r', accepted, done, alone, same⟩

/-- A draft with 65536 required arguments is finished. Its routine is stored and loaded strictly, and
then takes no arguments.
-/
theorem arguments_lost
    : ∃ (d : Draft) (r : Routine) (w : Writer) (h' : Heap) (loaded : Loaded) (r' : RoutineId),
        d.Made ∧ d.code = #[] ∧ d.finish = .ok r ∧ r.literals = #[]
        ∧ r.minArgs = 65536 ∧ r.maxArgs = 65536
        ∧ (addRoutine .utf8 (heapOf r) ⟨0⟩).run new = .ok 0 w
        ∧ w.file.load { loadPolicy := .strict } .utf8 .empty = .ok (h', loaded)
        ∧ loaded.routines = [r']
        ∧ (h'.routine r').minArgs = 0 ∧ (h'.routine r').maxArgs = 0 := by
  generalize many : 65536 = n
  have few : n ≤ 65536 := Nat.le_of_eq many.symm
  have sound : (declared n).Sound := (declaring_made n).routineSound (declaring_finish few)
  obtain ⟨literals, w, accepted, file, items⟩ :=
    run_addRoutine_basic (heapOf (declared n)) ⟨0⟩ sound.literals
      (fun v member => absurd member (Array.not_mem_empty v))
      (fun v member => absurd member (Array.not_mem_empty v))
  change w.file = .ofRoutine (routineRecord (declared n) literals) at file
  have none : n % 65536 = 0 := by omega
  obtain ⟨h', loaded, r', done, alone, -, same⟩ :=
    load_ofRoutine sound items (fun i member => absurd member (Array.not_mem_empty i))
      (Nat.le_refl _) (by simp [Routine.narrowed, declared, none]) {} .empty
  rw [← file] at done
  refine ⟨declaring n, declared n, w, h', loaded, r', declaring_made n, ?_, declaring_finish few, rfl,
    rfl, rfl, accepted, done, alone, ?_, ?_⟩
  · rw [declaring_eq]
  · rw [same]
    exact none
  · rw [same]
    exact none

end Writer
end TaskMachine

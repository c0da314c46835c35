import TaskMachine.Proofs.Draft
import TaskMachine.Proofs.ObjectFile.Writing
import TaskMachine.Proofs.Process.WellFormed

/-!
The object file of a list of processes. If everything that the processes lead to is as the machine
makes it and fits the format, all records of the file pass their checks.
-/

namespace TaskMachine

-----------------------------------------------------------------------------------------
-- What is stored
-----------------------------------------------------------------------------------------

/-- The routines that processes lead to. -/
def Heap.Called (h : Heap) (ps : List Process) (r : RoutineId) : Prop :=
  (∃ p ∈ ps, ∃ f ∈ p.frames, f.routine = r)
    ∨ ∃ c, h.Live ps (.callable c) ∧ h.callable c = .direct (.subroutine r)

/-- Nothing that the processes lead to is changed by being stored: there are no host objects, floats
are not rounded, jumps stay in the code, and declarations, dimensions and arrays are within the limits
of the format. Every process has a call, and its handlers do not reach above its stack.
-/
structure Restorable (h : Heap) (ps : List Process) : Prop where
  values : ∀ v, h.Live ps v → v.Storable
  jumps
    : ∀ r,
        h.Called ps r
        → ∀ i ∈ (h.routine r).code,
            i.opcode = .jump
            → Jump.has i.minor Jump.symbolic = false
            → i.operand.toNat ≤ (h.routine r).code.size
  args : ∀ r, h.Called ps r → (h.routine r).maxArgs ≤ 65535
  dims : ∀ a, h.Live ps (.array a) → ∀ d ∈ (h.grid a).dims, d < 0x100000000
  cells : ∀ a, h.Live ps (.array a) → (h.grid a).cells.size ≤ Grid.maxCells
  frames : ∀ p ∈ ps, p.frames ≠ []
  handlers
    : ∀ p ∈ ps,
        ∀ f ∈ p.frames, ∀ handler ∈ f.handlers, handler.stackDepth ≤ p.stack.length

/-- Everything that the processes lead to is as the machine makes it. Running, loading and building
give nothing else, see `Machine.regular_of_events` and `Heap.Sound.regular`.
-/
structure Regular (h : Heap) (ps : List Process) : Prop where
  grids : ∀ a, h.Live ps (.array a) → (h.grid a).Sound
  routines : ∀ r, h.Called ps r → (h.routine r).Sound
  processes : ∀ p ∈ ps, p.WellFormed h ∧ p.Keyed

/-- Everything can be counted in 32 bits. -/
structure Countable (h : Heap) (ps : List Process) (file : ObjectFile) : Prop where
  stack : ∀ p ∈ ps, p.stack.length < 0x100000000
  locals : ∀ p ∈ ps, ∀ f ∈ p.frames, f.locals.size < 0x100000000
  code : ∀ r, h.Called ps r → (h.routine r).code.size < 0x100000000
  routines : file.routines.length ≤ 0x100000000
  arrays : file.arrays.length ≤ 0x100000000

/-- The routines and arrays of a scope are as the machine makes them, and they fit the format. -/
structure Heap.InOrder (h : Heap) (P : Value → Prop) (R : RoutineId → Prop) : Prop where
  routines : ∀ r, R r → (h.routine r).Sound
  jumps
    : ∀ r,
        R r
        → ∀ i ∈ (h.routine r).code,
            i.opcode = .jump
            → Jump.has i.minor Jump.symbolic = false
            → i.operand.toNat ≤ (h.routine r).code.size
  args : ∀ r, R r → (h.routine r).maxArgs ≤ 65535
  code : ∀ r, R r → (h.routine r).code.size < 0x100000000
  grids : ∀ a, P (.array a) → (h.grid a).Sound
  dims : ∀ a, P (.array a) → ∀ d ∈ (h.grid a).dims, d < 0x100000000
  cells : ∀ a, P (.array a) → (h.grid a).cells.size ≤ Grid.maxCells

/-- The process is as the machine makes it and fits the format. It has a call, and its handlers do not
reach above its stack.
-/
structure Process.Fits (h : Heap) (p : Process) : Prop where
  formed : p.WellFormed h
  keyed : p.Keyed
  stack : p.stack.length < 0x100000000
  frames : p.frames ≠ []
  handlers : ∀ f ∈ p.frames, ∀ handler ∈ f.handlers, handler.stackDepth ≤ p.stack.length

section

variable {h : Heap} {ps : List Process} {file : ObjectFile}

theorem Regular.inOrder (regular : Regular h ps) (restorable : Restorable h ps)
    (countable : Countable h ps file)
    : h.InOrder (h.Live ps) (h.Called ps) where
  routines := regular.routines
  jumps := restorable.jumps
  args := restorable.args
  code := countable.code
  grids := regular.grids
  dims := restorable.dims
  cells := restorable.cells

theorem Regular.fits (regular : Regular h ps) (restorable : Restorable h ps)
    (countable : Countable h ps file) {p : Process} (among : p ∈ ps)
    : p.Fits h where
  formed := (regular.processes p among).1
  keyed := (regular.processes p among).2
  stack := countable.stack p among
  frames := restorable.frames p among
  handlers := restorable.handlers p among

theorem Heap.called_of_active {p : Process} (among : p ∈ ps) {f : Frame} (active : f ∈ p.frames)
    : h.Called ps f.routine :=
  .inl ⟨p, among, f, active, rfl⟩

/-- The literals of routines that processes lead to are led to as well. -/
theorem Heap.live_of_literal {r : RoutineId} (called : h.Called ps r) {v : Value}
    (held : v ∈ (h.routine r).literals)
    : h.Live ps v := by
  rcases called with ⟨p, among, f, active, rfl⟩ | ⟨c, live, direct⟩
  · exact Heap.live_of_holds among (.inr ⟨f, active, .inr held⟩)
  · exact .step live (.literal direct held)

/-- What processes lead to leads to such values and routines only. -/
theorem Restorable.scope (restorable : Restorable h ps) (regular : Regular h ps)
    : h.Scope (h.Live ps) (h.Called ps) where
  storable := restorable.values
  called c r live direct := .inr ⟨c, live, direct⟩
  cells a live := by
    refine ⟨?_, fun v member => .step live (.cell (Array.mem_toList_iff.mp member))⟩
    have few := restorable.cells a live
    simp only [Grid.maxCells] at few
    omega
  literals r called := by
    refine ⟨(regular.routines r called).literals, fun v member => ?_⟩
    exact Heap.live_of_literal called (Array.mem_toList_iff.mp member)

theorem Countable.processIn (countable : Countable h ps file) {p : Process} (among : p ∈ ps)
    : Writer.ProcessIn (h.Live ps) (h.Called ps) p where
  stack := ⟨countable.stack p among, fun _ held => Heap.live_of_holds among (.inl held)⟩
  frames f active := by
    refine ⟨Heap.called_of_active among active, countable.locals p among f active, ?_⟩
    intro v member
    exact Heap.live_of_holds among (.inr ⟨f, active, .inl (Array.mem_toList_iff.mp member)⟩)

end

-----------------------------------------------------------------------------------------
-- Numbers in the format
-----------------------------------------------------------------------------------------

theorem UInt32.toNat_ofNat_small {n : Nat} (small : n < 0x100000000) : (UInt32.ofNat n).toNat = n := by
  rw [UInt32.toNat_ofNat', Nat.mod_eq_of_lt small]

theorem map_toNat_ofNat {ns : List Nat} (small : ∀ n ∈ ns, n < 0x100000000)
    : (ns.map UInt32.ofNat).map UInt32.toNat = ns := by
  rw [List.map_map]
  conv => rhs; rw [← List.map_id ns]
  exact List.map_congr_left fun n member => UInt32.toNat_ofNat_small (small n member)

/-- What 16 bits leave of the numbers of arguments. -/
def Routine.narrowed (r : Routine) : Routine :=
  { r with minArgs := r.minArgs % 65536, maxArgs := r.maxArgs % 65536 }

/-- Up to 65535 arguments are counted in 16 bits. -/
theorem Routine.Sound.narrowed_eq {r : Routine} (sound : r.Sound) (limit : r.maxArgs ≤ 65535)
    : r.narrowed = r := by
  have args := sound.args
  rw [Routine.narrowed, Nat.mod_eq_of_lt (by omega), Nat.mod_eq_of_lt (by omega)]

/-- The dimensions of an array in the scope are stored as such that it can be made with. -/
theorem Heap.InOrder.shape {h : Heap} {P : Value → Prop} {R : RoutineId → Prop}
    (inOrder : h.InOrder P R) {a : ArrayId} (among : P (.array a))
    : (h.grid a).dims.map UInt32.ofNat ≠ []
      ∧ Grid.fits 1 (((h.grid a).dims.map UInt32.ofNat).map UInt32.toNat) = true := by
  have box := inOrder.grids a among
  rw [map_toNat_ofNat (inOrder.dims a among)]
  exact ⟨fun none => box.some (List.map_eq_nil_iff.mp none), box.fits (inOrder.cells a among)⟩

theorem Segment.Codes.count {routines : RoutineId → Option Nat} {arrays : ArrayId → Option Nat}
    {h : Heap} {segment : Segment} {values : List Value}
    (codes : segment.Codes routines arrays h values)
    : segment.count.toNat = values.length := by
  obtain ⟨items, parsed, each⟩ := codes
  rw [← Segment.length_items parsed, each.length_eq]

namespace Writer

/-- The flags say what a routine is. -/
theorem flags_procedure (r : Routine)
    : (flags r &&& RoutineRecord.procedureFlag != 0) = r.isProcedure := by
  cases procedure : r.isProcedure <;> cases varargs : r.isVarargs
  all_goals
    simp only [flags, procedure, varargs]
    rfl

theorem flags_varargs (r : Routine) : (flags r &&& RoutineRecord.varargsFlag != 0) = r.isVarargs := by
  cases procedure : r.isProcedure <;> cases varargs : r.isVarargs
  all_goals
    simp only [flags, procedure, varargs]
    rfl

-----------------------------------------------------------------------------------------
-- Records in order
-----------------------------------------------------------------------------------------

/-- The record of a routine is in order if no jump leaves the code and the numbers of arguments are
consistent in 16 bits.
-/
theorem routineRecord_sound {r : Routine} (sound : r.Sound)
    (jumps
      : ∀ i ∈ r.code,
          i.opcode = .jump
          → Jump.has i.minor Jump.symbolic = false
          → i.operand.toNat ≤ r.code.size)
    (args : r.narrowed.minArgs ≤ r.narrowed.maxArgs)
    (locals : r.narrowed.maxArgs + r.isVarargs.toNat ≤ r.numLocals) (literals : Segment)
    : (routineRecord r literals).Sound := by
  refine ⟨⟨r.code, rfl, fun i member => ?_⟩, ?_, ?_⟩
  · have absolute := sound.absolute i member
    by_cases jump : i.opcode = .jump
    · have resolved : Jump.has i.minor Jump.symbolic = false := by
        simpa [Instruction.isSymbolic, jump] using absolute
      have target := jumps i member jump resolved
      simp only [Restoring.isBadJump, resolved, Bool.false_or, Bool.and_eq_false_iff,
        decide_eq_false_iff_not]
      exact .inr (Nat.not_lt.mpr target)
    · simp [Restoring.isBadJump, jump]
  · simp only [routineRecord, UInt16.toNat_ofNat']
    exact args
  · simp only [routineRecord, flags_varargs, UInt16.toNat_ofNat', Array.length_toList]
    cases varargs : r.isVarargs
    all_goals
      rw [varargs] at locals
      exact locals

section

variable {h : Heap} {P : Value → Prop} {R : RoutineId → Prop} {pending : List Nat} {w : Writer}
  (sound : Sound h P R pending w)
include sound

theorem Sound.routine_small (few : w.file.routines.length ≤ 0x100000000) {r : RoutineId} {n : Nat}
    (numbered : numberOf w.routineIds r = some n)
    : (UInt32.ofNat n).toNat = n :=
  UInt32.toNat_ofNat_small (Nat.lt_of_lt_of_le (sound.routineIds.lt r n numbered) few)

theorem Sound.array_small (few : w.file.arrays.length ≤ 0x100000000) {a : ArrayId} {n : Nat}
    (numbered : numberOf w.arrayIds a = some n)
    : (UInt32.ofNat n).toNat = n :=
  UInt32.toNat_ofNat_small (Nat.lt_of_lt_of_le (sound.arrayIds.lt a n numbered) few)

private theorem Sound.segment_wellMade {segment : Segment} {values : List Value}
    (codes : segment.Codes (numberOf w.routineIds) (numberOf w.arrayIds) h values)
    : segment.WellMade .utf8 w.file.routines.length w.file.arrays.length :=
  codes.wellMade sound.routineIds.lt sound.arrayIds.lt

theorem Sound.routine_wellMade (inOrder : h.InOrder P R) {n : Nat}
    (inside : n < w.file.routines.length)
    : w.file.WellMade .utf8 (.routine, n) := by
  obtain ⟨r, numbered⟩ := sound.routineIds.all n inside
  obtain ⟨called, literals, found, -, made⟩ := sound.routine r n numbered
  have compiled := inOrder.routines r called
  have narrowed := compiled.narrowed_eq (inOrder.args r called)
  refine ⟨_, found, routineRecord_sound compiled (inOrder.jumps r called) ?_ ?_ literals, made⟩
  · rw [narrowed]
    exact compiled.args
  · rw [narrowed]
    exact compiled.locals

/-- The record of an array whose elements are not pending is in order. -/
theorem Sound.array_wellMade (inOrder : h.InOrder P R) {n : Nat} (inside : n < w.file.arrays.length)
    (complete : n ∉ pending)
    : w.file.WellMade .utf8 (.array, n) := by
  obtain ⟨a, numbered⟩ := sound.arrayIds.all n inside
  obtain ⟨live, elements, found, coded⟩ := sound.array a n numbered
  have codes := coded complete
  obtain ⟨some, fits⟩ := inOrder.shape live
  refine ⟨_, found, ⟨some, fits, ?_⟩, sound.segment_wellMade codes⟩
  rw [map_toNat_ofNat (inOrder.dims a live), codes.count, Array.length_toList]
  exact (inOrder.grids a live).size

omit sound in
/-- The bases of stored calls are those of the calls. -/
theorem bases_of_stored {height : Nat} (few : height < 0x100000000) {fs : List Frame}
    {records : List FrameRecord} (each : List.Forall₂ (FrameStored h w) fs records)
    (inside : ∀ f ∈ fs, f.stackBase ≤ height)
    : records.map (·.stackBase.toNat) = fs.map (·.stackBase) := by
  induction each with
  | nil => rfl
  | @cons f record fs records one _ ih =>
      obtain ⟨number, locals, -, -, rfl⟩ := one
      have small := Nat.lt_of_le_of_lt (inside f List.mem_cons_self) few
      rw [List.map_cons, List.map_cons, UInt32.toNat_ofNat_small small,
        ih fun g member => inside g (List.mem_cons_of_mem _ member)]

section

variable (inOrder : h.InOrder P R) (fewRoutines : w.file.routines.length ≤ 0x100000000)
  {p : Process} (fits : p.Fits h)
include inOrder fewRoutines fits

/-- A stored call of a process is in order for the record of its routine. -/
theorem Sound.frame_sound {f : Frame} (active : f ∈ p.frames) {record : FrameRecord}
    (one : FrameStored h w f record)
    : (∃ r, w.file.routines[record.routine.toNat]? = some r
        ∧ record.Sound (r.code.length / 4) r.localNames.length p.stack.length)
      ∧ record.locals.WellMade .utf8 w.file.routines.length w.file.arrays.length := by
  obtain ⟨number, locals, numbered, codes, rfl⟩ := one
  obtain ⟨called, literals, found, -⟩ := sound.routine _ number numbered
  have few := fits.stack
  have short := inOrder.code _ called
  have formed := fits.formed.frames f active
  have pc := formed.pc_le
  have base := formed.base_le
  have size : ((h.routine f.routine).code.toList.flatMap Instruction.toBytes).length / 4
      = (h.routine f.routine).code.size := by
    rw [Instruction.length_flatMap_toBytes, Array.length_toList, Nat.mul_div_cancel_left _ (by omega)]
  refine ⟨⟨_, (sound.routine_small fewRoutines numbered).symm ▸ found, ?_, ?_, ?_, ?_⟩,
    sound.segment_wellMade codes⟩
  · rw [routineRecord, size, UInt32.toNat_ofNat_small (by omega)]
    exact pc
  · rw [UInt32.toNat_ofNat_small (by omega)]
    exact base
  · intro pair member
    obtain ⟨handler, installed, rfl⟩ := List.mem_map.mp member
    have installed' := List.mem_reverse.mp installed
    obtain ⟨target, above⟩ := formed.handlers handler installed'
    have below := fits.handlers f active handler installed'
    rw [routineRecord, size, UInt32.toNat_ofNat_small (by omega), UInt32.toNat_ofNat_small (by omega),
      UInt32.toNat_ofNat_small (by omega)]
    exact ⟨target, above, below⟩
  · rw [codes.count, Array.length_toList, routineRecord, Array.length_toList]
    exact formed.numLocals_le

/-- The record of a process that can be stored is in order. -/
theorem Sound.process_wellMade (storable : isStorable p = true) {n : Nat} {record : ProcessRecord}
    (found : w.file.processes[n]? = some record) (stored : ProcessStored h w p record)
    : w.file.WellMade .utf8 (.process, n) := by
  obtain ⟨stack, frames, codes, each, rfl⟩ := stored
  have active (f : Frame) (member : f ∈ p.frames.reverse) : f ∈ p.frames :=
    List.mem_reverse.mp member
  refine ⟨_, found, ?_, ?_, sound.segment_wellMade codes, ?_, ?_⟩
  · simp only [isStorable, Bool.and_eq_true, Bool.or_eq_true, beq_iff_eq] at storable
    rcases storable.1 with (suspended | runnable) | waiting
    · exact .inl suspended
    · exact .inr (.inl runnable)
    · exact .inr (.inr ⟨waiting, fits.keyed.mpr waiting⟩)
  · intro none
    simp only at none
    rw [none] at each
    have empty := List.forall₂_nil_right_iff.mp each
    exact fits.frames (List.reverse_eq_nil_iff.mp empty)
  · rw [bases_of_stored fits.stack each
      fun f member => (fits.formed.frames f (active f member)).base_le]
    rw [List.pairwise_map, List.pairwise_reverse]
    exact fits.formed.bases
  · intro record member
    obtain ⟨f, member', one⟩ := exists_of_mem_right each record member
    rw [codes.count, List.length_reverse]
    exact sound.frame_sound inOrder fewRoutines fits (active f member') one

end

end

-----------------------------------------------------------------------------------------
-- All records are in order
-----------------------------------------------------------------------------------------

/-- The processes have been stored completely and accepted, and they fit the format. -/
structure Stored (h : Heap) (ps : List Process) (w : Writer) : Prop where
  restorable : Restorable h ps
  regular : Regular h ps
  countable : Countable h ps w.file
  sound : Sound h (h.Live ps) (h.Called ps) [] w
  storable : ∀ p ∈ ps, isStorable p = true
  processes : List.Forall₂ (ProcessStored h w) ps w.file.processes

/-- Processes that have all been accepted by a new writer are stored. -/
theorem stored_of_addProcesses {h : Heap} {ps : List Process} {w : Writer} {u : Unit}
    (restorable : Restorable h ps) (regular : Regular h ps) (countable : Countable h ps w.file)
    (accepted : (ps.forM (addProcess .utf8 h)).run new = .ok u w)
    : Stored h ps w := by
  obtain ⟨sound, -, storable, records, appended, each⟩ :=
    sound_of_addProcesses (restorable.scope regular) (fun p among => countable.processIn among)
      (sound_new h _ _) accepted
  have records_ : w.file.processes = records := appended
  exact ⟨restorable, regular, countable, sound, storable, records_ ▸ each⟩

section

variable {h : Heap} {ps : List Process} {w : Writer} (stored : Stored h ps w)
include stored

/-- Numbers of stored routines and arrays fit the format. -/
theorem Stored.routine_small {r : RoutineId} {n : Nat} (numbered : numberOf w.routineIds r = some n)
    : (UInt32.ofNat n).toNat = n :=
  stored.sound.routine_small stored.countable.routines numbered

theorem Stored.array_small {a : ArrayId} {n : Nat} (numbered : numberOf w.arrayIds a = some n)
    : (UInt32.ofNat n).toNat = n :=
  stored.sound.array_small stored.countable.arrays numbered

/-- All records of the file are in order. -/
theorem Stored.wellMade {key : RecordKey} (present : w.file.Has key) : w.file.WellMade .utf8 key := by
  have inOrder := stored.regular.inOrder stored.restorable stored.countable
  obtain ⟨kind, n⟩ := key
  cases kind with
  | routine => exact stored.sound.routine_wellMade inOrder present
  | array => exact stored.sound.array_wellMade inOrder present List.not_mem_nil
  | process =>
      obtain ⟨p, among, one⟩ :=
        exists_of_mem_right stored.processes _ (List.getElem_mem present)
      exact stored.sound.process_wellMade inOrder stored.countable.routines
        (stored.regular.fits stored.restorable stored.countable among) (stored.storable p among)
        (List.getElem?_eq_getElem present) one

/-- No record of the file is one that cannot be loaded, by induction on why it could not. -/
theorem Stored.loadable {key : RecordKey} : ¬ w.file.Unloadable .utf8 key := by
  intro unloadable
  induction unloadable with
  | malformed present bad => exact bad (stored.wellMade present)
  | dependent _ _ ih => exact ih

end

end Writer
end TaskMachine

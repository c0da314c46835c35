import TaskMachine.Proofs.Codec.Code
import TaskMachine.Proofs.Grid
import TaskMachine.Proofs.ObjectFile.Segments

/-!
Which records of an object file are in order, said about the file alone, and what loading makes of
one record: it loads what is in order and refers to loaded records, and fails on anything else,
having added callables at most.
-/

namespace TaskMachine

-----------------------------------------------------------------------------------------
-- Records in order
-----------------------------------------------------------------------------------------

/-- The item refers to a record below the given numbers, if it refers to any. -/
def Item.Within (routines arrays : Nat) : Item → Prop
  | .plain _ => True
  | .routine number => number < routines
  | .array number => number < arrays

/-- Numbers that are within bounds are within wider ones. -/
theorem Item.Within.mono {item : Item} {routines routines' arrays arrays' : Nat}
    (within : item.Within routines arrays) (more : routines ≤ routines')
    (moreArrays : arrays ≤ arrays')
    : item.Within routines' arrays' := by
  cases item with
  | plain v => trivial
  | routine number => exact Nat.lt_of_lt_of_le within more
  | array number => exact Nat.lt_of_lt_of_le within moreArrays

/-- The segment holds what it says, with references below the given numbers. -/
def Segment.WellMade (charset : Charset) (routines arrays : Nat) (segment : Segment) : Prop :=
  ∃ items, segment.items? charset = some items ∧ ∀ item ∈ items, item.Within routines arrays

theorem Segment.WellMade.mono {charset : Charset} {segment : Segment}
    {routines routines' arrays arrays' : Nat} (made : segment.WellMade charset routines arrays)
    (more : routines ≤ routines') (moreArrays : arrays ≤ arrays')
    : segment.WellMade charset routines' arrays' := by
  obtain ⟨items, parsed, within⟩ := made
  exact ⟨items, parsed, fun item member => (within item member).mono more moreArrays⟩

/-- The code and the declarations of a stored routine are in order. -/
structure RoutineRecord.Sound (record : RoutineRecord) : Prop where
  code : ∃ code : Array Instruction,
    record.code = code.toList.flatMap Instruction.toBytes
    ∧ ∀ i ∈ code, Restoring.isBadJump code.size i = false
  args : record.minArgs.toNat ≤ record.maxArgs.toNat
  locals : record.maxArgs.toNat
    + (if record.flags &&& RoutineRecord.varargsFlag != 0 then 1 else 0) ≤ record.localNames.length

/-- The shape of a stored array is in order. -/
structure ArrayRecord.Sound (record : ArrayRecord) : Prop where
  dims : record.dims ≠ []
  fits : Grid.fits 1 (record.dims.map UInt32.toNat) = true
  count : record.elements.count.toNat = volume (record.dims.map UInt32.toNat)

/-- A stored call is in order for the code and the local variables of its routine and on a stack of
a given size.
-/
structure FrameRecord.Sound (codeSize numLocals stackSize : Nat) (f : FrameRecord) : Prop where
  pc : f.pc.toNat ≤ codeSize
  base : f.stackBase.toNat ≤ stackSize
  handlers : ∀ handler ∈ f.handlers,
    handler.1.toNat ≤ codeSize
    ∧ f.stackBase.toNat ≤ handler.2.toNat ∧ handler.2.toNat ≤ stackSize
  locals : numLocals ≤ f.locals.count.toNat

/-- The state of a stored process is one that it can go on from. -/
def ProcessRecord.CanGoOn (record : ProcessRecord) : Prop :=
  record.state = .suspended ∨ record.state = .runnable
    ∨ (record.state = .waiting ∧ record.waitingFor.isSome)

/-- A record of an object file by its kind and its number. -/
abbrev RecordKey := RecordKind × Nat

namespace ObjectFile

/-- There is such a record. -/
def Has (file : ObjectFile) : RecordKey → Prop
  | (.routine, i) => i < file.routines.length
  | (.array, i) => i < file.arrays.length
  | (.process, i) => i < file.processes.length

/-- The values that a record holds. -/
def segments (file : ObjectFile) : RecordKey → List Segment
  | (.routine, i) => file.routines[i]?.toList.map (·.literals)
  | (.array, i) => file.arrays[i]?.toList.map (·.elements)
  | (.process, i) => file.processes[i]?.toList.flatMap fun r => r.stack :: r.frames.map (·.locals)

/-- A record passes its own checks. Literals may refer to earlier routines only. -/
def WellMade (charset : Charset) (file : ObjectFile) : RecordKey → Prop
  | (.routine, i) =>
    ∃ record, file.routines[i]? = some record ∧ record.Sound
      ∧ record.literals.WellMade charset i file.arrays.length
  | (.array, i) =>
    ∃ record, file.arrays[i]? = some record ∧ record.Sound
      ∧ record.elements.WellMade charset file.routines.length file.arrays.length
  | (.process, i) =>
    ∃ record, file.processes[i]? = some record ∧ record.CanGoOn ∧ record.frames ≠ []
      ∧ record.stack.WellMade charset file.routines.length file.arrays.length
      ∧ (record.frames.map (·.stackBase.toNat)).Pairwise (· ≤ ·)
      ∧ ∀ f ∈ record.frames,
          (∃ r, file.routines[f.routine.toNat]? = some r
            ∧ f.Sound (r.code.length / 4) r.localNames.length record.stack.count.toNat)
          ∧ f.locals.WellMade charset file.routines.length file.arrays.length

/-- A record refers to another one: a value that it holds does, or a call is one of that routine. -/
inductive RefersTo (charset : Charset) (file : ObjectFile) : RecordKey → RecordKey → Prop
  | routine {key : RecordKey} {segment : Segment} {items : List Item} {number : Nat}
    (held : segment ∈ file.segments key) (parsed : segment.items? charset = some items)
    (refers : .routine number ∈ items)
    : RefersTo charset file key (.routine, number)
  | array {key : RecordKey} {segment : Segment} {items : List Item} {number : Nat}
    (held : segment ∈ file.segments key) (parsed : segment.items? charset = some items)
    (refers : .array number ∈ items)
    : RefersTo charset file key (.array, number)
  | frame {i : Nat} {record : ProcessRecord} {f : FrameRecord}
    (found : file.processes[i]? = some record) (active : f ∈ record.frames)
    : RefersTo charset file (.process, i) (.routine, f.routine.toNat)

/-- The records that cannot be loaded: those that fail their own checks, and those that refer to one
that cannot be loaded.
-/
inductive Unloadable (charset : Charset) (file : ObjectFile) : RecordKey → Prop
  | malformed {key : RecordKey} (present : file.Has key) (bad : ¬ file.WellMade charset key)
    : Unloadable charset file key
  | dependent {key target : RecordKey} (refers : file.RefersTo charset key target)
    (unloadable : Unloadable charset file target)
    : Unloadable charset file key

private theorem has_of_held {file : ObjectFile} {key : RecordKey} {segment : Segment}
    (held : segment ∈ file.segments key)
    : file.Has key := by
  obtain ⟨kind, i⟩ := key
  by_contra outside
  cases kind
  all_goals
    simp only [Has, Nat.not_lt] at outside
    simp [segments, outside] at held

/-- Only records that are there count. -/
theorem Unloadable.has {charset : Charset} {file : ObjectFile} {key : RecordKey}
    (unloadable : file.Unloadable charset key)
    : file.Has key := by
  cases unloadable with
  | malformed present bad => exact present
  | dependent refers _ =>
      cases refers with
      | routine held | array held => exact has_of_held held
      | frame found active => exact (List.getElem?_eq_some_iff.mp found).1

end ObjectFile

-----------------------------------------------------------------------------------------
-- Loading one record
-----------------------------------------------------------------------------------------

/-- The routine of a record with given code and literals. -/
def RoutineRecord.compile (record : RoutineRecord) (code : Array Instruction)
    (literals : List Value) : Routine where
  name := record.name
  isProcedure := record.flags &&& RoutineRecord.procedureFlag != 0
  isVarargs := record.flags &&& RoutineRecord.varargsFlag != 0
  minArgs := record.minArgs.toNat
  maxArgs := record.maxArgs.toNat
  localNames := record.localNames.toArray
  names := record.names.toArray
  code
  literals := literals.toArray
  fileName := record.fileName
  lines := (record.lines.map fun (pc, line) => (pc.toNat, line.toNat)).toArray

/-- The call of a record, with given local variables. -/
def FrameRecord.restore (record : FrameRecord) (r : RoutineId) (locals : List Value) : Frame where
  routine := r
  pc := record.pc.toNat
  locals := locals.toArray
  handlers := (record.handlers.map fun handler => ⟨handler.1.toNat, handler.2.toNat⟩).reverse
  wantResult := record.wantResult
  stackBase := record.stackBase.toNat

namespace Restoring

variable {charset : Charset} {s : Restored}

/-- The segment holds what it says, and all the records that it refers to have been loaded. -/
def Ready (charset : Charset) (s : Restored) (seg : Segment) (items : List Item) : Prop :=
  seg.items? charset = some items ∧ ∀ item ∈ items, item.Resolved s.routineAt s.arrayAt

/-- The array of a record is made if the shape allows it. -/
theorem run_shell (record : ArrayRecord) (s : Restored)
    : (shell record).run s
      = match Grid.new (record.dims.map UInt32.toNat) with
        | .ok g =>
          .ok ⟨s.heap.arrays.size⟩
            (withHeap s { s.heap with arrays := s.heap.arrays.push g })
        | .error f => .error f s := by
  simp only [shell]
  cases Grid.new (record.dims.map UInt32.toNat) <;> rfl

/-- Once its code has been read, a routine is loaded if its arguments are declared consistently. -/
theorem run_routine {record : RoutineRecord} {code : Array Instruction}
    (read : Restoring.code record.code = .ok code)
    : (routine charset record).run s
      = if record.minArgs.toNat ≤ record.maxArgs.toNat
            ∧ record.maxArgs.toNat
              + (if record.flags &&& RoutineRecord.varargsFlag != 0 then 1 else 0)
              ≤ record.localNames.length then
          match (segment charset record.literals).run s with
          | .error fault s₁ => .error fault s₁
          | .ok (values, references) s₁ =>
            .ok (⟨s₁.heap.routines.size⟩, references)
              (withHeap s₁ { s₁.heap with
                routines := s₁.heap.routines.push (record.compile code values) })
        else .error (.badFormat "inconsistent argument declaration") s := by
  simp only [routine, read, pure_bind]
  generalize (if record.flags &&& RoutineRecord.varargsFlag != 0 then 1 else 0) = surplus
  have check
      : (decide (record.maxArgs.toNat < record.minArgs.toNat)
          || decide (record.localNames.length < record.maxArgs.toNat + surplus)) = true
        ↔ ¬ (record.minArgs.toNat ≤ record.maxArgs.toNat
            ∧ record.maxArgs.toNat + surplus ≤ record.localNames.length) := by
    rw [Bool.or_eq_true, decide_eq_true_eq, decide_eq_true_eq]
    omega
  split
  · rename_i inconsistent
    rw [if_neg (check.mp inconsistent)]
    rfl
  · rename_i consistent
    rw [if_pos (not_not.mp (mt check.mpr consistent)), EStateM.run_bind]
    cases (segment charset record.literals).run s <;> rfl

/-- A routine is loaded if its own parts are in order and its literals are ready. -/
theorem routine_cases (charset : Charset) (record : RoutineRecord) (s : Restored)
    : (∃ code items values h',
        record.code = code.toList.flatMap Instruction.toBytes
        ∧ record.Sound ∧ Ready charset s record.literals items
        ∧ (routine charset record).run s
          = .ok (⟨h'.routines.size⟩, referencesOf items)
              (withHeap s { h' with routines := h'.routines.push (record.compile code values) })
        ∧ s.heap.Grown h'
        ∧ List.Forall₂ (Item.Denotes s.routineAt s.arrayAt h') items values)
      ∨ (¬ (record.Sound ∧ ∃ items, Ready charset s record.literals items)
        ∧ ∃ f h', (routine charset record).run s = .error f (withHeap s h') ∧ s.heap.Grown h') := by
  cases accepted : Restoring.code record.code with
  | error f =>
      refine .inr ⟨?_, f, s.heap, ?_, .refl _⟩
      · rintro ⟨sound, -⟩
        obtain ⟨code, bytes, good⟩ := sound.code
        rw [code_eq_ok.mpr ⟨bytes, good⟩] at accepted
        cases accepted
      · simp only [routine, accepted]
        rfl
  | ok code =>
      obtain ⟨bytes, good⟩ := code_eq_ok.mp accepted
      rw [run_routine accepted]
      by_cases declared : record.minArgs.toNat ≤ record.maxArgs.toNat
          ∧ record.maxArgs.toNat
            + (if record.flags &&& RoutineRecord.varargsFlag != 0 then 1 else 0)
              ≤ record.localNames.length
      · have sound : record.Sound := ⟨⟨code, bytes, good⟩, declared.1, declared.2⟩
        rw [if_pos declared]
        rcases segment_cases charset record.literals s with
          ⟨items, values, h', parsed, resolved, done, grown, denotes⟩ | ⟨unready, f, h', failed, grown⟩
        · refine .inl ⟨code, items, values, h', bytes, sound, ⟨parsed, resolved⟩, ?_, grown, denotes⟩
          rw [done]
          rfl
        · exact .inr ⟨fun given => unready given.2, f, h', by rw [failed], grown⟩
      · rw [if_neg declared]
        exact .inr ⟨fun given => declared ⟨given.1.args, given.1.locals⟩, _, s.heap, rfl, .refl _⟩

/-- An array is filled if its elements are ready and as many as it has cells. -/
theorem elements_cases (charset : Charset) (id : ArrayId) (record : ArrayRecord) (s : Restored)
    : (∃ items values h',
        Ready charset s record.elements items
        ∧ record.elements.count.toNat = (s.heap.grid id).size
        ∧ (elements charset id record).run s
          = .ok (referencesOf items)
              (withHeap s (h'.setGrid id { s.heap.grid id with cells := values.toArray }))
        ∧ s.heap.Grown h'
        ∧ List.Forall₂ (Item.Denotes s.routineAt s.arrayAt h') items values)
      ∨ (¬ (record.elements.count.toNat = (s.heap.grid id).size
          ∧ ∃ items, Ready charset s record.elements items)
        ∧ ∃ f h', (elements charset id record).run s = .error f (withHeap s h')
          ∧ s.heap.Grown h') := by
  rcases segment_cases charset record.elements s with
    ⟨items, values, h', parsed, resolved, done, grown, denotes⟩ | ⟨unready, f, h', failed, grown⟩
  · have stored : values.length = record.elements.count.toNat := by
      rw [← denotes.length_eq, Segment.length_items parsed]
    have same : h'.grid id = s.heap.grid id := by rw [Heap.grid, grown.arrays, Heap.grid]
    by_cases full : record.elements.count.toNat = (s.heap.grid id).size
    · refine .inl ⟨items, values, h', ⟨parsed, resolved⟩, full, ?_, grown, denotes⟩
      have replaced : (h'.grid id).replace values.toArray
          = { s.heap.grid id with cells := values.toArray } := by
        rw [Grid.replace, same, Grid.resize_of_size]
        rw [List.size_toArray, stored, full, Grid.size]
      have all : values.length = ((withHeap s h').heap.grid id).size := by
        rw [stored, full, withHeap, same]
      simp only [elements, EStateM.run_bind, done, EStateM.run_get, ne_eq, all, not_true_eq_false,
        if_false]
      rw [← replaced]
      rfl
    · refine .inr ⟨fun ready => full ready.1, .badFormat
        s!"array has {(s.heap.grid id).size} elements, {values.length} stored", h', ?_, grown⟩
      have some : ¬ values.length = (s.heap.grid id).size := by rwa [stored]
      simp only [elements, EStateM.run_bind, done, EStateM.run_get, EStateM.run_pure, withHeap, same,
        ne_eq, some, not_false_eq_true, if_true]
      rfl
  · refine .inr ⟨fun given => unready given.2, f, h', ?_, grown⟩
    simp only [elements, EStateM.run_bind, failed]

/-- What a process waits for is kept if it waits, and it must be able to go on. -/
theorem waitingFor_eq_ok {record : ProcessRecord} {key : Option String}
    : waitingFor record = .ok key
      ↔ record.CanGoOn ∧ key = if record.state = .waiting then record.waitingFor else none := by
  unfold waitingFor ProcessRecord.CanGoOn
  cases state : record.state <;> cases waits : record.waitingFor <;> simp [eq_comm]

/-- A stored handler is accepted if it lies in the code and in the part of the stack. -/
theorem handler_eq_ok {codeSize base stackSize : Nat} {target depth : UInt32} {handler : Handler}
    : Restoring.handler codeSize base stackSize target depth = .ok handler
      ↔ (target.toNat ≤ codeSize ∧ base ≤ depth.toNat ∧ depth.toNat ≤ stackSize)
        ∧ handler = ⟨target.toNat, depth.toNat⟩ := by
  unfold Restoring.handler
  by_cases inside : target.toNat ≤ codeSize ∧ base ≤ depth.toNat ∧ depth.toNat ≤ stackSize
  · have check : (decide (codeSize < target.toNat) || decide (depth.toNat < base)
        || decide (stackSize < depth.toNat)) = false := by
      simp only [Bool.or_eq_false_iff, decide_eq_false_iff_not]
      omega
    simp [check, inside, eq_comm]
  · have check : (decide (codeSize < target.toNat) || decide (depth.toNat < base)
        || decide (stackSize < depth.toNat)) = true := by
      simp only [Bool.or_eq_true, decide_eq_true_eq]
      omega
    simp [check, inside]

/-- Stored handlers are accepted if each of them is. -/
theorem handlers_eq_ok {codeSize base stackSize : Nat} {records : List (UInt32 × UInt32)}
    {handlers : List Handler}
    : (records.mapM fun (target, depth) =>
        Restoring.handler codeSize base stackSize target depth) = .ok handlers
      ↔ (∀ record ∈ records,
          record.1.toNat ≤ codeSize ∧ base ≤ record.2.toNat ∧ record.2.toNat ≤ stackSize)
        ∧ handlers = records.map fun record => ⟨record.1.toNat, record.2.toNat⟩ := by
  rw [mapM_eq_ok]
  simp only [handler_eq_ok]
  induction records generalizing handlers with
  | nil => simp
  | cons record records ih =>
      rw [List.forall₂_cons_left_iff]
      simp only [ih, List.forall_mem_cons, List.map_cons]
      constructor
      · intro given
        obtain ⟨_, _, ⟨inside, rfl⟩, ⟨all, rfl⟩, rfl⟩ := given
        exact ⟨⟨inside, all⟩, rfl⟩
      · intro given
        obtain ⟨⟨inside, all⟩, rfl⟩ := given
        exact ⟨_, _, ⟨inside, rfl⟩, ⟨all, rfl⟩, rfl⟩

/-- The routine was loaded from the record. -/
def RoutineDenotes (charset : Charset) (routines : Nat → Option RoutineId)
    (arrays : Nat → Option ArrayId) (h : Heap) (record : RoutineRecord) (r : RoutineId) : Prop :=
  ∃ code items values, record.code = code.toList.flatMap Instruction.toBytes
    ∧ record.literals.items? charset = some items
    ∧ h.routines[r.index]? = some (record.compile code values)
    ∧ List.Forall₂ (Item.Denotes routines arrays h) items values

/-- What a record denotes, it denotes in a larger heap with more numbers resolved. -/
theorem RoutineDenotes.mono {routines routines' : Nat → Option RoutineId}
    {arrays arrays' : Nat → Option ArrayId} {h h' : Heap} {record : RoutineRecord} {r : RoutineId}
    (denotes : RoutineDenotes charset routines arrays h record r)
    (moreRoutines : ∀ n r, routines n = some r → routines' n = some r)
    (moreArrays : ∀ n a, arrays n = some a → arrays' n = some a)
    (kept : h.KeepsCallables h')
    (present : ∀ routine, h.routines[r.index]? = some routine → h'.routines[r.index]? = some routine)
    : RoutineDenotes charset routines' arrays' h' record r := by
  obtain ⟨code, items, values, bytes, parsed, stored, each⟩ := denotes
  exact ⟨code, items, values, bytes, parsed, present _ stored,
    each.imp fun _ _ one => one.mono moreRoutines moreArrays kept⟩

/-- The array was made and filled from the record. -/
def ArrayDenotes (charset : Charset) (routines : Nat → Option RoutineId)
    (arrays : Nat → Option ArrayId) (h : Heap) (record : ArrayRecord) (a : ArrayId) : Prop :=
  ∃ items values, record.elements.items? charset = some items
    ∧ h.arrays[a.index]? = some ⟨record.dims.map UInt32.toNat, values.toArray⟩
    ∧ List.Forall₂ (Item.Denotes routines arrays h) items values

theorem ArrayDenotes.mono {routines routines' : Nat → Option RoutineId}
    {arrays arrays' : Nat → Option ArrayId} {h h' : Heap} {record : ArrayRecord} {a : ArrayId}
    (denotes : ArrayDenotes charset routines arrays h record a)
    (moreRoutines : ∀ n r, routines n = some r → routines' n = some r)
    (moreArrays : ∀ n a, arrays n = some a → arrays' n = some a)
    (kept : h.KeepsCallables h')
    (present : ∀ g, h.arrays[a.index]? = some g → h'.arrays[a.index]? = some g)
    : ArrayDenotes charset routines' arrays' h' record a := by
  obtain ⟨items, values, parsed, stored, each⟩ := denotes
  exact ⟨items, values, parsed, present _ stored,
    each.imp fun _ _ one => one.mono moreRoutines moreArrays kept⟩

/-- A stored call can be loaded: its routine has been, it is in order for that, and its local
variables are ready.
-/
def FrameReady (charset : Charset) (s : Restored) (stackSize : Nat) (record : FrameRecord) : Prop :=
  ∃ id, s.routineAt record.routine.toNat = some id
    ∧ record.Sound (s.heap.routine id).code.size (s.heap.routine id).numLocals stackSize
    ∧ ∃ items, Ready charset s record.locals items

/-- The call was loaded from the record. -/
def FrameDenotes (charset : Charset) (routines : Nat → Option RoutineId)
    (arrays : Nat → Option ArrayId) (h : Heap) (record : FrameRecord) (f : Frame) : Prop :=
  ∃ id items values, routines record.routine.toNat = some id
    ∧ record.locals.items? charset = some items
    ∧ List.Forall₂ (Item.Denotes routines arrays h) items values
    ∧ f = record.restore id values

/-- The checks of a stored call in their order, once its routine has been found. -/
theorem run_frame {stackSize outerBase : Nat} {record : FrameRecord} {id : RoutineId}
    (found : s.routineAt record.routine.toNat = some id)
    : (frame charset stackSize outerBase record).run s
      = if (s.heap.routine id).code.size < record.pc.toNat then
          .error (.badFormat s!"pc {record.pc.toNat} outside '{(s.heap.routine id).name}'") s
        else if record.stackBase.toNat < outerBase || stackSize < record.stackBase.toNat then
          .error (.badFormat s!"invalid stack base {record.stackBase.toNat}") s
        else
          match record.handlers.mapM fun (target, depth) =>
            handler (s.heap.routine id).code.size record.stackBase.toNat stackSize target depth with
          | .error fault => .error fault s
          | .ok handlers =>
            match (segment charset record.locals).run s with
            | .error fault s₁ => .error fault s₁
            | .ok (locals, _) s₁ =>
              if locals.length < (s.heap.routine id).numLocals then
                .error (.badFormat
                  s!"'{(s.heap.routine id).name}' needs {(s.heap.routine id).numLocals} locals") s₁
              else
                .ok { routine := id, pc := record.pc.toNat, locals := locals.toArray,
                      handlers := handlers.reverse, wantResult := record.wantResult,
                      stackBase := record.stackBase.toNat } s₁ := by
  have answer : (resolver s).routine record.routine.toNat = .ok id := by
    simp only [Restored.routineAt] at found
    simp only [resolver, found]
  simp only [frame, EStateM.run_bind, EStateM.run_get, EStateM.run_pure, answer, check]
  split
  · rfl
  · split
    · rfl
    · simp only [EStateM.run_bind]
      cases record.handlers.mapM fun (target, depth) =>
            handler (s.heap.routine id).code.size record.stackBase.toNat stackSize target depth with
      | error fault => rfl
      | ok handlers =>
        simp only [EStateM.run_pure]
        cases (segment charset record.locals).run s with
        | error fault s₁ => rfl
        | ok result s₁ =>
            simp only
            split <;> rfl

/-- Once its routine has been found, a call is ready if it is in order for that and its local variables
are ready.
-/
theorem frameReady_iff {stackSize : Nat} {record : FrameRecord} {id : RoutineId}
    (found : s.routineAt record.routine.toNat = some id)
    : FrameReady charset s stackSize record
      ↔ record.Sound (s.heap.routine id).code.size (s.heap.routine id).numLocals stackSize
        ∧ ∃ items, Ready charset s record.locals items := by
  constructor
  · intro given
    obtain ⟨_, known, ready⟩ := given
    rw [found] at known
    cases known
    exact ready
  · intro ready
    exact ⟨id, found, ready⟩

/-- A call is loaded if its record is ready and its base is not below that of the call before. -/
theorem frame_cases (charset : Charset) (stackSize outerBase : Nat) (record : FrameRecord)
    (s : Restored)
    : (FrameReady charset s stackSize record ∧ outerBase ≤ record.stackBase.toNat
        ∧ ∃ f h', (frame charset stackSize outerBase record).run s = .ok f (withHeap s h')
          ∧ s.heap.Grown h'
          ∧ FrameDenotes charset s.routineAt s.arrayAt h' record f)
      ∨ (¬ (FrameReady charset s stackSize record ∧ outerBase ≤ record.stackBase.toNat)
        ∧ ∃ fault h', (frame charset stackSize outerBase record).run s = .error fault (withHeap s h')
          ∧ s.heap.Grown h') := by
  cases found : s.routineAt record.routine.toNat with
  | none =>
      refine .inr ⟨?_, .badFormat s!"unresolved bytecode reference {record.routine.toNat}", s.heap, ?_,
        .refl _⟩
      · intro given
        obtain ⟨⟨id, known, -⟩, -⟩ := given
        rw [found] at known
        cases known
      · simp only [Restored.routineAt] at found
        simp only [frame, EStateM.run_bind, EStateM.run_get, resolver, found]
        rfl
  | some id =>
      rw [run_frame found, frameReady_iff found]
      by_cases inside : record.pc.toNat ≤ (s.heap.routine id).code.size
      swap
      · rw [if_pos (Nat.lt_of_not_le inside)]
        exact .inr ⟨fun ready => inside ready.1.1.pc, _, s.heap, rfl, .refl _⟩
      rw [if_neg (Nat.not_lt.mpr inside)]
      by_cases based : outerBase ≤ record.stackBase.toNat ∧ record.stackBase.toNat ≤ stackSize
      swap
      · have check : (decide (record.stackBase.toNat < outerBase)
            || decide (stackSize < record.stackBase.toNat)) = true := by
          simp only [Bool.or_eq_true, decide_eq_true_eq]
          omega
        rw [if_pos check]
        exact .inr ⟨fun ready => based ⟨ready.2, ready.1.1.base⟩, _, s.heap, rfl, .refl _⟩
      have check : ¬ (decide (record.stackBase.toNat < outerBase)
          || decide (stackSize < record.stackBase.toNat)) = true := by
        simp only [Bool.or_eq_true, decide_eq_true_eq]
        omega
      rw [if_neg check]
      cases placed : record.handlers.mapM fun (target, depth) =>
          handler (s.heap.routine id).code.size record.stackBase.toNat stackSize target depth with
      | error fault =>
          refine .inr ⟨fun ready => ?_, fault, s.heap, rfl, .refl _⟩
          rw [handlers_eq_ok.mpr ⟨ready.1.1.handlers, rfl⟩] at placed
          cases placed
      | ok handlers =>
          obtain ⟨all, rfl⟩ := handlers_eq_ok.mp placed
          rcases segment_cases charset record.locals s with
            ⟨items, values, h', parsed, resolved, done, grown, denotes⟩
            | ⟨unready, fault, h', failed, grown⟩
          · have stored : values.length = record.locals.count.toNat := by
              rw [← denotes.length_eq, Segment.length_items parsed]
            by_cases enough : (s.heap.routine id).numLocals ≤ values.length
            · have sound : record.Sound (s.heap.routine id).code.size (s.heap.routine id).numLocals
                  stackSize := ⟨inside, based.2, all, stored ▸ enough⟩
              refine .inl ⟨⟨sound, items, parsed, resolved⟩, based.1, record.restore id values, h', ?_,
                grown, id, items, values, found, parsed, denotes, rfl⟩
              simp only [done, if_neg (Nat.not_lt.mpr enough)]
              rfl
            · refine .inr ⟨fun ready => enough (stored ▸ ready.1.1.locals), _, h',
                by simp only [done, if_pos (Nat.lt_of_not_le enough)]; rfl, grown⟩
          · exact .inr ⟨fun ready => unready ready.1.2, fault, h', by simp only [failed], grown⟩

/-- Loading calls adds callables at most, so what is ready stays so. -/
theorem frameReady_withHeap {h' : Heap} (grown : s.heap.Grown h') {stackSize : Nat}
    {record : FrameRecord}
    : FrameReady charset (withHeap s h') stackSize record
      ↔ FrameReady charset s stackSize record := by
  have same (id : RoutineId) : h'.routine id = s.heap.routine id := by
    rw [Heap.routine, grown.routines, Heap.routine]
  constructor
  · intro given
    obtain ⟨id, found, sound, ready⟩ := given
    exact ⟨id, found, same id ▸ sound, ready⟩
  · intro given
    obtain ⟨id, found, sound, ready⟩ := given
    exact ⟨id, found, (same id).symm ▸ sound, ready⟩

theorem FrameDenotes.kept {routines : Nat → Option RoutineId} {arrays : Nat → Option ArrayId}
    {h h' : Heap} {record : FrameRecord} {f : Frame}
    (denotes : FrameDenotes charset routines arrays h record f) (kept : h.KeepsCallables h')
    : FrameDenotes charset routines arrays h' record f := by
  obtain ⟨id, items, values, found, parsed, each, rfl⟩ := denotes
  exact ⟨id, items, values, found, parsed, each.imp fun _ _ one => one.kept kept, rfl⟩

/-- The bases of stored calls, with that of the call before. -/
def Ascending (outerBase : Nat) (records : List FrameRecord) : Prop :=
  (outerBase :: records.map (·.stackBase.toNat)).Pairwise (· ≤ ·)

/-- The calls of a record stand one on the other. -/
theorem ascending_cons {outerBase : Nat} {record : FrameRecord} {records : List FrameRecord}
    : Ascending outerBase (record :: records)
      ↔ outerBase ≤ record.stackBase.toNat ∧ Ascending record.stackBase.toNat records := by
  simp only [Ascending, List.map_cons, List.pairwise_cons, List.forall_mem_cons]
  constructor
  · intro given
    obtain ⟨⟨first, -⟩, others⟩ := given
    exact ⟨first, others⟩
  · intro given
    obtain ⟨first, others⟩ := given
    exact ⟨⟨first, fun base member => Nat.le_trans first (others.1 base member)⟩, others⟩

/-- Calls are loaded if all of them are ready and their bases ascend, by induction on the calls. -/
theorem frames_cases (charset : Charset) (stackSize outerBase : Nat) (outer : List Frame)
    (records : List FrameRecord) (s : Restored)
    : ((∀ record ∈ records, FrameReady charset s stackSize record) ∧ Ascending outerBase records
        ∧ ∃ fs h', (frames charset stackSize outerBase outer records).run s
            = .ok (fs.reverse ++ outer) (withHeap s h')
          ∧ s.heap.Grown h'
          ∧ List.Forall₂ (FrameDenotes charset s.routineAt s.arrayAt h') records fs)
      ∨ (¬ ((∀ record ∈ records, FrameReady charset s stackSize record)
          ∧ Ascending outerBase records)
        ∧ ∃ fault h', (frames charset stackSize outerBase outer records).run s
            = .error fault (withHeap s h')
          ∧ s.heap.Grown h') := by
  induction records generalizing outerBase outer s with
  | nil =>
      exact .inl ⟨by simp, by simp [Ascending], [], s.heap, rfl, .refl _, .nil⟩
  | cons record records ih =>
      simp only [frames, EStateM.run_bind, List.forall_mem_cons, ascending_cons]
      rcases frame_cases charset stackSize outerBase record s with
        ⟨ready, above, f, h₁, done, grown, denotes⟩ | ⟨unready, fault, h₁, failed, grown⟩
      · have base : f.stackBase = record.stackBase.toNat := by
          obtain ⟨_, _, _, -, -, -, rfl⟩ := denotes
          rfl
        simp only [done, base]
        rcases ih record.stackBase.toNat (f :: outer) (withHeap s h₁) with
          ⟨readyAll, ascends, fs, h₂, doneAll, grownAll, denoteAll⟩
          | ⟨unready, fault, h₂, failed, grownAll⟩
        · refine .inl ⟨⟨ready, ?_⟩, ⟨above, ascends⟩, f :: fs, h₂, ?_, grown.trans grownAll,
            .cons (denotes.kept grownAll.callables) denoteAll⟩
          · exact fun other member => (frameReady_withHeap grown).mp (readyAll other member)
          · rw [doneAll]
            simp [withHeap]
        · refine .inr ⟨?_, fault, h₂, failed, grown.trans grownAll⟩
          intro given
          obtain ⟨⟨-, readyAll⟩, -, ascends⟩ := given
          exact unready ⟨fun other member => (frameReady_withHeap grown).mpr (readyAll other member),
            ascends⟩
      · refine .inr ⟨?_, fault, h₁, by simp only [failed], grown⟩
        intro given
        obtain ⟨⟨ready, -⟩, above, -⟩ := given
        exact unready ⟨ready, above⟩

/-- A stored process can be loaded: it can go on, its stack is ready, and so are its calls, of which
there is one at least, with bases that ascend.
-/
structure ProcessReady (charset : Charset) (s : Restored) (record : ProcessRecord) : Prop where
  state : record.CanGoOn
  stack : ∃ items, Ready charset s record.stack items
  some : record.frames ≠ []
  bases : (record.frames.map (·.stackBase.toNat)).Pairwise (· ≤ ·)
  frames : ∀ f ∈ record.frames, FrameReady charset s record.stack.count.toNat f

/-- The process was loaded from the record. -/
structure ProcessDenotes (config : Config) (charset : Charset) (routines : Nat → Option RoutineId)
    (arrays : Nat → Option ArrayId) (h : Heap) (record : ProcessRecord) (p : Process) : Prop where
  rest : p = { Process.new config 0 record.name with
    state := record.state, kind := record.kind,
    waitingFor := if record.state = .waiting then record.waitingFor else none,
    stack := p.stack, frames := p.frames }
  stack : ∃ items, record.stack.items? charset = some items
    ∧ List.Forall₂ (Item.Denotes routines arrays h) items p.stack.reverse
  frames : List.Forall₂ (FrameDenotes charset routines arrays h) record.frames p.frames.reverse

/-- A process is loaded if its record is ready. -/
theorem process_cases (config : Config) (charset : Charset) (record : ProcessRecord) (s : Restored)
    : (ProcessReady charset s record
        ∧ ∃ p h', (process config charset record).run s = .ok p (withHeap s h')
          ∧ s.heap.Grown h'
          ∧ ProcessDenotes config charset s.routineAt s.arrayAt h' record p)
      ∨ (¬ ProcessReady charset s record
        ∧ ∃ fault h', (process config charset record).run s = .error fault (withHeap s h')
          ∧ s.heap.Grown h') := by
  simp only [process, EStateM.run_bind]
  cases accepted : waitingFor record with
  | error fault =>
      refine .inr ⟨?_, fault, s.heap, rfl, .refl _⟩
      intro ready
      rw [waitingFor_eq_ok.mpr ⟨ready.state, rfl⟩] at accepted
      cases accepted
  | ok key =>
      obtain ⟨state, rfl⟩ := waitingFor_eq_ok.mp accepted
      simp only [check, EStateM.run_pure]
      rcases segment_cases charset record.stack s with
        ⟨items, values, h₁, parsed, resolved, done, grown, denotes⟩ | ⟨unready, fault, h₁, failed, grown⟩
      · have height : values.length = record.stack.count.toNat := by
          rw [← denotes.length_eq, Segment.length_items parsed]
        simp only [done, height]
        rcases frames_cases charset record.stack.count.toNat 0 [] record.frames (withHeap s h₁) with
          ⟨ready, ascends, fs, h₂, doneAll, grownAll, denoteAll⟩
          | ⟨unready, fault, h₂, failed, grownAll⟩
        · simp only [doneAll, List.append_nil, List.isEmpty_reverse]
          have ready' := fun f member => (frameReady_withHeap grown).mp (ready f member)
          cases fs with
          | nil =>
              have empty := List.forall₂_nil_right_iff.mp denoteAll
              refine .inr ⟨fun ready => ready.some empty, .badFormat "process without frames", h₂, ?_,
                grown.trans grownAll⟩
              rfl
          | cons f fs =>
              have some : record.frames ≠ [] := by
                intro empty
                rw [empty] at denoteAll
                cases denoteAll
              have bases := (List.pairwise_cons.mp ascends).2
              refine .inl ⟨⟨state, ⟨items, parsed, resolved⟩, some, bases, ready'⟩, ?_⟩
              refine ⟨_, h₂, rfl, grown.trans grownAll, rfl, ⟨items, parsed, ?_⟩, ?_⟩
              · rw [List.reverse_reverse]
                exact denotes.imp fun _ _ one => one.kept grownAll.callables
              · rw [List.reverse_reverse]
                exact denoteAll
        · refine .inr ⟨?_, fault, h₂, by simp only [failed]; rfl, grown.trans grownAll⟩
          intro ready
          refine unready ⟨fun f member => (frameReady_withHeap grown).mpr (ready.frames f member), ?_⟩
          exact List.pairwise_cons.mpr ⟨fun _ _ => Nat.zero_le _, ready.bases⟩
      · exact .inr ⟨fun ready => unready ready.stack, fault, h₁, by simp only [failed], grown⟩

end Restoring
end TaskMachine

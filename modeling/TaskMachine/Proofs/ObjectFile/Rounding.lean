import TaskMachine.Proofs.Codec.Rounding
import TaskMachine.Proofs.ObjectFile.Stored

/-!
Heaps and processes with all floats rounded. A writer cannot tell them from the heaps and processes
themselves, and they lead to values that are stored exactly, so what holds for such values holds
for all that is stored.
-/

namespace TaskMachine

-----------------------------------------------------------------------------------------
-- Rounding what is stored
-----------------------------------------------------------------------------------------

/-- The grid with its cells rounded. -/
def Grid.rounded (g : Grid) : Grid :=
  { g with cells := g.cells.map Value.rounded }

/-- The routine with its literals rounded. -/
def Routine.rounded (r : Routine) : Routine :=
  { r with literals := r.literals.map Value.rounded }

/-- The callable with its bound arguments rounded. -/
def Callable.rounded : Callable → Callable
  | direct callee => direct callee
  | closure base bound => closure base (bound.map Value.rounded)

/-- The heap with all values rounded, but for those inside host objects. -/
def Heap.rounded (h : Heap) : Heap where
  arrays := h.arrays.map Grid.rounded
  callables := h.callables.map Callable.rounded
  objects := h.objects
  routines := h.routines.map Routine.rounded

/-- The call with its local variables rounded. -/
def Frame.rounded (f : Frame) : Frame :=
  { f with locals := f.locals.map Value.rounded }

/-- The process with all values rounded that it holds itself. -/
def Process.rounded (p : Process) : Process :=
  { p with stack := p.stack.map Value.rounded, frames := p.frames.map Frame.rounded }

namespace Heap

variable {h : Heap}

@[simp]
theorem grid_rounded (h : Heap) (a : ArrayId) : h.rounded.grid a = (h.grid a).rounded := by
  rw [grid, grid, rounded, Array.getElem?_map]
  cases h.arrays[a.index]? with
  | none => simp [Grid.rounded]
  | some g => rfl

@[simp]
private theorem callable_rounded (h : Heap) (c : CallableId)
    : h.rounded.callable c = (h.callable c).rounded := by
  rw [callable, callable, rounded, Array.getElem?_map]
  cases h.callables[c.index]? <;> rfl

@[simp]
theorem routine_rounded (h : Heap) (r : RoutineId)
    : h.rounded.routine r = (h.routine r).rounded := by
  rw [routine, routine, rounded, Array.getElem?_map]
  cases h.routines[r.index]? with
  | none => exact congrArg (fun literals => { (default : Routine) with literals }) Array.map_empty.symm
  | some r => rfl

private theorem direct_rounded {c : CallableId} {callee : Callee}
    : h.rounded.callable c = .direct callee ↔ h.callable c = .direct callee := by
  rw [callable_rounded]
  cases h.callable c <;> simp [Callable.rounded]

end Heap

-----------------------------------------------------------------------------------------
-- What a writer makes of it
-----------------------------------------------------------------------------------------

section

variable {σ : Type} (charset : Charset) (h : Heap)

/-- A value is stored like the rounded one. -/
theorem saveValue_rounded (numbering : Numbering σ) (v : Value)
    : saveValue charset h.rounded numbering v.rounded = saveValue charset h numbering v := by
  cases v with
  | float x =>
      rw [Value.rounded, saveValue, saveValue, Real48.encode_decode_encode]
  | callable c =>
      show saveValue charset h.rounded numbering (.callable c) = _
      rw [saveValue, saveValue, Heap.callable_rounded]
      cases h.callable c <;> rfl
  | null | integer | boolean | string | array | object => rfl

private theorem saveSegment_rounded (numbering : Numbering σ) (values : List Value)
    : saveSegment charset h.rounded numbering (values.map Value.rounded)
      = saveSegment charset h numbering values := by
  rw [saveSegment, saveSegment, List.mapM_map]
  simp only [Function.comp_def, saveValue_rounded]

namespace Writer

private theorem segment_rounded (numbering : Numbering Writer) (values : List Value)
    : segment charset h.rounded numbering (values.map Value.rounded)
      = segment charset h numbering values := by
  rw [segment, segment, saveSegment_rounded, List.length_map]

theorem routine_rounded (numbering : Numbering Writer)
    : routine charset h.rounded numbering = routine charset h numbering := by
  funext r
  simp only [routine, Heap.routine_rounded, Routine.rounded, Array.toList_map, segment_rounded]
  rfl

private theorem array_rounded (numbering : Numbering Writer)
    : array charset h.rounded numbering = array charset h numbering := by
  funext a
  simp only [array, Heap.grid_rounded, Grid.rounded, Array.toList_map, segment_rounded]

/-- Numbers are given in the same way, by induction on the depth. -/
theorem numberingTo_rounded (depth : Nat)
    : numberingTo charset h.rounded depth = numberingTo charset h depth := by
  induction depth with
  | zero => rfl
  | succ depth ih => rw [numberingTo, numberingTo, ih, routine_rounded, array_rounded]

private theorem numbering_rounded : Writer.numbering charset h.rounded = Writer.numbering charset h := by
  have routines : h.rounded.routines.size = h.routines.size := Array.size_map
  have arrays : h.rounded.arrays.size = h.arrays.size := Array.size_map
  rw [Writer.numbering, Writer.numbering, numberingTo_rounded, routines, arrays]

private theorem frameRecord_rounded (f : Frame)
    : frameRecord charset h.rounded f.rounded = frameRecord charset h f := by
  simp only [frameRecord, Frame.rounded, numbering_rounded, Array.toList_map, segment_rounded]

/-- A process is stored like the rounded one. -/
theorem addProcess_rounded (p : Process)
    : addProcess charset h.rounded p.rounded = addProcess charset h p := by
  have storable : isStorable p.rounded = isStorable p := rfl
  have stack : p.rounded.stack.reverse = p.stack.reverse.map Value.rounded :=
    List.map_reverse.symm
  have frames : p.rounded.frames.reverse = p.frames.reverse.map Frame.rounded :=
    List.map_reverse.symm
  have each : frameRecord charset h.rounded ∘ Frame.rounded = frameRecord charset h :=
    funext (frameRecord_rounded charset h)
  rw [addProcess, storable, numbering_rounded, stack, segment_rounded, frames, List.mapM_map, each]
  rfl

end Writer

end

-----------------------------------------------------------------------------------------
-- What rounded processes lead to
-----------------------------------------------------------------------------------------

namespace Heap

variable {h : Heap} {ps : List Process}

/-- What the processes lead to is no host object. -/
def ObjectFree (h : Heap) (ps : List Process) : Prop :=
  ∀ o, ¬ h.Live ps (.object o)

private theorem holds_rounded {p : Process} {v' : Value} (held : p.rounded.Holds h.rounded v')
    : ∃ v, p.Holds h v ∧ v' = v.rounded := by
  rcases held with stack | ⟨f', active, held⟩
  · obtain ⟨v, member, rfl⟩ := List.mem_map.mp stack
    exact ⟨v, .inl member, rfl⟩
  · obtain ⟨f, member, rfl⟩ := List.mem_map.mp active
    rcases held with locals | literals
    · obtain ⟨v, held, rfl⟩ := Array.mem_map.mp locals
      exact ⟨v, .inr ⟨f, member, .inl held⟩, rfl⟩
    · rw [routine_rounded] at literals
      obtain ⟨v, held, rfl⟩ := Array.mem_map.mp literals
      exact ⟨v, .inr ⟨f, member, .inr held⟩, rfl⟩

/-- What a rounded value leads to directly is rounded, unless the value is a host object. -/
theorem leadsTo_rounded {v w' : Value} (noObject : ∀ o, v ≠ .object o)
    (leads : h.rounded.LeadsTo v.rounded w')
    : ∃ w, h.LeadsTo v w ∧ w' = w.rounded := by
  generalize same : v.rounded = v' at leads
  cases leads with
  | cell held =>
      obtain rfl := Value.rounded_eq_array.mp same
      rw [grid_rounded] at held
      obtain ⟨w, member, rfl⟩ := Array.mem_map.mp held
      exact ⟨w, .cell member, rfl⟩
  | literal direct held =>
      obtain rfl := Value.rounded_eq_callable.mp same
      rw [routine_rounded] at held
      obtain ⟨w, member, rfl⟩ := Array.mem_map.mp held
      exact ⟨w, .literal (direct_rounded.mp direct) member, rfl⟩
  | @base c base bound closure =>
      obtain rfl := Value.rounded_eq_callable.mp same
      rw [callable_rounded] at closure
      cases found : h.callable c with
      | direct callee =>
          rw [found] at closure
          cases closure
      | closure base' bound' =>
          rw [found] at closure
          cases closure
          exact ⟨.callable base, .base found, rfl⟩
  | @bound c base bound w' closure held =>
      obtain rfl := Value.rounded_eq_callable.mp same
      rw [callable_rounded] at closure
      cases found : h.callable c with
      | direct callee =>
          rw [found] at closure
          cases closure
      | closure base' bound' =>
          rw [found] at closure
          cases closure
          obtain ⟨w, member, rfl⟩ := List.mem_map.mp held
          exact ⟨w, .bound found member, rfl⟩
  | member held => exact absurd (Value.rounded_eq_object.mp same) (noObject _)

/-- What rounded processes lead to is what the processes lead to, rounded; by induction on how it is
reached.
-/
theorem live_rounded (objectFree : h.ObjectFree ps) {v' : Value}
    (live : h.rounded.Live (ps.map Process.rounded) v')
    : ∃ v, h.Live ps v ∧ v' = v.rounded := by
  apply live.induct (P := fun v' => ∃ v, h.Live ps v ∧ v' = v.rounded)
  · intro v' held
    obtain ⟨p', among', held⟩ := held
    obtain ⟨p, among, rfl⟩ := List.mem_map.mp among'
    obtain ⟨v, heldBefore, rfl⟩ := holds_rounded held
    exact ⟨v, live_of_holds among heldBefore, rfl⟩
  · intro v' w' reached leads
    obtain ⟨v, live, rfl⟩ := reached
    obtain ⟨w, leadsBefore, rfl⟩ :=
      leadsTo_rounded (fun o same => objectFree o (same ▸ live)) leads
    exact ⟨w, .step live leadsBefore, rfl⟩

/-- What a value that is no host object leads to directly, the rounded value leads to, rounded. -/
theorem leadsTo_of_rounded {v w : Value} (noObject : ∀ o, v ≠ .object o) (leads : h.LeadsTo v w)
    : h.rounded.LeadsTo v.rounded w.rounded := by
  cases leads with
  | @cell a _ held =>
      refine .cell ?_
      rw [grid_rounded]
      exact Array.mem_map_of_mem held
  | @literal c r _ direct held =>
      refine .literal (direct_rounded.mpr direct) ?_
      rw [routine_rounded]
      exact Array.mem_map_of_mem held
  | @base c base bound closure =>
      have closure' : h.rounded.callable c = .closure base (bound.map Value.rounded) := by
        rw [callable_rounded, closure]
        rfl
      exact .base closure'
  | @bound c base bound _ closure held =>
      have closure' : h.rounded.callable c = .closure base (bound.map Value.rounded) := by
        rw [callable_rounded, closure]
        rfl
      exact .bound closure' (List.mem_map_of_mem held)
  | member => exact absurd rfl (noObject _)

/-- Rounded processes lead to all that the processes lead to, rounded; by induction on how it is
reached.
-/
theorem rounded_live (objectFree : h.ObjectFree ps) {v : Value} (live : h.Live ps v)
    : h.rounded.Live (ps.map Process.rounded) v.rounded := by
  induction live with
  | root held =>
      obtain ⟨p, among, held⟩ := held
      refine live_of_holds (List.mem_map_of_mem among) ?_
      rcases held with stack | ⟨f, active, held⟩
      · exact .inl (List.mem_map_of_mem stack)
      · refine .inr ⟨f.rounded, List.mem_map_of_mem active, ?_⟩
        rcases held with locals | literals
        · exact .inl (Array.mem_map_of_mem locals)
        · refine .inr ?_
          rw [routine_rounded]
          exact Array.mem_map_of_mem literals
  | step reached leads ih =>
      exact .step ih (leadsTo_of_rounded (fun o same => objectFree o (same ▸ reached)) leads)

theorem called_rounded (objectFree : h.ObjectFree ps) {r : RoutineId}
    (called : h.rounded.Called (ps.map Process.rounded) r)
    : h.Called ps r := by
  rcases called with ⟨p', among', f', active', rfl⟩ | ⟨c, live, direct⟩
  · obtain ⟨p, among, rfl⟩ := List.mem_map.mp among'
    obtain ⟨f, active, rfl⟩ := List.mem_map.mp active'
    exact .inl ⟨p, among, f, active, rfl⟩
  · obtain ⟨v, live, same⟩ := live_rounded objectFree live
    obtain rfl := Value.rounded_eq_callable.mp same.symm
    exact .inr ⟨c, live, direct_rounded.mp direct⟩

theorem live_array_rounded (objectFree : h.ObjectFree ps) {a : ArrayId}
    (live : h.rounded.Live (ps.map Process.rounded) (.array a))
    : h.Live ps (.array a) := by
  obtain ⟨v, live, same⟩ := live_rounded objectFree live
  obtain rfl := Value.rounded_eq_array.mp same.symm
  exact live

/-- Everything that rounded processes lead to is stored exactly. -/
theorem storable_live_rounded (objectFree : h.ObjectFree ps) {v' : Value}
    (live : h.rounded.Live (ps.map Process.rounded) v')
    : v'.Storable := by
  obtain ⟨v, liveBefore, rfl⟩ := live_rounded objectFree live
  exact Value.storable_rounded fun o same => objectFree o (same ▸ liveBefore)

end Heap
end TaskMachine

import TaskMachine.Proofs.Heap.Untied
import TaskMachine.Proofs.Scheduler.Moves

/-!
When the copies that processes make come to an end. A copy of what a process holds ends just if it
comes across no closure whose bound arguments lead back to it. Only a store ties such a knot.
There is none where no process ever stores in an array a value with a closure behind it that leads
back to the array; but a closure can be called with itself, and then it can be stored in its own
bound argument.
-/

namespace TaskMachine.Scheduler

open Relation

variable {s s' : Scheduler} {others : List Process} {dealings : Dealings}

-----------------------------------------------------------------------------------------
-- What there is is on the heap
-----------------------------------------------------------------------------------------

/-- No handle is without what it refers to, neither on the heap nor where a process holds it. -/
structure Grounded (s : Scheduler) : Prop where
  whole : s.world.heap.Whole
  held : ∀ p ∈ s.processes, ∀ v, p.Holds s.world.heap v → s.world.heap.Present v

/-- A move in which only what is on the heap is taken in. -/
inductive Sourced (s s' : Scheduler) : Prop
  | turn {others : List Process} {dealings : Dealings} (turn : Turn s others dealings s')
    (present : ∀ v, dealings.takes v → s.world.heap.Present v)
  | host (surrounds : Surrounds s s')

/-- To be grounded is to keep to the region of all values. -/
theorem grounded_iff
    : s.Grounded ↔ s.Disciplined (fun h => h.Region fun _ => True) fun _ => True := by
  constructor
  · intro grounded
    exact ⟨Heap.region_true_iff.mpr grounded.whole, fun p among v holds =>
      ⟨trivial, grounded.held p among v holds⟩⟩
  · intro disciplined
    exact ⟨Heap.region_true_iff.mp disciplined.order, fun p among v holds =>
      (disciplined.held p among v holds).2⟩

/-- A process that takes in only what is on the heap leaves no handle without what it refers to,
and does to the heap what values of the heap allow.
-/
theorem Turn.grounded (turn : Turn s others dealings s') (grounded : s.Grounded)
    (present : ∀ v, dealings.takes v → s.world.heap.Present v)
    : s'.Grounded
      ∧ s.world.heap.Edits (fun _ => True) (dealings.Writes s.world.heap) s'.world.heap := by
  have disciplined := grounded_iff.mp grounded
  obtain ⟨later, edits⟩ := turn.disciplined disciplined
    (fun v taken => ⟨trivial, present v taken⟩)
    (fun _ _ _ _ _ => disciplined.order.opens trivial)
  exact ⟨grounded_iff.mpr later, edits⟩

/-- What the host does around the processes leaves no handle dangling. -/
theorem Surrounds.grounded (surrounds : Surrounds s s') (grounded : s.Grounded) : s'.Grounded :=
  grounded_iff.mpr (surrounds.disciplined (grounded_iff.mp grounded)
    (Heap.region_true_iff.mpr (surrounds.whole grounded.whole)))

/-- No handle is ever without what it refers to, by induction on the moves. -/
theorem grounded_of_moves (grounded : s.Grounded) (run : ReflTransGen Sourced s s')
    : s'.Grounded := by
  induction run with
  | refl => exact grounded
  | tail _ sourced ih =>
      cases sourced with
      | turn turn present => exact (turn.grounded ih present).1
      | host surrounds => exact surrounds.grounded ih

-----------------------------------------------------------------------------------------
-- Moves that tie no knot
-----------------------------------------------------------------------------------------

/-- A move in which only what is on the heap is taken in, and no value with a closure behind it
that leads back to an array is stored in this array. The host ties no knot either.
-/
inductive Careful (s s' : Scheduler) : Prop
  | turn {others : List Process} {dealings : Dealings} (turn : Turn s others dealings s')
    (present : ∀ v, dealings.takes v → s.world.heap.Present v)
    (apart : ∀ a v, dealings.stores a v → ¬ s.world.heap.Ties a v)
  | host (surrounds : Surrounds s s') (untied : s.world.heap.Untied → s'.world.heap.Untied)

/-- A careful move hands over only what is there. -/
theorem Careful.sourced (careful : Careful s s') : Sourced s s' := by
  cases careful with
  | turn turn present _ => exact .turn turn present
  | host surrounds _ => exact .host surrounds

/-- Careful moves tie no knot, by induction on the moves. -/
theorem untied_of_moves (grounded : s.Grounded) (untied : s.world.heap.Untied)
    (run : ReflTransGen Careful s s')
    : s'.world.heap.Untied := by
  induction run with
  | refl => exact untied
  | tail before careful ih =>
      have sourced := ReflTransGen.mono (fun _ _ => Careful.sourced) _ _ before
      have grounded := grounded_of_moves grounded sourced
      cases careful with
      | turn turn present apart =>
          refine (turn.grounded grounded present).2.untied ?_ grounded.whole ih
          rintro h a v ⟨rfl, stores⟩
          exact apart a v stores
      | host _ untied => exact untied ih

/-- As long as processes take in only what is on the heap, the copy of whatever one of them holds
ends just if it comes across no closure whose bound arguments lead back to it. It always ends if
there was no such closure in the beginning and processes never store in an array a value with a
closure behind it that leads back to the array. It makes no difference if other values have been
copied before, as when several are bound at once.
-/
theorem held_copies_end {s₀ : Scheduler} (grounded : s₀.Grounded) (run : ReflTransGen Sourced s₀ s)
    {p : Process} (among : p ∈ s.processes) {v : Value} (held : p.Holds s.world.heap v)
    {h : Heap} (kept : s.world.heap.Kept h)
    : (h.CopyEnds v ↔ ¬ s.world.heap.Knotted v)
      ∧ (s₀.world.heap.Untied → ReflTransGen Careful s₀ s → h.CopyEnds v) := by
  have now := grounded_of_moves grounded run
  have encloses := (Heap.region_true_iff.mpr now.whole).encloses
  have ends := Heap.copyEnds_iff encloses ⟨trivial, now.held p among v held⟩ kept
  refine ⟨ends, fun untied careful => ends.mpr ?_⟩
  exact (untied_of_moves grounded untied careful).not_knotted

-----------------------------------------------------------------------------------------
-- A closure that is stored in its own bound argument
-----------------------------------------------------------------------------------------

/-- Two routines. The second one stores its second argument in its first one. The first routine
makes an array, binds it to the second routine, calls this closure with the closure itself as the
argument that is left, and sets a global to the closure.
-/
def tying : Scheduler where
  config := {}
  processes := []
  nextId := 1
  world := { World.empty with
    heap := { Heap.empty with
      callables := #[.direct (.subroutine ⟨1⟩)]
      routines := #[
        { (default : Routine) with
          names := #["G"]
          literals := #[.callable ⟨0⟩]
          code := #[
            ⟨.push, 2, 1⟩, ⟨.special, 7, 1⟩, ⟨.push, 1, 0⟩, ⟨.special, 6, 1⟩, ⟨.stack, 0, 0⟩,
            ⟨.stack, 0, 0⟩, ⟨.indirect, 0, 1⟩, ⟨.pop, 4, 0⟩] },
        { (default : Routine) with
          isProcedure := true
          minArgs := 2
          maxArgs := 2
          localNames := #["X", "C"]
          code := #[⟨.push, 0, 1⟩, ⟨.push, 2, 0⟩, ⟨.push, 0, 0⟩, ⟨.indirect, 3, 1⟩] }] } }

/-- A process of the first routine that has the closure on its operand stack. -/
def binder (pc : Nat) : Process := { Process.new {} 1 "" with
  state := .running
  stack := [.callable ⟨1⟩]
  frames := [{
    routine := ⟨0⟩, pc, locals := #[], handlers := [], wantResult := false, stackBase := 0 }] }

/-- The first routine has been started and the closure made. The bound argument is a copy of the
array. Its only element is the value that is given.
-/
def bound (pc : Nat) (element : Value) : Scheduler :=
  { tying with
    nextId := 2
    processes := [binder pc]
    world := { tying.world with
      heap := { tying.world.heap with
        arrays := #[⟨[1], #[.null]⟩, ⟨[1], #[element]⟩]
        callables := #[.direct (.subroutine ⟨1⟩), .closure ⟨0⟩ [.array ⟨1⟩]] } } }

/-- The world when the array has been made. -/
def unbound : World :=
  { tying.world with heap := { tying.world.heap with arrays := #[⟨[1], #[.null]⟩] } }

/-- The first routine makes the array, binds it, and calls the closure with the closure itself. -/
private theorem run_binder
    : Machine.runFor 12 ⟨tying.world, { binder 0 with stack := [] }⟩
      = ⟨(bound 7 (.callable ⟨1⟩)).world, binder 7⟩ := by
  have makes
      : Machine.runFor 3 ⟨tying.world, { binder 0 with stack := [] }⟩
        = ⟨unbound, { binder 3 with stack := [.callable ⟨0⟩, .array ⟨0⟩] }⟩ := by
    with_unfolding_all rfl
  have binds
      : Machine.advance ⟨unbound, { binder 3 with stack := [.callable ⟨0⟩, .array ⟨0⟩] }⟩
        = ⟨(bound 4 .null).world, binder 4⟩ := by
    with_unfolding_all rfl
  have calls
      : Machine.runFor 8 ⟨(bound 4 .null).world, binder 4⟩
        = ⟨(bound 7 (.callable ⟨1⟩)).world, binder 7⟩ := by
    with_unfolding_all rfl
  rw [Machine.runFor_add 3 9, makes, Machine.runFor, binds, calls]
  exact if_pos rfl

private theorem moves_tying : Moves tying (bound 7 (.callable ⟨1⟩)) := by
  have started : Moves tying _ := moves_addNamed_nil "" .default ⟨0⟩
  have awake := started.trans (@moves_getD_wake _ 1 (by decide))
  have begun
      : Moves tying { tying with
          nextId := 2
          processes := [{ binder 0 with stack := [] }] } := by
    convert awake.trans (moves_runNext 0 _)
    with_unfolding_all rfl
  have ran := @moves_of_runFor
    { tying with nextId := 2, processes := [{ binder 0 with stack := [] }] } _ _ 12 rfl run_binder
  exact begun.trans ran

/-- On this heap every handle refers to what is there. -/
theorem whole_bound (pc : Nat) (element : Value)
    (present : (bound pc element).world.heap.Present element)
    : (bound pc element).world.heap.Whole := by
  intro v w carries
  obtain ⟨leads, here⟩ := carries
  cases leads with
  | member => exact absurd rfl (here _)
  | @cell a _ held =>
      obtain ⟨_ | _ | n⟩ := a
      · obtain rfl := Array.mem_singleton.mp held
        trivial
      · obtain rfl := Array.mem_singleton.mp held
        exact present
      · cases Array.not_mem_empty w held
  | @literal c r _ routine held =>
      obtain ⟨_ | _ | n⟩ := c <;> cases routine
      cases Array.not_mem_empty w held
  | @base c base bound closure =>
      obtain ⟨_ | _ | n⟩ := c <;> cases closure
      exact Nat.zero_lt_two
  | @bound c base bound _ closure held =>
      obtain ⟨_ | _ | n⟩ := c <;> cases closure
      obtain rfl := List.mem_singleton.mp held
      exact Nat.one_lt_two

private theorem grounded_bound (pc : Nat) (element : Value)
    (present : (bound pc element).world.heap.Present element)
    : (bound pc element).Grounded where
  whole := whole_bound pc element present
  held p among v held := by
    obtain rfl := List.mem_singleton.mp among
    rcases held with onStack | ⟨f, active, variable_ | literal⟩
    · obtain rfl := List.mem_singleton.mp onStack
      exact Nat.one_lt_two
    · obtain rfl := List.mem_singleton.mp active
      cases Array.not_mem_empty v variable_
    · obtain rfl := List.mem_singleton.mp active
      obtain rfl := Array.mem_singleton.mp literal
      exact Nat.zero_lt_two

private theorem encloses_tied
    : (bound 7 (.callable ⟨1⟩)).world.heap.Encloses
        ((bound 7 (.callable ⟨1⟩)).world.heap.Owned fun _ => True) :=
  (Heap.region_true_iff.mpr (whole_bound 7 (.callable ⟨1⟩) Nat.one_lt_two)).encloses

private theorem owned_tied
    : (bound 7 (.callable ⟨1⟩)).world.heap.Owned (fun _ => True) (.callable ⟨1⟩) :=
  ⟨trivial, Nat.one_lt_two⟩

/-- The closure leads to its bound argument, and back from its only element. -/
theorem endless_tied : ¬ (bound 7 (.callable ⟨1⟩)).world.heap.CopyEnds (.callable ⟨1⟩) := by
  have argument : (bound 7 (.callable ⟨1⟩)).world.heap.Enters (.callable ⟨1⟩) (.array ⟨1⟩) :=
    .bound rfl List.mem_cons_self
  have element : (bound 7 (.callable ⟨1⟩)).world.heap.Enters (.array ⟨1⟩) (.callable ⟨1⟩) :=
    .cell (Array.mem_singleton.mpr rfl)
  rw [Heap.copyEnds_iff encloses_tied owned_tied (.refl _), not_not]
  exact ⟨⟨1⟩, .refl, .head argument (.single element)⟩

/-- A process can come to hold a closure whose copy never ends, with a program that makes an
array, binds it, calls the closure, and stores in the array what it was called with. Then the copy
that the process needs to set a global to the closure does not end.
-/
theorem bound_store_ties_knot
    : tying.processes = []
      ∧ Moves tying (bound 7 (.callable ⟨1⟩))
      ∧ (bound 7 (.callable ⟨1⟩)).processes = [binder 7]
      ∧ (binder 7).stack = [.callable ⟨1⟩]
      ∧ ¬ (bound 7 (.callable ⟨1⟩)).world.heap.CopyEnds (.callable ⟨1⟩)
      ∧ (∀ name, (bound 7 (.callable ⟨1⟩)).world.set name (.callable ⟨1⟩) = none)
      ∧ ∃ m, Exec.step.run ⟨(bound 7 (.callable ⟨1⟩)).world, binder 7⟩ = .error .endless m := by
  refine ⟨rfl, moves_tying, rfl, rfl, endless_tied, fun name => ?_, _, rfl⟩
  rw [World.set, Option.map_eq_none_iff, ← Option.not_isSome_iff_eq_none,
    Heap.isSome_copy_iff encloses_tied owned_tied]
  exact endless_tied

/-- Before the closure is called, its bound argument has no element that leads anywhere. -/
theorem untied_bound (pc : Nat) : (bound pc .null).world.heap.Untied := by
  intro c knot
  obtain ⟨v, enters, way⟩ := TransGen.head'_iff.mp knot
  cases enters with
  | bound closure held =>
      obtain ⟨_ | _ | n⟩ := c <;> cases closure
      obtain rfl := List.mem_singleton.mp held
      cases way.cases_head with
      | inl same => cases same
      | inr step =>
          obtain ⟨w, enters, way⟩ := step
          cases enters with
          | cell held =>
              obtain rfl := Array.mem_singleton.mp held
              rcases way.cases_head with same | ⟨u, enters, -⟩
              · cases same
              · cases enters

/-- The process that pushes the closure once more holds only values whose copies end. -/
theorem bound_copies_end
    : (bound 4 .null).Grounded
      ∧ (Machine.advance ⟨(bound 4 .null).world, binder 4⟩).process.stack
        = [.callable ⟨1⟩, .callable ⟨1⟩]
      ∧ (Machine.advance ⟨(bound 4 .null).world, binder 4⟩).world.heap.CopyEnds (.callable ⟨1⟩) := by
  have grounded := grounded_bound 4 .null trivial
  have stack : (Machine.advance ⟨(bound 4 .null).world, binder 4⟩).process.stack
      = [.callable ⟨1⟩, .callable ⟨1⟩] := rfl
  have next : Machine.next? ⟨(bound 4 .null).world, binder 4⟩ = some ⟨.stack, 0, 0⟩ := rfl
  have nothing (v : Value) : ¬ Machine.Takes ⟨(bound 4 .null).world, binder 4⟩ v := by
    rintro ⟨i, same, taken⟩
    obtain rfl := Option.some.inj (next.symm.trans same)
    cases taken with
    | named opcode | member opcode | reply opcode => cases opcode
  have nowhere (a : ArrayId) (v : Value)
      : ¬ Machine.Stores ⟨(bound 4 .null).world, binder 4⟩ a v := by
    rintro ⟨i, same, stores⟩
    obtain rfl := Option.some.inj (next.symm.trans same)
    cases stores.opcode
  have act : Act (bound 4 .null).world (some (binder 4)) _ _ _ := .stepped rfl
  have turn := @Turn.acted (bound 4 .null) [] [] _ _ _ _ 2 rfl act
  have careful := Careful.turn turn (fun v taken => absurd taken (nothing v))
    fun a v stores => absurd stores (nowhere a v)
  refine ⟨grounded, stack, ?_⟩
  refine (held_copies_end grounded (.single careful.sourced) List.mem_cons_self
    (.inl ?_) (.refl _)).2 (untied_bound 4) (.single careful)
  rw [stack]
  exact List.mem_cons_self

end TaskMachine.Scheduler

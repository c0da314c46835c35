import TaskMachine.Proofs.Heap.Captures
import TaskMachine.Proofs.Scheduler.Copying

/-!
How long a closure passes what was bound to it. Its arguments are copies that nothing else leads to,
but a call hands out the copies themselves, and whoever gets them can store in them. So a closure
passes what was bound as long as nobody calls it, and after that as long as nobody stores in an
array that it has handed out.
-/

namespace TaskMachine.Scheduler

open Relation

variable {h : Heap} {base c : CallableId} {values : List Value} {s₀ s s' : Scheduler}

/-- A move in which only what is on the heap is taken in, and nothing is stored in an array that was
made for the closure.
-/
inductive Sparing (h h₁ : Heap) (c : CallableId) (s s' : Scheduler) : Prop
  | turn {others : List Process} {dealings : Dealings} (turn : Turn s others dealings s')
    (present : ∀ v, dealings.takes v → s.world.heap.Present v)
    (spared : ∀ a v, dealings.stores a v → ¬ h.Captured h₁ c (.array a))
  | host (surrounds : Surrounds s s')

/-- A move in which nothing is taken in that was made for the closure, and neither the closure is
called nor another one that extends it. The host does not lead anyone else to what was made for the
closure.
-/
inductive Uncalled (h h₁ : Heap) (c : CallableId) (s s' : Scheduler) : Prop
  | turn {others : List Process} {dealings : Dealings} (turn : Turn s others dealings s')
    (outside
      : ∀ v, dealings.takes v → s.world.heap.Owned (fun v => ¬ h.Captured h₁ c v) v)
    (apart
      : ∀ p, s.Acts others p → p.state = .running
        → ∀ d, Machine.Calls ⟨s.world, p⟩ d → ¬ s.world.heap.Extends d c)
  | host (surrounds : Surrounds s s')
    (closed : h.Sealed h₁ c s.world.heap → h.Sealed h₁ c s'.world.heap)

/-- Sparing moves change nothing that was made for the closure, by induction on the moves. -/
theorem changes_of_sparing (grounded : s₀.Grounded)
    (run : ReflTransGen (Sparing h s₀.world.heap c) s₀ s)
    : s.Grounded
      ∧ s₀.world.heap.ChangesIn (fun v => ¬ h.Captured s₀.world.heap c v) s.world.heap := by
  induction run with
  | refl => exact ⟨grounded, .refl _ _⟩
  | tail _ sparing ih =>
      obtain ⟨grounded, changes⟩ := ih
      cases sparing with
      | turn turn present spared =>
          obtain ⟨grounded, edits⟩ := turn.grounded grounded present
          refine ⟨grounded, changes.trans (edits.changes ?_)⟩
          rintro _ a v - ⟨-, stores⟩
          exact spared a v stores
      | host surrounds =>
          exact ⟨surrounds.grounded grounded,
            changes.trans (surrounds.kept.changesIn surrounds.routines)⟩

/-- As long as the closure is not called, processes hold nothing that was made for it, and change
nothing of it. By induction on the moves.
-/
theorem changes_of_uncalled
    (disciplined
      : s₀.Disciplined (h.Sealed s₀.world.heap c) fun v => ¬ h.Captured s₀.world.heap c v)
    (run : ReflTransGen (Uncalled h s₀.world.heap c) s₀ s)
    : s.Disciplined (h.Sealed s₀.world.heap c) (fun v => ¬ h.Captured s₀.world.heap c v)
      ∧ s₀.world.heap.ChangesIn (fun v => ¬ h.Captured s₀.world.heap c v) s.world.heap := by
  induction run with
  | refl => exact ⟨disciplined, .refl _ _⟩
  | @tail s s' _ uncalled ih =>
      obtain ⟨disciplined, changes⟩ := ih
      cases uncalled with
      | turn turn outside apart =>
          obtain ⟨later, edits⟩ := turn.disciplined disciplined outside
            fun p acts running d called =>
              disciplined.order.opens (disciplined.held p acts.mem _ called.held).1
                (apart p acts running d called)
          exact ⟨later, changes.trans edits.changesIn⟩
      | host surrounds closed =>
          exact ⟨surrounds.disciplined disciplined (closed disciplined.order),
            changes.trans (surrounds.kept.changesIn surrounds.routines)⟩

/-- A closure passes copies of the values that were bound to it, as these were then, through any
number of moves in which nothing is stored in an array that was made for it. There is nobody to
store in these arrays as long as the closure is not called: if processes hold nothing that was made
for it to begin with, they never do.
-/
theorem closure_passes_captured (stacked : h.Stacked) (whole : h.Whole)
    (boxes : ∀ a, (h.grid a).cells.size = volume (h.grid a).dims)
    (basePresent : h.Present (.callable base)) (present : ∀ v ∈ values, h.Present v)
    (binds : h.Binds base values s₀.world.heap c) (grounded : s₀.Grounded)
    : (∀ s, ReflTransGen (Sparing h s₀.world.heap c) s₀ s → h.Passes base values s.world c)
      ∧ ((∀ p ∈ s₀.processes, ∀ v, p.Holds s₀.world.heap v → ¬ h.Captured s₀.world.heap c v)
        → ∀ s, ReflTransGen (Uncalled h s₀.world.heap c) s₀ s
          → h.Passes base values s.world c
            ∧ ∀ p ∈ s.processes, ∀ v, p.Holds s.world.heap v
              → ¬ h.Captured s₀.world.heap c v) := by
  obtain ⟨after, inside⟩ := binds.index
  have hands := binds.hands whole boxes present
  have passes {s : Scheduler}
      (changes
        : s₀.world.heap.ChangesIn (fun v => ¬ h.Captured s₀.world.heap c v) s.world.heap)
      : h.Passes base values s.world c := by
    refine (hands.later inside changes).passes stacked basePresent after fun d before => ?_
    exact (changes.callable d (Nat.lt_of_lt_of_le before binds.kept.callables)).trans
      (binds.kept.callable d before)
  refine ⟨fun s run => passes (changes_of_sparing grounded run).2, fun outside s run => ?_⟩
  have closed := binds.sealed whole grounded.whole basePresent
  obtain ⟨disciplined, changes⟩ := changes_of_uncalled ⟨closed, fun p among v holds =>
    ⟨outside p among v holds, grounded.held p among v holds⟩⟩ run
  exact ⟨passes changes, fun p among v holds => (disciplined.held p among v holds).1⟩

-----------------------------------------------------------------------------------------
-- A routine that counts in its parameter
-----------------------------------------------------------------------------------------

/-- Two routines. The second one adds one to the first element of its argument and returns it. The
first routine makes an array with the element one, binds it to the second routine, calls this
closure twice, and returns what the second call has returned.
-/
def tallying : Scheduler where
  config := {}
  processes := []
  nextId := 1
  world := { World.empty with
    heap := { Heap.empty with
      callables := #[.direct (.subroutine ⟨1⟩)]
      routines := #[
        { (default : Routine) with
          literals := #[.callable ⟨0⟩]
          localNames := #["X", "C"]
          code := #[
            ⟨.push, 2, 1⟩, ⟨.special, 7, 1⟩, ⟨.pop, 0, 0⟩, ⟨.push, 2, 1⟩, ⟨.push, 2, 0⟩,
            ⟨.push, 0, 0⟩, ⟨.indirect, 3, 1⟩, ⟨.push, 0, 0⟩, ⟨.push, 1, 0⟩, ⟨.special, 6, 1⟩,
            ⟨.pop, 0, 1⟩, ⟨.push, 0, 1⟩, ⟨.indirect, 1, 0⟩, ⟨.stack, 1, 1⟩, ⟨.push, 0, 1⟩,
            ⟨.indirect, 1, 0⟩, ⟨.special, 1, 1⟩] },
        { (default : Routine) with
          minArgs := 1
          maxArgs := 1
          localNames := #["X"]
          code := #[
            ⟨.push, 2, 1⟩, ⟨.push, 2, 0⟩, ⟨.push, 0, 0⟩, ⟨.indirect, 2, 1⟩, ⟨.binary, 0, 0⟩,
            ⟨.push, 2, 0⟩, ⟨.push, 0, 0⟩, ⟨.indirect, 3, 1⟩, ⟨.push, 2, 0⟩, ⟨.push, 0, 0⟩,
            ⟨.indirect, 2, 1⟩, ⟨.special, 1, 1⟩] }] } }

/-- The heap before the array is bound. -/
def tally : Heap :=
  { tallying.world.heap with arrays := #[⟨[1], #[.integer 1]⟩] }

/-- A process of the first routine that has the array and the closure in its variables. -/
def caller (pc : Nat) (stack : List Value) : Process := { Process.new {} 1 "" with
  state := .running
  stack
  frames := [{
    routine := ⟨0⟩, pc, locals := #[.array ⟨0⟩, .callable ⟨1⟩], handlers := [], wantResult := false,
    stackBase := 0 }] }

/-- The first routine has been started, and the closure made. Its argument is a copy of the array;
the number that is given is the only element of the copy.
-/
def tallied (pc : Nat) (n : Int32) (stack : List Value) : Scheduler :=
  { tallying with
    nextId := 2
    processes := [caller pc stack]
    world := { tallying.world with
      heap := { tally with
        arrays := #[⟨[1], #[.integer 1]⟩, ⟨[1], #[.integer n]⟩]
        callables := #[.direct (.subroutine ⟨1⟩), .closure ⟨0⟩ [.array ⟨1⟩]] } } }

/-- A process in the first routine, with these values in its variables. -/
def beginner (pc : Nat) (locals : Array Value) (stack : List Value) : Process :=
  { caller pc stack with
    frames := [{
      routine := ⟨0⟩, pc, locals, handlers := [], wantResult := false, stackBase := 0 }] }

/-- The first routine makes the array, and the closure over a copy of it. -/
private theorem run_beginner
    : Machine.runFor 11 ⟨tallying.world, beginner 0 #[.null, .null] []⟩
      = ⟨(tallied 11 1 []).world, caller 11 []⟩ := by
  have makes
      : Machine.runFor 9 ⟨tallying.world, beginner 0 #[.null, .null] []⟩
        = ⟨{ tallying.world with heap := tally },
            beginner 9 #[.array ⟨0⟩, .null] [.callable ⟨0⟩, .array ⟨0⟩]⟩ := by
    with_unfolding_all rfl
  have binds
      : Machine.advance
          ⟨{ tallying.world with heap := tally },
            beginner 9 #[.array ⟨0⟩, .null] [.callable ⟨0⟩, .array ⟨0⟩]⟩
        = ⟨(tallied 11 1 []).world, beginner 10 #[.array ⟨0⟩, .null] [.callable ⟨1⟩]⟩ := by
    with_unfolding_all rfl
  have keeps
      : Machine.runFor 1
          ⟨(tallied 11 1 []).world, beginner 10 #[.array ⟨0⟩, .null] [.callable ⟨1⟩]⟩
        = ⟨(tallied 11 1 []).world, caller 11 []⟩ := by
    with_unfolding_all rfl
  rw [Machine.runFor_add 9 2, makes, Machine.runFor, binds, keeps]
  exact if_pos rfl

private theorem moves_tallying : Moves tallying (tallied 11 1 []) := by
  have started : Moves tallying _ := moves_addNamed_nil "" .default ⟨0⟩
  have awake := started.trans (@moves_getD_wake _ 1 (by decide))
  have begun
      : Moves tallying { tallying with
          nextId := 2
          processes := [beginner 0 #[.null, .null] []] } := by
    convert awake.trans (moves_runNext 0 _)
    with_unfolding_all rfl
  have ran := @moves_of_runFor
    { tallying with nextId := 2, processes := [beginner 0 #[.null, .null] []] } _ _ 11 rfl
    run_beginner
  exact begun.trans ran

/-- What the process runs through are moves. -/
theorem moves_tallied {pc pc' : Nat} {n n' : Int32} {stack stack' : List Value} (fuel : Nat)
    (ran
      : Machine.runFor fuel ⟨(tallied pc n stack).world, caller pc stack⟩
        = ⟨(tallied pc' n' stack').world, caller pc' stack'⟩)
    : Moves (tallied pc n stack) (tallied pc' n' stack') :=
  moves_of_runFor fuel rfl ran

private theorem binds_tally : tally.Binds ⟨0⟩ [.array ⟨0⟩] (tallied 11 1 []).world.heap ⟨1⟩ :=
  ⟨_, _, rfl, rfl⟩

/-- A closure that is called twice does not pass the second time what was bound to it, but what the
first call has left in its argument. So the second call returns three, as if the array had been
bound with the element two.
-/
theorem second_call_passes_other
    : tallying.processes = []
      ∧ Moves tallying (tallied 11 1 [])
      ∧ tally.Binds ⟨0⟩ [.array ⟨0⟩] (tallied 11 1 []).world.heap ⟨1⟩
      ∧ Moves (tallied 11 1 []) (tallied 13 2 [.integer 2])
      ∧ ¬ tally.Passes ⟨0⟩ [.array ⟨0⟩] (tallied 13 2 [.integer 2]).world ⟨1⟩
      ∧ Moves (tallied 13 2 [.integer 2]) (tallied 16 3 [.integer 3]) := by
  refine ⟨rfl, moves_tallying, binds_tally, moves_tallied 14 ?_, ?_, moves_tallied 15 ?_⟩
  · with_unfolding_all rfl
  · rintro ⟨bound, t, -, mirrors, each⟩
    obtain ⟨v, rest, first, -, rfl⟩ := List.forall₂_cons_left_iff.mp each
    cases first with
    | fixed fixed => exact fixed
    | @array _ b paired =>
        obtain ⟨new, made, same⟩ := mirrors.arrays _ b paired
        obtain ⟨index⟩ := b
        obtain rfl : index = 1 := Nat.le_antisymm (Nat.le_of_lt_succ made) new
        cases (List.forall₂_cons.mp same.cells).1
  · with_unfolding_all rfl

private theorem whole_tally : tally.Whole := by
  have none : (default : Routine).literals = #[] := rfl
  apply Heap.whole_of_entries <;> simp [tally, tallying, Heap.Present, none]

private theorem whole_tallied : (tallied 11 1 []).world.heap.Whole := by
  have none : (default : Routine).literals = #[] := rfl
  apply Heap.whole_of_entries <;> simp [tallied, tally, tallying, Heap.Present, none]

private theorem boxes_tally (a : ArrayId)
    : (tally.grid a).cells.size = volume (tally.grid a).dims := by
  obtain ⟨_ | n⟩ := a <;> rfl

private theorem present_tally : ∀ v ∈ [Value.array ⟨0⟩], tally.Present v :=
  List.forall_mem_singleton.mpr Nat.zero_lt_one

/-- What the process holds when the closure was made was there before, or is the closure itself. -/
theorem held_tallied {v : Value} (held : (caller 11 []).Holds (tallied 11 1 []).world.heap v)
    : tally.Present v ∨ v = .callable ⟨1⟩ := by
  rcases held with onStack | ⟨f, active, variable_ | literal⟩
  · cases onStack
  · obtain rfl := List.mem_singleton.mp active
    rcases List.mem_pair.mp (Array.mem_toList_iff.mpr variable_) with rfl | rfl
    · exact .inl Nat.zero_lt_one
    · exact .inr rfl
  · obtain rfl := List.mem_singleton.mp active
    obtain rfl := Array.mem_singleton.mp literal
    exact .inl Nat.zero_lt_one

private theorem grounded_tallied : (tallied 11 1 []).Grounded where
  whole := whole_tallied
  held p among v held := by
    obtain rfl := List.mem_singleton.mp among
    rcases held_tallied held with before | rfl
    · exact binds_tally.kept.present before
    · exact Nat.one_lt_two

/-- When the process pushes the closure to call it, the closure still passes what was bound, and the
process holds nothing that was made for it.
-/
theorem closure_passes_before_call
    : tally.Passes ⟨0⟩ [.array ⟨0⟩] (tallied 12 1 [.callable ⟨1⟩]).world ⟨1⟩
      ∧ ∀ p ∈ (tallied 12 1 [.callable ⟨1⟩]).processes,
          ∀ v, p.Holds (tallied 12 1 [.callable ⟨1⟩]).world.heap v
            → ¬ tally.Captured (tallied 11 1 []).world.heap ⟨1⟩ v := by
  have stacked : tally.Stacked := by
    intro c base bound what
    obtain ⟨_ | n⟩ := c <;> cases what
  have next : Machine.next? ⟨(tallied 11 1 []).world, caller 11 []⟩ = some ⟨.push, 0, 1⟩ := rfl
  have nothing (v : Value) : ¬ Machine.Takes ⟨(tallied 11 1 []).world, caller 11 []⟩ v := by
    rintro ⟨i, same, taken⟩
    obtain rfl := Option.some.inj (next.symm.trans same)
    cases taken with
    | named _ scope => cases scope
    | member opcode | reply opcode => cases opcode
  have nobody (d : CallableId) : ¬ Machine.Calls ⟨(tallied 11 1 []).world, caller 11 []⟩ d := by
    rintro ⟨i, same, calls⟩
    obtain rfl := Option.some.inj (next.symm.trans same)
    cases calls.opcode
  have act : Act (tallied 11 1 []).world (some (caller 11 [])) _ _ _ := .stepped rfl
  have turn := @Turn.acted (tallied 11 1 []) [] [] _ _ _ _ 2 rfl act
  have uncalled : Uncalled tally (tallied 11 1 []).world.heap ⟨1⟩ (tallied 11 1 [])
      (tallied 12 1 [.callable ⟨1⟩]) := by
    refine .turn turn (fun v taken => absurd taken (nothing v)) fun p acts _ d calls => ?_
    obtain rfl := List.mem_singleton.mp acts.mem
    exact absurd calls (nobody d)
  have outside : ∀ p ∈ (tallied 11 1 []).processes, ∀ v,
      p.Holds (tallied 11 1 []).world.heap v
        → ¬ tally.Captured (tallied 11 1 []).world.heap ⟨1⟩ v := by
    intro p among v held captured
    obtain rfl := List.mem_singleton.mp among
    rcases held_tallied held with before | same
    · exact captured.2.1 before
    · exact captured.2.2 same
  exact (closure_passes_captured stacked whole_tally boxes_tally Nat.zero_lt_one present_tally
    binds_tally grounded_tallied).2 outside _ (.single uncalled)

end TaskMachine.Scheduler

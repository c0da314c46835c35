import TaskMachine.Proofs.Process.Runs

/-!
What becomes of a fault, whichever instruction raises it and however much it had done by then. The
nearest call that has a handler goes on with the latest one, or the process fails with everything as it
was when the fault was raised, and runs no further.
-/

namespace TaskMachine

/-- The bytecode breaks an invariant of the machine, or stored data is malformed. -/
def Fault.IsBreach (f : Fault) : Prop :=
  ∃ detail, f = .internal detail ∨ f = .badFormat detail

private theorem Fault.isCatchable_eq_false {f : Fault} : f.isCatchable = false ↔ f.IsBreach := by
  cases f <;> simp [isCatchable, IsBreach]

-----------------------------------------------------------------------------------------
-- Looking for a handler
-----------------------------------------------------------------------------------------

namespace Process

variable {p p' : Process} {f : Fault}

/-- The fault is caught: of the calls that have handlers, the innermost one goes on at the target of
its latest handler, which it loses. The calls further in are left, and the stack keeps, from the bottom,
as many values as the handler says, below the text of the fault.
-/
inductive Catches (f : Fault) (p : Process) : Process → Prop
  | intro {inner : List Frame} {catcher : Frame} {outer : List Frame} {latest : Handler}
    {older : List Handler} {kept : List Value}
    (frames : p.frames = inner ++ catcher :: outer)
    (none : ∀ g ∈ inner, g.handlers = [])
    (handlers : catcher.handlers = latest :: older)
    (bottom : kept <:+ p.stack)
    (height : kept.length = min latest.stackDepth p.stack.length)
    : Catches f p
        { p with
          stack := .string f.message :: kept
          frames := { catcher with pc := latest.target, handlers := older } :: outer }

/-- A process whose fault is caught stays in its state. -/
theorem Catches.state_eq (catches : Catches f p p') : p'.state = p.state := by
  cases catches
  rfl

/-- No handler is found just if no call has any, by induction on the calls. -/
theorem catchFault_eq_none {stack : List Value} {frames : List Frame}
    : catchFault f stack frames = none ↔ ∀ g ∈ frames, g.handlers = [] := by
  induction frames with
  | nil => simp [catchFault]
  | cons g outer ih =>
      rw [catchFault, List.forall_mem_cons]
      cases latest : g.handlers with
      | nil => simp [ih]
      | cons handler handlers => simp

/-- A fault that is no breach is caught if some call has a handler. -/
theorem raise_catches (harmless : ¬ f.IsBreach) (some : ∃ g ∈ p.frames, g.handlers ≠ [])
    : Catches f p (p.raise f) := by
  have catchable : f.isCatchable = true := by
    rwa [← Fault.isCatchable_eq_false, Bool.not_eq_false] at harmless
  cases caught : catchFault f p.stack p.frames with
  | none =>
      obtain ⟨g, active, handled⟩ := some
      exact absurd (catchFault_eq_none.mp caught g active) handled
  | some result =>
      obtain ⟨stack, frames⟩ := result
      obtain ⟨inner, catcher, outer, latest, older, split, none, handlers, rfl, rfl⟩ :=
        catchFault_eq_some caught
      have bottom : cut p.stack latest.stackDepth <:+ p.stack := List.drop_suffix _ _
      have catches := Catches.intro (f := f) split none handlers bottom (length_cut _ _)
      simpa only [raise, catchable, if_true, caught] using catches

/-- A fault that is a breach, or finds no handler, ends the process and changes nothing else. -/
theorem raise_fails (uncaught : f.IsBreach ∨ ∀ g ∈ p.frames, g.handlers = [])
    : p.raise f = { p with failure := some f, state := .failed } := by
  rcases uncaught with breach | unhandled
  · have uncatchable := Fault.isCatchable_eq_false.mpr breach
    simp only [raise, uncatchable, Bool.false_eq_true, if_false]
  · have unfound : catchFault f p.stack p.frames = none := catchFault_eq_none.mpr unhandled
    simp only [raise, unfound, ite_self]

end Process

-----------------------------------------------------------------------------------------
-- Faults of a running process
-----------------------------------------------------------------------------------------

namespace Machine

variable {m raised next : Machine} {f : Fault}

/-- A fault is raised. An instruction of a running process stops in the middle, at `raised`, or a fault
that was pending is raised when the process is taken up. The machine then goes on from `next`.
-/
inductive Raises (f : Fault) : Machine → Machine → Machine → Prop
  | instruction {m raised : Machine} (running : m.process.state = .running)
    (failed : Exec.step.run m = .error (.fault f) raised)
    : Raises f m raised m.advance
  | pending {m : Machine} (runnable : m.process.state = .runnable)
    (pending : m.process.pendingFault = some f)
    : Raises f m { m with process := { m.process with state := .running, pendingFault := none } }
        { m with process := m.process.begin }

/-- An instruction that fails does not change the state of its process, by what a step can do. -/
theorem state_of_step_eq_error {interruption : Interruption}
    (failed : Exec.step.run m = .error interruption raised)
    : raised.process.state = m.process.state := by
  rcases Exec.step_cases m with stays | ⟨v, m₁, finishes⟩
  · rw [Exec.Stays, failed] at stays
    exact stays.sameLife.state
  · obtain ⟨g, g', outer, stack, -, rfl⟩ := finishes.shape
    have left := Exec.leave_left (m := (m.withFrames (g' :: outer)).withStack stack) rfl v
    rw [finishes.run_step] at failed
    rw [failed] at left
    cases left
    rfl

namespace Raises

/-- While a fault is raised the process is running. -/
theorem running (raises : Raises f m raised next) : raised.process.state = .running := by
  cases raises with
  | instruction running failed => rw [state_of_step_eq_error failed, running]
  | pending => rfl

/-- The machine goes on from what the fault has done to the process. -/
theorem next_eq (raises : Raises f m raised next)
    : next = { raised with process := raised.process.raise f } := by
  cases raises with
  | instruction running failed => simp only [advance, failed]
  | pending runnable pending => simp only [Process.begin, pending]

/-- What follows a fault is the rest of the run in which it is raised. -/
theorem runs (raises : Raises f m raised next)
    : (m.process.state = .running → ∀ fuel, runFor (fuel + 1) m = runFor fuel next)
      ∧ (m.process.state = .runnable → ∀ fuel, m.run fuel = runFor fuel next) := by
  cases raises with
  | instruction running =>
      constructor
      · intro _ fuel
        rw [runFor, if_pos running]
      · intro runnable
        rw [running] at runnable
        cases runnable
  | pending runnable =>
      constructor
      · intro running
        rw [runnable] at running
        cases running
      · intro _ fuel
        rw [run, if_pos runnable]

end Raises

/-- A process that has failed executes nothing any more. -/
theorem run_of_failed (failed : m.process.state = .failed) (fuel : Nat)
    : runFor fuel m = m ∧ m.run fuel = m := by
  have stopped : m.process.state ≠ .running := by simp [failed]
  have idle : m.process.state ≠ .runnable := by simp [failed]
  exact ⟨runFor_of_stopped fuel stopped, by rw [run, if_neg idle]⟩

/-- A fault goes to the nearest handler, or the process fails as it is. If the fault is no breach and some
call has a handler, the innermost call that has one catches it with the latest one, and the process keeps
running. If the fault is a breach, whatever handlers there are, or if there are none, then the process
fails with it, the calls and the stack are those that there were when it was raised, and nothing is
executed any more.
-/
theorem fault_caught_or_fatal (raises : Raises f m raised next)
    : (m.process.state = .running → ∀ fuel, runFor (fuel + 1) m = runFor fuel next)
      ∧ (m.process.state = .runnable → ∀ fuel, m.run fuel = runFor fuel next)
      ∧ next.world = raised.world
      ∧ (¬ f.IsBreach
          → (∃ g ∈ raised.process.frames, g.handlers ≠ [])
          → Process.Catches f raised.process next.process ∧ next.process.state = .running)
      ∧ (f.IsBreach ∨ (∀ g ∈ raised.process.frames, g.handlers = [])
          → next.process = { raised.process with failure := some f, state := .failed }
            ∧ ∀ fuel, runFor fuel next = next ∧ next.run fuel = next) := by
  have running := raises.running
  obtain ⟨goesOn, takenUp⟩ := raises.runs
  obtain rfl := raises.next_eq
  refine ⟨goesOn, takenUp, rfl, ?_, ?_⟩
  · intro harmless handled
    have catches := Process.raise_catches harmless handled
    exact ⟨catches, catches.state_eq.trans running⟩
  · intro uncaught
    have fails := Process.raise_fails uncaught
    refine ⟨fails, run_of_failed ?_⟩
    rw [fails]

-----------------------------------------------------------------------------------------
-- A text that is thrown past a call
-----------------------------------------------------------------------------------------

/-- Code that throws what is on top of the stack. -/
def throwingRoutine : Routine where
  name := "T"
  isProcedure := true
  isVarargs := false
  minArgs := 0
  maxArgs := 0
  localNames := #[]
  names := #[]
  code := #[⟨.special, 2, 0⟩]
  literals := #[]
  fileName := ""
  lines := #[]

/-- A process in a call without handlers, at an instruction of it. Of its two callers the inner one has
two handlers and the outer one has one.
-/
def throwing (pc : Nat) (stack : List Value) : Machine where
  world := { World.empty with heap := { Heap.empty with routines := #[throwingRoutine] } }
  process := { Process.new {} 1 "p" with
    state := .running
    stack
    frames := [
      ⟨⟨0⟩, pc, #[], [], false, 3⟩,
      ⟨⟨0⟩, 1, #[.null], [⟨7, 2⟩, ⟨8, 3⟩], true, 1⟩,
      ⟨⟨0⟩, 1, #[], [⟨9, 0⟩], false, 0⟩] }

/-- A text that is thrown in the call is caught by the inner one of the callers. A program counter outside
the code lets the process fail for all the handlers.
-/
theorem throwing_caught_or_fatal
    : Exec.step.run (throwing 0 [.string "no", .integer 3, .integer 2, .integer 1])
        = .error (.fault (.thrown "no")) (throwing 1 [.integer 3, .integer 2, .integer 1])
      ∧ Process.Catches (.thrown "no") (throwing 1 [.integer 3, .integer 2, .integer 1]).process
          (throwing 0 [.string "no", .integer 3, .integer 2, .integer 1]).advance.process
      ∧ (throwing 0 [.string "no", .integer 3, .integer 2, .integer 1]).advance.process.stack
        = [.string "no", .integer 2, .integer 1]
      ∧ (throwing 0 [.string "no", .integer 3, .integer 2, .integer 1]).advance.process.frames
        = [⟨⟨0⟩, 7, #[.null], [⟨8, 3⟩], true, 1⟩, ⟨⟨0⟩, 1, #[], [⟨9, 0⟩], false, 0⟩]
      ∧ Exec.step.run (throwing 2 [.integer 1])
        = .error (.fault (.internal "program counter 2 outside 'T'")) (throwing 2 [.integer 1])
      ∧ (throwing 2 [.integer 1]).advance.process
        = { (throwing 2 [.integer 1]).process with
            failure := some (.internal "program counter 2 outside 'T'")
            state := .failed } := by
  have thrown : Raises (.thrown "no")
      (throwing 0 [.string "no", .integer 3, .integer 2, .integer 1])
      (throwing 1 [.integer 3, .integer 2, .integer 1])
      (throwing 0 [.string "no", .integer 3, .integer 2, .integer 1]).advance :=
    .instruction rfl rfl
  have outside : Raises (.internal "program counter 2 outside 'T'") (throwing 2 [.integer 1])
      (throwing 2 [.integer 1]) (throwing 2 [.integer 1]).advance :=
    .instruction rfl rfl
  have harmless : ¬ (Fault.thrown "no").IsBreach := by simp [Fault.IsBreach]
  have handled : ∃ g ∈ (throwing 1 [.integer 3, .integer 2, .integer 1]).process.frames,
      g.handlers ≠ [] :=
    ⟨⟨⟨0⟩, 1, #[.null], [⟨7, 2⟩, ⟨8, 3⟩], true, 1⟩, .tail _ (.head _), by simp⟩
  have caught := (fault_caught_or_fatal thrown).2.2.2.1 harmless handled
  have fails := (fault_caught_or_fatal outside).2.2.2.2 (.inl ⟨_, .inl rfl⟩)
  exact ⟨rfl, caught.1, rfl, rfl, rfl, fails.1⟩

end Machine
end TaskMachine

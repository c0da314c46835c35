import TaskMachine.Proofs.Process.Runs

/-!
The limits of a process. Its active calls never exceed theirs. Its operand stack is checked
wherever a value is pushed, but not where the text of a fault is put on it: a fault that is caught
on a full stack raises the stack by one above the limit, and nothing else does.
-/

namespace TaskMachine

namespace Process

/-- The process has the limits that are configured and is within them, but for some values too many
on its stack.
-/
structure WithinLimits (config : Config) (excess : Nat) (p : Process) : Prop where
  callDepth : p.maxCallDepth = config.maxCallDepth
  stackSize : p.maxStackSize = config.maxStackSize
  frames : p.frames.length ≤ config.maxCallDepth
  stack : p.stack.length ≤ config.maxStackSize + excess

/-- A handler catches the fault, and the stack is full even as it is cut for the handler. -/
def CatchesFull (p : Process) (fault : Fault) : Prop :=
  fault.isCatchable = true
  ∧ ∃ text rest frames,
      catchFault fault p.stack p.frames = some (text :: rest, frames)
      ∧ p.maxStackSize ≤ rest.length

variable {config : Config} {excess : Nat} {p : Process}

/-- Fewer calls and values are within the limits, too. -/
theorem WithinLimits.of_le (within : p.WithinLimits config excess) {p' : Process} {more : Nat}
    (callDepth : p'.maxCallDepth = p.maxCallDepth) (stackSize : p'.maxStackSize = p.maxStackSize)
    (frames : p'.frames.length ≤ p.frames.length)
    (stack : p'.stack.length ≤ p.maxStackSize + more)
    : p'.WithinLimits config more where
  callDepth := callDepth.trans within.callDepth
  stackSize := stackSize.trans within.stackSize
  frames := Nat.le_trans frames within.frames
  stack := within.stackSize ▸ stack

private theorem WithinLimits.stack_le (within : p.WithinLimits config excess)
    : p.stack.length ≤ p.maxStackSize + excess :=
  within.stackSize.symm ▸ within.stack

/-- A fault leaves the process within its limits, unless it is caught on a full stack: then there is
one value more.
-/
theorem WithinLimits.raise (within : p.WithinLimits config excess) (fault : Fault)
    : (p.raise fault).WithinLimits config excess
      ∨ (p.CatchesFull fault ∧ (p.raise fault).WithinLimits config (excess + 1)) := by
  have values := within.stack_le
  unfold Process.raise
  by_cases catchable : fault.isCatchable = true
  · simp only [catchable, if_true]
    cases caught : catchFault fault p.stack p.frames with
    | none => exact .inl { within with }
    | some result =>
        obtain ⟨stack, frames⟩ := result
        obtain ⟨inner, f, outer, handler, handlers, split, -, -, rfl, rfl⟩ :=
          catchFault_eq_some caught
        have fewer : outer.length + 1 ≤ p.frames.length := by
          rw [split, List.length_append, List.length_cons]
          omega
        have lower := length_cut p.stack handler.stackDepth
        by_cases full : p.maxStackSize ≤ (cut p.stack handler.stackDepth).length
        · refine .inr ⟨⟨catchable, _, _, _, caught, full⟩, within.of_le rfl rfl fewer ?_⟩
          simp only [List.length_cons]
          omega
        · refine .inl (within.of_le rfl rfl fewer ?_)
          simp only [List.length_cons]
          omega
  · simp only [catchable]
    exact .inl { within with }

/-- Without calls and values a process is within any limits. -/
theorem WithinLimits.release (within : p.WithinLimits config excess)
    : p.release.WithinLimits config excess :=
  within.of_le rfl rfl (Nat.zero_le _) (Nat.zero_le _)

/-- A new process is within its limits. -/
theorem withinLimits_new (config : Config) (id : Nat) (name : String) (kind : ProcessKind)
    : ({ Process.new config id name with kind } : Process).WithinLimits config 0 :=
  ⟨rfl, rfl, Nat.zero_le _, Nat.zero_le _⟩

end Process

namespace Machine

variable {config : Config} {excess : Nat} {m m' : Machine}

/-- An elementary change stays within the limits, by the cases of the change. -/
theorem Change.withinLimits (change : Change m m')
    (within : m.process.WithinLimits config excess)
    : m'.process.WithinLimits config excess := by
  have values := within.stack_le
  cases change with
  | world => exact within
  | push v room =>
      refine within.of_le rfl rfl (Nat.le_refl _) ?_
      simp only [withStack, List.length_cons]
      omega
  | drop n present =>
      refine within.of_le rfl rfl (Nat.le_refl _) ?_
      simp only [withStack, List.length_drop]
      omega
  | swap stack above =>
      refine within.of_le rfl rfl (Nat.le_refl _) ?_
      rw [stack] at values
      simpa [withStack] using values
  | assign frames | goto frames | install frames | uninstall frames =>
      refine within.of_le rfl rfl ?_ values
      rw [frames]
      exact Nat.le_refl _
  | enter r locals wantResult room enough => exact { within with frames := within.callDepth ▸ room }

/-- Elementary changes push only where there is room. -/
theorem Changes.withinLimits (changes : Changes m m') (within : m.process.WithinLimits config excess)
    : m'.process.WithinLimits config excess := by
  induction changes with
  | refl => exact within
  | tail _ change ih => exact change.withinLimits ih

/-- Leaving a call stays within the limits: its result is pushed only if there is room. -/
theorem Left.withinLimits {f : Frame} {outer : List Frame} {v : Option Value}
    {result : EStateM.Result Interruption Machine Signal} (left : Exec.Left f outer v m result)
    (frames : m.process.frames = f :: outer) (within : m.process.WithinLimits config excess)
    : (stateOf result).process.WithinLimits config excess := by
  have values := within.stack_le
  have fewer : outer.length ≤ m.process.frames.length := by
    rw [frames]
    exact Nat.le_succ _
  have lower := Process.length_cut m.process.stack f.stackBase
  cases left with
  | outermost =>
      refine within.of_le rfl rfl (Nat.zero_le _) ?_
      dsimp only [stateOf]
      omega
  | dropped | overflowed =>
      refine within.of_le rfl rfl fewer ?_
      dsimp only [stateOf, withFrames, withStack]
      omega
  | handed called wanted room =>
      refine within.of_le rfl rfl fewer ?_
      dsimp only [stateOf, withFrames, withStack]
      rw [List.length_cons]
      omega

/-- A step by itself stays within the limits. -/
theorem withinLimits_step (within : m.process.WithinLimits config excess)
    : (stateOf (Exec.step.run m)).process.WithinLimits config excess := by
  rcases Exec.step_cases m with stays | ⟨v, m₁, finishes⟩
  · exact Changes.withinLimits stays within
  · have before := finishes.changes.withinLimits within
    obtain ⟨f, g, outer, stack, -, rfl⟩ := finishes.shape
    rw [finishes.run_step]
    exact Left.withinLimits (Exec.leave_left rfl v) rfl before

-----------------------------------------------------------------------------------------
-- Climbing above the limit
-----------------------------------------------------------------------------------------

/-- A fault is caught on a full stack: by a step that fails with it, or when running begins with it
pending.
-/
inductive Climb : Machine → Machine → Prop
  | stepped {m m₁ : Machine} {fault : Fault} (running : m.process.state = .running)
    (failed : Exec.step.run m = .error (.fault fault) m₁) (full : m₁.process.CatchesFull fault)
    : Climb m m.advance
  | begun {m : Machine} {fault : Fault} (runnable : m.process.state = .runnable)
    (pending : m.process.pendingFault = some fault) (full : m.process.CatchesFull fault)
    : Climb m { m with process := m.process.begin }

/-- Where a fault is caught on a full stack, the step failed or a fault was pending. -/
theorem Climb.cause (climb : Climb m m')
    : (m.process.state = .running ∧ ∃ fault m₁, Exec.step.run m = .error (.fault fault) m₁)
      ∨ (m.process.state = .runnable ∧ ∃ fault, m.process.pendingFault = some fault) := by
  cases climb with
  | stepped running failed => exact .inl ⟨running, _, _, failed⟩
  | begun runnable pending => exact .inr ⟨runnable, _, pending⟩

/-- Events one after another, among them a number of faults that are caught on a full stack. -/
inductive Climbing : Nat → Machine → Machine → Prop
  | refl {m : Machine} : Climbing 0 m m
  | level {n : Nat} {m m' m'' : Machine} (run : Climbing n m m') (event : Event m' m'')
    (level : ¬ Climb m' m'')
    : Climbing n m m''
  | climb {n : Nat} {m m' m'' : Machine} (run : Climbing n m m') (event : Event m' m'')
    (climb : Climb m' m'')
    : Climbing (n + 1) m m''

/-- One step and what follows from it stay within the limits, or climb by one. -/
theorem withinLimits_advance (within : m.process.WithinLimits config excess)
    (running : m.process.state = .running)
    : m.advance.process.WithinLimits config excess
      ∨ (Climb m m.advance ∧ m.advance.process.WithinLimits config (excess + 1)) := by
  have stepped := withinLimits_step within
  cases outcome : Exec.step.run m with
  | ok signal m₁ =>
      rw [outcome, stateOf_ok] at stepped
      refine .inl ?_
      rw [advance, outcome]
      cases signal with
      | next | suspend | wait => exact { stepped with }
      | terminate | ended => exact { stepped.release with }
  | error interruption m₁ =>
      rw [outcome, stateOf_error] at stepped
      cases interruption with
      | endless =>
          refine .inl ?_
          rw [advance, outcome]
          exact within
      | fault fault =>
          have same : m.advance.process = m₁.process.raise fault := by rw [advance, outcome]
          rcases stepped.raise fault with kept | ⟨full, raised⟩
          · exact .inl (same ▸ kept)
          · exact .inr ⟨.stepped running outcome full, same ▸ raised⟩

/-- Taking up running stays within the limits, or climbs by one. -/
theorem withinLimits_begin (within : m.process.WithinLimits config excess)
    (runnable : m.process.state = .runnable)
    : m.process.begin.WithinLimits config excess
      ∨ (Climb m { m with process := m.process.begin }
        ∧ m.process.begin.WithinLimits config (excess + 1)) := by
  cases pending : m.process.pendingFault with
  | none =>
      refine .inl ?_
      simp only [Process.begin, pending]
      exact { within with }
  | some fault =>
      have same : m.process.begin
          = ({ m.process with state := .running, pendingFault := none } : Process).raise fault := by
        simp only [Process.begin, pending]
      have cleared : ({ m.process with state := .running, pendingFault := none } : Process).WithinLimits
          config excess := { within with }
      rcases cleared.raise fault with kept | ⟨full, raised⟩
      · exact .inl (same ▸ kept)
      · exact .inr ⟨.begun runnable pending full, same ▸ raised⟩

/-- Every event stays within the limits, or climbs by one, by the kinds of events. -/
theorem Event.withinLimits (event : Event m m') (within : m.process.WithinLimits config excess)
    : m'.process.WithinLimits config excess
      ∨ (Climb m m' ∧ m'.process.WithinLimits config (excess + 1)) := by
  cases event with
  | advanced running => exact withinLimits_advance within running
  | begun runnable => exact withinLimits_begin within runnable
  | woken accepted =>
      obtain ⟨-, rfl⟩ := Process.wake_eq_ok.mp accepted
      exact .inl { within with }
  | resumed accepted =>
      obtain ⟨-, ⟨room, rfl⟩ | ⟨-, rfl⟩⟩ := Process.resume_eq_ok.mp accepted
      · refine .inl (within.of_le rfl rfl (Nat.le_refl _) ?_)
        simp only [List.length_cons]
        omega
      · exact .inl { within with }
  | terminated =>
      refine .inl ?_
      unfold Process.terminate
      split
      · exact within
      · exact { within.release with }
  | relabelled | surrounded => exact .inl { within with }
  | started r args => exact .inl ((Exec.stays_start r args m).withinLimits within)
  | entered r args wantResult => exact .inl ((Exec.stays_enter r args wantResult m).withinLimits within)
  | called c args wantResult => exact .inl ((Exec.stays_call c args wantResult m).withinLimits within)
  | pushed v => exact .inl ((Exec.stays_push v m).withinLimits within)

-----------------------------------------------------------------------------------------
-- A loop that catches its own overflow
-----------------------------------------------------------------------------------------

/-- Code that pushes a number in a loop and catches every fault at the beginning of the loop. -/
def pushingLoop : Routine where
  name := "P"
  isProcedure := true
  isVarargs := false
  minArgs := 0
  maxArgs := 0
  localNames := #[]
  names := #[]
  code := #[⟨.jump, 16, 0⟩, ⟨.push, 2, 1⟩, ⟨.jump, 7, 0⟩]
  literals := #[]
  fileName := ""
  lines := #[]

/-- A process in the loop, at an instruction, with given values on its stack and given handlers. -/
def pushing (config : Config) (state : ProcessState) (pc : Nat) (stack : List Value)
    (handlers : List Handler) : Machine where
  world := { World.empty with heap := { Heap.empty with routines := #[pushingLoop] } }
  process := { Process.new config 1 "p" with
    state
    stack
    frames := [{
      routine := ⟨0⟩, pc, locals := #[], handlers, wantResult := false, stackBase := 0 }] }

variable {stack : List Value} {handlers : List Handler}

private theorem step_pushing {pc : Nat} {i : Instruction} (found : pushingLoop.code[pc]? = some i)
    : Exec.step.run (pushing config .running pc stack handlers)
      = (Exec.execute i).run (pushing config .running (pc + 1) stack handlers) := by
  refine (Exec.run_step rfl).trans ?_
  have next : ((pushing config .running pc stack handlers).routineOf
      ⟨⟨0⟩, pc, #[], handlers, false, 0⟩).code[pc]? = some i := found
  rw [next]
  rfl

/-- The loop begins by installing a handler for the stack as high as it is. -/
theorem step_pushing_catch
    : Exec.step.run (pushing config .running 0 stack handlers)
      = .ok .next (pushing config .running 1 stack (⟨0, stack.length⟩ :: handlers)) :=
  (step_pushing rfl).trans rfl

private theorem pushing_catch (config : Config) (stack : List Value) (handlers : List Handler)
    : (pushing config .running 0 stack handlers).advance
      = pushing config .running 1 stack (⟨0, stack.length⟩ :: handlers) := by
  rw [advance, step_pushing_catch]
  rfl

private theorem step_pushing_push
    : Exec.step.run (pushing config .running 1 stack handlers)
      = (do Exec.push (.integer 1); return .next : Exec Signal).run
          (pushing config .running 2 stack handlers) :=
  (step_pushing (i := ⟨.push, 2, 1⟩) rfl).trans rfl

/-- On a full stack the loop does not push. -/
theorem step_pushing_full (full : config.maxStackSize ≤ stack.length)
    : Exec.step.run (pushing config .running 1 stack handlers)
      = .error (.fault (pushing config .running 2 stack handlers).process.overflow)
          (pushing config .running 2 stack handlers) := by
  rcases Exec.push_cases (.integer 1) (pushing config .running 2 stack handlers) with
    ⟨room, -⟩ | ⟨-, failed⟩
  · exact absurd room (Nat.not_lt.mpr full)
  · rw [step_pushing_push, EStateM.run_bind, failed]

/-- The loop catches its overflow, and the text of it comes on top. -/
theorem pushing_full (handlers : List Handler) (full : config.maxStackSize ≤ stack.length)
    : ∃ text,
        (pushing config .running 1 stack (⟨0, stack.length⟩ :: handlers)).advance
          = pushing config .running 0 (text :: stack) handlers := by
  have whole : Process.cut stack stack.length = stack := by simp [Process.cut]
  refine ⟨.string (pushing config .running 2 stack handlers).process.overflow.message, ?_⟩
  rw [advance, step_pushing_full full]
  dsimp only [Process.raise, Process.overflow, Fault.isCatchable, pushing, Process.catchFault, if_true]
  rw [whole]
  rfl

/-- A process that may be in a call at all starts with the loop. -/
theorem start_pushing (called : 0 < config.maxCallDepth)
    : (Exec.start ⟨0⟩ []).run ⟨(pushing config .suspended 0 [] []).world, Process.new config 1 "p"⟩
      = .ok () (pushing config .suspended 0 [] []) := by
  obtain ⟨_ | depth, stackSize, policy, charset⟩ := config
  · cases called
  · rfl

/-- Code that installs a handler with one number on the stack, pushes another one and stops. -/
def pushingTwice : Routine where
  name := "P"
  isProcedure := true
  isVarargs := false
  minArgs := 0
  maxArgs := 0
  localNames := #[]
  names := #[]
  code := #[⟨.push, 2, 1⟩, ⟨.jump, 16, 3⟩, ⟨.push, 2, 1⟩, ⟨.special, 4, 0⟩]
  literals := #[]
  fileName := ""
  lines := #[]

/-- A process whose stack has room for one value stops with two values on it. -/
theorem stopped_above_limit
    : ∃ m p,
        (Exec.start ⟨0⟩ []).run
            ⟨{ World.empty with heap := { Heap.empty with routines := #[pushingTwice] } },
              Process.new { maxStackSize := 1 } 1 "p"⟩ = .ok () m
        ∧ m.process.wake = .ok p
        ∧ (run 4 { m with process := p }).process.state = .suspended
        ∧ (run 4 { m with process := p }).process.stack.length = 2 :=
  ⟨_, _, rfl, rfl, rfl, rfl⟩

-----------------------------------------------------------------------------------------
-- The limits along a history
-----------------------------------------------------------------------------------------

/-- Along any events from a new process on there are at most as many values above the limit of the
stack as faults were caught on a full stack, and never more calls than their limit. By induction on
the events.
-/
theorem limits_of_climbing {n : Nat} {w : World} {id : Nat} {name : String} {kind : ProcessKind}
    (run : Climbing n ⟨w, { Process.new config id name with kind }⟩ m)
    : m.process.frames.length ≤ config.maxCallDepth
      ∧ m.process.stack.length ≤ config.maxStackSize + n := by
  generalize start : (⟨w, { Process.new config id name with kind }⟩ : Machine) = m₀ at run
  suffices within : m.process.WithinLimits config n from ⟨within.frames, within.stack⟩
  induction run with
  | refl => exact start ▸ Process.withinLimits_new config id name kind
  | level _ event level ih =>
      rcases event.withinLimits (ih start) with kept | ⟨climb, -⟩
      · exact kept
      · exact absurd climb level
  | climb _ event _ ih =>
      rcases event.withinLimits (ih start) with kept | ⟨-, climbed⟩
      · exact kept.of_le rfl rfl (Nat.le_refl _) (Nat.le_succ_of_le kept.stack_le)
      · exact climbed

/-- A new process without room on its stack catches its overflow once. -/
theorem climbed_once
    : ∃ m,
        Climbing 1 ⟨(pushing { maxStackSize := 0 } .suspended 0 [] []).world,
            { Process.new { maxStackSize := 0 } 1 "p" with kind := .default }⟩ m
        ∧ m.process.stack.length = 1
        ∧ m.process.frames.length ≤ 1000
        ∧ m.process.stack.length ≤ 0 + 1 := by
  have started
      : Event ⟨(pushing { maxStackSize := 0 } .suspended 0 [] []).world,
            { Process.new { maxStackSize := 0 } 1 "p" with kind := .default }⟩
          (pushing { maxStackSize := 0 } .suspended 0 [] []) := by
    have event := Event.started (m := ⟨(pushing { maxStackSize := 0 } .suspended 0 [] []).world,
      Process.new { maxStackSize := 0 } 1 "p"⟩) ⟨0⟩ []
    rwa [start_pushing (by decide)] at event
  have woken
      : Event (pushing { maxStackSize := 0 } .suspended 0 [] [])
          (pushing { maxStackSize := 0 } .runnable 0 [] []) :=
    .woken (Process.wake_eq_ok.mpr ⟨rfl, rfl⟩)
  have begun
      : Event (pushing { maxStackSize := 0 } .runnable 0 [] [])
          (pushing { maxStackSize := 0 } .running 0 [] []) :=
    .begun rfl
  have caught
      : Event (pushing { maxStackSize := 0 } .running 0 [] [])
          (pushing { maxStackSize := 0 } .running 1 [] [⟨0, 0⟩]) :=
    pushing_catch { maxStackSize := 0 } [] [] ▸ .advanced rfl
  have climb
      : Climb (pushing { maxStackSize := 0 } .running 1 [] [⟨0, 0⟩])
          (pushing { maxStackSize := 0 } .running 1 [] [⟨0, 0⟩]).advance :=
    .stepped rfl (step_pushing_full (Nat.zero_le 0)) ⟨rfl, _, _, _, rfl, Nat.zero_le _⟩
  obtain ⟨text, above⟩
      : ∃ text,
          (pushing { maxStackSize := 0 } .running 1 [] [⟨0, 0⟩]).advance
            = pushing { maxStackSize := 0 } .running 0 [text] [] :=
    pushing_full [] (Nat.zero_le 0)
  have run := ((((Climbing.refl.level started ?unstarted).level woken ?suspended).level begun
    ?runnable).level caught ?running).climb (.advanced rfl) climb
  case unstarted | suspended =>
    intro climb
    rcases climb.cause with ⟨running, -⟩ | ⟨runnable, -⟩
    · cases running
    · cases runnable
  case runnable =>
    intro climb
    rcases climb.cause with ⟨running, -⟩ | ⟨-, fault, pending⟩
    · cases running
    · cases pending
  case running =>
    intro climb
    rcases climb.cause with ⟨-, fault, m₁, failed⟩ | ⟨runnable, -⟩
    · rw [step_pushing_catch] at failed
      cases failed
    · cases runnable
  exact ⟨_, run, congrArg (fun m => m.process.stack.length) above, limits_of_climbing run⟩

end Machine
end TaskMachine

import TaskMachine.Process.Basic

/-!
What requests and faults do to a process, spelled out: which requests it accepts, and whether a
fault is caught or ends it.
-/

namespace TaskMachine

namespace Process

variable {p p' : Process}

/-- A process has something that it waits for just if it is waiting. -/
def Keyed (p : Process) : Prop :=
  p.waitingFor.isSome ↔ p.state = .waiting

/-- What a process waits for is there only while it waits. -/
theorem Keyed.waitingFor_eq (keyed : p.Keyed)
    : (if p.state = .waiting then p.waitingFor else none) = p.waitingFor := by
  split
  · rfl
  · rename_i idle
    exact (Option.not_isSome_iff_eq_none.mp fun some => idle (keyed.mp some)).symm

/-- A process that has not come to its end is in a call. -/
def Underway (p : Process) : Prop :=
  p.frames = [] → p.state.isTerminal = true

theorem Underway.frames_ne_nil (underway : p.Underway) (going : p.state.isTerminal = false)
    : p.frames ≠ [] := by
  intro none
  rw [underway none] at going
  cases going

/-- A process that has not come to its end has no result yet, nor a fault that it failed with. -/
def Undecided (p : Process) : Prop :=
  p.state.isTerminal = false → p.result = none ∧ p.failure = none

theorem length_cut (stack : List Value) (height : Nat)
    : (cut stack height).length = min height stack.length := by
  simp only [cut, List.length_drop]
  omega

/-- Waking is for suspended processes and changes their state only. -/
theorem wake_eq_ok
    : p.wake = .ok p' ↔ p.state = .suspended ∧ p' = { p with state := .runnable } := by
  unfold wake transition
  by_cases suspended : p.state = .suspended
  · simp only [suspended, if_true, true_and, Except.ok.injEq]
    exact eq_comm
  · simp [suspended]

/-- The fault of a stack that is as high as it may be. -/
def overflow (p : Process) : Fault :=
  .stackOverflow s!"operand stack exceeds {p.maxStackSize} values"

/-- Resuming is for waiting processes. They get the value on the stack, or an overflow to be raised
later if the stack is full, and wait no longer.
-/
theorem resume_eq_ok {v : Value}
    : p.resume v = .ok p'
      ↔ p.state = .waiting
        ∧ ((p.stack.length < p.maxStackSize
            ∧ p' = { p with stack := v :: p.stack, waitingFor := none, state := .runnable })
          ∨ (p.maxStackSize ≤ p.stack.length
            ∧ p' = { p with
                pendingFault := some p.overflow, waitingFor := none, state := .runnable })) := by
  unfold resume
  by_cases waiting : p.state = .waiting
  · by_cases full : p.maxStackSize ≤ p.stack.length
    · have pushed : p.push v = .error p.overflow := by simp [push, full, overflow]
      have room : ¬ p.stack.length < p.maxStackSize := by omega
      simp only [waiting, ne_eq, not_true_eq_false, if_false, pushed, transition, if_true, true_and, room,
        full, false_and, false_or, Except.ok.injEq]
      exact eq_comm
    · have pushed : p.push v = .ok { p with stack := v :: p.stack } := by simp [push, full]
      have room : p.stack.length < p.maxStackSize := by omega
      simp only [waiting, ne_eq, not_true_eq_false, if_false, pushed, transition, if_true, true_and, room,
        full, false_and, or_false, Except.ok.injEq]
      exact eq_comm
  · simp [waiting]

/-- A handler that catches a fault is the latest of the innermost call that has any: the calls
further in are left, and the stack is cut to the height of the handler.
-/
theorem catchFault_eq_some {fault : Fault} {stack stack' : List Value}
    {frames frames' : List Frame}
    (caught : catchFault fault stack frames = some (stack', frames'))
    : ∃ inner f outer handler handlers,
        frames = inner ++ f :: outer
        ∧ (∀ g ∈ inner, g.handlers = [])
        ∧ f.handlers = handler :: handlers
        ∧ stack' = .string fault.message :: cut stack handler.stackDepth
        ∧ frames' = { f with pc := handler.target, handlers } :: outer := by
  induction frames with
  | nil => simp [catchFault] at caught
  | cons f outer ih =>
      cases latest : f.handlers with
      | nil =>
          simp only [catchFault, latest] at caught
          obtain ⟨inner, g, rest, handler, handlers, split, none, found, same⟩ := ih caught
          refine ⟨f :: inner, g, rest, handler, handlers, ?_, ?_, found, same⟩
          · rw [split, List.cons_append]
          · intro k member
            rcases List.mem_cons.mp member with rfl | further
            · exact latest
            · exact none k further
      | cons handler handlers =>
          simp only [catchFault, latest, Option.some.injEq, Prod.mk.injEq] at caught
          exact ⟨[], f, outer, handler, handlers, rfl, by simp, latest, caught.1.symm,
            caught.2.symm⟩

/-- A fault is caught by a handler, or ends the process and changes nothing else. -/
theorem raise_cases (p : Process) (fault : Fault)
    : (fault.isCatchable = true
        ∧ ∃ inner f outer handler handlers,
            p.frames = inner ++ f :: outer
            ∧ (∀ g ∈ inner, g.handlers = [])
            ∧ f.handlers = handler :: handlers
            ∧ p.raise fault
              = { p with
                  stack := .string fault.message :: cut p.stack handler.stackDepth
                  frames := { f with pc := handler.target, handlers } :: outer })
      ∨ p.raise fault = { p with failure := some fault, state := .failed } := by
  unfold raise
  by_cases catchable : fault.isCatchable = true
  · simp only [catchable, if_true, true_and]
    cases caught : catchFault fault p.stack p.frames with
    | none => exact .inr (by simp)
    | some result =>
        obtain ⟨stack, frames⟩ := result
        obtain ⟨inner, f, outer, handler, handlers, split, none, latest, rfl, rfl⟩ :=
          catchFault_eq_some caught
        exact .inl ⟨inner, f, outer, handler, handlers, split, none, latest, rfl⟩
  · exact .inr (by simp [catchable])

/-- A fault that is caught decides nothing, and one that is not ends the process. -/
theorem Undecided.raise (undecided : p.Undecided) (fault : Fault) : (p.raise fault).Undecided := by
  rcases p.raise_cases fault with ⟨-, _, _, _, _, _, -, -, -, raised⟩ | raised
  · rw [raised]
    exact undecided
  · rw [raised]
    exact fun going => nomatch going

end Process
end TaskMachine

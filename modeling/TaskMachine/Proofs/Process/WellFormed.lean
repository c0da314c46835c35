import TaskMachine.Proofs.Process.Instructions

/-!
Well-formed processes: every call has its program counter and its handlers inside its code and its
local variables in place, and the bases of the calls lie on the operand stack one above the other.
Running keeps a process well formed, whatever its code is and however a step ends.
-/

namespace TaskMachine

open Machine

/-- A call of a routine is in order on an operand stack of a given height. -/
structure Frame.WellFormed (r : Routine) (height : Nat) (f : Frame) : Prop where
  pc_le : f.pc ≤ r.code.size
  base_le : f.stackBase ≤ height
  numLocals_le : r.numLocals ≤ f.locals.size
  handlers
    : ∀ handler ∈ f.handlers, handler.target ≤ r.code.size ∧ f.stackBase ≤ handler.stackDepth

/-- All calls of a process are in order, and none has its base above that of a call further in. -/
structure Process.WellFormed (h : Heap) (p : Process) : Prop where
  frames : ∀ f ∈ p.frames, f.WellFormed (h.routine f.routine) p.stack.length
  bases : p.frames.Pairwise fun inner outer => outer.stackBase ≤ inner.stackBase

/-- The process of the machine is well formed in its world. -/
def Machine.WellFormed (m : Machine) : Prop :=
  m.process.WellFormed m.world.heap

/-- A call in order stays so on any stack that reaches to its base. -/
theorem Frame.WellFormed.onStack {r : Routine} {height height' : Nat} {f : Frame}
    (formed : f.WellFormed r height) (reaches : f.stackBase ≤ height')
    : f.WellFormed r height' :=
  ⟨formed.pc_le, reaches, formed.numLocals_le, formed.handlers⟩

namespace Process

variable {h : Heap} {p : Process}

/-- A process without calls is well formed. -/
theorem WellFormed.of_no_frames (frames : p.frames = []) : p.WellFormed h := by
  constructor <;> simp [frames]

/-- No call has its base above that of the innermost one. -/
theorem WellFormed.stackBase_le_base (formed : p.WellFormed h) {f : Frame} (member : f ∈ p.frames)
    : f.stackBase ≤ p.base := by
  have bases := formed.bases
  cases frames : p.frames with
  | nil => simp [frames] at member
  | cons g outer =>
      rw [frames] at member bases
      simp only [base, frames]
      rcases List.mem_cons.mp member with rfl | below
      · exact Nat.le_refl _
      · exact (List.pairwise_cons.mp bases).1 f below

/-- The stack reaches to the base of the innermost call. -/
theorem WellFormed.base_le (formed : p.WellFormed h) : p.base ≤ p.stack.length := by
  cases frames : p.frames with
  | nil => simp [base, frames]
  | cons f outer =>
      simp only [base, frames]
      exact (formed.frames f (by simp [frames])).base_le

/-- The same calls are in order on any stack that reaches to the base of the innermost one. -/
theorem WellFormed.withStack (formed : p.WellFormed h) (stack : List Value)
    (reaches : p.base ≤ stack.length)
    : ({ p with stack } : Process).WellFormed h where
  frames f member :=
    (formed.frames f member).onStack
      (Nat.le_trans (formed.stackBase_le_base member) reaches)
  bases := formed.bases

/-- A call that replaces the innermost one may have moved in its code and changed its handlers, as
long as it keeps its routine and its base.
-/
theorem WellFormed.withInnermost {f g : Frame} {outer : List Frame} (formed : p.WellFormed h)
    (frames : p.frames = f :: outer) (base : g.stackBase = f.stackBase)
    (call : g.WellFormed (h.routine g.routine) p.stack.length)
    : ({ p with frames := g :: outer } : Process).WellFormed h := by
  have others := formed.frames
  have bases := formed.bases
  rw [frames] at others bases
  refine ⟨?_, ?_⟩
  · intro k member
    rcases List.mem_cons.mp member with rfl | below
    · exact call
    · exact others k (List.mem_cons_of_mem _ below)
  · rw [List.pairwise_cons] at bases ⊢
    rw [base]
    exact bases

/-- The calls below the innermost one are in order on a stack that reaches to its base. -/
theorem WellFormed.outer {f : Frame} {outer : List Frame} (formed : p.WellFormed h)
    (frames : p.frames = f :: outer) {stack : List Value} (reaches : f.stackBase ≤ stack.length)
    : ({ p with frames := outer, stack } : Process).WellFormed h := by
  have bases := formed.bases
  rw [frames, List.pairwise_cons] at bases
  refine ⟨?_, bases.2⟩
  intro g member
  have call := formed.frames g (by rw [frames]; exact List.mem_cons_of_mem _ member)
  exact call.onStack (Nat.le_trans (bases.1 g member) reaches)

end Process

namespace Machine

variable {m m' : Machine}

/-- An elementary change keeps a process well formed, by the cases of the change. -/
theorem Change.wellFormed (change : Change m m') (formed : m.WellFormed) : m'.WellFormed := by
  cases change with
  | world w evolves =>
      refine ⟨?_, formed.bases⟩
      intro f member
      have call := formed.frames f member
      simp only [Heap.routine, evolves.routines] at call ⊢
      exact call
  | push v room =>
      refine Process.WellFormed.withStack formed _ ?_
      exact Nat.le_succ_of_le formed.base_le
  | drop n present =>
      refine Process.WellFormed.withStack formed _ ?_
      rw [List.length_drop]
      omega
  | @swap upper lower between rest stack above =>
      refine Process.WellFormed.withStack formed _ ?_
      simp only [List.length_append, List.length_cons]
      omega
  | @assign f outer frames index v =>
      have call := formed.frames f (by simp [frames])
      refine Process.WellFormed.withInnermost formed frames rfl ?_
      refine ⟨call.pc_le, call.base_le, ?_, call.handlers⟩
      rw [Array.size_setIfInBounds]
      exact call.numLocals_le
  | @goto f outer pc frames inside =>
      have call := formed.frames f (by simp [frames])
      refine Process.WellFormed.withInnermost formed frames rfl ?_
      exact ⟨inside, call.base_le, call.numLocals_le, call.handlers⟩
  | @install f outer target frames inside =>
      have call := formed.frames f (by simp [frames])
      refine Process.WellFormed.withInnermost formed frames rfl ?_
      refine ⟨call.pc_le, call.base_le, call.numLocals_le, ?_⟩
      intro handler member
      rcases List.mem_cons.mp member with rfl | earlier
      · exact ⟨inside, call.base_le⟩
      · exact call.handlers handler earlier
  | @uninstall f outer handler handlers frames latest =>
      have call := formed.frames f (by simp [frames])
      refine Process.WellFormed.withInnermost formed frames rfl ?_
      refine ⟨call.pc_le, call.base_le, call.numLocals_le, ?_⟩
      intro other member
      exact call.handlers other (by rw [latest]; exact List.mem_cons_of_mem _ member)
  | enter r locals wantResult room enough =>
      refine ⟨?_, List.pairwise_cons.mpr ⟨?_, formed.bases⟩⟩
      · intro f member
        rcases List.mem_cons.mp member with rfl | earlier
        · exact ⟨Nat.zero_le _, Nat.le_refl _, enough, by simp⟩
        · exact formed.frames f earlier
      · intro f member
        exact (formed.frames f member).base_le

/-- Elementary changes keep a process well formed, by induction on their number. -/
theorem Changes.wellFormed (changes : Changes m m') (formed : m.WellFormed) : m'.WellFormed := by
  induction changes with
  | refl => exact formed
  | tail _ change ih => exact change.wellFormed ih

/-- Leaving a call keeps a process well formed: the stack is cut to the base of that call, to which
all calls further out reach.
-/
theorem Left.wellFormed {f : Frame} {outer : List Frame} {v : Option Value}
    {result : EStateM.Result Interruption Machine Signal} (left : Exec.Left f outer v m result)
    (frames : m.process.frames = f :: outer) (formed : m.WellFormed)
    : (stateOf result).WellFormed := by
  have call := formed.frames f (by simp [frames])
  have reaches : f.stackBase ≤ (Process.cut m.process.stack f.stackBase).length := by
    rw [Process.length_cut]
    have := call.base_le
    omega
  cases left with
  | outermost alone => exact .of_no_frames rfl
  | dropped called unwanted => exact Process.WellFormed.outer formed frames reaches
  | handed called wanted room =>
      exact Process.WellFormed.outer formed frames (Nat.le_succ_of_le reaches)
  | overflowed called wanted full => exact Process.WellFormed.outer formed frames reaches

/-- Leaving the innermost call, if there is one, keeps a process well formed. -/
theorem wellFormed_leave (v : Option Value) (formed : m.WellFormed)
    : (stateOf ((Exec.leave v).run m)).WellFormed := by
  cases frames : m.process.frames with
  | nil =>
      have failed : stateOf ((Exec.leave v).run m) = m := by
        simp only [Exec.leave, Exec.process, EStateM.run_bind, EStateM.run_get, EStateM.run_pure,
          frames]
        rfl
      rwa [failed]
  | cons f outer => exact Left.wellFormed (Exec.leave_left frames v) frames formed

/-- Any instruction keeps a process well formed, whether it completes or not. -/
theorem wellFormed_execute (i : Instruction) (formed : m.WellFormed)
    : (stateOf ((Exec.execute i).run m)).WellFormed := by
  rcases Exec.execute_cases i m with stays | ⟨v, m', returns⟩
  · exact stays.wellFormed formed
  · rw [returns.run_execute]
    exact wellFormed_leave v (returns.changes.wellFormed formed)

/-- A step keeps a process well formed, whether it completes or not. -/
theorem wellFormed_step (formed : m.WellFormed) : (stateOf (Exec.step.run m)).WellFormed := by
  rcases Exec.step_cases m with stays | ⟨v, m', finishes⟩
  · exact stays.wellFormed formed
  · rw [finishes.run_step]
    exact wellFormed_leave v (finishes.changes.wellFormed formed)

end Machine

namespace Process

variable {h : Heap} {p : Process}

/-- Raising a fault keeps a process well formed: the handler that catches it lies in the code of its
call and not below the base of that call.
-/
theorem WellFormed.raise (formed : p.WellFormed h) (fault : Fault)
    : (p.raise fault).WellFormed h := by
  rcases p.raise_cases fault with
    ⟨-, inner, f, outer, handler, handlers, split, -, latest, raised⟩ | raised
  · rw [raised]
    have call := formed.frames f (by simp [split])
    have inside := call.handlers handler (by simp [latest])
    have bases := formed.bases
    rw [split] at bases
    have ordered := (List.pairwise_append.mp bases).2.1
    have height : f.stackBase ≤ (cut p.stack handler.stackDepth).length := by
      rw [length_cut]
      have := call.base_le
      omega
    rw [List.pairwise_cons] at ordered
    refine ⟨?_, List.pairwise_cons.mpr ordered⟩
    intro g member
    rcases List.mem_cons.mp member with rfl | below
    · refine ⟨inside.1, Nat.le_succ_of_le height, call.numLocals_le, ?_⟩
      intro other kept
      exact call.handlers other (by rw [latest]; exact List.mem_cons_of_mem _ kept)
    · have outerCall := formed.frames g (by simp [split, below])
      have above := ordered.1 g below
      exact outerCall.onStack (by simp only [List.length_cons]; omega)
  · rw [raised]
    exact ⟨formed.frames, formed.bases⟩

/-- Taking up running keeps a process well formed, also where a pending fault is raised. -/
theorem WellFormed.begin (formed : p.WellFormed h) : p.begin.WellFormed h := by
  have running : ({ p with state := .running } : Process).WellFormed h :=
    ⟨formed.frames, formed.bases⟩
  unfold Process.begin
  dsimp only
  split
  · rename_i fault pending
    refine WellFormed.raise ?_ fault
    exact ⟨running.frames, running.bases⟩
  · exact running

theorem WellFormed.wake {p' : Process} (formed : p.WellFormed h) (woken : p.wake = .ok p')
    : p'.WellFormed h := by
  obtain ⟨-, rfl⟩ := wake_eq_ok.mp woken
  exact ⟨formed.frames, formed.bases⟩

/-- Resuming puts at most one value on the stack. -/
theorem WellFormed.resume {v : Value} {p' : Process} (formed : p.WellFormed h)
    (resumed : p.resume v = .ok p')
    : p'.WellFormed h := by
  obtain ⟨-, ⟨-, rfl⟩ | ⟨-, rfl⟩⟩ := resume_eq_ok.mp resumed
  · have pushed := formed.withStack (v :: p.stack) (Nat.le_succ_of_le formed.base_le)
    exact ⟨pushed.frames, pushed.bases⟩
  · exact ⟨formed.frames, formed.bases⟩

theorem WellFormed.terminate (formed : p.WellFormed h) : p.terminate.WellFormed h := by
  unfold Process.terminate
  split
  · exact formed
  · exact .of_no_frames rfl

end Process

namespace Machine

variable {m : Machine}

/-- Obeying a signal changes no call, or drops them all. -/
theorem WellFormed.obey (formed : m.WellFormed) (signal : Signal) : (m.obey signal).WellFormed := by
  cases signal with
  | next => exact formed
  | suspend | wait key => exact ⟨formed.frames, formed.bases⟩
  | terminate | ended => exact Process.WellFormed.of_no_frames rfl

/-- One step and what follows from it keep a process well formed. -/
theorem WellFormed.advance (formed : m.WellFormed) : m.advance.WellFormed := by
  have stepped := wellFormed_step formed
  unfold Machine.advance
  cases result : Exec.step.run m with
  | ok signal m₁ =>
      rw [result] at stepped
      exact WellFormed.obey stepped signal
  | error interruption m₁ =>
      rw [result] at stepped
      cases interruption with
      | fault f => exact Process.WellFormed.raise stepped f
      | endless => exact formed

end Machine
end TaskMachine

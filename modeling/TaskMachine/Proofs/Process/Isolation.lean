import TaskMachine.Proofs.Process.Events

/-!
A call and everything it calls in turn work above what was there when it was made: the calls further
out and the operand stack below its base stay as they are until the call is left. It is left by
returning, by a fault that a call further out handles, or with the whole process.
-/

namespace TaskMachine

open Machine

-----------------------------------------------------------------------------------------
-- What lies below a call
-----------------------------------------------------------------------------------------

/-- The active calls are a call on top of `outer`, made at a height of the stack, and any number of
calls further in, none of which reaches below that height.
-/
inductive OnTop (outer : List Frame) (height : Nat) (want : Bool) : List Frame → Prop
  | call {f : Frame} (base : f.stackBase = height) (wanted : f.wantResult = want)
    (handlers : ∀ handler ∈ f.handlers, height ≤ handler.stackDepth)
    : OnTop outer height want (f :: outer)
  | further {f : Frame} {frames : List Frame} (base : height ≤ f.stackBase)
    (handlers : ∀ handler ∈ f.handlers, height ≤ handler.stackDepth)
    (below : OnTop outer height want frames)
    : OnTop outer height want (f :: frames)

/-- During a call on top of `outer` that was made when `below` was on the operand stack, the calls
are on top of `outer` and the stack still ends with `below`.
-/
structure Process.During (outer : List Frame) (below : List Value) (want : Bool) (p : Process) : Prop where
  frames : OnTop outer below.length want p.frames
  stack : below <:+ p.stack

namespace OnTop

variable {outer frames : List Frame} {height : Nat} {want : Bool}

theorem split (onTop : OnTop outer height want frames)
    : ∃ inner, inner ≠ [] ∧ frames = inner ++ outer := by
  induction onTop with
  | @call f => exact ⟨[f], by simp, rfl⟩
  | @further f frames _ _ _ ih =>
      obtain ⟨inner, -, rfl⟩ := ih
      exact ⟨f :: inner, by simp, rfl⟩

/-- Calls on top of others are more than these. -/
theorem length_lt (onTop : OnTop outer height want frames) : outer.length < frames.length := by
  obtain ⟨inner, some, rfl⟩ := onTop.split
  have := List.length_pos_iff.mpr some
  rw [List.length_append]
  omega

/-- No handler of a call cuts the stack below where the call began. -/
theorem handlers_above {f : Frame} (onTop : OnTop outer height want (f :: frames))
    : ∀ handler ∈ f.handlers, height ≤ handler.stackDepth := by
  cases onTop with
  | call _ _ handlers | further _ handlers => exact handlers

/-- The innermost call may move in its code, and change its variables and its handlers. -/
theorem replace {f g : Frame} (onTop : OnTop outer height want (f :: frames))
    (base : g.stackBase = f.stackBase) (wanted : g.wantResult = f.wantResult)
    (handlers : ∀ handler ∈ g.handlers, height ≤ handler.stackDepth)
    : OnTop outer height want (g :: frames) := by
  cases onTop with
  | call same sameWant => exact .call (base.trans same) (wanted.trans sameWant) handlers
  | further above _ below => exact .further (base ▸ above) handlers below

/-- A call among those on top of others is itself on top of them, or is one of the others. -/
theorem among {inner rest : List Frame} {f : Frame}
    (onTop : OnTop outer height want (inner ++ f :: rest))
    : OnTop outer height want (f :: rest)
      ∨ ∃ skipped, outer = skipped ++ f :: rest ∧ ∀ g ∈ skipped, g ∈ inner := by
  induction inner with
  | nil => exact .inl onTop
  | cons g inner ih =>
      rw [List.cons_append] at onTop
      cases onTop with
      | call => exact .inr ⟨inner, rfl, fun k member => List.mem_cons_of_mem g member⟩
      | further _ _ below =>
          rcases ih below with here | ⟨skipped, split, members⟩
          · exact .inl here
          · exact .inr ⟨skipped, split, fun k member => List.mem_cons_of_mem g (members k member)⟩

end OnTop

namespace Process

variable {outer : List Frame} {below : List Value} {want : Bool} {p : Process}

/-- Cutting a stack at a height that the bottom part reaches to keeps that part. -/
theorem suffix_cut {stack : List Value} {height : Nat} (suffix : below <:+ stack)
    (reaches : below.length ≤ height)
    : below <:+ cut stack height := by
  obtain ⟨own, rfl⟩ := suffix
  have inside : (own ++ below).length - height ≤ own.length := by
    rw [List.length_append]
    omega
  rw [cut, List.drop_append_of_le_length inside]
  exact List.suffix_append ..

/-- Cutting a stack within its bottom part is cutting that part. -/
theorem cut_of_suffix {stack : List Value} {height : Nat} (suffix : below <:+ stack)
    (within : height ≤ below.length)
    : cut stack height = cut below height := by
  obtain ⟨own, rfl⟩ := suffix
  have amount : (own ++ below).length - height = own.length + (below.length - height) := by
    rw [List.length_append]
    omega
  rw [cut, cut, amount, ← List.drop_drop, List.drop_left]

private theorem cut_length (stack : List Value) : cut stack stack.length = stack := by
  simp [cut]

/-- The base of the innermost call is not below the height at which the call was made. -/
theorem During.le_base (during : p.During outer below want) : below.length ≤ p.base := by
  have onTop := during.frames
  cases frames : p.frames with
  | nil => rw [frames] at onTop; cases onTop
  | cons f rest =>
      simp only [base, frames]
      rw [frames] at onTop
      cases onTop with
      | call same => exact Nat.le_of_eq same.symm
      | further above => exact above

theorem During.length_le (during : p.During outer below want) : below.length ≤ p.stack.length :=
  during.stack.length_le

end Process

-----------------------------------------------------------------------------------------
-- While the call is active
-----------------------------------------------------------------------------------------

namespace Machine

variable {outer : List Frame} {below : List Value} {want : Bool} {m m' : Machine}

/-- An elementary change leaves what is below the call as it is, by the cases of the change. -/
theorem Change.during (change : Change m m') (during : m.process.During outer below want)
    : m'.process.During outer below want := by
  have above := during.le_base
  cases change with
  | world => exact ⟨during.frames, during.stack⟩
  | push v room => exact ⟨during.frames, during.stack.trans (List.suffix_cons ..)⟩
  | drop n present =>
      refine ⟨during.frames, ?_⟩
      obtain ⟨own, stack⟩ := during.stack
      have inside : n ≤ own.length := by
        have := congrArg List.length stack
        rw [List.length_append] at this
        omega
      rw [withStack, ← stack, List.drop_append_of_le_length inside]
      exact List.suffix_append ..
  | @swap upper lower between rest stack reaches =>
      refine ⟨during.frames, ?_⟩
      have under : below <:+ rest :=
        List.suffix_of_suffix_length_le (stack ▸ during.stack)
          ⟨upper :: between ++ [lower], by simp⟩ (by omega)
      exact under.trans ⟨lower :: between ++ [upper], by simp [withStack]⟩
  | @assign f rest frames index v =>
      have onTop := frames ▸ during.frames
      exact ⟨onTop.replace rfl rfl onTop.handlers_above, during.stack⟩
  | @goto f rest pc frames inside =>
      have onTop := frames ▸ during.frames
      exact ⟨onTop.replace rfl rfl onTop.handlers_above, during.stack⟩
  | @install f rest target frames inside =>
      have onTop := frames ▸ during.frames
      refine ⟨onTop.replace rfl rfl ?_, during.stack⟩
      intro handler member
      rcases List.mem_cons.mp member with rfl | earlier
      · exact during.length_le
      · exact onTop.handlers_above handler earlier
  | @uninstall f rest handler handlers frames latest =>
      have onTop := frames ▸ during.frames
      refine ⟨onTop.replace rfl rfl ?_, during.stack⟩
      intro other member
      exact onTop.handlers_above other (by rw [latest]; exact List.mem_cons_of_mem _ member)
  | enter r locals wantResult room enough =>
      exact ⟨.further during.length_le (by simp) during.frames, during.stack⟩

/-- Elementary changes leave what is below the call as it is, by induction on their number. -/
theorem Changes.during (changes : Changes m m') (during : m.process.During outer below want)
    : m'.process.During outer below want := by
  induction changes with
  | refl => exact during
  | tail _ change ih => exact change.during ih

end Machine

-----------------------------------------------------------------------------------------
-- How the call is left
-----------------------------------------------------------------------------------------

/-- What returning from a call on top of `outer` made when `below` was on the stack comes to. The
outermost call ends the process; any other leaves its caller with the stack as it was and the value
on it, if one was wanted. If the stack has no room for that, the caller gets an overflow.
-/
inductive Returned (outer : List Frame) (below : List Value) (want : Bool) (v : Option Value)
    (m : Machine) : Machine → Prop
  | outermost (alone : outer = [])
    : Returned outer below want v m
        { m with process := { m.process.release with state := .ended, result := v } }
  | dropped (called : outer ≠ []) (unwanted : want = false)
    : Returned outer below want v m ((m.withFrames outer).withStack below)
  | handed (called : outer ≠ []) (wanted : want = true)
    (room : below.length < m.process.maxStackSize)
    : Returned outer below want v m ((m.withFrames outer).withStack (v.getD .null :: below))
  | overflowed (called : outer ≠ []) (wanted : want = true)
    (full : m.process.maxStackSize ≤ below.length)
    : Returned outer below want v m
        { m with process :=
          ((m.withFrames outer).withStack below).process.raise m.process.overflow }

/-- A fault is handled outside of the call: the latest handler of the innermost call of `outer` that
has any goes on, with the text of the fault on the stack as it was when that handler was installed.
-/
inductive Caught (outer : List Frame) (below : List Value) (fault : Fault) (p : Process) : Prop
  | by_handler {skipped rest : List Frame} {f : Frame} {handler : Handler} {handlers : List Handler}
    (catchable : fault.isCatchable = true) (split : outer = skipped ++ f :: rest)
    (none : ∀ g ∈ skipped, g.handlers = []) (latest : f.handlers = handler :: handlers)
    (frames : p.frames = { f with pc := handler.target, handlers } :: rest)
    (stack : handler.stackDepth ≤ below.length →
      p.stack = .string fault.message :: Process.cut below handler.stackDepth)

/-- The machine raises the fault next: its step fails with it, or it has been pending. -/
def Machine.Faults (m : Machine) (fault : Fault) : Prop :=
  (∃ m', Exec.step.run m = .error (.fault fault) m') ∨ m.process.pendingFault = some fault

/-- How an event leaves the call on top of `outer` that was made when `below` was on the stack. -/
inductive Exit (outer : List Frame) (below : List Value) (want : Bool) (m m' : Machine) : Prop
  | returned {v : Option Value} {before : Machine} (finishes : Exec.Finishes m v before)
    (innermost : m.process.frames.length = outer.length + 1)
    (returned : Returned outer below want v m m')
  | caught {fault : Fault} (faults : m.Faults fault) (caught : Caught outer below fault m'.process)
  | released (final : m'.process.state.isTerminal = true) (frames : m'.process.frames = [])
    (stack : m'.process.stack = [])

/-- The call is gone once it is left. -/
theorem Exit.length_le {outer : List Frame} {below : List Value} {want : Bool} {m m' : Machine}
    (exit : Exit outer below want m m')
    : m'.process.frames.length ≤ outer.length := by
  have raised (p : Process) (fault : Fault) : (p.raise fault).frames.length ≤ p.frames.length := by
    rcases p.raise_cases fault with ⟨-, inner, f, rest, _, _, split, -, -, raised⟩ | raised
    · rw [raised, split, List.length_append]
      exact Nat.le_add_left ..
    · exact Nat.le_of_eq (by rw [raised])
  cases exit with
  | returned finishes innermost returned =>
      cases returned with
      | outermost => exact Nat.zero_le _
      | dropped | handed => exact Nat.le_refl _
      | overflowed => exact raised ..
  | caught faults caught =>
      obtain ⟨-, split, -, -, frames, -⟩ := caught
      rw [frames, split, List.length_append]
      exact Nat.le_add_left ..
  | released final frames => simp [frames]

namespace Process

variable {outer : List Frame} {below : List Value} {want : Bool} {p : Process}

/-- A fault is handled during the call or outside of it, or ends the process with its calls kept. -/
theorem During.raise (during : p.During outer below want) (fault : Fault)
    : (p.raise fault).During outer below want ∨ Caught outer below fault (p.raise fault) := by
  rcases p.raise_cases fault with
    ⟨catchable, inner, f, rest, handler, handlers, split, none, latest, raised⟩ | raised
  · rw [raised]
    rcases (split ▸ during.frames).among with onTop | ⟨skipped, outside, members⟩
    · have above := onTop.handlers_above
      refine .inl ⟨onTop.replace rfl rfl ?_, ?_⟩
      · intro other kept
        exact above other (by rw [latest]; exact List.mem_cons_of_mem _ kept)
      · have kept := suffix_cut during.stack (above handler (by simp [latest]))
        exact kept.trans (List.suffix_cons ..)
    · refine .inr (.by_handler catchable outside ?_ latest rfl ?_)
      · exact fun g member => none g (members g member)
      · intro within
        rw [cut_of_suffix during.stack within]
  · rw [raised]
    exact .inl ⟨during.frames, during.stack⟩

/-- Going on after a pending fault is handling that fault. -/
theorem During.begin (during : p.During outer below want)
    : p.begin.During outer below want
      ∨ ∃ fault, p.pendingFault = some fault ∧ Caught outer below fault p.begin := by
  unfold Process.begin
  dsimp only
  cases pending : p.pendingFault with
  | none => exact .inl ⟨during.frames, during.stack⟩
  | some fault =>
      have cleared : ({ p with state := .running, pendingFault := none } : Process).During
          outer below want := ⟨during.frames, during.stack⟩
      rcases cleared.raise fault with kept | caught
      · exact .inl kept
      · exact .inr ⟨fault, rfl, caught⟩

end Process

namespace Machine

variable {outer : List Frame} {below : List Value} {want : Bool} {m m' : Machine}

/-- Leaving a call further in keeps what is below the call. -/
theorem during_leave {f : Frame} {rest : List Frame} {v : Option Value}
    {result : EStateM.Result Interruption Machine Signal}
    (left : Exec.Left f rest v m result) (above : below.length ≤ f.stackBase)
    (onTop : OnTop outer below.length want rest) (suffix : below <:+ m.process.stack)
    : (stateOf result).process.During outer below want := by
  have kept := Process.suffix_cut suffix above
  cases left with
  | outermost alone =>
      subst alone
      cases onTop
  | dropped | overflowed => exact ⟨onTop, kept⟩
  | handed => exact ⟨onTop, kept.trans (List.suffix_cons ..)⟩

/-- Leaving the call itself returns from it. -/
theorem returned_leave {f : Frame} {v : Option Value} {m₁ : Machine} {stack : List Value}
    (finishes : Exec.Finishes m v m₁)
    (before : m₁ = (m.withFrames (f :: outer)).withStack stack)
    (base : f.stackBase = below.length) (suffix : below <:+ stack)
    : Returned outer below f.wantResult v m m.advance := by
  have cut : Process.cut stack f.stackBase = below := by
    rw [base, Process.cut_of_suffix suffix (Nat.le_refl _), Process.cut_length]
  have left : Exec.Left f outer v m₁ ((Exec.leave v).run m₁) :=
    Exec.leave_left (by rw [before]; rfl) v
  have same : Process.cut m₁.process.stack f.stackBase = below := by rw [before]; exact cut
  unfold Machine.advance
  rw [finishes.run_step]
  generalize (Exec.leave v).run m₁ = result at left ⊢
  cases left with
  | outermost alone =>
      subst before
      exact .outermost alone
  | dropped called unwanted =>
      rw [unwanted, same]
      subst before
      exact .dropped called rfl
  | handed called wanted room =>
      rw [wanted, same]
      rw [same] at room
      subst before
      exact .handed called rfl room
  | overflowed called wanted full =>
      rw [wanted, same]
      rw [same] at full
      subst before
      exact .overflowed called rfl full

/-- A step of a machine whose call is about to finish returns from the call if it is the innermost
one, and keeps what is below it otherwise.
-/
theorem during_finish {v : Option Value} {m₁ : Machine}
    (during : m.process.During outer below want) (finishes : Exec.Finishes m v m₁)
    : (m.process.frames.length = outer.length + 1 ∧ Returned outer below want v m m.advance)
      ∨ (outer.length + 1 < m.process.frames.length
        ∧ (stateOf (Exec.step.run m)).process.During outer below want) := by
  obtain ⟨f, g, rest, stack, frames, before⟩ := finishes.shape
  have ready := finishes.changes.during during
  have onTop := ready.frames
  have suffix := ready.stack
  rw [before] at onTop suffix
  cases onTop with
  | call base wanted =>
      refine .inl ⟨by rw [frames, List.length_cons], ?_⟩
      rw [← wanted]
      exact returned_leave finishes before base suffix
  | further above handlers onTop =>
      have left : Exec.Left g rest v m₁ ((Exec.leave v).run m₁) :=
        Exec.leave_left (by rw [before]; rfl) v
      refine .inr ⟨?_, ?_⟩
      · have := onTop.length_lt
        rw [frames, List.length_cons]
        omega
      · rw [finishes.run_step]
        exact during_leave left above onTop ready.stack

/-- Obeying a signal changes no call and no value on the stack, or drops them all. -/
theorem during_obey (during : m'.process.During outer below want) (signal : Signal)
    : (m'.obey signal).process.During outer below want
      ∨ Exit outer below want m (m'.obey signal) := by
  cases signal with
  | next => exact .inl during
  | suspend | wait key => exact .inl ⟨during.frames, during.stack⟩
  | terminate | ended => exact .inr (.released rfl rfl rfl)

/-- One step and what follows from it keep what is below the call, or leave the call. -/
theorem during_advance (during : m.process.During outer below want)
    : m.advance.process.During outer below want ∨ Exit outer below want m m.advance := by
  have settle (stepped : (stateOf (Exec.step.run m)).process.During outer below want)
      : m.advance.process.During outer below want ∨ Exit outer below want m m.advance := by
    unfold Machine.advance
    cases outcome : Exec.step.run m with
    | ok signal m₁ =>
        rw [outcome] at stepped
        exact during_obey stepped signal
    | error interruption m₁ =>
        rw [outcome] at stepped
        cases interruption with
        | fault fault =>
            rcases stepped.raise fault with kept | caught
            · exact .inl kept
            · exact .inr (.caught (.inl ⟨m₁, outcome⟩) caught)
        | endless => exact .inl during
  rcases Exec.step_cases m with stays | ⟨v, m₁, finishes⟩
  · exact settle (stays.during during)
  · rcases during_finish during finishes with ⟨innermost, returned⟩ | ⟨-, kept⟩
    · exact .inr (.returned finishes innermost returned)
    · exact settle kept

/-- Whatever happens to a process keeps what is below the call, or leaves the call, by the cases of
the event.
-/
theorem Event.during (event : Event m m') (during : m.process.During outer below want)
    : m'.process.During outer below want ∨ Exit outer below want m m' := by
  cases event with
  | advanced => exact during_advance during
  | begun =>
      rcases during.begin with kept | ⟨fault, pending, caught⟩
      · exact .inl kept
      · exact .inr (.caught (.inr pending) caught)
  | woken accepted =>
      obtain ⟨-, rfl⟩ := Process.wake_eq_ok.mp accepted
      exact .inl ⟨during.frames, during.stack⟩
  | resumed accepted =>
      obtain ⟨-, ⟨-, rfl⟩ | ⟨-, rfl⟩⟩ := Process.resume_eq_ok.mp accepted
      · exact .inl ⟨during.frames, during.stack.trans (List.suffix_cons ..)⟩
      · exact .inl ⟨during.frames, during.stack⟩
  | terminated =>
      unfold Process.terminate
      split
      · exact .inl during
      · exact .inr (.released rfl rfl rfl)
  | relabelled | surrounded => exact .inl ⟨during.frames, during.stack⟩
  | started r args => exact .inl ((Exec.stays_start r args m).during during)
  | entered r args wantResult => exact .inl ((Exec.stays_enter r args wantResult m).during during)
  | called c args wantResult => exact .inl ((Exec.stays_call c args wantResult m).during during)
  | pushed v => exact .inl ((Exec.stays_push v m).during during)

/-- The process has a call on top of `outer` in every state on the way. -/
def Path (outer : List Frame) : Machine → Machine → Prop :=
  Relation.ReflTransGen fun m m' => Event m m' ∧ outer.length < m'.process.frames.length

/-- A call that is not left on the way keeps what is below it, by induction on the number of events:
each keeps it or leaves the call.
-/
theorem Path.during (path : Path outer m m') (during : m.process.During outer below want)
    : m'.process.During outer below want := by
  induction path with
  | refl => exact during
  | tail _ next ih =>
      obtain ⟨event, active⟩ := next
      rcases event.during ih with kept | exit
      · exact kept
      · exact absurd active (Nat.not_lt.mpr exit.length_le)

end Machine

/-- Entering a routine begins a call on top of the active ones, with the stack as it is. -/
theorem Exec.enter_eq_ok {r : RoutineId} {args : List Value} {wantResult : Bool} {m m' : Machine}
    (entered : (enter r args wantResult).run m = .ok () m')
    : ∃ f,
        m'.process = { m.process with frames := f :: m.process.frames }
        ∧ f.routine = r ∧ f.pc = 0 ∧ f.handlers = [] ∧ f.wantResult = wantResult
        ∧ f.stackBase = m.process.stack.length := by
  obtain ⟨p, m₁, found, entered⟩ := run_bind_eq_ok.mp entered
  cases found
  dsimp only at entered
  split at entered
  · obtain ⟨_, _, failed, -⟩ := run_bind_eq_ok.mp entered
    cases failed
  obtain ⟨h, m₁, found, entered⟩ := run_bind_eq_ok.mp entered
  cases found
  split at entered
  · obtain ⟨_, _, failed, -⟩ := run_bind_eq_ok.mp entered
    cases failed
  split at entered
  · obtain ⟨_, m₂, done, entered⟩ := run_bind_eq_ok.mp entered
    cases done
    obtain ⟨surplus, m₃, done, entered⟩ := run_bind_eq_ok.mp entered
    cases done
    cases entered
    exact ⟨_, rfl, rfl, rfl, rfl, rfl, rfl⟩
  · obtain ⟨surplus, m₂, done, entered⟩ := run_bind_eq_ok.mp entered
    cases done
    cases entered
    exact ⟨_, rfl, rfl, rfl, rfl, rfl, rfl⟩

-----------------------------------------------------------------------------------------
-- Calls are isolated and balanced
-----------------------------------------------------------------------------------------

/-- As long as a call is active, whatever happens to the process, the calls below it and the stack
below its base are what they were when it was entered. When it returns, its caller finds both as
they were, with exactly one value more if it wanted a result, or with an overflow if there is no room
for that; the outermost call ends the process with the value as its result. And the call is left in
no other way than by returning, by a fault that one of the calls below handles with its calls and its
part of the stack as they were, or with the whole process.
-/
theorem call_isolated {r : RoutineId} {args : List Value} {wantResult : Bool}
    {m entered now : Machine}
    (enter : (Exec.enter r args wantResult).run m = .ok () entered)
    (path : Path m.process.frames entered now)
    : ((∃ inner, inner ≠ [] ∧ now.process.frames = inner ++ m.process.frames)
        ∧ m.process.stack <:+ now.process.stack)
      ∧ (∀ v before,
          Exec.Finishes now v before
          → now.process.frames.length = m.process.frames.length + 1
          → Returned m.process.frames m.process.stack wantResult v now now.advance)
      ∧ (∀ later,
          Event now later
          → later.process.frames.length ≤ m.process.frames.length
          → Exit m.process.frames m.process.stack wantResult now later) := by
  obtain ⟨f, began, -, -, none, wanted, base⟩ := Exec.enter_eq_ok enter
  have start : entered.process.During m.process.frames m.process.stack wantResult := by
    rw [began]
    exact ⟨.call base wanted (by simp [none]), List.suffix_refl _⟩
  have during := path.during start
  refine ⟨⟨during.frames.split, during.stack⟩, ?_, ?_⟩
  · intro v before finishes innermost
    rcases during_finish during finishes with ⟨-, returned⟩ | ⟨further, -⟩
    · exact returned
    · omega
  · intro later event gone
    rcases event.during during with kept | exit
    · exact absurd kept.frames.length_lt (Nat.not_lt.mpr gone)
    · exact exit

/-- A new process in an empty world, where a routine of that number has no code. -/
def Machine.fresh : Machine :=
  ⟨.empty, .new {} 0 "p"⟩

/-- The same process in a call without a caller that is to give a result. -/
def Machine.freshCall : Machine :=
  stateOf ((Exec.enter ⟨0⟩ [] true).run fresh)

/-- A call in that call. -/
def Machine.nestedCall : Machine :=
  stateOf ((Exec.enter ⟨0⟩ [] true).run freshCall)

theorem nestedCall_isolated
    : freshCall.process.stack <:+ nestedCall.process.stack
      ∧ Returned freshCall.process.frames freshCall.process.stack true none nestedCall
          nestedCall.advance := by
  have enter : (Exec.enter ⟨0⟩ [] true).run freshCall = .ok () nestedCall := rfl
  have isolated := call_isolated enter .refl
  exact ⟨isolated.1.2, isolated.2.1 none nestedCall (.atEnd rfl rfl) rfl⟩

/-- A call without a caller hands nothing over, even if a result is wanted: it ends the process. -/
theorem outermost_call_hands_nothing
    : ¬ ∀ (r : RoutineId) (args : List Value) (m entered : Machine) (v : Option Value)
          (before : Machine),
        (Exec.enter r args true).run m = .ok () entered
        → Exec.Finishes entered v before
        → m.process.stack.length < m.process.maxStackSize
        → ∃ w, entered.advance.process.stack = w :: m.process.stack := by
  intro handed
  have finishes : Exec.Finishes freshCall none freshCall := .atEnd rfl rfl
  obtain ⟨w, stack⟩ := handed ⟨0⟩ [] fresh freshCall none freshCall rfl finishes (by decide)
  cases stack

end TaskMachine

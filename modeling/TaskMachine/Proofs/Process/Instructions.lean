import TaskMachine.Proofs.Computation
import TaskMachine.Proofs.Heap.Copies
import TaskMachine.Proofs.Process.Changes
import TaskMachine.Proofs.Process.Life

/-!
Every instruction but the one that leaves a call makes elementary changes only, also where it fails.
So a step is one of four things: the outermost call is missing, the innermost call goes on, it is
left after some changes, or its program counter is outside its code.
-/

namespace TaskMachine

open Machine

namespace Exec

variable {α β : Type} {m m' : Machine}

-----------------------------------------------------------------------------------------
-- Work that only looks
-----------------------------------------------------------------------------------------

/-- The work leaves every machine as it is, whether it completes or not. -/
def Reads (x : Exec α) : Prop :=
  ∀ m, stateOf (x.run m) = m

/-- Looking that completes has left the machine as it was. -/
theorem Reads.same {x : Exec α} (reads : Reads x) {a : α} (done : x.run m = .ok a m')
    : m' = m := by
  have kept := reads m
  rwa [done] at kept

theorem Reads.pure (a : α) : Reads (pure a : Exec α) :=
  fun _ => rfl

theorem Reads.throw (e : Interruption) : Reads (throw e : Exec α) :=
  fun _ => rfl

theorem Reads.raise (f : Fault) : Reads (raise f : Exec α) :=
  .throw _

/-- Looking twice is looking, by the outcome of the first look. -/
theorem Reads.bind {x : Exec α} {f : α → Exec β} (first : Reads x) (next : ∀ a, Reads (f a))
    : Reads (x >>= f) := by
  intro m
  rw [EStateM.run_bind]
  cases done : x.run m with
  | ok a m₁ =>
      rw [first.same done]
      exact next a m
  | error e m₁ =>
      have kept := first m
      rwa [done] at kept

theorem Reads.lift (result : Except Fault α) : Reads (Exec.lift result) := by
  cases result with
  | ok a => exact .pure a
  | error f => exact .raise f

theorem Reads.process : Reads Exec.process :=
  fun _ => rfl

theorem Reads.world : Reads Exec.world :=
  fun _ => rfl

theorem Reads.heap : Reads Exec.heap :=
  fun _ => rfl

theorem Reads.frame : Reads Exec.frame := by
  refine .bind .process fun p => ?_
  split
  · exact .pure _
  · exact .raise _

theorem Reads.peek (depth : Nat) : Reads (Exec.peek depth) := by
  refine .bind .process fun p => ?_
  split
  · split
    · exact .pure _
    · exact .raise _
  · exact .raise _

theorem Reads.known (i : Instruction) (a : Option α) : Reads (Exec.known i a) := by
  cases a with
  | none => exact .raise _
  | some a => exact .pure a

theorem Reads.currentRoutine : Reads Exec.currentRoutine :=
  .bind .heap fun _ => .bind .frame fun _ => .pure _

theorem Reads.nameAt (index : Nat) : Reads (Exec.nameAt index) := by
  refine .bind .currentRoutine fun r => ?_
  split
  · exact .pure _
  · exact .raise _

theorem Reads.literalAt (index : Nat) : Reads (Exec.literalAt index) := by
  refine .bind .currentRoutine fun r => ?_
  split
  · exact .pure _
  · exact .raise _

theorem Reads.localAt (index : Nat) : Reads (Exec.localAt index) := by
  refine .bind .frame fun f => ?_
  split
  · exact .pure _
  · exact .raise _

theorem Reads.global (name : String) : Reads (Exec.global name) := by
  refine .bind .world fun w => ?_
  split
  · exact .pure _
  · exact .raise _

theorem Reads.isTaken (i : Instruction) : Reads (Exec.isTaken i) := by
  simp only [Exec.isTaken]
  split
  · exact .pure _
  · exact .bind (.peek 0) fun _ => .pure _

theorem Reads.dimension (v : Value) : Reads (Exec.dimension v) := by
  refine .bind (.lift _) fun n => ?_
  dsimp only
  split
  · exact .bind (.raise _) fun _ => .pure _
  · exact .pure _

/-- Looking at each of some values is looking, by induction on the values. -/
theorem Reads.mapM {f : α → Exec β} (each : ∀ a, Reads (f a)) (values : List α)
    : Reads (values.mapM f) := by
  induction values with
  | nil => exact .pure _
  | cons a rest ih =>
      rw [List.mapM_cons]
      exact .bind (each a) fun _ => .bind ih fun _ => .pure _

theorem lift_eq_ok {result : Except Fault α} {a : α} (done : (Exec.lift result).run m = .ok a m')
    : result = .ok a := by
  cases result with
  | ok b =>
      cases done
      rfl
  | error f => cases done

/-- The innermost call that was found heads the active calls. -/
theorem frame_eq_ok {f : Frame} (done : Exec.frame.run m = .ok f m')
    : m' = m ∧ ∃ outer, m.process.frames = f :: outer := by
  refine ⟨Reads.frame.same done, ?_⟩
  simp only [Exec.frame, Exec.process, EStateM.run_bind, EStateM.run_get, EStateM.run_pure] at done
  cases frames : m.process.frames with
  | nil =>
      rw [frames] at done
      cases done
  | cons g outer =>
      rw [frames] at done
      cases done
      exact ⟨outer, rfl⟩

theorem known_eq_ok {i : Instruction} {meaning : Option α} {a : α}
    (done : (Exec.known i meaning).run m = .ok a m')
    : meaning = some a := by
  cases meaning with
  | none => cases done
  | some b =>
      cases done
      rfl

/-- The routine that was found is that of the innermost call. -/
theorem currentRoutine_eq_ok {r : Routine} (done : Exec.currentRoutine.run m = .ok r m')
    : ∃ f outer, m.process.frames = f :: outer ∧ m.routineOf f = r := by
  obtain ⟨h, m₁, found, rest⟩ := run_bind_eq_ok.mp done
  cases found
  obtain ⟨f, m₂, found, same⟩ := run_bind_eq_ok.mp rest
  obtain ⟨-, outer, frames⟩ := frame_eq_ok found
  cases same
  exact ⟨f, outer, frames, rfl⟩

/-- A name that was found is in the table of the innermost call's routine. -/
theorem nameAt_eq_ok {index : Nat} {name : String} (done : (Exec.nameAt index).run m = .ok name m')
    : ∃ f outer, m.process.frames = f :: outer ∧ (m.routineOf f).names[index]? = some name := by
  obtain ⟨r, m₁, found, rest⟩ := run_bind_eq_ok.mp done
  obtain ⟨f, outer, frames, rfl⟩ := currentRoutine_eq_ok found
  split at rest
  · rename_i entry
    cases rest
    exact ⟨f, outer, frames, entry⟩
  · cases rest

theorem literalAt_eq_ok {index : Nat} {v : Value} (done : (Exec.literalAt index).run m = .ok v m')
    : ∃ f outer, m.process.frames = f :: outer ∧ (m.routineOf f).literals[index]? = some v := by
  obtain ⟨r, m₁, found, rest⟩ := run_bind_eq_ok.mp done
  obtain ⟨f, outer, frames, rfl⟩ := currentRoutine_eq_ok found
  split at rest
  · rename_i entry
    cases rest
    exact ⟨f, outer, frames, entry⟩
  · cases rest

theorem localAt_eq_ok {index : Nat} {v : Value} (done : (Exec.localAt index).run m = .ok v m')
    : ∃ f outer, m.process.frames = f :: outer ∧ f.locals[index]? = some v := by
  obtain ⟨f, m₁, found, rest⟩ := run_bind_eq_ok.mp done
  obtain ⟨-, outer, frames⟩ := frame_eq_ok found
  split at rest
  · rename_i entry
    cases rest
    exact ⟨f, outer, frames, entry⟩
  · cases rest

theorem global_eq_ok {name : String} {v : Value} (done : (Exec.global name).run m = .ok v m')
    : m.world.get? name = some v := by
  obtain ⟨w, m₁, found, rest⟩ := run_bind_eq_ok.mp done
  cases found
  split at rest
  · rename_i known
    cases rest
    exact known
  · cases rest

/-- A value that was found on the operand stack is there, above the base of the innermost call. -/
theorem peek_eq_ok {depth : Nat} {v : Value} (done : (Exec.peek depth).run m = .ok v m')
    : m' = m ∧ m.process.stack[depth]? = some v
      ∧ m.process.base + depth < m.process.stack.length := by
  refine ⟨(Reads.peek depth).same done, ?_⟩
  simp only [Exec.peek, Exec.process, EStateM.run_bind, EStateM.run_get, EStateM.run_pure] at done
  cases found : m.process.stack[depth]? with
  | none =>
      rw [found] at done
      cases done
  | some w =>
      rw [found] at done
      by_cases above : m.process.base + depth < m.process.stack.length
      · simp only [above, if_true] at done
        cases done
        exact ⟨rfl, above⟩
      · simp only [above, if_false] at done
        cases done

-----------------------------------------------------------------------------------------
-- Work that makes elementary changes
-----------------------------------------------------------------------------------------

/-- From `m` on, the work makes elementary changes only, whether it completes or not. -/
def Stays (m : Machine) (x : Exec α) : Prop :=
  Changes m (stateOf (x.run m))

/-- Work that only reads makes no change. -/
theorem Reads.stays {x : Exec α} (reads : Reads x) (m : Machine) : Stays m x := by
  rw [Stays, reads m]

/-- Changes follow changes, by the outcome of the first part. -/
theorem Stays.bind {x : Exec α} {f : α → Exec β} (first : Stays m x)
    (next : ∀ a m', x.run m = .ok a m' → Stays m' (f a))
    : Stays m (x >>= f) := by
  rw [Stays, EStateM.run_bind]
  rw [Stays] at first
  cases done : x.run m with
  | ok a m₁ =>
      rw [done] at first
      exact first.trans (next a m₁ done)
  | error e m₁ => rwa [done] at first

/-- After a look, the rest of the work starts from the same machine. -/
theorem Stays.after {x : Exec α} {f : α → Exec β} (reads : Reads x)
    (next : ∀ a, x.run m = .ok a m → Stays m (f a))
    : Stays m (x >>= f) := by
  refine .bind (reads.stays m) fun a m' done => ?_
  have same := reads.same done
  subst same
  exact next a done

/-- Work whose result does not matter does the same. -/
theorem Stays.discard {x : Exec α} (stays : Stays m x) : Stays m (discard x) := by
  rwa [Stays, stateOf_run_discard]

theorem stays_setHeap {h : Heap} (evolves : m.world.heap.Evolves h) : Stays m (setHeap h) :=
  .single (.world _ evolves)

/-- The heap of the world may evolve. -/
theorem stays_setWorld {w : World} (evolves : m.world.heap.Evolves w.heap)
    : Stays m (setWorld w) :=
  .single (.world _ evolves)

/-- Pushing puts the value on a stack with room, or leaves the machine as it is. -/
theorem push_cases (v : Value) (m : Machine)
    : (m.process.stack.length < m.process.maxStackSize
        ∧ (push v).run m = .ok () (m.withStack (v :: m.process.stack)))
      ∨ (m.process.maxStackSize ≤ m.process.stack.length
        ∧ (push v).run m = .error (.fault m.process.overflow) m) := by
  by_cases full : m.process.maxStackSize ≤ m.process.stack.length
  · refine .inr ⟨full, ?_⟩
    simp [push, Process.push, full, process, Exec.lift, Exec.raise, Process.overflow, run_throw]
  · refine .inl ⟨by omega, ?_⟩
    simp [push, Process.push, full, process, Exec.lift, setProcess, withStack]

theorem stays_push (v : Value) (m : Machine) : Stays m (push v) := by
  rw [Stays]
  rcases push_cases v m with ⟨room, done⟩ | ⟨_, done⟩
  · rw [done]
    exact .single (.push v room)
  · rw [done, stateOf_error]

/-- Popping takes the top value off a stack that reaches above the base of the innermost call. -/
theorem pop_eq_ok {v : Value} (done : pop.run m = .ok v m')
    : ∃ rest, m.process.stack = v :: rest ∧ m.process.base ≤ rest.length ∧ m' = m.withStack rest := by
  simp only [pop, process, EStateM.run_bind, EStateM.run_get, EStateM.run_pure] at done
  cases stack : m.process.stack with
  | nil =>
      rw [stack] at done
      cases done
  | cons w rest =>
      rw [stack] at done
      by_cases above : m.process.base < (w :: rest).length
      · simp only [above, if_true] at done
        cases done
        refine ⟨rest, rfl, ?_, rfl⟩
        simp only [List.length_cons] at above
        omega
      · simp only [above, if_false] at done
        cases done

/-- A failed `pop` has taken nothing. -/
theorem pop_eq_error {e : Interruption} (failed : pop.run m = .error e m') : m' = m := by
  simp only [pop, process, EStateM.run_bind, EStateM.run_get, EStateM.run_pure] at failed
  cases stack : m.process.stack with
  | nil =>
      rw [stack] at failed
      cases failed
      rfl
  | cons w rest =>
      rw [stack] at failed
      by_cases above : m.process.base < (w :: rest).length
      · simp only [above, if_true] at failed
        cases failed
      · simp only [above, if_false] at failed
        cases failed
        rfl

private theorem stays_pop (m : Machine) : Stays m pop := by
  rw [Stays]
  cases done : pop.run m with
  | ok v m₁ =>
      obtain ⟨rest, stack, above, rfl⟩ := pop_eq_ok done
      have dropped : rest = m.process.stack.drop 1 := by rw [stack]; rfl
      rw [stateOf_ok, dropped]
      refine .single (.drop 1 ?_)
      rw [stack, List.length_cons]
      omega
  | error e m₁ =>
      rw [stateOf_error, pop_eq_error done]

/-- Popping several values splits them off a stack that has as many above the base of the innermost
call; otherwise the machine stays as it is.
-/
theorem popMany_cases (count : Nat) (m : Machine)
    : (m.process.base + count ≤ m.process.stack.length
        ∧ (popMany count).run m
          = .ok (m.process.stack.take count).reverse (m.withStack (m.process.stack.drop count)))
      ∨ (m.process.stack.length < m.process.base + count
        ∧ ∃ f, (popMany count).run m = .error (.fault f) m) := by
  by_cases present : m.process.base + count ≤ m.process.stack.length
  · refine .inl ⟨present, ?_⟩
    simp only [popMany, process, EStateM.run_bind, EStateM.run_get, EStateM.run_pure, present,
      if_true]
    rfl
  · refine .inr ⟨by omega, .internal s!"operand stack underflow (need {count})", ?_⟩
    simp only [popMany, process, EStateM.run_bind, EStateM.run_get, EStateM.run_pure, present,
      if_false]
    rfl

/-- The values come off the stack as one piece, lowest first. -/
theorem popMany_eq_ok {count : Nat} {values : List Value}
    (done : (popMany count).run m = .ok values m')
    : values = (m.process.stack.take count).reverse
      ∧ m' = m.withStack (m.process.stack.drop count) := by
  rcases popMany_cases count m with ⟨-, popped⟩ | ⟨-, f, failed⟩
  · rw [popped] at done
    cases done
    exact ⟨rfl, rfl⟩
  · rw [failed] at done
    cases done

private theorem stays_popMany (count : Nat) (m : Machine) : Stays m (popMany count) := by
  rw [Stays]
  rcases popMany_cases count m with ⟨present, done⟩ | ⟨_, _, done⟩
  · rw [done]
    exact .single (.drop count present)
  · rw [done, stateOf_error]

/-- Replacing the innermost call that was found puts the new one on top of the outer ones. -/
theorem run_setFrame {f g : Frame} {outer : List Frame} (frames : m.process.frames = f :: outer)
    : (setFrame g).run m = .ok () (m.withFrames (g :: outer)) := by
  simp [setFrame, process, setProcess, withFrames, frames]

private theorem stays_setLocal (index : Nat) (v : Value) (m : Machine) : Stays m (setLocal index v) := by
  refine .after .frame fun f found => ?_
  obtain ⟨-, outer, frames⟩ := frame_eq_ok found
  split
  · rw [Stays, run_setFrame frames]
    exact .single (.assign frames index v)
  · exact (Reads.raise _).stays m

private theorem stays_setGlobal (name : String) (v : Value) (m : Machine)
    : Stays m (setGlobal name v) := by
  refine .after .world fun w found => ?_
  cases found
  cases done : m.world.set name v with
  | some w => exact stays_setWorld (World.evolves_set done)
  | none => exact (Reads.throw .endless).stays m

/-- The locals of a call are at least as many as its routine declares. -/
theorem numLocals_le_localsFor (r : Routine) (args : List Value) (surplus : Option Value)
    : r.numLocals ≤ (localsFor r args surplus).size := by
  simp only [localsFor, List.size_toArray, List.length_append, List.length_replicate]
  omega

/-- Entering a routine adds its call on top of the active ones, perhaps after an array for surplus
arguments; the depth of calls and the number of arguments are checked first.
-/
theorem stays_enter (r : RoutineId) (args : List Value) (wantResult : Bool) (m : Machine)
    : Stays m (enter r args wantResult) := by
  refine .after .process fun p found => ?_
  cases found
  dsimp only
  split
  · exact .after (.raise _) fun _ failed => by cases failed
  rename_i room
  refine .after .heap fun h found => ?_
  cases found
  split
  · exact .after (.raise _) fun _ failed => by cases failed
  have entered (w : World) (routines : w.heap.routines = m.world.heap.routines)
      (surplus : Option Value)
      : Stays { m with world := w }
          (setProcess
            { m.process with
              frames :=
                { routine := r, pc := 0,
                  locals := localsFor (m.world.heap.routine r) args surplus, handlers := [],
                  wantResult, stackBase := m.process.stack.length } :: m.process.frames }) := by
    refine .single (.enter (m := { m with world := w }) r _ wantResult (by simpa using room) ?_)
    have same : w.heap.routine r = m.world.heap.routine r := by
      simp only [Heap.routine, routines]
    rw [same]
    exact numLocals_le_localsFor ..
  split
  · have row := m.world.heap.evolves_addArray
      (Grid.sound_row (args.drop (m.world.heap.routine r).maxArgs))
    refine .bind (stays_setHeap row) fun _ m₁ done => ?_
    cases done
    exact .after (.pure _) fun surplus _ => entered _ (by rfl) surplus
  · exact .after (.pure none) fun surplus _ => entered m.world rfl surplus

private theorem stays_accept (reply : HostReply) (wantResult : Bool) (m : Machine)
    : Stays m (accept reply wantResult) := by
  refine .after .world fun w found => ?_
  cases found
  refine .bind (stays_setWorld (.refl _)) fun _ m₁ _ => ?_
  refine .after (.lift _) fun v _ => ?_
  split
  · exact stays_push v m₁
  · exact (Reads.pure ()).stays m₁

private theorem stays_callCallee (args : List Value) (wantResult : Bool) (callee : Callee) (m : Machine)
    : Stays m (callCallee args wantResult callee) := by
  cases callee with
  | subroutine r =>
      refine .after .heap fun h _ => ?_
      dsimp only
      split
      · exact .after (.raise _) fun _ failed => by cases failed
      · exact stays_enter ..
  | native f =>
      simp only [callCallee]
      split
      · exact .after (.raise _) fun _ failed => by cases failed
      split
      · exact .after (.raise _) fun _ failed => by cases failed
      · exact .after .heap fun _ _ => stays_accept ..
  | hosted c => exact .after .heap fun _ _ => stays_accept ..

theorem stays_call (c : CallableId) (args : List Value) (wantResult : Bool) (m : Machine)
    : Stays m (call c args wantResult) :=
  .after .heap fun _ _ => stays_callCallee ..

/-- Making a closure adds copies and a callable, also where binding fails half way. -/
theorem stays_makeClosure (base : CallableId) (values : List Value) (m : Machine)
    : Stays m (makeClosure base values) := by
  refine .after .heap fun h found => ?_
  cases found
  have evolves := Closure.evolves_bindLast values values.length (m.world.heap, ⟨base, []⟩)
  cases done : (Closure.bindLast values values.length).run (m.world.heap, ⟨base, []⟩) with
  | ok u s =>
      rw [done] at evolves
      have made : s.1.Evolves (s.2.toValue s.1).1 := .of_arrays rfl rfl
      exact .bind (stays_setHeap (evolves.trans made)) fun _ m₁ _ => (Reads.pure _).stays m₁
  | error e s =>
      rw [done] at evolves
      refine .bind (stays_setHeap evolves) fun _ m₁ _ => ?_
      exact (Reads.throw e).stays m₁

-----------------------------------------------------------------------------------------
-- The families of instructions
-----------------------------------------------------------------------------------------

private theorem stays_pushFrom (i : Instruction) (m : Machine) : Stays m (pushFrom i) := by
  refine .after (.known i _) fun scope _ => ?_
  cases scope with
  | localSlot => exact .after (.localAt _) fun v _ => stays_push v m
  | literal => exact .after (.literalAt _) fun v _ => stays_push v m
  | integer | boolean => exact .after (.pure _) fun v _ => stays_push v m
  | named =>
      refine .after (.nameAt _) fun name _ => ?_
      exact .after (.global name) fun v _ => stays_push v m

private theorem stays_assign (i : Instruction) (v : Value) (m : Machine) : Stays m (assign i v) := by
  refine .after (.known i _) fun scope _ => ?_
  cases scope with
  | localSlot => exact stays_setLocal ..
  | named => exact .after (.nameAt _) fun name _ => stays_setGlobal ..
  | literal | integer | boolean => exact (Reads.raise _).stays m

private theorem stays_binary (i : Instruction) (m : Machine) : Stays m (binary i) := by
  refine .after (.known i _) fun op _ => ?_
  refine .bind (stays_pop m) fun b m₁ _ => ?_
  refine .bind (stays_pop m₁) fun a m₂ _ => ?_
  exact .after .heap fun h _ => .after (.lift _) fun v _ => stays_push v m₂

private theorem stays_unary (i : Instruction) (m : Machine) : Stays m (unary i) := by
  refine .after (.known i _) fun op _ => ?_
  refine .bind (stays_pop m) fun a m₁ _ => ?_
  exact .after .heap fun h _ => .after (.lift _) fun v _ => stays_push v m₁

/-- A jump goes to or installs a target inside the code of the innermost call; taking the condition
off the stack in between changes neither that call nor its routine.
-/
theorem stays_jump (i : Instruction) (m : Machine) : Stays m (jump i) := by
  simp only [jump]
  split
  · exact .after (.known i none) fun _ failed => by cases failed
  refine .bind (Reads.currentRoutine.stays m) fun routine m₁ found => ?_
  have same := Reads.currentRoutine.same found
  subst same
  split
  · exact .after (.raise _) fun _ failed => by cases failed
  rename_i inside
  have current (f : Frame) (outer : List Frame) (frames : m₁.process.frames = f :: outer)
      : m₁.routineOf f = routine := by
    have looked : Exec.frame.run m₁ = .ok f m₁ := by
      simp [Exec.frame, process, frames]
    simp only [currentRoutine, heap, EStateM.run_bind, EStateM.run_get, EStateM.run_pure,
      looked] at found
    cases found
    rfl
  split
  · refine .after .frame fun f found => ?_
    obtain ⟨-, outer, frames⟩ := frame_eq_ok found
    refine .after .process fun p found => ?_
    cases found
    rw [Stays, run_setFrame frames]
    refine .single (.install frames ?_)
    rw [current f outer frames]
    omega
  refine .after (.isTaken i) fun taken _ => ?_
  have goes (m₂ : Machine) (frames : m₂.process.frames = m₁.process.frames)
      (routines : m₂.world = m₁.world)
      : Stays m₂ (if taken = true then do
          let f ← Exec.frame
          setFrame { f with pc := operand i }
        else Pure.pure ()) := by
    split
    · refine .after .frame fun f found => ?_
      obtain ⟨-, outer, inner⟩ := frame_eq_ok found
      rw [Stays, run_setFrame inner]
      refine .single (.goto inner ?_)
      rw [routineOf, routines, ← routineOf, current f outer (frames ▸ inner)]
      omega
    · exact (Reads.pure ()).stays m₂
  split
  · refine .bind (stays_pop m₁).discard fun _ m₂ done => ?_
    obtain ⟨v, popped⟩ := run_discard_eq_ok done
    obtain ⟨rest, -, -, rfl⟩ := pop_eq_ok popped
    exact goes _ rfl rfl
  · exact goes m₁ rfl rfl

private theorem stays_readElement (a : ArrayId) (indexes : List Value) (m : Machine)
    : Stays m (readElement a indexes) :=
  .after .heap fun _ _ => .after (.lift _) fun v _ => stays_push v m

private theorem stays_writeElement (a : ArrayId) (indexes : List Value) (v : Value) (m : Machine)
    : Stays m (writeElement a indexes v) := by
  refine .after .heap fun h found => ?_
  cases found
  refine .after (.lift _) fun g written => stays_setHeap ?_
  exact Heap.evolves_setGrid fun sound => sound.set (lift_eq_ok written)

private theorem stays_indirect (i : Instruction) (m : Machine) : Stays m (indirect i) := by
  refine .after (.known i _) fun op _ => ?_
  refine .bind (stays_pop m) fun callee m₁ _ => ?_
  refine .bind (stays_popMany _ m₁) fun args m₂ _ => ?_
  split
  · exact stays_call ..
  · exact stays_call ..
  · exact stays_call ..
  · exact stays_readElement ..
  · exact stays_readElement ..
  · exact stays_push ..
  · exact stays_push ..
  · exact .bind (stays_pop m₂) fun v m₃ _ => stays_writeElement ..
  · exact .after .heap fun _ _ => (Reads.raise _).stays m₂
  · exact (Reads.raise _).stays m₂

private theorem stays_member (i : Instruction) (m : Machine) : Stays m (member i) := by
  refine .after (.nameAt _) fun name _ => ?_
  refine .bind (stays_pop m) fun object m₁ _ => ?_
  refine .after (.known i _) fun op _ => ?_
  split
  · exact .after .heap fun _ _ => .after (.lift _) fun v _ => stays_push v m₁
  · exact stays_push ..
  · exact (Reads.raise _).stays m₁
  · refine .bind (stays_pop m₁) fun v m₂ _ => ?_
    split
    · refine .after .heap fun h found => ?_
      cases found
      exact .after (.lift _) fun _ _ => stays_setHeap (.of_arrays rfl rfl)
    · exact (Reads.raise _).stays m₂

/-- A list with two known entries, the first and a later one, is split at both, and setting each to
the other exchanges them.
-/
theorem exchange {values : List α} {upper lower : α} {n : Nat}
    (at_upper : values[0]? = some upper) (at_lower : values[n + 1]? = some lower)
    : ∃ between rest,
        values = upper :: between ++ lower :: rest
        ∧ between.length = n
        ∧ (values.set 0 lower).set (n + 1) upper = lower :: between ++ upper :: rest := by
  cases values with
  | nil => simp at at_upper
  | cons top below =>
      simp only [List.getElem?_cons_zero, Option.some.injEq] at at_upper
      simp only [List.getElem?_cons_succ] at at_lower
      subst at_upper
      obtain ⟨inside, value⟩ := List.getElem?_eq_some_iff.mp at_lower
      have length : (below.take n).length = n := by simp; omega
      have stack : below = below.take n ++ lower :: below.drop (n + 1) := by
        rw [← value, List.getElem_cons_drop, List.take_append_drop]
      refine ⟨below.take n, below.drop (n + 1), ?_, length, ?_⟩
      · rw [List.cons_append, ← stack]
      · rw [List.set_cons_zero, List.set_cons_succ, List.cons_append]
        rw [List.set_eq_take_append_cons_drop, if_pos inside]

/-- An exchange that completes finds both places on the stack, above the base of the innermost
call.
-/
theorem swap_eq_ok {i : Instruction} (meant : StackOp.ofByte? i.minor = some .swap)
    (done : (rearrange i).run m = .ok () m')
    : ∃ upper between lower rest,
        m.process.stack = upper :: between ++ lower :: rest
        ∧ between.length = operand i
        ∧ m.process.base ≤ rest.length
        ∧ m' = m.withStack (lower :: between ++ upper :: rest) := by
  simp only [rearrange, meant, known, pure_bind] at done
  obtain ⟨lower, m₁, looked, afterLower⟩ := run_bind_eq_ok.mp done
  obtain ⟨same, at_lower, above⟩ := peek_eq_ok looked
  subst same
  obtain ⟨upper, m₂, lookedAgain, afterUpper⟩ := run_bind_eq_ok.mp afterLower
  obtain ⟨same, at_upper, -⟩ := peek_eq_ok lookedAgain
  subst same
  obtain ⟨between, rest, stack, length, exchanged⟩ := exchange at_upper at_lower
  have height := congrArg List.length stack
  simp only [List.length_append, List.length_cons] at height
  refine ⟨upper, between, lower, rest, stack, length, by omega, ?_⟩
  simp only [process, setProcess, EStateM.run_bind, EStateM.run_get, EStateM.run_pure,
    EStateM.run_modify, exchanged] at afterUpper
  cases afterUpper
  rfl

private theorem stays_rearrange (i : Instruction) (m : Machine) : Stays m (rearrange i) := by
  refine .after (.known i _) fun op _ => ?_
  cases op with
  | dup => exact .after (.peek _) fun v _ => stays_push v m
  | drop => exact (stays_popMany _ m).discard
  | swap =>
      refine .after (.peek _) fun lower found => ?_
      obtain ⟨-, at_lower, above⟩ := peek_eq_ok found
      refine .after (.peek _) fun upper found => ?_
      obtain ⟨-, at_upper, -⟩ := peek_eq_ok found
      refine .after .process fun p found => ?_
      cases found
      obtain ⟨between, rest, stack, length, exchanged⟩ := exchange at_upper at_lower
      have height := congrArg List.length stack
      simp only [List.length_append, List.length_cons] at height
      rw [exchanged]
      exact .single (.swap stack (by omega))

private theorem stays_newArray (dims : List Nat) (m : Machine) : Stays m (newArray dims) := by
  refine .after (.lift _) fun g made => ?_
  refine .after .heap fun h found => ?_
  cases found
  have box := m.world.heap.evolves_addArray (Grid.sound_of_new (lift_eq_ok made))
  exact .bind (stays_setHeap box) fun _ m₁ _ => stays_push _ m₁

private theorem stays_bindTop (count : Nat) (m : Machine) : Stays m (bindTop count) := by
  refine .bind (stays_pop m) fun v m₁ _ => ?_
  split
  · refine .bind (stays_popMany _ m₁) fun values m₂ _ => ?_
    exact .bind (stays_makeClosure ..) fun v m₃ _ => stays_push v m₃
  · exact (Reads.raise _).stays m₁

private theorem stays_uncatch (m : Machine) : Stays m uncatch := by
  refine .after .frame fun f found => ?_
  obtain ⟨-, outer, frames⟩ := frame_eq_ok found
  split
  · rename_i handler handlers latest
    rw [Stays, run_setFrame frames]
    exact .single (.uninstall frames latest)
  · exact (Reads.raise _).stays m

-----------------------------------------------------------------------------------------
-- Leaving a call, and the steps of a process
-----------------------------------------------------------------------------------------

/-- How leaving the call `f` on top of `outer` with a value ends. The call and what it has left on
the stack are gone in any case. If there is a caller and the call was made for a result, the caller
gets one, unless the stack is full even then.
-/
inductive Left (f : Frame) (outer : List Frame) (v : Option Value) (m : Machine)
    : EStateM.Result Interruption Machine Signal → Prop
  | outermost (alone : outer = [])
    : Left f outer v m
        (.ok .ended { m with process := { m.process with
          frames := [], stack := Process.cut m.process.stack f.stackBase, result := v } })
  | dropped (called : outer ≠ []) (unwanted : f.wantResult = false)
    : Left f outer v m
        (.ok .next ((m.withFrames outer).withStack (Process.cut m.process.stack f.stackBase)))
  | handed (called : outer ≠ []) (wanted : f.wantResult = true)
    (room : (Process.cut m.process.stack f.stackBase).length < m.process.maxStackSize)
    : Left f outer v m
        (.ok .next ((m.withFrames outer).withStack
          (v.getD .null :: Process.cut m.process.stack f.stackBase)))
  | overflowed (called : outer ≠ []) (wanted : f.wantResult = true)
    (full : m.process.maxStackSize ≤ (Process.cut m.process.stack f.stackBase).length)
    : Left f outer v m
        (.error (.fault m.process.overflow)
          ((m.withFrames outer).withStack (Process.cut m.process.stack f.stackBase)))

/-- Leaving a call ends in one of the ways of `Left`, by whether there is a caller, whether it wants
a result and whether the stack has room for it.
-/
theorem leave_left {f : Frame} {outer : List Frame} (frames : m.process.frames = f :: outer)
    (v : Option Value)
    : Left f outer v m ((leave v).run m) := by
  simp only [leave, process, EStateM.run_bind, EStateM.run_get, EStateM.run_pure, frames]
  cases outer with
  | nil => exact .outermost rfl
  | cons caller others =>
      have called : caller :: others ≠ [] := by simp
      simp only [List.isEmpty_cons, Bool.false_eq_true, if_false, EStateM.run_bind, setProcess,
        EStateM.run_modify]
      by_cases wanted : f.wantResult = true
      · simp only [wanted, if_true, EStateM.run_bind]
        rcases push_cases (v.getD .null)
            ((m.withFrames (caller :: others)).withStack (Process.cut m.process.stack f.stackBase))
          with ⟨room, done⟩ | ⟨full, failed⟩
        · have pushed := Left.handed (m := m) (v := v) called wanted room
          rw [withFrames, withStack] at done
          rw [done]
          exact pushed
        · have overflowed := Left.overflowed (m := m) (v := v) called wanted full
          rw [withFrames, withStack] at failed
          rw [failed]
          exact overflowed
      · have unwanted : f.wantResult = false := by simpa using wanted
        simp only [unwanted, Bool.false_eq_true, if_false]
        exact .dropped called unwanted

/-- The instruction leaves the innermost call with the value `v`, after having taken it off the
stack if it returns one.
-/
inductive Returns (i : Instruction) (m : Machine) : Option Value → Machine → Prop
  | bare (opcode : i.opcode = .special) (meant : SpecialOp.ofByte? i.minor = some .leave)
    (none : operand i = 0)
    : Returns i m .none m
  | valued (opcode : i.opcode = .special) (meant : SpecialOp.ofByte? i.minor = some .leave)
    (some : operand i ≠ 0) {v : Value} {m' : Machine} (popped : pop.run m = .ok v m')
    : Returns i m (.some v) m'

/-- A call that is left has changed the machine by elementary changes only. -/
theorem Returns.changes {i : Instruction} {v : Option Value} (returns : Returns i m v m')
    : Changes m m' := by
  cases returns with
  | bare => exact .refl
  | valued opcode meant some popped =>
      have changes := stays_pop m
      rwa [Stays, popped] at changes

/-- A returning instruction leaves the innermost call and does nothing else any more. -/
theorem Returns.run_execute {i : Instruction} {v : Option Value} (returns : Returns i m v m')
    : (execute i).run m = (leave v).run m' := by
  cases returns with
  | bare opcode meant none => simp [execute, opcode, special, meant, known, none]
  | valued opcode meant some popped =>
      have valued : (operand i != 0) = true := by simpa using some
      simp only [execute, opcode, special, meant, known, pure_bind, valued, if_true]
      rw [EStateM.run_bind, run_map, popped]

/-- A control operation makes elementary changes only, or returns from the innermost call. -/
theorem special_cases {i : Instruction} (opcode : i.opcode = .special) (m : Machine)
    : Stays m (special i) ∨ ∃ v m', Returns i m v m' := by
  unfold special
  cases meant : SpecialOp.ofByte? i.minor with
  | none => exact .inl (.after (.known i none) fun _ failed => by cases failed)
  | some op =>
      simp only [known, pure_bind]
      cases op with
      | uncatch => exact .inl (.bind (stays_uncatch m) fun _ m' _ => (Reads.pure _).stays m')
      | leave =>
          by_cases bare : operand i = 0
          · exact .inr ⟨none, m, .bare opcode meant bare⟩
          have valued : (operand i != 0) = true := by simpa using bare
          simp only [valued, if_true]
          cases popped : pop.run m with
          | ok v m₁ => exact .inr ⟨some v, m₁, .valued opcode meant bare popped⟩
          | error e m₁ =>
              refine .inl ?_
              rw [Stays, EStateM.run_bind, run_map, popped]
              rw [pop_eq_error popped]
              exact .refl
      | throw =>
          refine .inl (.bind (stays_pop m) fun v m₁ _ => ?_)
          exact .after .heap fun _ _ => (Reads.raise _).stays m₁
      | terminate | suspend => exact .inl ((Reads.pure _).stays m)
      | wait =>
          exact .inl (.after .heap fun _ _ => .after (.literalAt _) fun _ _ =>
            (Reads.pure _).stays m)
      | bind => exact .inl (.bind (stays_bindTop _ m) fun _ m' _ => (Reads.pure _).stays m')
      | newArray =>
          refine .inl (.bind (stays_popMany _ m) fun values m₁ _ => ?_)
          refine .after (.mapM .dimension values) fun dims _ => ?_
          exact .bind (stays_newArray dims m₁) fun _ m' _ => (Reads.pure _).stays m'

/-- An instruction makes elementary changes only, or returns from the innermost call, by the family
of the instruction.
-/
theorem execute_cases (i : Instruction) (m : Machine)
    : Stays m (execute i) ∨ ∃ v m', Returns i m v m' := by
  have first (x : Exec Unit) (stays : Stays m x) : Stays m (do x; return Signal.next) :=
    .bind stays fun _ m' _ => (Reads.pure Signal.next).stays m'
  unfold execute
  cases opcode : i.opcode with
  | push => exact .inl (first _ (stays_pushFrom i m))
  | pop =>
      refine .inl (.bind (stays_pop m) fun v m₁ _ => ?_)
      exact .bind (stays_assign i v m₁) fun _ m' _ => (Reads.pure _).stays m'
  | store => exact .inl (.after (.peek 0) fun v _ => first _ (stays_assign i v m))
  | binary => exact .inl (first _ (stays_binary i m))
  | unary => exact .inl (first _ (stays_unary i m))
  | jump => exact .inl (first _ (stays_jump i m))
  | indirect => exact .inl (first _ (stays_indirect i m))
  | member => exact .inl (first _ (stays_member i m))
  | stack => exact .inl (first _ (stays_rearrange i m))
  | special => exact special_cases opcode m

/-- A step of a process with an active call executes the next instruction, with the program counter
moved past it, leaves the call at the end of its code, or raises that the program counter is outside
the code.
-/
theorem run_step {f : Frame} {outer : List Frame} (frames : m.process.frames = f :: outer)
    : step.run m
      = match (m.routineOf f).code[f.pc]? with
        | some i => (execute i).run (m.withFrames ({ f with pc := f.pc + 1 } :: outer))
        | none =>
          if f.pc = (m.routineOf f).code.size then (leave none).run m
          else .error (.fault (.internal
            s!"program counter {f.pc} outside '{(m.routineOf f).name}'")) m := by
  simp only [step, process, heap, EStateM.run_bind, EStateM.run_get, EStateM.run_pure, frames]
  rw [← routineOf]
  cases (m.routineOf f).code[f.pc]? with
  | some i =>
      simp only [EStateM.run_bind, run_setFrame frames]
  | none =>
      by_cases atEnd : f.pc = (m.routineOf f).code.size
      · simp only [atEnd, if_true]
      · simp only [atEnd, if_false]
        rfl

/-- A step without an active call ends the process and changes nothing. -/
theorem run_step_nil (frames : m.process.frames = []) : step.run m = .ok .ended m := by
  simp only [step, process, EStateM.run_bind, EStateM.run_get, EStateM.run_pure, frames]

/-- The next step leaves the innermost call with the value `v`: the call is at the end of its code,
or a returning instruction is next.
-/
inductive Finishes (m : Machine) : Option Value → Machine → Prop
  | atEnd {f : Frame} {outer : List Frame} (frames : m.process.frames = f :: outer)
    (atEnd : f.pc = (m.routineOf f).code.size)
    : Finishes m none m
  | returns {f : Frame} {outer : List Frame} (frames : m.process.frames = f :: outer)
    {i : Instruction} (next : (m.routineOf f).code[f.pc]? = some i) {v : Option Value}
    {m' : Machine} (returns : Returns i (m.withFrames ({ f with pc := f.pc + 1 } :: outer)) v m')
    : Finishes m v m'

theorem Finishes.changes {v : Option Value} (finishes : Finishes m v m') : Changes m m' := by
  cases finishes with
  | atEnd => exact .refl
  | returns frames next returns =>
      have moved := Change.goto frames (Array.getElem?_eq_some_iff.mp next).1
      exact .head moved returns.changes

/-- A step that finishes a call does what `leave` does. -/
theorem Finishes.run_step {v : Option Value} (finishes : Finishes m v m')
    : step.run m = (leave v).run m' := by
  cases finishes with
  | @atEnd f outer frames atEnd =>
      have beyond : (m.routineOf f).code[f.pc]? = none := by rw [atEnd, Array.getElem?_size]
      rw [Exec.run_step frames, beyond]
      simp only [atEnd, if_true]
  | returns frames next returns =>
      rw [Exec.run_step frames, next]
      exact returns.run_execute

/-- Before the innermost call is left, nothing but that call and the stack has changed. -/
theorem Finishes.shape {v : Option Value} (finishes : Finishes m v m')
    : ∃ f g outer stack,
        m.process.frames = f :: outer ∧ m' = (m.withFrames (g :: outer)).withStack stack := by
  cases finishes with
  | @atEnd f outer frames atEnd =>
      refine ⟨f, f, outer, m.process.stack, frames, ?_⟩
      rw [withFrames, withStack, ← frames]
  | @returns f outer frames i next v m' returns =>
      refine ⟨f, { f with pc := f.pc + 1 }, outer, m'.process.stack, frames, ?_⟩
      cases returns with
      | bare => rfl
      | valued _ _ _ popped =>
          obtain ⟨rest, -, -, rfl⟩ := pop_eq_ok popped
          rfl

/-- A step makes elementary changes only, or leaves the innermost call after some. -/
theorem step_cases (m : Machine) : Stays m step ∨ ∃ v m', Finishes m v m' := by
  cases frames : m.process.frames with
  | nil =>
      refine .inl ?_
      rw [Stays, run_step_nil frames]
      exact .refl
  | cons f outer =>
      cases next : (m.routineOf f).code[f.pc]? with
      | some i =>
          have moved := Change.goto frames (Array.getElem?_eq_some_iff.mp next).1
          rcases execute_cases i (m.withFrames ({ f with pc := f.pc + 1 } :: outer))
            with stays | ⟨v, m', returns⟩
          · refine .inl ?_
            rw [Stays, run_step frames, next]
            exact .head moved stays
          · exact .inr ⟨v, m', .returns frames next returns⟩
      | none =>
          by_cases atEnd : f.pc = (m.routineOf f).code.size
          · exact .inr ⟨none, m, .atEnd frames atEnd⟩
          · refine .inl ?_
            rw [Stays, run_step frames, next]
            simp only [atEnd, if_false]
            exact .refl

end Exec

namespace Machine

/-- What a step and what follows from it can do. Elementary changes are made, and what the instruction
asks for is obeyed or a fault is raised; or the step never completes; or a call is left. The outermost
call ends the process with a result, and any other one goes back to its caller, which may not have room
for the result.
-/
inductive Advanced (m : Machine) : Machine → Prop
  | obeyed {m₁ : Machine} (changes : Changes m m₁) (signal : Signal) : Advanced m (m₁.obey signal)
  | raised {m₁ : Machine} (changes : Changes m m₁) (fault : Fault)
    : Advanced m { m₁ with process := m₁.process.raise fault }
  | endless : Advanced m m
  | ended (result : Option Value)
    : Advanced m { m with process := { m.process.release with state := .ended, result } }
  | returned {outer : List Frame} {stack : List Value} (called : outer ≠ [])
    : Advanced m ((m.withFrames outer).withStack stack)
  | overflowed {outer : List Frame} {stack : List Value} (called : outer ≠ []) (fault : Fault)
    : Advanced m { m with process :=
        ((m.withFrames outer).withStack stack).process.raise fault }

/-- A step and what follows from it do one of the things of `Advanced`, by the outcome of the step. -/
theorem advanced (m : Machine) : Advanced m m.advance := by
  unfold advance
  rcases Exec.step_cases m with stays | ⟨v, m₁, finishes⟩
  · cases result : Exec.step.run m with
    | ok signal m₁ =>
        rw [Exec.Stays, result] at stays
        exact .obeyed stays signal
    | error interruption m₁ =>
        rw [Exec.Stays, result] at stays
        cases interruption with
        | endless => exact .endless
        | fault fault => exact .raised stays fault
  · obtain ⟨f, g, outer, stack, -, rfl⟩ := finishes.shape
    rw [finishes.run_step]
    have left := Exec.leave_left (m := (m.withFrames (g :: outer)).withStack stack) rfl v
    generalize (Exec.leave v).run ((m.withFrames (g :: outer)).withStack stack) = result at left
    cases left with
    | outermost => exact .ended v
    | dropped called | handed called => exact .returned called
    | overflowed called => exact .overflowed called _

end Machine
end TaskMachine

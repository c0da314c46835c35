import TaskMachine.Proofs.Process.Instructions

/-!
Everything that can happen to a process: it runs step by step, its host lets it go on, gives it what
it waits for, ends it or calls something in it, and other processes change the world around it.
-/

namespace TaskMachine

open Machine

namespace Exec

variable {m : Machine}

/-- Starting copies the arguments and enters the routine, or does nothing. -/
theorem stays_start (r : RoutineId) (args : List Value) (m : Machine) : Stays m (start r args) := by
  refine .after .process fun p found => ?_
  cases found
  dsimp only
  split
  · exact .after (.raise _) fun _ failed => by cases failed
  refine .after .heap fun h found => ?_
  cases found
  cases copied : m.world.heap.copyList args with
  | some result =>
      obtain ⟨h, args⟩ := result
      exact .bind (stays_setHeap (Heap.evolves_copyList copied)) fun _ m₁ _ => stays_enter ..
  | none => exact (Reads.throw .endless).stays m

end Exec

namespace Machine

/-- One event in the life of a process. A change of its surroundings may be anything that leaves the
routines of its calls as they are: routines are never changed once they are compiled.
-/
inductive Event : Machine → Machine → Prop
  | advanced {m : Machine} (running : m.process.state = .running)
    : Event m m.advance
  | begun {m : Machine} (runnable : m.process.state = .runnable)
    : Event m { m with process := m.process.begin }
  | woken {m : Machine} {p : Process} (accepted : m.process.wake = .ok p)
    : Event m { m with process := p }
  | resumed {m : Machine} {v : Value} {p : Process} (accepted : m.process.resume v = .ok p)
    : Event m { m with process := p }
  | terminated {m : Machine}
    : Event m { m with process := m.process.terminate }
  | relabelled {m : Machine} (id : Nat) (kind : ProcessKind)
    : Event m { m with process := { m.process with id, kind } }
  | started {m : Machine} (r : RoutineId) (args : List Value)
    : Event m (stateOf ((Exec.start r args).run m))
  | entered {m : Machine} (r : RoutineId) (args : List Value) (wantResult : Bool)
    : Event m (stateOf ((Exec.enter r args wantResult).run m))
  | called {m : Machine} (c : CallableId) (args : List Value) (wantResult : Bool)
    : Event m (stateOf ((Exec.call c args wantResult).run m))
  | pushed {m : Machine} (v : Value)
    : Event m (stateOf ((Exec.push v).run m))
  | surrounded {m : Machine} (w : World)
    (kept : ∀ f ∈ m.process.frames, w.heap.routine f.routine = m.routineOf f)
    : Event m { m with world := w }

end Machine
end TaskMachine

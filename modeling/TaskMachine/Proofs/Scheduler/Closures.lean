import TaskMachine.Proofs.Process.Arity
import TaskMachine.Proofs.Scheduler.Copying

/-!
Closures while processes run. Whatever processes do, closures are made after their bases and stay what
they are. So what has been built stays built, and what processes make by binding values to it is built,
too.
-/

namespace TaskMachine

open Relation

-----------------------------------------------------------------------------------------
-- Heaps along a run
-----------------------------------------------------------------------------------------

namespace Scheduler

variable {s s' : Scheduler} {c : CallableId}

/-- A move in which only what is on the heap is taken in. The host makes closures after their bases. -/
inductive Stacking (s s' : Scheduler) : Prop
  | turn {others : List Process} {dealings : Dealings} (turn : Turn s others dealings s')
    (present : ∀ v, dealings.takes v → s.world.heap.Present v)
  | host (surrounds : Surrounds s s')
    (stacked : s.world.heap.Stacked → s'.world.heap.Stacked)

theorem Stacking.sourced (stacking : Stacking s s') : Sourced s s' := by
  cases stacking with
  | turn turn present => exact .turn turn present
  | host surrounds _ => exact .host surrounds

/-- All closures are made after their bases and stay as they are, by induction on the moves. -/
theorem later_of_moves (grounded : s.Grounded) (stacked : s.world.heap.Stacked)
    (run : ReflTransGen Stacking s s')
    : s.world.heap.Later s'.world.heap := by
  induction run with
  | refl => exact ⟨.refl _ _, stacked⟩
  | tail before stacking ih =>
      obtain ⟨changes, stacked⟩ := ih
      cases stacking with
      | turn turn present =>
          have sourced := ReflTransGen.mono (fun _ _ => Stacking.sourced) _ _ before
          obtain ⟨-, edits⟩ := turn.grounded (grounded_of_moves grounded sourced) present
          exact ⟨changes.trans edits.changesIn, edits.stacked stacked⟩
      | host surrounds keeps =>
          exact ⟨changes.trans (surrounds.kept.changesIn surrounds.routines), keeps stacked⟩

/-- What has been built stays built. -/
theorem built_of_moves (grounded : s.Grounded) (built : s.world.heap.Built c)
    (run : ReflTransGen Stacking s s')
    : s'.world.heap.Built c := by
  obtain ⟨changes, stacked⟩ := later_of_moves grounded built.callability.stacked run
  exact .later built (changes.goesOn stacked)

end Scheduler

-----------------------------------------------------------------------------------------
-- Closures that processes make
-----------------------------------------------------------------------------------------

/-- Values are bound one after another, by induction on them. -/
theorem Closure.filling_of_bindAll {values : List Value} {s s' : Heap × Closure}
    (bound : (bindAll values).run s = .ok () s')
    : ReflTransGen Filling s s' := by
  induction values generalizing s with
  | nil =>
      cases bound
      exact .refl
  | cons v rest ih =>
      rw [bindAll] at bound
      obtain ⟨_, s₁, first, others⟩ := run_bind_eq_ok.mp bound
      exact .head (.bound first) (ih others)

/-- What a process makes by binding values to something built is built. -/
theorem Exec.built_of_makeClosure {base : CallableId} {values : List Value} {m m' : Machine}
    {v : Value} (built : m.world.heap.Built base)
    (made : (makeClosure base values).run m = .ok v m')
    : ∃ c, v = .callable c ∧ m'.world.heap.Built c := by
  obtain ⟨h', c, ⟨h₁, closure, bound, value⟩, rfl, rfl⟩ := Heap.run_makeClosure_eq_ok.mp made
  exact ⟨c, rfl, .closure built (Closure.filling_of_bindAll bound) value⟩

end TaskMachine

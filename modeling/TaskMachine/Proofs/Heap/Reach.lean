import TaskMachine.Heap
import TaskMachine.Process.Basic

/-!
What can be reached from a value: the cells of an array, the literals of a routine, what a closure
binds and what an object has as members, and whatever can be reached from there.
-/

namespace TaskMachine

namespace Heap

/-- A value leads to another one directly. -/
inductive LeadsTo (h : Heap) : Value → Value → Prop
  | cell {a : ArrayId} {v : Value} (held : v ∈ (h.grid a).cells) : LeadsTo h (.array a) v
  | literal {c : CallableId} {r : RoutineId} {v : Value}
    (routine : h.callable c = .direct (.subroutine r)) (held : v ∈ (h.routine r).literals)
    : LeadsTo h (.callable c) v
  | base {c base : CallableId} {bound : List Value} (closure : h.callable c = .closure base bound)
    : LeadsTo h (.callable c) (.callable base)
  | bound {c base : CallableId} {bound : List Value} {v : Value}
    (closure : h.callable c = .closure base bound) (held : v ∈ bound)
    : LeadsTo h (.callable c) v
  | member {o : ObjectId} {name : String} {v : Value} (held : (h.object o).getMember name = .ok v)
    : LeadsTo h (.object o) v

/-- The values that can be reached from given ones. -/
inductive Reached (h : Heap) (roots : Value → Prop) : Value → Prop
  | root {v : Value} (held : roots v) : Reached h roots v
  | step {v w : Value} (reached : Reached h roots v) (leads : h.LeadsTo v w) : Reached h roots w

/-- What holds of the roots and of whatever a value with it leads to holds of all that is reached, by
induction on the way there.
-/
theorem Reached.induct {h : Heap} {roots P : Value → Prop} {v : Value} (reached : h.Reached roots v)
    (first : ∀ v, roots v → P v) (next : ∀ v w, P v → h.LeadsTo v w → P w)
    : P v := by
  induction reached with
  | root held => exact first _ held
  | step _ leads ih => exact next _ _ ih leads

end Heap

/-- The values that a process holds: those on its stack, and the local variables and literals of its
calls.
-/
def Process.Holds (p : Process) (h : Heap) (v : Value) : Prop :=
  v ∈ p.stack ∨ ∃ f ∈ p.frames, v ∈ f.locals ∨ v ∈ (h.routine f.routine).literals

/-- The values that processes lead to. -/
def Heap.Live (h : Heap) (ps : List Process) : Value → Prop :=
  h.Reached fun v => ∃ p ∈ ps, p.Holds h v

theorem Heap.live_of_holds {h : Heap} {ps : List Process} {p : Process} (among : p ∈ ps) {v : Value}
    (held : p.Holds h v)
    : h.Live ps v :=
  .root ⟨p, among, held⟩

end TaskMachine

import Mathlib.Logic.Relation
import TaskMachine.Process.Run
import TaskMachine.Proofs.Heap.Copies

/-!
What one step can do to a machine. Short of leaving a call, an instruction makes elementary changes
only: to the shared world, to the operand stack above the base of the innermost call, and to the
innermost call itself, on top of which it may enter another. An invariant of running is checked
against these changes, not against the instructions.
-/

namespace TaskMachine

namespace Machine

/-- The machine with another operand stack. -/
def withStack (m : Machine) (stack : List Value) : Machine :=
  { m with process := { m.process with stack } }

/-- The machine with other active calls. -/
def withFrames (m : Machine) (frames : List Frame) : Machine :=
  { m with process := { m.process with frames } }

/-- The routine of an active call. -/
def routineOf (m : Machine) (f : Frame) : Routine :=
  m.world.heap.routine f.routine

/-- One elementary change. Values are taken from and moved in the part of the stack above the base
of the innermost call; of the calls only the innermost one changes, and it keeps its routine, its
base and the number of its local variables.
-/
inductive Change : Machine → Machine → Prop
  | world {m : Machine} (w : World) (evolves : m.world.heap.Evolves w.heap)
    : Change m { m with world := w }
  | push {m : Machine} (v : Value) (room : m.process.stack.length < m.process.maxStackSize)
    : Change m (m.withStack (v :: m.process.stack))
  | drop {m : Machine} (n : Nat) (present : m.process.base + n ≤ m.process.stack.length)
    : Change m (m.withStack (m.process.stack.drop n))
  | swap {m : Machine} {upper lower : Value} {between rest : List Value}
    (stack : m.process.stack = upper :: between ++ lower :: rest)
    (above : m.process.base ≤ rest.length)
    : Change m (m.withStack (lower :: between ++ upper :: rest))
  | assign {m : Machine} {f : Frame} {outer : List Frame} (frames : m.process.frames = f :: outer)
    (index : Nat) (v : Value)
    : Change m (m.withFrames ({ f with locals := f.locals.setIfInBounds index v } :: outer))
  | goto {m : Machine} {f : Frame} {outer : List Frame} {pc : Nat}
    (frames : m.process.frames = f :: outer) (inside : pc ≤ (m.routineOf f).code.size)
    : Change m (m.withFrames ({ f with pc } :: outer))
  | install {m : Machine} {f : Frame} {outer : List Frame} {target : Nat}
    (frames : m.process.frames = f :: outer) (inside : target ≤ (m.routineOf f).code.size)
    : Change m (m.withFrames
        ({ f with handlers := ⟨target, m.process.stack.length⟩ :: f.handlers } :: outer))
  | uninstall {m : Machine} {f : Frame} {outer : List Frame} {handler : Handler}
    {handlers : List Handler} (frames : m.process.frames = f :: outer)
    (latest : f.handlers = handler :: handlers)
    : Change m (m.withFrames ({ f with handlers } :: outer))
  | enter {m : Machine} (r : RoutineId) (locals : Array Value) (wantResult : Bool)
    (room : m.process.frames.length < m.process.maxCallDepth)
    (enough : (m.world.heap.routine r).numLocals ≤ locals.size)
    : Change m (m.withFrames
        ({ routine := r, pc := 0, locals, handlers := [], wantResult,
            stackBase := m.process.stack.length } :: m.process.frames))

/-- Any number of elementary changes, one after another. -/
abbrev Changes : Machine → Machine → Prop :=
  Relation.ReflTransGen Change

/-- What elementary changes leave as it is: the identity, the life and the limits of the process,
and the compiled routines.
-/
structure SameLife (m m' : Machine) : Prop where
  id : m'.process.id = m.process.id
  name : m'.process.name = m.process.name
  kind : m'.process.kind = m.process.kind
  state : m'.process.state = m.process.state
  waitingFor : m'.process.waitingFor = m.process.waitingFor
  result : m'.process.result = m.process.result
  failure : m'.process.failure = m.process.failure
  pendingFault : m'.process.pendingFault = m.process.pendingFault
  maxCallDepth : m'.process.maxCallDepth = m.process.maxCallDepth
  maxStackSize : m'.process.maxStackSize = m.process.maxStackSize
  routines : m'.world.heap.routines = m.world.heap.routines

theorem SameLife.refl (m : Machine) : SameLife m m := by
  constructor <;> rfl

/-- An elementary change is none of the life of the process, by the cases of the change. -/
theorem Change.sameLife {m m' : Machine} (change : Change m m') : SameLife m m' := by
  cases change with
  | world w evolves => constructor <;> first | rfl | exact evolves.routines
  | push | drop | swap | assign | goto | install | uninstall | enter => constructor <;> rfl

/-- Elementary changes are none of the life of the process, by induction on their number. -/
theorem Changes.sameLife {m m' : Machine} (changes : Changes m m') : SameLife m m' := by
  induction changes with
  | refl => exact .refl _
  | tail _ change ih =>
      have last := change.sameLife
      exact {
        id := last.id.trans ih.id
        name := last.name.trans ih.name
        kind := last.kind.trans ih.kind
        state := last.state.trans ih.state
        waitingFor := last.waitingFor.trans ih.waitingFor
        result := last.result.trans ih.result
        failure := last.failure.trans ih.failure
        pendingFault := last.pendingFault.trans ih.pendingFault
        maxCallDepth := last.maxCallDepth.trans ih.maxCallDepth
        maxStackSize := last.maxStackSize.trans ih.maxStackSize
        routines := last.routines.trans ih.routines
      }

/-- The heap goes on through elementary changes, by induction on their number. -/
theorem Changes.evolves {m m' : Machine} (changes : Changes m m')
    : m.world.heap.Evolves m'.world.heap := by
  induction changes with
  | refl => exact .refl _
  | tail _ change ih =>
      refine ih.trans ?_
      cases change with
      | world w evolves => exact evolves
      | push | drop | swap | assign | goto | install | uninstall | enter => exact .refl _

end Machine
end TaskMachine

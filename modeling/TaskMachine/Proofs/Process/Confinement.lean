import TaskMachine.Proofs.Heap.Disciplines
import TaskMachine.Proofs.Operators
import TaskMachine.Proofs.Process.Instructions

/-!
What a process can get hold of. As long as all that it holds is at home, and all that it takes in
from outside, and whatever is behind the callables that it calls, it only ever holds and writes
values at home. From outside it takes in what names stand for, what host objects keep, and what the
host replies.
-/

namespace TaskMachine

/-- A process holds the same values on every heap with the same routines. -/
theorem Process.holds_of_routines {h h' : Heap} (p : Process) (routines : h'.routines = h.routines)
    {v : Value}
    : p.Holds h' v ↔ p.Holds h v := by
  simp only [Process.Holds, Heap.routine, routines]

/-- The heap is in order, and everything that the process holds is at home. -/
structure Machine.Disciplined (I : Heap → Prop) (R : Value → Prop) (m : Machine) : Prop where
  order : I m.world.heap
  held : ∀ v, m.process.Holds m.world.heap v → m.world.heap.Owned R v

/-- Everything that the process holds is at home in a region. -/
abbrev Machine.Confined (R : Value → Prop) (m : Machine) : Prop :=
  m.Disciplined (fun h => h.Region R) R

/-- How the host replies to a call that it takes. -/
def Heap.replyOf (h : Heap) (args : List Value) (wantResult : Bool) : Callee → Option HostReply
  | .subroutine _ => none
  | .native f => some (f.run (args.map h.argument))
  | .hosted c => some (c.run (args.map h.argument) wantResult)

/-- An instruction takes in a value from outside: what a name stands for, a member of a host
object, or the reply of the host to a call for a result.
-/
inductive Instruction.Takes (i : Instruction) (m : Machine) : Value → Prop
  | named {f : Frame} {outer : List Frame} {name : String} {v : Value} (opcode : i.opcode = .push)
    (scope : Scope.ofByte? i.minor = some .named) (frames : m.process.frames = f :: outer)
    (entry : (m.routineOf f).names[Exec.operand i]? = some name)
    (known : m.world.get? name = some v)
    : Takes i m v
  | member {f : Frame} {outer : List Frame} {name : String} {o : ObjectId} {rest : List Value}
    {v : Value} (opcode : i.opcode = .member) (frames : m.process.frames = f :: outer)
    (entry : (m.routineOf f).names[Exec.operand i]? = some name)
    (top : m.process.stack = .object o :: rest)
    (found : (m.world.heap.object o).getMember name = .ok v)
    : Takes i m v
  | reply {c : CallableId} {rest : List Value} {reply : HostReply} {v : Value}
    (opcode : i.opcode = .indirect) (top : m.process.stack = .callable c :: rest)
    (replies
      : m.world.heap.replyOf
          ((m.world.heap.resolve c).2 ++ (rest.take (Exec.operand i)).reverse) true
          (m.world.heap.resolve c).1 = some reply)
    (outcome : reply.outcome = .ok v)
    : Takes i m v

/-- An instruction stores a value in an array. -/
structure Instruction.Stores (i : Instruction) (m : Machine) (a : ArrayId) (v : Value) : Prop where
  opcode : i.opcode = .indirect
  op : IndirectOp.ofByte? i.minor = some .store
  array : m.process.stack[0]? = some (.array a)
  value : m.process.stack[Exec.operand i + 1]? = some v

/-- An instruction calls a callable. -/
structure Instruction.Calls (i : Instruction) (m : Machine) (c : CallableId) : Prop where
  opcode : i.opcode = .indirect
  op : IndirectOp.ofByte? i.minor ≠ some .store
  top : m.process.stack[0]? = some (.callable c)

/-- The instruction that a process executes next. -/
def Machine.next? (m : Machine) : Option Instruction :=
  m.process.frames.head?.bind fun f => (m.routineOf f).code[f.pc]?

/-- The next step takes in a value from outside. -/
def Machine.Takes (m : Machine) (v : Value) : Prop :=
  ∃ i, m.next? = some i ∧ i.Takes m v

/-- The next step stores a value in an array. -/
def Machine.Stores (m : Machine) (a : ArrayId) (v : Value) : Prop :=
  ∃ i, m.next? = some i ∧ i.Stores m a v

/-- The next step calls a callable. -/
def Machine.Calls (m : Machine) (c : CallableId) : Prop :=
  ∃ i, m.next? = some i ∧ i.Calls m c

/-- The next step stores a value in an array while the heap is still as it was before the step. -/
def Machine.Writes (m : Machine) (h : Heap) (a : ArrayId) (v : Value) : Prop :=
  h = m.world.heap ∧ m.Stores a v

open Machine

/-- What an instruction takes in does not depend on the program counter having moved past it. -/
theorem Instruction.Takes.of_moved {i : Instruction} {m : Machine} {f : Frame} {outer : List Frame}
    {pc : Nat} {v : Value} (frames : m.process.frames = f :: outer)
    (taken : i.Takes (m.withFrames ({ f with pc } :: outer)) v)
    : i.Takes m v := by
  cases taken with
  | named opcode scope moved entry known =>
      cases moved
      exact .named opcode scope frames entry known
  | member opcode moved entry top found =>
      cases moved
      exact .member opcode frames entry top found
  | reply opcode top replies outcome => exact .reply opcode top replies outcome

/-- Storing takes nothing in from outside. -/
theorem Machine.Stores.takes_nothing {m : Machine} {a : ArrayId} {v w : Value} (stores : m.Stores a v)
    : ¬ m.Takes w := by
  obtain ⟨i, next, stores⟩ := stores
  intro taken
  obtain ⟨j, same, taken⟩ := taken
  obtain rfl : i = j := Option.some.inj (next.symm.trans same)
  have opcode := stores.opcode
  have array := stores.array
  cases taken with
  | named push | member push => simp [push] at opcode
  | reply _ top => simp [top] at array

/-- What is called is on top of the operand stack. -/
theorem Machine.Calls.held {m : Machine} {c : CallableId} (calls : m.Calls c)
    : m.process.Holds m.world.heap (.callable c) := by
  obtain ⟨i, -, called⟩ := calls
  exact .inl (List.mem_of_getElem? called.top)

variable {I : Heap → Prop} {R : Value → Prop} {Writes : Heap → ArrayId → Value → Prop}
  {m m' : Machine}

namespace Machine

/-- A process may have other contents that are at home. -/
theorem Disciplined.withProcess (disciplined : m.Disciplined I R) (p : Process)
    (held : ∀ v, p.Holds m.world.heap v → m.world.heap.Owned R v)
    : ({ m with process := p } : Machine).Disciplined I R :=
  ⟨disciplined.order, held⟩

/-- Only what may be reached may be put on the operand stack. -/
theorem Disciplined.withStack (disciplined : m.Disciplined I R) {stack : List Value}
    (owned : ∀ v ∈ stack, m.world.heap.Owned R v)
    : (m.withStack stack).Disciplined I R := by
  refine disciplined.withProcess _ fun v held => ?_
  rcases held with onStack | inCall
  · exact owned v onStack
  · exact disciplined.held v (.inr inCall)

/-- The innermost call may change in all but its routine. -/
theorem Disciplined.withInnermost (disciplined : m.Disciplined I R) {f g : Frame}
    {outer : List Frame} (frames : m.process.frames = f :: outer) (routine : g.routine = f.routine)
    (locals : ∀ v ∈ g.locals, m.world.heap.Owned R v)
    : (m.withFrames (g :: outer)).Disciplined I R := by
  refine disciplined.withProcess _ fun v held => ?_
  rcases held with onStack | ⟨k, active, inCall⟩
  · exact disciplined.held v (.inl onStack)
  · rcases List.mem_cons.mp active with rfl | further
    · rcases inCall with variable_ | literal
      · exact locals v variable_
      · rw [routine] at literal
        exact disciplined.held v (.inr ⟨f, frames ▸ List.mem_cons_self, .inr literal⟩)
    · exact disciplined.held v (.inr ⟨k, frames ▸ List.mem_cons_of_mem f further, inCall⟩)

/-- The innermost call may be gone. -/
theorem Disciplined.withOuter (disciplined : m.Disciplined I R) {f : Frame} {outer : List Frame}
    (frames : m.process.frames = f :: outer)
    : (m.withFrames outer).Disciplined I R := by
  refine disciplined.withProcess _ fun v held => ?_
  rcases held with onStack | ⟨k, active, inCall⟩
  · exact disciplined.held v (.inl onStack)
  · exact disciplined.held v (.inr ⟨k, frames ▸ List.mem_cons_of_mem f active, inCall⟩)

private theorem Disciplined.literalOwned (disciplined : m.Disciplined I R) {f : Frame} {outer : List Frame}
    (frames : m.process.frames = f :: outer) {v : Value} (held : v ∈ (m.routineOf f).literals)
    : m.world.heap.Owned R v :=
  disciplined.held v (.inr ⟨f, frames ▸ List.mem_cons_self, .inr held⟩)

private theorem Disciplined.localOwned (disciplined : m.Disciplined I R) {f : Frame} {outer : List Frame}
    (frames : m.process.frames = f :: outer) {v : Value} (held : v ∈ f.locals)
    : m.world.heap.Owned R v :=
  disciplined.held v (.inr ⟨f, frames ▸ List.mem_cons_self, .inl held⟩)

/-- The world may change by what is done with values at home. -/
theorem Disciplined.withWorld [Heap.Discipline I R] (disciplined : m.Disciplined I R) {w : World}
    (edits : m.world.heap.Edits R Writes w.heap)
    : ({ m with world := w } : Machine).Disciplined I R := by
  have changes := edits.changesIn
  refine ⟨edits.order disciplined.order, fun v held => changes.owned (disciplined.held v ?_)⟩
  exact (m.process.holds_of_routines changes.routines).mp held

end Machine

namespace Exec

variable {α β : Type} {A : α → Machine → Prop} {B : β → Machine → Prop}

-----------------------------------------------------------------------------------------
-- Work that keeps to what is at home
-----------------------------------------------------------------------------------------

/-- From `m` on, the work leaves the heap in order and the process with what is at home, and changes
the heap with values at home only, whether it completes or not; and what it results in has a
property.
-/
def Confines (I : Heap → Prop) (R : Value → Prop) (Writes : Heap → ArrayId → Value → Prop)
    (A : α → Machine → Prop) (m : Machine) (x : Exec α)
    : Prop :=
  m.Disciplined I R →
    (stateOf (x.run m)).Disciplined I R
    ∧ m.world.heap.Edits R Writes (stateOf (x.run m)).world.heap
    ∧ ∀ a m', x.run m = .ok a m' → A a m'

/-- Steps that only read are confined; what they give must be shown to be within reach. -/
theorem Reads.confines {x : Exec α} (reads : Reads x)
    (result : m.Disciplined I R → ∀ a, x.run m = .ok a m → A a m)
    : Confines I R Writes A m x := by
  intro disciplined
  rw [reads m]
  refine ⟨disciplined, .refl, fun a m' done => ?_⟩
  cases reads.same done
  exact result disciplined a done

theorem Confines.pure {a : α} (result : A a m) : Confines I R Writes A m (pure a) :=
  (Reads.pure a).confines fun _ b done => by
    cases done
    exact result

/-- Nothing is asked of the result where there is none. -/
theorem no_result {e : Interruption} {m₁ : Machine} (a : α) (m' : Machine)
    (never : EStateM.Result.error e m₁ = .ok a m')
    : A a m' := by
  cases never

theorem Confines.throw (e : Interruption) : Confines I R Writes A m (throw e : Exec α) :=
  (Reads.throw e).confines fun _ a done => no_result a m done

theorem Confines.raise (f : Fault) : Confines I R Writes A m (raise f : Exec α) :=
  .throw _

/-- Confined work follows confined work, by the outcome of the first part. -/
theorem Confines.bind {x : Exec α} {f : α → Exec β} (first : Confines I R Writes A m x)
    (next
      : ∀ a m', x.run m = .ok a m' → m.world.heap.ChangesIn R m'.world.heap → A a m'
        → Confines I R Writes B m' (f a))
    : Confines I R Writes B m (x >>= f) := by
  intro disciplined
  have changes := (first disciplined).2.1.changesIn
  obtain ⟨disciplined₁, edits₁, result⟩ := first disciplined
  rw [EStateM.run_bind]
  cases done : x.run m with
  | ok a m₁ =>
      rw [done] at disciplined₁ edits₁ changes
      obtain ⟨disciplined₂, edits₂, result₂⟩ :=
        next a m₁ done changes (result a m₁ done) disciplined₁
      exact ⟨disciplined₂, edits₁.trans edits₂, result₂⟩
  | error e m₁ =>
      rw [done] at disciplined₁ edits₁
      exact ⟨disciplined₁, edits₁, no_result⟩

/-- After a look, the rest of the work starts from the same machine. -/
theorem Confines.after {x : Exec α} {f : α → Exec β} (reads : Reads x)
    (next : m.Disciplined I R → ∀ a, x.run m = .ok a m → Confines I R Writes B m (f a))
    : Confines I R Writes B m (x >>= f) := by
  intro disciplined
  refine Confines.bind (A := fun _ m' => m' = m) (reads.confines fun _ _ _ => rfl) ?_ disciplined
  intro a m' done _ same
  subst same
  exact next disciplined a done

/-- Work may count on what there is to begin with being at home. -/
theorem Confines.within {x : Exec α} (confines : m.Disciplined I R → Confines I R Writes A m x)
    : Confines I R Writes A m x :=
  fun disciplined => confines disciplined disciplined

theorem Confines.process {next : Process → Exec β}
    (confines : Confines I R Writes B m (next m.process))
    : Confines I R Writes B m (Exec.process >>= next) :=
  .after .process fun _ p found => by
    cases found
    exact confines

theorem Confines.world {next : World → Exec β}
    (confines : Confines I R Writes B m (next m.world))
    : Confines I R Writes B m (Exec.world >>= next) :=
  .after .world fun _ w found => by
    cases found
    exact confines

theorem Confines.heap {next : Heap → Exec β}
    (confines : Confines I R Writes B m (next m.world.heap))
    : Confines I R Writes B m (Exec.heap >>= next) :=
  .after .heap fun _ h found => by
    cases found
    exact confines

theorem Confines.frame {next : Frame → Exec β}
    (confines
      : ∀ f outer, m.process.frames = f :: outer → Confines I R Writes B m (next f))
    : Confines I R Writes B m (Exec.frame >>= next) :=
  .after .frame fun _ f found => by
    obtain ⟨-, outer, frames⟩ := frame_eq_ok found
    exact confines f outer frames

/-- Nothing follows where work has failed. -/
theorem Confines.raised {f : Fault} {next : α → Exec β}
    : Confines I R Writes B m (Exec.raise f >>= next) :=
  .after (.raise f) fun _ a failed => by cases failed

theorem Confines.discard {x : Exec α} (confines : Confines I R Writes A m x)
    : Confines I R Writes (fun _ _ => True) m (discard x) := by
  intro disciplined
  obtain ⟨kept, edits, -⟩ := confines disciplined
  rw [stateOf_run_discard]
  exact ⟨kept, edits, fun _ _ _ => trivial⟩

theorem Confines.map {x : Exec α} {f : α → β} (confines : Confines I R Writes A m x)
    (result : ∀ a m', A a m' → B (f a) m')
    : Confines I R Writes B m (f <$> x) := by
  intro disciplined
  obtain ⟨kept, edits, holds⟩ := confines disciplined
  rw [run_map]
  cases done : x.run m with
  | ok a m₁ =>
      rw [done] at kept edits
      refine ⟨kept, edits, fun b m' same => ?_⟩
      cases same
      exact result a m₁ (holds a m₁ done)
  | error e m₁ =>
      rw [done] at kept edits
      exact ⟨kept, edits, no_result⟩

/-- The value that some work results in is at home. -/
abbrev Yields (R : Value → Prop) (v : Value) (m : Machine) : Prop :=
  m.world.heap.Owned R v

/-- Nothing is said about the result of some work. -/
abbrev Any (_ : α) (_ : Machine) : Prop :=
  True

-----------------------------------------------------------------------------------------
-- The operand stack and the innermost call
-----------------------------------------------------------------------------------------

/-- What is within reach may be pushed. -/
theorem confines_push {v : Value} (owned : m.world.heap.Owned R v)
    : Confines I R Writes Any m (push v) := by
  intro disciplined
  rcases push_cases v m with ⟨-, done⟩ | ⟨-, done⟩
  · rw [done]
    refine ⟨disciplined.withStack ?_, .refl, fun _ _ _ => trivial⟩
    exact List.forall_mem_cons.mpr ⟨owned, fun w below => disciplined.held w (.inl below)⟩
  · rw [done]
    exact ⟨disciplined, .refl, fun _ _ _ => trivial⟩

private theorem confines_pop (m : Machine) : Confines I R Writes (Yields R) m pop := by
  intro disciplined
  cases done : pop.run m with
  | ok v m₁ =>
      obtain ⟨rest, stack, -, rfl⟩ := pop_eq_ok done
      have owned : ∀ w ∈ v :: rest, m.world.heap.Owned R w := fun w onStack =>
        disciplined.held w (.inl (stack ▸ onStack))
      refine ⟨disciplined.withStack (List.forall_mem_cons.mp owned).2, .refl, fun w m' same => ?_⟩
      cases same
      exact owned _ List.mem_cons_self
  | error e m₁ =>
      rw [pop_eq_error done]
      exact ⟨disciplined, .refl, no_result⟩

private theorem confines_popMany (count : Nat) (m : Machine)
    : Confines I R Writes (fun vs m' => ∀ v ∈ vs, Yields R v m') m (popMany count) := by
  intro disciplined
  have owned : ∀ v ∈ m.process.stack, m.world.heap.Owned R v := fun v onStack =>
    disciplined.held v (.inl onStack)
  rcases popMany_cases count m with ⟨-, done⟩ | ⟨-, f, done⟩
  · rw [done]
    refine ⟨disciplined.withStack fun v below => owned v (List.mem_of_mem_drop below), .refl, ?_⟩
    intro vs m' same v member
    cases same
    exact owned v (List.mem_of_mem_take (List.mem_reverse.mp member))
  · rw [done]
    exact ⟨disciplined, .refl, no_result⟩

private theorem confines_peek (depth : Nat) (m : Machine)
    : Confines I R Writes (Yields R) m (peek depth) :=
  (Reads.peek depth).confines fun disciplined v done => by
    obtain ⟨-, found, -⟩ := peek_eq_ok done
    exact disciplined.held v (.inl (List.mem_of_getElem? found))

/-- Changing the innermost call that was found brings in nothing if its routine is the same. -/
theorem confines_setFrame {f g : Frame} {outer : List Frame}
    (frames : m.process.frames = f :: outer) (routine : g.routine = f.routine)
    (locals : m.Disciplined I R → ∀ v ∈ g.locals, m.world.heap.Owned R v)
    : Confines I R Writes Any m (setFrame g) := by
  intro disciplined
  rw [run_setFrame frames]
  exact ⟨disciplined.withInnermost frames routine (locals disciplined), .refl, fun _ _ _ => trivial⟩

private theorem confines_setLocal (index : Nat) {v : Value} (owned : m.world.heap.Owned R v)
    : Confines I R Writes Any m (setLocal index v) := by
  refine .frame fun f outer frames => ?_
  split
  · refine confines_setFrame frames rfl fun disciplined w member => ?_
    rcases Array.mem_or_eq_of_mem_setIfInBounds member with held | rfl
    · exact disciplined.localOwned frames held
    · exact owned
  · exact .raise _

-----------------------------------------------------------------------------------------
-- The heap and the calls
-----------------------------------------------------------------------------------------

variable [Heap.Discipline I R]

private theorem confines_push_bare {v : Value} (bare : Heap.Bare v)
    : Confines I R Writes Any m (push v) :=
  fun disciplined => confines_push (Heap.owned_bare disciplined.order bare) disciplined

/-- A world may be put in place whose heap arises by edits that are allowed. -/
theorem confines_setWorld {w : World} (edits : m.world.heap.Edits R Writes w.heap)
    : Confines I R Writes Any m (setWorld w) :=
  fun disciplined => ⟨disciplined.withWorld edits, edits, fun _ _ _ => trivial⟩

private theorem confines_setHeap {h : Heap} (edits : m.world.heap.Edits R Writes h)
    : Confines I R Writes Any m (setHeap h) :=
  fun disciplined => ⟨disciplined.withWorld edits, edits, fun _ _ _ => trivial⟩

/-- A global is set to a copy of a value. -/
theorem confines_setGlobal (name : String) {v : Value} (owned : m.world.heap.Owned R v)
    : Confines I R Writes Any m (setGlobal name v) := by
  refine .within fun disciplined => .world ?_
  cases done : m.world.set name v with
  | some w =>
      obtain ⟨⟨h, v'⟩, copies, rfl⟩ := Option.map_eq_some_iff.mp done
      obtain ⟨P, encloses, shares, within⟩ := Heap.Discipline.copies (R := R) disciplined.order
      exact confines_setWorld (.single (.copy encloses shares (within v owned) copies))
  | none => exact .throw .endless

/-- The variables of a call are its arguments, nulls, and the surplus. -/
theorem mem_localsFor {r : Routine} {args : List Value} {surplus : Option Value} {v : Value}
    (member : v ∈ localsFor r args surplus)
    : v ∈ args ∨ v = .null ∨ surplus = some v := by
  simp only [localsFor, List.mem_toArray, List.mem_append, List.mem_replicate,
    Option.mem_toList] at member
  rcases member with ((given | ⟨-, missing⟩) | collected) | ⟨-, further⟩
  · exact .inl (List.mem_of_mem_take given)
  · exact .inr (.inl missing)
  · exact .inr (.inr collected)
  · exact .inr (.inl further)

/-- Entering a routine puts its arguments into variables, and its literals in reach. -/
theorem confines_enter {r : RoutineId} {args : List Value} (wantResult : Bool)
    (argsOwned : ∀ v ∈ args, m.world.heap.Owned R v)
    (literalsOwned : ∀ v ∈ (m.world.heap.routine r).literals, m.world.heap.Owned R v)
    : Confines I R Writes Any m (enter r args wantResult) := by
  refine .process ?_
  dsimp only
  split
  · exact .raised
  refine .heap ?_
  split
  · exact .raised
  have entered (m₁ : Machine) (process : m₁.process = m.process)
      (changes : m.world.heap.ChangesIn R m₁.world.heap) (surplus : Option Value)
      (surplusOwned : ∀ v ∈ surplus, m₁.world.heap.Owned R v)
      : Confines I R Writes Any m₁
          (setProcess
            { m.process with
              frames :=
                { routine := r, pc := 0,
                  locals := localsFor (m.world.heap.routine r) args surplus, handlers := [],
                  wantResult, stackBase := m.process.stack.length } :: m.process.frames }) := by
    intro disciplined
    refine ⟨disciplined.withProcess _ fun v held => ?_, .refl, fun _ _ _ => trivial⟩
    rw [← process] at held
    rcases held with onStack | ⟨f, active, inCall⟩
    · exact disciplined.held v (.inl onStack)
    rcases List.mem_cons.mp active with rfl | further
    · rcases inCall with variable_ | literal
      · rcases mem_localsFor variable_ with given | rfl | collected
        · exact changes.owned (argsOwned v given)
        · exact Heap.owned_bare disciplined.order fun _ => trivial
        · exact surplusOwned v collected
      · rw [Heap.routine, changes.routines] at literal
        exact changes.owned (literalsOwned v literal)
    · exact disciplined.held v (.inr ⟨f, further, inCall⟩)
  split
  · have row : ∀ v ∈ (Grid.row (args.drop (m.world.heap.routine r).maxArgs)).cells,
        m.world.heap.Owned R v := fun v member =>
      argsOwned v (List.mem_of_mem_drop (List.mem_toArray.mp member))
    intro disciplined
    have collected : (m.world.heap.addArray _).1.Owned R _ :=
      Heap.owned_addArray disciplined.order (Grid.row (args.drop (m.world.heap.routine r).maxArgs))
    refine Confines.bind (confines_setHeap (.single (.array row))) ?_ disciplined
    intro _ m₁ done changes _
    have process : m₁.process = m.process := by
      cases done
      rfl
    refine .after (.pure _) fun _ surplus found => entered m₁ process changes surplus ?_
    cases found
    intro v same
    cases same
    cases done
    exact collected
  · refine .after (.pure none) fun _ surplus found => entered m rfl (.refl R _) surplus ?_
    cases found
    simp

/-- What the host replies comes to the process if it asked for a result. -/
theorem confines_accept {reply : HostReply} {wantResult : Bool}
    (owned : wantResult = true → ∀ v, reply.outcome = .ok v → m.world.heap.Owned R v)
    : Confines I R Writes Any m (accept reply wantResult) := by
  refine .world (.bind (confines_setWorld .refl) fun _ m₁ done changes _ => ?_)
  refine .after (.lift _) fun _ v outcome => ?_
  split
  · rename_i wanted
    exact confines_push (changes.owned (owned wanted v (lift_eq_ok outcome)))
  · exact .pure trivial

/-- The literals of a routine that is entered come within reach, and what the host replies with must
be.
-/
theorem confines_callCallee {args : List Value} {wantResult : Bool} {callee : Callee}
    (argsOwned : ∀ v ∈ args, m.world.heap.Owned R v)
    (literalsOwned
      : ∀ r, callee = .subroutine r
        → ∀ v ∈ (m.world.heap.routine r).literals, m.world.heap.Owned R v)
    (repliesOwned
      : wantResult = true → ∀ reply, m.world.heap.replyOf args true callee = some reply
        → ∀ v, reply.outcome = .ok v → m.world.heap.Owned R v)
    : Confines I R Writes Any m (callCallee args wantResult callee) := by
  cases callee with
  | subroutine r =>
      refine .heap ?_
      dsimp only
      split
      · exact .raised
      · exact confines_enter wantResult argsOwned (literalsOwned r rfl)
  | native f =>
      simp only [callCallee]
      split
      · exact .raised
      split
      · exact .raised
      exact .heap (confines_accept fun wanted => repliesOwned wanted _ rfl)
  | hosted c =>
      refine .heap (confines_accept fun wanted => ?_)
      subst wanted
      exact repliesOwned rfl _ rfl

/-- A call brings within reach what the chain of closures binds, and what the callee gives. -/
theorem confines_call {c : CallableId} {args : List Value} {wantResult : Bool}
    (opens : m.world.heap.Opens R c) (argsOwned : ∀ v ∈ args, m.world.heap.Owned R v)
    (repliesOwned
      : wantResult = true
        → ∀ reply, m.world.heap.replyOf ((m.world.heap.resolve c).2 ++ args) true
            (m.world.heap.resolve c).1 = some reply
        → ∀ v, reply.outcome = .ok v → m.world.heap.Owned R v)
    : Confines I R Writes Any m (call c args wantResult) := by
  refine .heap (confines_callCallee ?_ opens.literals repliesOwned)
  intro v member
  rcases List.mem_append.mp member with bound | given
  · exact opens.bound v bound
  · exact argsOwned v given

/-- Binding values makes copies of them and nothing else, also where it fails half way, by
induction on the values.
-/
theorem edits_bindAll {values : List Value} {h : Heap} {c : Closure} (order : I h)
    (owned : ∀ v ∈ values, h.Owned R v) (boundOwned : ∀ v ∈ c.bound, h.Owned R v)
    : h.Edits R Writes (stateOf ((Closure.bindAll values).run (h, c))).1
      ∧ (stateOf ((Closure.bindAll values).run (h, c))).2.base = c.base
      ∧ ∀ v ∈ (stateOf ((Closure.bindAll values).run (h, c))).2.bound,
          (stateOf ((Closure.bindAll values).run (h, c))).1.Owned R v := by
  induction values generalizing h c with
  | nil => exact ⟨.refl, rfl, boundOwned⟩
  | cons v rest ih =>
      obtain ⟨first, others⟩ := List.forall_mem_cons.mp owned
      simp only [Closure.bindAll, EStateM.run_bind]
      rcases Closure.run_bind_cases v h c with ⟨fault, failed⟩ | ⟨h', v', copies, ran⟩
      · rw [failed]
        exact ⟨.refl, rfl, boundOwned⟩
      · rw [ran]
        obtain ⟨P, encloses, shares, within⟩ := Heap.Discipline.copies (R := R) order
        have copied : h.Edit R Writes h' := .copy encloses shares (within v first) copies
        obtain ⟨kept, order, made⟩ := Heap.made_copy order encloses shares (within v first) copies
        have bound : ∀ w ∈ c.bound ++ [v'], h'.Owned R w := by
          refine List.forall_mem_append.mpr ⟨?_, List.forall_mem_singleton.mpr made⟩
          exact fun w before => kept.owned (boundOwned w before)
        obtain ⟨edits, base, result⟩ :=
          @ih h' { c with bound := c.bound ++ [v'] } order
            (fun w later => kept.owned (others w later)) bound
        exact ⟨edits.head copied, base, result⟩

/-- The closure that is made is within reach, as its base and what it binds are. -/
theorem confines_makeClosure {base : CallableId} {values : List Value}
    (baseOwned : m.world.heap.Owned R (.callable base))
    (owned : ∀ v ∈ values, m.world.heap.Owned R v)
    : Confines I R Writes (Yields R) m (makeClosure base values) := by
  refine .within fun disciplined => .heap ?_
  have all : Closure.bindLast values values.length = Closure.bindAll values := by
    simp [Closure.bindLast]
  rw [all]
  obtain ⟨edits, same, bound⟩ :=
    @edits_bindAll _ _ Writes _ _ _ ⟨base, []⟩ disciplined.order owned (List.forall_mem_nil _)
  cases done : (Closure.bindAll values).run (m.world.heap, ⟨base, []⟩) with
  | ok u s =>
      rw [done] at edits same bound
      obtain ⟨h, c⟩ := s
      obtain rfl : c.base = base := same
      have baseOwned := edits.changesIn.owned baseOwned
      have made : (h.addCallable (.closure c.base c.bound)).1.Owned R _ :=
        Heap.owned_addCallable (edits.order disciplined.order) _
      have all := edits.tail (.closure baseOwned bound)
      refine .bind (confines_setHeap all) fun _ m₁ done _ _ => ?_
      cases done
      exact .pure made
  | error e s =>
      rw [done] at edits
      exact .bind (confines_setHeap edits) fun _ m₁ _ _ _ => .throw e

-----------------------------------------------------------------------------------------
-- The families of instructions
-----------------------------------------------------------------------------------------

variable {i : Instruction}

private theorem confines_pushFrom (opcode : i.opcode = .push)
    (takes : ∀ v, i.Takes m v → m.world.heap.Owned R v)
    : Confines I R Writes Any m (pushFrom i) := by
  refine .after (.known i _) fun _ scope found => ?_
  have meant := known_eq_ok found
  cases scope with
  | localSlot =>
      refine .after (.localAt _) fun disciplined v found => ?_
      obtain ⟨f, outer, frames, entry⟩ := localAt_eq_ok found
      exact confines_push (disciplined.localOwned frames (Array.mem_of_getElem? entry))
  | literal =>
      refine .after (.literalAt _) fun disciplined v found => ?_
      obtain ⟨f, outer, frames, entry⟩ := literalAt_eq_ok found
      exact confines_push (disciplined.literalOwned frames (Array.mem_of_getElem? entry))
  | integer =>
      refine .after (.pure _) fun _ v found => ?_
      cases found
      exact confines_push_bare fun _ => trivial
  | boolean =>
      refine .after (.pure _) fun _ v found => ?_
      cases found
      refine confines_push_bare (Heap.bare_of_not_handle ?_)
      unfold booleanOperand
      split <;> exact id
  | named =>
      refine .after (.nameAt _) fun _ name found => ?_
      obtain ⟨f, outer, frames, entry⟩ := nameAt_eq_ok found
      refine .after (.global name) fun _ v found => ?_
      exact confines_push (takes v (.named opcode meant frames entry (global_eq_ok found)))

private theorem confines_assign (i : Instruction) {v : Value} (owned : m.world.heap.Owned R v)
    : Confines I R Writes Any m (assign i v) := by
  refine .after (.known i _) fun _ scope _ => ?_
  cases scope with
  | localSlot => exact confines_setLocal _ owned
  | named => exact .after (.nameAt _) fun _ name _ => confines_setGlobal name owned
  | literal | integer | boolean => exact .raise _

private theorem confines_binary (i : Instruction) (m : Machine)
    : Confines I R Writes Any m (binary i) := by
  refine .after (.known i _) fun _ op _ => ?_
  refine .bind (confines_pop m) fun b m₁ _ _ right => ?_
  refine .bind (confines_pop m₁) fun a m₂ _ changes left => ?_
  have right := changes.owned right
  refine .heap (.after (.lift _) fun disciplined v applied => confines_push ?_)
  rcases BinaryOp.result_of_apply (lift_eq_ok applied) with plain | rfl | rfl
  · exact Heap.owned_bare disciplined.order (Heap.bare_of_not_handle plain)
  · exact left
  · exact right

private theorem confines_unary (i : Instruction) (m : Machine)
    : Confines I R Writes Any m (unary i) := by
  refine .after (.known i _) fun _ op _ => ?_
  refine .bind (confines_pop m) fun a m₁ _ _ _ => ?_
  refine .heap (.after (.lift _) fun _ v applied => ?_)
  have plain := UnaryOp.not_handle_of_apply (lift_eq_ok applied)
  exact confines_push_bare (Heap.bare_of_not_handle plain)

omit [Heap.Discipline I R] in
private theorem confines_jump (i : Instruction) (m : Machine)
    : Confines I R Writes Any m (jump i) := by
  simp only [jump]
  split
  · exact .raised
  refine .after .currentRoutine fun _ routine _ => ?_
  split
  · exact .raised
  split
  · refine .frame fun f outer frames => .process ?_
    exact confines_setFrame frames rfl fun disciplined v => disciplined.localOwned frames
  refine .after (.isTaken i) fun _ taken _ => ?_
  have goes (m₂ : Machine)
      : Confines I R Writes Any m₂ (if taken = true then do
          let f ← Exec.frame
          setFrame { f with pc := operand i }
        else Pure.pure ()) := by
    split
    · refine .frame fun f outer frames => ?_
      exact confines_setFrame frames rfl fun disciplined v => disciplined.localOwned frames
    · exact .pure trivial
  split
  · exact .bind (confines_pop m).discard fun _ m₂ _ _ _ => goes m₂
  · exact goes m

private theorem confines_readElement {a : ArrayId} (indexes : List Value)
    (owned : m.world.heap.Owned R (.array a))
    : Confines I R Writes Any m (readElement a indexes) := by
  refine .heap (.after (.lift _) fun disciplined v read => confines_push ?_)
  rcases Grid.get_eq_ok (lift_eq_ok read) with held | rfl
  · exact Heap.Discipline.cells disciplined.order owned.1 v held
  · exact Heap.owned_bare disciplined.order fun _ => trivial

/-- The one step that changes an array: it must be allowed to, and what it writes must be within
reach.
-/
theorem confines_writeElement {a : ArrayId} (indexes : List Value) {v : Value}
    (arrayOwned : m.world.heap.Owned R (.array a)) (owned : m.world.heap.Owned R v)
    (writes : Writes m.world.heap a v)
    : Confines I R Writes Any m (writeElement a indexes v) := by
  refine .heap (.after (.lift _) fun _ g written => confines_setHeap (.single ?_))
  exact .write arrayOwned owned writes (lift_eq_ok written)

/-- Calling and indexing: a call for a result takes in the reply of the host, and the other values
come from what is called or indexed.
-/
theorem confines_indirect (opcode : i.opcode = .indirect)
    (takes : ∀ v, i.Takes m v → m.world.heap.Owned R v)
    (calls : ∀ c, i.Calls m c → m.world.heap.Opens R c)
    (stores : ∀ a v, i.Stores m a v → Writes m.world.heap a v)
    : Confines I R Writes Any m (indirect i) := by
  refine .after (.known i _) fun _ op found => ?_
  have meant := known_eq_ok found
  refine .bind (confines_pop m) fun callee m₁ popped _ owned => ?_
  obtain ⟨rest, stack, -, rfl⟩ := pop_eq_ok popped
  refine .bind (confines_popMany (operand i) _) fun args m₂ popped _ argsOwned => ?_
  obtain ⟨rfl, rfl⟩ := popMany_eq_ok popped
  have top : m.process.stack[0]? = some callee := by rw [stack, List.getElem?_cons_zero]
  split
  · refine confines_call (calls _ ⟨opcode, by simp [meant], top⟩) argsOwned fun never => ?_
    exact absurd never Bool.false_ne_true
  · exact confines_call (calls _ ⟨opcode, by simp [meant], top⟩) argsOwned
      fun _ reply replies v outcome => takes v (.reply opcode stack replies outcome)
  · exact confines_call (calls _ ⟨opcode, by simp [meant], top⟩) argsOwned
      fun _ reply replies v outcome => takes v (.reply opcode stack replies outcome)
  · exact confines_readElement _ owned
  · exact confines_readElement _ owned
  · exact confines_push_bare fun _ => trivial
  · exact confines_push_bare fun _ => trivial
  · rename_i a
    refine .bind (confines_pop _) fun v m₃ popped _ valueOwned => ?_
    obtain ⟨below, split, -, rfl⟩ := pop_eq_ok popped
    refine confines_writeElement _ owned valueOwned (stores a v ⟨opcode, meant, ?_, ?_⟩)
    · rw [stack, List.getElem?_cons_zero]
    · have split : rest.drop (operand i) = v :: below := split
      have value : (rest.drop (operand i))[0]? = rest[operand i]? := List.getElem?_drop
      rw [split] at value
      rw [stack, List.getElem?_cons_succ]
      exact value.symm
  · exact .heap (.raise _)
  · exact .raise _

/-- What comes from a member is within reach as something that the instruction takes. -/
theorem confines_member (opcode : i.opcode = .member)
    (takes : ∀ v, i.Takes m v → m.world.heap.Owned R v)
    : Confines I R Writes Any m (member i) := by
  refine .after (.nameAt _) fun _ name found => ?_
  obtain ⟨f, outer, frames, entry⟩ := nameAt_eq_ok found
  refine .bind (confines_pop m) fun object m₁ popped _ _ => ?_
  obtain ⟨rest, stack, -, rfl⟩ := pop_eq_ok popped
  refine .after (.known i _) fun _ op _ => ?_
  split
  · refine .heap (.after (.lift _) fun _ v got => confines_push ?_)
    exact takes v (.member opcode frames entry stack (lift_eq_ok got))
  · exact confines_push_bare fun _ => trivial
  · exact .raise _
  · refine .bind (confines_pop _) fun v m₂ _ _ _ => ?_
    split
    · exact .heap (.after (.lift _) fun _ object _ => confines_setHeap (.single (.object _ object)))
    · exact .raise _

omit [Heap.Discipline I R] in
private theorem confines_rearrange (i : Instruction) (m : Machine)
    : Confines I R Writes Any m (rearrange i) := by
  refine .after (.known i _) fun _ op _ => ?_
  have looked (depth : Nat) (disciplined : m.Disciplined I R) (v : Value)
      (found : (peek depth).run m = .ok v m)
      : m.world.heap.Owned R v := by
    obtain ⟨-, there, -⟩ := peek_eq_ok found
    exact disciplined.held v (.inl (List.mem_of_getElem? there))
  cases op with
  | dup =>
      refine .after (.peek _) fun disciplined v found => ?_
      exact confines_push (looked _ disciplined v found)
  | drop => exact (confines_popMany _ m).discard
  | swap =>
      refine .after (.peek _) fun disciplined lower found => ?_
      have lowerOwned := looked _ disciplined lower found
      refine .after (.peek _) fun disciplined upper found => ?_
      have upperOwned := looked _ disciplined upper found
      refine .process fun disciplined => ?_
      refine ⟨disciplined.withStack fun v member => ?_, .refl, fun _ _ _ => trivial⟩
      rcases List.mem_or_eq_of_mem_set member with member | rfl
      · rcases List.mem_or_eq_of_mem_set member with before | rfl
        · exact disciplined.held v (.inl before)
        · exact lowerOwned
      · exact upperOwned

private theorem confines_newArray (dims : List Nat) (m : Machine)
    : Confines I R Writes Any m (newArray dims) := by
  refine .after (.lift _) fun disciplined g made => .heap ?_
  have nulls : ∀ w ∈ g.cells, m.world.heap.Owned R w := by
    intro w member
    rw [Grid.cells_of_new (lift_eq_ok made) member]
    exact Heap.owned_bare disciplined.order fun _ => trivial
  refine .bind (confines_setHeap (.single (.array nulls))) fun _ m₁ done _ _ => ?_
  cases done
  exact confines_push (Heap.owned_addArray disciplined.order g)

private theorem confines_bindTop (count : Nat) (m : Machine)
    : Confines I R Writes Any m (bindTop count) := by
  refine .bind (confines_pop m) fun v m₁ _ _ owned => ?_
  split
  · refine .bind (confines_popMany _ m₁) fun values m₂ _ changes valuesOwned => ?_
    refine .bind (confines_makeClosure (changes.owned owned) valuesOwned) fun v m₃ _ _ made => ?_
    exact confines_push made
  · exact .raise _

omit [Heap.Discipline I R] in
private theorem confines_uncatch (m : Machine)
    : Confines I R Writes Any m uncatch := by
  refine .frame fun f outer frames => ?_
  split
  · exact confines_setFrame frames rfl fun disciplined v => disciplined.localOwned frames
  · exact .raise _

/-- Leaving a call hands its value on, if there is one, by the ways in which a call is left. -/
theorem confines_leave {v : Option Value} (owned : ∀ w ∈ v, m.world.heap.Owned R w)
    : Confines I R Writes Any m (leave v) := by
  intro disciplined
  cases frames : m.process.frames with
  | nil =>
      have failed : (leave v).run m = .error (.fault (.internal "return without frame")) m := by
        simp [leave, process, frames, raise, run_throw]
      rw [failed]
      exact ⟨disciplined, .refl, no_result⟩
  | cons f outer =>
      have left := leave_left frames v
      have below : ∀ w ∈ Process.cut m.process.stack f.stackBase, m.world.heap.Owned R w :=
        fun w member => disciplined.held w (.inl (List.mem_of_mem_drop member))
      have caller := disciplined.withOuter frames
      have handed : m.world.heap.Owned R (v.getD .null) := by
        cases v with
        | none => exact Heap.owned_bare disciplined.order fun _ => trivial
        | some w => exact owned w rfl
      generalize (leave v).run m = result at left
      cases left with
      | outermost alone =>
          subst alone
          have kept := caller.withStack below
          exact ⟨⟨kept.order, kept.held⟩, .refl, fun _ _ _ => trivial⟩
      | dropped => exact ⟨caller.withStack below, .refl, fun _ _ _ => trivial⟩
      | handed =>
          exact ⟨caller.withStack (List.forall_mem_cons.mpr ⟨handed, below⟩), .refl,
            fun _ _ _ => trivial⟩
      | overflowed => exact ⟨caller.withStack below, .refl, fun _ _ _ => trivial⟩

private theorem confines_special (i : Instruction) (m : Machine)
    : Confines I R Writes Any m (special i) := by
  refine .after (.known i _) fun _ op _ => ?_
  cases op with
  | uncatch => exact .bind (confines_uncatch m) fun _ m' _ _ _ => .pure trivial
  | leave =>
      dsimp only
      split
      · refine .bind ((confines_pop m).map fun v m' owned w same => ?_)
          fun v m' _ _ owned => confines_leave owned
        cases same
        exact owned
      · exact confines_leave (by simp)
  | throw =>
      refine .bind (confines_pop m) fun v m₁ _ _ _ => ?_
      exact .heap (.raise _)
  | terminate | suspend => exact .pure trivial
  | wait => exact .heap (.after (.literalAt _) fun _ _ _ => .pure trivial)
  | bind => exact .bind (confines_bindTop _ m) fun _ m' _ _ _ => .pure trivial
  | newArray =>
      refine .bind (confines_popMany _ m) fun values m₁ _ _ _ => ?_
      refine .after (.mapM .dimension values) fun _ dims _ => ?_
      exact .bind (confines_newArray dims m₁) fun _ m' _ _ _ => .pure trivial

/-- An instruction keeps to what is at home if all is that it takes in from outside and that is
behind what it calls, by the family of the instruction.
-/
theorem confines_execute (takes : ∀ v, i.Takes m v → m.world.heap.Owned R v)
    (calls : ∀ c, i.Calls m c → m.world.heap.Opens R c)
    (stores : ∀ a v, i.Stores m a v → Writes m.world.heap a v)
    : Confines I R Writes Any m (execute i) := by
  have first (x : Exec Unit) (confines : Confines I R Writes Any m x)
      : Confines I R Writes Any m (do x; return Signal.next) :=
    .bind confines fun _ m' _ _ _ => .pure trivial
  unfold execute
  cases opcode : i.opcode with
  | push => exact first _ (confines_pushFrom opcode takes)
  | pop =>
      refine .bind (confines_pop m) fun v m₁ _ _ owned => ?_
      exact .bind (confines_assign i owned) fun _ m' _ _ _ => .pure trivial
  | store =>
      refine .bind (confines_peek 0 m) fun v m₁ _ _ owned => ?_
      exact .bind (confines_assign i owned) fun _ m' _ _ _ => .pure trivial
  | binary => exact first _ (confines_binary i m)
  | unary => exact first _ (confines_unary i m)
  | jump => exact first _ (confines_jump i m)
  | indirect => exact first _ (confines_indirect opcode takes calls stores)
  | member => exact first _ (confines_member opcode takes)
  | stack => exact first _ (confines_rearrange i m)
  | special => exact confines_special i m

-----------------------------------------------------------------------------------------
-- Steps and what else happens to a process
-----------------------------------------------------------------------------------------

/-- One step keeps to what is at home if all is that it takes in from outside and that is behind
what it calls.
-/
theorem confines_step (takes : ∀ v, m.Takes v → m.world.heap.Owned R v)
    (calls : ∀ c, m.Calls c → m.world.heap.Opens R c)
    : Confines I R m.Writes Any m step := by
  intro disciplined
  cases frames : m.process.frames with
  | nil =>
      rw [run_step_nil frames]
      exact ⟨disciplined, .refl, fun _ _ _ => trivial⟩
  | cons f outer =>
      rw [run_step frames]
      cases code : (m.routineOf f).code[f.pc]? with
      | some i =>
          have next : m.next? = some i := by simp [Machine.next?, frames, code]
          have moved := disciplined.withInnermost (g := { f with pc := f.pc + 1 }) frames rfl
            fun v => disciplined.localOwned frames
          refine confines_execute (fun v taken => ?_) (fun c called => ?_) (fun a v stores => ?_)
            moved
          · exact takes v ⟨i, next, taken.of_moved frames⟩
          · exact calls c ⟨i, next, called.opcode, called.op, called.top⟩
          · exact ⟨rfl, i, next, stores.opcode, stores.op, stores.array, stores.value⟩
      | none =>
          dsimp only
          split
          · exact confines_leave (by simp) disciplined
          · exact ⟨disciplined, .refl, no_result⟩

/-- A process that is started holds copies of its arguments, which share with these only what is at
home.
-/
theorem confines_start {P : Value → Prop} {r : RoutineId} {args : List Value}
    (encloses : m.world.heap.Encloses P) (shares : m.world.heap.Shares P R)
    (within : ∀ v ∈ args, P v)
    (literalsOwned : ∀ v ∈ (m.world.heap.routine r).literals, m.world.heap.Owned R v)
    : Confines I R Writes Any m (start r args) := by
  refine .process ?_
  dsimp only
  split
  · exact .raised
  refine .within fun disciplined => .heap ?_
  cases copies : m.world.heap.copyList args with
  | some result =>
      obtain ⟨h, copied⟩ := result
      obtain ⟨edits, owned⟩ := Heap.edits_copyList disciplined.order encloses shares within copies
      refine .bind (confines_setHeap edits) fun _ m₁ done changes _ => ?_
      have same := changes.routines
      cases done
      refine confines_enter false owned fun v held => changes.owned (literalsOwned v ?_)
      rwa [Heap.routine, same] at held
  | none => exact .throw .endless

end Exec

namespace Machine

/-- A fault leaves the process with values that it had, and with a text. -/
theorem Disciplined.raise [Heap.Discipline I R] (disciplined : m.Disciplined I R) (fault : Fault)
    : ({ m with process := m.process.raise fault } : Machine).Disciplined I R := by
  rcases m.process.raise_cases fault with
    ⟨-, inner, f, outer, handler, handlers, split, -, -, raised⟩ | raised
  · rw [raised]
    refine disciplined.withProcess _ fun v held => ?_
    rcases held with onStack | ⟨k, active, inCall⟩
    · rcases List.mem_cons.mp onStack with rfl | kept
      · exact Heap.owned_bare disciplined.order fun _ => trivial
      · exact disciplined.held v (.inl (List.mem_of_mem_drop kept))
    · rcases List.mem_cons.mp active with rfl | further
      · exact disciplined.held v (.inr ⟨f, by simp [split], inCall⟩)
      · exact disciplined.held v (.inr ⟨k, by simp [split, further], inCall⟩)
  · rw [raised]
    exact disciplined.withProcess _ disciplined.held

/-- A process that has dropped everything holds nothing. -/
theorem Disciplined.release (disciplined : m.Disciplined I R) (state : ProcessState)
    : ({ m with process := { m.process.release with state } } : Machine).Disciplined I R := by
  refine disciplined.withProcess _ fun v held => ?_
  rcases held with onStack | ⟨f, active, -⟩
  · cases onStack
  · cases active

/-- What a signal asks for hands on nothing but what the process has. -/
theorem Disciplined.obey (disciplined : m.Disciplined I R) (signal : Signal)
    : (m.obey signal).Disciplined I R := by
  cases signal with
  | next => exact disciplined
  | suspend | wait => exact disciplined.withProcess _ disciplined.held
  | terminate | ended => exact disciplined.release _

/-- One step and what follows from it keep to what is at home if all is that is taken in from
outside and that is behind what is called.
-/
theorem Disciplined.advance [Heap.Discipline I R] (disciplined : m.Disciplined I R)
    (takes : ∀ v, m.Takes v → m.world.heap.Owned R v)
    (calls : ∀ c, m.Calls c → m.world.heap.Opens R c)
    : m.advance.Disciplined I R ∧ m.world.heap.Edits R m.Writes m.advance.world.heap := by
  obtain ⟨kept, edits, -⟩ := Exec.confines_step takes calls disciplined
  unfold Machine.advance
  cases done : Exec.step.run m with
  | ok signal m₁ =>
      rw [done] at kept edits
      refine ⟨Disciplined.obey kept signal, ?_⟩
      cases signal <;> exact edits
  | error interruption m₁ =>
      rw [done] at kept edits
      cases interruption with
      | fault fault => exact ⟨Disciplined.raise kept fault, edits⟩
      | endless => exact ⟨disciplined, .refl⟩

theorem Disciplined.begin [Heap.Discipline I R] (disciplined : m.Disciplined I R)
    : ({ m with process := m.process.begin } : Machine).Disciplined I R := by
  unfold Process.begin
  dsimp only
  cases m.process.pendingFault with
  | none => exact disciplined.withProcess _ disciplined.held
  | some fault =>
      have running : ({ m with process :=
          { m.process with state := .running, pendingFault := none } } : Machine).Disciplined I R :=
        disciplined.withProcess _ disciplined.held
      exact running.raise fault

theorem Disciplined.wake (disciplined : m.Disciplined I R) {p : Process}
    (accepted : m.process.wake = .ok p)
    : ({ m with process := p } : Machine).Disciplined I R := by
  obtain ⟨-, rfl⟩ := Process.wake_eq_ok.mp accepted
  exact disciplined.withProcess _ disciplined.held

/-- A process may be resumed with what is within its reach. -/
theorem Disciplined.resume (disciplined : m.Disciplined I R) {v : Value}
    (owned : m.world.heap.Owned R v) {p : Process} (accepted : m.process.resume v = .ok p)
    : ({ m with process := p } : Machine).Disciplined I R := by
  obtain ⟨-, ⟨-, rfl⟩ | ⟨-, rfl⟩⟩ := Process.resume_eq_ok.mp accepted
  · refine disciplined.withProcess _ fun w held => ?_
    rcases held with onStack | inCall
    · rcases List.mem_cons.mp onStack with rfl | below
      · exact owned
      · exact disciplined.held w (.inl below)
    · exact disciplined.held w (.inr inCall)
  · exact disciplined.withProcess _ disciplined.held

end Machine
end TaskMachine

import Mathlib.Data.List.Forall2
import TaskMachine.Proofs.Codec.Items
import TaskMachine.Proofs.Heap.Reach

/-!
Parts of two heaps with the same shape. Arrays and routines are paired one to one, and whatever a
pair holds corresponds in turn, so what is shared or refers to itself in one heap does so in the
other. Processes that hold corresponding values then lead to corresponding values only.
-/

namespace TaskMachine

/-- Which arrays and which routines of two heaps belong together. -/
structure Pairing where
  arrays : ArrayId → ArrayId → Prop
  routines : RoutineId → RoutineId → Prop

namespace Pairing

/-- The same pairs, seen from the other heap. -/
def swap (pairing : Pairing) : Pairing :=
  ⟨fun a' a => pairing.arrays a a', fun r' r => pairing.routines r r'⟩

/-- Values correspond if they are the same or refer to what belongs together. -/
inductive Values (pairing : Pairing) (h h' : Heap) : Value → Value → Prop
  | plain {v : Value} (standsAlone : ¬ v.IsHandle) : Values pairing h h' v v
  | array {a a' : ArrayId} (paired : pairing.arrays a a') : Values pairing h h' (.array a) (.array a')
  | routine {c c' : CallableId} {r r' : RoutineId} (direct : h.callable c = .direct (.subroutine r))
    (direct' : h'.callable c' = .direct (.subroutine r')) (paired : pairing.routines r r')
    : Values pairing h h' (.callable c) (.callable c')

/-- Routines are the same but for literals that correspond. -/
structure SameRoutine (pairing : Pairing) (h h' : Heap) (r r' : Routine) : Prop where
  rest : r' = { r with literals := r'.literals }
  literals : List.Forall₂ (pairing.Values h h') r.literals.toList r'.literals.toList

/-- Grids have the same dimensions, and cells that correspond. -/
structure SameGrid (pairing : Pairing) (h h' : Heap) (g g' : Grid) : Prop where
  dims : g'.dims = g.dims
  cells : List.Forall₂ (pairing.Values h h') g.cells.toList g'.cells.toList

/-- The pairs are one to one, and what belongs together is the same up to the pairs. -/
structure Isomorphism (pairing : Pairing) (h h' : Heap) : Prop where
  grid : ∀ a a', pairing.arrays a a' → pairing.SameGrid h h' (h.grid a) (h'.grid a')
  routine : ∀ r r', pairing.routines r r' → pairing.SameRoutine h h' (h.routine r) (h'.routine r')
  arrayOnce : ∀ a a' b', pairing.arrays a a' → pairing.arrays a b' → a' = b'
  arrayApart : ∀ a b a', pairing.arrays a a' → pairing.arrays b a' → a = b
  routineOnce : ∀ r r' q', pairing.routines r r' → pairing.routines r q' → r' = q'
  routineApart : ∀ r q r', pairing.routines r r' → pairing.routines q r' → r = q

/-- Calls are the same but for routines that belong together and local variables that correspond. -/
structure Frames (pairing : Pairing) (h h' : Heap) (f f' : Frame) : Prop where
  rest : f' = { f with routine := f'.routine, locals := f'.locals }
  routine : pairing.routines f.routine f'.routine
  locals : List.Forall₂ (pairing.Values h h') f.locals.toList f'.locals.toList

/-- The values and the calls of two processes correspond. -/
structure Contents (pairing : Pairing) (h h' : Heap) (p p' : Process) : Prop where
  stack : List.Forall₂ (pairing.Values h h') p.stack p'.stack
  frames : List.Forall₂ (pairing.Frames h h') p.frames p'.frames

/-- The second process is a new one with the identity, the state and the contents of the first. -/
structure Processes (pairing : Pairing) (config : Config) (h h' : Heap) (p p' : Process) : Prop where
  contents : pairing.Contents h h' p p'
  rest : p' = { Process.new config 0 p.name with
    kind := p.kind, state := p.state, waitingFor := p.waitingFor,
    stack := p'.stack, frames := p'.frames }

variable {pairing : Pairing} {h h' : Heap}

-----------------------------------------------------------------------------------------
-- The other way round
-----------------------------------------------------------------------------------------

theorem Values.swap {v v' : Value} (same : pairing.Values h h' v v')
    : pairing.swap.Values h' h v' v := by
  cases same with
  | plain standsAlone => exact .plain standsAlone
  | array paired => exact .array paired
  | routine direct direct' paired => exact .routine direct' direct paired

theorem swap_all {vs vs' : List Value} (same : List.Forall₂ (pairing.Values h h') vs vs')
    : List.Forall₂ (pairing.swap.Values h' h) vs' vs := by
  apply List.Forall₂.flip
  exact same.imp fun _ _ one => one.swap

/-- An isomorphism can be read the other way round. -/
theorem Isomorphism.swap (iso : pairing.Isomorphism h h') : pairing.swap.Isomorphism h' h where
  grid a' a paired := by
    obtain ⟨dims, cells⟩ := iso.grid a a' paired
    exact ⟨dims.symm, swap_all cells⟩
  routine r' r paired := by
    obtain ⟨rest, literals⟩ := iso.routine r r' paired
    refine ⟨?_, swap_all literals⟩
    rw [rest]
  arrayOnce a' a b first second := iso.arrayApart a b a' first second
  arrayApart a' b' a first second := iso.arrayOnce a a' b' first second
  routineOnce r' r q first second := iso.routineApart r q r' first second
  routineApart r' q' r first second := iso.routineOnce r r' q' first second

theorem Frames.swap {f f' : Frame} (same : pairing.Frames h h' f f')
    : pairing.swap.Frames h' h f' f := by
  obtain ⟨rest, routine, locals⟩ := same
  refine ⟨?_, routine, swap_all locals⟩
  rw [rest]

/-- The contents of processes can be compared either way round. -/
theorem Contents.swap {p p' : Process} (same : pairing.Contents h h' p p')
    : pairing.swap.Contents h' h p' p := by
  refine ⟨swap_all same.stack, ?_⟩
  apply List.Forall₂.flip
  exact same.frames.imp fun _ _ one => one.swap

-----------------------------------------------------------------------------------------
-- What corresponding values lead to
-----------------------------------------------------------------------------------------

/-- What a value leads to corresponds to something that a corresponding value leads to. -/
theorem Isomorphism.leadsTo (iso : pairing.Isomorphism h h') {v v' w : Value}
    (same : pairing.Values h h' v v') (leads : h.LeadsTo v w)
    : ∃ w', h'.LeadsTo v' w' ∧ pairing.Values h h' w w' := by
  cases same with
  | plain standsAlone =>
      cases leads with
      | cell | literal | base | bound | member => exact absurd trivial standsAlone
  | array paired =>
      cases leads with
      | cell held =>
          obtain ⟨w', held', same⟩ :=
            exists_of_mem_left (iso.grid _ _ paired).cells w (Array.mem_toList_iff.mpr held)
          exact ⟨w', .cell (Array.mem_toList_iff.mp held'), same⟩
  | routine direct direct' paired =>
      cases leads with
      | literal routine held =>
          rw [direct] at routine
          cases routine
          obtain ⟨w', held', same⟩ :=
            exists_of_mem_left (iso.routine _ _ paired).literals w (Array.mem_toList_iff.mpr held)
          exact ⟨w', .literal direct' (Array.mem_toList_iff.mp held'), same⟩
      | base closure | bound closure =>
          rw [direct] at closure
          cases closure

/-- What a process holds corresponds to something that a corresponding process holds. -/
theorem Isomorphism.holds (iso : pairing.Isomorphism h h') {p p' : Process}
    (same : pairing.Contents h h' p p') {v : Value} (held : p.Holds h v)
    : ∃ v', p'.Holds h' v' ∧ pairing.Values h h' v v' := by
  rcases held with onStack | ⟨f, active, held⟩
  · obtain ⟨v', member, same⟩ := exists_of_mem_left same.stack v onStack
    exact ⟨v', .inl member, same⟩
  · obtain ⟨f', active', same⟩ := exists_of_mem_left same.frames f active
    rcases held with inLocals | inLiterals
    · obtain ⟨v', member, same⟩ :=
        exists_of_mem_left same.locals v (Array.mem_toList_iff.mpr inLocals)
      exact ⟨v', .inr ⟨f', active', .inl (Array.mem_toList_iff.mp member)⟩, same⟩
    · obtain ⟨v', member, same⟩ := exists_of_mem_left (iso.routine _ _ same.routine).literals v
        (Array.mem_toList_iff.mpr inLiterals)
      exact ⟨v', .inr ⟨f', active', .inr (Array.mem_toList_iff.mp member)⟩, same⟩

/-- Whatever some processes lead to corresponds to something that corresponding processes lead to, by
induction on the way there.
-/
theorem Isomorphism.live (iso : pairing.Isomorphism h h') {ps ps' : List Process}
    (same : List.Forall₂ (pairing.Contents h h') ps ps') {v : Value} (live : h.Live ps v)
    : ∃ v', h'.Live ps' v' ∧ pairing.Values h h' v v' := by
  apply live.induct (P := fun v => ∃ v', h'.Live ps' v' ∧ pairing.Values h h' v v')
  · intro v held
    obtain ⟨p, among, held⟩ := held
    obtain ⟨p', among', same⟩ := exists_of_mem_left same p among
    obtain ⟨v', held', same⟩ := iso.holds same held
    exact ⟨v', .root ⟨p', among', held'⟩, same⟩
  · intro v w reached leads
    obtain ⟨v', live', same⟩ := reached
    obtain ⟨w', leads', same⟩ := iso.leadsTo same leads
    exact ⟨w', live'.step leads', same⟩

end Pairing
end TaskMachine

import TaskMachine.Proofs.Heap.Bystanders
import TaskMachine.Proofs.Process.Requests
import TaskMachine.Proofs.Scheduler.Moves

/-!
Processes that keep to themselves. The code of a self-contained routine uses no names, and its
literals are plain values and further such routines. A process that is started with one, and with
arguments that are plain values, such routines or arrays of them, has nothing to do with what others
have: it starts in any world that has kept its routine and its arguments as it would have started in
the first one.
-/

namespace TaskMachine

open Relation

namespace Heap

/-- A subroutine is among the literals of a routine. -/
def Lends (h : Heap) (r s : RoutineId) : Prop :=
  ∃ c, .callable c ∈ (h.routine r).literals ∧ h.callable c = .direct (.subroutine s)

/-- A plain value or a subroutine. -/
inductive Simple (h : Heap) : Value → Prop
  | plain {v : Value} (standsAlone : ¬ v.IsHandle) : Simple h v
  | subroutine {c : CallableId} {s : RoutineId} (what : h.callable c = .direct (.subroutine s))
    : Simple h (.callable c)

/-- The routine uses no names and has only simple literals, and so do all subroutines among its
literals, among theirs and so on.
-/
def SelfContained (h : Heap) (r : RoutineId) : Prop :=
  ∀ s, ReflTransGen h.Lends r s → (h.routine s).Nameless ∧ ∀ v ∈ (h.routine s).literals, h.Simple v

/-- A plain value, an array on the heap or a self-contained subroutine. -/
inductive Harmless (h : Heap) : Value → Prop
  | plain {v : Value} (standsAlone : ¬ v.IsHandle) : Harmless h v
  | array {a : ArrayId} (present : a.index < h.arrays.size) : Harmless h (.array a)
  | subroutine {c : CallableId} {s : RoutineId} (what : h.callable c = .direct (.subroutine s))
    (contained : h.SelfContained s)
    : Harmless h (.callable c)

/-- A process can be started with these and has nothing to do with others: the routine is
self-contained, and the arguments are harmless, as is all that is in arrays among them.
-/
structure Independent (h : Heap) (r : RoutineId) (args : List Value) : Prop where
  routine : h.SelfContained r
  arguments : ∀ v, h.Traversed args v → h.Harmless v

variable {h₀ h : Heap} {r s : RoutineId} {args : List Value} {v : Value}

/-- What a self-contained routine calls is self-contained. -/
theorem SelfContained.lent (contained : h.SelfContained r) (lends : h.Lends r s)
    : h.SelfContained s :=
  fun t way => contained t (way.head lends)

theorem SelfContained.literal (contained : h.SelfContained r) (held : v ∈ (h.routine r).literals)
    : h.Harmless v := by
  cases (contained r .refl).2 v held with
  | plain standsAlone => exact .plain standsAlone
  | subroutine what => exact .subroutine what (contained.lent ⟨_, held, what⟩)

/-- A routine whose literals are plain values is self-contained if it uses no names. -/
theorem selfContained_of_plain (nameless : (h.routine r).Nameless)
    (plain : ∀ v ∈ (h.routine r).literals, ¬ v.IsHandle)
    : h.SelfContained r := by
  intro s way
  rcases way.cases_head with rfl | ⟨_, ⟨c, held, -⟩, -⟩
  · exact ⟨nameless, fun v held => .plain (plain v held)⟩
  · exact absurd trivial (plain _ held)

/-- Arguments are plain values, self-contained subroutines or arrays of these: copies go no further
than to the cells of these arrays, by induction on the way to a value.
-/
theorem independent_of_flat (contained : h.SelfContained r) (harmless : ∀ v ∈ args, h.Harmless v)
    (flat : ∀ a, .array a ∈ args → ∀ v ∈ (h.grid a).cells, h.Harmless v ∧ ∀ b, v ≠ .array b)
    : h.Independent r args := by
  refine ⟨contained, fun v traversed => ?_⟩
  obtain ⟨w, given, way⟩ := traversed
  have reached : h.Harmless v ∧ ∀ a, v = .array a → .array a ∈ args := by
    induction way with
    | refl => exact ⟨harmless w given, fun a same => same ▸ given⟩
    | tail _ enters ih =>
        cases enters with
        | cell held =>
            obtain ⟨cell, not⟩ := flat _ (ih.2 _ rfl) _ held
            exact ⟨cell, fun b same => absurd same (not b)⟩
        | bound closure =>
            cases ih.1 with
            | plain standsAlone => exact absurd trivial standsAlone
            | subroutine what => cases what.symm.trans closure
  exact reached.1

/-- A handle that is not in use stands for no subroutine. -/
theorem index_lt_of_subroutine {c : CallableId} (what : h.callable c = .direct (.subroutine s))
    : c.index < h.callables.size := by
  by_contra beyond
  have none : h.callables[c.index]? = none :=
    Array.getElem?_eq_none_iff.mpr (Nat.not_lt.mp beyond)
  rw [callable, none] at what
  cases what

theorem routine_of_routines (routines : h.routines = h₀.routines) (r : RoutineId)
    : h.routine r = h₀.routine r := by
  rw [routine, routines, routine]

-----------------------------------------------------------------------------------------
-- What a process gets when it is started
-----------------------------------------------------------------------------------------

/-- What belongs to a process that is started now: arrays and callables that are made from now on, and
subroutines that have been self-contained from the first.
-/
def Granted (h₀ h : Heap) : Value → Prop
  | .array a => h.arrays.size ≤ a.index
  | .callable c =>
      c.index < h.callables.size → ∃ s, h.callable c = .direct (.subroutine s) ∧ h₀.SelfContained s
  | _ => True

private theorem Granted.of_bare (bare : Bare v) : Granted h₀ h v := by
  have nowhere : empty.Present v := bare empty
  cases v with
  | array | callable => exact absurd nowhere (Nat.not_lt_zero _)
  | null | integer _ | boolean _ | float _ | string _ | object _ => trivial

/-- What a subroutine has as literals is granted with it. -/
theorem owned_literal (kept : h₀.Kept h) (routines : h.routines = h₀.routines)
    (contained : h₀.SelfContained r) (held : v ∈ (h.routine r).literals)
    : h.Owned (Granted h₀ h) v := by
  rw [routine_of_routines routines] at held
  cases contained.literal held with
  | plain standsAlone =>
      have bare := bare_of_not_handle standsAlone
      exact ⟨.of_bare bare, bare h⟩
  | array =>
      cases (contained _ .refl).2 _ held with
      | plain standsAlone => exact absurd trivial standsAlone
  | subroutine what contained =>
      have same := kept.callable _ (index_lt_of_subroutine what)
      have what : h.callable _ = .direct (.subroutine _) := same.trans what
      exact ⟨fun _ => ⟨_, what, contained⟩, index_lt_of_subroutine what⟩

/-- Nothing else is reached from what is granted, by the kinds of values. -/
theorem region_granted (kept : h₀.Kept h) (routines : h.routines = h₀.routines)
    : h.Region (Granted h₀ h) where
  bare _ := .of_bare
  unused v absent := by
    cases v with
    | array => exact Nat.not_lt.mp absent
    | callable => exact fun present => absurd present absent
    | null | integer _ | boolean _ | float _ | string _ | object _ => trivial
  closed v w granted carries := by
    cases v with
    | array => exact absurd carries (not_carries_of_absent (Nat.not_lt.mpr granted))
    | callable c =>
        by_cases present : c.index < h.callables.size
        · obtain ⟨s, what, contained⟩ := granted present
          cases carries.1 with
          | literal same held =>
              cases what.symm.trans same
              exact owned_literal kept routines contained held
          | base closure | bound closure => cases what.symm.trans closure
        · exact absurd carries (not_carries_of_absent present)
    | null | integer _ | boolean _ | float _ | string _ =>
        exact absurd carries (bare_of_not_handle id).not_carries
    | object => exact absurd rfl (carries.2 _)

/-- Copies go through the same values as long as these are kept, by induction on the way. -/
theorem traversed_of_kept (kept : h₀.Kept h) (harmless : ∀ v, h₀.Traversed args v → h₀.Harmless v)
    (traversed : h.Traversed args v)
    : h₀.Traversed args v := by
  obtain ⟨w, given, way⟩ := traversed
  induction way with
  | refl => exact ⟨w, given, .refl⟩
  | tail _ enters ih =>
      have before := harmless _ ih
      obtain ⟨u, given, way⟩ := ih
      cases enters with
      | cell held =>
          cases before with
          | plain standsAlone => exact absurd trivial standsAlone
          | array present =>
              rw [kept.grid _ present] at held
              exact ⟨u, given, way.tail (.cell held)⟩
      | bound closure =>
          cases before with
          | plain standsAlone => exact absurd trivial standsAlone
          | subroutine what =>
              rw [kept.callable _ (index_lt_of_subroutine what), what] at closure
              cases closure

-----------------------------------------------------------------------------------------
-- What is kept is its own partner
-----------------------------------------------------------------------------------------

/-- The arrays that copies of the arguments go through, and what is self-contained, are their own
partners.
-/
def common (h₀ h : Heap) (args : List Value) : Partners where
  arrays a a' := a = a' ∧ h₀.Traversed args (.array a)
  callables c c' := c = c' ∧ ∃ s, h₀.callable c = .direct (.subroutine s) ∧ h₀.SelfContained s
  routines r r' := r = r' ∧ h₀.SelfContained r
  named := False
  since := h

theorem faithful_common : (common h₀ h args).Faithful where
  once _ _ _ first second := first.1.symm.trans second.1
  apart _ _ _ first second := first.1.trans second.1.symm

/-- Harmless values are common to both heaps. -/
theorem Harmless.common (harmless : h₀.Harmless v)
    (traversed : ∀ a, v = .array a → h₀.Traversed args (.array a))
    : (common h₀ h args).Values v v := by
  cases harmless with
  | plain standsAlone => exact .plain standsAlone
  | array => exact .array ⟨rfl, traversed _ rfl⟩
  | subroutine what contained => exact .callable ⟨rfl, _, what, contained⟩

/-- Values that copies go through are alike on both heaps. -/
theorem Independent.traversed (independent : h₀.Independent r args) (traversed : h₀.Traversed args v)
    : (common h₀ h args).Values v v :=
  (independent.arguments v traversed).common fun _ same => same ▸ traversed

/-- What is kept is alike on both heaps. -/
theorem Independent.heaps (independent : h₀.Independent r args) (kept : h₀.Kept h)
    (routines : h.routines = h₀.routines)
    : (common h₀ h args).Heaps h h₀ := by
  have present (a : ArrayId) (traversed : h₀.Traversed args (.array a))
      : a.index < h₀.arrays.size := by
    cases independent.arguments _ traversed with
    | plain standsAlone => exact absurd trivial standsAlone
    | array present => exact present
  have same {c : CallableId} {s : RoutineId} (what : h₀.callable c = .direct (.subroutine s))
      : h.callable c = .direct (.subroutine s) :=
    (kept.callable c (index_lt_of_subroutine what)).trans what
  exact {
    grid := by
      rintro a _ ⟨rfl, traversed⟩
      rw [kept.grid a (present a traversed)]
      obtain ⟨w, given, way⟩ := traversed
      refine ⟨rfl, List.forall₂_same.mpr fun v held => independent.traversed ?_⟩
      exact ⟨w, given, way.tail (.cell (Array.mem_toList_iff.mp held))⟩
    callable := by
      rintro c _ ⟨rfl, s, what, contained⟩
      rw [same what, what]
      exact .routine ⟨rfl, contained⟩
    routine := by
      rintro r _ ⟨rfl, contained⟩
      rw [routine_of_routines routines]
      refine ⟨rfl, List.forall₂_same.mpr fun v held => ?_, .inr (contained r .refl).1⟩
      have member := Array.mem_toList_iff.mp held
      refine (contained.literal member).common fun a array => ?_
      subst array
      cases (contained r .refl).2 _ member with
      | plain standsAlone => exact absurd trivial standsAlone
    arrayIn := by
      rintro a _ ⟨rfl, traversed⟩
      exact ⟨Nat.lt_of_lt_of_le (present a traversed) kept.arrays, present a traversed⟩
    callableIn := by
      rintro c _ ⟨rfl, s, what, -⟩
      exact ⟨index_lt_of_subroutine (same what), index_lt_of_subroutine what⟩
    descends := by
      rintro c _ base base' bound bound' ⟨rfl, s, what, -⟩ - closure
      cases what.symm.trans closure
    arrayOnce := fun _ _ _ first second => first.1.symm.trans second.1
    arrayApart := fun _ _ _ first second => first.1.trans second.1.symm
    routineOnce := fun _ _ _ first second => first.1.symm.trans second.1
    routineApart := fun _ _ _ first second => first.1.trans second.1.symm
    closureOnce := fun _ _ _ _ _ first second _ => first.1.symm.trans second.1
    closureApart := fun _ _ _ _ _ first second _ => first.1.trans second.1.symm
    since := .refl _ h
  }

end Heap

-----------------------------------------------------------------------------------------
-- Starting
-----------------------------------------------------------------------------------------

namespace Partners

variable {p : Partners} {m m' : Machine} {r r' : RoutineId} {args args' : List Value}

/-- A new process enters its routine with copies of its arguments. -/
theorem run_start (new : m.process.frames = []) (suspended : m.process.state = .suspended)
    : (Exec.start r args).run m
      = match m.world.heap.copyList args with
        | some (h, args) => (Exec.setHeap h >>= fun _ => Exec.enter r args false).run m
        | none => .error .endless m := by
  have fresh : (!m.process.frames.isEmpty || m.process.state != .suspended) = false := by
    simp [new, suspended]
  simp only [Exec.start, Exec.process, Exec.heap, EStateM.run_bind, EStateM.run_get,
    EStateM.run_pure, fresh, Bool.false_eq_true, if_false]
  cases m.world.heap.copyList args <;> rfl

/-- New processes that are alike start alike. -/
theorem agree_start (machines : p.Machines m m') (new : m.process.frames = [])
    (suspended : m.process.state = .suspended) (paired : p.routines r r')
    (same : List.Forall₂ p.Values args args')
    : p.Agree Machines Same ((Exec.start r args).run m) ((Exec.start r' args').run m') := by
  have new' : m'.process.frames = [] :=
    List.forall₂_nil_left_iff.mp (new ▸ machines.process.frames)
  rw [run_start new suspended, run_start new' (machines.process.state.trans suspended)]
  rcases machines.world.heaps.copyList same with
    ⟨q, h, h', values, values', le, copied, copied', heaps, alike⟩ | ⟨never, never'⟩
  · rw [copied, copied']
    refine Simulates.bind (.setHeap le heaps) (fun q' _ _ _ later => ?_) m m' machines
    exact .enter (later.routines _ _ (le.routines _ _ paired)) (mono_all alike later) false
  · rw [never, never']
    exact .error le_rfl machines _

end Partners
end TaskMachine

import Mathlib.Logic.Relation
import TaskMachine.Proofs.Codec.Items
import TaskMachine.Proofs.Heap.Depth
import TaskMachine.Proofs.Heap.Reach

/-!
Regions of a heap. A region is a set of values that whatever is in it stays in: the cells of its
arrays, what its closures are made of, and the literals of its routines. It stays one when only
values of the region come into arrays and closures. What a host object keeps is not followed, since
the machine gets at it through the host only.
-/

namespace TaskMachine

namespace Heap

variable {h h' h'' h₁ h₂ : Heap} {R P : Value → Prop} {v w : Value}

/-- What a handle refers to is on the heap. Host objects are none of the machine's. -/
def Present (h : Heap) : Value → Prop
  | .array a => a.index < h.arrays.size
  | .callable c => c.index < h.callables.size
  | _ => True

/-- The value refers to nothing that the machine keeps: it stands for itself, or is a host object.
-/
def Bare (v : Value) : Prop :=
  ∀ h : Heap, h.Present v

/-- A value leads to another one by itself, and not through what a host object keeps. -/
def Carries (h : Heap) (v w : Value) : Prop :=
  h.LeadsTo v w ∧ ∀ o, v ≠ .object o

theorem Carries.array {a : ArrayId} (leads : h.LeadsTo (.array a) w) : h.Carries (.array a) w :=
  ⟨leads, by simp⟩

theorem Carries.callable {c : CallableId} (leads : h.LeadsTo (.callable c) w)
    : h.Carries (.callable c) w :=
  ⟨leads, by simp⟩

/-- The value belongs to the region, and what it refers to is on the heap. -/
def Owned (h : Heap) (R : Value → Prop) (v : Value) : Prop :=
  R v ∧ h.Present v

/-- A region: values that refer to nothing, handles that are not in use, and whatever its values
lead to.
-/
structure Region (h : Heap) (R : Value → Prop) : Prop where
  bare : ∀ v, Bare v → R v
  unused : ∀ v, ¬ h.Present v → R v
  closed : ∀ v w, R v → h.Carries v w → h.Owned R w

/-- No handle on the heap is without what it refers to. -/
def Whole (h : Heap) : Prop :=
  ∀ v w, h.Carries v w → h.Present w

/-- On such a heap, and on no other one, all values make a region. -/
theorem region_true_iff : h.Region (fun _ => True) ↔ h.Whole := by
  constructor
  · exact fun region v w carries => (region.closed v w trivial carries).2
  · exact fun whole =>
      ⟨fun _ _ => trivial, fun _ _ => trivial, fun v w _ carries => ⟨trivial, whole v w carries⟩⟩

/-- What is on the heap is still there, and outside of the region it is as it was. -/
structure ChangesIn (R : Value → Prop) (h h' : Heap) : Prop where
  arrays : h.arrays.size ≤ h'.arrays.size
  callables : h.callables.size ≤ h'.callables.size
  grid : ∀ a, a.index < h.arrays.size → ¬ R (.array a) → h'.grid a = h.grid a
  callable : ∀ c, c.index < h.callables.size → h'.callable c = h.callable c
  routines : h'.routines = h.routines

theorem ChangesIn.refl (R : Value → Prop) (h : Heap) : h.ChangesIn R h :=
  ⟨Nat.le_refl _, Nat.le_refl _, fun _ _ _ => rfl, fun _ _ => rfl, rfl⟩

/-- Changes in a region one after another are changes in it. -/
theorem ChangesIn.trans (first : h.ChangesIn R h') (next : h'.ChangesIn R h'')
    : h.ChangesIn R h'' where
  arrays := Nat.le_trans first.arrays next.arrays
  callables := Nat.le_trans first.callables next.callables
  grid a present outside :=
    (next.grid a (Nat.lt_of_lt_of_le present first.arrays) outside).trans
      (first.grid a present outside)
  callable c present :=
    (next.callable c (Nat.lt_of_lt_of_le present first.callables)).trans (first.callable c present)
  routines := next.routines.trans first.routines

/-- What has changed in a region has done so in a larger one. -/
theorem ChangesIn.mono (changes : h.ChangesIn R h') (larger : ∀ v, R v → P v) : h.ChangesIn P h' :=
  { changes with grid := fun a present outside => changes.grid a present (outside ∘ larger _) }

theorem ChangesIn.present (changes : h.ChangesIn R h') (present : h.Present v) : h'.Present v := by
  cases v with
  | array a => exact Nat.lt_of_lt_of_le present changes.arrays
  | callable c => exact Nat.lt_of_lt_of_le present changes.callables
  | null | integer _ | boolean _ | float _ | string _ | object _ => trivial

/-- What is owned stays owned: it refers to what is there. -/
theorem ChangesIn.owned (changes : h.ChangesIn R h') (owned : h.Owned P v) : h'.Owned P v :=
  ⟨owned.1, changes.present owned.2⟩

theorem Kept.changesIn (kept : h.Kept h') (routines : h'.routines = h.routines)
    : h.ChangesIn R h' :=
  ⟨kept.arrays, kept.callables, fun a present _ => kept.grid a present, kept.callable, routines⟩

theorem Kept.trans (first : h.Kept h') (next : h'.Kept h'') : h.Kept h'' where
  arrays := Nat.le_trans first.arrays next.arrays
  callables := Nat.le_trans first.callables next.callables
  grid a present :=
    (next.grid a (Nat.lt_of_lt_of_le present first.arrays)).trans (first.grid a present)
  callable c present :=
    (next.callable c (Nat.lt_of_lt_of_le present first.callables)).trans (first.callable c present)

/-- Copies leave everything on the heap as it was. -/
theorem survives_kept : Survives Kept where
  refl := .refl
  trans _ _ _ := .trans
  array h _ _ cells copied :=
    (((Kept.refl h).addArray _).trans copied).fill (Nat.le_refl _) cells
  closure _ _ _ _ _ _ _ copied := copied.addCallable _

theorem Kept.present (kept : h.Kept h') (present : h.Present v) : h'.Present v := by
  cases v with
  | array a => exact Nat.lt_of_lt_of_le present kept.arrays
  | callable c => exact Nat.lt_of_lt_of_le present kept.callables
  | null | integer _ | boolean _ | float _ | string _ | object _ => trivial

theorem Kept.owned (kept : h.Kept h') (owned : h.Owned P v) : h'.Owned P v :=
  ⟨owned.1, kept.present owned.2⟩

theorem bare_of_not_handle (standsAlone : ¬ v.IsHandle) : Bare v := by
  intro h
  cases v with
  | array _ | callable _ | object _ => exact absurd trivial standsAlone
  | null | integer _ | boolean _ | float _ | string _ => trivial

theorem bare_of_atomic (atomic : Atomic v) : Bare v := by
  intro h
  cases v with
  | array _ | callable _ => exact atomic.elim
  | null | integer _ | boolean _ | float _ | string _ | object _ => trivial

/-- A value that refers to nothing leads nowhere, by the ways in which a value leads to another. -/
theorem Bare.not_carries (bare : Bare v) : ¬ h.Carries v w := by
  intro carries
  obtain ⟨leads, here⟩ := carries
  have nowhere : empty.Present v := bare empty
  cases leads with
  | cell | literal | base | bound => exact Nat.not_lt_zero _ nowhere
  | member => exact here _ rfl

/-- A handle that is not in use leads nowhere: it reads as an empty array or a function of the
host.
-/
theorem not_carries_of_absent (absent : ¬ h.Present v) : ¬ h.Carries v w := by
  intro carries
  obtain ⟨leads, here⟩ := carries
  have beyond {c : CallableId} (absent : ¬ h.Present (.callable c)) : h.callable c = default := by
    have none : h.callables[c.index]? = none := Array.getElem?_eq_none_iff.mpr (Nat.not_lt.mp absent)
    rw [callable, none]
    rfl
  cases leads with
  | @cell a _ held =>
      have none : h.arrays[a.index]? = none := Array.getElem?_eq_none_iff.mpr (Nat.not_lt.mp absent)
      rw [grid, none] at held
      simp at held
  | literal routine =>
      rw [beyond absent] at routine
      cases routine
  | base closure | bound closure =>
      rw [beyond absent] at closure
      cases closure
  | member => exact here _ rfl

/-- No handle is without what it refers to if the entries of the tables hold none that is. -/
theorem whole_of_entries (grids : ∀ g ∈ h.arrays, ∀ w ∈ g.cells, h.Present w)
    (closures
      : ∀ base bound, .closure base bound ∈ h.callables
        → h.Present (.callable base) ∧ ∀ w ∈ bound, h.Present w)
    (literals : ∀ r ∈ h.routines, ∀ w ∈ r.literals, h.Present w)
    : h.Whole := by
  intro v w carries
  have inUse : h.Present v := by_contra fun absent => not_carries_of_absent absent carries
  have entry {c : CallableId} (inUse : c.index < h.callables.size)
      : h.callable c ∈ h.callables := by
    rw [callable, Array.getElem?_eq_getElem inUse]
    exact Array.getElem_mem inUse
  obtain ⟨leads, here⟩ := carries
  cases leads with
  | member => exact absurd rfl (here _)
  | @cell a _ held =>
      refine grids (h.grid a) ?_ w held
      rw [grid, Array.getElem?_eq_getElem inUse]
      exact Array.getElem_mem inUse
  | @literal c r _ what held =>
      rw [routine] at held
      cases found : h.routines[r.index]? with
      | none =>
          rw [found] at held
          cases Array.not_mem_empty w held
      | some routine =>
          rw [found] at held
          exact literals routine (Array.mem_of_getElem? found) w held
  | base closure => exact (closures _ _ (closure ▸ entry inUse)).1
  | bound closure held => exact (closures _ _ (closure ▸ entry inUse)).2 w held

-----------------------------------------------------------------------------------------
-- Elementary operations
-----------------------------------------------------------------------------------------

theorem callable_addCallable (h : Heap) (what : Callable) (c : CallableId)
    : (h.addCallable what).1.callable c = what
      ∨ (h.addCallable what).1.callable c = h.callable c := by
  simp only [addCallable, callable, Array.getElem?_push]
  split
  · exact .inl rfl
  · exact .inr rfl

/-- A value leads to the same values if it reads the same. -/
theorem Carries.of_same (carries : h.Carries v w)
    (grid : ∀ a, v = .array a → h'.grid a = h.grid a)
    (callable : ∀ c, v = .callable c → h'.callable c = h.callable c)
    (routines : h'.routines = h.routines)
    : h'.Carries v w := by
  obtain ⟨leads, here⟩ := carries
  refine ⟨?_, here⟩
  cases leads with
  | cell held => exact .cell ((grid _ rfl).symm ▸ held)
  | literal routine held =>
      refine .literal ((callable _ rfl).trans routine) ?_
      rwa [Heap.routine, routines]
  | base closure => exact .base ((callable _ rfl).trans closure)
  | bound closure held => exact .bound ((callable _ rfl).trans closure) held
  | member => exact absurd rfl (here _)

/-- Only values at home have come into arrays and closures, and nothing is gone. -/
structure Fills (R : Value → Prop) (h h' : Heap) : Prop where
  present : ∀ v, h.Present v → h'.Present v
  grids : ∀ a, h'.grid a = h.grid a ∨ ∀ w ∈ (h'.grid a).cells, h.Owned R w
  callables
    : ∀ c, h'.callable c = h.callable c
      ∨ ∃ base bound,
          h'.callable c = .closure base bound
          ∧ h.Owned R (.callable base) ∧ ∀ w ∈ bound, h.Owned R w
  routines : h'.routines = h.routines

/-- Then a value leads to what it has led to before, or to something at home. By the ways in which a
value leads to another.
-/
theorem Fills.carries (fills : Fills R h h') (carries : h'.Carries v w)
    : h.Carries v w ∨ h.Owned R w := by
  obtain ⟨leads, here⟩ := carries
  cases leads with
  | member => exact absurd rfl (here _)
  | cell held =>
      rcases fills.grids _ with same | owned
      · exact .inl ⟨.cell (same ▸ held), here⟩
      · exact .inr (owned w held)
  | literal routine held =>
      rcases fills.callables _ with same | ⟨base, bound, new, -, -⟩
      · rw [Heap.routine, fills.routines] at held
        exact .inl ⟨.literal (same.symm.trans routine) held, here⟩
      · rw [new] at routine
        cases routine
  | base closure =>
      rcases fills.callables _ with same | ⟨base, bound, new, owned, -⟩
      · exact .inl ⟨.base (same.symm.trans closure), here⟩
      · rw [new] at closure
        cases closure
        exact .inr owned
  | bound closure held =>
      rcases fills.callables _ with same | ⟨base, bound, new, -, owned⟩
      · exact .inl ⟨.bound (same.symm.trans closure) held, here⟩
      · rw [new] at closure
        cases closure
        exact .inr (owned w held)

/-- A new array may hold what is owned. -/
theorem fills_addArray {g : Grid} (cells : ∀ w ∈ g.cells, h.Owned R w)
    : Fills R h (h.addArray g).1 where
  present v := ((Kept.refl h).addArray g).present
  grids a := by
    rcases grid_addArray h g a with new | old
    · exact .inr (by rwa [new])
    · exact .inl old
  callables c := .inl rfl
  routines := rfl

/-- A new closure may bind what is owned, over a base that is. -/
theorem fills_addClosure {base : CallableId} {bound : List Value}
    (baseOwned : h.Owned R (.callable base)) (boundOwned : ∀ w ∈ bound, h.Owned R w)
    : Fills R h (h.addCallable (.closure base bound)).1 where
  present v := ((Kept.refl h).addCallable _).present
  grids a := .inl rfl
  callables c := by
    rcases callable_addCallable h (.closure base bound) c with new | old
    · exact .inr ⟨base, bound, new, baseOwned, boundOwned⟩
    · exact .inl old
  routines := rfl

theorem present_setGrid (h : Heap) (a : ArrayId) (g : Grid) (v : Value)
    : (h.setGrid a g).Present v ↔ h.Present v := by
  cases v <;> simp [Heap.setGrid, Present]

theorem owned_setGrid (a : ArrayId) (g : Grid) (owned : h.Owned R v) : (h.setGrid a g).Owned R v :=
  ⟨owned.1, (present_setGrid h a g v).mpr owned.2⟩

/-- Cells may be replaced by what is owned. -/
theorem fills_setGrid {a : ArrayId} {g : Grid} (cells : ∀ w ∈ g.cells, h.Owned R w)
    : Fills R h (h.setGrid a g) where
  present v := (present_setGrid h a g v).mpr
  grids b := by
    rcases grid_setGrid h a b g with new | old
    · exact .inr (by rwa [new])
    · exact .inl old
  callables c := .inl rfl
  routines := rfl

/-- What host objects keep does not count. -/
theorem fills_setObject (o : ObjectId) (object : HostObject)
    : Fills R h (h.setObject o object) where
  present v present := by cases v <;> exact present
  grids a := .inl rfl
  callables c := .inl rfl
  routines := rfl

/-- A region is one still if only values at home have come into arrays and closures. -/
theorem Region.fill (region : h.Region R) (fills : Fills R h h') : h'.Region R where
  bare := region.bare
  unused v absent := region.unused v fun there => absent (fills.present v there)
  closed v w inside carries := by
    rcases fills.carries carries with before | owned
    · exact (region.closed v w inside before).imp_right (fills.present w)
    · exact owned.imp_right (fills.present w)

/-- Writing in an array of a region changes nothing outside of it. -/
theorem changesIn_setGrid {a : ArrayId} (inside : R (.array a)) (g : Grid)
    : h.ChangesIn R (h.setGrid a g) := by
  refine ⟨by simp [Heap.setGrid], Nat.le_refl _, fun b _ outside => ?_, fun _ _ => rfl, rfl⟩
  refine grid_setGrid_of_ne h ?_ _
  rintro rfl
  exact outside inside

-----------------------------------------------------------------------------------------
-- What is behind a value of a region
-----------------------------------------------------------------------------------------

/-- What copies of these values share with them is at home in the region: the callables that are not
copied, and the bases of the closures that are.
-/
structure Shares (h : Heap) (P R : Value → Prop) : Prop where
  direct
    : ∀ c callee, P (.callable c) → h.callable c = .direct callee → h.Owned R (.callable c)
  base
    : ∀ c base bound, P (.callable c) → h.callable c = .closure base bound
      → h.Owned R (.callable base)

/-- What a region has on the heap refers to what is there. -/
theorem Region.encloses (region : h.Region R) : h.Encloses (h.Owned R) where
  array _ owned := owned.2
  callable _ owned := owned.2
  cells _ owned v held := region.closed _ v owned.1 (.array (.cell held))
  bound _ _ _ owned closure v held := region.closed _ v owned.1 (.callable (.bound closure held))

/-- In a region, all that a value of it carries is owned. -/
theorem Region.shares (region : h.Region R) : h.Shares (h.Owned R) R where
  direct _ _ owned _ := owned
  base _ _ _ owned closure := region.closed _ _ owned.1 (.callable (.base closure))

/-- Whatever a callable comes down to is at home: what is bound along the chain of closures, and the
literals of the routine behind it.
-/
structure Opens (h : Heap) (R : Value → Prop) (c : CallableId) : Prop where
  bound : ∀ v ∈ (h.resolve c).2, h.Owned R v
  literals : ∀ r, (h.resolve c).1 = .subroutine r → ∀ v ∈ (h.routine r).literals, h.Owned R v

theorem resolveFrom_direct {c : CallableId} {callee : Callee} (what : h.callable c = .direct callee)
    (fuel : Nat) (later : List Value)
    : h.resolveFrom fuel c later = (callee, later) := by
  rw [resolveFrom.eq_def]
  simp only [what]

theorem resolveFrom_zero {c base : CallableId} {bound : List Value}
    (what : h.callable c = .closure base bound) (later : List Value)
    : h.resolveFrom 0 c later = (default, bound ++ later) := by
  rw [resolveFrom.eq_def]
  simp only [what]

/-- What a closure binds comes before what is bound later along the chain. -/
theorem resolveFrom_succ {c base : CallableId} {bound : List Value}
    (what : h.callable c = .closure base bound) (fuel : Nat) (later : List Value)
    : h.resolveFrom (fuel + 1) c later = h.resolveFrom fuel base (bound ++ later) := by
  rw [resolveFrom.eq_def]
  simp only [what]

/-- What is bound along a chain, and the literals behind it, are at home if that is so of every
callable that has a property which goes from closures to their bases. By induction on the length of
the chain.
-/
theorem opens_of_chain {Q : CallableId → Prop}
    (closure
      : ∀ d base bound, Q d → h.callable d = .closure base bound
        → Q base ∧ ∀ v ∈ bound, h.Owned R v)
    (direct
      : ∀ d r, Q d → h.callable d = .direct (.subroutine r)
        → ∀ v ∈ (h.routine r).literals, h.Owned R v)
    {c : CallableId} (inside : Q c)
    : h.Opens R c := by
  suffices chain : ∀ fuel c later, Q c → (∀ v ∈ later, h.Owned R v)
      → (∀ v ∈ (h.resolveFrom fuel c later).2, h.Owned R v)
        ∧ ∀ r, (h.resolveFrom fuel c later).1 = .subroutine r
          → ∀ v ∈ (h.routine r).literals, h.Owned R v by
    obtain ⟨bound, literals⟩ := chain (c.index + 1) c [] inside (List.forall_mem_nil _)
    exact ⟨bound, literals⟩
  intro fuel c later inside before
  induction fuel using Nat.strongRecOn generalizing c later with
  | ind fuel ih =>
      cases what : h.callable c with
      | direct callee =>
          rw [resolveFrom_direct what]
          exact ⟨before, fun r same => direct c r inside (same ▸ what)⟩
      | closure base bound =>
          obtain ⟨further, owned⟩ := closure c base bound inside what
          have bound := List.forall_mem_append.mpr ⟨owned, before⟩
          cases fuel with
          | zero =>
              rw [resolveFrom_zero what]
              exact ⟨bound, nofun⟩
          | succ fuel =>
              rw [resolveFrom_succ what]
              exact ih fuel (Nat.lt_succ_self fuel) _ _ further bound

/-- All that a callable comes down to is at home in its region. -/
theorem Region.opens (region : h.Region R) {c : CallableId} (inside : R (.callable c))
    : h.Opens R c :=
  opens_of_chain (Q := fun d => R (.callable d))
    (fun _ _ _ inside what =>
      ⟨(region.closed _ _ inside (.callable (.base what))).1,
        fun v held => region.closed _ v inside (.callable (.bound what held))⟩)
    (fun _ _ inside what v held => region.closed _ v inside (.callable (.literal what held)))
    inside

end Heap
end TaskMachine

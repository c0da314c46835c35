import Mathlib.Data.List.Forall2
import Mathlib.Data.Option.Basic
import TaskMachine.Closure
import TaskMachine.Proofs.Heap.Regions
import TaskMachine.Text

/-!
Heaps that are alike as far as running can tell. Arrays are paired one to one, since scripts can see
whether two handles are of one array. A handle of a routine may have any number of partners: nothing
but a comparison of two handles of one routine tells them apart. Whatever is allocated in one heap is
allocated in the other, so pairs are added as both go on, and none is ever given up. What has no
partners is left as it was.
-/

namespace TaskMachine

/-- The instruction asks what a name stands for, or changes it. -/
def Instruction.UsesName (i : Instruction) : Prop :=
  (i.opcode = .push ∨ i.opcode = .pop ∨ i.opcode = .store) ∧ Scope.ofByte? i.minor = some .named

/-- No instruction of the routine uses a name. -/
def Routine.Nameless (r : Routine) : Prop :=
  ∀ i ∈ r.code, ¬ i.UsesName

/-- Which handles of two heaps stand for each other. -/
structure Partners where
  arrays : ArrayId → ArrayId → Prop
  callables : CallableId → CallableId → Prop
  routines : RoutineId → RoutineId → Prop
  /-- Names stand for values that are alike, too. Otherwise they are not used. -/
  named : Prop
  /-- The first heap as it was at some time before. Arrays without partners are as they were then. -/
  since : Heap

namespace Partners

/-- Callables have one partner each. -/
structure Faithful (p : Partners) : Prop where
  once : ∀ c c' d', p.callables c c' → p.callables c d' → c' = d'
  apart : ∀ c d c', p.callables c c' → p.callables d c' → c = d

/-- All pairs are among others. -/
structure Among (p q : Partners) : Prop where
  arrays : ∀ a a', p.arrays a a' → q.arrays a a'
  callables : ∀ c c', p.callables c c' → q.callables c c'
  routines : ∀ r r', p.routines r r' → q.routines r r'
  named : q.named ↔ p.named

/-- There are only more pairs, of arrays that are new and of callables that have no other partners. -/
structure Within (p q : Partners) : Prop extends Among p q where
  since : q.since = p.since
  fresh : ∀ a a', q.arrays a a' → p.arrays a a' ∨ p.since.arrays.size ≤ a.index
  faithful : p.Faithful → q.Faithful

theorem Among.refl (p : Partners) : p.Among p :=
  ⟨fun _ _ => id, fun _ _ => id, fun _ _ => id, Iff.rfl⟩

theorem Among.trans {p q r : Partners} (first : p.Among q) (next : q.Among r) : p.Among r where
  arrays a a' paired := next.arrays a a' (first.arrays a a' paired)
  callables c c' paired := next.callables c c' (first.callables c c' paired)
  routines r r' paired := next.routines r r' (first.routines r r' paired)
  named := next.named.trans first.named

instance : Preorder Partners where
  le := Within
  le_refl p := ⟨.refl p, rfl, fun _ _ => .inl, id⟩
  le_trans _ _ _ first next := {
    toAmong := first.toAmong.trans next.toAmong
    since := next.since.trans first.since
    fresh := fun a a' paired => by
      rcases next.fresh a a' paired with old | new
      · exact first.fresh a a' old
      · exact .inr (first.since ▸ new)
    faithful := fun faithful => next.faithful (first.faithful faithful)
  }

/-- The same pairs, seen from the other heap as it is now. -/
def swap (p : Partners) (now : Heap) : Partners where
  arrays a' a := p.arrays a a'
  callables c' c := p.callables c c'
  routines r' r := p.routines r r'
  named := p.named
  since := now

/-- Values that are the same but for handles of partners. Host objects have none. -/
inductive Values (p : Partners) : Value → Value → Prop
  | plain {v : Value} (standsAlone : ¬ v.IsHandle) : Values p v v
  | array {a a' : ArrayId} (paired : p.arrays a a') : Values p (.array a) (.array a')
  | callable {c c' : CallableId} (paired : p.callables c c') : Values p (.callable c) (.callable c')

/-- Grids of the same dimensions, cell by cell alike. -/
structure Grids (p : Partners) (g g' : Grid) : Prop where
  dims : g'.dims = g.dims
  cells : List.Forall₂ p.Values g.cells.toList g'.cells.toList

/-- Callables that are routines, or that bind arguments that are alike. -/
inductive Callables (p : Partners) : Callable → Callable → Prop
  | routine {r r' : RoutineId} (paired : p.routines r r')
    : Callables p (.direct (.subroutine r)) (.direct (.subroutine r'))
  | closure {base base' : CallableId} (paired : p.callables base base') {bound bound' : List Value}
    (arguments : List.Forall₂ p.Values bound bound')
    : Callables p (.closure base bound) (.closure base' bound')

/-- Routines that are the same but for literals that are alike. They use names only if these stand for
values that are alike.
-/
structure Routines (p : Partners) (r r' : Routine) : Prop where
  rest : r' = { r with literals := r'.literals }
  literals : List.Forall₂ p.Values r.literals.toList r'.literals.toList
  nameless : p.named ∨ r.Nameless

/-- Partners refer to what both heaps have and what is alike. Arrays, routines and closures have one
partner each, and closures are made after their bases. The first heap has only grown and changed in
arrays that have partners.
-/
structure Heaps (p : Partners) (h h' : Heap) : Prop where
  grid : ∀ a a', p.arrays a a' → p.Grids (h.grid a) (h'.grid a')
  callable : ∀ c c', p.callables c c' → p.Callables (h.callable c) (h'.callable c')
  routine : ∀ r r', p.routines r r' → p.Routines (h.routine r) (h'.routine r')
  arrayIn : ∀ a a', p.arrays a a' → a.index < h.arrays.size ∧ a'.index < h'.arrays.size
  callableIn : ∀ c c', p.callables c c' → c.index < h.callables.size ∧ c'.index < h'.callables.size
  descends
    : ∀ c c' base base' bound bound',
        p.callables c c' → h.callable c = .closure base bound → h'.callable c' = .closure base' bound'
        → base.index < c.index ∧ base'.index < c'.index
  arrayOnce : ∀ a a' b', p.arrays a a' → p.arrays a b' → a' = b'
  arrayApart : ∀ a b a', p.arrays a a' → p.arrays b a' → a = b
  routineOnce : ∀ r r' q', p.routines r r' → p.routines r q' → r' = q'
  routineApart : ∀ r q r', p.routines r r' → p.routines q r' → r = q
  closureOnce
    : ∀ c c' d' base bound,
        p.callables c c' → p.callables c d' → h.callable c = .closure base bound → c' = d'
  closureApart
    : ∀ c d c' base bound,
        p.callables c c' → p.callables d c' → h'.callable c' = .closure base bound → c = d
  since : p.since.ChangesIn (fun v => ∃ v', p.Values v v') h

variable {p q : Partners} {h h' : Heap}

-----------------------------------------------------------------------------------------
-- More pairs
-----------------------------------------------------------------------------------------

/-- Values stay alike among more partners. -/
theorem Values.among {v v' : Value} (alike : p.Values v v') (more : p.Among q) : q.Values v v' := by
  cases alike with
  | plain standsAlone => exact .plain standsAlone
  | array paired => exact .array (more.arrays _ _ paired)
  | callable paired => exact .callable (more.callables _ _ paired)

theorem among_all {vs vs' : List Value} (alike : List.Forall₂ p.Values vs vs') (more : p.Among q)
    : List.Forall₂ q.Values vs vs' :=
  alike.imp fun _ _ one => one.among more

/-- With more partners, more may have changed. -/
theorem changesIn_among {h₀ : Heap} (changes : h₀.ChangesIn (fun v => ∃ v', p.Values v v') h)
    (more : p.Among q)
    : h₀.ChangesIn (fun v => ∃ v', q.Values v v') h :=
  changes.mono fun _ ⟨v', same⟩ => ⟨v', same.among more⟩

theorem Grids.among {g g' : Grid} (alike : p.Grids g g') (more : p.Among q) : q.Grids g g' :=
  ⟨alike.dims, among_all alike.cells more⟩

theorem Callables.among {c c' : Callable} (alike : p.Callables c c') (more : p.Among q)
    : q.Callables c c' := by
  cases alike with
  | routine paired => exact .routine (more.routines _ _ paired)
  | closure paired arguments =>
      exact .closure (more.callables _ _ paired) (among_all arguments more)

theorem Routines.among {r r' : Routine} (alike : p.Routines r r') (more : p.Among q)
    : q.Routines r r' :=
  ⟨alike.rest, among_all alike.literals more, alike.nameless.imp_left more.named.mpr⟩

theorem Values.mono {v v' : Value} (alike : p.Values v v') (le : p ≤ q) : q.Values v v' :=
  alike.among le.toAmong

theorem mono_all {vs vs' : List Value} (alike : List.Forall₂ p.Values vs vs') (le : p ≤ q)
    : List.Forall₂ q.Values vs vs' :=
  among_all alike le.toAmong

theorem Routines.mono {r r' : Routine} (alike : p.Routines r r') (le : p ≤ q) : q.Routines r r' :=
  alike.among le.toAmong

-----------------------------------------------------------------------------------------
-- The other way round
-----------------------------------------------------------------------------------------

theorem Values.swap {v v' : Value} (alike : p.Values v v') (now : Heap)
    : (p.swap now).Values v' v := by
  cases alike with
  | plain standsAlone => exact .plain standsAlone
  | array paired => exact .array paired
  | callable paired => exact .callable paired

theorem swap_all {vs vs' : List Value} (alike : List.Forall₂ p.Values vs vs') (now : Heap)
    : List.Forall₂ (p.swap now).Values vs' vs := by
  apply List.Forall₂.flip
  exact alike.imp fun _ _ one => one.swap now

/-- Heaps are alike either way round, as partners are mutual. -/
theorem Heaps.swap (alike : p.Heaps h h') : (p.swap h').Heaps h' h where
  grid a' a paired := by
    obtain ⟨dims, cells⟩ := alike.grid a a' paired
    exact ⟨dims.symm, swap_all cells h'⟩
  callable c' c paired := by
    have same := alike.callable c c' paired
    generalize h.callable c = left at same ⊢
    generalize h'.callable c' = right at same ⊢
    cases same with
    | routine paired => exact .routine (p := p.swap h') paired
    | closure paired arguments =>
        exact .closure (p := p.swap h') paired (swap_all arguments h')
  routine r' r paired := by
    obtain ⟨rest, literals, nameless⟩ := alike.routine r r' paired
    refine ⟨?_, swap_all literals h', ?_⟩
    · rw [rest]
    · rw [rest]
      exact nameless
  arrayIn a' a paired := (alike.arrayIn a a' paired).symm
  callableIn c' c paired := (alike.callableIn c c' paired).symm
  descends c' c base' base bound' bound paired closure' closure :=
    (alike.descends c c' base base' bound bound' paired closure closure').symm
  arrayOnce a' a b first second := alike.arrayApart a b a' first second
  arrayApart a' b' a first second := alike.arrayOnce a a' b' first second
  routineOnce r' r q first second := alike.routineApart r q r' first second
  routineApart r' q' r first second := alike.routineOnce r r' q' first second
  closureOnce c' c d base bound first second closure :=
    alike.closureApart c d c' base bound first second closure
  closureApart c' d' c base bound first second closure :=
    alike.closureOnce c c' d' base bound first second closure
  since := .refl _ h'

/-- What has a partner refers to what the heap has. -/
theorem Heaps.encloses (alike : p.Heaps h h') : h.Encloses fun v => ∃ v', p.Values v v' where
  array a within := by
    obtain ⟨v', same⟩ := within
    cases same with
    | plain standsAlone => exact absurd trivial standsAlone
    | array paired => exact (alike.arrayIn _ _ paired).1
  callable c within := by
    obtain ⟨v', same⟩ := within
    cases same with
    | plain standsAlone => exact absurd trivial standsAlone
    | callable paired => exact (alike.callableIn _ _ paired).1
  cells a within v member := by
    obtain ⟨v', same⟩ := within
    cases same with
    | plain standsAlone => exact absurd trivial standsAlone
    | array paired =>
        obtain ⟨w, -, same⟩ :=
          exists_of_mem_left (alike.grid _ _ paired).cells v (Array.mem_toList_iff.mpr member)
        exact ⟨w, same⟩
  bound c base bound within what v member := by
    obtain ⟨v', same⟩ := within
    cases same with
    | plain standsAlone => exact absurd trivial standsAlone
    | callable paired =>
        have same := alike.callable _ _ paired
        rw [what] at same
        generalize h'.callable _ = other at same
        cases same with
        | closure _ arguments =>
            obtain ⟨w, -, same⟩ := exists_of_mem_left arguments v member
            exact ⟨w, same⟩

-----------------------------------------------------------------------------------------
-- Allocation
-----------------------------------------------------------------------------------------

/-- Two more arrays are partners. -/
def withArrays (p : Partners) (a a' : ArrayId) : Partners :=
  { p with arrays := fun b b' => p.arrays b b' ∨ (b = a ∧ b' = a') }

/-- Two more callables are partners. -/
def withCallables (p : Partners) (c c' : CallableId) : Partners :=
  { p with callables := fun d d' => p.callables d d' ∨ (d = c ∧ d' = c') }

private theorem among_withArrays (p : Partners) (a a' : ArrayId) : p.Among (p.withArrays a a') where
  arrays _ _ := .inl
  callables _ _ := id
  routines _ _ := id
  named := Iff.rfl

/-- Arrays that are about to be added may become partners, as no array has their handles yet. -/
theorem Heaps.le_withArrays (alike : p.Heaps h h')
    : p ≤ p.withArrays ⟨h.arrays.size⟩ ⟨h'.arrays.size⟩ where
  toAmong := among_withArrays ..
  since := rfl
  fresh a a' paired := by
    rcases paired with old | ⟨rfl, -⟩
    · exact .inl old
    · exact .inr alike.since.arrays
  faithful faithful := ⟨faithful.once, faithful.apart⟩

private theorem among_withCallables (p : Partners) (c c' : CallableId) : p.Among (p.withCallables c c') where
  arrays _ _ := id
  callables _ _ := .inl
  routines _ _ := id
  named := Iff.rfl

/-- New callables are no partners of others. -/
theorem Heaps.le_withCallables (alike : p.Heaps h h')
    : p ≤ p.withCallables ⟨h.callables.size⟩ ⟨h'.callables.size⟩ where
  toAmong := among_withCallables ..
  since := rfl
  fresh _ _ := .inl
  faithful faithful := {
    once := fun c c' d' first second => by
      rcases first with first | ⟨rfl, rfl⟩ <;> rcases second with second | ⟨same, rfl⟩
      · exact faithful.once c c' d' first second
      · exact absurd (alike.callableIn c c' first).1 (by simp [same])
      · exact absurd (alike.callableIn _ d' second).1 (by simp)
      · rfl
    apart := fun c d c' first second => by
      rcases first with first | ⟨rfl, rfl⟩ <;> rcases second with second | ⟨rfl, same⟩
      · exact faithful.apart c d c' first second
      · exact absurd (alike.callableIn c c' first).2 (by simp [same])
      · exact absurd (alike.callableIn d _ second).2 (by simp)
      · rfl
  }

/-- Arrays that are added with grids that are alike are partners. -/
theorem Heaps.addArray (alike : p.Heaps h h') {g g' : Grid} (same : p.Grids g g')
    : (p.withArrays ⟨h.arrays.size⟩ ⟨h'.arrays.size⟩).Heaps (h.addArray g).1 (h'.addArray g').1 where
  grid a a' paired := by
    rcases paired with old | ⟨rfl, rfl⟩
    · obtain ⟨inside, inside'⟩ := alike.arrayIn a a' old
      rw [Heap.grid_addArray_of_lt h g inside, Heap.grid_addArray_of_lt h' g' inside']
      exact (alike.grid a a' old).among (among_withArrays ..)
    · rw [Heap.grid_addArray_new, Heap.grid_addArray_new]
      exact same.among (among_withArrays ..)
  callable c c' paired := (alike.callable c c' paired).among (among_withArrays ..)
  routine r r' paired := (alike.routine r r' paired).among (among_withArrays ..)
  arrayIn a a' paired := by
    simp only [Heap.addArray, Array.size_push]
    rcases paired with old | ⟨rfl, rfl⟩
    · have inside := alike.arrayIn a a' old
      omega
    · exact ⟨Nat.lt_succ_self _, Nat.lt_succ_self _⟩
  callableIn := alike.callableIn
  descends := alike.descends
  arrayOnce a a' b' first second := by
    rcases first with first | ⟨rfl, rfl⟩ <;> rcases second with second | ⟨same, rfl⟩
    · exact alike.arrayOnce a a' b' first second
    · exact absurd (alike.arrayIn a a' first).1 (by simp [same])
    · exact absurd (alike.arrayIn _ b' second).1 (by simp)
    · rfl
  arrayApart a b a' first second := by
    rcases first with first | ⟨rfl, rfl⟩ <;> rcases second with second | ⟨rfl, same⟩
    · exact alike.arrayApart a b a' first second
    · exact absurd (alike.arrayIn a a' first).2 (by simp [same])
    · exact absurd (alike.arrayIn b _ second).2 (by simp)
    · rfl
  routineOnce := alike.routineOnce
  routineApart := alike.routineApart
  closureOnce := alike.closureOnce
  closureApart := alike.closureApart
  since := (changesIn_among alike.since (among_withArrays ..)).trans
    (((Heap.Kept.refl h).addArray g).changesIn rfl)

/-- Closures that are added with bases and arguments that are alike are partners. -/
theorem Heaps.addClosure (alike : p.Heaps h h') {base base' : CallableId}
    (paired : p.callables base base') {bound bound' : List Value}
    (arguments : List.Forall₂ p.Values bound bound')
    : (p.withCallables ⟨h.callables.size⟩ ⟨h'.callables.size⟩).Heaps
        (h.addCallable (.closure base bound)).1 (h'.addCallable (.closure base' bound')).1 where
  grid a a' paired := (alike.grid a a' paired).among (among_withCallables ..)
  callable c c' old := by
    rcases old with old | ⟨rfl, rfl⟩
    · obtain ⟨inside, inside'⟩ := alike.callableIn c c' old
      rw [Heap.callable_addCallable_of_lt h _ inside, Heap.callable_addCallable_of_lt h' _ inside']
      exact (alike.callable c c' old).among (among_withCallables ..)
    · rw [Heap.callable_addCallable_new, Heap.callable_addCallable_new]
      exact (Callables.closure paired arguments).among (among_withCallables ..)
  routine r r' paired := (alike.routine r r' paired).among (among_withCallables ..)
  arrayIn := alike.arrayIn
  callableIn c c' old := by
    simp only [Heap.addCallable, Array.size_push]
    rcases old with old | ⟨rfl, rfl⟩
    · have inside := alike.callableIn c c' old
      omega
    · exact ⟨Nat.lt_succ_self _, Nat.lt_succ_self _⟩
  descends c c' inner inner' _ _ old closure closure' := by
    rcases old with old | ⟨rfl, rfl⟩
    · obtain ⟨inside, inside'⟩ := alike.callableIn c c' old
      rw [Heap.callable_addCallable_of_lt h _ inside] at closure
      rw [Heap.callable_addCallable_of_lt h' _ inside'] at closure'
      exact alike.descends c c' inner inner' _ _ old closure closure'
    · rw [Heap.callable_addCallable_new] at closure closure'
      cases closure
      cases closure'
      exact alike.callableIn _ _ paired
  arrayOnce := alike.arrayOnce
  arrayApart := alike.arrayApart
  routineOnce := alike.routineOnce
  routineApart := alike.routineApart
  closureOnce c c' d' inner _ first second closure := by
    rcases first with first | ⟨rfl, rfl⟩ <;> rcases second with second | ⟨same, rfl⟩
    · rw [Heap.callable_addCallable_of_lt h _ (alike.callableIn c c' first).1] at closure
      exact alike.closureOnce c c' d' inner _ first second closure
    · exact absurd (alike.callableIn c c' first).1 (by simp [same])
    · exact absurd (alike.callableIn _ d' second).1 (by simp)
    · rfl
  closureApart c d c' inner _ first second closure := by
    rcases first with first | ⟨rfl, rfl⟩ <;> rcases second with second | ⟨rfl, same⟩
    · rw [Heap.callable_addCallable_of_lt h' _ (alike.callableIn c c' first).2] at closure
      exact alike.closureApart c d c' inner _ first second closure
    · exact absurd (alike.callableIn c c' first).2 (by simp [same])
    · exact absurd (alike.callableIn d _ second).2 (by simp)
    · rfl
  since := (changesIn_among alike.since (among_withCallables ..)).trans
    (((Heap.Kept.refl h).addCallable _).changesIn rfl)

/-- Partners that get grids that are alike stay alike. -/
theorem Heaps.setGrid (alike : p.Heaps h h') {a a' : ArrayId} (paired : p.arrays a a') {g g' : Grid}
    (same : p.Grids g g')
    : p.Heaps (h.setGrid a g) (h'.setGrid a' g') where
  grid b b' other := by
    by_cases this : b = a
    · subst this
      have this' := alike.arrayOnce b b' a' other paired
      subst this'
      obtain ⟨inside, inside'⟩ := alike.arrayIn b b' paired
      rw [Heap.grid_setGrid_self h inside, Heap.grid_setGrid_self h' inside']
      exact same
    · have this' : a' ≠ b' := by
        rintro rfl
        exact this (alike.arrayApart b a a' other paired)
      rw [Heap.grid_setGrid_of_ne h (Ne.symm this), Heap.grid_setGrid_of_ne h' this']
      exact alike.grid b b' other
  callable := alike.callable
  routine := alike.routine
  arrayIn b b' other := by
    simp only [Heap.setGrid, Array.size_setIfInBounds]
    exact alike.arrayIn b b' other
  callableIn := alike.callableIn
  descends := alike.descends
  arrayOnce := alike.arrayOnce
  arrayApart := alike.arrayApart
  routineOnce := alike.routineOnce
  routineApart := alike.routineApart
  closureOnce := alike.closureOnce
  closureApart := alike.closureApart
  since := alike.since.trans (Heap.changesIn_setGrid ⟨_, .array paired⟩ g)

-----------------------------------------------------------------------------------------
-- Copies
-----------------------------------------------------------------------------------------

theorem nulls_alike (n : Nat)
    : List.Forall₂ p.Values (List.replicate n .null) (List.replicate n .null) :=
  List.forall₂_same.mpr fun v member => by
    rw [List.eq_of_mem_replicate member]
    exact .plain id

/-- Cells stay alike when they are cut or filled up with nulls. -/
theorem resize_alike {n : Nat} {cells cells' : Array Value}
    (alike : List.Forall₂ p.Values cells.toList cells'.toList)
    : List.Forall₂ p.Values (Grid.resize n cells).toList (Grid.resize n cells').toList := by
  have size : cells.size = cells'.size := by simpa using alike.length_eq
  simp only [Grid.resize, Array.toList_append, Array.toList_extract, Array.toList_replicate, size]
  refine List.rel_append (List.forall₂_take _ ?_) (nulls_alike _)
  simpa using alike

/-- New arrays with the dimensions of arrays that are alike are alike. -/
theorem Grids.shell {g g' : Grid} (alike : p.Grids g g')
    : p.Grids (Grid.ofParts g.dims #[]) (Grid.ofParts g'.dims #[]) := by
  refine ⟨alike.dims, ?_⟩
  rw [alike.dims]
  exact resize_alike .nil

theorem Grids.replace {g g' : Grid} (alike : p.Grids g g') {cells cells' : List Value}
    (same : List.Forall₂ p.Values cells cells')
    : p.Grids (g.replace cells.toArray) (g'.replace cells'.toArray) := by
  refine ⟨alike.dims, ?_⟩
  have size : g.cells.size = g'.cells.size := by simpa using alike.cells.length_eq
  simp only [Grid.replace, size]
  exact resize_alike same

/-- Arrays and their copies, all of which are partners. -/
def Entries (p : Partners) (entry entry' : ArrayId × ArrayId) : Prop :=
  p.arrays entry.1 entry'.1 ∧ p.arrays entry.2 entry'.2

/-- Partners have both been copied, or neither has, by induction on what has been. -/
theorem Heaps.find_copied (alike : p.Heaps h h') {a a' : ArrayId} (paired : p.arrays a a')
    {copied copied' : Copied} (entered : List.Forall₂ p.Entries copied copied')
    : (∃ entry entry', copied.find? (·.1 == a) = some entry ∧ copied'.find? (·.1 == a') = some entry'
        ∧ p.Entries entry entry')
      ∨ (copied.find? (·.1 == a) = none ∧ copied'.find? (·.1 == a') = none) := by
  induction entered with
  | nil => exact .inr ⟨rfl, rfl⟩
  | @cons entry entry' _ _ first _ ih =>
      have both : (entry.1 == a) = (entry'.1 == a') := by
        rw [Bool.eq_iff_iff, beq_iff_eq, beq_iff_eq]
        constructor
        · intro same
          exact alike.arrayOnce a _ a' (same ▸ first.1) paired
        · intro same
          exact alike.arrayApart _ a a' (same ▸ first.1) paired
      rw [List.find?_cons, List.find?_cons, both]
      cases entry'.1 == a' with
      | true => exact .inl ⟨entry, entry', rfl, rfl, first⟩
      | false => exact ih

/-- Two copies end with results that are alike, on heaps that have gone on alike, or both do not. -/
inductive Copies (p : Partners) {α α' : Type} (R : Partners → α → α' → Prop)
    : Option (Heap × Copied × α) → Option (Heap × Copied × α') → Prop
  | ends {q : Partners} {h h' : Heap} {copied copied' : Copied} {a : α} {a' : α'} (le : p ≤ q)
    (alike : q.Heaps h h') (entered : List.Forall₂ q.Entries copied copied') (result : R q a a')
    : Copies p R (some (h, copied, a)) (some (h', copied', a'))
  | never : Copies p R none none

/-- What is copied alike among more partners is so for the fewer ones, too. -/
theorem Copies.of_le {α α' : Type} {R : Partners → α → α' → Prop}
    {copy : Option (Heap × Copied × α)} {copy' : Option (Heap × Copied × α')} (le : p ≤ q)
    (copies : q.Copies R copy copy')
    : p.Copies R copy copy' := by
  cases copies with
  | ends le' alike entered result => exact .ends (le.trans le') alike entered result
  | never => exact .never

theorem Entries.mono {entry entry' : ArrayId × ArrayId} (paired : p.Entries entry entry') (le : p ≤ q)
    : q.Entries entry entry' :=
  ⟨le.arrays _ _ paired.1, le.arrays _ _ paired.2⟩

/-- Copies of several values are alike if the copies of each are, by induction on the values. -/
theorem copies_copyEach {step step' : Heap → Copied → Value → Option (Heap × Copied × Value)}
    (each
      : ∀ q h h' copied copied' v v',
          Heaps q h h'
          → List.Forall₂ q.Entries copied copied'
          → q.Values v v'
          → q.Copies Values (step h copied v) (step' h' copied' v'))
    (alike : p.Heaps h h') {copied copied' : Copied} (entered : List.Forall₂ p.Entries copied copied')
    {done done' : List Value} (before : List.Forall₂ p.Values done done') {values values' : List Value}
    (same : List.Forall₂ p.Values values values')
    : p.Copies (fun q => List.Forall₂ q.Values) (Heap.copyEach step h copied done values)
        (Heap.copyEach step' h' copied' done' values') := by
  induction values generalizing p h h' copied copied' done done' values' with
  | nil =>
      cases same
      exact .ends le_rfl alike entered (List.forall₂_reverse_iff.mpr before)
  | cons v rest ih =>
      obtain ⟨v', rest', first, others, rfl⟩ := List.forall₂_cons_left_iff.mp same
      have once := each p h h' copied copied' v v' alike entered first
      rw [Heap.copyEach, Heap.copyEach]
      generalize step h copied v = copy at once ⊢
      generalize step' h' copied' v' = copy' at once ⊢
      cases once with
      | never => exact .never
      | ends le alike entered result =>
          exact (ih alike entered (.cons result (mono_all before le)) (mono_all others le)).of_le le

/-- What is done to the results of copies that are alike, when both have gone on. -/
theorem Copies.map {α α' β β' : Type} {R : Partners → α → α' → Prop} {S : Partners → β → β' → Prop}
    {copy : Option (Heap × Copied × α)} {copy' : Option (Heap × Copied × α')}
    (copies : p.Copies R copy copy') {f : Heap × Copied × α → Heap × Copied × β}
    {f' : Heap × Copied × α' → Heap × Copied × β'}
    (next
      : ∀ q h h' copied copied' a a',
          p ≤ q
          → Heaps q h h'
          → List.Forall₂ q.Entries copied copied'
          → R q a a'
          → q.Copies S (some (f (h, copied, a))) (some (f' (h', copied', a'))))
    : p.Copies S (copy.map f) (copy'.map f') := by
  cases copies with
  | never => exact .never
  | ends le alike entered result => exact (next _ _ _ _ _ _ _ le alike entered result).of_le le

/-- Copies of values that are alike are alike, by induction on the depth. -/
theorem copies_copyTo (depth : Nat) (alike : p.Heaps h h') {copied copied' : Copied}
    (entered : List.Forall₂ p.Entries copied copied') {v v' : Value} (same : p.Values v v')
    : p.Copies Values (h.copyTo depth copied v) (h'.copyTo depth copied' v') := by
  induction depth using Nat.strongRecOn generalizing p h h' copied copied' v v' with
  | ind depth ih =>
      cases same with
      | plain standsAlone =>
          cases v with
          | array | callable | object => exact absurd trivial standsAlone
          | null | integer _ | boolean _ | float _ | string _ =>
              simp only [Heap.copyTo]
              exact .ends le_rfl alike entered (.plain standsAlone)
      | @array a a' paired =>
          rcases alike.find_copied paired entered with
            ⟨entry, entry', known, known', pairs⟩ | ⟨new, new'⟩
          · rw [Heap.copyTo_copied known, Heap.copyTo_copied known']
            exact .ends le_rfl alike entered (.array pairs.2)
          cases depth with
          | zero =>
              rw [Heap.copyTo_array_zero new, Heap.copyTo_array_zero new']
              exact .never
          | succ depth =>
              rw [Heap.copyTo_array_succ new, Heap.copyTo_array_succ new']
              have grids := alike.grid a a' paired
              have le := alike.le_withArrays
              have first : (p.withArrays ⟨h.arrays.size⟩ ⟨h'.arrays.size⟩).Entries
                  (a, ⟨h.arrays.size⟩) (a', ⟨h'.arrays.size⟩) := ⟨.inl paired, .inr ⟨rfl, rfl⟩⟩
              have cells := copies_copyEach
                (fun _ _ _ _ _ _ _ alike entered same =>
                  ih depth (Nat.lt_succ_self depth) alike entered same)
                (alike.addArray grids.shell) (.cons first (entered.imp fun _ _ one => one.mono le)) .nil
                (mono_all grids.cells le)
              refine (cells.map ?_).of_le le
              intro q h₁ h₁' copied₁ copied₁' values values' le' alike entered same
              have made : q.arrays ⟨h.arrays.size⟩ ⟨h'.arrays.size⟩ := le'.arrays _ _ (.inr ⟨rfl, rfl⟩)
              exact .ends le_rfl (alike.setGrid made ((alike.grid _ _ made).replace same)) entered
                (.array made)
      | @callable c c' paired =>
          have same := alike.callable c c' paired
          generalize what : h.callable c = one at same
          generalize what' : h'.callable c' = one' at same
          cases same with
          | routine =>
              rw [Heap.copyTo_direct what, Heap.copyTo_direct what']
              exact .ends le_rfl alike entered (.callable paired)
          | @closure base base' bases bound bound' arguments =>
              cases depth with
              | zero =>
                  rw [Heap.copyTo_closure_zero what, Heap.copyTo_closure_zero what']
                  exact .never
              | succ depth =>
                  rw [Heap.copyTo_closure_succ what, Heap.copyTo_closure_succ what']
                  have each : p.Copies (fun q => List.Forall₂ q.Values)
                      (Heap.copyEach (Heap.copyAlone depth) h [] [] bound)
                      (Heap.copyEach (Heap.copyAlone depth) h' [] [] bound') := by
                    refine copies_copyEach ?_ alike .nil .nil arguments
                    intro q h₁ h₁' _ _ v v' alike _ same
                    refine (ih depth (Nat.lt_succ_self depth) alike .nil same).map ?_
                    intro _ _ _ _ _ _ _ _ alike _ same
                    exact .ends le_rfl alike .nil same
                  refine each.map ?_
                  intro q h₁ h₁' _ _ values values' le alike _ same
                  have made := alike.addClosure (le.callables _ _ bases) same
                  exact .ends alike.le_withCallables made
                    (entered.imp fun _ _ one => one.mono (le.trans alike.le_withCallables))
                    (.callable (.inr ⟨rfl, rfl⟩))

/-- A copy on its own: both end, or both do not, whatever else there is on the two heaps. -/
theorem Heaps.copy (alike : p.Heaps h h') {v v' : Value} (same : p.Values v v')
    : (∃ q h₁ h₁' w w', p ≤ q ∧ h.copy v = some (h₁, w) ∧ h'.copy v' = some (h₁', w')
        ∧ q.Heaps h₁ h₁' ∧ q.Values w w')
      ∨ (h.copy v = none ∧ h'.copy v' = none) := by
  -- the heaps differ in size, so the copies are compared at a depth that is enough for both
  let depth := max h.copyDepth h'.copyDepth
  have copies := copies_copyTo depth alike .nil same
  have left := Heap.copyTo_of_copyDepth_le alike.encloses ⟨v', same⟩ (Nat.le_max_left _ h'.copyDepth)
  have right :=
    Heap.copyTo_of_copyDepth_le alike.swap.encloses ⟨v, same.swap h'⟩
      (Nat.le_max_right h.copyDepth _)
  rw [left, right] at copies
  rw [Heap.copy, Heap.copy]
  generalize h.copyTo _ [] v = copy at copies ⊢
  generalize h'.copyTo _ [] v' = copy' at copies ⊢
  cases copies with
  | never => exact .inr ⟨rfl, rfl⟩
  | ends le alike _ result => exact .inl ⟨_, _, _, _, _, le, rfl, rfl, alike, result⟩

-----------------------------------------------------------------------------------------
-- What a callable comes to
-----------------------------------------------------------------------------------------

/-- Partners resolve to routines that are partners and arguments that are alike, by induction on the
chain of closures. It descends on both sides, so no fuel is missing.
-/
theorem Heaps.resolveFrom (alike : p.Heaps h h') {fuel fuel' : Nat} {c c' : CallableId}
    (paired : p.callables c c') (enough : c.index < fuel) (enough' : c'.index < fuel')
    {later later' : List Value} (same : List.Forall₂ p.Values later later')
    : ∃ r r' arguments arguments',
        h.resolveFrom fuel c later = (.subroutine r, arguments)
        ∧ h'.resolveFrom fuel' c' later' = (.subroutine r', arguments')
        ∧ p.routines r r' ∧ List.Forall₂ p.Values arguments arguments' := by
  induction fuel generalizing fuel' c c' later later' with
  | zero => exact absurd enough (Nat.not_lt_zero _)
  | succ fuel ih =>
      have callables := alike.callable c c' paired
      have lower := alike.descends c c'
      cases fuel' with
      | zero => exact absurd enough' (Nat.not_lt_zero _)
      | succ fuel' =>
          rw [Heap.resolveFrom.eq_def h, Heap.resolveFrom.eq_def h']
          dsimp only
          generalize h.callable c = what at callables lower
          generalize h'.callable c' = what' at callables lower
          cases callables with
          | routine paired => exact ⟨_, _, later, later', rfl, rfl, paired, same⟩
          | closure bases arguments =>
              obtain ⟨below, below'⟩ := lower _ _ _ _ paired rfl rfl
              exact ih bases (by omega) (by omega) (List.rel_append arguments same)

/-- Callables that are partners lead to routines that are partners, with alike values bound on the
way.
-/
theorem Heaps.resolve (alike : p.Heaps h h') {c c' : CallableId} (paired : p.callables c c')
    : ∃ r r' arguments arguments',
        h.resolve c = (.subroutine r, arguments) ∧ h'.resolve c' = (.subroutine r', arguments')
        ∧ p.routines r r' ∧ List.Forall₂ p.Values arguments arguments' :=
  alike.resolveFrom paired (Nat.lt_succ_self _) (Nat.lt_succ_self _) .nil

theorem Heaps.callableName (alike : p.Heaps h h') {c c' : CallableId} (paired : p.callables c c')
    : h'.callableName c' = h.callableName c := by
  obtain ⟨r, r', arguments, arguments', resolved, resolved', routines, -⟩ := alike.resolve paired
  rw [Heap.callableName, Heap.callableName, resolved, resolved']
  simp only [Heap.calleeName]
  rw [(alike.routine r r' routines).rest]

theorem Heaps.callableMaxArguments (alike : p.Heaps h h') {c c' : CallableId}
    (paired : p.callables c c')
    : h'.callableMaxArguments c' = h.callableMaxArguments c := by
  obtain ⟨r, r', arguments, arguments', resolved, resolved', routines, same⟩ := alike.resolve paired
  simp only [Heap.callableMaxArguments, resolved, resolved', Heap.calleeMaxArguments, same.length_eq]
  rw [(alike.routine r r' routines).rest]
  rfl

/-- Values that are alike have the same texts. -/
theorem Heaps.text (alike : p.Heaps h h') (readable : Bool) {v v' : Value} (same : p.Values v v')
    : h'.text readable v' = h.text readable v := by
  cases same with
  | plain standsAlone =>
      cases v with
      | array | callable | object => exact absurd trivial standsAlone
      | null | integer _ | boolean _ | float _ | string _ => rfl
  | array paired => rfl
  | callable paired =>
      have callables := alike.callable _ _ paired
      simp only [Heap.text, Heap.callableText]
      generalize h.callable _ = what at callables
      generalize h'.callable _ = what' at callables
      cases callables with
      | closure => rfl
      | @routine r r' paired =>
          simp only [Heap.calleeText]
          rw [(alike.routine r r' paired).rest]

/-- The plain texts of values that are alike are the same. -/
theorem Heaps.plain (alike : p.Heaps h h') {v v' : Value} (same : p.Values v v')
    : h'.plain v' = h.plain v :=
  alike.text false same

end Partners
end TaskMachine

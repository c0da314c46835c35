import TaskMachine.Proofs.Heap.Regions

/-!
What work with the heap keeps to. A discipline says which values are at home and which heaps are in
order. On a heap in order, work that has only values at hand that are at home comes by no others,
changes no array but those at home, and leaves the heap in order. One discipline is that of a
region, which whatever is in it stays in; but what is at home may also lead to something else, as
long as it takes a call to get there.
-/

namespace TaskMachine

namespace Heap

variable {h h' h₁ h₂ : Heap} {I : Heap → Prop} {R P : Value → Prop} {v : Value}

/-- The heaps in order with the values at home: what is read in an array at home is at home, and so
is what a copy shares with its original; and a heap stays in order when something is made from
values at home.
-/
class Discipline (I : Heap → Prop) (R : Value → Prop) : Prop where
  bare {h : Heap} {v : Value} (order : I h) (bare : Bare v) : R v
  unused {h : Heap} {v : Value} (order : I h) (absent : ¬ h.Present v) : R v
  cells {h : Heap} {a : ArrayId} (order : I h) (inside : R (.array a))
    : ∀ w ∈ (h.grid a).cells, h.Owned R w
  copies {h : Heap} (order : I h) : ∃ P, h.Encloses P ∧ h.Shares P R ∧ ∀ v, h.Owned R v → P v
  fill {h h' : Heap} (order : I h) (fills : Fills R h h') : I h'

/-- What a region has is at home as long as it is a region. -/
instance (R : Value → Prop) : Discipline (fun h => h.Region R) R where
  bare region := region.bare _
  unused region := region.unused _
  cells region inside w held := region.closed _ w inside (.array (.cell held))
  copies region := ⟨_, region.encloses, region.shares, fun _ => id⟩
  fill region := region.fill

section

variable [Discipline I R]

/-- A bare value is at home. -/
theorem owned_bare (order : I h) (bare : Bare v) : h.Owned R v :=
  ⟨Discipline.bare order bare, bare h⟩

/-- A new array is at home. -/
theorem owned_addArray (order : I h) (g : Grid)
    : (h.addArray g).1.Owned R (.array (h.addArray g).2) :=
  ⟨Discipline.unused order (Nat.lt_irrefl _), by simp [addArray, Present]⟩

/-- A new callable is at home. -/
theorem owned_addCallable (order : I h) (what : Callable)
    : (h.addCallable what).1.Owned R (.callable (h.addCallable what).2) :=
  ⟨Discipline.unused order (Nat.lt_irrefl _), by simp [addCallable, Present]⟩

end

-----------------------------------------------------------------------------------------
-- Copies
-----------------------------------------------------------------------------------------

/-- Cells at home, and nulls where there are none. -/
theorem owned_resize [Discipline I R] (order : I h) {n : Nat} {cells : List Value}
    (owned : ∀ w ∈ cells, h.Owned R w) (w : Value) (member : w ∈ Grid.resize n cells.toArray)
    : h.Owned R w := by
  rcases Grid.mem_resize member with held | rfl
  · exact owned w (List.mem_toArray.mp held)
  · exact owned_bare order fun _ => trivial

/-- A copy on its way: what was on the heap is there, and all arrays copied so far are at home. -/
structure Copying (h : Heap) (I : Heap → Prop) (R : Value → Prop) (h₁ : Heap) (copied : Copied)
    : Prop where
  kept : h.Kept h₁
  order : I h₁
  copies : ∀ entry ∈ copied, h₁.Owned R (.array entry.2)

/-- What a copy has made is at home. -/
structure Made (h : Heap) (I : Heap → Prop) (R : Value → Prop) (h₁ h₂ : Heap) (copied₂ : Copied)
    (values : List Value)
    : Prop extends Copying h I R h₂ copied₂ where
  later : h₁.Kept h₂
  values : ∀ v ∈ values, h₂.Owned R v

variable {copied copied₂ : Copied} {depth : Nat}

/-- Copies of several values are at home if the copy of each is, by induction on the copies. -/
theorem made_each {S : Heap → Copied → Value → Heap → Copied → Value → Prop}
    {values values₂ : List Value} (copies : Each S h₁ copied values h₂ copied₂ values₂)
    (one
      : ∀ v ∈ values, ∀ h₁ copied h₂ copied₂ v₂, S h₁ copied v h₂ copied₂ v₂
        → h.Copying I R h₁ copied → h.Made I R h₁ h₂ copied₂ [v₂])
    (copying : h.Copying I R h₁ copied)
    : h.Made I R h₁ h₂ copied₂ values₂ := by
  induction copies with
  | nil => exact { copying with later := .refl _, values := List.forall_mem_nil _ }
  | cons once _ ih =>
      have first := one _ List.mem_cons_self _ _ _ _ _ once copying
      have others := ih (fun v later => one v (List.mem_cons_of_mem _ later)) first.toCopying
      exact { others with
        later := first.later.trans others.later
        values := List.forall_mem_cons.mpr
          ⟨others.later.owned (first.values _ List.mem_cons_self), others.values⟩
      }

/-- A copy that makes nothing has made what is at home if it shares such a value. -/
theorem Copying.share {v : Value} (copying : h.Copying I R h₁ copied) (owned : h₁.Owned R v)
    : h.Made I R h₁ h₁ copied [v] :=
  { copying with later := .refl h₁, values := List.forall_mem_singleton.mpr owned }

variable [Discipline I R]

/-- An array that is filled with copies of the cells is at home if these are. -/
theorem Copying.array {a : ArrayId} {h₃ : Heap} {cells : List Value}
    (copying : h.Copying I R h₁ copied)
    (inner
      : h.Copying I R (h₁.withShell a) ((a, ⟨h₁.arrays.size⟩) :: copied)
        → h.Made I R (h₁.withShell a) h₃ copied₂ cells)
    : h.Made I R h₁ (h₃.fill ⟨h₁.arrays.size⟩ cells) copied₂ [.array ⟨h₁.arrays.size⟩] := by
  have empty : ∀ w ∈ (Grid.ofParts (h₁.grid a).dims #[]).cells, h₁.Owned R w :=
    owned_resize copying.order (List.forall_mem_nil _)
  have owned : (h₁.withShell a).Owned R (.array ⟨h₁.arrays.size⟩) := owned_addArray copying.order _
  have shell : h₁.Kept (h₁.withShell a) := (Kept.refl h₁).addArray _
  have made : h.Made I R (h₁.withShell a) h₃ copied₂ cells := inner {
    kept := copying.kept.trans shell
    order := Discipline.fill copying.order (fills_addArray empty)
    copies := List.forall_mem_cons.mpr
      ⟨owned, fun entry old => shell.owned (copying.copies entry old)⟩
  }
  exact {
    kept := made.kept.fill copying.kept.arrays cells
    order := Discipline.fill made.order (fills_setGrid (owned_resize made.order made.values))
    copies := fun entry member => owned_setGrid _ _ (made.copies entry member)
    later := (shell.trans made.later).fill (Nat.le_refl _) cells
    values := List.forall_mem_singleton.mpr (owned_setGrid _ _ (made.later.owned owned))
  }

/-- A closure that is made of copies of the bound arguments is at home if these and its base are. -/
theorem Copying.closure {base : CallableId} {bound : List Value} {h₃ : Heap}
    (copying : h.Copying I R h₁ copied) (baseOwned : h.Owned R (.callable base))
    (inner : h.Copying I R h₁ [] → h.Made I R h₁ h₃ [] bound)
    : h.Made I R h₁ (h₃.addCallable (.closure base bound)).1 copied
        [.callable ⟨h₃.callables.size⟩] := by
  have made := inner { copying with copies := List.forall_mem_nil _ }
  have owned : (h₃.addCallable (.closure base bound)).1.Owned R (.callable ⟨h₃.callables.size⟩) :=
    owned_addCallable made.order _
  have grown := (Kept.refl h₃).addCallable (.closure base bound)
  exact {
    kept := made.kept.trans grown
    order := Discipline.fill made.order (fills_addClosure (made.kept.owned baseOwned) made.values)
    copies := fun entry member => grown.owned (made.later.owned (copying.copies entry member))
    later := made.later.trans grown
    values := List.forall_mem_singleton.mpr owned
  }

/-- The copy of a value is at home if that is so of what it shares with the value, by induction on
the copy.
-/
theorem made_copyTo (encloses : h.Encloses P) (shares : h.Shares P R) {v v₂ : Value} (within : P v)
    (copying : h.Copying I R h₁ copied) (copies : h₁.copyTo depth copied v = some (h₂, copied₂, v₂))
    : h.Made I R h₁ h₂ copied₂ [v₂] := by
  refine copyTo_induction
    (motive := fun h₁ copied v h₂ copied₂ v₂ =>
      P v → h.Copying I R h₁ copied → h.Made I R h₁ h₂ copied₂ [v₂])
    ?atomic ?direct ?entered ?array ?closure copies within copying
  case atomic =>
    intro h₁ copied v atomic _ copying
    exact copying.share (owned_bare copying.order (bare_of_atomic atomic))
  case direct =>
    intro h₁ copied c callee what within copying
    have same := copying.kept.callable c (encloses.callable c within)
    exact copying.share
      (copying.kept.owned (shares.direct c callee within (same.symm.trans what)))
  case entered =>
    intro h₁ copied a b member _ copying
    exact copying.share (copying.copies (a, b) member)
  case array =>
    intro h₁ copied a h₃ copied₂ cells _ each within copying
    rw [copying.kept.grid a (encloses.array a within)] at each
    refine copying.array (made_each each fun v member _ _ _ _ _ once => once ?_)
    exact encloses.cells a within v (Array.mem_toList_iff.mp member)
  case closure =>
    intro h₁ copied c base bound h₃ bound₃ what each within copying
    have what : h.callable c = .closure base bound :=
      (copying.kept.callable c (encloses.callable c within)).symm.trans what
    refine copying.closure (shares.base c base bound within what) (made_each each ?_)
    rintro v member h₁ _ h₂ _ v₂ ⟨rfl, rfl, copied₄, once⟩ copying
    have made := once (encloses.bound c base bound within what v member) copying
    exact { made with copies := List.forall_mem_nil _ }

/-- The copy of a value is at home if that is so of what it shares with the value, and everything on
the heap is still there as it was.
-/
theorem made_copy (order : I h) (encloses : h.Encloses P) (shares : h.Shares P R) {v v' : Value}
    (within : P v) (copies : h.copy v = some (h', v'))
    : h.Kept h' ∧ I h' ∧ h'.Owned R v' := by
  obtain ⟨⟨h₁, copied, v₁⟩, done, same⟩ := Option.map_eq_some_iff.mp copies
  cases same
  have made := made_copyTo encloses shares within
    { kept := .refl h, order := order, copies := List.forall_mem_nil _ } done
  exact ⟨made.kept, made.order, made.values _ List.mem_cons_self⟩

/-- What copies go through stays as it is when they are made. -/
theorem Encloses.kept (encloses : h.Encloses P) (kept : h.Kept h') : h'.Encloses P where
  array a within := Nat.lt_of_lt_of_le (encloses.array a within) kept.arrays
  callable c within := Nat.lt_of_lt_of_le (encloses.callable c within) kept.callables
  cells a within v held :=
    encloses.cells a within v (kept.grid a (encloses.array a within) ▸ held)
  bound c base bound within closure v held :=
    encloses.bound c base bound within
      ((kept.callable c (encloses.callable c within)).symm.trans closure) v held

/-- What is shared stays shared while the heap is kept. -/
theorem Shares.kept (shares : h.Shares P R) (encloses : h.Encloses P) (kept : h.Kept h')
    : h'.Shares P R where
  direct c callee within what :=
    kept.owned (shares.direct c callee within
      ((kept.callable c (encloses.callable c within)).symm.trans what))
  base c base bound within what :=
    kept.owned (shares.base c base bound within
      ((kept.callable c (encloses.callable c within)).symm.trans what))

-----------------------------------------------------------------------------------------
-- What work does to the heap
-----------------------------------------------------------------------------------------

/-- One thing that is done to the heap with values at home, where only certain values are written
into certain arrays.
-/
inductive Edit (R : Value → Prop) (Writes : Heap → ArrayId → Value → Prop) : Heap → Heap → Prop
  | array {h : Heap} {g : Grid} (cells : ∀ w ∈ g.cells, h.Owned R w)
    : Edit R Writes h (h.addArray g).1
  | closure {h : Heap} {base : CallableId} {bound : List Value}
    (baseOwned : h.Owned R (.callable base)) (boundOwned : ∀ w ∈ bound, h.Owned R w)
    : Edit R Writes h (h.addCallable (.closure base bound)).1
  | copy {h h' : Heap} {P : Value → Prop} {v v' : Value} (encloses : h.Encloses P)
    (shares : h.Shares P R) (within : P v) (copies : h.copy v = some (h', v'))
    : Edit R Writes h h'
  | write {h : Heap} {a : ArrayId} {indexes : List Value} {v : Value} {g : Grid}
    (arrayOwned : h.Owned R (.array a)) (owned : h.Owned R v) (writes : Writes h a v)
    (written : (h.grid a).set indexes v = .ok g)
    : Edit R Writes h (h.setGrid a g)
  | object {h : Heap} (o : ObjectId) (object : HostObject) : Edit R Writes h (h.setObject o object)

/-- Any number of things done to the heap, one after another. -/
abbrev Edits (R : Value → Prop) (Writes : Heap → ArrayId → Value → Prop) : Heap → Heap → Prop :=
  Relation.ReflTransGen (Edit R Writes)

variable {Writes : Heap → ArrayId → Value → Prop}

/-- Work with values at home leaves the heap in order, by the things that are done. -/
theorem Edit.order (edit : Edit R Writes h h') (order : I h) : I h' := by
  cases edit with
  | array cells => exact Discipline.fill order (fills_addArray cells)
  | closure baseOwned boundOwned =>
      exact Discipline.fill order (fills_addClosure baseOwned boundOwned)
  | copy encloses shares within copies => exact (made_copy order encloses shares within copies).2.1
  | @write a _ _ g arrayOwned owned _ written =>
      have cells : ∀ w ∈ g.cells, h.Owned R w := by
        intro w member
        rcases Grid.cells_of_set written member with held | rfl
        · exact Discipline.cells order arrayOwned.1 w held
        · exact owned
      exact Discipline.fill order (fills_setGrid cells)
  | object o object => exact Discipline.fill order (fills_setObject (R := R) o object)

/-- Edits keep the order of a discipline, each by itself. -/
theorem Edits.order (edits : Edits R Writes h h') (order : I h) : I h' := by
  induction edits with
  | refl => exact order
  | tail _ edit ih => exact edit.order ih

omit [Discipline I R] in
/-- Work with values at home changes no array but those at home that are written, by the things that
are done.
-/
theorem Edit.changes {Q : Value → Prop} (edit : Edit R Writes h h')
    (written : ∀ h a v, R (.array a) → Writes h a v → Q (.array a))
    : h.ChangesIn Q h' := by
  cases edit with
  | array => exact ((Kept.refl h).addArray _).changesIn rfl
  | closure => exact ((Kept.refl h).addCallable _).changesIn rfl
  | copy _ _ _ copies =>
      exact (survives_kept.copy copies).changesIn (evolves_copy copies).routines
  | write arrayOwned _ writes => exact changesIn_setGrid (written _ _ _ arrayOwned.1 writes) _
  | object => exact ⟨Nat.le_refl _, Nat.le_refl _, fun _ _ _ => rfl, fun _ _ => rfl, rfl⟩

/-- Edits change arrays only where they may be written. -/
theorem Edits.changes {Q : Value → Prop} (edits : Edits R Writes h h')
    (written : ∀ h a v, R (.array a) → Writes h a v → Q (.array a))
    : h.ChangesIn Q h' := by
  induction edits with
  | refl => exact .refl Q h
  | tail _ edit ih => exact ih.trans (edit.changes written)

theorem Edits.changesIn (edits : Edits R Writes h h') : h.ChangesIn R h' :=
  edits.changes fun _ _ _ inside _ => inside

/-- A region stays a region under edits in it. -/
theorem Edits.region (edits : Edits R Writes h h') (region : h.Region R) : h'.Region R :=
  edits.order (I := fun h => h.Region R) region

/-- Copies of values one after another are made by edits, by induction on the values. -/
theorem edits_copyList {values values' : List Value} (order : I h) (encloses : h.Encloses P)
    (shares : h.Shares P R) (within : ∀ v ∈ values, P v)
    (copies : h.copyList values = some (h', values'))
    : h.Edits R Writes h' ∧ ∀ v ∈ values', h'.Owned R v := by
  induction values generalizing h values' with
  | nil =>
      cases copies
      exact ⟨.refl, List.forall_mem_nil _⟩
  | cons v rest ih =>
      obtain ⟨h₁, v₁, rest₁, first, later, rfl⟩ := copyList_cons_eq_some.mp copies
      obtain ⟨inside, within⟩ := List.forall_mem_cons.mp within
      have copied : h.Edit R Writes h₁ := .copy encloses shares inside first
      obtain ⟨kept, order, made⟩ := made_copy order encloses shares inside first
      obtain ⟨edits, owned⟩ :=
        ih order (encloses.kept kept) (shares.kept encloses kept) within later
      exact ⟨edits.head copied, List.forall_mem_cons.mpr ⟨edits.changesIn.owned made, owned⟩⟩

end Heap
end TaskMachine

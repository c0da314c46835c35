import Mathlib.Data.Finset.Card
import Mathlib.Data.Finset.Range
import Mathlib.Data.List.Forall2
import TaskMachine.Proofs.Heap.Copies

/-!
How deep copies go. A copy only reads what was there before it, so what it comes across is known
beforehand. Between two closures it enters each array at most once; and a closure that is reached
while its own bound arguments are copied would be reached again and again. So a copy that ends at any
depth ends at `Heap.copyDepth`.
-/

namespace TaskMachine

namespace Heap

variable {h : Heap} {depth : Nat} {entered entered' : List ArrayId}

/-- The arrays that have been entered once a value is copied down to a depth, if that depth is
enough. Nothing is allocated.
-/
def follow (h : Heap) : Nat → List ArrayId → Value → Option (List ArrayId)
  | depth, entered, .array a =>
    match entered.contains a, depth with
    | true, _ => some entered
    | false, 0 => none
    | false, depth + 1 => (h.grid a).cells.toList.foldlM (follow h depth) (a :: entered)
  | depth, entered, .callable c =>
    match h.callable c, depth with
    | .direct _, _ => some entered
    | .closure .., 0 => none
    | .closure _ bound, depth + 1 =>
      if bound.all fun v => (follow h depth [] v).isSome then some entered else none
  | _, entered, _ => some entered

-----------------------------------------------------------------------------------------
-- Going deeper
-----------------------------------------------------------------------------------------

section
variable {α β : Type}

/-- What each step keeps is there after all of them, by induction on the steps. -/
theorem foldlM_keeps {f : β → α → Option β} {P : β → Prop}
    (keeps : ∀ b a b', P b → f b a = some b' → P b') {items : List α} {b b' : β} (first : P b)
    (done : items.foldlM f b = some b')
    : P b' := by
  induction items generalizing b with
  | nil =>
      cases done
      exact first
  | cons a rest ih =>
      rw [List.foldlM_cons] at done
      obtain ⟨b₁, once, others⟩ := Option.bind_eq_some_iff.mp done
      exact ih (keeps b a b₁ first once) others

/-- Steps that complete still do so where each of them does, by induction on the steps. -/
theorem foldlM_transfer {f g : β → α → Option β} {P : β → Prop}
    (keeps : ∀ b a b', P b → f b a = some b' → P b')
    (transfer : ∀ b a b', P b → f b a = some b' → g b a = some b') {items : List α} {b b' : β}
    (first : P b) (done : items.foldlM f b = some b')
    : items.foldlM g b = some b' := by
  induction items generalizing b with
  | nil => exact done
  | cons a rest ih =>
      rw [List.foldlM_cons] at done
      obtain ⟨b₁, once, others⟩ := Option.bind_eq_some_iff.mp done
      rw [List.foldlM_cons, transfer b a b₁ first once]
      exact ih (keeps b a b₁ first once) others

end

/-- A bound argument is followed on its own. -/
def followAlone (h : Heap) (depth : Nat) (_ : List ArrayId) (v : Value) : Option (List ArrayId) :=
  (h.follow depth [] v).map fun _ => []

/-- Bound arguments are followed one after another if each is on its own, by induction on them. -/
theorem foldlM_followAlone (values : List Value)
    : values.foldlM (h.followAlone depth) []
      = if values.all fun v => (h.follow depth [] v).isSome then some [] else none := by
  induction values with
  | nil => rfl
  | cons v rest ih =>
      rw [List.foldlM_cons, List.all_cons, followAlone]
      cases h.follow depth [] v with
      | none => rfl
      | some entered => simpa using ih

section
variable {a : ArrayId} {c : CallableId}

theorem follow_entered (known : a ∈ entered) (depth : Nat) (h : Heap)
    : h.follow depth entered (.array a) = some entered := by
  rw [follow.eq_def]
  simp [known]

private theorem follow_array_zero (new : a ∉ entered) (h : Heap)
    : h.follow 0 entered (.array a) = none := by
  rw [follow.eq_def]
  simp [new]

/-- An array that has not been entered is, and then what is in its cells. -/
theorem follow_array_succ (new : a ∉ entered) (depth : Nat) (h : Heap)
    : h.follow (depth + 1) entered (.array a)
      = (h.grid a).cells.toList.foldlM (h.follow depth) (a :: entered) := by
  rw [follow.eq_def]
  simp [new]

theorem follow_direct {callee : Callee} (what : h.callable c = .direct callee) (depth : Nat)
    (entered : List ArrayId)
    : h.follow depth entered (.callable c) = some entered := by
  rw [follow.eq_def]
  simp only [what]

private theorem follow_closure_zero {base : CallableId} {bound : List Value}
    (what : h.callable c = .closure base bound) (entered : List ArrayId)
    : h.follow 0 entered (.callable c) = none := by
  rw [follow.eq_def]
  simp only [what]

/-- What a closure binds is followed, each value with nothing entered, and leaves no trace among the
arrays entered outside.
-/
theorem follow_closure_succ {base : CallableId} {bound : List Value}
    (what : h.callable c = .closure base bound) (depth : Nat) (entered : List ArrayId)
    : h.follow (depth + 1) entered (.callable c)
      = if bound.all fun v => (h.follow depth [] v).isSome then some entered else none := by
  rw [follow.eq_def]
  simp only [what]

private theorem follow_closure_each {base : CallableId} {bound : List Value}
    (what : h.callable c = .closure base bound) (depth : Nat) (entered : List ArrayId)
    : h.follow (depth + 1) entered (.callable c)
      = (bound.foldlM (h.followAlone depth) []).map fun _ => entered := by
  rw [follow_closure_succ what, foldlM_followAlone]
  split <;> rfl

/-- How an array is followed to its end. -/
theorem follow_array_eq_some
    : h.follow depth entered (.array a) = some entered'
      ↔ (a ∈ entered ∧ entered' = entered)
        ∨ (a ∉ entered ∧ ∃ below, depth = below + 1
          ∧ (h.grid a).cells.toList.foldlM (h.follow below) (a :: entered) = some entered') := by
  by_cases known : a ∈ entered
  · simp [follow_entered known, known, eq_comm]
  · cases depth with
    | zero => simp [follow_array_zero known, known]
    | succ below => simp [follow_array_succ known, known]

/-- How a callable is followed to its end. -/
theorem follow_callable_eq_some
    : h.follow depth entered (.callable c) = some entered'
      ↔ entered' = entered
        ∧ ((∃ callee, h.callable c = .direct callee)
          ∨ ∃ base bound below, h.callable c = .closure base bound ∧ depth = below + 1
            ∧ ∀ v ∈ bound, (h.follow below [] v).isSome) := by
  cases what : h.callable c with
  | direct callee =>
      rw [follow_direct what, Option.some.injEq]
      exact ⟨fun same => ⟨same.symm, .inl ⟨callee, rfl⟩⟩, fun both => both.1.symm⟩
  | closure base bound =>
      cases depth with
      | zero => simp [follow_closure_zero what]
      | succ below =>
          rw [follow_closure_succ what]
          simp only [List.all_eq_true, Option.ite_none_right_eq_some, Option.some.injEq]
          constructor
          · exact fun both => ⟨both.2.symm, .inr ⟨base, bound, below, rfl, rfl, both.1⟩⟩
          · rintro ⟨rfl, ⟨_, other⟩ | ⟨_, _, _, same, depth, each⟩⟩
            · cases other
            · cases same
              cases depth
              exact ⟨each, rfl⟩

end

/-- A value that is followed to its end is so at every greater depth, by induction on the depth. -/
theorem follow_succ {v : Value} (done : h.follow depth entered v = some entered')
    : h.follow (depth + 1) entered v = some entered' := by
  induction depth using Nat.strongRecOn generalizing entered entered' v with
  | ind depth ih =>
      cases v with
      | array a =>
          rcases follow_array_eq_some.mp done with old | ⟨new, below, rfl, inner⟩
          · exact follow_array_eq_some.mpr (.inl old)
          · refine follow_array_eq_some.mpr (.inr ⟨new, below + 1, rfl, ?_⟩)
            exact foldlM_transfer (P := fun _ => True) (fun _ _ _ _ _ => trivial)
              (fun _ _ _ _ => ih below (Nat.lt_succ_self below)) trivial inner
      | callable c =>
          obtain ⟨same, direct | ⟨base, bound, below, what, rfl, inner⟩⟩ :=
            follow_callable_eq_some.mp done
          · exact follow_callable_eq_some.mpr ⟨same, .inl direct⟩
          · refine follow_callable_eq_some.mpr ⟨same, .inr ⟨base, bound, below + 1, what, rfl, ?_⟩⟩
            intro v member
            obtain ⟨left, done⟩ := Option.isSome_iff_exists.mp (inner v member)
            exact Option.isSome_iff_exists.mpr ⟨left, ih below (Nat.lt_succ_self below) done⟩
      | null | integer _ | boolean _ | float _ | string _ | object _ =>
          simpa only [follow] using done

/-- What is followed to its end is so at any greater depth, too. -/
theorem follow_mono {depth' : Nat} (le : depth ≤ depth') {v : Value}
    (done : h.follow depth entered v = some entered')
    : h.follow depth' entered v = some entered' := by
  induction le with
  | refl => exact done
  | step _ ih => exact follow_succ ih

/-- Entered arrays stay entered, by induction on the depth. -/
theorem subset_of_follow {v : Value} (done : h.follow depth entered v = some entered')
    : entered ⊆ entered' := by
  induction depth using Nat.strongRecOn generalizing entered entered' v with
  | ind depth ih =>
      cases v with
      | array a =>
          rcases follow_array_eq_some.mp done with ⟨-, rfl⟩ | ⟨-, below, rfl, inner⟩
          · exact List.Subset.refl _
          · refine List.Subset.trans (List.subset_cons_self a entered) ?_
            refine foldlM_keeps (P := fun later => a :: entered ⊆ later) ?_ (List.Subset.refl _) inner
            exact fun _ _ _ within once =>
              List.Subset.trans within (ih below (Nat.lt_succ_self below) once)
      | callable c => exact (follow_callable_eq_some.mp done).1 ▸ List.Subset.refl _
      | null | integer _ | boolean _ | float _ | string _ | object _ =>
          simp only [follow, Option.some.injEq] at done
          exact done ▸ List.Subset.refl _

-----------------------------------------------------------------------------------------
-- Deep enough
-----------------------------------------------------------------------------------------

/-- The number of arrays that have not been entered. -/
def unentered (h : Heap) (entered : List ArrayId) : Nat :=
  ((Finset.range h.arrays.size).filter fun n => (⟨n⟩ : ArrayId) ∉ entered).card

/-- The number of callables that are followed to their end at a depth. -/
def ending (h : Heap) (depth : Nat) : Nat :=
  ((Finset.range h.callables.size).filter fun n => (h.follow depth [] (.callable ⟨n⟩)).isSome).card

theorem unentered_le (h : Heap) (entered : List ArrayId) : h.unentered entered ≤ h.arrays.size :=
  (Finset.card_filter_le _ _).trans (Finset.card_range _).le

private theorem ending_le (h : Heap) (depth : Nat) : h.ending depth ≤ h.callables.size :=
  (Finset.card_filter_le _ _).trans (Finset.card_range _).le

theorem unentered_anti (more : entered ⊆ entered') : h.unentered entered' ≤ h.unentered entered := by
  apply Finset.card_le_card
  apply Finset.monotone_filter_right
  exact fun n _ new known => new (more known)

/-- Entering an array leaves one less. -/
theorem unentered_cons_lt {a : ArrayId} (inside : a.index < h.arrays.size) (new : a ∉ entered)
    : h.unentered (a :: entered) < h.unentered entered := by
  apply Finset.card_lt_card
  refine Finset.ssubset_iff_of_subset ?_ |>.mpr ⟨a.index, ?_, ?_⟩
  · exact Finset.monotone_filter_right _ fun n _ new known => new (List.mem_cons_of_mem a known)
  · exact Finset.mem_filter.mpr ⟨Finset.mem_range.mpr inside, new⟩
  · simp

private theorem ending_le_succ (h : Heap) (depth : Nat) : h.ending depth ≤ h.ending (depth + 1) := by
  apply Finset.card_le_card
  apply Finset.monotone_filter_right
  intro n _ done
  obtain ⟨entered, done⟩ := Option.isSome_iff_exists.mp done
  exact Option.isSome_iff_exists.mpr ⟨entered, follow_succ done⟩

/-- A callable that ends at a depth but not at the one before is one more. -/
theorem ending_lt_succ {c : CallableId} (inside : c.index < h.callables.size)
    (before : (h.follow depth [] (.callable c)).isSome = false)
    (done : (h.follow (depth + 1) [] (.callable c)).isSome = true)
    : h.ending depth < h.ending (depth + 1) := by
  apply Finset.card_lt_card
  refine Finset.ssubset_iff_of_subset ?_ |>.mpr ⟨c.index, ?_, ?_⟩
  · apply Finset.monotone_filter_right
    intro n _ done
    obtain ⟨entered, done⟩ := Option.isSome_iff_exists.mp done
    exact Option.isSome_iff_exists.mpr ⟨entered, follow_succ done⟩
  · exact Finset.mem_filter.mpr ⟨Finset.mem_range.mpr inside, done⟩
  · intro ended
    rw [(Finset.mem_filter.mp ended).2] at before
    cases before

/-- A depth that is enough for a value: one for each array that is still to be entered, and one for
each closure and each array below it.
-/
def enough (h : Heap) (depth : Nat) (entered : List ArrayId) : Nat :=
  h.unentered entered + h.ending depth * (h.arrays.size + 1) + 1

/-- The depth that copies go to is enough from the beginning. -/
theorem enough_le_copyDepth (h : Heap) (depth : Nat) : h.enough depth [] ≤ h.copyDepth := by
  have arrays := h.unentered_le []
  have callables := Nat.mul_le_mul_right (h.arrays.size + 1) (h.ending_le depth)
  rw [enough, copyDepth, Nat.succ_mul]
  omega

/-- What is enough at a depth is left over from what is enough one deeper. -/
theorem enough_succ (h : Heap) (depth : Nat) (entered : List ArrayId)
    : h.enough depth entered ≤ h.enough (depth + 1) entered := by
  have := Nat.mul_le_mul_right (h.arrays.size + 1) (h.ending_le_succ depth)
  simp only [enough]
  omega

/-- A value that is followed to its end at any depth is so at one that is enough, by induction on the
depth. A closure that ends at a smaller depth is left to the induction; any other adds to those
that end.
-/
theorem follow_enough {v : Value} (done : h.follow depth entered v = some entered')
    : h.follow (h.enough depth entered) entered v = some entered' := by
  induction depth generalizing entered entered' v with
  | zero => exact follow_mono (Nat.zero_le _) done
  | succ depth ih =>
      cases v with
      | null | integer _ | boolean _ | float _ | string _ | object _ =>
          simpa only [follow] using done
      | array a =>
          rcases follow_array_eq_some.mp done with old | ⟨new, below, same, inner⟩
          · exact follow_array_eq_some.mpr (.inl old)
          · cases same
            refine follow_array_eq_some.mpr (.inr ⟨new, _, rfl, ?_⟩)
            by_cases inside : a.index < h.arrays.size
            · -- the arrays inside have at least this one less to enter
              refine foldlM_transfer (P := fun later => a :: entered ⊆ later) ?_ ?_
                (List.Subset.refl _) inner
              · exact fun _ _ _ within once => List.Subset.trans within (subset_of_follow once)
              · intro later v later' within once
                refine follow_mono ?_ (ih once)
                have fewer := unentered_cons_lt inside new
                have still := unentered_anti (h := h) within
                have more := Nat.mul_le_mul_right (h.arrays.size + 1) (h.ending_le_succ depth)
                rw [enough]
                omega
            · have empty : (h.grid a).cells.toList = [] := by
                rw [grid, Array.getElem?_eq_none (Nat.le_of_not_lt inside)]
                rfl
              rw [empty] at inner ⊢
              exact inner
      | callable c =>
          obtain ⟨rfl, direct | ⟨base, bound, below, what, same, inner⟩⟩ :=
            follow_callable_eq_some.mp done
          · exact follow_callable_eq_some.mpr ⟨rfl, .inl direct⟩
          cases same
          cases before : (h.follow depth [] (.callable c)).isSome with
          | true =>
              obtain ⟨left, ends⟩ := Option.isSome_iff_exists.mp before
              have ends' : h.follow depth entered' (.callable c) = some entered' :=
                follow_callable_eq_some.mpr ⟨rfl, (follow_callable_eq_some.mp ends).2⟩
              exact follow_mono (h.enough_succ depth entered') (ih ends')
          | false =>
              refine follow_callable_eq_some.mpr ⟨rfl, .inr ⟨base, bound, _, what, rfl, ?_⟩⟩
              intro v member
              obtain ⟨left, ends⟩ := Option.isSome_iff_exists.mp (inner v member)
              refine Option.isSome_iff_exists.mpr ⟨left, follow_mono ?_ (ih ends)⟩
              have inside : c.index < h.callables.size := by
                by_contra outside
                rw [callable, Array.getElem?_eq_none (Nat.le_of_not_lt outside)] at what
                cases what
              have ends : (h.follow (depth + 1) [] (.callable c)).isSome = true :=
                Option.isSome_iff_exists.mpr
                  ⟨[], follow_callable_eq_some.mpr ⟨rfl, (follow_callable_eq_some.mp done).2⟩⟩
              have one := ending_lt_succ inside before ends
              have arrays := h.unentered_le []
              have room := Nat.mul_le_mul_right (h.arrays.size + 1) (Nat.succ_le_of_lt one)
              rw [Nat.succ_mul] at room
              rw [enough]
              omega

-----------------------------------------------------------------------------------------
-- What copies leave alone
-----------------------------------------------------------------------------------------

/-- Everything on the heap is still there as it was. -/
structure Kept (h h₁ : Heap) : Prop where
  arrays : h.arrays.size ≤ h₁.arrays.size
  callables : h.callables.size ≤ h₁.callables.size
  grid : ∀ a, a.index < h.arrays.size → h₁.grid a = h.grid a
  callable : ∀ c, c.index < h.callables.size → h₁.callable c = h.callable c

theorem Kept.refl (h : Heap) : h.Kept h :=
  ⟨Nat.le_refl _, Nat.le_refl _, fun _ _ => rfl, fun _ _ => rfl⟩

variable {h₁ : Heap}

theorem grid_addArray_of_lt (h : Heap) (g : Grid) {a : ArrayId} (inside : a.index < h.arrays.size)
    : (h.addArray g).1.grid a = h.grid a := by
  simp only [addArray, Heap.grid, Array.getElem?_push_lt inside, Array.getElem?_eq_getElem inside]

@[simp]
theorem grid_addArray_new (h : Heap) (g : Grid) : (h.addArray g).1.grid ⟨h.arrays.size⟩ = g := by
  simp [addArray, Heap.grid]

theorem callable_addCallable_of_lt (h : Heap) (c : Callable) {d : CallableId}
    (inside : d.index < h.callables.size)
    : (h.addCallable c).1.callable d = h.callable d := by
  simp only [addCallable, Heap.callable, Array.getElem?_push_lt inside,
    Array.getElem?_eq_getElem inside]

@[simp]
theorem callable_addCallable_new (h : Heap) (c : Callable)
    : (h.addCallable c).1.callable ⟨h.callables.size⟩ = c := by
  simp [addCallable, Heap.callable]

theorem grid_setGrid_self (h : Heap) {a : ArrayId} (inside : a.index < h.arrays.size) (g : Grid)
    : (h.setGrid a g).grid a = g := by
  simp [setGrid, Heap.grid, inside]

theorem grid_setGrid_of_ne (h : Heap) {a b : ArrayId} (apart : a ≠ b) (g : Grid)
    : (h.setGrid a g).grid b = h.grid b := by
  have different : a.index ≠ b.index := fun same => apart (congrArg ArrayId.mk same)
  simp only [setGrid, Heap.grid, Array.getElem?_setIfInBounds_ne different]

/-- What an array holds after one has been replaced is in the new one, or was there before. -/
theorem mem_cells_setGrid {a b : ArrayId} {g : Grid} {v : Value}
    (held : v ∈ ((h.setGrid a g).grid b).cells)
    : (b = a ∧ v ∈ g.cells) ∨ v ∈ (h.grid b).cells := by
  by_cases same : a = b
  · subst same
    rcases grid_setGrid h a a g with new | old
    · exact .inl ⟨rfl, new ▸ held⟩
    · exact .inr (old ▸ held)
  · exact .inr (grid_setGrid_of_ne h same g ▸ held)

/-- What an array holds after a store is the value, or was there before. -/
theorem mem_cells_store {a b : ArrayId} {g : Grid} {indexes : List Value} {u v : Value}
    (written : (h.grid a).set indexes u = .ok g) (held : v ∈ ((h.setGrid a g).grid b).cells)
    : v ∈ (h.grid b).cells ∨ (b = a ∧ v = u) := by
  rcases mem_cells_setGrid held with ⟨rfl, new⟩ | before
  · exact (Grid.cells_of_set written new).imp_right fun same => ⟨rfl, same⟩
  · exact .inl before

/-- A heap that is kept stays kept when an array is added. -/
theorem Kept.addArray (kept : h.Kept h₁) (g : Grid) : h.Kept (h₁.addArray g).1 where
  arrays := by
    rw [Heap.addArray, Array.size_push]
    exact Nat.le_succ_of_le kept.arrays
  callables := kept.callables
  grid a inside := by
    rw [grid_addArray_of_lt h₁ g (Nat.lt_of_lt_of_le inside kept.arrays)]
    exact kept.grid a inside
  callable := kept.callable

/-- A heap that is kept stays kept when a callable is added. -/
theorem Kept.addCallable (kept : h.Kept h₁) (c : Callable) : h.Kept (h₁.addCallable c).1 where
  arrays := kept.arrays
  callables := by
    rw [Heap.addCallable, Array.size_push]
    exact Nat.le_succ_of_le kept.callables
  grid := kept.grid
  callable d inside := by
    rw [callable_addCallable_of_lt h₁ c (Nat.lt_of_lt_of_le inside kept.callables)]
    exact kept.callable d inside

/-- Only arrays that were not there at first are filled. -/
theorem Kept.fill (kept : h.Kept h₁) {a : ArrayId} (new : h.arrays.size ≤ a.index)
    (cells : List Value)
    : h.Kept (h₁.fill a cells) where
  arrays := by
    rw [Heap.fill, setGrid, Array.size_setIfInBounds]
    exact kept.arrays
  callables := kept.callables
  grid b inside := by
    have apart : a ≠ b := by
      rintro rfl
      omega
    rw [Heap.fill, grid_setGrid_of_ne h₁ apart]
    exact kept.grid b inside
  callable := kept.callable

/-- Values with the property refer to arrays and callables that the heap has, and so do the values in
these.
-/
structure Encloses (h : Heap) (P : Value → Prop) : Prop where
  array : ∀ a, P (.array a) → a.index < h.arrays.size
  callable : ∀ c, P (.callable c) → c.index < h.callables.size
  cells : ∀ a, P (.array a) → ∀ v ∈ (h.grid a).cells, P v
  bound
    : ∀ c base bound, P (.callable c) → h.callable c = .closure base bound → ∀ v ∈ bound, P v

/-- A copy enters what is followed, or both do not come to an end; what was on the heap is left as it
was.
-/
structure Tracks (h : Heap) {α : Type} (copy : Option (Heap × Copied × α))
    (entered : Option (List ArrayId)) : Prop where
  entered : entered = copy.map fun result => result.2.1.map (·.1)
  kept : ∀ result, copy = some result → h.Kept result.1

variable {copied : Copied} {P : Value → Prop}

theorem Tracks.none {α : Type} : h.Tracks (none : Option (Heap × Copied × α)) none :=
  ⟨rfl, fun _ never => nomatch never⟩

theorem Tracks.some {α : Type} {a : α} (kept : h.Kept h₁)
    : h.Tracks (some (h₁, copied, a)) (some (copied.map (·.1))) := by
  refine ⟨rfl, fun _ same => ?_⟩
  cases same
  exact kept

/-- What is done to the result of a copy is done to what it has entered. -/
theorem Tracks.map {α β : Type} {copy : Option (Heap × Copied × α)} {entered : Option (List ArrayId)}
    (tracks : h.Tracks copy entered) {f : Heap × Copied × α → Heap × Copied × β}
    {g : List ArrayId → List ArrayId} (along : ∀ r, (f r).2.1.map (·.1) = g (r.2.1.map (·.1)))
    (keeps : ∀ r, h.Kept r.1 → h.Kept (f r).1)
    : h.Tracks (copy.map f) (entered.map g) := by
  obtain ⟨entered, kept⟩ := tracks
  cases copy with
  | none =>
      rw [entered]
      exact .none
  | some r =>
      rw [entered]
      refine ⟨?_, fun _ same => ?_⟩
      · exact congrArg Option.some (along r).symm
      · cases same
        exact keeps r (kept r rfl)

/-- Copies of several values are tracked if the copy of each is, by induction on the values. -/
theorem tracks_copyEach {step : Heap → Copied → Value → Option (Heap × Copied × Value)}
    {along : List ArrayId → Value → Option (List ArrayId)} {values : List Value}
    (each
      : ∀ v ∈ values, ∀ h₁ copied, h.Kept h₁ → h.Tracks (step h₁ copied v) (along (copied.map (·.1)) v))
    (kept : h.Kept h₁) (done : List Value)
    : h.Tracks (copyEach step h₁ copied done values) (values.foldlM along (copied.map (·.1))) := by
  induction values generalizing h₁ copied done with
  | nil => exact .some kept
  | cons v rest ih =>
      obtain ⟨entered, kept⟩ := each v List.mem_cons_self h₁ copied kept
      rw [copyEach, List.foldlM_cons, entered]
      cases once : step h₁ copied v with
      | none => exact .none
      | some result =>
          exact ih (fun w later => each w (List.mem_cons_of_mem v later)) (kept result once) _

/-- A copy is tracked by what is followed on the heap as it was before, by induction on the depth. -/
theorem tracks_copyTo (encloses : h.Encloses P) {v : Value} (within : P v) (kept : h.Kept h₁)
    : h.Tracks (h₁.copyTo depth copied v) (h.follow depth (copied.map (·.1)) v) := by
  induction depth using Nat.strongRecOn generalizing h₁ copied v with
  | ind depth ih =>
      cases v with
      | array a =>
          rcases Option.eq_none_or_eq_some (copied.find? (·.1 == a)) with new | ⟨entry, known⟩
          · have outside : a ∉ copied.map (·.1) := by
              intro member
              obtain ⟨entry, member, same⟩ := List.mem_map.mp member
              exact List.find?_eq_none.mp new entry member (beq_iff_eq.mpr same)
            cases depth with
            | zero =>
                rw [copyTo_array_zero new, follow_array_zero outside]
                exact .none
            | succ depth =>
                have shell := kept.addArray (Grid.ofParts (h₁.grid a).dims #[])
                have cells : h.Tracks
                    (copyEach (copyTo depth) (h₁.withShell a) ((a, ⟨h₁.arrays.size⟩) :: copied) []
                      (h.grid a).cells.toList)
                    ((h.grid a).cells.toList.foldlM (h.follow depth) (a :: copied.map (·.1))) :=
                  tracks_copyEach (fun v member h₂ copied kept => ih depth (Nat.lt_succ_self depth)
                    (encloses.cells a within v (Array.mem_toList_iff.mp member)) kept) shell []
                rw [copyTo_array_succ new, follow_array_succ outside,
                  kept.grid a (encloses.array a within), ← Option.map_id_apply (x := List.foldlM _ _ _)]
                exact cells.map (fun _ => rfl) fun r kept' => kept'.fill kept.arrays r.2.2
          · have member : a ∈ copied.map (·.1) := by
              have same := List.find?_some known
              exact List.mem_map.mpr ⟨entry, List.mem_of_find?_eq_some known, beq_iff_eq.mp same⟩
            rw [copyTo_copied known, follow_entered member]
            exact .some kept
      | callable c =>
          have same := kept.callable c (encloses.callable c within)
          cases what : h.callable c with
          | direct callee =>
              rw [copyTo_direct (same.trans what), follow_direct what]
              exact .some kept
          | closure base bound =>
              cases depth with
              | zero =>
                  rw [copyTo_closure_zero (same.trans what), follow_closure_zero what]
                  exact .none
              | succ depth =>
                  have each : h.Tracks (copyEach (copyAlone depth) h₁ [] [] bound)
                      (bound.foldlM (h.followAlone depth) []) := by
                    refine tracks_copyEach (fun v member h₂ copied kept => ?_) kept []
                    have once : h.Tracks (h₂.copyTo depth [] v) (h.follow depth [] v) :=
                      ih depth (Nat.lt_succ_self depth)
                        (encloses.bound c base bound within what v member) kept
                    exact once.map (fun _ => rfl) fun r kept => kept
                  rw [copyTo_closure_succ (same.trans what), follow_closure_each what]
                  exact each.map (fun _ => rfl) fun r kept => kept.addCallable (.closure base r.2.2)
      | null | integer _ | boolean _ | float _ | string _ | object _ =>
          simp only [copyTo, follow]
          exact .some kept

-----------------------------------------------------------------------------------------
-- Copies at a greater depth
-----------------------------------------------------------------------------------------

/-- Copies of several values are the same for a step that copies the same, by induction on them. -/
theorem copyEach_transfer {step step' : Heap → Copied → Value → Option (Heap × Copied × Value)}
    (transfer : ∀ h copied v r, step h copied v = some r → step' h copied v = some r)
    {done values : List Value} {r : Heap × Copied × List Value}
    (copies : copyEach step h copied done values = some r)
    : copyEach step' h copied done values = some r := by
  induction values generalizing h copied done with
  | nil => exact copies
  | cons v rest ih =>
      cases once : step h copied v with
      | none => simp [copyEach, once] at copies
      | some result =>
          simp only [copyEach, once] at copies
          simp only [copyEach, transfer _ _ _ _ once]
          exact ih copies

/-- A copy that ends is the same at every greater depth, by induction on the depth. -/
theorem copyTo_succ {v : Value} {r : Heap × Copied × Value} (copies : h.copyTo depth copied v = some r)
    : h.copyTo (depth + 1) copied v = some r := by
  induction depth using Nat.strongRecOn generalizing h copied v r with
  | ind depth ih =>
      obtain ⟨h', copied', v'⟩ := r
      cases v with
      | array a =>
          rcases copyTo_array_cases copies with
            ⟨entry, known, rfl, rfl, rfl⟩ | ⟨less, h₁, cells, rfl, new, inner, rfl, rfl⟩
          · exact copyTo_copied known _ _
          · have once h copied v r (done : copyTo less h copied v = some r)
                : copyTo (less + 1) h copied v = some r :=
              ih less (Nat.lt_succ_self less) done
            rw [copyTo_array_succ new, copyEach_transfer once inner]
            rfl
      | callable c =>
          rcases copyTo_callable_cases copies with
            ⟨callee, what, rfl, rfl, rfl⟩
            | ⟨base, bound, less, h₁, copied₁, bound₁, what, rfl, inner, rfl, rfl, rfl⟩
          · exact copyTo_direct what _ _
          · have once h copied v r (alone : copyAlone less h copied v = some r)
                : copyAlone (less + 1) h copied v = some r := by
              obtain ⟨r₁, once, outer⟩ := Option.map_eq_some_iff.mp alone
              exact Option.map_eq_some_iff.mpr ⟨r₁, ih less (Nat.lt_succ_self less) once, outer⟩
            rw [copyTo_closure_succ what, copyEach_transfer once inner]
            rfl
      | null | integer _ | boolean _ | float _ | string _ | object _ =>
          simpa only [copyTo] using copies

/-- A copy ends at a depth just if the value is followed to its end there, also when other copies
have been made before.
-/
theorem isSome_copyTo (encloses : h.Encloses P) {v : Value} (within : P v) (kept : h.Kept h₁)
    (depth : Nat)
    : (h₁.copyTo depth [] v).isSome = (h.follow depth [] v).isSome := by
  have followed : h.Tracks (h₁.copyTo depth [] v) (h.follow depth [] v) :=
    tracks_copyTo encloses within kept
  rw [followed.entered, Option.isSome_map]

/-- A copy beyond `Heap.copyDepth` is the same as there: one that ends has ended before, and one that
does not end there never does.
-/
theorem copyTo_of_copyDepth_le (encloses : h.Encloses P) {v : Value} (within : P v)
    (deep : h.copyDepth ≤ depth)
    : h.copyTo depth [] v = h.copyTo h.copyDepth [] v := by
  cases shallow : h.copyTo h.copyDepth [] v with
  | some r =>
      induction deep with
      | refl => exact shallow
      | step _ ih => exact copyTo_succ ih
  | none =>
      cases further : h.follow depth [] v with
      | none =>
          have never := isSome_copyTo encloses within (.refl h) depth
          rw [further] at never
          exact Option.isNone_iff_eq_none.mp (by simpa using never)
      | some entered =>
          have ends := follow_mono (h.enough_le_copyDepth depth) (follow_enough further)
          have never := isSome_copyTo encloses within (.refl h) h.copyDepth
          rw [shallow, ends] at never
          cases never

end Heap
end TaskMachine

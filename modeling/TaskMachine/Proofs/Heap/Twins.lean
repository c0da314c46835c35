import TaskMachine.Proofs.Heap.Knots
import TaskMachine.Proofs.Heap.Regions

/-!
What a copy has to do with what it is a copy of. Each array and each closure that is copied is
paired with its copy, cell by cell and argument by argument, and whatever a copy leads to is a copy,
or a value that copies share. An array that is still being filled is paired with the array it is a
copy of before its cells are, which closes the cycles.
-/

namespace TaskMachine

/-- Which arrays and which closures have been copied, each with its copies. -/
structure Twins where
  arrays : ArrayId → ArrayId → Prop
  closures : CallableId → CallableId → Prop

/-- Copies share the value: it is no array and no closure. -/
def Heap.Fixed (h : Heap) : Value → Prop
  | .array _ => False
  | .callable c => c.index < h.callables.size ∧ ∃ callee, h.callable c = .direct callee
  | _ => True

private theorem Heap.fixed_of_atomic {h : Heap} {v : Value} (atomic : Atomic v) : h.Fixed v := by
  cases v with
  | array _ | callable _ => exact atomic.elim
  | null | integer _ | boolean _ | float _ | string _ | object _ => trivial

namespace Twins

variable {t t' : Twins} {h : Heap} {v w : Value}

/-- A value of the heap and a copy of it. -/
inductive Values (t : Twins) (h : Heap) : Value → Value → Prop
  | fixed {v : Value} (fixed : h.Fixed v) : Values t h v v
  | array {a b : ArrayId} (paired : t.arrays a b) : Values t h (.array a) (.array b)
  | closure {c d : CallableId} (paired : t.closures c d) : Values t h (.callable c) (.callable d)

/-- An array and a copy of it. -/
structure Grids (t : Twins) (h : Heap) (g g' : Grid) : Prop where
  dims : g'.dims = g.dims
  cells : List.Forall₂ (t.Values h) g.cells.toList g'.cells.toList

/-- A closure and a copy of it, which has the same base. -/
def Closures (t : Twins) (h : Heap) (what what' : Callable) : Prop :=
  ∃ base bound bound',
    what = .closure base bound ∧ what' = .closure base bound'
    ∧ List.Forall₂ (t.Values h) bound bound'

/-- All pairs are among others. -/
structure Among (t t' : Twins) : Prop where
  arrays : ∀ a b, t.arrays a b → t'.arrays a b
  closures : ∀ c d, t.closures c d → t'.closures c d

theorem Values.among (paired : t.Values h v w) (among : t.Among t') : t'.Values h v w := by
  cases paired with
  | fixed fixed => exact .fixed fixed
  | array paired => exact .array (among.arrays _ _ paired)
  | closure paired => exact .closure (among.closures _ _ paired)

theorem forall_values_among {vs ws : List Value} (paired : List.Forall₂ (t.Values h) vs ws)
    (among : t.Among t')
    : List.Forall₂ (t'.Values h) vs ws :=
  paired.imp fun _ _ one => one.among among

theorem Grids.among {g g' : Grid} (paired : t.Grids h g g') (among : t.Among t')
    : t'.Grids h g g' :=
  ⟨paired.dims, forall_values_among paired.cells among⟩

theorem Closures.among {what what' : Callable} (paired : t.Closures h what what')
    (among : t.Among t')
    : t'.Closures h what what' := by
  obtain ⟨base, bound, bound', here, there, each⟩ := paired
  exact ⟨base, bound, bound', here, there, forall_values_among each among⟩

/-- The pairs of both. -/
def join (t t' : Twins) : Twins where
  arrays a b := t.arrays a b ∨ t'.arrays a b
  closures c d := t.closures c d ∨ t'.closures c d

theorem among_join_left (t t' : Twins) : t.Among (t.join t') :=
  ⟨fun _ _ => .inl, fun _ _ => .inl⟩

theorem among_join_right (t t' : Twins) : t'.Among (t.join t') :=
  ⟨fun _ _ => .inr, fun _ _ => .inr⟩

/-- The pairs in a list, and no closures. -/
def listed (copied : Copied) : Twins where
  arrays a b := (a, b) ∈ copied
  closures _ _ := False

/-- One more closure. -/
def withClosure (t : Twins) (c d : CallableId) : Twins where
  arrays := t.arrays
  closures c' d' := (c' = c ∧ d' = d) ∨ t.closures c' d'

end Twins

namespace Heap

variable {h h₁ h₂ h₃ : Heap} {P : Value → Prop} {copied copied₂ copied₃ : Copied} {t t' : Twins}

/-- A copy on its way: what it copies is there as it was, and it has entered each array once, with a
new one for it.
-/
structure Opened (h : Heap) (P : Value → Prop) (h₁ : Heap) (copied : Copied) : Prop where
  kept : h.Kept h₁
  within : ∀ entry ∈ copied, P (.array entry.1)
  new : ∀ entry ∈ copied, h.arrays.size ≤ entry.2.index
  made : ∀ entry ∈ copied, entry.2.index < h₁.arrays.size
  once : ∀ a b b', (a, b) ∈ copied → (a, b') ∈ copied → b = b'
  apart : ∀ a a' b, (a, b) ∈ copied → (a', b) ∈ copied → a = a'

/-- What a copy has paired by now. The arrays that were entered before may still be empty; all that
the copy has entered itself is filled.
-/
structure Paired (h : Heap) (P : Value → Prop) (h₁ h₂ : Heap) (copied copied₂ : Copied)
    (values values₂ : List Value) (t : Twins)
    : Prop extends Opened h P h₂ copied₂ where
  later : h₁.Kept h₂
  earlier : copied ⊆ copied₂
  listed : ∀ a b, (a, b) ∈ copied₂ → t.arrays a b
  arrays
    : ∀ a b, t.arrays a b
      → P (.array a)
        ∧ ((a, b) ∈ copied
          ∨ h₁.arrays.size ≤ b.index ∧ b.index < h₂.arrays.size
            ∧ t.Grids h (h.grid a) (h₂.grid b))
  closures
    : ∀ c d, t.closures c d
      → P (.callable c) ∧ h₁.callables.size ≤ d.index ∧ d.index < h₂.callables.size
        ∧ t.Closures h (h.callable c) (h₂.callable d)
  values : List.Forall₂ (t.Values h) values values₂
  -- only a closure has several copies of one array
  complete
    : (∀ c base bound, P (.callable c) → h.callable c ≠ .closure base bound)
      → ∀ a b, t.arrays a b → (a, b) ∈ copied₂

/-- A copy begins with no array entered. -/
theorem Opened.begin (kept : h.Kept h₁) : Opened h P h₁ [] where
  kept := kept
  within := List.forall_mem_nil _
  new := List.forall_mem_nil _
  made := List.forall_mem_nil _
  once _ _ _ never := nomatch never
  apart _ _ _ never := nomatch never

/-- A copy that adds nothing has paired what was paired before. -/
theorem Opened.stay {values values₂ : List Value} (opened : Opened h P h₁ copied)
    (paired : List.Forall₂ ((Twins.listed copied).Values h) values values₂)
    : Paired h P h₁ h₁ copied copied values values₂ (.listed copied) :=
  { opened with
    later := .refl h₁
    earlier := List.Subset.refl _
    listed := fun _ _ => id
    arrays := fun a b entered => ⟨opened.within (a, b) entered, .inl entered⟩
    closures := fun _ _ => False.elim
    values := paired
    complete := fun _ _ _ => id
  }

/-- What two copies have paired one after the other. -/
theorem Paired.append {values values₂ rest rest₂ : List Value}
    (first : Paired h P h₁ h₂ copied copied₂ values values₂ t)
    (next : Paired h P h₂ h₃ copied₂ copied₃ rest rest₂ t')
    : Paired h P h₁ h₃ copied copied₃ (values ++ rest) (values₂ ++ rest₂) (t.join t') := by
  have left := t.among_join_left t'
  have right := t.among_join_right t'
  exact { next.toOpened with
    later := first.later.trans next.later
    earlier := List.Subset.trans first.earlier next.earlier
    listed := fun a b entered => .inr (next.listed a b entered)
    arrays := fun a b paired => by
      have before (paired : t.arrays a b) : P (.array a) ∧ ((a, b) ∈ copied
          ∨ h₁.arrays.size ≤ b.index ∧ b.index < h₃.arrays.size
            ∧ (t.join t').Grids h (h.grid a) (h₃.grid b)) := by
        refine (first.arrays a b paired).imp_right (Or.imp_right ?_)
        rintro ⟨new, made, same⟩
        rw [next.later.grid b made]
        exact ⟨new, Nat.lt_of_lt_of_le made next.later.arrays, same.among left⟩
      rcases paired with paired | paired
      · exact before paired
      · obtain ⟨within, entered | ⟨new, made, same⟩⟩ := next.arrays a b paired
        · exact before (first.listed a b entered)
        · exact ⟨within, .inr ⟨Nat.le_trans first.later.arrays new, made, same.among right⟩⟩
    closures := fun c d paired => by
      rcases paired with paired | paired
      · obtain ⟨within, new, made, same⟩ := first.closures c d paired
        rw [next.later.callable d made]
        exact ⟨within, new, Nat.lt_of_lt_of_le made next.later.callables, same.among left⟩
      · obtain ⟨within, new, made, same⟩ := next.closures c d paired
        exact ⟨within, Nat.le_trans first.later.callables new, made, same.among right⟩
    values := List.rel_append (Twins.forall_values_among first.values left)
      (Twins.forall_values_among next.values right)
    complete := fun free a b paired => by
      rcases paired with paired | paired
      · exact next.earlier (first.complete free a b paired)
      · exact next.complete free a b paired
  }

/-- Copies of several values are paired if the copy of each is, by induction on the copies. -/
theorem paired_each {S : Heap → Copied → Value → Heap → Copied → Value → Prop}
    {values values₂ : List Value} (copies : Each S h₁ copied values h₂ copied₂ values₂)
    (one
      : ∀ v ∈ values, ∀ h₁ copied h₂ copied₂ v₂, S h₁ copied v h₂ copied₂ v₂
        → Opened h P h₁ copied → ∃ t, Paired h P h₁ h₂ copied copied₂ [v] [v₂] t)
    (opened : Opened h P h₁ copied)
    : ∃ t, Paired h P h₁ h₂ copied copied₂ values values₂ t := by
  induction copies with
  | nil => exact ⟨_, opened.stay .nil⟩
  | cons once _ ih =>
      obtain ⟨t, first⟩ := one _ List.mem_cons_self _ _ _ _ _ once opened
      obtain ⟨t', others⟩ :=
        ih (fun v later => one v (List.mem_cons_of_mem _ later)) first.toOpened
      exact ⟨t.join t', first.append others⟩

/-- An array that has been filled has the dimensions and the cells that it is to have. -/
theorem grid_fill {a b : ArrayId} {cells : List Value}
    (box : (h.grid a).cells.size = volume (h.grid a).dims)
    (shell : h₃.grid b = Grid.ofParts (h.grid a).dims #[]) (made : b.index < h₃.arrays.size)
    (length : cells.length = (h.grid a).cells.size)
    : (h₃.fill b cells).grid b = ⟨(h.grid a).dims, cells.toArray⟩ := by
  rw [Heap.fill, grid_setGrid_self h₃ made, shell]
  simp only [Grid.replace, Grid.ofParts, Grid.size_resize]
  rw [Grid.resize_of_size (by simpa [length] using box)]

/-- An array that is entered has a new one for it, of the same dimensions. -/
theorem Opened.enter (opened : Opened h P h₁ copied) {a : ArrayId} (within : P (.array a))
    (new : copied.find? (·.1 == a) = none)
    : Opened h P (h₁.withShell a) ((a, ⟨h₁.arrays.size⟩) :: copied) := by
  have outside (b : ArrayId) : (a, b) ∉ copied := by
    intro entered
    exact List.find?_eq_none.mp new (a, b) entered (beq_self_eq_true a)
  have unused (a' : ArrayId) : (a', (⟨h₁.arrays.size⟩ : ArrayId)) ∉ copied := by
    intro entered
    exact Nat.lt_irrefl _ (opened.made _ entered)
  have size : (h₁.withShell a).arrays.size = h₁.arrays.size + 1 := Array.size_push _
  exact {
    kept := opened.kept.addArray _
    within := List.forall_mem_cons.mpr ⟨within, opened.within⟩
    new := List.forall_mem_cons.mpr ⟨opened.kept.arrays, opened.new⟩
    made := by
      rw [size]
      exact List.forall_mem_cons.mpr
        ⟨Nat.lt_succ_self _, fun entry entered => Nat.lt_succ_of_lt (opened.made entry entered)⟩
    once := by
      simp only [List.mem_cons, Prod.mk.injEq]
      rintro c b b' (⟨rfl, rfl⟩ | entered) (⟨same, rfl⟩ | entered')
      · rfl
      · exact absurd entered' (outside b')
      · exact absurd (same ▸ entered) (outside b)
      · exact opened.once c b b' entered entered'
    apart := by
      simp only [List.mem_cons, Prod.mk.injEq]
      rintro c c' b (⟨rfl, rfl⟩ | entered) (⟨rfl, same⟩ | entered')
      · rfl
      · exact absurd entered' (unused c')
      · exact absurd (same ▸ entered) (unused c)
      · exact opened.apart c c' b entered entered'
  }

/-- What is paired once an array has been filled with copies of its cells. -/
theorem Paired.fill {a : ArrayId} {cells : List Value} (opened : Opened h P h₁ copied)
    (box : (h.grid a).cells.size = volume (h.grid a).dims)
    (inner
      : Paired h P (h₁.withShell a) h₃ ((a, ⟨h₁.arrays.size⟩) :: copied) copied₂
          (h.grid a).cells.toList cells t)
    (inside : a.index < h.arrays.size)
    : Paired h P h₁ (h₃.fill ⟨h₁.arrays.size⟩ cells) copied copied₂ [.array a]
        [.array ⟨h₁.arrays.size⟩] t := by
  have shell : h₁.Kept (h₁.withShell a) := (Kept.refl h₁).addArray _
  have size : (h₁.withShell a).arrays.size = h₁.arrays.size + 1 := Array.size_push _
  have made : h₁.arrays.size < h₃.arrays.size := by
    have := inner.later.arrays
    omega
  have entered : (a, (⟨h₁.arrays.size⟩ : ArrayId)) ∈ copied₂ := inner.earlier List.mem_cons_self
  have filled : t.Grids h (h.grid a) ((h₃.fill ⟨h₁.arrays.size⟩ cells).grid ⟨h₁.arrays.size⟩) := by
    have length : cells.length = (h.grid a).cells.size := by
      simpa using inner.values.length_eq.symm
    have there : h₃.grid ⟨h₁.arrays.size⟩ = Grid.ofParts (h.grid a).dims #[] := by
      rw [inner.later.grid _ (by simp [size]), withShell, grid_addArray_new,
        opened.kept.grid a inside]
    rw [grid_fill box there made length]
    exact ⟨rfl, by simpa using inner.values⟩
  have others {b : ArrayId} (old : b ≠ ⟨h₁.arrays.size⟩)
      : (h₃.fill ⟨h₁.arrays.size⟩ cells).grid b = h₃.grid b :=
    grid_setGrid_of_ne h₃ (Ne.symm old) _
  have sizes : (h₃.fill ⟨h₁.arrays.size⟩ cells).arrays.size = h₃.arrays.size := by
    simp [Heap.fill, Heap.setGrid]
  exact {
    kept := inner.kept.fill opened.kept.arrays cells
    within := inner.within
    new := inner.new
    made := by
      rw [sizes]
      exact inner.made
    once := inner.once
    apart := inner.apart
    later := (shell.trans inner.later).fill (Nat.le_refl _) cells
    earlier := fun entry before => inner.earlier (List.mem_cons_of_mem _ before)
    listed := inner.listed
    arrays := fun a' b paired => by
      obtain ⟨within', entry | ⟨new, made', same⟩⟩ := inner.arrays a' b paired
      · refine ⟨within', ?_⟩
        rcases List.mem_cons.mp entry with first | before
        · cases first
          exact .inr ⟨Nat.le_refl _, by rwa [sizes], filled⟩
        · exact .inl before
      · rw [size] at new
        have old : b ≠ ⟨h₁.arrays.size⟩ := by
          rintro rfl
          exact Nat.lt_irrefl _ new
        rw [sizes, others old]
        exact ⟨within', .inr ⟨Nat.le_of_succ_le new, made', same⟩⟩
    closures := inner.closures
    values := .cons (.array (inner.listed a _ entered)) .nil
    complete := inner.complete
  }

/-- What a copy on its own has paired, when it is over. -/
theorem Paired.alone {values values₂ : List Value} (kept : h.Kept h₁) {c base : CallableId}
    {bound : List Value} (within : P (.callable c)) (what : h.callable c = .closure base bound)
    (paired : Paired h P h₁ h₂ [] copied₂ values values₂ t)
    : Paired h P h₁ h₂ [] [] values values₂ t :=
  { Opened.begin (kept.trans paired.later) with
    later := paired.later
    earlier := List.Subset.refl _
    listed := fun _ _ never => nomatch never
    arrays := paired.arrays
    closures := paired.closures
    values := paired.values
    complete := fun free => absurd what (free c base bound within)
  }

/-- What is paired once a closure has been made of copies of the bound arguments. -/
theorem Paired.closure {c base : CallableId} {bound bound₃ : List Value}
    (opened : Opened h P h₁ copied) (within : P (.callable c))
    (what : h.callable c = .closure base bound) (inner : Paired h P h₁ h₃ [] [] bound bound₃ t)
    : Paired h P h₁ (h₃.addCallable (.closure base bound₃)).1 copied copied [.callable c]
        [.callable ⟨h₃.callables.size⟩]
        (((Twins.listed copied).join t).withClosure c ⟨h₃.callables.size⟩) := by
  let all := ((Twins.listed copied).join t).withClosure c ⟨h₃.callables.size⟩
  have among : t.Among all :=
    ⟨fun _ _ paired => .inr paired, fun _ _ paired => .inr (.inr paired)⟩
  have grown := (Kept.refl h₃).addCallable (.closure base bound₃)
  have size : (h₃.addCallable (.closure base bound₃)).1.callables.size = h₃.callables.size + 1 :=
    Array.size_push _
  exact {
    kept := inner.kept.trans grown
    within := opened.within
    new := opened.new
    made := fun entry entered => Nat.lt_of_lt_of_le (opened.made entry entered) inner.later.arrays
    once := opened.once
    apart := opened.apart
    later := inner.later.trans grown
    earlier := List.Subset.refl _
    listed := fun a b entered => .inl entered
    arrays := fun a b paired => by
      rcases paired with entered | paired
      · exact ⟨opened.within (a, b) entered, .inl entered⟩
      · obtain ⟨within', never | ⟨new, made, same⟩⟩ := inner.arrays a b paired
        · cases never
        · exact ⟨within', .inr ⟨new, made, same.among among⟩⟩
    closures := fun c' d paired => by
      rcases paired with ⟨rfl, rfl⟩ | never | paired
      · refine ⟨within, inner.later.callables, by simp [size], ?_⟩
        rw [callable_addCallable_new]
        exact ⟨base, bound, bound₃, what, rfl, Twins.forall_values_among inner.values among⟩
      · cases never
      · obtain ⟨within', new, made, same⟩ := inner.closures c' d paired
        rw [grown.callable d made, size]
        exact ⟨within', new, Nat.lt_succ_of_lt made, same.among among⟩
    values := .cons (.closure (.inl ⟨rfl, rfl⟩)) .nil
    complete := fun free => absurd what (free c base bound within)
  }

/-- Each array and each closure that the copy of a value comes across is paired with its copies, by
induction on the copy. An array is entered before its cells are copied, and filled afterwards; a
bound argument is copied as if nothing had been entered.
-/
theorem paired_copyTo (encloses : h.Encloses P)
    (boxes : ∀ a, P (.array a) → (h.grid a).cells.size = volume (h.grid a).dims) {depth : Nat}
    {v v₂ : Value} (within : P v) (opened : Opened h P h₁ copied)
    (copies : h₁.copyTo depth copied v = some (h₂, copied₂, v₂))
    : ∃ t, Paired h P h₁ h₂ copied copied₂ [v] [v₂] t := by
  refine copyTo_induction
    (motive := fun h₁ copied v h₂ copied₂ v₂ =>
      P v → Opened h P h₁ copied → ∃ t, Paired h P h₁ h₂ copied copied₂ [v] [v₂] t)
    ?atomic ?direct ?entered ?array ?closure copies within opened
  case atomic =>
    intro h₁ copied v atomic _ opened
    exact ⟨_, opened.stay (.cons (.fixed (fixed_of_atomic atomic)) .nil)⟩
  case direct =>
    intro h₁ copied c callee what within opened
    have same := opened.kept.callable c (encloses.callable c within)
    have fixed : h.Fixed (.callable c) :=
      ⟨encloses.callable c within, callee, same.symm.trans what⟩
    exact ⟨_, opened.stay (.cons (.fixed fixed) .nil)⟩
  case entered =>
    intro h₁ copied a b member _ opened
    exact ⟨_, opened.stay (.cons (.array member) .nil)⟩
  case array =>
    intro h₁ copied a h₃ copied₂ cells new each within opened
    have inside := encloses.array a within
    rw [opened.kept.grid a inside] at each
    have one v (member : v ∈ (h.grid a).cells.toList) : P v :=
      encloses.cells a within v (Array.mem_toList_iff.mp member)
    obtain ⟨t, paired⟩ := paired_each each
      (fun v member _ _ _ _ _ once => once (one v member)) (opened.enter within new)
    exact ⟨t, .fill opened (boxes a within) paired inside⟩
  case closure =>
    intro h₁ copied c base bound h₃ bound₃ what each within opened
    have what : h.callable c = .closure base bound :=
      (opened.kept.callable c (encloses.callable c within)).symm.trans what
    obtain ⟨t, paired⟩ := paired_each each (by
      rintro v member h₁ _ h₂ _ v₂ ⟨rfl, rfl, copied₄, once⟩ opened
      obtain ⟨t, paired⟩ := once (encloses.bound c base bound within what v member) opened
      exact ⟨t, paired.alone opened.kept within what⟩) (.begin opened.kept)
    exact ⟨_, .closure opened within what paired⟩

end Heap

-----------------------------------------------------------------------------------------
-- What originals and copies lead to
-----------------------------------------------------------------------------------------

namespace Twins

open Heap Relation

variable {t : Twins} {h h' : Heap} {v w v' w' : Value}

/-- All pairs are of something on the one heap and something that is new on the other, and what they
hold is paired in turn.
-/
structure Mirrors (t : Twins) (h h' : Heap) : Prop where
  arrays
    : ∀ a b, t.arrays a b
      → h.arrays.size ≤ b.index ∧ b.index < h'.arrays.size ∧ t.Grids h (h.grid a) (h'.grid b)
  closures
    : ∀ c d, t.closures c d
      → h.callables.size ≤ d.index ∧ d.index < h'.callables.size
        ∧ t.Closures h (h.callable c) (h'.callable d)

/-- The pairs are of originals that are still there as they were, and their copies. -/
structure Between (t : Twins) (h h' : Heap) : Prop extends Mirrors t h h' where
  kept : h.Kept h'

/-- A copy that is over leaves nothing empty. -/
theorem between_of_paired {P : Value → Prop} {h₁ : Heap} {copied : Copied}
    {values values' : List Value} (begun : h.Kept h₁)
    (paired : Paired h P h₁ h' [] copied values values' t)
    : t.Between h h' where
  kept := paired.kept
  arrays a b pair := by
    obtain ⟨-, never | ⟨new, made, same⟩⟩ := paired.arrays a b pair
    · cases never
    · exact ⟨Nat.le_trans begun.arrays new, made, same⟩
  closures c d pair := by
    obtain ⟨-, new, made, same⟩ := paired.closures c d pair
    exact ⟨Nat.le_trans begun.callables new, made, same⟩

/-- What is its own copy is not entered. -/
theorem not_enters_of_fixed (fixed : h.Fixed v) : ¬ h.Enters v w := by
  intro enters
  cases enters with
  | cell => exact fixed
  | bound closure =>
      obtain ⟨-, callee, direct⟩ := fixed
      rw [closure] at direct
      cases direct

/-- Where the original leads, the copy leads to a copy. -/
theorem Between.enters (between : t.Between h h') (pair : t.Values h v v') (enters : h.Enters v w)
    : ∃ w', h'.Enters v' w' ∧ t.Values h w w' := by
  cases pair with
  | fixed fixed => exact absurd enters (not_enters_of_fixed fixed)
  | array paired =>
      cases enters with
      | cell held =>
          obtain ⟨-, -, grids⟩ := between.arrays _ _ paired
          obtain ⟨w', held', pair⟩ :=
            exists_of_mem_left grids.cells w (Array.mem_toList_iff.mpr held)
          exact ⟨w', .cell (Array.mem_toList_iff.mp held'), pair⟩
  | closure paired =>
      cases enters with
      | bound closure held =>
          obtain ⟨-, -, base, bound, bound', here, there, each⟩ := between.closures _ _ paired
          rw [closure] at here
          cases here
          obtain ⟨w', held', pair⟩ := exists_of_mem_left each w held
          exact ⟨w', .bound there held', pair⟩

/-- Where the copy leads, it leads to a copy of something that the original leads to. -/
theorem Between.entered (between : t.Between h h') (pair : t.Values h v v')
    (enters : h'.Enters v' w')
    : ∃ w, h.Enters v w ∧ t.Values h w w' := by
  cases pair with
  | fixed fixed =>
      have fixed' : h'.Fixed v := by
        cases v with
        | array _ => exact fixed
        | callable c =>
            obtain ⟨present, callee, direct⟩ := fixed
            exact ⟨Nat.lt_of_lt_of_le present between.kept.callables, callee,
              (between.kept.callable c present).trans direct⟩
        | null | integer _ | boolean _ | float _ | string _ | object _ => trivial
      exact absurd enters (not_enters_of_fixed fixed')
  | array paired =>
      cases enters with
      | cell held =>
          obtain ⟨-, -, grids⟩ := between.arrays _ _ paired
          obtain ⟨w, held', pair⟩ :=
            exists_of_mem_right grids.cells w' (Array.mem_toList_iff.mpr held)
          exact ⟨w, .cell (Array.mem_toList_iff.mp held'), pair⟩
  | closure paired =>
      cases enters with
      | bound closure held =>
          obtain ⟨-, -, base, bound, bound', here, there, each⟩ := between.closures _ _ paired
          rw [closure] at there
          cases there
          obtain ⟨w, held', pair⟩ := exists_of_mem_right each w' held
          exact ⟨w, .bound here held', pair⟩

/-- What the original leads to has a copy that the copy leads to, by induction on the way. -/
theorem Between.way (between : t.Between h h') (pair : t.Values h v v')
    (way : ReflTransGen h.Enters v w)
    : ∃ w', ReflTransGen h'.Enters v' w' ∧ t.Values h w w' := by
  induction way with
  | refl => exact ⟨v', .refl, pair⟩
  | tail _ enters ih =>
      obtain ⟨u, way, pair⟩ := ih
      obtain ⟨w', enters, pair⟩ := between.enters pair enters
      exact ⟨w', way.tail enters, pair⟩

/-- What the copy leads to is a copy of something that the original leads to, by induction on the
way.
-/
theorem Between.way_back (between : t.Between h h') (pair : t.Values h v v')
    (way : ReflTransGen h'.Enters v' w')
    : ∃ w, ReflTransGen h.Enters v w ∧ t.Values h w w' := by
  induction way with
  | refl => exact ⟨v, .refl, pair⟩
  | tail _ enters ih =>
      obtain ⟨u, way, pair⟩ := ih
      obtain ⟨w, enters, pair⟩ := between.entered pair enters
      exact ⟨w, way.tail enters, pair⟩

end Twins
end TaskMachine

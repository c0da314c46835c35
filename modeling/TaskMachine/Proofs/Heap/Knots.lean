import Mathlib.Data.Finite.Prod
import Mathlib.Data.Fintype.Card
import Mathlib.Logic.Relation
import TaskMachine.Proofs.Heap.Depth

/-!
Which copies end. A copy goes on to the cells of an array, but enters each array only once; and it
goes on to the bound arguments of a closure, which it copies anew wherever it comes across the
closure. So a copy ends unless it comes across a closure whose bound arguments lead back to that
closure.
-/

namespace TaskMachine

namespace Heap

open Relation

/-- The copy of a value goes on to another one: to a cell of an array or a bound argument of a
closure.
-/
inductive Enters (h : Heap) : Value → Value → Prop
  | cell {a : ArrayId} {v : Value} (held : v ∈ (h.grid a).cells) : Enters h (.array a) v
  | bound {c base : CallableId} {bound : List Value} {v : Value}
    (closure : h.callable c = .closure base bound) (held : v ∈ bound)
    : Enters h (.callable c) v

/-- The copy of a value comes across a closure whose bound arguments lead back to it. -/
def Knotted (h : Heap) (v : Value) : Prop :=
  ∃ c, ReflTransGen h.Enters v (.callable c) ∧ TransGen h.Enters (.callable c) (.callable c)

/-- There is no closure whose bound arguments lead back to it. -/
def Untied (h : Heap) : Prop :=
  ∀ c, ¬ TransGen h.Enters (.callable c) (.callable c)

variable {h : Heap} {depth : Nat} {entered entered' : List ArrayId} {v w : Value}

/-- Where no closure leads to itself, there is no knot. -/
theorem Untied.not_knotted (untied : h.Untied) : ¬ h.Knotted v :=
  fun ⟨c, _, knot⟩ => untied c knot

-----------------------------------------------------------------------------------------
-- A copy that ends comes across no knot
-----------------------------------------------------------------------------------------

/-- The value is taken care of: it is no array that has not been entered, and no callable that is
not followed to its end at the depth.
-/
structure Covered (h : Heap) (depth : Nat) (entered : List ArrayId) (v : Value) : Prop where
  array : ∀ a, v = .array a → a ∈ entered
  callable : ∀ c, v = .callable c → (h.follow depth [] (.callable c)).isSome

/-- All arrays between two lists have only cells that are taken care of. -/
def Filled (h : Heap) (depth : Nat) (entered entered' : List ArrayId) : Prop :=
  ∀ a ∈ entered', a ∉ entered → ∀ w ∈ (h.grid a).cells, h.Covered depth entered' w

private theorem Covered.of_array {a : ArrayId} (member : a ∈ entered)
    : h.Covered depth entered (.array a) where
  array b same := by
    cases same
    exact member
  callable c same := by cases same

private theorem Covered.of_callable {c : CallableId} (ends : (h.follow depth [] (.callable c)).isSome)
    : h.Covered depth entered (.callable c) where
  array a same := by cases same
  callable d same := by
    cases same
    exact ends

theorem Covered.mono {depth' : Nat} (covered : h.Covered depth entered v) (le : depth ≤ depth')
    (more : entered ⊆ entered')
    : h.Covered depth' entered' v where
  array a same := more (covered.array a same)
  callable c same := by
    obtain ⟨left, done⟩ := Option.isSome_iff_exists.mp (covered.callable c same)
    exact Option.isSome_iff_exists.mpr ⟨left, follow_mono le done⟩

/-- What has been entered stays entered. -/
theorem subset_of_foldlM {values : List Value}
    (done : values.foldlM (h.follow depth) entered = some entered')
    : entered ⊆ entered' :=
  foldlM_keeps (P := fun later => entered ⊆ later)
    (fun _ _ _ within next => List.Subset.trans within (subset_of_follow next))
    (List.Subset.refl _) done

/-- Values that are followed one after another are all taken care of if each is, by induction on
them.
-/
theorem covered_of_foldlM {values : List Value}
    (each
      : ∀ v entered entered', h.follow depth entered v = some entered'
        → h.Covered depth entered' v ∧ h.Filled depth entered entered')
    (done : values.foldlM (h.follow depth) entered = some entered')
    : (∀ v ∈ values, h.Covered depth entered' v) ∧ h.Filled depth entered entered' := by
  induction values generalizing entered with
  | nil =>
      cases done
      exact ⟨List.forall_mem_nil _, fun a there new => absurd there new⟩
  | cons v rest ih =>
      rw [List.foldlM_cons] at done
      obtain ⟨between, once, others⟩ := Option.bind_eq_some_iff.mp done
      obtain ⟨first, filled⟩ := each v entered between once
      obtain ⟨covered, filled'⟩ := ih others
      have more := subset_of_foldlM others
      refine ⟨?_, fun a there new => ?_⟩
      · intro w member
        rcases List.mem_cons.mp member with rfl | later
        · exact first.mono (Nat.le_refl _) more
        · exact covered w later
      · by_cases early : a ∈ between
        · exact fun w held => (filled a early new w held).mono (Nat.le_refl _) more
        · exact filled' a there early

/-- A value that is followed to its end is taken care of with everything that has been entered, by
induction on the depth.
-/
theorem covered_of_follow (done : h.follow depth entered v = some entered')
    : h.Covered depth entered' v ∧ h.Filled depth entered entered' := by
  induction depth using Nat.strongRecOn generalizing entered entered' v with
  | ind depth ih =>
      have nothing : h.Filled depth entered entered := fun a there new => absurd there new
      cases v with
      | array a =>
          rcases follow_array_eq_some.mp done with ⟨known, rfl⟩ | ⟨new, below, rfl, inner⟩
          · exact ⟨.of_array known, nothing⟩
          · obtain ⟨cells, filled⟩ :=
              covered_of_foldlM (fun v entered entered' => ih below (Nat.lt_succ_self below)) inner
            have more := subset_of_foldlM inner
            refine ⟨.of_array (more List.mem_cons_self), fun b there absent w held => ?_⟩
            by_cases same : b = a
            · subst same
              exact (cells w (Array.mem_toList_iff.mpr held)).mono (Nat.le_succ _)
                (List.Subset.refl _)
            · exact (filled b there (by simp [same, absent]) w held).mono (Nat.le_succ _)
                (List.Subset.refl _)
      | callable c =>
          obtain ⟨rfl, what⟩ := follow_callable_eq_some.mp done
          have ends : h.follow depth [] (.callable c) = some [] :=
            follow_callable_eq_some.mpr ⟨rfl, what⟩
          exact ⟨.of_callable (by rw [ends]; rfl), nothing⟩
      | null | integer _ | boolean _ | float _ | string _ | object _ =>
          simp only [follow, Option.some.injEq] at done
          subst done
          exact ⟨⟨by simp, by simp⟩, nothing⟩

/-- The bound arguments of a closure that is followed to its end are followed to theirs. -/
theorem follow_bound {c base : CallableId} {bound : List Value}
    (ends : (h.follow depth [] (.callable c)).isSome) (what : h.callable c = .closure base bound)
    (held : v ∈ bound)
    : ∃ below, depth = below + 1 ∧ (h.follow below [] v).isSome := by
  obtain ⟨left, done⟩ := Option.isSome_iff_exists.mp ends
  obtain ⟨-, ⟨callee, direct⟩ | ⟨base', bound', below, closure, rfl, each⟩⟩ :=
    follow_callable_eq_some.mp done
  · rw [what] at direct
    cases direct
  · rw [what] at closure
    cases closure
    exact ⟨below, rfl, each v held⟩

/-- Every callable that a value leads to is followed to its end where the value is, by induction
on the depth and on the way to the callable.
-/
theorem follow_of_enters (ends : (h.follow depth [] v).isSome) {c : CallableId}
    (way : ReflTransGen h.Enters v (.callable c))
    : (h.follow depth [] (.callable c)).isSome := by
  induction depth using Nat.strongRecOn generalizing v with
  | ind depth ih =>
      obtain ⟨entered, done⟩ := Option.isSome_iff_exists.mp ends
      obtain ⟨covered, filled⟩ := covered_of_follow done
      -- Through a cell the way goes on at the same depth and gets shorter. Through a bound argument
      -- there is one level less to go, so the rest of the way may be as long as it likes.
      clear done ends
      induction way using ReflTransGen.head_induction_on with
      | refl => exact covered.callable c rfl
      | head step way ih' =>
          cases step with
          | cell held => exact ih' (filled _ (covered.array _ rfl) List.not_mem_nil _ held)
          | bound closure held =>
              obtain ⟨below, rfl, ends⟩ := follow_bound (covered.callable _ rfl) closure held
              obtain ⟨left, done⟩ :=
                Option.isSome_iff_exists.mp (ih below (Nat.lt_succ_self below) ends way)
              exact Option.isSome_iff_exists.mpr ⟨left, follow_succ done⟩

/-- A callable that is followed to its end does not lead back to itself, by induction on the
depth.
-/
theorem not_knot_of_follow {c : CallableId} (ends : (h.follow depth [] (.callable c)).isSome)
    : ¬ TransGen h.Enters (.callable c) (.callable c) := by
  intro knot
  induction depth with
  | zero =>
      obtain ⟨w, step, -⟩ := TransGen.head'_iff.mp knot
      cases step with
      | bound closure held =>
          obtain ⟨below, never, -⟩ := follow_bound ends closure held
          cases never
  | succ depth ih =>
      obtain ⟨w, step, way⟩ := TransGen.head'_iff.mp knot
      cases step with
      | bound closure held =>
          obtain ⟨below, same, ends⟩ := follow_bound ends closure held
          cases same
          exact ih (follow_of_enters ends way)

-----------------------------------------------------------------------------------------
-- A copy that comes across no knot ends
-----------------------------------------------------------------------------------------

section
variable {α β : Type}

/-- Steps complete if each of them does, by induction on the steps. -/
theorem isSome_foldlM {f : β → α → Option β} {P : β → Prop} {items : List α}
    (keeps : ∀ b a b', P b → f b a = some b' → P b')
    (each : ∀ a ∈ items, ∀ b, P b → (f b a).isSome) {b : β} (first : P b)
    : (items.foldlM f b).isSome := by
  induction items generalizing b with
  | nil => rfl
  | cons a rest ih =>
      obtain ⟨b', once⟩ := Option.isSome_iff_exists.mp (each a List.mem_cons_self b first)
      rw [List.foldlM_cons, once]
      exact ih (fun a later => each a (List.mem_cons_of_mem _ later)) (keeps b a b' first once)

end

/-- A value is followed to its end if the callables that it leads to are, with one more level for
each array that is still to be entered. By induction on their number.
-/
theorem follow_of_callables {more : Nat} (few : h.unentered entered ≤ more)
    (each : ∀ c, ReflTransGen h.Enters v (.callable c) → (h.follow depth [] (.callable c)).isSome)
    : (h.follow (depth + more + 1) entered v).isSome := by
  induction more using Nat.strongRecOn generalizing entered v with
  | ind more ih =>
      cases v with
      | array a =>
          by_cases known : a ∈ entered
          · rw [follow_entered known]
            rfl
          rw [follow_array_succ known]
          by_cases inside : a.index < h.arrays.size
          · have fewer := unentered_cons_lt inside known
            refine isSome_foldlM (P := fun later => a :: entered ⊆ later) ?_ ?_ (List.Subset.refl _)
            · exact fun _ _ _ within once => List.Subset.trans within (subset_of_follow once)
            · intro w member later within
              have still := unentered_anti (h := h) within
              obtain ⟨less, rfl⟩ := Nat.exists_eq_add_of_lt (Nat.lt_of_lt_of_le fewer few)
              have enter : h.Enters (.array a) w := .cell (Array.mem_toList_iff.mp member)
              refine ih (h.unentered (a :: entered) + less) (by omega) (by omega) fun c way => ?_
              exact each c (.head enter way)
          · have empty : (h.grid a).cells.toList = [] := by
              rw [grid, Array.getElem?_eq_none (Nat.le_of_not_lt inside)]
              rfl
            rw [empty]
            rfl
      | callable c =>
          obtain ⟨left, done⟩ := Option.isSome_iff_exists.mp (each c .refl)
          obtain ⟨-, what⟩ := follow_callable_eq_some.mp done
          refine Option.isSome_iff_exists.mpr ⟨entered, ?_⟩
          exact follow_mono (by omega) (follow_callable_eq_some.mpr ⟨rfl, what⟩)
      | null | integer _ | boolean _ | float _ | string _ | object _ => rfl

/-- A callable beyond the end of the table is no closure. -/
theorem follow_outside {c : CallableId} (outside : ¬ c.index < h.callables.size) (depth : Nat)
    : (h.follow depth [] (.callable c)).isSome := by
  have direct : h.callable c = default := by
    rw [Heap.callable, Array.getElem?_eq_none (Nat.le_of_not_lt outside)]
    rfl
  rw [follow_direct direct]
  rfl

/-- What ends at any depth ends at `Heap.copyDepth`. -/
theorem follow_copyDepth (ends : (h.follow depth [] v).isSome)
    : (h.follow h.copyDepth [] v).isSome := by
  obtain ⟨left, done⟩ := Option.isSome_iff_exists.mp ends
  exact Option.isSome_iff_exists.mpr
    ⟨left, follow_mono (h.enough_le_copyDepth depth) (follow_enough done)⟩

/-- The callables on the heap that the copy of a value comes across. -/
abbrev Met (h : Heap) (v : Value) : Type :=
  { n : Fin h.callables.size // ReflTransGen h.Enters v (.callable ⟨n⟩) }

/-- The first callable is met below the second one. -/
def Below (h : Heap) (v : Value) (inner outer : h.Met v) : Prop :=
  TransGen h.Enters (.callable ⟨outer.1⟩) (.callable ⟨inner.1⟩)

/-- Without a knot there is no end of closures below closures, because there are only so many. -/
theorem below_wellFounded (free : ¬ h.Knotted v) : WellFounded (h.Below v) := by
  have : IsTrans (h.Met v) (h.Below v) := ⟨fun _ _ _ inner outer => outer.trans inner⟩
  have : Std.Irrefl (h.Below v) := ⟨fun c knot => free ⟨_, c.2, knot⟩⟩
  exact Finite.wellFounded_of_trans_of_irrefl _

/-- Without a knot all callables that a value leads to are followed to their ends, by induction on
what is below them.
-/
theorem follow_of_not_knotted (free : ¬ h.Knotted v) {c : CallableId}
    (way : ReflTransGen h.Enters v (.callable c))
    : (h.follow h.copyDepth [] (.callable c)).isSome := by
  suffices met : ∀ c : h.Met v, (h.follow h.copyDepth [] (.callable ⟨c.1⟩)).isSome by
    by_cases inside : c.index < h.callables.size
    · exact met ⟨⟨c.index, inside⟩, way⟩
    · exact follow_outside inside _
  intro c
  induction c using (below_wellFounded free).induction with
  | _ c ih =>
      cases what : h.callable ⟨c.1⟩ with
      | direct callee =>
          rw [follow_direct what]
          rfl
      | closure base bound =>
          refine @follow_copyDepth h (h.copyDepth + h.arrays.size + 2) _ ?_
          refine Option.isSome_iff_exists.mpr ⟨[], follow_callable_eq_some.mpr ⟨rfl, .inr ?_⟩⟩
          refine ⟨base, bound, _, what, rfl, fun w held => ?_⟩
          refine follow_of_callables (h.unentered_le []) fun d inner => ?_
          have below := TransGen.head' (.bound what held) inner
          by_cases inside : d.index < h.callables.size
          · exact ih ⟨⟨d.index, inside⟩, c.2.trans below.to_reflTransGen⟩ below
          · exact follow_outside inside _

/-- A copy can be followed to its end just if it comes across no knot. -/
theorem follow_iff : (∃ depth, (h.follow depth [] v).isSome) ↔ ¬ h.Knotted v := by
  constructor
  · rintro ⟨depth, ends⟩ ⟨c, way, knot⟩
    exact not_knot_of_follow (follow_of_enters ends way) knot
  · intro free
    exact ⟨_, follow_of_callables (h.unentered_le []) fun c way => follow_of_not_knotted free way⟩

variable {P : Value → Prop}

/-- The copy of a value ends: there is a depth that it does not go beyond. -/
def CopyEnds (h : Heap) (v : Value) : Prop :=
  ∃ depth, (h.copyTo depth [] v).isSome

variable {h₁ : Heap}

/-- A copy ends just if following the same way does, also later, as long as the heap is kept. -/
theorem copyEnds_iff_follow (encloses : h.Encloses P) (within : P v) (kept : h.Kept h₁)
    : h₁.CopyEnds v ↔ ∃ depth, (h.follow depth [] v).isSome := by
  simp only [CopyEnds, isSome_copyTo encloses within kept]

/-- The copy of a value ends just if it comes across no closure whose bound arguments lead back to
it. It makes no difference if other copies have been made before.
-/
theorem copyEnds_iff (encloses : h.Encloses P) (within : P v) (kept : h.Kept h₁)
    : h₁.CopyEnds v ↔ ¬ h.Knotted v :=
  (copyEnds_iff_follow encloses within kept).trans follow_iff

/-- A copy has a result just if it ends. -/
theorem isSome_copy_iff (encloses : h.Encloses P) (within : P v)
    : (h.copy v).isSome ↔ h.CopyEnds v := by
  rw [copyEnds_iff_follow encloses within (.refl h), copy, Option.isSome_map,
    isSome_copyTo encloses within (.refl h)]
  constructor
  · exact fun ends => ⟨_, ends⟩
  · rintro ⟨depth, ends⟩
    exact follow_copyDepth ends

end Heap
end TaskMachine

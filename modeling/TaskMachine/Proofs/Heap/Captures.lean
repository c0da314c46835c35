import TaskMachine.Proofs.Heap.Binding
import TaskMachine.Proofs.Heap.Twins

/-!
What a closure has captured. The arguments of a closure are copies of the values that were bound, as
they were then, and everything that they hold was made for the closure.
-/

namespace TaskMachine

open Heap

namespace Twins

variable {t t' : Twins} {h h₁ h₂ : Heap}

/-- The pairs are what they were as long as the copies are as they were. -/
theorem Mirrors.of_same (mirrors : t.Mirrors h h₁) (arrays : h₁.arrays.size ≤ h₂.arrays.size)
    (callables : h₁.callables.size ≤ h₂.callables.size)
    (grid
      : ∀ b : ArrayId, h.arrays.size ≤ b.index → b.index < h₁.arrays.size
        → h₂.grid b = h₁.grid b)
    (callable : ∀ d : CallableId, d.index < h₁.callables.size → h₂.callable d = h₁.callable d)
    : t.Mirrors h h₂ where
  arrays a b pair := by
    obtain ⟨new, made, same⟩ := mirrors.arrays a b pair
    rw [grid b new made]
    exact ⟨new, Nat.lt_of_lt_of_le made arrays, same⟩
  closures c d pair := by
    obtain ⟨new, made, same⟩ := mirrors.closures c d pair
    rw [callable d made]
    exact ⟨new, Nat.lt_of_lt_of_le made callables, same⟩

theorem Mirrors.of_kept (mirrors : t.Mirrors h h₁) (kept : h₁.Kept h₂) : t.Mirrors h h₂ :=
  mirrors.of_same kept.arrays kept.callables (fun b _ => kept.grid b) kept.callable

/-- Two collections of twins may be put together. -/
theorem Mirrors.join (first : t.Mirrors h h₁) (next : t'.Mirrors h h₁)
    : (t.join t').Mirrors h h₁ where
  arrays a b pair := by
    rcases pair with pair | pair
    · obtain ⟨new, made, same⟩ := first.arrays a b pair
      exact ⟨new, made, same.among (t.among_join_left t')⟩
    · obtain ⟨new, made, same⟩ := next.arrays a b pair
      exact ⟨new, made, same.among (t.among_join_right t')⟩
  closures c d pair := by
    rcases pair with pair | pair
    · obtain ⟨new, made, same⟩ := first.closures c d pair
      exact ⟨new, made, same.among (t.among_join_left t')⟩
    · obtain ⟨new, made, same⟩ := next.closures c d pair
      exact ⟨new, made, same.among (t.among_join_right t')⟩

end Twins

namespace Heap

variable {h h' h₁ h₂ : Heap} {base c : CallableId} {values : List Value}

/-- To bind values is to copy them one after another and to put the copies behind what is bound. By
induction on the values.
-/
theorem copyList_of_bindAll {closure closure' : Closure}
    (ran : (Closure.bindAll values).run (h, closure) = .ok () (h', closure'))
    : ∃ bound,
        h.copyList values = some (h', bound)
        ∧ closure' = { closure with bound := closure.bound ++ bound } := by
  induction values generalizing h closure with
  | nil =>
      cases ran
      exact ⟨[], rfl, by simp⟩
  | cons v rest ih =>
      rw [Closure.bindAll, run_bind_eq_ok] at ran
      obtain ⟨_, s, once, ran⟩ := ran
      obtain ⟨-, h₁, v₁, copies, rfl⟩ := Closure.run_bind_iff.mp once
      obtain ⟨bound, others, rfl⟩ := ih ran
      refine ⟨v₁ :: bound, ?_, by simp⟩
      exact copyList_cons_eq_some.mpr ⟨h₁, v₁, bound, copies, others, rfl⟩

/-- A closure comes on the heap after the copies of the values that are bound. -/
theorem Binds.made (binds : h.Binds base values h₁ c)
    : ∃ h₂ bound,
        h.copyList values = some (h₂, bound)
        ∧ h₁ = (h₂.addCallable (.closure base bound)).1 ∧ c = ⟨h₂.callables.size⟩ := by
  obtain ⟨h₂, closure, ran, made⟩ := binds
  obtain ⟨bound, copies, rfl⟩ := copyList_of_bindAll ran
  cases made
  exact ⟨h₂, bound, copies, rfl, rfl⟩

/-- Making a closure only adds to the heap. -/
theorem Binds.kept (binds : h.Binds base values h₁ c) : h.Kept h₁ := by
  obtain ⟨h₂, bound, copies, rfl, rfl⟩ := binds.made
  exact (survives_kept.copyList copies).addCallable _

theorem Binds.routines (binds : h.Binds base values h₁ c) : h₁.routines = h.routines := by
  obtain ⟨h₂, bound, copies, rfl, rfl⟩ := binds.made
  exact (evolves_copyList copies).routines

/-- The closure is there in addition to what was there before. -/
theorem Binds.index (binds : h.Binds base values h₁ c)
    : h.callables.size ≤ c.index ∧ c.index < h₁.callables.size := by
  obtain ⟨h₂, bound, copies, rfl, rfl⟩ := binds.made
  exact ⟨(survives_kept.copyList copies).callables, by simp [addCallable]⟩

-----------------------------------------------------------------------------------------
-- What a closure hands on
-----------------------------------------------------------------------------------------

/-- A closure hands on what some values were on a heap: all that its arguments hold has been copied
from there.
-/
def Hands (h : Heap) (base : CallableId) (values : List Value) (h' : Heap) (c : CallableId)
    : Prop :=
  ∃ (bound : List Value) (t : Twins),
    h'.callable c = .closure base bound ∧ t.Mirrors h h' ∧ List.Forall₂ (t.Values h) values bound

/-- Values are copied one after another, each of them as it was when the first one was. By induction
on the values.
-/
theorem mirrors_copyList {values₂ : List Value} (whole : h.Whole)
    (boxes : ∀ a, (h.grid a).cells.size = volume (h.grid a).dims)
    (present : ∀ v ∈ values, h.Present v) (kept : h.Kept h₁)
    (copies : h₁.copyList values = some (h₂, values₂))
    : ∃ t : Twins, t.Mirrors h h₂ ∧ List.Forall₂ (t.Values h) values values₂ := by
  induction values generalizing h₁ values₂ with
  | nil =>
      cases copies
      exact ⟨⟨fun _ _ => False, fun _ _ => False⟩, ⟨by simp, by simp⟩, .nil⟩
  | cons v rest ih =>
      obtain ⟨inside, present⟩ := List.forall_mem_cons.mp present
      obtain ⟨h₃, v₃, rest₂, first, others, rfl⟩ := copyList_cons_eq_some.mp copies
      obtain ⟨⟨h₃, copied, v₃⟩, done, same⟩ := Option.map_eq_some_iff.mp first
      cases same
      have encloses := (region_true_iff.mpr whole).encloses
      obtain ⟨t₁, paired⟩ :=
        paired_copyTo encloses (fun a _ => boxes a) ⟨trivial, inside⟩ (.begin kept) done
      have between := Twins.between_of_paired kept paired
      obtain ⟨t₂, mirrors, each⟩ := ih present between.kept others
      have mirrors₁ := between.toMirrors.of_kept (survives_kept.copyList others)
      have one : t₁.Values h v v₃ := (List.forall₂_cons.mp paired.values).1
      exact ⟨t₁.join t₂, mirrors₁.join mirrors, .cons (one.among (t₁.among_join_left t₂))
        (Twins.forall_values_among each (t₁.among_join_right t₂))⟩

/-- A closure that has been made hands on what the values were that were bound. -/
theorem Binds.hands (binds : h.Binds base values h' c) (whole : h.Whole)
    (boxes : ∀ a, (h.grid a).cells.size = volume (h.grid a).dims)
    (present : ∀ v ∈ values, h.Present v)
    : h.Hands base values h' c := by
  obtain ⟨h₂, bound, copies, rfl, rfl⟩ := binds.made
  obtain ⟨t, mirrors, each⟩ := mirrors_copyList whole boxes present (.refl h) copies
  have grown := (Kept.refl h₂).addCallable (.closure base bound)
  exact ⟨bound, t, callable_addCallable_new h₂ _, mirrors.of_kept grown, each⟩

/-- Whoever calls the closure calls what its base comes down to, and passes, behind what is bound
along the chain of the base, what the values were on a heap.
-/
def Passes (h : Heap) (base : CallableId) (values : List Value) (w : World) (c : CallableId)
    : Prop :=
  ∃ (bound : List Value) (t : Twins),
    (∀ (p : Process) (args : List Value) (wantResult : Bool),
      (Exec.call c args wantResult).run ⟨w, p⟩
        = (Exec.callCallee ((h.resolve base).2 ++ bound ++ args) wantResult (h.resolve base).1).run
            ⟨w, p⟩)
    ∧ t.Mirrors h w.heap ∧ List.Forall₂ (t.Values h) values bound

/-- A closure that hands on what the values were passes it as long as the chain of its base is there
as it was.
-/
theorem Hands.passes {w : World} (hands : h.Hands base values w.heap c) (stacked : h.Stacked)
    (present : base.index < h.callables.size) (after : h.callables.size ≤ c.index)
    (kept : ∀ d : CallableId, d.index < h.callables.size → w.heap.callable d = h.callable d)
    : h.Passes base values w c := by
  obtain ⟨bound, t, closure, mirrors, each⟩ := hands
  refine ⟨bound, t, fun p args wantResult => ?_, mirrors, each⟩
  have resolved : w.heap.resolve c = ((h.resolve base).1, (h.resolve base).2 ++ bound) := by
    rw [resolve, resolveFrom_succ closure, List.append_nil,
      resolveFrom_of_kept stacked kept present,
      resolveFrom_enough stacked (Nat.lt_of_lt_of_le present after) (Nat.lt_succ_self base.index),
      resolveFrom_later, ← resolve]
  rw [run_call, resolved]

-----------------------------------------------------------------------------------------
-- What is made for a closure
-----------------------------------------------------------------------------------------

/-- What came on the heap along with a closure: what its arguments hold, but not the closure itself.
-/
def Captured (h h₁ : Heap) (c : CallableId) (v : Value) : Prop :=
  h₁.Present v ∧ ¬ h.Present v ∧ v ≠ .callable c

/-- What a closure hands on stays what it was as long as nothing is written in the arrays that were
made for it.
-/
theorem Hands.later (hands : h.Hands base values h₁ c) (inside : c.index < h₁.callables.size)
    (changes : h₁.ChangesIn (fun v => ¬ h.Captured h₁ c v) h₂)
    : h.Hands base values h₂ c := by
  obtain ⟨bound, t, closure, mirrors, each⟩ := hands
  refine ⟨bound, t, (changes.callable c inside).trans closure, ?_, each⟩
  refine mirrors.of_same changes.arrays changes.callables (fun b new made => ?_) changes.callable
  exact changes.grid b made fun spared => spared ⟨made, Nat.not_lt.mpr new, by simp⟩

/-- The callables are what they were, or new closures over bases that closures had before. -/
def Rebases (h h' : Heap) : Prop :=
  ∀ d : CallableId, d.index < h'.callables.size →
    (d.index < h.callables.size ∧ h'.callable d = h.callable d)
    ∨ ∃ e base bound bound',
        h.callable e = .closure base bound ∧ h'.callable d = .closure base bound'

theorem Rebases.refl (h : Heap) : h.Rebases h :=
  fun _ present => .inl ⟨present, rfl⟩

theorem Rebases.trans (first : h.Rebases h₁) (next : h₁.Rebases h₂) : h.Rebases h₂ := by
  intro d present
  rcases next d present with ⟨before, same⟩ | ⟨e, base, bound, bound', closure, new⟩
  · rw [same]
    exact first d before
  · rcases first e (index_lt_of_closure closure) with ⟨-, same⟩ | ⟨e', base', _, _, closure', new'⟩
    · exact .inr ⟨e, base, bound, bound', same.symm.trans closure, new⟩
    · cases closure.symm.trans new'
      exact .inr ⟨e', base, _, bound', closure', new⟩

/-- The only callable that is new is the one that was added. -/
theorem eq_of_index_addCallable {what : Callable} {d : CallableId}
    (present : d.index < (h.addCallable what).1.callables.size)
    (new : ¬ d.index < h.callables.size)
    : d = ⟨h.callables.size⟩ := by
  simp only [addCallable, Array.size_push] at present
  obtain ⟨index⟩ := d
  exact congrArg CallableId.mk (Nat.le_antisymm (Nat.le_of_lt_succ present) (Nat.not_lt.mp new))

/-- Copies of closures share their bases. -/
theorem survives_rebases : Survives Rebases where
  refl := .refl
  trans _ _ _ := .trans
  array _ _ _ _ copied := copied
  closure h e base bound h₁ bound₁ what copied := by
    intro d present
    by_cases old : d.index < h₁.callables.size
    · rw [callable_addCallable_of_lt h₁ _ old]
      exact copied d old
    · have last : d = ⟨h₁.callables.size⟩ := eq_of_index_addCallable present old
      rw [last]
      exact .inr ⟨e, base, bound, bound₁, what, callable_addCallable_new h₁ _⟩

-----------------------------------------------------------------------------------------
-- Only the closure leads to what was made for it
-----------------------------------------------------------------------------------------

/-- Nothing but the closure leads to what was made for it, and it takes a call to get there: what
copies share with their originals was not made for it.
-/
structure Sealed (h h₁ : Heap) (c : CallableId) (g : Heap) : Prop where
  whole : g.Whole
  present : ∀ v, h₁.Present v → g.Present v
  closed
    : ∀ v w, ¬ h.Captured h₁ c v → v ≠ .callable c → g.Carries v w → ¬ h.Captured h₁ c w
  base
    : ∀ d base bound, g.callable d = .closure base bound → ¬ h.Captured h₁ c (.callable base)
  direct : ∀ d callee, g.callable d = .direct callee → ¬ h.Captured h₁ c (.callable d)

variable {g g' : Heap} {d : CallableId}

/-- Nothing but the closure itself leads to what has been captured. -/
theorem Sealed.owned (sealed : Sealed h h₁ c g) {v w : Value} (outside : ¬ h.Captured h₁ c v)
    (other : v ≠ .callable c) (carries : g.Carries v w)
    : g.Owned (fun v => ¬ h.Captured h₁ c v) w :=
  ⟨sealed.closed v w outside other carries, sealed.whole v w carries⟩

private theorem Sealed.base_owned (sealed : Sealed h h₁ c g) {bound : List Value}
    (what : g.callable d = .closure base bound)
    : g.Owned (fun v => ¬ h.Captured h₁ c v) (.callable base) :=
  ⟨sealed.base d base bound what, sealed.whole _ _ (.callable (.base what))⟩

/-- The heap stays sealed as long as nothing that was made for the closure comes anywhere. -/
theorem Sealed.fill (sealed : Sealed h h₁ c g)
    (fills : Fills (fun v => ¬ h.Captured h₁ c v) g g')
    : Sealed h h₁ c g' where
  whole v w carries := by
    rcases fills.carries carries with before | owned
    · exact fills.present w (sealed.whole v w before)
    · exact fills.present w owned.2
  present v there := fills.present v (sealed.present v there)
  closed v w outside other carries := by
    rcases fills.carries carries with before | owned
    · exact sealed.closed v w outside other before
    · exact owned.1
  base d base bound what := by
    rcases fills.callables d with same | ⟨base', bound', new, owned, -⟩
    · exact sealed.base d base bound (same.symm.trans what)
    · cases new.symm.trans what
      exact owned.1
  direct d callee what := by
    rcases fills.callables d with same | ⟨base', bound', new, -, -⟩
    · exact sealed.direct d callee (same.symm.trans what)
    · cases new.symm.trans what

instance (h h₁ : Heap) (c : CallableId)
    : Discipline (Sealed h h₁ c) (fun v => ¬ h.Captured h₁ c v) where
  bare {_ v} _ bare := fun captured => captured.2.1 (bare h)
  unused {_ v} sealed absent := fun captured => absent (sealed.present v captured.1)
  cells sealed outside w held := sealed.owned outside (by simp) (.array (.cell held))
  copies {g} sealed := by
    have encloses := (region_true_iff.mpr sealed.whole).encloses
    refine ⟨g.Owned fun _ => True, encloses, ⟨?_, ?_⟩, fun v owned => ⟨trivial, owned.2⟩⟩
    · exact fun d callee within what => ⟨sealed.direct d callee what, within.2⟩
    · exact fun d base bound _ what => sealed.base_owned what
  fill sealed := sealed.fill

/-- A callable is the other one, or a closure over it, or over a closure over it, and so on. -/
def Extends (g : Heap) : CallableId → CallableId → Prop :=
  Relation.ReflTransGen fun d base => ∃ bound, g.callable d = .closure base bound

/-- A call that does not go through the closure comes by nothing that was made for it. -/
theorem Sealed.opens (sealed : Sealed h h₁ c g) (outside : ¬ h.Captured h₁ c (.callable d))
    (apart : ¬ g.Extends d c)
    : g.Opens (fun v => ¬ h.Captured h₁ c v) d := by
  have other {e : CallableId} (apart : ¬ g.Extends e c) : Value.callable e ≠ .callable c := by
    rintro same
    cases same
    exact apart .refl
  refine opens_of_chain (Q := fun e => ¬ h.Captured h₁ c (.callable e) ∧ ¬ g.Extends e c) ?_ ?_
    ⟨outside, apart⟩
  · intro e base bound inside what
    refine ⟨⟨sealed.base e base bound what, fun way => inside.2 (way.head ⟨bound, what⟩)⟩, ?_⟩
    exact fun v held => sealed.owned inside.1 (other inside.2) (.callable (.bound what held))
  · intro e r inside what v held
    exact sealed.owned inside.1 (other inside.2) (.callable (.literal what held))

/-- Every callable that is made along with a closure is a closure over a base that was there. -/
theorem Binds.callables (binds : h.Binds base values h₁ c) (whole : h.Whole)
    (present : h.Present (.callable base)) (there : d.index < h₁.callables.size)
    : (h.Present (.callable d) ∧ h₁.callable d = h.callable d)
      ∨ ∃ base' bound,
          h.Present (.callable base') ∧ h₁.callable d = .closure base' bound := by
  obtain ⟨h₂, bound, copies, rfl, rfl⟩ := binds.made
  by_cases old : d.index < h₂.callables.size
  · rw [callable_addCallable_of_lt h₂ _ old]
    rcases survives_rebases.copyList copies d old with before | ⟨e, base', _, bound', closure, new⟩
    · exact .inl before
    · exact .inr ⟨base', bound', whole _ _ (.callable (.base closure)), new⟩
  · rw [eq_of_index_addCallable there old]
    exact .inr ⟨base, bound, present, callable_addCallable_new h₂ _⟩

/-- The heap is sealed when the closure has been made. -/
theorem Binds.sealed (binds : h.Binds base values h₁ c) (whole : h.Whole) (whole₁ : h₁.Whole)
    (present : h.Present (.callable base))
    : Sealed h h₁ c h₁ where
  whole := whole₁
  present _ := id
  closed v w outside other carries := by
    intro captured
    by_cases before : h.Present v
    · refine captured.2.1 (whole v w (carries.of_same ?_ ?_ binds.routines.symm))
      · rintro a rfl
        exact (binds.kept.grid a before).symm
      · rintro e rfl
        exact (binds.kept.callable e before).symm
    · refine not_carries_of_absent (fun there => outside ⟨there, before, other⟩) carries
  base e base' bound what := by
    intro captured
    rcases binds.callables whole present (index_lt_of_closure what) with
      ⟨before, same⟩ | ⟨base₁, bound₁, there, new⟩
    · exact captured.2.1 (whole _ _ (.callable (.base (same.symm.trans what))))
    · cases new.symm.trans what
      exact captured.2.1 there
  direct e callee what := by
    intro captured
    rcases binds.callables whole present captured.1 with ⟨before, -⟩ | ⟨base₁, bound₁, -, new⟩
    · exact captured.2.1 before
    · cases new.symm.trans what

end Heap
end TaskMachine

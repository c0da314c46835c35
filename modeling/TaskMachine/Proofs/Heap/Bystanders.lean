import TaskMachine.Proofs.Heap.Similarity

/-!
Partners while others change the heap. Two heaps stay alike if one of them only changes where nothing
has a partner, and partners in a region are alike on their own. To begin with, what was on a heap at
some time is its own partner as long as it is kept.
-/

namespace TaskMachine

namespace Partners

variable {p q : Partners} {h h' h₁ : Heap} {R : Value → Prop}

-----------------------------------------------------------------------------------------
-- The first heap goes on
-----------------------------------------------------------------------------------------

/-- The same pairs from now on. -/
def renew (p : Partners) (now : Heap) : Partners :=
  { p with since := now }

theorem among_renew (p : Partners) (now : Heap) : p.Among (p.renew now) :=
  ⟨fun _ _ => id, fun _ _ => id, fun _ _ => id, Iff.rfl⟩

theorem Faithful.renew (faithful : p.Faithful) (now : Heap) : (p.renew now).Faithful :=
  ⟨faithful.once, faithful.apart⟩

/-- Heaps stay alike if the first one changes only where no array has a partner. -/
theorem Heaps.frame (alike : p.Heaps h h') (changes : h.ChangesIn R h₁)
    (outside : ∀ a a', p.arrays a a' → ¬ R (.array a))
    : (p.renew h₁).Heaps h₁ h' := by
  have callable (c : CallableId) (c' : CallableId) (paired : p.callables c c')
      : h₁.callable c = h.callable c := changes.callable c (alike.callableIn c c' paired).1
  have routine (r : RoutineId) : h₁.routine r = h.routine r := by
    rw [Heap.routine, changes.routines, Heap.routine]
  exact {
    grid := fun a a' paired => by
      rw [changes.grid a (alike.arrayIn a a' paired).1 (outside a a' paired)]
      exact (alike.grid a a' paired).among (among_renew p h₁)
    callable := fun c c' paired => by
      rw [callable c c' paired]
      exact (alike.callable c c' paired).among (among_renew p h₁)
    routine := fun r r' paired => by
      rw [routine]
      exact (alike.routine r r' paired).among (among_renew p h₁)
    arrayIn := fun a a' paired =>
      (alike.arrayIn a a' paired).imp_left (Nat.lt_of_lt_of_le · changes.arrays)
    callableIn := fun c c' paired =>
      (alike.callableIn c c' paired).imp_left (Nat.lt_of_lt_of_le · changes.callables)
    descends := fun c c' base base' bound bound' paired closure =>
      alike.descends c c' base base' bound bound' paired ((callable c c' paired).symm.trans closure)
    arrayOnce := alike.arrayOnce
    arrayApart := alike.arrayApart
    routineOnce := alike.routineOnce
    routineApart := alike.routineApart
    closureOnce := fun c c' d' base bound first second closure =>
      alike.closureOnce c c' d' base bound first second ((callable c c' first).symm.trans closure)
    closureApart := alike.closureApart
    since := .refl _ h₁
  }

/-- Heaps that are alike are so from now on. -/
theorem Heaps.renew (alike : p.Heaps h h') : (p.renew h).Heaps h h' :=
  alike.frame (R := fun _ => False) (.refl _ h) fun _ _ _ => id

/-- With new partners for new arrays only, nothing has changed but the partners that there were. -/
theorem Heaps.changesIn (alike : q.Heaps h h') (le : p ≤ q)
    : p.since.ChangesIn (fun v => ∃ v', p.Values v v') h := by
  have changes := alike.since
  rw [le.since] at changes
  refine { changes with grid := fun a present outside => changes.grid a present ?_ }
  rintro ⟨_, same⟩
  cases same with
  | plain standsAlone => exact standsAlone trivial
  | array paired =>
      rcases le.fresh _ _ paired with old | new
      · exact outside ⟨_, .array old⟩
      · exact absurd present (Nat.not_lt.mpr new)

-----------------------------------------------------------------------------------------
-- Partners in a region
-----------------------------------------------------------------------------------------

/-- The pairs of which the first is in a region of the heap as it is now. -/
def inside (p : Partners) (now : Heap) (R : Value → Prop) : Partners where
  arrays a a' := p.arrays a a' ∧ R (.array a)
  callables c c' := p.callables c c' ∧ R (.callable c)
  routines r r' := p.routines r r' ∧ ∀ v ∈ (now.routine r).literals, R v
  named := p.named
  since := now

/-- Fewer partners tell apart no less. -/
theorem Faithful.inside (faithful : p.Faithful) (now : Heap) (R : Value → Prop)
    : (p.inside now R).Faithful :=
  ⟨fun c c' d' first second => faithful.once c c' d' first.1 second.1,
    fun c d c' first second => faithful.apart c d c' first.1 second.1⟩

theorem Values.inside {v v' : Value} (alike : p.Values v v') (now : Heap) (within : R v)
    : (p.inside now R).Values v v' := by
  cases alike with
  | plain standsAlone => exact .plain standsAlone
  | array paired => exact .array ⟨paired, within⟩
  | callable paired => exact .callable ⟨paired, within⟩

theorem inside_all {vs vs' : List Value} (alike : List.Forall₂ p.Values vs vs') (now : Heap)
    (within : ∀ v ∈ vs, R v)
    : List.Forall₂ (p.inside now R).Values vs vs' :=
  related_of_mem alike fun v member _ _ one => one.inside now (within v member)

/-- What is in a region leads to nothing outside of it, so its partners are alike on their own. -/
theorem Heaps.inside (alike : p.Heaps h h') (region : h.Region R) : (p.inside h R).Heaps h h' where
  grid a a' paired := by
    obtain ⟨dims, cells⟩ := alike.grid a a' paired.1
    refine ⟨dims, inside_all cells h fun v member => ?_⟩
    exact (region.closed _ v paired.2 (.array (.cell (Array.mem_toList_iff.mp member)))).1
  callable c c' paired := by
    have callables := alike.callable c c' paired.1
    cases what : h.callable c with
    | direct callee =>
        rw [what] at callables
        generalize h'.callable c' = other at callables ⊢
        cases callables with
        | routine routines =>
            refine .routine ⟨routines, fun v held => ?_⟩
            exact (region.closed _ v paired.2 (.callable (.literal what held))).1
    | closure base bound =>
        rw [what] at callables
        generalize h'.callable c' = other at callables ⊢
        cases callables with
        | closure bases arguments =>
            have below := (region.closed _ _ paired.2 (.callable (.base what))).1
            refine .closure (p := p.inside h R) ⟨bases, below⟩ (inside_all arguments h ?_)
            exact fun v held => (region.closed _ v paired.2 (.callable (.bound what held))).1
  routine r r' paired := by
    obtain ⟨rest, literals, nameless⟩ := alike.routine r r' paired.1
    exact ⟨rest, inside_all literals h fun v held => paired.2 v (Array.mem_toList_iff.mp held),
      nameless⟩
  arrayIn a a' paired := alike.arrayIn a a' paired.1
  callableIn c c' paired := alike.callableIn c c' paired.1
  descends c c' base base' bound bound' paired :=
    alike.descends c c' base base' bound bound' paired.1
  arrayOnce a a' b' first second := alike.arrayOnce a a' b' first.1 second.1
  arrayApart a b a' first second := alike.arrayApart a b a' first.1 second.1
  routineOnce r r' q' first second := alike.routineOnce r r' q' first.1 second.1
  routineApart r q r' first second := alike.routineApart r q r' first.1 second.1
  closureOnce c c' d' base bound first second := alike.closureOnce c c' d' base bound first.1 second.1
  closureApart c d c' base bound first second := alike.closureApart c d c' base bound first.1 second.1
  since := .refl _ h

-----------------------------------------------------------------------------------------
-- Copies of several values
-----------------------------------------------------------------------------------------

/-- Copies of several values on their own: all end, or some does not, on both heaps. By induction on
the values.
-/
theorem Heaps.copyList (alike : p.Heaps h h') {vs vs' : List Value}
    (same : List.Forall₂ p.Values vs vs')
    : (∃ q h₁ h₁' ws ws', p ≤ q ∧ h.copyList vs = some (h₁, ws) ∧ h'.copyList vs' = some (h₁', ws')
        ∧ q.Heaps h₁ h₁' ∧ List.Forall₂ q.Values ws ws')
      ∨ (h.copyList vs = none ∧ h'.copyList vs' = none) := by
  induction vs generalizing p h h' vs' with
  | nil =>
      cases same
      exact .inl ⟨p, h, h', [], [], le_rfl, rfl, rfl, alike, .nil⟩
  | cons v rest ih =>
      obtain ⟨v', rest', first, others, rfl⟩ := List.forall₂_cons_left_iff.mp same
      simp only [Heap.copyList, Option.bind_eq_bind]
      rcases alike.copy first with
        ⟨q, h₁, h₁', w, w', le, copied, copied', heaps, value⟩ | ⟨never, never'⟩
      · rcases ih heaps (mono_all others le) with
          ⟨q', h₂, h₂', ws, ws', le', all, all', heaps', values⟩ | ⟨none, none'⟩
        · refine .inl ⟨q', h₂, h₂', w :: ws, w' :: ws', le.trans le', ?_, ?_, heaps',
            .cons (value.mono le') values⟩
          · simp only [copied, all, Option.bind_some]
          · simp only [copied', all', Option.bind_some]
        · refine .inr ⟨?_, ?_⟩
          · simp only [copied, none, Option.bind_some, Option.bind_none]
          · simp only [copied', none', Option.bind_some, Option.bind_none]
      · refine .inr ⟨?_, ?_⟩
        · simp only [never, Option.bind_none]
        · simp only [never', Option.bind_none]

end Partners
end TaskMachine

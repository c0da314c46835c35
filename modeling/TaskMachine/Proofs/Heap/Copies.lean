import TaskMachine.Closure
import TaskMachine.Proofs.Computation
import TaskMachine.Proofs.Grid
import TaskMachine.World

/-!
How a heap goes on. Adding and writing arrays, adding callables, copying values and binding them leave
the compiled routines alone, and all arrays are boxes with every cell in place as before.
-/

namespace TaskMachine

namespace Heap

variable {h h' h'' : Heap}

/-- The heap has gone on: its routines are the same, and its arrays are sound if they were. -/
structure Evolves (h h' : Heap) : Prop where
  routines : h'.routines = h.routines
  grids : (∀ a, (h.grid a).Sound) → ∀ a, (h'.grid a).Sound

theorem Evolves.refl (h : Heap) : h.Evolves h :=
  ⟨rfl, fun sound => sound⟩

theorem Evolves.trans (first : h.Evolves h') (next : h'.Evolves h'') : h.Evolves h'' :=
  ⟨next.routines.trans first.routines, fun sound => next.grids (first.grids sound)⟩

-----------------------------------------------------------------------------------------
-- Elementary operations
-----------------------------------------------------------------------------------------

/-- A heap with the same arrays has sound ones if these are. -/
theorem Evolves.of_arrays (routines : h'.routines = h.routines) (arrays : h'.arrays = h.arrays)
    : h.Evolves h' := by
  refine ⟨routines, fun sound a => ?_⟩
  rw [grid, arrays]
  exact sound a

theorem grid_addArray (h : Heap) (g : Grid) (a : ArrayId)
    : (h.addArray g).1.grid a = g ∨ (h.addArray g).1.grid a = h.grid a := by
  simp only [addArray, grid, Array.getElem?_push]
  split
  · exact .inl rfl
  · exact .inr rfl

theorem grid_setGrid (h : Heap) (a b : ArrayId) (g : Grid)
    : (h.setGrid a g).grid b = g ∨ (h.setGrid a g).grid b = h.grid b := by
  simp only [setGrid, grid, Array.getElem?_setIfInBounds]
  split
  · rename_i same
    split
    · exact .inl rfl
    · rename_i outside
      exact .inr (by rw [← same, Array.getElem?_eq_none (Nat.le_of_not_lt outside)])
  · exact .inr rfl

/-- A heap evolves by a new array whose cells fill its box. -/
theorem evolves_addArray (h : Heap) {g : Grid} (box : g.Sound) : h.Evolves (h.addArray g).1 := by
  refine ⟨rfl, fun sound a => ?_⟩
  rcases grid_addArray h g a with new | old
  · rwa [new]
  · rw [old]
    exact sound a

/-- A heap evolves by an array that is replaced, if this leaves a sound one sound. -/
theorem evolves_setGrid {a : ArrayId} {g : Grid} (box : (h.grid a).Sound → g.Sound)
    : h.Evolves (h.setGrid a g) := by
  refine ⟨rfl, fun sound b => ?_⟩
  rcases grid_setGrid h a b g with new | old
  · rw [new]
    exact box (sound a)
  · rw [old]
    exact sound b

-----------------------------------------------------------------------------------------
-- Copies
-----------------------------------------------------------------------------------------

/-- The heap with a new array that has the dimensions of a given one and only nulls in it. -/
def withShell (h : Heap) (a : ArrayId) : Heap :=
  (h.addArray (Grid.ofParts (h.grid a).dims #[])).1

/-- The heap after an array has been filled with cells. -/
def fill (h : Heap) (a : ArrayId) (cells : List Value) : Heap :=
  h.setGrid a ((h.grid a).replace cells.toArray)

/-- The copy of a bound argument, which shares no array with the copies made before. -/
def copyAlone (depth : Nat) (h : Heap) (_ : Copied) (v : Value) : Option (Heap × Copied × Value) :=
  (h.copyTo depth [] v).map fun (h, _, v) => (h, [], v)

section
variable {copied : Copied} {a : ArrayId} {c : CallableId}

/-- An array that has been copied leads to its copy, at any depth. -/
theorem copyTo_copied {entry : ArrayId × ArrayId} (known : copied.find? (·.1 == a) = some entry)
    (depth : Nat) (h : Heap)
    : h.copyTo depth copied (.array a) = some (h, copied, .array entry.2) := by
  rw [copyTo.eq_def]
  simp only [known]

theorem copyTo_array_zero (new : copied.find? (·.1 == a) = none) (h : Heap)
    : h.copyTo 0 copied (.array a) = none := by
  rw [copyTo.eq_def]
  simp only [new]

/-- The copy is entered before its cells are copied, which is how a cycle comes back to it. -/
theorem copyTo_array_succ (new : copied.find? (·.1 == a) = none) (depth : Nat) (h : Heap)
    : h.copyTo (depth + 1) copied (.array a)
      = (copyEach (copyTo depth) (h.withShell a) ((a, ⟨h.arrays.size⟩) :: copied) []
          (h.grid a).cells.toList).map fun (h₁, copied₁, cells) =>
            (h₁.fill ⟨h.arrays.size⟩ cells, copied₁, .array ⟨h.arrays.size⟩) := by
  rw [copyTo.eq_def]
  simp only [new]
  rw [Option.map_eq_bind]
  rfl

/-- A routine, and what belongs to the host, is its own copy. -/
theorem copyTo_direct {callee : Callee} (what : h.callable c = .direct callee) (depth : Nat)
    (copied : Copied)
    : h.copyTo depth copied (.callable c) = some (h, copied, .callable c) := by
  rw [copyTo.eq_def]
  simp only [what]

theorem copyTo_closure_zero {base : CallableId} {bound : List Value}
    (what : h.callable c = .closure base bound) (copied : Copied)
    : h.copyTo 0 copied (.callable c) = none := by
  rw [copyTo.eq_def]
  simp only [what]

/-- Each bound value is copied on its own; what has been copied for the one is unknown to the next. -/
theorem copyTo_closure_succ {base : CallableId} {bound : List Value}
    (what : h.callable c = .closure base bound) (depth : Nat) (copied : Copied)
    : h.copyTo (depth + 1) copied (.callable c)
      = (copyEach (copyAlone depth) h [] [] bound).map fun (h₁, _, bound) =>
          ((h₁.addCallable (.closure base bound)).1, copied,
            .callable (h₁.addCallable (.closure base bound)).2) := by
  rw [copyTo.eq_def]
  simp only [what]
  rw [Option.map_eq_bind]
  rfl

variable {depth : Nat} {copied' : Copied} {v' : Value}

/-- The copy of an array is the one that was made before, or a new array that is filled with copies of the
cells.
-/
theorem copyTo_array_cases (copies : h.copyTo depth copied (.array a) = some (h', copied', v'))
    : (∃ entry, copied.find? (·.1 == a) = some entry
        ∧ h' = h ∧ copied' = copied ∧ v' = .array entry.2)
      ∨ ∃ less h₁ cells,
          depth = less + 1
          ∧ copied.find? (·.1 == a) = none
          ∧ copyEach (copyTo less) (h.withShell a) ((a, ⟨h.arrays.size⟩) :: copied) []
              (h.grid a).cells.toList
            = some (h₁, copied', cells)
          ∧ h' = h₁.fill ⟨h.arrays.size⟩ cells ∧ v' = .array ⟨h.arrays.size⟩ := by
  rcases Option.eq_none_or_eq_some (copied.find? (·.1 == a)) with new | ⟨entry, known⟩
  · cases depth with
    | zero =>
        rw [copyTo_array_zero new] at copies
        cases copies
    | succ less =>
        rw [copyTo_array_succ new] at copies
        obtain ⟨⟨h₁, copied₁, cells⟩, inner, outer⟩ := Option.map_eq_some_iff.mp copies
        cases outer
        exact .inr ⟨less, h₁, cells, rfl, new, inner, rfl, rfl⟩
  · rw [copyTo_copied known] at copies
    cases copies
    exact .inl ⟨entry, known, rfl, rfl, rfl⟩

/-- A callable that is no closure is shared. A closure becomes a new one, with a copy of each bound
argument.
-/
theorem copyTo_callable_cases
    (copies : h.copyTo depth copied (.callable c) = some (h', copied', v'))
    : (∃ callee, h.callable c = .direct callee ∧ h' = h ∧ copied' = copied ∧ v' = .callable c)
      ∨ ∃ base bound less h₁ copied₁ bound₁,
          h.callable c = .closure base bound
          ∧ depth = less + 1
          ∧ copyEach (copyAlone less) h [] [] bound = some (h₁, copied₁, bound₁)
          ∧ h' = (h₁.addCallable (.closure base bound₁)).1
          ∧ copied' = copied
          ∧ v' = .callable (h₁.addCallable (.closure base bound₁)).2 := by
  cases what : h.callable c with
  | direct callee =>
      rw [copyTo_direct what] at copies
      cases copies
      exact .inl ⟨callee, rfl, rfl, rfl, rfl⟩
  | closure base bound =>
      cases depth with
      | zero =>
          rw [copyTo_closure_zero what] at copies
          cases copies
      | succ less =>
          rw [copyTo_closure_succ what] at copies
          obtain ⟨⟨h₁, copied₁, bound₁⟩, inner, outer⟩ := Option.map_eq_some_iff.mp copies
          cases outer
          exact .inr ⟨base, bound, less, h₁, copied₁, bound₁, rfl, rfl, inner, rfl, rfl, rfl⟩

/-- What is copied alone begins with nothing copied and ends so. -/
theorem copyAlone_eq_some {v : Value}
    : copyAlone depth h copied v = some (h', copied', v')
      ↔ ∃ copied₁, h.copyTo depth [] v = some (h', copied₁, v') ∧ copied' = [] := by
  rw [copyAlone, Option.map_eq_some_iff]
  constructor
  · intro given
    obtain ⟨⟨h₁, copied₁, v₁⟩, once, same⟩ := given
    cases same
    exact ⟨copied₁, once, rfl⟩
  · intro given
    obtain ⟨copied₁, once, rfl⟩ := given
    exact ⟨(h', copied₁, v'), once, rfl⟩

end

/-- Copies share the value whatever is on the heap: it is no array and no callable. -/
def Atomic : Value → Prop
  | .array _ | .callable _ => False
  | _ => True

/-- Values are copied one after another, each as `R` has it. -/
inductive Each (R : Heap → Copied → Value → Heap → Copied → Value → Prop)
    : Heap → Copied → List Value → Heap → Copied → List Value → Prop
  | nil {h : Heap} {copied : Copied} : Each R h copied [] h copied []
  | cons {h h₁ h' : Heap} {copied copied₁ copied' : Copied} {v v' : Value}
    {rest rest' : List Value} (first : R h copied v h₁ copied₁ v')
    (others : Each R h₁ copied₁ rest h' copied' rest')
    : Each R h copied (v :: rest) h' copied' (v' :: rest')

/-- A bound argument is copied as if no array had been copied, and none counts as copied then. -/
def Alone (R : Heap → Copied → Value → Heap → Copied → Value → Prop) (h : Heap) (copied : Copied)
    (v : Value) (h' : Heap) (copied' : Copied) (v' : Value)
    : Prop :=
  copied = [] ∧ copied' = [] ∧ ∃ made, R h [] v h' made v'

/-- What is true of the copy of each value, as long as the arrays copied so far allow it, by
induction on the values.
-/
theorem each_of_copyEach {R : Heap → Copied → Value → Heap → Copied → Value → Prop}
    {allowed : Copied → Prop} {step : Heap → Copied → Value → Option (Heap × Copied × Value)}
    (one
      : ∀ h copied v h' copied' v', allowed copied → step h copied v = some (h', copied', v')
        → allowed copied' ∧ R h copied v h' copied' v')
    {copied copied' : Copied} {done values result : List Value} (begun : allowed copied)
    (copies : copyEach step h copied done values = some (h', copied', result))
    : allowed copied'
      ∧ ∃ values', result = done.reverse ++ values' ∧ Each R h copied values h' copied' values' := by
  induction values generalizing h copied done with
  | nil =>
      cases copies
      exact ⟨begun, [], (List.append_nil _).symm, .nil⟩
  | cons v rest ih =>
      cases found : step h copied v with
      | none => simp [copyEach, found] at copies
      | some next =>
          obtain ⟨h₁, copied₁, v₁⟩ := next
          simp only [copyEach, found] at copies
          obtain ⟨allowed, first⟩ := one h copied v h₁ copied₁ v₁ begun found
          obtain ⟨allowed, rest', rfl, others⟩ := ih allowed copies
          exact ⟨allowed, v₁ :: rest', by simp, .cons first others⟩

/-- What is true of all copies, by the way in which they are made: most values are shared, an array
that was entered has its copy, any other one is entered and gets copies of its cells, and a closure
becomes a new one. The induction is on the depth.
-/
theorem copyTo_induction {motive : Heap → Copied → Value → Heap → Copied → Value → Prop}
    (atomic : ∀ h copied v, Atomic v → motive h copied v h copied v)
    (direct
      : ∀ h copied c callee, h.callable c = .direct callee
        → motive h copied (.callable c) h copied (.callable c))
    (entered : ∀ h copied a b, (a, b) ∈ copied → motive h copied (.array a) h copied (.array b))
    (array
      : ∀ h copied a h₁ copied₁ cells, copied.find? (·.1 == a) = none
        → Each motive (h.withShell a) ((a, ⟨h.arrays.size⟩) :: copied) (h.grid a).cells.toList h₁
            copied₁ cells
        → motive h copied (.array a) (h₁.fill ⟨h.arrays.size⟩ cells) copied₁
            (.array ⟨h.arrays.size⟩))
    (closure
      : ∀ h copied c base bound h₁ bound₁, h.callable c = .closure base bound
        → Each (Alone motive) h [] bound h₁ [] bound₁
        → motive h copied (.callable c) (h₁.addCallable (.closure base bound₁)).1 copied
            (.callable ⟨h₁.callables.size⟩))
    {depth : Nat} {copied copied' : Copied} {v v' : Value}
    (copies : h.copyTo depth copied v = some (h', copied', v'))
    : motive h copied v h' copied' v' := by
  induction depth using Nat.strongRecOn generalizing h copied v h' copied' v' with
  | ind depth ih =>
      cases v with
      | array a =>
          rcases copyTo_array_cases copies with
            ⟨⟨a', b⟩, known, rfl, rfl, rfl⟩ | ⟨less, h₁, cells, rfl, new, inner, rfl, rfl⟩
          · have same : a' = a := by simpa using List.find?_some known
            exact entered h' copied' a b (same ▸ List.mem_of_find?_eq_some known)
          · have one h copied v h₁ copied₁ v₁ (_ : True)
                (once : copyTo less h copied v = some (h₁, copied₁, v₁))
                : True ∧ motive h copied v h₁ copied₁ v₁ :=
              ⟨trivial, ih less (Nat.lt_succ_self less) once⟩
            obtain ⟨-, _, rfl, each⟩ := each_of_copyEach one trivial inner
            exact array h copied a h₁ copied' cells new each
      | callable c =>
          rcases copyTo_callable_cases copies with
            ⟨callee, what, rfl, rfl, rfl⟩
            | ⟨base, bound, less, h₁, copied₁, bound₁, what, rfl, inner, rfl, rfl, rfl⟩
          · exact direct h' copied' c callee what
          · have one h copied v h₁ copied₁ v₁ (begun : copied = [])
                (alone : copyAlone less h copied v = some (h₁, copied₁, v₁))
                : copied₁ = [] ∧ Alone motive h copied v h₁ copied₁ v₁ := by
              obtain ⟨made, once, empty⟩ := copyAlone_eq_some.mp alone
              exact ⟨empty, begun, empty, made, ih less (Nat.lt_succ_self less) once⟩
            obtain ⟨rfl, _, rfl, each⟩ := each_of_copyEach one rfl inner
            exact closure h copied' c base bound h₁ bound₁ what each
      | null | integer _ | boolean _ | float _ | string _ | object _ =>
          simp only [copyTo, Option.some.injEq, Prod.mk.injEq] at copies
          obtain ⟨rfl, rfl, rfl⟩ := copies
          exact atomic h copied _ trivial

/-- Values are copied one after another. -/
theorem copyList_cons_eq_some {v : Value} {rest values' : List Value}
    : h.copyList (v :: rest) = some (h', values')
      ↔ ∃ h₁ v₁ rest₁,
          h.copy v = some (h₁, v₁) ∧ h₁.copyList rest = some (h', rest₁)
          ∧ values' = v₁ :: rest₁ := by
  simp only [copyList, Option.bind_eq_bind, Option.bind_eq_some_iff, Prod.exists,
    Option.some.injEq, Prod.mk.injEq]
  constructor
  · rintro ⟨h₁, v₁, first, h₂, rest₁, others, rfl, rfl⟩
    exact ⟨h₁, v₁, rest₁, first, others, rfl⟩
  · rintro ⟨h₁, v₁, rest₁, first, others, rfl⟩
    exact ⟨h₁, v₁, first, h', rest₁, others, rfl, rfl⟩

/-- What is true of the heaps before and after whatever copies do to a heap: they fill new arrays and
make new closures, one after another.
-/
structure Survives (R : Heap → Heap → Prop) : Prop where
  refl : ∀ h, R h h
  trans : ∀ h h₁ h₂, R h h₁ → R h₁ h₂ → R h h₂
  array : ∀ h a h₁ cells, R (h.withShell a) h₁ → R h (h₁.fill ⟨h.arrays.size⟩ cells)
  closure
    : ∀ h c base bound h₁ bound₁, h.callable c = .closure base bound → R h h₁
      → R h (h₁.addCallable (.closure base bound₁)).1

namespace Survives

variable {R : Heap → Heap → Prop}

/-- What is true across each of several copies is true across all of them, by induction on these. -/
theorem each (survives : Survives R) {S : Heap → Copied → Value → Heap → Copied → Value → Prop}
    (one : ∀ h copied v h' copied' v', S h copied v h' copied' v' → R h h') {copied copied' : Copied}
    {values values' : List Value} (each : Each S h copied values h' copied' values')
    : R h h' := by
  induction each with
  | nil => exact survives.refl _
  | cons first _ ih => exact survives.trans _ _ _ (one _ _ _ _ _ _ first) ih

/-- It is true across a copy to a depth. -/
theorem copyTo (survives : Survives R) {depth : Nat} {copied copied' : Copied} {v v' : Value}
    (copies : Heap.copyTo depth h copied v = some (h', copied', v'))
    : R h h' := by
  refine copyTo_induction (motive := fun h _ _ h' _ _ => R h h') ?atomic ?direct ?entered ?array
    ?closure copies
  case atomic | direct | entered =>
    intros
    exact survives.refl _
  case array =>
    intro h _ a h₁ _ cells _ each
    exact survives.array h a h₁ cells (survives.each (fun _ _ _ _ _ _ => id) each)
  case closure =>
    intro h _ c base bound h₁ bound₁ what each
    refine survives.closure h c base bound h₁ bound₁ what (survives.each ?_ each)
    intro _ _ _ _ _ _ alone
    exact alone.2.2.elim fun _ => id

/-- What single changes of a copy leave in place, the whole copy does. -/
theorem copy (survives : Survives R) {v v' : Value} (copies : h.copy v = some (h', v')) : R h h' := by
  obtain ⟨⟨h₁, copied, v₁⟩, done, same⟩ := Option.map_eq_some_iff.mp copies
  simp only [Prod.mk.injEq] at same
  exact same.1 ▸ survives.copyTo done

theorem copyList (survives : Survives R) {values values' : List Value}
    (copies : h.copyList values = some (h', values'))
    : R h h' := by
  induction values generalizing h h' values' with
  | nil =>
      simp only [Heap.copyList, Option.some.injEq, Prod.mk.injEq] at copies
      exact copies.1 ▸ survives.refl h
  | cons v rest ih =>
      obtain ⟨h₁, v₁, rest₁, first, others, -⟩ := copyList_cons_eq_some.mp copies
      exact survives.trans _ _ _ (survives.copy first) (ih others)

end Survives

/-- The heap goes on through copies. -/
theorem survives_evolves : Survives Evolves where
  refl := .refl
  trans _ _ _ := .trans
  array h a h₁ cells copied := by
    have later : (h.withShell a).Evolves (h₁.fill ⟨h.arrays.size⟩ cells) :=
      copied.trans (evolves_setGrid fun box => box.replace _)
    refine ⟨later.routines, fun sound => later.grids ?_⟩
    -- the shell is a box because the array is
    exact (evolves_addArray h ((sound a).ofParts #[])).grids sound
  closure _ _ _ _ _ _ _ copied := copied.trans (.of_arrays rfl rfl)

/-- A copy only adds to a heap, apart from arrays of its own that it fills. -/
theorem evolves_copy {v v' : Value} (copies : h.copy v = some (h', v')) : h.Evolves h' :=
  survives_evolves.copy copies

theorem evolves_copyList {values values' : List Value}
    (copies : h.copyList values = some (h', values'))
    : h.Evolves h' :=
  survives_evolves.copyList copies

end Heap

/-- Setting a global copies the value and enters it. -/
theorem World.evolves_set {w w' : World} {name : String} {v : Value} (done : w.set name v = some w')
    : w.heap.Evolves w'.heap := by
  obtain ⟨⟨h, v₁⟩, copies, same⟩ := Option.map_eq_some_iff.mp done
  rw [← same]
  exact Heap.evolves_copy copies

namespace Closure

/-- Binding a value fails, or puts a copy of it behind the bound ones. -/
theorem run_bind_cases (v : Value) (h : Heap) (c : Closure)
    : (∃ fault, (bind v).run (h, c) = .error fault (h, c))
      ∨ ∃ h' v', h.copy v = some (h', v')
        ∧ (bind v).run (h, c) = .ok () (h', { c with bound := c.bound ++ [v'] }) := by
  by_cases full : ∃ limit, h.callableMaxArguments c.base = some limit ∧ limit < c.bound.length + 1
  · obtain ⟨limit, most, full⟩ := full
    let count := c.bound.length + 1
    let text := s!"'{h.callableName c.base}' takes at most {limit} arguments, cannot bind {count}"
    refine .inl ⟨.fault (.typeMismatch text), ?_⟩
    simp only [bind, EStateM.run_bind, EStateM.run_get, most, full, if_true]
    rfl
  have room (limit : Nat) (most : h.callableMaxArguments c.base = some limit)
      : ¬ limit < c.bound.length + 1 := by
    intro more
    exact full ⟨limit, most, more⟩
  rcases Option.eq_none_or_eq_some (h.copy v) with copied | ⟨⟨h', v'⟩, copied⟩
  on_goal 1 => refine .inl ⟨.endless, ?_⟩
  on_goal 2 => refine .inr ⟨h', v', copied, ?_⟩
  all_goals
    simp only [bind, EStateM.run_bind, EStateM.run_get, copied]
    split
    · rename_i limit most
      simp only [room limit most, if_false]
      rfl
    · rfl

/-- The heap goes on when a value is bound, whether that completes or not. -/
theorem evolves_bind (v : Value) (s : Heap × Closure)
    : s.1.Evolves (stateOf ((bind v).run s)).1 := by
  obtain ⟨h, c⟩ := s
  rcases run_bind_cases v h c with ⟨fault, failed⟩ | ⟨h', v', copied, ran⟩
  · rw [failed]
    exact .refl h
  · rw [ran]
    exact Heap.evolves_copy copied

/-- The heap goes on when values are bound, by induction on the values. -/
theorem evolves_bindAll (values : List Value) (s : Heap × Closure)
    : s.1.Evolves (stateOf ((bindAll values).run s)).1 := by
  induction values generalizing s with
  | nil => exact .refl s.1
  | cons v rest ih =>
      have first := evolves_bind v s
      simp only [bindAll, EStateM.run_bind]
      cases once : (bind v).run s with
      | ok _ s₁ =>
          rw [once] at first
          exact first.trans (ih s₁)
      | error _ s₁ =>
          rw [once] at first
          exact first

/-- Binding adds copies to the heap, also where a value is refused later on. -/
theorem evolves_bindLast (values : List Value) (count : Nat) (s : Heap × Closure)
    : s.1.Evolves (stateOf ((bindLast values count).run s)).1 := by
  simp only [bindLast]
  split
  · exact .refl s.1
  · exact evolves_bindAll _ s

end Closure
end TaskMachine

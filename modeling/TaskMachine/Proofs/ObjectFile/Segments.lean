import Mathlib.Data.List.Forall2
import TaskMachine.ObjectFile.Reader
import TaskMachine.Proofs.Codec.Items

/-!
Loading the values of a segment. It succeeds if the bytes are exactly as many items as the segment
says and every record that they refer to has been loaded; the values then stand for the items, and
the heap has got callables for the routines among them. Nothing else of the state changes.
-/

namespace TaskMachine

/-- The items of a segment, if its bytes are nothing but as many items as it says. -/
def Segment.items? (charset : Charset) (segment : Segment) : Option (List Item) :=
  match Item.segment? charset segment.count.toNat segment.data with
  | some (items, []) => some items
  | _ => none

theorem Segment.length_items {charset : Charset} {segment : Segment} {items : List Item}
    (parsed : segment.items? charset = some items)
    : items.length = segment.count.toNat := by
  simp only [Segment.items?] at parsed
  split at parsed
  · rename_i found
    cases parsed
    exact Item.length_segment found
  · cases parsed

theorem Segment.not_handle {charset : Charset} {segment : Segment} {items : List Item} {v : Value}
    (parsed : segment.items? charset = some items) (member : .plain v ∈ items)
    : ¬ v.IsHandle := by
  simp only [Segment.items?, Item.segment?] at parsed
  split at parsed
  · rename_i found
    cases parsed
    split at found
    · exact Item.not_handle_of_parseAll found member
    · cases found
  · cases parsed

/-- The callables of one heap are those of another and maybe more. -/
def Heap.KeepsCallables (h h' : Heap) : Prop :=
  ∃ more, h'.callables = h.callables ++ more

/-- The heap has got more callables and is otherwise the same. -/
structure Heap.Grown (h h' : Heap) : Prop where
  arrays : h'.arrays = h.arrays
  callables : h.KeepsCallables h'
  objects : h'.objects = h.objects
  routines : h'.routines = h.routines

namespace Heap

variable {h h' h'' : Heap}

theorem KeepsCallables.of_eq (same : h'.callables = h.callables) : h.KeepsCallables h' :=
  ⟨#[], by simp [same]⟩

theorem KeepsCallables.trans (first : h.KeepsCallables h') (next : h'.KeepsCallables h'')
    : h.KeepsCallables h'' := by
  obtain ⟨more, callables⟩ := first
  obtain ⟨further, callables'⟩ := next
  exact ⟨more ++ further, by rw [callables', callables, Array.append_assoc]⟩

/-- A callable that is there stays what it is. -/
theorem KeepsCallables.callable_at (kept : h.KeepsCallables h') {i : Nat} {c : Callable}
    (present : h.callables[i]? = some c)
    : h'.callables[i]? = some c := by
  obtain ⟨more, callables⟩ := kept
  obtain ⟨inside, -⟩ := Array.getElem?_eq_some_iff.mp present
  rw [callables, Array.getElem?_append_left inside, present]

theorem Grown.refl (h : Heap) : h.Grown h :=
  ⟨rfl, .of_eq rfl, rfl, rfl⟩

theorem Grown.trans (first : h.Grown h') (next : h'.Grown h'') : h.Grown h'' :=
  ⟨next.arrays.trans first.arrays, first.callables.trans next.callables,
    next.objects.trans first.objects, next.routines.trans first.routines⟩

private theorem grown_addCallable (h : Heap) (c : Callable) : h.Grown (h.addCallable c).1 :=
  ⟨rfl, ⟨#[c], by simp [addCallable]⟩, rfl, rfl⟩

end Heap

namespace Item

variable {routines routines' : Nat → Option RoutineId} {arrays arrays' : Nat → Option ArrayId}
  {h h' : Heap}

/-- The value stands for the item, the records having been loaded as the tables say. -/
def Denotes (routines : Nat → Option RoutineId) (arrays : Nat → Option ArrayId) (h : Heap)
    : Item → Value → Prop
  | .plain v, w => w = v
  | .routine number, w =>
    ∃ c r, w = .callable c ∧ routines number = some r
      ∧ h.callables[c.index]? = some (.direct (.subroutine r))
  | .array number, w => ∃ a, w = .array a ∧ arrays number = some a

/-- The record that the item refers to, if any, has been loaded. -/
def Resolved (routines : Nat → Option RoutineId) (arrays : Nat → Option ArrayId) : Item → Prop
  | .plain _ => True
  | .routine number => (routines number).isSome
  | .array number => (arrays number).isSome

/-- A value goes on standing for an item whose record stays loaded, when other records are dropped
or added and callables are added.
-/
theorem Denotes.later {item : Item} {v : Value} (denotes : item.Denotes routines arrays h v)
    (resolved : item.Resolved routines' arrays')
    (sameRoutine : ∀ n r r', routines n = some r → routines' n = some r' → r' = r)
    (sameArray : ∀ n a a', arrays n = some a → arrays' n = some a' → a' = a)
    (kept : h.KeepsCallables h')
    : item.Denotes routines' arrays' h' v := by
  cases item with
  | plain w => exact denotes
  | routine number =>
      obtain ⟨c, r, rfl, found, callable⟩ := denotes
      obtain ⟨r', still⟩ := Option.isSome_iff_exists.mp resolved
      have same := sameRoutine number r r' found still
      subst same
      exact ⟨c, r', rfl, still, kept.callable_at callable⟩
  | array number =>
      obtain ⟨a, rfl, found⟩ := denotes
      obtain ⟨a', still⟩ := Option.isSome_iff_exists.mp resolved
      have same := sameArray number a a' found still
      subst same
      exact ⟨a', rfl, still⟩

/-- A value stands for an item only if its record has been loaded. -/
theorem Denotes.resolved {item : Item} {v : Value} (denotes : item.Denotes routines arrays h v)
    : item.Resolved routines arrays := by
  cases item with
  | plain w => trivial
  | routine number =>
      obtain ⟨_, r, -, found, -⟩ := denotes
      exact Option.isSome_iff_exists.mpr ⟨r, found⟩
  | array number =>
      obtain ⟨a, -, found⟩ := denotes
      exact Option.isSome_iff_exists.mpr ⟨a, found⟩

theorem Resolved.mono {item : Item} (resolved : item.Resolved routines arrays)
    (moreRoutines : ∀ n r, routines n = some r → routines' n = some r)
    (moreArrays : ∀ n a, arrays n = some a → arrays' n = some a)
    : item.Resolved routines' arrays' := by
  cases item with
  | plain w => trivial
  | routine number =>
      obtain ⟨r, found⟩ := Option.isSome_iff_exists.mp resolved
      exact Option.isSome_iff_exists.mpr ⟨r, moreRoutines _ _ found⟩
  | array number =>
      obtain ⟨a, found⟩ := Option.isSome_iff_exists.mp resolved
      exact Option.isSome_iff_exists.mpr ⟨a, moreArrays _ _ found⟩

/-- A value goes on standing for an item when records and callables are added. -/
theorem Denotes.mono {item : Item} {v : Value} (denotes : item.Denotes routines arrays h v)
    (moreRoutines : ∀ n r, routines n = some r → routines' n = some r)
    (moreArrays : ∀ n a, arrays n = some a → arrays' n = some a)
    (kept : h.KeepsCallables h')
    : item.Denotes routines' arrays' h' v := by
  refine denotes.later (denotes.resolved.mono moreRoutines moreArrays) ?_ ?_ kept
  · intro n r r' before after
    rw [moreRoutines n r before] at after
    exact (Option.some.inj after).symm
  · intro n a a' before after
    rw [moreArrays n a before] at after
    exact (Option.some.inj after).symm

theorem Denotes.kept {item : Item} {v : Value} (denotes : item.Denotes routines arrays h v)
    (kept : h.KeepsCallables h')
    : item.Denotes routines arrays h' v :=
  denotes.mono (fun _ _ found => found) (fun _ _ found => found) kept

/-- The numbers that were noted are those of the items. -/
theorem mem_note {items : List Item} {references : References}
    : (∀ n, n ∈ (items.foldl note references).routines
        ↔ n ∈ references.routines ∨ .routine n ∈ items)
      ∧ (∀ n, n ∈ (items.foldl note references).arrays
        ↔ n ∈ references.arrays ∨ .array n ∈ items) := by
  induction items generalizing references with
  | nil => simp
  | cons item items ih =>
      obtain ⟨inRoutines, inArrays⟩ := @ih (item.note references)
      rw [List.foldl_cons]
      constructor
      · intro n
        rw [inRoutines n]
        cases item <;> simp [note, or_assoc, or_left_comm]
      · intro n
        rw [inArrays n]
        cases item <;> simp [note, or_assoc, or_left_comm]

end Item

namespace Restored

/-- The routine loaded for a record, if it has been. -/
def routineAt (s : Restored) (number : Nat) : Option RoutineId :=
  s.routines[number]?.join

/-- The array made for a record, if it has been. -/
def arrayAt (s : Restored) (number : Nat) : Option ArrayId :=
  s.arrays[number]?.join

end Restored

namespace Restoring

variable {s : Restored} {h h' : Heap}

/-- An item is resolved if its record has been loaded, and its value then stands for it. -/
theorem resolve_of_resolved {item : Item} (h : Heap)
    (resolved : item.Resolved s.routineAt s.arrayAt)
    : ∃ h' v,
        item.resolve (resolver s) h = .ok (h', v)
        ∧ h.Grown h' ∧ item.Denotes s.routineAt s.arrayAt h' v := by
  cases item with
  | plain v => exact ⟨h, v, rfl, .refl h, rfl⟩
  | routine number =>
      obtain ⟨r, found⟩ := Option.isSome_iff_exists.mp resolved
      have answer : (resolver s).routine number = .ok r := by
        simp only [Restored.routineAt] at found
        simp only [resolver, found]
      refine ⟨(h.addSubroutine r).1, (h.addSubroutine r).2, ?_, h.grown_addCallable _,
        ⟨h.callables.size⟩, r, rfl, found, ?_⟩
      · simp only [Item.resolve, answer, Except.map]
      · simp [Heap.addSubroutine, Heap.addCallable]
  | array number =>
      obtain ⟨a, found⟩ := Option.isSome_iff_exists.mp resolved
      have answer : (resolver s).array number = .ok a := by
        simp only [Restored.arrayAt] at found
        simp only [resolver, found]
      exact ⟨h, .array a, by simp only [Item.resolve, answer, Except.map], .refl h, a, rfl, found⟩

private theorem resolved_of_resolve {item : Item} {v : Value}
    (done : item.resolve (resolver s) h = .ok (h', v))
    : item.Resolved s.routineAt s.arrayAt := by
  cases item with
  | plain v => trivial
  | routine number =>
      simp only [Item.Resolved, Restored.routineAt]
      cases found : s.routines[number]?.join with
      | some r => rfl
      | none =>
          simp only [Item.resolve, resolver, found] at done
          cases done
  | array number =>
      simp only [Item.Resolved, Restored.arrayAt]
      cases found : s.arrays[number]?.join with
      | some a => rfl
      | none =>
          simp only [Item.resolve, resolver, found] at done
          cases done

/-- Items are resolved if all their records have been loaded, by induction on the items. -/
theorem resolveAll_of_resolved {items : List Item} (h : Heap)
    (resolved : ∀ item ∈ items, item.Resolved s.routineAt s.arrayAt)
    : ∃ h' values,
        Item.resolveAll (resolver s) h items = .ok (h', values)
        ∧ h.Grown h' ∧ List.Forall₂ (Item.Denotes s.routineAt s.arrayAt h') items values := by
  induction items generalizing h with
  | nil => exact ⟨h, [], rfl, .refl h, .nil⟩
  | cons item items ih =>
      obtain ⟨h₁, v, first, grown₁, denotes⟩ :=
        resolve_of_resolved h (resolved item List.mem_cons_self)
      obtain ⟨h₂, values, others, grown₂, denoteAll⟩ :=
        ih h₁ fun other member => resolved other (List.mem_cons_of_mem _ member)
      exact ⟨h₂, v :: values, Item.resolveAll_cons.mpr ⟨h₁, v, values, first, others, rfl⟩,
        grown₁.trans grown₂, .cons (denotes.kept grown₂.callables) denoteAll⟩

private theorem resolved_of_resolveAll {items : List Item} {values : List Value}
    (done : Item.resolveAll (resolver s) h items = .ok (h', values))
    : ∀ item ∈ items, item.Resolved s.routineAt s.arrayAt := by
  induction items generalizing h values with
  | nil => simp
  | cons item items ih =>
      obtain ⟨h₁, v, others, first, next, rfl⟩ := Item.resolveAll_cons.mp done
      intro other member
      rcases List.mem_cons.mp member with rfl | later
      · exact resolved_of_resolve first
      · exact ih next other later

/-- The state with another heap. -/
def withHeap (s : Restored) (heap : Heap) : Restored :=
  { s with heap }

/-- The numbers that a list of items refers to. -/
def referencesOf (items : List Item) : References :=
  items.foldl Item.note {}

theorem mem_referencesOf_routines {items : List Item} {n : Nat}
    : n ∈ (referencesOf items).routines ↔ .routine n ∈ items := by
  simp [referencesOf, Item.mem_note.1 n]

theorem mem_referencesOf_arrays {items : List Item} {n : Nat}
    : n ∈ (referencesOf items).arrays ↔ .array n ∈ items := by
  simp [referencesOf, Item.mem_note.2 n]

/-- Reading a segment changes the heap at most, and nothing may be left after it. -/
theorem run_segment (charset : Charset) (seg : Segment) (s : Restored)
    : (segment charset seg).run s
      = match (Reader.segment charset (resolver s) seg.count.toNat).run ⟨seg.data, s.heap, {}⟩ with
        | .ok values loading =>
          if loading.bytes.isEmpty then .ok (values, loading.references) (withHeap s loading.heap)
          else .error (.badFormat "trailing data after segment") (withHeap s loading.heap)
        | .error f _ => .error f s := by
  simp only [segment, EStateM.run_bind, EStateM.run_get]
  cases (Reader.segment charset (resolver s) seg.count.toNat).run ⟨seg.data, s.heap, {}⟩ with
  | error f loading => rfl
  | ok values loading =>
      cases empty : loading.bytes.isEmpty with
      | true =>
          simp only [empty, Bool.not_true, Bool.false_eq_true, if_false, if_true]
          rfl
      | false =>
          simp only [empty, Bool.not_false, Bool.false_eq_true, if_false, if_true]
          rfl

/-- A segment is loaded if its items can be parsed and are all resolved. Otherwise the load fails,
having added callables at most.
-/
theorem segment_cases (charset : Charset) (seg : Segment) (s : Restored)
    : (∃ items values h',
        seg.items? charset = some items
        ∧ (∀ item ∈ items, item.Resolved s.routineAt s.arrayAt)
        ∧ (segment charset seg).run s = .ok (values, referencesOf items) (withHeap s h')
        ∧ s.heap.Grown h'
        ∧ List.Forall₂ (Item.Denotes s.routineAt s.arrayAt h') items values)
      ∨ ((¬ ∃ items,
            seg.items? charset = some items
            ∧ ∀ item ∈ items, item.Resolved s.routineAt s.arrayAt)
        ∧ ∃ f h', (segment charset seg).run s = .error f (withHeap s h') ∧ s.heap.Grown h') := by
  rw [run_segment]
  cases read : (Reader.segment charset (resolver s) seg.count.toNat).run ⟨seg.data, s.heap, {}⟩ with
  | ok values loading =>
      obtain ⟨items, rest, h', parsed, resolved, rfl⟩ := Reader.segment_eq_ok.mp read
      have all := resolved_of_resolveAll resolved
      obtain ⟨h₁, values₁, again, grown, denotes⟩ := resolveAll_of_resolved s.heap all
      rw [resolved] at again
      cases again
      cases rest with
      | nil =>
          refine .inl ⟨items, values, h', ?_, all, by simp [referencesOf], grown, denotes⟩
          simp only [Segment.items?, parsed]
      | cons byte rest =>
          refine .inr ⟨?_, _, h', by simp; rfl, grown⟩
          rintro ⟨items', found, -⟩
          simp only [Segment.items?, parsed] at found
          cases found
  | error f loading =>
      refine .inr ⟨?_, f, s.heap, rfl, .refl _⟩
      rintro ⟨items, found, all⟩
      obtain ⟨h', values, resolved, -, -⟩ := resolveAll_of_resolved s.heap all
      simp only [Segment.items?] at found
      split at found
      · rename_i parsed
        cases found
        have done : (Reader.segment charset (resolver s) seg.count.toNat).run ⟨seg.data, s.heap, {}⟩
            = .ok values ⟨[], h', referencesOf items⟩ :=
          Reader.segment_eq_ok.mpr ⟨items, [], h', parsed, resolved, rfl⟩
        rw [read] at done
        cases done
      · cases found

end Restoring
end TaskMachine

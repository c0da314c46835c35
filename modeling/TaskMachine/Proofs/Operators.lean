import TaskMachine.Operator
import TaskMachine.Proofs.Heap.Similarity

/-!
Operators and indexing do not tell values that are alike apart: they answer alike, with the same
fault if there is one. The one exception is the question whether two handles of one routine are the same.
-/

namespace TaskMachine

namespace Partners

variable {p : Partners} {v v' a a' b b' : Value}

-----------------------------------------------------------------------------------------
-- What operators see of a value
-----------------------------------------------------------------------------------------

theorem Values.typeName (alike : p.Values v v') : v'.typeName = v.typeName := by
  cases alike <;> rfl

theorem Values.isNull (alike : p.Values v v') : v'.isNull = v.isNull := by
  cases alike <;> rfl

theorem Values.truth (alike : p.Values v v') : v'.truth? = v.truth? := by
  cases alike <;> rfl

theorem Values.string (alike : p.Values v v') : v'.string? = v.string? := by
  cases alike <;> rfl

theorem Values.integer (alike : p.Values v v') : v'.integer? = v.integer? := by
  cases alike <;> rfl

theorem Values.number (alike : p.Values v v') : Number.ofValue? v' = Number.ofValue? v := by
  cases alike <;> rfl

/-- Two computations fail with the same fault, or complete with results in a relation. -/
inductive Outcomes {α α' : Type} (R : α → α' → Prop) : Except Fault α → Except Fault α' → Prop
  | ok {a : α} {a' : α'} (result : R a a') : Outcomes R (.ok a) (.ok a')
  | error (fault : Fault) : Outcomes R (.error fault) (.error fault)

/-- A fault or a value without handles is alike to itself. -/
theorem outcomes_plain {outcome : Except Fault Value} (plain : ∀ v, outcome = .ok v → ¬ v.IsHandle)
    : Outcomes p.Values outcome outcome := by
  cases outcome with
  | ok v => exact .ok (.plain (plain v rfl))
  | error fault => exact .error fault

/-- What is made of the same intermediate result is alike if it is in each case. -/
theorem outcomes_bind {α β β' : Type} {R : β → β' → Prop} (outcome : Except Fault α)
    {f : α → Except Fault β} {f' : α → Except Fault β'} (next : ∀ a, Outcomes R (f a) (f' a))
    : Outcomes R (outcome >>= f) (outcome >>= f') := by
  cases outcome with
  | ok a => exact next a
  | error fault => exact .error fault

end Partners

-----------------------------------------------------------------------------------------
-- Results without handles
-----------------------------------------------------------------------------------------

private theorem Value.not_handle_ofExact (n : Int) : ¬ (Value.ofExact n).IsHandle := by
  rw [Value.ofExact]
  split <;> exact id

namespace BinaryOp

private theorem not_handle_power (x y : Int) : ¬ (power x y).IsHandle := by
  unfold power
  extract_lets reduced exact
  split <;> exact id

/-- Arithmetic gives numbers or faults only. -/
theorem not_handle_of_exactArithmetic {op : BinaryOp} {x y : Int} {v : Value}
    (done : exactArithmetic op x y = .ok v)
    : ¬ v.IsHandle := by
  unfold exactArithmetic at done
  split at done
  all_goals try split at done
  all_goals try split at done
  all_goals cases done
  all_goals first
    | exact Value.not_handle_ofExact _
    | exact not_handle_power _ _
    | exact id

private theorem not_handle_of_floatArithmetic {op : BinaryOp} {x y : Float} {v : Value}
    (done : floatArithmetic op x y = .ok v)
    : ¬ v.IsHandle := by
  unfold floatArithmetic at done
  split at done
  all_goals try split at done
  all_goals cases done
  all_goals exact id

private theorem not_handle_of_arithmetic {op : BinaryOp} {a b v : Value} (done : arithmetic op a b = .ok v)
    : ¬ v.IsHandle := by
  unfold arithmetic at done
  split at done
  · exact not_handle_of_exactArithmetic done
  · exact not_handle_of_floatArithmetic done
  · cases done

private theorem not_handle_conjunction (a b : Value) : ¬ (conjunction a b).IsHandle := by
  unfold conjunction
  split <;> exact id

private theorem not_handle_disjunction (a b : Value) : ¬ (disjunction a b).IsHandle := by
  unfold disjunction
  split <;> exact id

private theorem not_handle_exclusive (a b : Value) : ¬ (exclusive a b).IsHandle := by
  unfold exclusive
  split <;> exact id

end BinaryOp

-----------------------------------------------------------------------------------------
-- Operators with two operands
-----------------------------------------------------------------------------------------

/-- Twins are two handles of one routine. -/
def Heap.Twins (h : Heap) (a b : Value) : Prop :=
  ∃ c d r,
    a = .callable c ∧ b = .callable d
    ∧ h.callable c = .direct (.subroutine r) ∧ h.callable d = .direct (.subroutine r)

namespace BinaryOp

section
variable {p : Partners} {h h' : Heap} {a a' b b' : Value}

private theorem mismatch_alike (op : BinaryOp) (left : p.Values a a') (right : p.Values b b')
    : mismatch op a' b' = mismatch op a b := by
  rw [mismatch, mismatch, left.typeName, right.typeName]

private theorem arithmetic_alike (op : BinaryOp) (left : p.Values a a') (right : p.Values b b')
    : arithmetic op a' b' = arithmetic op a b := by
  rw [arithmetic, arithmetic, left.number, right.number, mismatch_alike op left right]

private theorem ordering_alike (op : BinaryOp) (left : p.Values a a') (right : p.Values b b')
    : ordering op a' b' = ordering op a b := by
  rw [ordering, ordering, left.string, right.string, left.number, right.number,
    mismatch_alike op left right]

/-- Callables with different partners are different, unless they are handles of one routine. Of these it
holds, too, if callables have one partner each.
-/
theorem callable_eq_iff (alike : p.Heaps h h') {c c' d d' : CallableId} (left : p.callables c c')
    (right : p.callables d d') (told : h.Twins (.callable c) (.callable d) → p.Faithful)
    : c' = d' ↔ c = d := by
  by_cases twins : h.Twins (.callable c) (.callable d)
  · constructor
    · rintro rfl
      exact (told twins).apart c d c' left right
    · rintro rfl
      exact (told twins).once c c' d' left right
  have callables := alike.callable c c' left
  constructor
  · rintro rfl
    have others := alike.callable d c' right
    cases what : h.callable c with
    | direct =>
        rw [what] at callables
        generalize what' : h'.callable c' = one at callables others
        obtain ⟨paired⟩ := callables
        cases what'' : h.callable d with
        | direct =>
            rw [what''] at others
            obtain ⟨paired'⟩ := others
            have same := alike.routineApart _ _ _ paired paired'
            subst same
            exact absurd ⟨c, d, _, rfl, rfl, what, what''⟩ twins
        | closure =>
            rw [what''] at others
            cases others
    | closure =>
        rw [what] at callables
        generalize what' : h'.callable c' = one at callables
        cases callables
        exact alike.closureApart c d c' _ _ left right what'
  · rintro rfl
    cases what : h.callable c with
    | direct =>
        rw [what] at callables
        generalize h'.callable c' = one at callables
        obtain ⟨paired⟩ := callables
        exact absurd ⟨c, c, _, rfl, rfl, what, what⟩ twins
    | closure => exact alike.closureOnce c c' d' _ _ left right what

/-- What is no handle is not the same as anything. -/
theorem sameIdentity_of_not_handle (standsAlone : ¬ a.IsHandle) (b : Value)
    : a.sameIdentity b = false ∧ b.sameIdentity a = false := by
  cases a with
  | array | callable | object => exact absurd trivial standsAlone
  | null | integer _ | boolean _ | float _ | string _ => cases b <;> exact ⟨rfl, rfl⟩

/-- A handle is the same as another one just if its partner is: arrays and closures are partners one to
one, and handles of different routines are different.
-/
theorem sameIdentity_alike (alike : p.Heaps h h') (left : p.Values a a') (right : p.Values b b')
    (told : h.Twins a b → p.Faithful)
    : a'.sameIdentity b' = a.sameIdentity b := by
  cases left with
  | plain standsAlone =>
      exact (sameIdentity_of_not_handle standsAlone b').1.trans
        (sameIdentity_of_not_handle standsAlone b).1.symm
  | @array c c' paired =>
      cases right with
      | plain standsAlone =>
          exact (sameIdentity_of_not_handle standsAlone _).2.trans
            (sameIdentity_of_not_handle standsAlone _).2.symm
      | @array d d' paired' =>
          rw [Value.sameIdentity, Value.sameIdentity, Bool.eq_iff_iff, beq_iff_eq, beq_iff_eq]
          constructor
          · rintro rfl
            exact alike.arrayApart c d c' paired paired'
          · rintro rfl
            exact alike.arrayOnce c c' d' paired paired'
      | callable => rfl
  | callable paired =>
      cases right with
      | plain standsAlone =>
          exact (sameIdentity_of_not_handle standsAlone _).2.trans
            (sameIdentity_of_not_handle standsAlone _).2.symm
      | array => rfl
      | callable paired' =>
          rw [Value.sameIdentity, Value.sameIdentity, Bool.eq_iff_iff, beq_iff_eq, beq_iff_eq]
          exact callable_eq_iff alike paired paired' told

/-- Equality answers alike, but where twins are compared the partners must be faithful to tell them
apart alike.
-/
theorem equality_alike (alike : p.Heaps h h') (op : BinaryOp) (left : p.Values a a')
    (right : p.Values b b') (told : h.Twins a b → p.Faithful)
    : equality op a' b' = equality op a b := by
  rw [equality, equality, left.string, right.string, left.number, right.number,
    mismatch_alike op left right, sameIdentity_alike alike left right told]

/-- Does the operator ask whether its operands are the same? -/
def TestsIdentity (op : BinaryOp) : Prop :=
  op = .eq ∨ op = .ne

/-- Addition joins texts if a side is a string, and else is arithmetic. -/
theorem applyPresent_add (plain : Value → String) (a b : Value)
    : applyPresent plain .add a b
      = match a.string?, b.string? with
        | some x, some y => .ok (.string (x ++ y))
        | _, _ => arithmetic .add a b := by
  cases a <;> cases b <;> rfl

/-- An operator gives a value without handles or one of its operands, by the kinds of operators. -/
theorem result_of_applyPresent {plain : Value → String} {op : BinaryOp} {a b v : Value}
    (done : op.applyPresent plain a b = .ok v)
    : ¬ v.IsHandle ∨ v = a ∨ v = b := by
  cases op with
  | add =>
      rw [applyPresent_add] at done
      split at done
      · cases done
        exact .inl id
      · exact .inl (not_handle_of_arithmetic done)
  | sub | mul | div | intDiv | mod | pow | and | or => exact .inl (not_handle_of_arithmetic done)
  | concat =>
      cases done
      exact .inl id
  | xor =>
      cases done
      exact .inl (not_handle_exclusive a b)
  | eq | ne | lt | le | gt | ge =>
      obtain ⟨_, -, same⟩ := bind_eq_ok.mp done
      cases same
      exact .inl id
  | min | max =>
      obtain ⟨order, -, same⟩ := bind_eq_ok.mp done
      split at same
      · cases same
        simp
      · cases same
        simp

/-- No operator makes a handle; one that comes out is one of the operands. -/
theorem result_of_apply {plain : Value → String} {op : BinaryOp} {a b v : Value}
    (done : op.apply plain a b = .ok v)
    : ¬ v.IsHandle ∨ v = a ∨ v = b := by
  unfold apply at done
  split at done
  · cases done
    exact .inl (not_handle_conjunction a b)
  · cases done
    exact .inl (not_handle_disjunction a b)
  · split at done
    · cases done
      exact .inl id
    · exact result_of_applyPresent done

/-- Operators answer alike to operands that are alike, by the kinds of operators. -/
theorem applyPresent_alike (alike : p.Heaps h h') (op : BinaryOp) (left : p.Values a a')
    (right : p.Values b b') (told : op.TestsIdentity → h.Twins a b → p.Faithful)
    : Partners.Outcomes p.Values (op.applyPresent h.plain a b) (op.applyPresent h'.plain a' b') := by
  have arithmetic (op : BinaryOp)
      : Partners.Outcomes p.Values (op.arithmetic a b) (op.arithmetic a' b') := by
    rw [arithmetic_alike op left right]
    exact Partners.outcomes_plain fun v => not_handle_of_arithmetic
  cases op with
  | add =>
      rw [applyPresent_add, applyPresent_add, left.string, right.string]
      split
      · exact .ok (.plain id)
      · exact arithmetic .add
  | sub | mul | div | intDiv | mod | pow | and | or => exact arithmetic _
  | concat =>
      simp only [applyPresent, alike.plain left, alike.plain right]
      exact .ok (.plain id)
  | xor =>
      simp only [applyPresent, exclusive, left.truth, right.truth]
      exact .ok (.plain (not_handle_exclusive a b))
  | eq | ne =>
      simp only [applyPresent, equality_alike alike _ left right (told (by simp [TestsIdentity]))]
      exact Partners.outcomes_bind _ fun _ => .ok (.plain id)
  | lt | le | gt | ge =>
      simp only [applyPresent, ordering_alike _ left right]
      exact Partners.outcomes_bind _ fun _ => .ok (.plain id)
  | min | max =>
      simp only [applyPresent, ordering_alike _ left right]
      refine Partners.outcomes_bind _ fun order => ?_
      split
      · exact .ok (by assumption)
      · exact .ok (by assumption)

/-- A binary operator answers alike to operands that are alike. Only if it is asked whether two handles
of one routine are the same, this takes that callables have one partner each.
-/
theorem apply_alike (alike : p.Heaps h h') (op : BinaryOp) (left : p.Values a a')
    (right : p.Values b b') (told : op.TestsIdentity → h.Twins a b → p.Faithful)
    : Partners.Outcomes p.Values (op.apply h.plain a b) (op.apply h'.plain a' b') := by
  have present : Partners.Outcomes p.Values
      (if a.isNull || b.isNull then .ok .null else op.applyPresent h.plain a b)
      (if a'.isNull || b'.isNull then .ok .null else op.applyPresent h'.plain a' b') := by
    rw [left.isNull, right.isNull]
    split
    · exact .ok (.plain id)
    · exact applyPresent_alike alike op left right told
  cases op with
  | and =>
      simp only [apply, conjunction, left.truth, right.truth]
      exact .ok (.plain (not_handle_conjunction a b))
  | or =>
      simp only [apply, disjunction, left.truth, right.truth]
      exact .ok (.plain (not_handle_disjunction a b))
  | add | sub | mul | div | intDiv | mod | pow | concat | eq | ne | lt | le | gt | ge | xor | min
  | max => exact present

end
end BinaryOp

namespace UnaryOp

private theorem not_handle_of_exactArithmetic {op : UnaryOp} {n : Int} {v : Value}
    (done : exactArithmetic op n = .ok v)
    : ¬ v.IsHandle := by
  unfold exactArithmetic at done
  split at done
  all_goals cases done
  all_goals exact Value.not_handle_ofExact _

private theorem not_handle_of_floatArithmetic {op : UnaryOp} {x : Float} {v : Value}
    (done : floatArithmetic op x = .ok v)
    : ¬ v.IsHandle := by
  unfold floatArithmetic at done
  split at done
  all_goals cases done
  all_goals exact id

private theorem not_handle_of_applyPresent {plain : Value → String} {op : UnaryOp} {a v : Value}
    (done : op.applyPresent plain a = .ok v)
    : ¬ v.IsHandle := by
  unfold applyPresent at done
  split at done
  · cases done
    cases a.truth? <;> exact id
  · cases done
    cases a.truth? <;> exact id
  · cases done
    exact id
  · split at done
    · exact not_handle_of_exactArithmetic done
    · exact not_handle_of_floatArithmetic done
    · cases done

/-- No operator with one operand gives a handle. -/
theorem not_handle_of_apply {plain : Value → String} {op : UnaryOp} {a v : Value}
    (done : op.apply plain a = .ok v)
    : ¬ v.IsHandle := by
  unfold apply at done
  split at done
  on_goal 7 => exact not_handle_of_applyPresent done
  all_goals cases done
  all_goals exact id

variable {p : Partners} {h h' : Heap} {a a' : Value}

/-- A unary operator answers alike to operands that are alike. -/
theorem apply_alike (alike : p.Heaps h h') (op : UnaryOp) (same : p.Values a a')
    : op.apply h'.plain a' = op.apply h.plain a := by
  have text := alike.plain same
  cases same with
  | plain => simp only [apply, applyPresent, text]
  | array | callable => cases op <;> first | rfl | simp only [apply, applyPresent, text]

end UnaryOp

-----------------------------------------------------------------------------------------
-- Indexing
-----------------------------------------------------------------------------------------

namespace Partners

variable {p : Partners}

theorem Values.expectInteger {v v' : Value} (alike : p.Values v v') (what : String)
    : Grid.expectInteger what v' = Grid.expectInteger what v := by
  rw [Grid.expectInteger, Grid.expectInteger, alike.integer, alike.typeName]

/-- Indexes that are alike name the same cell of a box, by induction on the dimensions. -/
theorem positionFrom_alike {indexes indexes' : List Value}
    (same : List.Forall₂ p.Values indexes indexes') (before : Nat) (dims : List Nat)
    : Grid.positionFrom before dims indexes' = Grid.positionFrom before dims indexes := by
  induction dims generalizing before indexes indexes' with
  | nil => cases same <;> rfl
  | cons d dims ih =>
      cases same with
      | nil => rfl
      | cons first others =>
          simp only [Grid.positionFrom, first.isNull, first.expectInteger, ih others]

/-- Alike indexes name the same cell of alike arrays, or fail for the same reason. -/
theorem Grids.position {g g' : Grid} (alike : p.Grids g g') {indexes indexes' : List Value}
    (same : List.Forall₂ p.Values indexes indexes')
    : g'.position indexes' = g.position indexes := by
  rw [Grid.position, Grid.position, alike.dims, ← same.length_eq, positionFrom_alike same]

theorem Grids.get {g g' : Grid} (alike : p.Grids g g') {indexes indexes' : List Value}
    (same : List.Forall₂ p.Values indexes indexes')
    : Outcomes p.Values (g.get indexes) (g'.get indexes') := by
  rw [Grid.get, Grid.get, alike.position same]
  refine outcomes_bind _ fun cell => ?_
  cases cell with
  | none => exact .ok (.plain id)
  | some i =>
      refine .ok ?_
      rw [← Array.getElem?_toList, ← Array.getElem?_toList]
      rcases getElem?_related alike.cells i with ⟨v, v', found, found', related⟩ | ⟨none, none'⟩
      · rw [found, found']
        exact related
      · rw [none, none']
        exact .plain id

/-- What is assigned to alike cells leaves the arrays alike. -/
theorem Grids.set {g g' : Grid} (alike : p.Grids g g') {indexes indexes' : List Value}
    (same : List.Forall₂ p.Values indexes indexes') {v v' : Value} (value : p.Values v v')
    : Outcomes p.Grids (g.set indexes v) (g'.set indexes' v') := by
  rw [Grid.set, Grid.set, alike.position same]
  refine outcomes_bind _ fun cell => ?_
  cases cell with
  | none => exact .error _
  | some i =>
      refine .ok ⟨alike.dims, ?_⟩
      rw [Array.toList_setIfInBounds, Array.toList_setIfInBounds]
      exact set_related alike.cells i value

end Partners
end TaskMachine

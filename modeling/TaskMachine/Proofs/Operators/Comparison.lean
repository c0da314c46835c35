import TaskMachine.Operator
import TaskMachine.Proofs.Float.Line
import TaskMachine.Proofs.Operators.Operands

/-!
Comparisons are one order. Strings are ordered among themselves, and so are numbers, of whatever kind
they are: each lies at a place on the number line, where truth values lie at 0 and 1 and an integer lies
where the float of the same size does.
-/

namespace TaskMachine

open TaskMachine.Float (value place)

-----------------------------------------------------------------------------------------
-- What can be compared
-----------------------------------------------------------------------------------------

/-- The value has a place among the numbers: it is an integer, a truth value or a float, but not NaN. -/
inductive Value.IsOrdered : Value → Prop
  | integer (n : Int32) : IsOrdered (.integer n)
  | boolean (b : Bool) : IsOrdered (.boolean b)
  | float {x : Float} (number : x.isNaN = false) : IsOrdered (.float x)

/-- The values can be compared: both are strings, or both have a place among the numbers. -/
inductive Comparable : Value → Value → Prop
  | strings (s t : String) : Comparable (.string s) (.string t)
  | numbers {a b : Value} (left : a.IsOrdered) (right : b.IsOrdered) : Comparable a b

/-- One of the values is a string and the other one is a number. -/
inductive StringAgainstNumber : Value → Value → Prop
  | left (s : String) {b : Value} (numeric : b.IsNumeric) : StringAgainstNumber (.string s) b
  | right {a : Value} (numeric : a.IsNumeric) (s : String) : StringAgainstNumber a (.string s)

/-- The operator needs the order of its operands. -/
inductive BinaryOp.NeedsOrder : BinaryOp → Prop
  | lt : NeedsOrder .lt
  | le : NeedsOrder .le
  | gt : NeedsOrder .gt
  | ge : NeedsOrder .ge
  | min : NeedsOrder .min
  | max : NeedsOrder .max

-----------------------------------------------------------------------------------------
-- Places of numbers
-----------------------------------------------------------------------------------------

namespace Number

/-- A number that an operand stands for lies somewhere on the number line. -/
inductive LiesAt : Number → WithBot (WithTop ℚ) → Prop
  | exact {n : Int} (fits : Fits n) : LiesAt (.exact n) (((n : ℚ) : WithTop ℚ) : WithBot (WithTop ℚ))
  | float {x : Float} (number : x.isNaN = false) : LiesAt (.float x) (place x)

variable {x y : Number} {p q : WithBot (WithTop ℚ)}

/-- A number lies at one place at most. -/
theorem LiesAt.unique (first : LiesAt x p) (second : LiesAt x q) : p = q := by
  cases first <;> cases second <;> rfl

/-- As a float the number lies at the same place. -/
theorem LiesAt.toFloat (lies : LiesAt x p) : x.toFloat.isNaN = false ∧ place x.toFloat = p := by
  cases lies with
  | exact fits =>
      obtain ⟨finite, same⟩ := Float.nearestFloat_exact fits.short
      rw [toFloat, Float.place_of_finite finite, same]
      exact ⟨Float.isNaN_of_finite finite, rfl⟩
  | float number => exact ⟨number, rfl⟩

/-- Numbers are ordered by their places, whether as integers or as floats. -/
theorem LiesAt.compare (left : LiesAt x p) (right : LiesAt y q)
    : x.compare? y = some (compare p q) := by
  have floats : compareFloats x.toFloat y.toFloat = some (Ord.compare p q) := by
    rw [Float.compareFloats_eq, left.toFloat.1, left.toFloat.2, right.toFloat.1, right.toFloat.2]
    rfl
  cases left with
  | float number => exact floats
  | @exact n fits =>
      cases right with
      | float number => exact floats
      | @exact k fits' =>
          rw [Float.compare_numbers, Float.compare_map Int.cast_strictMono]
          rfl

/-- Numbers are equal if they lie at the same place. -/
theorem LiesAt.equals (left : LiesAt x p) (right : LiesAt y q)
    : x.equals y = (Ord.compare p q == .eq) := by
  have floats : (x.toFloat == y.toFloat) = (Ord.compare p q == .eq) := by
    rw [Bool.eq_iff_iff, Float.beq_iff_place, left.toFloat.2, right.toFloat.2, beq_iff_eq,
      compare_eq_iff_eq]
    exact ⟨fun given => given.2.2, fun same => ⟨left.toFloat.1, right.toFloat.1, same⟩⟩
  cases left with
  | float number => exact floats
  | @exact n fits =>
      cases right with
      | float number => exact floats
      | @exact k fits' =>
          rw [Float.compare_numbers, Float.compare_map Int.cast_strictMono, Bool.eq_iff_iff, beq_iff_eq,
            compare_eq_iff_eq]
          exact beq_iff_eq

end Number

/-- Every number but NaN has a place on the line. -/
theorem Value.IsOrdered.liesAt {a : Value} (ordered : a.IsOrdered)
    : ∃ x p, Number.ofValue? a = some x ∧ x.LiesAt p := by
  cases ordered with
  | integer n => exact ⟨_, _, rfl, .exact (fits_toInt n)⟩
  | boolean b => exact ⟨_, _, rfl, .exact (Value.Denotes.boolean b).fits⟩
  | float number => exact ⟨_, _, rfl, .float number⟩

-----------------------------------------------------------------------------------------
-- The order of two values
-----------------------------------------------------------------------------------------

/-- The order of two values that can be compared. -/
inductive Compares (a b : Value) : Ordering → Prop
  | strings {s t : String} (left : a = .string s) (right : b = .string t) : Compares a b (cmp s t)
  | numbers {x y : Number} {p q : WithBot (WithTop ℚ)} (left : Number.ofValue? a = some x)
    (right : Number.ofValue? b = some y) (first : x.LiesAt p) (second : y.LiesAt q)
    : Compares a b (cmp p q)

variable {op : BinaryOp} {a b c : Value} {o o' : Ordering}

/-- Operands that can be compared have an order. -/
theorem Comparable.compares (comparable : Comparable a b) : ∃ o, Compares a b o := by
  cases comparable with
  | strings s t => exact ⟨_, .strings rfl rfl⟩
  | numbers left right =>
      obtain ⟨x, p, number, lies⟩ := left.liesAt
      obtain ⟨y, q, number', lies'⟩ := right.liesAt
      exact ⟨_, .numbers number number' lies lies'⟩

namespace Compares

/-- The order is the other one with sides swapped. -/
theorem swap (compares : Compares a b o) : Compares b a o.swap := by
  cases compares with
  | strings left right =>
      rw [cmp_swap]
      exact .strings right left
  | numbers left right first second =>
      rw [cmp_swap]
      exact .numbers right left second first

/-- What can be compared with something is equal to itself. -/
theorem refl_left (compares : Compares a b o) : Compares a a .eq := by
  cases compares with
  | @strings s t left right =>
      rw [← cmp_self_eq_eq s]
      exact .strings left left
  | @numbers x y p q left right first second =>
      rw [← cmp_self_eq_eq p]
      exact .numbers left left first first

private theorem string?_of_number {x : Number} (number : Number.ofValue? a = some x) : a.string? = none := by
  cases a with
  | string s => cases number
  | _ => rfl

/-- Values that can be compared are ordered in the way that they compare. -/
theorem ordering_eq (compares : Compares a b o) (op : BinaryOp) : BinaryOp.ordering op a b = .ok o := by
  cases compares with
  | @strings s t left right =>
      rw [left, right, cmp_eq_compare]
      exact congrArg Except.ok (LinearOrder.compare_eq_compareOfLessAndEq s t).symm
  | numbers left right first second =>
      simp only [BinaryOp.ordering, string?_of_number left, string?_of_number right, left, right,
        first.compare second, cmp_eq_compare]

/-- Values that can be compared are equal if they compare as equal. -/
theorem equality_eq (compares : Compares a b o) (op : BinaryOp)
    : BinaryOp.equality op a b = .ok (o == .eq) := by
  cases compares with
  | @strings s t left right =>
      have same : (s == t) = (cmp s t == .eq) := by
        rw [Bool.eq_iff_iff, beq_iff_eq, beq_iff_eq, cmp_eq_eq_iff]
      rw [left, right, ← same]
      rfl
  | numbers left right first second =>
      simp only [BinaryOp.equality, string?_of_number left, string?_of_number right, left, right,
        first.equals second, cmp_eq_compare]

/-- What is not greater is transitive, within strings and within numbers. -/
theorem trans (first : Compares a b o) (second : Compares b c o') (le : o ≠ .gt) (le' : o' ≠ .gt)
    : ∃ o'', Compares a c o'' ∧ o'' ≠ .gt := by
  have below {α : Type} [LinearOrder α] {p q r : α} (le : cmp p q ≠ .gt) (le' : cmp q r ≠ .gt)
      : cmp p r ≠ .gt := by
    rw [ne_eq, cmp_eq_gt_iff, not_lt] at le le' ⊢
    exact le.trans le'
  cases first with
  | strings left right =>
      cases second with
      | strings left' right' =>
          obtain rfl : _ = _ := Value.string.inj (right.symm.trans left')
          exact ⟨_, .strings left right', below le le'⟩
      | numbers left' =>
          rw [right] at left'
          cases left'
  | numbers left right lies lies' =>
      cases second with
      | strings left' =>
          rw [left'] at right
          cases right
      | numbers left' right' next next' =>
          obtain rfl : _ = _ := Option.some.inj (right.symm.trans left')
          obtain rfl := lies'.unique next
          exact ⟨_, .numbers left right' lies next', below le le'⟩

end Compares

-----------------------------------------------------------------------------------------
-- Operators that compare
-----------------------------------------------------------------------------------------

namespace BinaryOp

theorem equality_cases (op : BinaryOp) (a b : Value)
    : (∃ same, equality op a b = .ok same) ∨ equality op a b = .error (mismatch op a b) := by
  rw [equality]
  split
  · exact .inl ⟨_, rfl⟩
  · exact .inr rfl
  · exact .inr rfl
  · exact .inl ⟨_, rfl⟩
  · exact .inl ⟨_, rfl⟩

theorem ordering_cases (op : BinaryOp) (a b : Value)
    : (∃ order, ordering op a b = .ok order) ∨ ordering op a b = .error (mismatch op a b) := by
  rw [ordering]
  split
  · exact .inl ⟨_, rfl⟩
  · split
    · exact .inl ⟨_, rfl⟩
    · exact .inr rfl
  · exact .inr rfl

/-- A number that is not NaN has a place. -/
theorem isOrdered_or_nan {x : Number} (number : Number.ofValue? a = some x)
    : a.IsOrdered ∨ ∃ f, x = .float f ∧ f.isNaN = true := by
  have kind := operand a
  rw [number] at kind
  cases kind with
  | whole denotes =>
      cases denotes with
      | integer n => exact .inl (.integer n)
      | boolean b => exact .inl (.boolean b)
  | @float f same =>
      cases nan : f.isNaN with
      | true => exact .inr ⟨f, rfl, nan⟩
      | false => exact .inl (same ▸ .float nan)

/-- What is ordered can be compared: NaN has no order. -/
theorem comparable_of_ordering (ordered : ordering op a b = .ok o) : Comparable a b := by
  rw [ordering] at ordered
  split at ordered
  · cases a <;> cases b <;> first | exact .strings _ _ | contradiction
  · rename_i x y left right _
    have unordered (nan : x.toFloat.isNaN = true ∨ y.toFloat.isNaN = true)
        (mixed : x.compare? y = Number.compareFloats x.toFloat y.toFloat)
        : Comparable a b := by
      have either : (x.toFloat.isNaN || y.toFloat.isNaN) = true := by
        simpa only [Bool.or_eq_true] using nan
      rw [mixed, Float.compareFloats_eq, either] at ordered
      cases ordered
    rcases isOrdered_or_nan left with left | ⟨f, rfl, nan⟩
    · rcases isOrdered_or_nan right with right | ⟨f, rfl, nan⟩
      · exact .numbers left right
      · exact unordered (.inr nan) (by cases x <;> rfl)
    · exact unordered (.inl nan) rfl
  · cases ordered

/-- What a value is as an operand of a comparison. -/
inductive Kind (a : Value) : Option String → Option Number → Prop
  | text {s : String} (same : a = .string s) : Kind a (some s) none
  | number {x : Number} (numeric : a.IsNumeric) : Kind a none (some x)
  | other : Kind a none none

/-- A value is a string, a number or neither. -/
theorem kind (a : Value) : Kind a a.string? (Number.ofValue? a) := by
  cases a with
  | string s => exact .text rfl
  | integer n => exact .number (.integer n)
  | boolean b => exact .number (.boolean b)
  | float x => exact .number (.float x)
  | null | callable c | array a | object o => exact .other

private theorem sameIdentity_comm (a b : Value) : a.sameIdentity b = b.sameIdentity a := by
  cases a <;> cases b <;> first | rfl | exact Bool.beq_comm

private theorem equals_comm (x y : Number) : x.equals y = y.equals x := by
  have floats : (x.toFloat == y.toFloat) = (y.toFloat == x.toFloat) := by
    rw [Bool.eq_iff_iff, Float.beq_iff_place, Float.beq_iff_place]
    constructor
    · exact fun given => ⟨given.2.1, given.1, given.2.2.symm⟩
    · exact fun given => ⟨given.2.1, given.1, given.2.2.symm⟩
  cases x <;> cases y <;> first | exact floats | exact Bool.beq_comm

/-- Both orders of the operands of an equality are answered alike. -/
theorem equality_mirrored (op : BinaryOp) (a b : Value)
    : (∃ t, equality op a b = .ok t ∧ equality op b a = .ok t)
      ∨ StringAgainstNumber a b
        ∧ equality op a b = .error (mismatch op a b)
        ∧ equality op b a = .error (mismatch op b a) := by
  rw [equality, equality, sameIdentity_comm b a]
  have left := kind a
  have right := kind b
  generalize a.string? = s, Number.ofValue? a = x at left ⊢
  generalize b.string? = t, Number.ofValue? b = y at right ⊢
  cases left with
  | @text s same =>
      cases right with
      | @text t same' => exact .inl ⟨s == t, rfl, congrArg Except.ok Bool.beq_comm⟩
      | number numeric => exact .inr ⟨same ▸ .left s numeric, rfl, rfl⟩
      | other => exact .inl ⟨_, rfl, rfl⟩
  | @number x numeric =>
      cases right with
      | @text t same' => exact .inr ⟨same' ▸ .right numeric t, rfl, rfl⟩
      | @number y numeric' => exact .inl ⟨x.equals y, rfl, congrArg Except.ok (equals_comm y x)⟩
      | other => exact .inl ⟨_, rfl, rfl⟩
  | other => cases right <;> exact .inl ⟨_, rfl, rfl⟩

/-- Equality does not depend on the operator that asks for it, but for what a refusal says. -/
theorem equality_of_other {op' : BinaryOp} {t : Bool} (done : equality op a b = .ok t)
    : equality op' a b = .ok t := by
  rw [equality] at done ⊢
  split at done
  · exact done
  · cases done
  · cases done
  · exact done
  · exact done

private theorem equality_of_stringAgainstNumber (op : BinaryOp) (against : StringAgainstNumber a b)
    : equality op a b = .error (mismatch op a b) := by
  cases against with
  | left s numeric => cases numeric <;> rfl
  | right numeric s => cases numeric <;> rfl

/-- An operator on two values has the truth value `t`. -/
def Holds (plain : Value → String) (op : BinaryOp) (a b : Value) (t : Bool) : Prop :=
  apply plain op a b = .ok (.boolean t)

end BinaryOp

open BinaryOp

/-- One order decides what the operators answer for two values. -/
structure Coherent (plain : Value → String) (a b : Value) : Prop where
  exactlyOne
    : ∃ less same greater,
        Holds plain .lt a b less ∧ Holds plain .eq a b same ∧ Holds plain .gt a b greater
        ∧ [less, same, greater].count true = 1
  le : ∀ t, Holds plain .le a b t ↔ Holds plain .gt a b !t
  ge : ∀ t, Holds plain .ge a b t ↔ Holds plain .lt a b !t
  swap : ∀ t, Holds plain .lt a b t ↔ Holds plain .gt b a t
  min
    : ∃ v,
        apply plain .min a b = .ok v ∧ (v = a ∨ v = b) ∧ Holds plain .le v a true
        ∧ Holds plain .le v b true
  max
    : ∃ v,
        apply plain .max a b = .ok v ∧ (v = a ∨ v = b) ∧ Holds plain .ge v a true
        ∧ Holds plain .ge v b true

/-- What the operators answer for two values that compare as `o`. -/
structure Answers (plain : Value → String) (a b : Value) (o : Ordering) : Prop where
  lt : apply plain .lt a b = .ok (.boolean (o == .lt))
  le : apply plain .le a b = .ok (.boolean (o != .gt))
  gt : apply plain .gt a b = .ok (.boolean (o == .gt))
  ge : apply plain .ge a b = .ok (.boolean (o != .lt))
  eq : apply plain .eq a b = .ok (.boolean (o == .eq))
  min : apply plain .min a b = .ok (if o == .gt then b else a)
  max : apply plain .max a b = .ok (if o == .lt then b else a)

/-- All comparisons give the answers that go with the order of their operands. -/
theorem answers (plain : Value → String) (left : a ≠ .null) (right : b ≠ .null)
    (compares : Compares a b o)
    : Answers plain a b o := by
  constructor
  all_goals
    refine (apply_present plain ⟨by simp, by simp⟩ left right).trans ?_
    simp only [applyPresent, compares.ordering_eq, compares.equality_eq]
    rfl

/-- The operators that need the order of their operands agree with equality and with each other. -/
theorem coherent_of_compares (plain : Value → String) (left : a ≠ .null) (right : b ≠ .null)
    (compares : Compares a b o)
    : Coherent plain a b := by
  have forward := answers plain left right compares
  have backward := answers plain right left compares.swap
  have same := answers plain left left compares.refl_left
  have same' := answers plain right right compares.swap.refl_left
  constructor
  case exactlyOne => exact ⟨_, _, _, forward.lt, forward.eq, forward.gt, by cases o <;> rfl⟩
  case le =>
    intro t
    rw [Holds, Holds, forward.le, forward.gt]
    cases o <;> cases t <;> simp
  case ge =>
    intro t
    rw [Holds, Holds, forward.ge, forward.lt]
    cases o <;> cases t <;> simp
  case swap =>
    intro t
    rw [Holds, Holds, forward.lt, backward.gt]
    cases o <;> cases t <;> simp
  case min =>
    refine ⟨_, forward.min, ?_⟩
    cases o with
    | lt | eq => exact ⟨.inl rfl, same.le, forward.le⟩
    | gt => exact ⟨.inr rfl, backward.le, same'.le⟩
  case max =>
    refine ⟨_, forward.max, ?_⟩
    cases o with
    | gt | eq => exact ⟨.inl rfl, same.ge, forward.ge⟩
    | lt => exact ⟨.inr rfl, backward.ge, same'.ge⟩

/-- An operator that needs the order of its operands succeeds just if they can be compared. -/
theorem succeeds_iff_comparable (plain : Value → String) (needs : op.NeedsOrder) (left : a ≠ .null)
    (right : b ≠ .null)
    : (∃ v, apply plain op a b = .ok v) ↔ Comparable a b := by
  constructor
  · intro done
    obtain ⟨v, done⟩ := done
    rcases ordering_cases op a b with ⟨o, ordered⟩ | failed
    · exact comparable_of_ordering ordered
    · have refused : apply plain op a b = .error (mismatch op a b) := by
        cases needs
        all_goals
          refine (apply_present plain ⟨by simp, by simp⟩ left right).trans ?_
          simp only [applyPresent, failed]
          rfl
      rw [refused] at done
      cases done
  · intro comparable
    obtain ⟨o, compares⟩ := comparable.compares
    have answers := answers plain left right compares
    cases needs with
    | lt => exact ⟨_, answers.lt⟩
    | le => exact ⟨_, answers.le⟩
    | gt => exact ⟨_, answers.gt⟩
    | ge => exact ⟨_, answers.ge⟩
    | min => exact ⟨_, answers.min⟩
    | max => exact ⟨_, answers.max⟩

/-- Not to exceed is transitive, also across strings, integers and floats. -/
theorem le_trans_values (plain : Value → String) (first : a ≠ .null) (second : b ≠ .null)
    (third : c ≠ .null) (le : Holds plain .le a b true) (le' : Holds plain .le b c true)
    : Holds plain .le a c true := by
  obtain ⟨o, compares⟩ := ((succeeds_iff_comparable plain .le first second).mp ⟨_, le⟩).compares
  obtain ⟨o', compares'⟩ := ((succeeds_iff_comparable plain .le second third).mp ⟨_, le'⟩).compares
  rw [Holds, (answers plain first second compares).le] at le
  rw [Holds, (answers plain second third compares').le] at le'
  obtain ⟨o'', both, small⟩ := compares.trans compares' (by cases o <;> simp at le ⊢)
    (by cases o' <;> simp at le' ⊢)
  rw [Holds, (answers plain first third both).le]
  cases o'' with
  | lt | eq => rfl
  | gt => exact absurd rfl small

private theorem apply_eq_ne (plain : Value → String) (left : a ≠ .null) (right : b ≠ .null)
    : apply plain .eq a b = (do return .boolean (← equality .eq a b))
      ∧ apply plain .ne a b = (do return .boolean !(← equality .ne a b)) :=
  ⟨apply_present plain ⟨by simp, by simp⟩ left right,
    apply_present plain ⟨by simp, by simp⟩ left right⟩

/-- Comparisons are one order on strings and one on numbers, where integers, truth values and floats are
mixed. Equality fails on a string and a number only, and is symmetric, too, in where it fails.
-/
theorem comparisons_are_one_order (plain : Value → String) (first : a ≠ .null) (second : b ≠ .null)
    (third : c ≠ .null)
    : (∀ op : BinaryOp, op.NeedsOrder → ((∃ v, apply plain op a b = .ok v) ↔ Comparable a b))
      ∧ (Comparable a b → Coherent plain a b)
      ∧ (Holds plain .le a b true → Holds plain .le b c true → Holds plain .le a c true)
      ∧ (∀ v, apply plain .eq a b = .ok v
          → ∃ t, v = .boolean t ∧ Holds plain .ne a b !t ∧ Holds plain .eq b a t)
      ∧ (∀ f, apply plain .eq a b = .error f
          → f = mismatch .eq a b ∧ apply plain .eq b a = .error (mismatch .eq b a))
      ∧ ((∃ f, apply plain .eq a b = .error f) ↔ StringAgainstNumber a b) := by
  obtain ⟨equal, unequal⟩ := apply_eq_ne plain first second
  obtain ⟨mirrored, -⟩ := apply_eq_ne plain second first
  refine ⟨fun op needs => succeeds_iff_comparable plain needs first second, ?_,
    le_trans_values plain first second third, ?_⟩
  · intro comparable
    obtain ⟨o, compares⟩ := comparable.compares
    exact coherent_of_compares plain first second compares
  · rcases equality_mirrored .eq a b with ⟨t, done, done'⟩ | ⟨against, failed, failed'⟩
    · have yes : apply plain .eq a b = .ok (.boolean t) := by
        rw [equal, done]
        rfl
      have yes' : Holds plain .eq b a t := by
        rw [Holds, mirrored, done']
        rfl
      have no : Holds plain .ne a b !t := by
        rw [Holds, unequal, equality_of_other done]
        rfl
      rw [yes]
      refine ⟨fun v same => ?_, fun f failed => (by cases failed), iff_of_false ?_ fun against => ?_⟩
      · cases same
        exact ⟨t, rfl, no, yes'⟩
      · exact fun failed => by cases failed.choose_spec
      · cases done.symm.trans (equality_of_stringAgainstNumber .eq against)
    · have refused : apply plain .eq a b = .error (mismatch .eq a b) := by
        rw [equal, failed]
        rfl
      have refused' : apply plain .eq b a = .error (mismatch .eq b a) := by
        rw [mirrored, failed']
        rfl
      rw [refused]
      refine ⟨fun v done => (by cases done), fun f same => ?_, iff_of_true ⟨_, rfl⟩ against⟩
      cases same
      exact ⟨rfl, refused'⟩

/-- A truth value is below an integer, this is below a float, and so is the truth value. -/
theorem mixed_numbers_ordered
    : (Value.boolean true) ≠ .null
      ∧ Comparable (.boolean true) (.integer 2)
      ∧ Coherent (fun _ => "") (.boolean true) (.integer 2)
      ∧ Holds (fun _ => "") .le (.boolean true) (.float 2.5) true := by
  have present : Value.boolean true ≠ .null := by simp
  have comparable : Comparable (.boolean true) (.integer 2) :=
    .numbers (.boolean true) (.integer 2)
  obtain ⟨-, coherent, transitive, -⟩ :=
    comparisons_are_one_order (fun _ => "") present (b := .integer 2) (c := .float 2.5) (by simp)
      (by simp)
  have below : Holds (fun _ => "") .le (.boolean true) (.integer 2) true := by rfl
  have below' : Holds (fun _ => "") .le (.integer 2) (.float 2.5) true := by rfl
  exact ⟨present, comparable, coherent comparable, transitive below below'⟩

end TaskMachine

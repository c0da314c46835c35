import TaskMachine.Operator
import TaskMachine.Proofs.Float.Rounding

/-!
Operands of operators. Integers and truth values are exact, floats are not, and anything else is no
number.
-/

namespace TaskMachine

/-- The integer fits 32 signed bits. -/
def Fits (n : Int) : Prop :=
  -2 ^ 31 ≤ n ∧ n < 2 ^ 31

instance (n : Int) : Decidable (Fits n) :=
  inferInstanceAs (Decidable (_ ∧ _))

namespace Value

/-- An operand that stands for an integer: a truth value stands for 0 or 1. -/
inductive Denotes : Value → Int → Prop
  | integer (n : Int32) : Denotes (.integer n) n.toInt
  | boolean (b : Bool) : Denotes (.boolean b) (if b then 1 else 0)

/-- The value is a number or counts as one. -/
inductive IsNumeric : Value → Prop
  | integer (n : Int32) : IsNumeric (.integer n)
  | boolean (b : Bool) : IsNumeric (.boolean b)
  | float (x : Float) : IsNumeric (.float x)

/-- The value is an integer or counts as one. -/
inductive IsWhole : Value → Prop
  | integer (n : Int32) : IsWhole (.integer n)
  | boolean (b : Bool) : IsWhole (.boolean b)

/-- The value is a string or a handle, which no arithmetic applies to. -/
inductive IsInert : Value → Prop
  | string (s : String) : IsInert (.string s)
  | callable (c : CallableId) : IsInert (.callable c)
  | array (a : ArrayId) : IsInert (.array a)
  | object (o : ObjectId) : IsInert (.object o)

end Value

variable {a : Value} {n : Int}

theorem fits_toInt (k : Int32) : Fits k.toInt :=
  ⟨k.le_toInt, k.toInt_lt⟩

theorem Value.Denotes.fits (denotes : a.Denotes n) : Fits n := by
  cases denotes with
  | integer n => exact fits_toInt n
  | boolean b => cases b <;> decide

theorem Value.Denotes.number (denotes : a.Denotes n)
    : Number.ofValue? a = some (.exact n) := by
  cases denotes <;> rfl

theorem Fits.short (fits : Fits n) : n.natAbs ≤ 2 ^ 53 := by
  obtain ⟨lower, upper⟩ := fits
  omega

theorem Value.IsWhole.numeric (whole : a.IsWhole) : a.IsNumeric := by
  cases whole with
  | integer n => exact .integer n
  | boolean b => exact .boolean b

theorem Value.Denotes.whole (denotes : a.Denotes n) : a.IsWhole := by
  cases denotes with
  | integer n => exact .integer n
  | boolean b => exact .boolean b

/-- What a value is as an operand of arithmetic. -/
inductive Operand (a : Value) : Option Number → Prop
  | whole {n : Int} (denotes : a.Denotes n) : Operand a (some (.exact n))
  | float {x : Float} (same : a = .float x) : Operand a (some (.float x))
  | absent (null : a = .null) : Operand a none
  | inert (inert : a.IsInert) : Operand a none

theorem operand (a : Value) : Operand a (Number.ofValue? a) := by
  cases a with
  | null => exact .absent rfl
  | integer n => exact .whole (.integer n)
  | boolean b => exact .whole (.boolean b)
  | float x => exact .float rfl
  | string s => exact .inert (.string s)
  | callable c => exact .inert (.callable c)
  | array a => exact .inert (.array a)
  | object o => exact .inert (.object o)

/-- An operator that is not logical applies to operands that are not null. -/
theorem BinaryOp.apply_present {op : BinaryOp} {a b : Value} (plain : Value → String)
    (present : op ≠ .and ∧ op ≠ .or) (left : a ≠ .null) (right : b ≠ .null)
    : apply plain op a b = applyPresent plain op a b := by
  have none : ¬ (a.isNull || b.isNull) = true := by
    cases a <;> first | exact absurd rfl left | skip
    all_goals cases b <;> first | exact absurd rfl right | exact Bool.noConfusion
  cases op
  case and => exact absurd rfl present.1
  case or => exact absurd rfl present.2
  all_goals exact if_neg none

end TaskMachine

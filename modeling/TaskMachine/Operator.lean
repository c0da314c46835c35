import TaskMachine.Instruction
import TaskMachine.Number
import TaskMachine.Text

/-!
The operators of the scripting language. Logic has three values; every other operator is null where
an operand is null. Arithmetic on integers is exact as long as the result fits, and falls back to
floats.
-/

namespace TaskMachine

namespace BinaryOp

/-- The operator does not apply to operands of these kinds. -/
def mismatch (op : BinaryOp) (a b : Value) : Fault :=
  let symbol := op.symbol
  let left := a.typeName
  let right := b.typeName
  .typeMismatch s!"cannot apply '{symbol}' to {left} and {right}"

/-- The conjunction: false as soon as one side is false, null if that is open. -/
def conjunction (a b : Value) : Value :=
  match a.truth?, b.truth? with
  | some false, _ | _, some false => .boolean false
  | some true, some true => .boolean true
  | _, _ => .null

/-- The disjunction: true as soon as one side is true, null if that is open. -/
def disjunction (a b : Value) : Value :=
  match a.truth?, b.truth? with
  | some true, _ | _, some true => .boolean true
  | some false, some false => .boolean false
  | _, _ => .null

/-- The exclusive disjunction, null if a side is open. -/
def exclusive (a b : Value) : Value :=
  match a.truth?, b.truth? with
  | some x, some y => .boolean (x != y)
  | _, _ => .null

/-- The exact power, or the float power where the exact one does not fit. From 32 on only the parity
of the exponent matters: the powers of -1, 0 and 1 depend on nothing else, and no other power
fits.
-/
def power (x y : Int) : Value :=
  let reduced := if y < 32 then y.toNat else 32 + y.toNat % 2
  let exact := Int.pow x reduced
  if 0 ≤ y ∧ fitsInt32 exact then .integer (Int32.ofInt exact)
  else .float (Float.pow (nearestFloat x) (nearestFloat y))

/-- Arithmetic on exact operands. A quotient is exact if the division leaves no remainder. -/
def exactArithmetic (op : BinaryOp) (x y : Int) : Except Fault Value :=
  match op with
  | add => .ok (.ofExact (x + y))
  | sub => .ok (.ofExact (x - y))
  | mul => .ok (.ofExact (x * y))
  | div =>
    if y = 0 then .error .divisionByZero
    else if x.tmod y = 0 then .ok (.ofExact (x.tdiv y))
    else .ok (.float (nearestFloat x / nearestFloat y))
  | intDiv => if y = 0 then .error .divisionByZero else .ok (.ofExact (x.tdiv y))
  | mod => if y = 0 then .error .divisionByZero else .ok (.ofExact (x.tmod y))
  | pow => .ok (power x y)
  | _ =>
    let symbol := op.symbol
    .error (.internal s!"'{symbol}' is not arithmetic")

/-- Arithmetic on floats, which has neither integer division nor remainder. -/
def floatArithmetic (op : BinaryOp) (x y : Float) : Except Fault Value :=
  let symbol := op.symbol
  match op with
  | add => .ok (.float (x + y))
  | sub => .ok (.float (x - y))
  | mul => .ok (.float (x * y))
  | div => if y == 0.0 then .error .divisionByZero else .ok (.float (x / y))
  | pow => .ok (.float (Float.pow x y))
  | intDiv | mod => .error (.typeMismatch s!"'{symbol}' needs integer operands")
  | _ => .error (.internal s!"'{symbol}' is not arithmetic")

/-- Arithmetic on numbers, exact if both operands are. -/
def arithmetic (op : BinaryOp) (a b : Value) : Except Fault Value :=
  match Number.ofValue? a, Number.ofValue? b with
  | some (.exact x), some (.exact y) => exactArithmetic op x y
  | some x, some y => floatArithmetic op x.toFloat y.toFloat
  | _, _ => .error (mismatch op a b)

/-- Equality of operands: strings and numbers by content, anything else by identity. A string and a
number cannot be compared.
-/
def equality (op : BinaryOp) (a b : Value) : Except Fault Bool :=
  match a.string?, b.string?, Number.ofValue? a, Number.ofValue? b with
  | some x, some y, _, _ => .ok (x == y)
  | some _, _, _, some _ | _, some _, some _, _ => .error (mismatch op a b)
  | _, _, some x, some y => .ok (x.equals y)
  | _, _, _, _ => .ok (a.sameIdentity b)

/-- The order of operands: strings by their code points, numbers by size. -/
def ordering (op : BinaryOp) (a b : Value) : Except Fault Ordering :=
  match a.string?, b.string?, Number.ofValue? a, Number.ofValue? b with
  | some x, some y, _, _ => .ok (compareOfLessAndEq x y)
  | _, _, some x, some y =>
    match x.compare? y with
    | some o => .ok o
    | none => .error (mismatch op a b)
  | _, _, _, _ => .error (mismatch op a b)

/-- Applies an operator to operands that are not null; `plain` renders them for joining. -/
def applyPresent (plain : Value → String) (op : BinaryOp) (a b : Value) : Except Fault Value :=
  match op with
  | eq => return .boolean (← equality op a b)
  | ne => return .boolean !(← equality op a b)
  | lt => return .boolean ((← ordering op a b) == .lt)
  | le => return .boolean ((← ordering op a b) != .gt)
  | gt => return .boolean ((← ordering op a b) == .gt)
  | ge => return .boolean ((← ordering op a b) != .lt)
  | min => return if (← ordering op a b) == .gt then b else a
  | max => return if (← ordering op a b) == .lt then b else a
  | xor => .ok (exclusive a b)
  | concat => .ok (.string (plain a ++ plain b))
  | add =>
    match a, b with
    | .string x, .string y => .ok (.string (x ++ y))
    | _, _ => arithmetic op a b
  | _ => arithmetic op a b

/-- Applies an operator; `plain` renders operands for joining. -/
def apply (plain : Value → String) (op : BinaryOp) (a b : Value) : Except Fault Value :=
  match op with
  | and => .ok (conjunction a b)
  | or => .ok (disjunction a b)
  | _ => if a.isNull || b.isNull then .ok .null else applyPresent plain op a b

end BinaryOp

namespace UnaryOp

def exactArithmetic (op : UnaryOp) (n : Int) : Except Fault Value :=
  match op with
  | neg => .ok (.ofExact (-n))
  | pos => .ok (.ofExact n)
  | inc => .ok (.ofExact (n + 1))
  | dec => .ok (.ofExact (n - 1))
  | abs => .ok (.ofExact n.natAbs)
  | _ =>
    let name := op.name
    .error (.internal s!"unhandled unary operator {name}")

def floatArithmetic (op : UnaryOp) (x : Float) : Except Fault Value :=
  match op with
  | neg => .ok (.float (-x))
  | pos => .ok (.float x)
  | inc => .ok (.float (x + 1.0))
  | dec => .ok (.float (x - 1.0))
  | abs => .ok (.float x.abs)
  | _ =>
    let name := op.name
    .error (.internal s!"unhandled unary operator {name}")

/-- Applies an operator to an operand that is not null; `plain` renders it as text. -/
def applyPresent (plain : Value → String) (op : UnaryOp) (a : Value) : Except Fault Value :=
  match op with
  | not => .ok ((a.truth?.map fun b => .boolean !b).getD .null)
  | bool => .ok ((a.truth?.map .boolean).getD .null)
  | str => .ok (.string (plain a))
  | _ =>
    match Number.ofValue? a with
    | some (.exact n) => exactArithmetic op n
    | some (.float x) => floatArithmetic op x
    | none =>
      let name := op.name
      let kind := a.typeName
      .error (.typeMismatch s!"cannot apply {name} to {kind}")

/-- Applies an operator; `plain` renders the operand as text. Tests of kind answer for null, too. -/
def apply (plain : Value → String) (op : UnaryOp) (a : Value) : Except Fault Value :=
  match op, a with
  | isNull, _ => .ok (.boolean a.isNull)
  | isNumber, .integer _ | isNumber, .float _ => .ok (.boolean true)
  | isNumber, _ => .ok (.boolean false)
  | isString, _ => .ok (.boolean a.string?.isSome)
  | _, .null => .ok .null
  | _, _ => applyPresent plain op a

end UnaryOp

end TaskMachine

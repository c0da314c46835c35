import TaskMachine.Proofs.Operators.Arithmetic
import TaskMachine.Proofs.Operators.Comparison
import TaskMachine.Proofs.Process.Handlers

/-!
Operators fail in two ways: they divide by zero, or they do not apply to their operands. Neither is a
breach, so that an operator leaves a process running as long as some call has a handler.
-/

namespace TaskMachine

open TaskMachine.Float (value)

-----------------------------------------------------------------------------------------
-- Kinds of operands
-----------------------------------------------------------------------------------------

namespace Value

/-- The value counts as zero. There are two floats that do. -/
inductive IsZero : Value → Prop
  | integer : IsZero (.integer 0)
  | boolean : IsZero (.boolean false)
  | float {x : Float} (finite : x.isFinite = true) (zero : value x = 0) : IsZero (.float x)

end Value

/-- The operator divides by zero: fractions may have any numeric operands, and integer quotients and
remainders have integer ones.
-/
inductive BinaryOp.DividesByZero : BinaryOp → Value → Value → Prop
  | div {a b : Value} (numeric : a.IsNumeric) (zero : b.IsZero) : DividesByZero .div a b
  | intDiv {a b : Value} (whole : a.IsWhole) (whole' : b.IsWhole) (zero : b.IsZero)
    : DividesByZero .intDiv a b
  | mod {a b : Value} (whole : a.IsWhole) (whole' : b.IsWhole) (zero : b.IsZero)
    : DividesByZero .mod a b

/-- The operator asks for the kind of its operand. -/
inductive UnaryOp.IsTest : UnaryOp → Prop
  | isNull : IsTest .isNull
  | isNumber : IsTest .isNumber
  | isString : IsTest .isString

/-- The operation does not apply to its operands. -/
def Fault.IsMismatch (f : Fault) : Prop :=
  ∃ detail, f = .typeMismatch detail

theorem Fault.IsMismatch.harmless {f : Fault} (mismatch : f.IsMismatch) : ¬ f.IsBreach := by
  obtain ⟨detail, rfl⟩ := mismatch
  simp [IsBreach]

private theorem Fault.harmless_divisionByZero : ¬ Fault.divisionByZero.IsBreach := by
  simp [IsBreach]

variable {a b : Value} {plain : Value → String} {f : Fault}

private theorem Float.beq_zero_iff {x : Float}
    : (x == 0.0) = true ↔ x.isFinite = true ∧ value x = 0 := by
  have zero : (0.0 : Float).isFinite = true ∧ value 0.0 = 0 := by decide +kernel
  rw [beq_iff_place, place_of_finite zero.1, zero.2]
  constructor
  · exact fun given => (place_eq_iff given.1).mp given.2.2
  · intro given
    have number := isNaN_of_finite given.1
    exact ⟨number, isNaN_of_finite zero.1, (place_eq_iff number).mpr given⟩

/-- An integer that fits is zero just if its float is. -/
theorem nearestFloat_beq_zero {n : Int} (fits : Fits n)
    : (nearestFloat n == 0.0) = true ↔ n = 0 := by
  obtain ⟨finite, same⟩ := Float.nearestFloat_exact fits.short
  rw [Float.beq_zero_iff, same, Int.cast_eq_zero]
  exact and_iff_right finite

/-- An integer is zero in the way that values are. -/
theorem Value.Denotes.isZero_iff {n : Int} (denotes : a.Denotes n) : a.IsZero ↔ n = 0 := by
  cases denotes with
  | integer k =>
      constructor
      · intro zero
        cases zero
        rfl
      · intro zero
        obtain rfl : k = 0 := Int32.toInt_inj.mp zero
        exact .integer
  | boolean b =>
      cases b with
      | false => exact iff_of_true .boolean rfl
      | true => exact iff_of_false (fun zero => by cases zero) (by decide)

private theorem isZero_float_iff {x : Float} : (Value.float x).IsZero ↔ (x == 0.0) = true := by
  rw [Float.beq_zero_iff]
  constructor
  · intro zero
    cases zero with
    | float finite zero => exact ⟨finite, zero⟩
  · exact fun given => .float given.1 given.2

namespace BinaryOp

variable {op : BinaryOp}

/-- How an operator may fail. -/
inductive Fails (op : BinaryOp) (a b : Value) : Fault → Prop
  | division (zero : op.DividesByZero a b) : Fails op a b .divisionByZero
  | mismatch (detail : String) (other : ¬ op.DividesByZero a b) : Fails op a b (.typeMismatch detail)

/-- An operation that comes to a value divides by something else than zero, and one that does not fails
in one of the documented ways.
-/
inductive Documented (op : BinaryOp) (a b : Value) : Except Fault Value → Prop
  | ok (v : Value) (other : ¬ op.DividesByZero a b) : Documented op a b (.ok v)
  | error {f : Fault} (fails : Fails op a b f) : Documented op a b (.error f)

private theorem documented_mismatch (text : String) (other : ¬ op.DividesByZero a b)
    : Documented op a b (.error (.typeMismatch text)) :=
  .error (.mismatch text other)

/-- Only numbers are divided by zero. -/
theorem DividesByZero.operands (zero : op.DividesByZero a b) : a.IsNumeric ∧ b.IsZero := by
  cases zero with
  | div numeric zero => exact ⟨numeric, zero⟩
  | intDiv whole _ zero => exact ⟨whole.numeric, zero⟩
  | mod whole _ zero => exact ⟨whole.numeric, zero⟩

/-- Arithmetic on integers fails by dividing by zero and in no other way. -/
theorem documented_exactArithmetic {x y : Int} (arithmetic : op.IsArithmetic) (left : a.Denotes x)
    (right : b.Denotes y)
    : Documented op a b (exactArithmetic op x y) := by
  have otherwise (some : y ≠ 0) : ¬ op.DividesByZero a b :=
    fun zero => some (right.isZero_iff.mp zero.operands.2)
  cases arithmetic <;> simp only [exactArithmetic]
  case div =>
    split
    · rename_i none
      exact .error (.division (.div left.whole.numeric (right.isZero_iff.mpr none)))
    · split <;> exact .ok _ (otherwise ‹_›)
  case intDiv =>
    split
    · rename_i none
      exact .error (.division (.intDiv left.whole right.whole (right.isZero_iff.mpr none)))
    · exact .ok _ (otherwise ‹_›)
  case mod =>
    split
    · rename_i none
      exact .error (.division (.mod left.whole right.whole (right.isZero_iff.mpr none)))
    · exact .ok _ (otherwise ‹_›)
  all_goals exact .ok _ (fun zero => by cases zero)

/-- Arithmetic on floats fails by dividing by zero, or because it is integer division. -/
theorem documented_floatArithmetic {x y : Float} (arithmetic : op.IsArithmetic) (numeric : a.IsNumeric)
    (fraction : ¬ (a.IsWhole ∧ b.IsWhole)) (isZero : b.IsZero ↔ (y == 0.0) = true)
    : Documented op a b (floatArithmetic op x y) := by
  cases arithmetic <;> simp only [floatArithmetic]
  case div =>
    split
    · exact .error (.division (.div numeric (isZero.mpr ‹_›)))
    · rename_i some
      exact .ok _ fun zero => some (isZero.mp zero.operands.2)
  case intDiv | mod =>
    refine documented_mismatch _ fun zero => ?_
    cases zero
    exact fraction ⟨‹_›, ‹_›⟩
  all_goals exact .ok _ (fun zero => by cases zero)

/-- Arithmetic fails as documented, whether it is exact or not. -/
theorem documented_arithmetic (arithmetic : op.IsArithmetic)
    : Documented op a b (BinaryOp.arithmetic op a b) := by
  have unfit (other : ¬ (a.IsNumeric ∧ b.IsZero)) : Documented op a b (.error (mismatch op a b)) :=
    documented_mismatch _ fun zero => other zero.operands
  have left := operand a
  have right := operand b
  rw [BinaryOp.arithmetic]
  generalize Number.ofValue? a = x at left ⊢
  generalize Number.ofValue? b = y at right ⊢
  cases left with
  | absent null => exact unfit fun given => by cases null ▸ given.1
  | inert inert =>
      refine unfit fun given => ?_
      cases inert <;> cases given.1
  | whole denotes =>
      cases right with
      | absent null => exact unfit fun given => by cases null ▸ given.2
      | inert inert =>
          refine unfit fun given => ?_
          cases inert <;> cases given.2
      | whole denotes' => exact documented_exactArithmetic arithmetic denotes denotes'
      | float same =>
          obtain rfl := same
          exact documented_floatArithmetic arithmetic denotes.whole.numeric
            (fun given => by cases given.2) isZero_float_iff
  | float same =>
      obtain rfl := same
      cases right with
      | absent null => exact unfit fun given => by cases null ▸ given.2
      | inert inert =>
          refine unfit fun given => ?_
          cases inert <;> cases given.2
      | whole denotes' =>
          refine documented_floatArithmetic arithmetic (.float _) (fun given => by cases given.1) ?_
          rw [denotes'.isZero_iff, Number.toFloat, nearestFloat_beq_zero denotes'.fits]
      | float same' =>
          obtain rfl := same'
          exact documented_floatArithmetic arithmetic (.float _) (fun given => by cases given.1)
            isZero_float_iff

/-- Whatever is made of a comparison, it fails only if the operands cannot be compared. -/
theorem documented_compared {α : Type} {compared : Except Fault α} (result : α → Value)
    (cases : (∃ r, compared = .ok r) ∨ compared = .error (mismatch op a b))
    (other : ¬ op.DividesByZero a b)
    : Documented op a b (do return result (← compared)) := by
  rcases cases with ⟨r, rfl⟩ | rfl
  · exact .ok _ other
  · exact documented_mismatch _ other

private theorem documented_applyPresent (plain : Value → String) (op : BinaryOp) (a b : Value)
    (present : op ≠ .and ∧ op ≠ .or)
    : Documented op a b (applyPresent plain op a b) := by
  cases op
  case and => exact absurd rfl present.1
  case or => exact absurd rfl present.2
  case eq | ne => exact documented_compared _ (equality_cases _ a b) fun zero => by cases zero
  case lt | le | gt | ge | min | max =>
    exact documented_compared _ (ordering_cases _ a b) fun zero => by cases zero
  case xor | concat => exact .ok _ fun zero => by cases zero
  case add =>
    simp only [applyPresent]
    split
    · exact .ok _ fun zero => by cases zero
    · exact documented_arithmetic .add
  all_goals exact documented_arithmetic (by constructor)

/-- Null on a side makes the result null, except for conjunctions and disjunctions. -/
theorem apply_null (plain : Value → String) (present : op ≠ .and ∧ op ≠ .or)
    (null : a = .null ∨ b = .null)
    : apply plain op a b = .ok .null := by
  have some : (a.isNull || b.isNull) = true := by
    rcases null with rfl | rfl
    · rfl
    · exact Bool.or_true _
  cases op
  case and => exact absurd rfl present.1
  case or => exact absurd rfl present.2
  all_goals exact if_pos some

/-- An operator that is not logical fails in the documented ways. -/
theorem documented_apply (plain : Value → String) (op : BinaryOp) (present : op ≠ .and ∧ op ≠ .or)
    (left : a ≠ .null) (right : b ≠ .null)
    : Documented op a b (apply plain op a b) := by
  rw [apply_present plain present left right]
  exact documented_applyPresent plain op a b present

theorem Fails.harmless (fails : Fails op a b f) : ¬ f.IsBreach := by
  cases fails with
  | division => exact Fault.harmless_divisionByZero
  | mismatch detail => exact Fault.IsMismatch.harmless ⟨detail, rfl⟩

/-- An operator that fails is not logical and has no null operand. -/
theorem present_of_apply (failed : apply plain op a b = .error f)
    : (op ≠ .and ∧ op ≠ .or) ∧ a ≠ .null ∧ b ≠ .null := by
  have present : op ≠ .and ∧ op ≠ .or := by
    constructor <;> rintro rfl <;> cases failed
  refine ⟨present, ?_, ?_⟩ <;> rintro rfl
  · cases (apply_null plain present (.inl rfl)).symm.trans failed
  · cases (apply_null plain present (.inr rfl)).symm.trans failed

/-- An operator fails for a documented reason. -/
theorem fails_of_apply (failed : apply plain op a b = .error f) : Fails op a b f := by
  obtain ⟨present, left, right⟩ := present_of_apply failed
  have documented := documented_apply plain op present left right
  rw [failed] at documented
  cases documented with
  | error fails => exact fails

private theorem apply_of_dividesByZero (plain : Value → String) (zero : op.DividesByZero a b)
    : apply plain op a b = .error .divisionByZero := by
  have present : op ≠ .and ∧ op ≠ .or := by cases zero <;> simp
  obtain ⟨numeric, none⟩ := zero.operands
  have left : a ≠ .null := by cases numeric <;> simp
  have right : b ≠ .null := by cases none <;> simp
  have documented := documented_apply plain op present left right
  generalize apply plain op a b = outcome at documented ⊢
  cases documented with
  | ok v other => exact absurd zero other
  | error fails =>
      cases fails with
      | division => rfl
      | mismatch detail other => exact absurd zero other

end BinaryOp

namespace UnaryOp

variable {op : UnaryOp}

/-- What an operator does: it is refused if it is arithmetic and its operand is no number. -/
inductive Documented (op : UnaryOp) (a : Value) : Except Fault Value → Prop
  | ok (v : Value) (other : ¬ (op.IsArithmetic ∧ a.IsInert)) : Documented op a (.ok v)
  | mismatch (detail : String) (arithmetic : op.IsArithmetic) (inert : a.IsInert)
    : Documented op a (.error (.typeMismatch detail))

private theorem documented_arithmetic (plain : Value → String) (arithmetic : op.IsArithmetic) (a : Value)
    : Documented op a (apply plain op a) := by
  cases a with
  | null | integer | boolean | float =>
      cases arithmetic <;> exact .ok _ fun given => by cases given.2
  | string s => cases arithmetic <;> exact .mismatch _ (by constructor) (.string s)
  | callable c => cases arithmetic <;> exact .mismatch _ (by constructor) (.callable c)
  | array a => cases arithmetic <;> exact .mismatch _ (by constructor) (.array a)
  | object o => cases arithmetic <;> exact .mismatch _ (by constructor) (.object o)

private theorem documented_apply (plain : Value → String) (op : UnaryOp) (a : Value)
    : Documented op a (apply plain op a) := by
  by_cases arithmetic : op.IsArithmetic
  · exact documented_arithmetic plain arithmetic a
  · have done : ∃ v, apply plain op a = .ok v := by
      cases op
      case neg | pos | inc | dec | abs => exact absurd (by constructor) arithmetic
      all_goals cases a <;> exact ⟨_, rfl⟩
    obtain ⟨v, same⟩ := done
    rw [same]
    exact .ok v fun given => arithmetic given.1

/-- No operator fails as if the machine were broken. -/
theorem harmless_of_apply (plain : Value → String) (op : UnaryOp) (a : Value) (f : Fault)
    (failed : apply plain op a = .error f)
    : ¬ f.IsBreach := by
  have documented := documented_apply plain op a
  rw [failed] at documented
  cases documented with
  | mismatch detail => exact Fault.IsMismatch.harmless ⟨detail, rfl⟩

end UnaryOp

-----------------------------------------------------------------------------------------
-- Operators in a process
-----------------------------------------------------------------------------------------

/-- A running process is about to execute an operator, and the innermost call has put its operands on
the stack.
-/
inductive Machine.AtOperator (m : Machine) : Prop
  | binary {g : Frame} {outer : List Frame} {i : Instruction} {op : BinaryOp}
    (running : m.process.state = .running)
    (frames : m.process.frames = g :: outer)
    (next : (m.routineOf g).code[g.pc]? = some i)
    (opcode : i.opcode = .binary)
    (known : BinaryOp.ofByte? i.minor = some op)
    (operands : g.stackBase + 2 ≤ m.process.stack.length)
  | unary {g : Frame} {outer : List Frame} {i : Instruction} {op : UnaryOp}
    (running : m.process.state = .running)
    (frames : m.process.frames = g :: outer)
    (next : (m.routineOf g).code[g.pc]? = some i)
    (opcode : i.opcode = .unary)
    (known : UnaryOp.ofByte? i.minor = some op)
    (operands : g.stackBase + 1 ≤ m.process.stack.length)

namespace Exec

variable {m : Machine}

/-- The work leaves the calls and the state of the process alone, and if it does not complete, it raises a
fault that is no breach.
-/
structure Mild (m : Machine) {α : Type} (result : EStateM.Result Interruption Machine α) : Prop where
  frames : (stateOf result).process.frames = m.process.frames
  state : (stateOf result).process.state = m.process.state
  raises : ∀ e m', result = .error e m' → ∃ f, e = .fault f ∧ ¬ f.IsBreach

private theorem run_pop {v : Value} {rest : List Value} (stack : m.process.stack = v :: rest)
    (above : m.process.base ≤ rest.length)
    : pop.run m = .ok v (m.withStack rest) := by
  have inside : m.process.base < (v :: rest).length := Nat.lt_succ_of_le above
  simp only [pop, process, EStateM.run_bind, EStateM.run_get, EStateM.run_pure, stack, inside, if_true]
  rfl

/-- Pushing the result of an operator is mild if its faults are no breaches. -/
theorem mild_lift_push {outcome : Except Fault Value} (harmless : ∀ f, outcome = .error f → ¬ f.IsBreach)
    (m : Machine)
    : Mild m ((do push (← lift outcome) : Exec Unit).run m) := by
  cases outcome with
  | error f =>
      refine ⟨rfl, rfl, fun e m' failed => ?_⟩
      cases failed
      exact ⟨f, rfl, harmless f rfl⟩
  | ok v =>
      change Mild m ((push v).run m)
      rcases push_cases v m with ⟨-, done⟩ | ⟨-, full⟩
      · rw [done]
        exact ⟨rfl, rfl, fun e m' failed => by cases failed⟩
      · rw [full]
        refine ⟨rfl, rfl, fun e m' failed => ?_⟩
        cases failed
        exact ⟨_, rfl, by simp [Process.overflow, Fault.IsBreach]⟩

/-- With two operands above the base of the call, an operator leaves its result or raises its own
fault.
-/
theorem mild_binary {i : Instruction} {op : BinaryOp} (known : BinaryOp.ofByte? i.minor = some op)
    (operands : m.process.base + 2 ≤ m.process.stack.length)
    : Mild m ((binary i).run m) := by
  obtain ⟨b, a, rest, stack⟩ : ∃ b a rest, m.process.stack = b :: a :: rest := by
    match stack : m.process.stack with
    | [] | [_] =>
        rw [stack] at operands
        simp at operands
    | b :: a :: rest => exact ⟨b, a, rest, rfl⟩
  have above : m.process.base ≤ rest.length := by
    rw [stack] at operands
    simpa using operands
  have first : pop.run m = .ok b (m.withStack (a :: rest)) := run_pop stack (Nat.le_succ_of_le above)
  have second : pop.run (m.withStack (a :: rest)) = .ok a (m.withStack rest) := run_pop rfl above
  have ran : (binary i).run m
      = (do push (← lift (op.apply m.world.heap.plain a b)) : Exec Unit).run (m.withStack rest) := by
    simp only [binary, known, Exec.known, EStateM.run_bind, EStateM.run_pure, first, second, heap,
      EStateM.run_get]
    rfl
  have harmless (f : Fault) (failed : op.apply m.world.heap.plain a b = .error f) : ¬ f.IsBreach :=
    (BinaryOp.fails_of_apply failed).harmless
  have pushed := mild_lift_push harmless (m.withStack rest)
  rw [ran]
  exact ⟨pushed.frames, pushed.state, pushed.raises⟩

/-- With an operand above the base of the call, an operator leaves its result or raises its own fault.
-/
theorem mild_unary {i : Instruction} {op : UnaryOp} (known : UnaryOp.ofByte? i.minor = some op)
    (operands : m.process.base + 1 ≤ m.process.stack.length)
    : Mild m ((unary i).run m) := by
  obtain ⟨a, rest, stack⟩ : ∃ a rest, m.process.stack = a :: rest := by
    match stack : m.process.stack with
    | [] =>
        rw [stack] at operands
        simp at operands
    | a :: rest => exact ⟨a, rest, rfl⟩
  have above : m.process.base ≤ rest.length := by
    rw [stack] at operands
    simpa using operands
  have popped : pop.run m = .ok a (m.withStack rest) := run_pop stack above
  have ran : (unary i).run m
      = (do push (← lift (op.apply m.world.heap.plain a)) : Exec Unit).run (m.withStack rest) := by
    simp only [unary, known, Exec.known, EStateM.run_bind, EStateM.run_pure, popped, heap,
      EStateM.run_get]
    rfl
  have pushed := mild_lift_push (UnaryOp.harmless_of_apply m.world.heap.plain op a) (m.withStack rest)
  rw [ran]
  exact ⟨pushed.frames, pushed.state, pushed.raises⟩

/-- Executing an operator completes with the next instruction due, or raises a fault that is no breach. -/
theorem mild_execute {i : Instruction} {work : Exec Unit} (mild : Mild m (work.run m))
    (executes : execute i = do work; return .next)
    : Mild m ((execute i).run m) ∧ ∀ signal m', (execute i).run m = .ok signal m' → signal = .next := by
  rw [executes, EStateM.run_bind]
  cases done : work.run m with
  | ok u m' =>
      rw [done] at mild
      refine ⟨⟨mild.frames, mild.state, fun e m' failed => by cases failed⟩, ?_⟩
      intro signal m' same
      cases same
      rfl
  | error e m' =>
      rw [done] at mild
      refine ⟨⟨mild.frames, mild.state, fun e' m'' failed => ?_⟩, fun signal m' same => by cases same⟩
      cases failed
      exact mild.raises _ _ rfl

end Exec

namespace Machine

variable {m : Machine}

/-- What a step does that executes an operator. -/
inductive Operated (m : Machine) : EStateM.Result Interruption Machine Signal → Prop
  | completed {m' : Machine} (running : m'.process.state = .running) : Operated m (.ok .next m')
  | raised {f : Fault} {m' : Machine} (harmless : ¬ f.IsBreach)
    (running : m'.process.state = .running)
    (handlers : m'.process.frames.map Frame.handlers = m.process.frames.map Frame.handlers)
    : Operated m (.error (.fault f) m')

/-- A step with an operator puts the result in the place of the operands, or raises the operator's
fault.
-/
theorem operated_of_mild {g : Frame} {outer : List Frame} {i : Instruction} {work : Exec Unit}
    (running : m.process.state = .running) (frames : m.process.frames = g :: outer)
    (next : (m.routineOf g).code[g.pc]? = some i)
    (executes : Exec.execute i = do work; return .next)
    (mild : ∀ m', m'.process.stack = m.process.stack → m'.process.base = g.stackBase
      → Exec.Mild m' (work.run m'))
    : Operated m (Exec.step.run m) := by
  rw [Exec.run_step frames, next]
  obtain ⟨mild, nothing⟩ := Exec.mild_execute
    (mild (m.withFrames ({ g with pc := g.pc + 1 } :: outer)) rfl rfl) executes
  change Operated m ((Exec.execute i).run (m.withFrames ({ g with pc := g.pc + 1 } :: outer)))
  cases done : (Exec.execute i).run (m.withFrames ({ g with pc := g.pc + 1 } :: outer)) with
  | ok signal m' =>
      obtain rfl := nothing signal m' done
      rw [done] at mild
      exact .completed (mild.state.trans running)
  | error e m' =>
      obtain ⟨f, rfl, harmless⟩ := mild.raises e m' done
      rw [done] at mild
      refine .raised harmless (mild.state.trans running) ?_
      rw [frames, show m'.process.frames = _ from mild.frames]
      rfl

/-- A step that executes an operator completes, or raises a fault that a handler can catch. -/
theorem AtOperator.operated (operator : m.AtOperator) : Operated m (Exec.step.run m) := by
  cases operator with
  | @binary g outer i op running frames next opcode known operands =>
      have executes : Exec.execute i = do Exec.binary i; return .next := by
        simp only [Exec.execute, opcode]
      refine operated_of_mild running frames next executes fun m' stack base => ?_
      exact Exec.mild_binary known (by rwa [stack, base])
  | @unary g outer i op running frames next opcode known operands =>
      have executes : Exec.execute i = do Exec.unary i; return .next := by
        simp only [Exec.execute, opcode]
      refine operated_of_mild running frames next executes fun m' stack base => ?_
      exact Exec.mild_unary known (by rwa [stack, base])

/-- As long as some call has a handler, an operator leaves the process running. -/
theorem Operated.keeps_running (operated : Operated m (Exec.step.run m))
    (handled : ∃ g ∈ m.process.frames, g.handlers ≠ [])
    : m.advance.process.state = .running := by
  rw [advance]
  generalize Exec.step.run m = result at operated ⊢
  cases operated with
  | completed running => exact running
  | raised harmless running handlers =>
      refine (Process.raise_catches harmless ?_).state_eq.trans running
      obtain ⟨g, active, some⟩ := handled
      have kept : g.handlers ∈ m.process.frames.map Frame.handlers := List.mem_map_of_mem active
      rw [← handlers] at kept
      obtain ⟨g', active', same⟩ := List.mem_map.mp kept
      exact ⟨g', active', same ▸ some⟩

end Machine

/-- The ways in which operators fail. -/
structure FailsAsDocumented (plain : Value → String) : Prop where
  null
    : ∀ op a b,
        op ≠ .and ∧ op ≠ .or → a = .null ∨ b = .null → BinaryOp.apply plain op a b = .ok .null
  division : ∀ op a b, BinaryOp.apply plain op a b = .error .divisionByZero ↔ op.DividesByZero a b
  otherwise : ∀ op a b f, BinaryOp.apply plain op a b = .error f → f = .divisionByZero ∨ f.IsMismatch
  logical
    : ∀ a b,
        (∃ v, BinaryOp.apply plain .and a b = .ok v) ∧ ∃ v, BinaryOp.apply plain .or a b = .ok v
  unaryNull : ∀ op, ¬ op.IsTest → UnaryOp.apply plain op .null = .ok .null
  testNull : ∀ op : UnaryOp, op.IsTest → ∃ t, UnaryOp.apply plain op .null = .ok (.boolean t)
  unary : ∀ op a, (∃ f, UnaryOp.apply plain op a = .error f) ↔ op.IsArithmetic ∧ a.IsInert
  unaryFault : ∀ op a f, UnaryOp.apply plain op a = .error f → f.IsMismatch

/-- Operators fail in the documented ways only, whatever their operands are. So the faults that break
the machine are never raised by one: a step that executes an operator completes or raises a fault that
handlers catch, and as long as some call has a handler the process keeps running.
-/
theorem operators_fail_as_documented
    : (∀ plain, FailsAsDocumented plain)
      ∧ ∀ m : Machine, m.AtOperator
        → m.Operated (Exec.step.run m)
          ∧ ((∃ g ∈ m.process.frames, g.handlers ≠ []) → m.advance.process.state = .running) := by
  refine ⟨fun plain => ?_, fun m operator => ⟨operator.operated, operator.operated.keeps_running⟩⟩
  constructor
  case null => exact fun op a b present none => BinaryOp.apply_null plain present none
  case division =>
    intro op a b
    constructor
    · intro failed
      cases BinaryOp.fails_of_apply failed with
      | division zero => exact zero
    · exact BinaryOp.apply_of_dividesByZero plain
  case otherwise =>
    intro op a b f failed
    cases BinaryOp.fails_of_apply failed with
    | division => exact .inl rfl
    | mismatch detail => exact .inr ⟨detail, rfl⟩
  case logical => exact fun a b => ⟨⟨_, rfl⟩, ⟨_, rfl⟩⟩
  case unaryNull =>
    intro op other
    cases op
    case isNull | isNumber | isString => exact absurd (by constructor) other
    all_goals rfl
  case testNull =>
    intro op test
    cases test <;> exact ⟨_, rfl⟩
  case unary =>
    intro op a
    have documented := UnaryOp.documented_apply plain op a
    generalize UnaryOp.apply plain op a = outcome at documented ⊢
    cases documented with
    | ok v other => exact iff_of_false (fun failed => by cases failed.choose_spec) other
    | mismatch detail arithmetic inert => exact iff_of_true ⟨_, rfl⟩ ⟨arithmetic, inert⟩
  case unaryFault =>
    intro op a f failed
    have documented := UnaryOp.documented_apply plain op a
    rw [failed] at documented
    cases documented with
    | mismatch detail => exact ⟨detail, rfl⟩

/-- Code that divides what lies second on the stack by what is on top. -/
def dividingRoutine : Routine where
  name := "D"
  isProcedure := true
  isVarargs := false
  minArgs := 0
  maxArgs := 0
  localNames := #[]
  names := #[]
  code := #[⟨.binary, 3, 0⟩]
  literals := #[]
  fileName := ""
  lines := #[]

/-- A process that is about to divide 1 by the negative zero, in a call with a handler for the empty
stack.
-/
def dividing : Machine where
  world := { World.empty with heap := { Heap.empty with routines := #[dividingRoutine] } }
  process := { Process.new {} 1 "p" with
    state := .running
    stack := [.float (-0.0), .integer 1]
    frames := [⟨⟨0⟩, 0, #[], [⟨1, 0⟩], false, 0⟩] }

/-- The division by the negative zero is one by zero, and its fault is caught. -/
theorem division_caught
    : dividing.AtOperator
      ∧ dividing.advance.process.state = .running
      ∧ dividing.advance.process.stack = [.string "Division by zero"]
      ∧ BinaryOp.apply dividing.world.heap.plain .div (.integer 1) (.float (-0.0))
        = .error .divisionByZero := by
  have division : BinaryOp.ofByte? 3 = some .div := rfl
  have operator : dividing.AtOperator := .binary rfl rfl rfl rfl division (Nat.le_refl 2)
  have zero : (Value.float (-0.0)).IsZero := .float (by decide +kernel) (by decide +kernel)
  have fails := (operators_fail_as_documented.1 dividing.world.heap.plain).division
  refine ⟨operator, (operators_fail_as_documented.2 dividing operator).2 ?_, by rfl, ?_⟩
  · exact ⟨_, .head _, List.cons_ne_nil _ _⟩
  · exact (fails .div _ _).mpr (.div (.integer 1) zero)

end TaskMachine

import TaskMachine.Proofs.Process.Simulation

/-!
Machines that are alike make the same steps. Each instruction does the same to both, unless it
compares two handles of one routine and these may have more than one partner.
-/

namespace TaskMachine

namespace Partners

variable {p q : Partners}

-----------------------------------------------------------------------------------------
-- Instructions
-----------------------------------------------------------------------------------------

theorem Consults.known {α : Type} (i : Instruction) (meaning : Option α)
    : p.Consults Same (Exec.known i meaning) (Exec.known i meaning) := by
  cases meaning with
  | some a => exact .pure rfl
  | none => exact .raise _

theorem Consults.currentRoutine : p.Consults Routines Exec.currentRoutine Exec.currentRoutine :=
  .bind .heap fun _ _ heaps => .bind .frame fun _ _ frames => .pure
    (heaps.routine _ _ frames.routine)

theorem Consults.nameAt (index : Nat) : p.Consults Same (Exec.nameAt index) (Exec.nameAt index) := by
  refine .bind .currentRoutine fun r r' routines => ?_
  rw [routines.names]
  split
  · exact .pure rfl
  · exact .raise _

theorem Consults.literalAt (index : Nat)
    : p.Consults Values (Exec.literalAt index) (Exec.literalAt index) := by
  refine .bind .currentRoutine fun r r' routines => ?_
  rw [← Array.getElem?_toList, ← Array.getElem?_toList]
  rcases getElem?_related routines.literals index with ⟨v, v', found, found', same⟩ | ⟨none, none'⟩
  · rw [found, found']
    exact .pure same
  · rw [none, none']
    exact .raise _

theorem Consults.localAt (index : Nat)
    : p.Consults Values (Exec.localAt index) (Exec.localAt index) := by
  refine .bind .frame fun f f' frames => ?_
  rw [← Array.getElem?_toList, ← Array.getElem?_toList]
  rcases getElem?_related frames.locals index with ⟨v, v', found, found', same⟩ | ⟨none, none'⟩
  · rw [found, found']
    exact .pure same
  · rw [none, none']
    exact .raise _

theorem Simulates.setLocal (index : Nat) {v v' : Value} (same : p.Values v v')
    : p.Simulates Machines Same (Exec.setLocal index v) (Exec.setLocal index v') := by
  refine .after .frame fun f f' frames => ?_
  have size : f'.locals.size = f.locals.size := by simpa using frames.locals.length_eq.symm
  simp only [size]
  split
  · refine .setFrame ⟨?_, frames.routine, ?_⟩
    · rw [frames.rest]
    · rw [Array.toList_setIfInBounds, Array.toList_setIfInBounds]
      exact set_related frames.locals index same
  · exact .raise _

/-- By name only what both worlds call alike may be asked for, so the partners must be fit for names. -/
theorem Consults.global (named : p.named) (name : String)
    : p.Consults Values (Exec.global name) (Exec.global name) := by
  refine .bind .world fun w w' worlds => ?_
  have found := worlds.get named name
  generalize w.get? name = known at found
  generalize w'.get? name = known' at found
  cases found with
  | some same => exact .pure same
  | none => exact .raise _

/-- What an instruction means is known to both machines. -/
theorem Simulates.known {α β : Type} {S : Partners → β → β → Prop} {i : Instruction}
    {meaning : Option α} {next : α → Exec β}
    (each : ∀ a, meaning = some a → p.Simulates Machines S (next a) (next a))
    : p.Simulates Machines S (Exec.known i meaning >>= next) (Exec.known i meaning >>= next) := by
  cases meaning with
  | some a => exact each a rfl
  | none => exact .raised _

/-- Whatever the scope, alike values are pushed; only a push by name needs partners that are fit for
names.
-/
theorem Simulates.pushFrom (i : Instruction)
    (named : Scope.ofByte? i.minor = some .named → p.named)
    : p.Simulates Machines Same (Exec.pushFrom i) (Exec.pushFrom i) := by
  refine .known fun scope known => ?_
  cases scope with
  | localSlot => exact .after (.localAt _) fun _ _ => .push
  | literal => exact .after (.literalAt _) fun _ _ => .push
  | integer => exact .after (.pure (R := Values) (.plain id)) fun _ _ => .push
  | boolean =>
      refine .after (.pure (R := Values) ?_) fun _ _ => .push
      rw [Exec.booleanOperand]
      split <;> exact .plain id
  | named =>
      refine .after (.nameAt _) ?_
      rintro _ name rfl
      exact .after (.global (named known) name) fun _ _ => .push

theorem Simulates.assign (i : Instruction) {v v' : Value} (same : p.Values v v')
    : p.Simulates Machines Same (Exec.assign i v) (Exec.assign i v') := by
  refine .after (.known i _) ?_
  rintro _ scope rfl
  cases scope with
  | localSlot => exact .setLocal _ same
  | named =>
      refine .after (.nameAt _) ?_
      rintro _ name rfl
      exact .setGlobal name same
  | literal | integer | boolean => exact .raise _

theorem Simulates.unary (i : Instruction)
    : p.Simulates Machines Same (Exec.unary i) (Exec.unary i) := by
  refine .after (.known i _) ?_
  rintro _ op rfl
  refine .bind .pop fun q a a' _ same => .after .heap fun h h' heaps => ?_
  rw [UnaryOp.apply_alike heaps op same]
  exact .after (.lift (R := Values) (outcomes_plain fun v => UnaryOp.not_handle_of_apply))
    fun _ _ => .push

/-- A jump asks only for the truth of a value, which a handle has whatever it stands for. -/
theorem conditionFlag_alike {v v' : Value} (same : p.Values v v')
    : Exec.conditionFlag v' = Exec.conditionFlag v := by
  rw [Exec.conditionFlag, Exec.conditionFlag, same.truth]

theorem Consults.isTaken (i : Instruction)
    : p.Consults Same (Exec.isTaken i) (Exec.isTaken i) := by
  simp only [Exec.isTaken]
  split
  · exact .pure rfl
  · refine .bind (.peek 0) fun v v' same => .pure ?_
    rw [conditionFlag_alike same]

/-- Both jump or neither does, to the same place, and a handler is installed at the same height. -/
theorem Simulates.jump (i : Instruction)
    : p.Simulates Machines Same (Exec.jump i) (Exec.jump i) := by
  simp only [Exec.jump]
  split
  · exact .raised _
  refine .after .currentRoutine fun r r' routines => ?_
  rw [routines.code, routines.name]
  split
  · exact .raised _
  split
  · refine .after .frame fun f f' frames => .after .process fun x x' alike => ?_
    refine .setFrame ⟨?_, frames.routine, frames.locals⟩
    rw [frames.rest, alike.length_eq]
  refine .after (.isTaken i) ?_
  rintro _ taken rfl
  have goes (q : Partners)
      : q.Simulates Machines Same
          (if taken = true then do
            let f ← Exec.frame
            Exec.setFrame { f with pc := Exec.operand i }
          else Pure.pure ())
          (if taken = true then do
            let f ← Exec.frame
            Exec.setFrame { f with pc := Exec.operand i }
          else Pure.pure ()) := by
    split
    · refine .after .frame fun f f' frames => .setFrame ⟨?_, frames.routine, frames.locals⟩
      rw [frames.rest]
    · exact .pure rfl
  split
  · exact .bind (.discard .pop) fun q _ _ _ _ => goes q
  · exact goes p

theorem Simulates.readElement {a a' : ArrayId} (paired : p.arrays a a') {indexes indexes' : List Value}
    (same : List.Forall₂ p.Values indexes indexes')
    : p.Simulates Machines Same (Exec.readElement a indexes) (Exec.readElement a' indexes') :=
  .after .heap fun _ _ heaps =>
    .after (.lift (R := Values) ((heaps.grid _ _ paired).get same)) fun _ _ => .push

/-- Cells of arrays that are partners are assigned alike, so the arrays stay alike. -/
theorem Simulates.writeElement {a a' : ArrayId} (paired : p.arrays a a') {indexes indexes' : List Value}
    (same : List.Forall₂ p.Values indexes indexes') {v v' : Value} (value : p.Values v v')
    : p.Simulates Machines Same (Exec.writeElement a indexes v) (Exec.writeElement a' indexes' v') := by
  refine .after .heap fun h h' heaps => ?_
  refine .after (.lift (R := Grids) ((heaps.grid _ _ paired).set same value)) fun g g' grids => ?_
  exact .imp (.setHeap le_rfl (heaps.setGrid paired grids)) fun _ _ _ _ => rfl

theorem Simulates.indirect (i : Instruction)
    : p.Simulates Machines Same (Exec.indirect i) (Exec.indirect i) := by
  refine .after (.known i _) ?_
  rintro _ op rfl
  refine .bind .pop fun q callee callee' _ same => ?_
  refine .bind (.popMany _) fun q₁ arguments arguments' le alike => ?_
  have same := same.mono le
  cases same with
  | plain standsAlone =>
      cases callee with
      | array | callable | object => exact absurd trivial standsAlone
      | null | integer _ | boolean _ | float _ | string _ =>
          cases op with
          | call | store => exact .raise _
          | function | load => first | exact .push (.plain id) | exact .raise _
  | array paired =>
      cases op with
      | call => exact .raise _
      | function | load => exact .readElement paired alike
      | store => exact .bind .pop fun q₂ v v' le value =>
          .writeElement (le.arrays _ _ paired) (mono_all alike le) value
  | callable paired =>
      cases op with
      | call | function | load => exact .call paired alike _
      | store =>
          refine .after .heap fun h h' heaps => ?_
          rw [heaps.callableName paired]
          exact .raise _

theorem Simulates.noMember {α : Type} {v v' : Value} (same : p.Values v v') (name : String)
    : p.Simulates Machines Same (Exec.noMember v name : Exec α) (Exec.noMember v' name) := by
  rw [Exec.noMember, Exec.noMember, same.typeName]
  exact .raise _

/-- Host objects have no partners, so a member is refused on both sides. -/
theorem Simulates.member (i : Instruction)
    : p.Simulates Machines Same (Exec.member i) (Exec.member i) := by
  refine .after (.nameAt _) ?_
  rintro _ name rfl
  refine .bind .pop fun q v v' _ same => .after (.known i _) ?_
  rintro _ op rfl
  cases op with
  | load =>
      cases same with
      | array paired => exact .noMember (.array paired) name
      | callable paired => exact .noMember (.callable paired) name
      | plain standsAlone =>
          cases v with
          | array | callable | object => exact absurd trivial standsAlone
          | null => exact .push (.plain id)
          | integer _ | boolean _ | float _ | string _ => exact .noMember (.plain id) name
  | store =>
      refine .bind .pop fun q₁ w w' le _ => ?_
      cases same with
      | array paired => exact .noMember (.array (le.arrays _ _ paired)) name
      | callable paired => exact .noMember (.callable (le.callables _ _ paired)) name
      | plain standsAlone =>
          cases v with
          | array | callable | object => exact absurd trivial standsAlone
          | null | integer _ | boolean _ | float _ | string _ => exact .noMember (.plain id) name

theorem Simulates.rearrange (i : Instruction)
    : p.Simulates Machines Same (Exec.rearrange i) (Exec.rearrange i) := by
  refine .after (.known i _) ?_
  rintro _ op rfl
  cases op with
  | dup => exact .after (.peek _) fun _ _ => .push
  | drop => exact .discard (.popMany _)
  | swap =>
      refine .after (.peek _) fun lower lower' low => .after (.peek 0) fun upper upper' up => ?_
      refine .after .process fun x x' alike => .setProcess (alike.withStack ?_)
      exact set_related (set_related alike.stack 0 low) _ up

theorem Consults.dimension {v v' : Value} (same : p.Values v v')
    : p.Consults Same (Exec.dimension v) (Exec.dimension v') := by
  simp only [Exec.dimension, same.expectInteger]
  have integer : Outcomes (Same p) (Grid.expectInteger "array dimension" v)
      (Grid.expectInteger "array dimension" v) := by
    cases Grid.expectInteger "array dimension" v with
    | ok n => exact .ok rfl
    | error fault => exact .error fault
  refine .bind (.lift integer) ?_
  rintro _ n rfl
  split
  · exact .bind (.raise (R := fun _ _ _ => False) _) fun _ _ never => never.elim
  · exact .pure rfl

/-- Dimensions are read one after another, by induction on the values. -/
theorem Consults.dimensions {values values' : List Value}
    (same : List.Forall₂ p.Values values values')
    : p.Consults Same (values.mapM Exec.dimension) (values'.mapM Exec.dimension) := by
  induction same with
  | nil => exact .pure rfl
  | cons first _ ih =>
      rw [List.mapM_cons, List.mapM_cons]
      refine .bind (.dimension first) ?_
      rintro _ d rfl
      refine .bind ih ?_
      rintro _ dims rfl
      exact .pure rfl

/-- The arrays that are made become partners of each other. -/
theorem Simulates.newArray (dims : List Nat)
    : p.Simulates Machines Same (Exec.newArray dims) (Exec.newArray dims) := by
  have made : Outcomes p.Grids (Grid.new dims) (Grid.new dims) := by
    cases new : Grid.new dims with
    | error fault => exact .error fault
    | ok g =>
        obtain ⟨-, -, rfl⟩ := Grid.new_eq_ok.mp new
        refine .ok ⟨rfl, ?_⟩
        rw [Array.toList_replicate]
        exact nulls_alike _
  refine .after (.lift (R := Grids) made) fun g g' grids => .after .heap fun h h' heaps => ?_
  refine .bind (.setHeap heaps.le_withArrays (heaps.addArray grids)) fun q _ _ _ later => .push ?_
  exact .array (later.arrays _ _ (.inr ⟨rfl, rfl⟩))

/-- Closures that are made over alike values become partners of each other. -/
theorem Simulates.bindTop (count : Nat)
    : p.Simulates Machines Same (Exec.bindTop count) (Exec.bindTop count) := by
  refine .bind .pop fun q v v' _ same => ?_
  cases same with
  | plain standsAlone =>
      cases v with
      | array | callable | object => exact absurd trivial standsAlone
      | null | integer _ | boolean _ | float _ | string _ => exact .raise _
  | array => exact .raise _
  | callable paired =>
      refine .bind (.popMany _) fun q₁ values values' le alike => ?_
      exact .bind (.makeClosure (le.callables _ _ paired) alike) fun _ _ _ _ => .push

theorem Simulates.uncatch : p.Simulates Machines Same Exec.uncatch Exec.uncatch := by
  refine .after .frame fun f f' frames => ?_
  have handlers : f'.handlers = f.handlers := by rw [frames.rest]
  rw [handlers]
  split
  · refine .setFrame ⟨?_, frames.routine, frames.locals⟩
    rw [frames.rest]
  · exact .raise _

/-- Every control operation is done alike, by its cases. -/
theorem Simulates.special (i : Instruction)
    : p.Simulates Machines Same (Exec.special i) (Exec.special i) := by
  refine .after (.known i _) ?_
  rintro _ op rfl
  cases op with
  | uncatch => exact .bind .uncatch fun _ _ _ _ _ => .pure rfl
  | leave =>
      dsimp only
      split
      · have popped : p.Simulates Machines (fun q => Option.Rel q.Values) (some <$> Exec.pop)
            (some <$> Exec.pop) := by
          rw [map_eq_pure_bind]
          exact .bind .pop fun _ _ _ _ same => .pure (.some same)
        exact .bind popped fun _ _ _ _ => .leave
      · exact .bind (.pure .none) fun _ _ _ _ => .leave
  | throw =>
      refine .bind .pop fun q v v' _ same => .after .heap fun h h' heaps => ?_
      rw [heaps.plain same]
      exact .raise _
  | terminate | suspend => exact .pure rfl
  | wait =>
      refine .after .heap fun h h' heaps => .after (.literalAt _) fun v v' same => ?_
      rw [heaps.plain same]
      exact .pure rfl
  | bind => exact .bind (.bindTop _) fun _ _ _ _ _ => .pure rfl
  | newArray =>
      refine .bind (.popMany _) fun q values values' _ same => .after (.dimensions same) ?_
      rintro _ dims rfl
      exact .bind (.newArray dims) fun _ _ _ _ _ => .pure rfl

-----------------------------------------------------------------------------------------
-- Steps
-----------------------------------------------------------------------------------------

end Partners

/-- Does the instruction ask whether its operands are the same? -/
def Instruction.TestsIdentity (i : Instruction) : Prop :=
  i.opcode = .binary ∧ ∃ op, BinaryOp.ofByte? i.minor = some op ∧ op.TestsIdentity

namespace Machine

/-- The two values on top of the stack are handles of one routine. -/
def HasTwinsOnTop (m : Machine) : Prop :=
  ∃ b a rest, m.process.stack = b :: a :: rest ∧ m.world.heap.Twins a b

/-- The next instruction asks whether two handles of one routine are the same. -/
def ComparesTwins (m : Machine) : Prop :=
  m.HasTwinsOnTop
    ∧ ∃ f outer i, m.process.frames = f :: outer ∧ (m.routineOf f).code[f.pc]? = some i
        ∧ i.TestsIdentity

end Machine

namespace Partners

variable {p : Partners} {m m' : Machine}

theorem Machines.withFrames (machines : p.Machines m m') {frames frames' : List Frame}
    (same : List.Forall₂ p.Frames frames frames')
    : p.Machines (m.withFrames frames) (m'.withFrames frames') :=
  ⟨machines.world, machines.process.withFrames same⟩

theorem known_eq_ok {α : Type} {i : Instruction} {meaning : Option α} {a : α} {m₁ : Machine}
    (done : (Exec.known i meaning).run m = .ok a m₁)
    : meaning = some a ∧ m₁ = m := by
  cases meaning with
  | some b =>
      cases done
      exact ⟨rfl, rfl⟩
  | none => cases done

/-- Operands are not told apart, unless they are two handles of one routine that are compared. -/
theorem agree_binary (machines : p.Machines m m') (i : Instruction)
    (told
      : ∀ op, BinaryOp.ofByte? i.minor = some op → op.TestsIdentity → m.HasTwinsOnTop → p.Faithful)
    : p.Agree Machines Same ((Exec.binary i).run m) ((Exec.binary i).run m') := by
  refine .bind ((Consults.known i _).simulates m m' machines) ?_
  rintro q _ op m₁ m₁' more ran still rfl
  obtain ⟨meant, rfl⟩ := known_eq_ok ran
  refine .bind (Simulates.pop _ _ still) ?_
  intro q₁ b b' m₂ m₂' le upper machines right
  refine .bind (Simulates.pop _ _ machines) ?_
  intro q₂ a a' m₃ m₃' le₁ lower machines left
  obtain ⟨rest, top, -, rfl⟩ := Exec.pop_eq_ok upper
  obtain ⟨rest', below, -, rfl⟩ := Exec.pop_eq_ok lower
  have stack : m₁.process.stack = b :: a :: rest' := by
    rw [top, ← below]
    rfl
  have faithful : op.TestsIdentity → m₁.world.heap.Twins a b → q₂.Faithful := fun tests same =>
    (more.trans (le.trans le₁)).faithful (told op meant tests ⟨b, a, rest', stack, same⟩)
  have applied := BinaryOp.apply_alike machines.world.heaps op left (right.mono le₁) faithful
  exact Simulates.after (.lift (R := Values) applied) (fun _ _ => .push) _ _ machines

/-- An instruction that is no binary operator does the same to machines that are alike. -/
theorem Simulates.execute (i : Instruction) (other : i.opcode ≠ .binary)
    (named : i.UsesName → p.named)
    : p.Simulates Machines Same (Exec.execute i) (Exec.execute i) := by
  unfold Exec.execute
  cases opcode : i.opcode with
  | binary => exact absurd opcode other
  | push =>
      exact .bind (.pushFrom i fun scope => named ⟨.inl opcode, scope⟩) fun _ _ _ _ _ => .pure rfl
  | pop => exact .bind .pop fun _ _ _ _ same => .bind (.assign i same) fun _ _ _ _ _ => .pure rfl
  | store =>
      exact .after (.peek 0) fun _ _ same => .bind (.assign i same) fun _ _ _ _ _ => .pure rfl
  | unary => exact .bind (.unary i) fun _ _ _ _ _ => .pure rfl
  | jump => exact .bind (.jump i) fun _ _ _ _ _ => .pure rfl
  | indirect => exact .bind (.indirect i) fun _ _ _ _ _ => .pure rfl
  | member => exact .bind (.member i) fun _ _ _ _ _ => .pure rfl
  | stack => exact .bind (.rearrange i) fun _ _ _ _ _ => .pure rfl
  | special => exact .special i

/-- An instruction does the same to machines that are alike. It must not use names that stand for
different things, or compare two handles of one routine that may have more than one partner.
-/
theorem agree_execute (machines : p.Machines m m') (i : Instruction) (named : i.UsesName → p.named)
    (told : i.TestsIdentity → m.HasTwinsOnTop → p.Faithful)
    : p.Agree Machines Same ((Exec.execute i).run m) ((Exec.execute i).run m') := by
  by_cases binary : i.opcode = .binary
  · have applied := agree_binary machines i fun op meant tests => told ⟨binary, op, meant, tests⟩
    simp only [Exec.execute, binary]
    exact applied.bind fun _ _ _ _ _ _ _ machines _ => .ok le_rfl machines rfl
  · exact Simulates.execute i binary named m m' machines

/-- Machines that are alike make the same step. Only if they compare two handles of one routine, this
takes that callables have one partner each.
-/
theorem agree_step (machines : p.Machines m m') (told : m.ComparesTwins → p.Faithful)
    : p.Agree Machines Same (Exec.step.run m) (Exec.step.run m') := by
  have active := machines.process.frames
  cases frames : m.process.frames with
  | nil =>
      rw [frames] at active
      have frames' := List.forall₂_nil_left_iff.mp active
      rw [Exec.run_step_nil frames, Exec.run_step_nil frames']
      exact .ok le_rfl machines rfl
  | cons f outer =>
      rw [frames] at active
      obtain ⟨f', outer', first, others, frames'⟩ := List.forall₂_cons_left_iff.mp active
      rw [Exec.run_step frames, Exec.run_step frames']
      have routines : p.Routines (m.routineOf f) (m'.routineOf f') :=
        machines.world.heaps.routine _ _ first.routine
      have pc : f'.pc = f.pc := by rw [first.rest]
      rw [routines.code, routines.name, pc]
      cases next : (m.routineOf f).code[f.pc]? with
      | some i =>
          have moved : p.Frames { f with pc := f.pc + 1 } { f' with pc := f.pc + 1 } :=
            ⟨by rw [first.rest], first.routine, first.locals⟩
          have named : i.UsesName → p.named := fun uses =>
            routines.nameless.resolve_right fun nameless =>
              nameless i (Array.mem_of_getElem? next) uses
          exact agree_execute (machines.withFrames (.cons moved others)) i named
            fun tests onTop => told ⟨onTop, f, outer, i, frames, next, tests⟩
      | none =>
          dsimp only
          by_cases atEnd : f.pc = (m.routineOf f).code.size
          · rw [if_pos atEnd, if_pos atEnd]
            exact Simulates.leave .none m m' machines
          · rw [if_neg atEnd, if_neg atEnd]
            exact .error le_rfl machines _

end Partners
end TaskMachine

import TaskMachine.Text

/-!
Listings: a routine's code as text, one instruction a line, with a note of what an operand refers
to.
-/

namespace TaskMachine

namespace Routine

/-- What the operand of an instruction refers to. -/
def note (h : Heap) (r : Routine) (i : Instruction) : Option String :=
  let index := i.operand.toNat
  match i.opcode with
  | .push | .pop | .store =>
    match Scope.ofByte? i.minor with
    | some .localSlot => r.localNames[index]?
    | some .literal => r.literals[index]?.map h.readable
    | some .named => r.names[index]?
    | _ => none
  | .member => if (MemberOp.ofByte? i.minor).isSome then r.names[index]? else none
  | _ => none

/-- A number in a column of five places. -/
def numberColumn (n : Nat) : String :=
  let digits := toString n
  String.ofList (List.replicate (5 - digits.length) ' ') ++ digits

def listingLine (h : Heap) (r : Routine) (pc : Nat) (i : Instruction) : String :=
  let remark :=
    match r.note h i with
    | some text => "    ; " ++ text
    | none => ""
  "  " ++ numberColumn pc ++ "  " ++ i.text ++ remark ++ "\n"

def heading (r : Routine) : String :=
  let kind := if r.isProcedure then "Sub" else "Function"
  let surplus := if r.isVarargs then "+" else ""
  let name := r.name
  let least := r.minArgs
  let most := r.maxArgs
  let count := r.numLocals
  s!"{kind} {name} ({least}..{most}{surplus} args, {count} locals)\n"

def listing (h : Heap) (r : Routine) : String :=
  r.heading ++ String.join (r.code.toList.mapIdx (r.listingLine h))

end Routine

end TaskMachine

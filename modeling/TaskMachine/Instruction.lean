/-!
Instructions: an opcode, a minor code that selects among its variants, and a 16-bit operand. An
instruction takes four bytes. The minor code stays a plain byte, since stored code may hold any; the
machine refuses a minor code without meaning only when it executes it.
-/

namespace TaskMachine

inductive Opcode where
  | push
  | pop
  | store
  | binary
  | unary
  | jump
  | indirect
  | member
  | stack
  | special
deriving DecidableEq, Repr, Inhabited

namespace Opcode

def toByte : Opcode → UInt8
  | push => 0
  | pop => 1
  | store => 2
  | binary => 3
  | unary => 4
  | jump => 5
  | indirect => 6
  | member => 7
  | stack => 8
  | special => 9

def ofByte? (b : UInt8) : Option Opcode :=
  [push, pop, store, binary, unary, jump, indirect, member, stack, special][b.toNat]?

def name : Opcode → String
  | push => "push"
  | pop => "pop"
  | store => "store"
  | binary => "binary"
  | unary => "unary"
  | jump => "jump"
  | indirect => "indirect"
  | member => "member"
  | stack => "stack"
  | special => "special"

end Opcode

/-- Where `push` takes its value from and where `pop` and `store` put it. -/
inductive Scope where
  | localSlot
  | literal
  | integer
  | boolean
  | named
deriving DecidableEq, Repr

namespace Scope

def ofByte? (b : UInt8) : Option Scope :=
  [localSlot, literal, integer, boolean, named][b.toNat]?

def toByte : Scope → UInt8
  | localSlot => 0
  | literal => 1
  | integer => 2
  | boolean => 3
  | named => 4

def name : Scope → String
  | localSlot => "local"
  | literal => "literal"
  | integer => "integer"
  | boolean => "boolean"
  | named => "named"

end Scope

inductive BinaryOp where
  | add
  | sub
  | mul
  | div
  | intDiv
  | mod
  | pow
  | concat
  | eq
  | ne
  | lt
  | le
  | gt
  | ge
  | and
  | or
  | xor
  | min
  | max
deriving DecidableEq, Repr

namespace BinaryOp

def ofByte? (b : UInt8) : Option BinaryOp :=
  [add, sub, mul, div, intDiv, mod, pow, concat, eq, ne, lt, le, gt, ge, and, or, xor, min,
    max][b.toNat]?

def toByte : BinaryOp → UInt8
  | add => 0
  | sub => 1
  | mul => 2
  | div => 3
  | intDiv => 4
  | mod => 5
  | pow => 6
  | concat => 7
  | eq => 8
  | ne => 9
  | lt => 10
  | le => 11
  | gt => 12
  | ge => 13
  | and => 14
  | or => 15
  | xor => 16
  | min => 17
  | max => 18

def symbol : BinaryOp → String
  | add => "+"
  | sub => "-"
  | mul => "*"
  | div => "/"
  | intDiv => "\\"
  | mod => "Mod"
  | pow => "^"
  | concat => "&"
  | eq => "="
  | ne => "<>"
  | lt => "<"
  | le => "<="
  | gt => ">"
  | ge => ">="
  | and => "And"
  | or => "Or"
  | xor => "Xor"
  | min => "Min"
  | max => "Max"

end BinaryOp

inductive UnaryOp where
  | not
  | neg
  | pos
  | isNull
  | bool
  | str
  | inc
  | dec
  | abs
  | isNumber
  | isString
deriving DecidableEq, Repr

namespace UnaryOp

def ofByte? (b : UInt8) : Option UnaryOp :=
  [not, neg, pos, isNull, bool, str, inc, dec, abs, isNumber, isString][b.toNat]?

def toByte : UnaryOp → UInt8
  | not => 0
  | neg => 1
  | pos => 2
  | isNull => 3
  | bool => 4
  | str => 5
  | inc => 6
  | dec => 7
  | abs => 8
  | isNumber => 9
  | isString => 10

def name : UnaryOp → String
  | not => "Not"
  | neg => "Neg"
  | pos => "Pos"
  | isNull => "IsNull"
  | bool => "Bool"
  | str => "Str"
  | inc => "Inc"
  | dec => "Dec"
  | abs => "Abs"
  | isNumber => "IsNumber"
  | isString => "IsString"

end UnaryOp

/-- What an `indirect` instruction does with the value on top of the stack. -/
inductive IndirectOp where
  /-- Call it and drop its result. -/
  | call
  /-- Call it for its result. -/
  | function
  /-- Call it or read an element of it. -/
  | load
  /-- Write an element of it. -/
  | store
deriving DecidableEq, Repr

namespace IndirectOp

def ofByte? (b : UInt8) : Option IndirectOp :=
  [call, function, load, store][b.toNat]?

def toByte : IndirectOp → UInt8
  | call => 0
  | function => 1
  | load => 2
  | store => 3

def name : IndirectOp → String
  | call => "Call"
  | function => "Function"
  | load => "Load"
  | store => "Store"

def verb : IndirectOp → String
  | call => "call"
  | function => "function"
  | load => "load"
  | store => "store"

end IndirectOp

/-- What a `member` instruction does. -/
inductive MemberOp where
  | load
  | store
deriving DecidableEq, Repr

def MemberOp.ofByte? (b : UInt8) : Option MemberOp :=
  [load, store][b.toNat]?

/-- Rearrangements of the operand stack. -/
inductive StackOp where
  | dup
  | drop
  | swap
deriving DecidableEq, Repr

namespace StackOp

def ofByte? (b : UInt8) : Option StackOp :=
  [dup, drop, swap][b.toNat]?

def name : StackOp → String
  | dup => "Dup"
  | drop => "Drop"
  | swap => "Swap"

end StackOp

/-- Control of handlers, frames and the process, and the making of closures and arrays. -/
inductive SpecialOp where
  | uncatch
  | leave
  | throw
  | terminate
  | suspend
  | wait
  | bind
  | newArray
deriving DecidableEq, Repr

namespace SpecialOp

def ofByte? (b : UInt8) : Option SpecialOp :=
  [uncatch, leave, throw, terminate, suspend, wait, bind, newArray][b.toNat]?

def toByte : SpecialOp → UInt8
  | uncatch => 0
  | leave => 1
  | throw => 2
  | terminate => 3
  | suspend => 4
  | wait => 5
  | bind => 6
  | newArray => 7

def name : SpecialOp → String
  | uncatch => "Uncatch"
  | leave => "Return"
  | throw => "Throw"
  | terminate => "Terminate"
  | suspend => "Suspend"
  | wait => "Wait"
  | bind => "Bind"
  | newArray => "NewArray"

end SpecialOp

/-!
The minor code of a jump is a set of flags. A jump with all three condition flags is unconditional.
-/
namespace Jump

/-- Jump if the condition is true. -/
def ifTrue : UInt8 := 1

/-- Jump if the condition is false. -/
def ifFalse : UInt8 := 2

/-- Jump if the condition is null. -/
def ifEmpty : UInt8 := 4

/-- All three conditions. -/
def always : UInt8 := 7

/-- Take the condition off the stack. -/
def pop : UInt8 := 8

/-- Install a handler instead of jumping. -/
def catches : UInt8 := 16

/-- The operand is a label that is not yet resolved. -/
def symbolic : UInt8 := 32

def has (minor flag : UInt8) : Bool :=
  minor &&& flag != 0

/-- Does a minor code hold all three conditions? -/
def isAlways (minor : UInt8) : Bool :=
  minor &&& always == always

end Jump

structure Instruction where
  opcode : Opcode
  minor : UInt8
  operand : UInt16
deriving DecidableEq, Repr, Inhabited

namespace Instruction

/-- Is it an unresolved jump? -/
def isSymbolic (i : Instruction) : Bool :=
  i.opcode == .jump && Jump.has i.minor Jump.symbolic

/-- The four bytes of an instruction; the operand is stored low byte first. -/
def toBytes (i : Instruction) : List UInt8 :=
  [i.opcode.toByte, i.minor, i.operand.toUInt8, (i.operand >>> 8).toUInt8]

/-- The instruction of four bytes. -/
def ofBytes? (opcode minor low high : UInt8) : Option Instruction :=
  (Opcode.ofByte? opcode).map fun op =>
    { opcode := op, minor, operand := low.toUInt16 ||| (high.toUInt16 <<< 8) }

/-- A name padded to the width of the first column of a listing. -/
def column (name : String) : String :=
  name ++ String.ofList (List.replicate (8 - name.length) ' ') ++ " "

/-- The name of a variant, or the bare minor code where it means nothing. -/
def variant (name : Option String) (minor : UInt8) : String :=
  name.getD ("?" ++ toString minor.toNat)

/-- The flags of a jump as listings show them. -/
def jumpFlags (minor : UInt8) : String :=
  let condition :=
    if Jump.has minor Jump.catches then "catch"
    else if Jump.isAlways minor then "always"
    else
      (if Jump.has minor Jump.ifTrue then "t" else "")
        ++ (if Jump.has minor Jump.ifFalse then "f" else "")
        ++ (if Jump.has minor Jump.ifEmpty then "e" else "")
  condition ++ (if Jump.has minor Jump.pop then "+pop" else "")

/-- The text of an instruction in listings. -/
def text (i : Instruction) : String :=
  let operand := toString i.operand.toNat
  let rest :=
    match i.opcode with
    | .push | .pop | .store =>
      variant ((Scope.ofByte? i.minor).map Scope.name) i.minor ++ " " ++ operand
    | .binary => variant ((BinaryOp.ofByte? i.minor).map BinaryOp.symbol) i.minor
    | .unary => variant ((UnaryOp.ofByte? i.minor).map UnaryOp.name) i.minor
    | .jump =>
      jumpFlags i.minor ++ " " ++ (if Jump.has i.minor Jump.symbolic then "#" else "@") ++ operand
    | .indirect =>
      variant ((IndirectOp.ofByte? i.minor).map IndirectOp.name) i.minor ++ " " ++ operand
    | .member => (if i.minor = 1 then "store" else "load") ++ " " ++ operand
    | .stack => variant ((StackOp.ofByte? i.minor).map StackOp.name) i.minor ++ " " ++ operand
    | .special => variant ((SpecialOp.ofByte? i.minor).map SpecialOp.name) i.minor ++ " " ++ operand
  column i.opcode.name ++ rest

end Instruction

end TaskMachine

import TaskMachine.Codec.Bytes

/-!
Dialogues: what a command does with the console and with files, step by step. A dialogue says what
to do next and goes on with the answer, so the same command can be carried out by a terminal or
followed in a sandbox.
-/

namespace TaskMachine

/-- A course of steps towards a result. -/
inductive Dialogue (α : Type) where
  | finish (a : α)
  | print (text : String) (next : Unit → Dialogue α)
  /-- Read a line of input, which has its line end still; there is none at the end of input. -/
  | ask (next : Except String (Option String) → Dialogue α)
  | read (path : String) (next : Except String Bytes → Dialogue α)
  | write (path : String) (data : Bytes) (next : Except String Unit → Dialogue α)

namespace Dialogue

/-- A dialogue after another. -/
def andThen {α β : Type} (f : α → Dialogue β) : Dialogue α → Dialogue β
  | finish a => f a
  | print text next => print text fun u => andThen f (next u)
  | ask next => ask fun answer => andThen f (next answer)
  | read path next => read path fun answer => andThen f (next answer)
  | write path data next => write path data fun answer => andThen f (next answer)

instance : Monad Dialogue where
  pure := finish
  bind d f := andThen f d

end Dialogue

/-- A course of steps that may fail with a message. -/
abbrev Course := ExceptT String Dialogue

namespace Course

def print (text : String) : Course Unit :=
  ExceptT.mk (.print text fun _ => .finish (.ok ()))

def ask : Course (Option String) :=
  ExceptT.mk (.ask .finish)

def read (path : String) : Course Bytes :=
  ExceptT.mk (.read path .finish)

def write (path : String) (data : Bytes) : Course Unit :=
  ExceptT.mk (.write path data .finish)

/-- Puts a text in front of the message of a failure. -/
def within {α : Type} (context : String) (course : Course α) : Course α :=
  tryCatch course fun message => throw (context ++ message)

end Course

end TaskMachine

/-!
The settings of a machine: the limits of its processes and how stored data is read.
-/

namespace TaskMachine

/-- What the loader does with a malformed record. -/
inductive LoadPolicy where
  /-- The first malformed record ends the loading. -/
  | strict
  /-- Malformed records are left out and reported. -/
  | skipMalformed
deriving DecidableEq, Repr

def LoadPolicy.name : LoadPolicy → String
  | strict => "strict"
  | skipMalformed => "skip_malformed"

/-- The settings of a machine. -/
structure Config where
  maxCallDepth : Nat := 1000
  maxStackSize : Nat := 10000
  loadPolicy : LoadPolicy := .strict
  /-- The label of the character set of stored strings. -/
  charset : String := "utf-8"
deriving DecidableEq, Repr, Inhabited

end TaskMachine

import TaskMachine.Config
import TaskMachine.Fault
import TaskMachine.Toml.Document

/-!
Settings read from a TOML document. A setting that is not there keeps its default, and entries that
are no settings are ignored.
-/

namespace TaskMachine

namespace Config

def policyOfName? (name : String) : Option LoadPolicy :=
  [LoadPolicy.strict, LoadPolicy.skipMalformed].find? (·.name == name)

/-- Is there nothing in the value? -/
def isVoid : Toml → Bool
  | .list items => items.isEmpty
  | .table _ entries => entries.isEmpty
  | _ => false

/-- A limit: an integer that is not negative. -/
def limit? : Toml → Option Nat
  | .integer n => if 0 ≤ n then some n.toNat else none
  | _ => none

/-- A policy: its name, or a table with only an empty value under its name. -/
def policy? : Toml → Option LoadPolicy
  | .string name => policyOfName? name
  | .table _ [(name, v)] => if isVoid v then policyOfName? name else none
  | _ => none

def label? : Toml → Option String
  | .string s => some s
  | _ => none

/-- The setting of a key, or its default if the key is not there. -/
def setting {α : Type} (entries : List (String × Toml)) (key : String) (read : Toml → Option α)
    (default : α) : Option α :=
  match Toml.lookup key entries with
  | some v => read v
  | none => some default

def ofEntries? (entries : List (String × Toml)) : Option Config := do
  let defaults : Config := {}
  let maxCallDepth ← setting entries "max_call_depth" limit? defaults.maxCallDepth
  let maxStackSize ← setting entries "max_stack_size" limit? defaults.maxStackSize
  let loadPolicy ← setting entries "load_policy" policy? defaults.loadPolicy
  let charset ← setting entries "charset" label? defaults.charset
  some { maxCallDepth, maxStackSize, loadPolicy, charset }

def ofToml (text : String) : Except Fault Config :=
  match Toml.document? text with
  | some (.table _ entries) =>
    match ofEntries? entries with
    | some config => .ok config
    | none => .error (.badFormat "configuration: invalid setting")
  | _ => .error (.badFormat "configuration: invalid document")

end Config

end TaskMachine

/-!
Structured reports and their layout as indented JSON text.
-/

namespace TaskMachine

/-- A structured report. -/
inductive Json where
  | null
  | number (n : Nat)
  | text (s : String)
  | list (items : List Json)
  /-- Fields in the order in which they are written. -/
  | record (fields : List (String × Json))
deriving Inhabited

namespace Json

def ofText? : Option String → Json
  | some s => text s
  | none => null

def ofNumber? : Option Nat → Json
  | some n => number n
  | none => null

/-- A field entered among fields that are sorted by name, in place of one with its name. -/
def insertField (name : String) (v : Json) : List (String × Json) → List (String × Json)
  | [] => [(name, v)]
  | field :: rest =>
    if name < field.1 then (name, v) :: field :: rest
    else if name = field.1 then (name, v) :: rest
    else field :: insertField name v rest

/-- A record whose fields are sorted by name. Of several fields with one name the last counts. -/
def sorted (fields : List (String × Json)) : Json :=
  record (fields.foldl (fun done field => insertField field.1 field.2 done) [])

/-- A control character by its number. -/
def controlEscape (n : Nat) : List Char :=
  let digits := Nat.toDigits 16 n
  '\\' :: 'u' :: List.replicate (4 - digits.length) '0' ++ digits

def escapedChar (c : Char) : List Char :=
  if c = '"' then ['\\', '"']
  else if c = '\\' then ['\\', '\\']
  else if c = '\n' then ['\\', 'n']
  else if c = '\r' then ['\\', 'r']
  else if c = '\t' then ['\\', 't']
  else if c.toNat = 8 then ['\\', 'b']
  else if c.toNat = 12 then ['\\', 'f']
  else if c.toNat < 32 then controlEscape c.toNat
  else [c]

def stringText (s : String) : String :=
  String.ofList ('"' :: s.toList.flatMap escapedChar ++ ['"'])

/-- A line break and the indentation after it. -/
def lineBreak (depth : Nat) : String :=
  "\n" ++ String.ofList (List.replicate (2 * depth) ' ')

/-- Items between brackets, each on a line of its own. -/
def bracketed (left right : String) (depth : Nat) (items : List String) : String :=
  if items.isEmpty then left ++ right
  else
    left ++ lineBreak (depth + 1) ++ String.intercalate ("," ++ lineBreak (depth + 1)) items
      ++ lineBreak depth ++ right

mutual

/-- The text of a report at a depth of indentation. -/
def prettyAt (depth : Nat) : Json → String
  | null => "null"
  | number n => toString n
  | text s => stringText s
  | list items => bracketed "[" "]" depth (prettyItems (depth + 1) items)
  | record fields => bracketed "\x7b" "\x7d" depth (prettyFields (depth + 1) fields)

def prettyItems (depth : Nat) : List Json → List String
  | [] => []
  | item :: rest => prettyAt depth item :: prettyItems depth rest

def prettyFields (depth : Nat) : List (String × Json) → List String
  | [] => []
  | (name, v) :: rest => (stringText name ++ ": " ++ prettyAt depth v) :: prettyFields depth rest

end

/-- The text of a report, indented by two spaces a level. -/
def pretty (report : Json) : String :=
  prettyAt 0 report

end Json

end TaskMachine

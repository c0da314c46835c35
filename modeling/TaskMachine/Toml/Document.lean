import TaskMachine.Toml.Scalar

/-!
Reading TOML documents: keys, values made of others, and the lines of a document. A document is read
as a whole or not at all.
-/

namespace TaskMachine

namespace Toml

/-- How deep values may be nested, and how many steps a key may have. -/
def maxDepth : Nat := 79

/-- May the character stand in a key without quotes? -/
def isBare (c : Char) : Bool :=
  c.isAlphanum || c = '-' || c = '_'

/-- A step of a key: a string on one line or a bare word. -/
def keyStep? (s : List Char) : Option (String × List Char) :=
  match s with
  | '"' :: rest => basicRest s.length [] rest
  | '\'' :: rest => literalRest [] rest
  | _ =>
    let word := s.takeWhile isBare
    if word.isEmpty then none else some (String.ofList word, s.drop word.length)

/-- The steps of a key, latest first, and the text after it and the white space that follows. -/
def keySteps : Nat → List String → Reader (List String)
  | 0, _, _ => none
  | fuel + 1, done, s =>
    match keyStep? (skipSpace s) with
    | none => none
    | some (key, rest) =>
      match skipSpace rest with
      | '.' :: rest => keySteps fuel (key :: done) rest
      | rest => some (key :: done, rest)

/-- A dotted key: the way to its table, and the key there. -/
def key? (s : List Char) : Option ((List String × String) × List Char) :=
  match keySteps maxDepth [] s with
  | some (key :: path, rest) => some ((path.reverse, key), rest)
  | _ => none

/-- The text after white space, line ends and comments. -/
def skipRemarks : Nat → List Char → List Char
  | 0, s => s
  | fuel + 1, s =>
    match skipLines s with
    | '#' :: rest => skipRemarks fuel (rest.dropWhile isPlain)
    | rest => rest

/-- The items of an array, latest first, up to its closing bracket. A comma may follow the last
one.
-/
def listRest (value : Reader Toml) : Nat → List Toml → Reader (List Toml)
  | 0, _, _ => none
  | fuel + 1, done, s =>
    match skipRemarks s.length s with
    | ']' :: rest => some (done, rest)
    | s =>
      match value s with
      | none => none
      | some (item, rest) =>
        match skipRemarks rest.length rest with
        | ',' :: rest => listRest value fuel (item :: done) rest
        | ']' :: rest => some (item :: done, rest)
        | _ => none

def pair? (value : Reader Toml) : Reader ((List String × String) × Toml) := fun s =>
  match key? s with
  | some (key, '=' :: rest) => (value (skipSpace rest)).map fun (v, rest) => ((key, v), rest)
  | _ => none

/-- The entries of a table that is written as a value, up to its closing brace. No comma follows the
last one.
-/
def entriesRest (value : Reader Toml) : Nat → Toml → Reader Toml
  | 0, _, _ => none
  | fuel + 1, t, s =>
    match pair? value s with
    | none => none
    | some (((path, key), v), rest) =>
      match assign path key v t, skipSpace rest with
      | some t, ',' :: rest => entriesRest value fuel t rest
      | some t, '\x7d' :: rest => some (t, rest)
      | _, _ => none

/-- A value with others nested in it down to a depth. -/
def valueTo : Nat → Reader Toml
  | depth, '[' :: rest =>
    match depth with
    | 0 => none
    | depth + 1 =>
      (listRest (valueTo depth) (rest.length + 1) [] rest).map fun (done, rest) =>
        (.list done.reverse, rest)
  | depth, '\x7b' :: rest =>
    match depth with
    | 0 => none
    | depth + 1 =>
      match skipSpace rest with
      | '\x7d' :: rest => some (.table .inline [], rest)
      | rest => entriesRest (valueTo depth) (rest.length + 1) (.table .inline []) rest
  | _, s => scalar? s

/-- A document as far as it is read: its tables, and where the current one is. -/
structure Reading where
  root : Toml
  current : List String

/-- The text after the end of a line: white space and a comment may come before it. -/
def lineRest? (s : List Char) : Option (List Char) :=
  let rest :=
    match skipSpace s with
    | '#' :: rest => rest.dropWhile isPlain
    | rest => rest
  if rest.isEmpty then some [] else lineEnd? rest

def Reading.assign (path : List String) (key : String) (v : Toml) (d : Reading) : Option Reading :=
  (atPath .implied (Toml.assign path key v) d.current d.root).map fun root => { d with root }

def header (d : Reading) (s : List Char) : Option (Reading × List Char) :=
  match s with
  | '[' :: rest =>
    match key? rest with
    | some ((path, key), ']' :: ']' :: rest) =>
      (declareNext path key d.root).map fun root => (⟨root, path ++ [key]⟩, rest)
    | _ => none
  | _ =>
    match key? s with
    | some ((path, key), ']' :: rest) =>
      (declare path key d.root).map fun root => (⟨root, path ++ [key]⟩, rest)
    | _ => none

/-- A line: a header, a key with its value, or neither. -/
def line (d : Reading) (s : List Char) : Option (Reading × List Char) :=
  match skipSpace s with
  | '[' :: rest => header d rest
  | [] => some (d, [])
  | c :: rest =>
    if c = '#' ∨ c = '\n' ∨ c = '\r' then some (d, c :: rest)
    else
      match pair? (valueTo maxDepth) (c :: rest) with
      | some (((path, key), v), rest) => (d.assign path key v).map fun d => (d, rest)
      | none => none

def lines : Nat → Reading → List Char → Option Toml
  | 0, _, _ => none
  | _ + 1, d, [] => some d.root
  | fuel + 1, d, s =>
    match line d s with
    | none => none
    | some (d, rest) =>
      match lineRest? rest with
      | some rest => lines fuel d rest
      | none => none

/-- A document. A mark of the byte order may stand at its beginning. -/
def document? (text : String) : Option Toml :=
  let s :=
    match text.toList with
    | c :: rest => if c.toNat = 0xFEFF then rest else c :: rest
    | [] => []
  lines (s.length + 1) ⟨empty, []⟩ s

end Toml

end TaskMachine

/-!
TOML documents as trees, and how keys and headers enter tables into them. Each rule against defining
something twice is a case in which entering has no result.
-/

namespace TaskMachine

namespace Toml

/-- How a table came about. -/
inductive Origin where
  /-- The document itself, or a table with a header of its own. -/
  | header
  /-- A table on the way to one with a header. It may get a header of its own later. -/
  | implied
  /-- A table on the way of a dotted key. Further dotted keys may go through it. -/
  | dotted
  /-- A table written as a value, which is complete. -/
  | inline
deriving DecidableEq, Repr, Inhabited

end Toml

inductive Toml where
  | string (s : String)
  | integer (n : Int)
  /-- A truth value, a float or a date. -/
  | other
  | list (items : List Toml)
  | table (origin : Toml.Origin) (entries : List (String × Toml))
  /-- The tables of a repeated header, latest first. -/
  | tables (items : List Toml)
deriving Inhabited

namespace Toml

def lookup (key : String) : List (String × Toml) → Option Toml
  | [] => none
  | (k, v) :: rest => if k = key then some v else lookup key rest

/-- Enters a value in place of the one that its key has. -/
def replace (key : String) (v : Toml) : List (String × Toml) → List (String × Toml)
  | [] => [(key, v)]
  | (k, w) :: rest => if k = key then (k, v) :: rest else (k, w) :: replace key v rest

/-- The table that a step of a path leads into. It may not be complete already. A step of a dotted
key may not lead into a table that has a header, either.
-/
def openTable (created : Origin) (t : Toml) : Option Toml :=
  match t with
  | .table .inline _ => none
  | .table .header entries => if created = .dotted then none else some (.table .header entries)
  | .table origin entries => some (.table origin entries)
  | _ => none

/-- Changes the table at the end of a path. Tables that are missing on the way are created. A
repeated header stands for its latest table.
-/
def atPath (created : Origin) (change : Toml → Option Toml) : List String → Toml → Option Toml
  | [], t => change t
  | key :: path, .table origin entries => do
    let child ←
      match (lookup key entries).getD (.table created []) with
      | .tables (latest :: earlier) =>
        (atPath created change path latest).map fun latest => .tables (latest :: earlier)
      | child => (openTable created child).bind (atPath created change path)
    some (.table origin (replace key child entries))
  | _, _ => none

/-- Enters a value under a dotted key. The table that it comes into must be of the dotted key's own
making, and the key must be new.
-/
def assign (path : List String) (key : String) (v : Toml) : Toml → Option Toml :=
  atPath .dotted (fun t =>
    match t with
    | .table origin entries =>
      if (origin = .dotted) = path.isEmpty then none
      else if (lookup key entries).isSome then none
      else some (.table origin (replace key v entries))
    | _ => none) path

/-- Opens the table of a header. -/
def declare (path : List String) (key : String) : Toml → Option Toml :=
  atPath .implied (fun t =>
    match t with
    | .table origin entries =>
      match lookup key entries with
      | none => some (.table origin (replace key (.table .header []) entries))
      | some (.table .implied sub) =>
        some (.table origin (replace key (.table .header sub) entries))
      | some _ => none
    | _ => none) path

/-- Opens another table of a repeated header. -/
def declareNext (path : List String) (key : String) : Toml → Option Toml :=
  atPath .implied (fun t =>
    match t with
    | .table origin entries =>
      match lookup key entries with
      | none => some (.table origin (replace key (.tables [.table .header []]) entries))
      | some (.tables items) =>
        some (.table origin (replace key (.tables (.table .header [] :: items)) entries))
      | some _ => none
    | _ => none) path

def empty : Toml :=
  .table .header []

end Toml

end TaskMachine

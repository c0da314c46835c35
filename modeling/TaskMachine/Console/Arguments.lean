import TaskMachine.Decimal.Reading

/-!
The arguments of the command line. Arguments are read from left to right, and the first one that
decides the outcome does: a mistake, or a request for help or for the version. A command has options
of its own, and the common ones may stand at every level.
-/

namespace TaskMachine

namespace Console

/-- What the program is asked to do. -/
inductive Command where
  /-- Write the sample task. -/
  | demo (out : String) (limit : Int32)
  /-- Run the processes of a file. -/
  | run (file : String) (trace : Bool) (turns : Nat) (save : Option String)
  /-- Show the contents of a file. -/
  | dump (file : String)
  /-- Show the number of a stored real. -/
  | decodeReal (digits : String)
  /-- Show the stored form of a number. -/
  | encodeReal (x : Float)

/-- A command with the settings file to use. -/
structure Invocation where
  config : Option String
  command : Command

/-- What the arguments amount to. -/
inductive Request where
  | invoke (i : Invocation)
  | help
  | version
  | misuse

/-- What may stand at a level of the command line. -/
structure Level where
  /-- The long names of options that take a value, each with a test of the value. -/
  options : List (String × (String → Bool)) := []
  /-- The long names of flags. -/
  flags : List String := []
  /-- The names of the levels below. -/
  subcommands : List String := []
  /-- A test for each positional argument. -/
  positionals : List (String → Bool) := []
  /-- A positional argument may begin with a hyphen. -/
  allowsHyphens : Bool := false
  /-- The version may be asked for. -/
  hasVersion : Bool := false

/-- What was given at a level. -/
structure Given where
  options : List (String × String) := []
  flags : List String := []
  positionals : List String := []
deriving Inhabited

/-- How reading a level ends. -/
inductive Reading where
  /-- All arguments are read. -/
  | complete (g : Given)
  /-- A level below begins. -/
  | descend (g : Given) (name : String) (rest : List String)
  | help
  | version
  | misuse

/-- Is the text a path? Only the empty text is none. -/
def isPath (s : String) : Bool :=
  !s.isEmpty

/-- The number of an option: an integer of 64 bits within bounds. -/
def integerWithin? (least most : Int) (s : String) : Option Int := do
  let n ← NumberText.integer? s.toList
  if least ≤ n ∧ n ≤ most then some n else none

def limit? (s : String) : Option Int32 :=
  (integerWithin? (-2147483648) 2147483647 s).map Int32.ofInt

def turns? (s : String) : Option Nat :=
  (integerWithin? 0 4294967295 s).map Int.toNat

def number? (s : String) : Option Float :=
  NumberText.float? s.toList

/-- A level with what is common to all. -/
def Level.common (l : Level) : Level :=
  { l with options := ("config", isPath) :: l.options, flags := "verbose" :: l.flags }

def mainLevel : Level :=
  { subcommands := ["demo", "run", "dump", "real"], hasVersion := true : Level }.common

def commandLevel (name : String) : Level :=
  match name with
  | "demo" =>
    { options := [("limit", fun s => (limit? s).isSome)], positionals := [isPath] : Level }.common
  | "run" =>
    { options := [("turns", fun s => (turns? s).isSome), ("save", isPath)], flags := ["trace"],
      positionals := [isPath] : Level }.common
  | "dump" => { positionals := [isPath] : Level }.common
  | _ => { subcommands := ["decode", "encode"] : Level }.common

def conversionLevel (name : String) : Level :=
  match name with
  | "decode" => { positionals := [fun _ => true] : Level }.common
  | _ => { positionals := [fun s => (number? s).isSome], allowsHyphens := true : Level }.common

/-- Enters a flag, which may be given once. -/
def Given.flag? (g : Given) (name : String) : Option Given :=
  if g.flags.contains name then none else some { g with flags := name :: g.flags }

/-- Enters an option, which may be given once with a value that passes its test. -/
def Given.option? (g : Given) (l : Level) (name value : String) : Option Given :=
  match l.options.find? (·.1 == name) with
  | some (_, isValid) =>
    if isValid value && !(g.options.any (·.1 == name)) then
      some { g with options := (name, value) :: g.options }
    else none
  | none => none

/-- Enters a positional argument, if there is a place for it and it passes the test. -/
def Given.positional? (g : Given) (l : Level) (value : String) : Option Given :=
  match l.positionals[g.positionals.length]? with
  | some isValid =>
    if isValid value then some { g with positionals := g.positionals ++ [value] } else none
  | none => none

/-- May the next positional argument begin with a hyphen? -/
def takesHyphens (l : Level) (g : Given) : Bool :=
  l.allowsHyphens && g.positionals.length < l.positionals.length

/-- A token of the command line. -/
inductive Token where
  /-- Two hyphens, after which all arguments are positional. -/
  | separator
  | long (name : String) (value : Option String)
  | short (letters : List Char)
  | plain
deriving DecidableEq

def splitValue (s : List Char) : String × Option String :=
  (String.ofList (s.takeWhile (· != '=')),
    match s.dropWhile (· != '=') with
    | _ :: value => some (String.ofList value)
    | [] => none)

def token (arg : String) : Token :=
  match arg.toList with
  | ['-', '-'] => .separator
  | '-' :: '-' :: rest =>
    let (name, value) := splitValue rest
    .long name value
  | '-' :: c :: rest => .short (c :: rest)
  | _ => .plain

def isLetter (l : Level) (c : Char) : Bool :=
  c = 'v' || c = 'h' || (c = 'V' && l.hasVersion)

/-- Reads the letters of a group of flags. -/
def readLetters (l : Level) : Given → List Char → Except Reading Given
  | g, [] => .ok g
  | g, c :: rest =>
    if c = 'h' then .error .help
    else if c = 'V' ∧ l.hasVersion then .error .version
    else if c = 'v' then
      match g.flag? "verbose" with
      | some g => readLetters l g rest
      | none => .error .misuse
    else .error .misuse

def readPositionals (l : Level) : Given → List String → Reading
  | g, [] => .complete g
  | g, arg :: rest =>
    match g.positional? l arg with
    | some g => readPositionals l g rest
    | none => .misuse

/-- Can the argument be the value of the option before it? -/
def isValue (arg : String) : Bool :=
  token arg == .plain

/-- Reads the arguments of a level. -/
def readLevel (l : Level) : Given → List String → Reading
  | g, [] => .complete g
  | g, arg :: rest =>
    if l.subcommands.contains arg then .descend g arg rest
    else if arg = "help" ∧ !l.subcommands.isEmpty then .descend g arg rest
    else
      match token arg with
      | .separator => readPositionals l g rest
      | .long "help" none => .help
      | .long "version" none => if l.hasVersion then .version else .misuse
      | .long name value =>
        if l.flags.contains name then
          match value, g.flag? name with
          | none, some g => readLevel l g rest
          | _, _ => .misuse
        else if l.options.any (·.1 == name) then
          match value, rest with
          | some value, rest =>
            match g.option? l name value with
            | some g => readLevel l g rest
            | none => .misuse
          | none, value :: rest =>
            match isValue value, g.option? l name value with
            | true, some g => readLevel l g rest
            | _, _ => .misuse
          | none, [] => .misuse
        else if takesHyphens l g then
          match g.positional? l arg with
          | some g => readLevel l g rest
          | none => .misuse
        else .misuse
      | .short letters =>
        if takesHyphens l g && !letters.all (isLetter l) then
          match g.positional? l arg with
          | some g => readLevel l g rest
          | none => .misuse
        else
          match readLetters l g letters with
          | .ok g => readLevel l g rest
          | .error ending => ending
      | .plain =>
        match g.positional? l arg with
        | some g => readLevel l g rest
        | none => .misuse

def Given.value? (g : Given) (name : String) : Option String :=
  (g.options.find? (·.1 == name)).map (·.2)

def commandOf (name : String) (g : Given) : Option Command :=
  match name, g.positionals with
  | "demo", [out] => some (.demo out (((g.value? "limit").bind limit?).getD 50))
  | "run", [file] =>
    let turns := ((g.value? "turns").bind turns?).getD 1
    some (.run file (g.flags.contains "trace") turns (g.value? "save"))
  | "dump", [file] => some (.dump file)
  | "decode", [digits] => some (.decodeReal digits)
  | "encode", [number] => (number? number).map .encodeReal
  | _, _ => none

/-- The request of a complete level; the settings file of the deepest level that has one counts. -/
def requestOf (outer : Option String) (name : String) (g : Given) : Request :=
  match commandOf name g with
  | some command => .invoke ⟨(g.value? "config").or outer, command⟩
  | none => .misuse

/-- Is help offered on a path of commands? -/
def hasHelp (l : Level) (below : String → Level) : List String → Bool
  | [] => true
  | name :: rest =>
    l.subcommands.contains name && (rest.isEmpty || hasHelp (below name) conversionLevel rest)
      || (name = "help" && rest.isEmpty)

/-- The request for help on a path of commands. -/
def helpOn (l : Level) (below : String → Level) (path : List String) : Request :=
  if hasHelp l below path then .help else .misuse

/-- The request of an ending that is neither complete nor goes further down. -/
def requestOfEnding : Reading → Request
  | .help => .help
  | .version => .version
  | _ => .misuse

/-- Reads the arguments of a command, which may be a conversion of reals. -/
def readCommand (outer : Option String) (name : String) (args : List String) : Request :=
  match readLevel (commandLevel name) {} args with
  | .complete g => requestOf outer name g
  | .descend g name rest =>
    if name = "help" then helpOn (commandLevel "real") conversionLevel rest
    else
      match readLevel (conversionLevel name) {} rest with
      | .complete h => requestOf ((g.value? "config").or outer) name h
      | ending => requestOfEnding ending
  | ending => requestOfEnding ending

/-- Reads the arguments of the program. There must be a command. -/
def request (args : List String) : Request :=
  match readLevel mainLevel {} args with
  | .descend g name rest =>
    if name = "help" then helpOn mainLevel commandLevel rest
    else readCommand (g.value? "config") name rest
  | ending => requestOfEnding ending

end Console

end TaskMachine

import TaskMachine.Codec.Hex
import TaskMachine.Decimal.Reading
import TaskMachine.Toml.Basic

/-!
The values of TOML that are not made of others: strings, numbers, truth values and dates. Every
reader takes its text off the front and gives what is left.
-/

namespace TaskMachine

namespace Toml

/-- A reader of text. -/
abbrev Reader (α : Type) := List Char → Option (α × List Char)

def isSpace (c : Char) : Bool :=
  c = ' ' || c = '\t'

/-- May the character stand in a line of text? Control characters other than a tab may not. -/
def isPlain (c : Char) : Bool :=
  c = '\t' || (0x20 ≤ c.toNat && c.toNat ≠ 0x7F)

def skipSpace (s : List Char) : List Char :=
  s.dropWhile isSpace

def lineEnd? : List Char → Option (List Char)
  | '\n' :: rest => some rest
  | '\r' :: '\n' :: rest => some rest
  | _ => none

/-- The text after a given one. -/
def after? : List Char → List Char → Option (List Char)
  | [], s => some s
  | c :: front, d :: rest => if c = d then after? front rest else none
  | _ :: _, [] => none

def hexNumber? (digits : List Char) : Option Nat :=
  digits.foldlM (fun n c => (Hex.digit? c).map fun d => 16 * n + d) 0

/-- The character of a code point in `n` hexadecimal digits. -/
def codePoint (n : Nat) (s : List Char) : Option (Char × List Char) := do
  let digits := s.take n
  if digits.length = n then
    let code ← hexNumber? digits
    if code.isValidChar then some (Char.ofNat code, s.drop n) else none
  else none

/-- The character of an escape, after its backslash. -/
def escape : List Char → Option (Char × List Char)
  | 'b' :: rest => some (Char.ofNat 8, rest)
  | 't' :: rest => some ('\t', rest)
  | 'n' :: rest => some ('\n', rest)
  | 'f' :: rest => some (Char.ofNat 12, rest)
  | 'r' :: rest => some ('\r', rest)
  | '"' :: rest => some ('"', rest)
  | '\\' :: rest => some ('\\', rest)
  | 'u' :: rest => codePoint 4 rest
  | 'U' :: rest => codePoint 8 rest
  | _ => none

/-- The rest of a string on one line. -/
def basicRest : Nat → List Char → Reader String
  | _, done, '"' :: rest => some (String.ofList done.reverse, rest)
  | fuel + 1, done, '\\' :: rest =>
    match escape rest with
    | some (c, rest) => basicRest fuel (c :: done) rest
    | none => none
  | fuel + 1, done, c :: rest => if isPlain c then basicRest fuel (c :: done) rest else none
  | _, _, _ => none

/-- The rest of a literal string on one line. -/
def literalRest : List Char → Reader String
  | done, '\'' :: rest => some (String.ofList done.reverse, rest)
  | done, c :: rest => if isPlain c then literalRest (c :: done) rest else none
  | _, [] => none

/-- The text after white space and line ends. -/
def skipLines : List Char → List Char
  | '\r' :: '\n' :: rest => skipLines rest
  | c :: rest => if isSpace c || c = '\n' then skipLines rest else c :: rest
  | [] => []

/-- The rest of a string over several lines that is closed by three of `quote`. Up to two quotes may
stand before the closing ones. Only a string in double quotes has escapes.
-/
def multilineRest (quote : Char) : Nat → List Char → Reader String
  | 0, _, _ => none
  | fuel + 1, done, s =>
    let quotes := s.takeWhile (· = quote)
    if 3 ≤ quotes.length then
      let kept := min (quotes.length - 3) 2
      some (String.ofList (List.replicate kept quote ++ done).reverse, s.drop (kept + 3))
    else
      match s with
      | [] => none
      | c :: rest =>
        if c = '\\' ∧ quote = '"' then
          match lineEnd? (skipSpace rest), escape rest with
          | some joined, _ => multilineRest quote fuel done (skipLines joined)
          | none, some (e, rest) => multilineRest quote fuel (e :: done) rest
          | none, none => none
        else
          match lineEnd? s with
          | some rest => multilineRest quote fuel ('\n' :: done) rest
          | none => if isPlain c then multilineRest quote fuel (c :: done) rest else none

/-- A string of any kind. A line end right after three opening quotes does not count. -/
def string? (s : List Char) : Option (String × List Char) :=
  match s with
  | '"' :: '"' :: '"' :: rest => multilineRest '"' (s.length + 1) [] ((lineEnd? rest).getD rest)
  | '\'' :: '\'' :: '\'' :: rest => multilineRest '\'' (s.length + 1) [] ((lineEnd? rest).getD rest)
  | '"' :: rest => basicRest s.length [] rest
  | '\'' :: rest => literalRest [] rest
  | _ => none

/-- Digits with single underscores between them, without the underscores; latest first after
`done`.
-/
def digitRun (isDigit : Char → Bool) : List Char → List Char → Option (List Char × List Char)
  | done, '_' :: c :: rest =>
    if done.isEmpty || !isDigit c then none else digitRun isDigit (c :: done) rest
  | done, c :: rest =>
    if isDigit c then digitRun isDigit (c :: done) rest
    else if c = '_' || done.isEmpty then none
    else some (done.reverse, c :: rest)
  | done, [] => if done.isEmpty then none else some (done.reverse, [])

/-- The digits of a decimal number. One that begins with a zero has no further digit. -/
def decimalRun : List Char → Option (List Char × List Char)
  | '0' :: rest => some (['0'], rest)
  | s => digitRun Char.isDigit [] s

/-- A number in another base, after its two characters that name the base. -/
def based (base : Nat) (s : List Char) : Option (Int × List Char) := do
  let isDigit := fun c => (Hex.digit? c).any fun d => d < base
  let (digits, rest) ← digitRun isDigit [] s
  let n := digits.foldl (fun n c => base * n + (Hex.digit? c).getD 0) 0
  if n < 0x8000000000000000 then some (n, rest) else none

/-- The fraction of a float with its point, if there is one. -/
def fraction? : Reader (List Char)
  | '.' :: rest => (digitRun Char.isDigit [] rest).map fun (digits, rest) => ('.' :: digits, rest)
  | s => some ([], s)

/-- The exponent of a float with its letter, if there is one. -/
def exponent? : Reader (List Char)
  | c :: rest =>
    if c = 'e' ∨ c = 'E' then
      let (sign, rest) :=
        match rest with
        | '+' :: rest => (['+'], rest)
        | '-' :: rest => (['-'], rest)
        | rest => ([], rest)
      (digitRun Char.isDigit [] rest).map fun (digits, rest) => ('e' :: sign ++ digits, rest)
    else some ([], c :: rest)
  | [] => some ([], [])

/-- A decimal integer of 64 bits or a finite float. -/
def decimal? (s : List Char) : Option (Toml × List Char) := do
  let (negative, unsigned) := NumberText.splitSign s
  match after? ['i', 'n', 'f'] unsigned, after? ['n', 'a', 'n'] unsigned with
  | some rest, _ | _, some rest => some (.other, rest)
  | none, none =>
    let (whole, rest) ← decimalRun unsigned
    let (fraction, rest) ← fraction? rest
    let (exponent, rest) ← exponent? rest
    if fraction.isEmpty && exponent.isEmpty then
      let n : Int := NumberText.ofDigits whole
      let n := if negative then -n else n
      if -0x8000000000000000 ≤ n ∧ n < 0x8000000000000000 then some (.integer n, rest) else none
    else
      let x ← NumberText.float? (whole ++ fraction ++ exponent)
      if x.isFinite || negative then some (.other, rest) else none

/-- An unsigned number of exactly `n` digits. -/
def fixedNumber (n : Nat) (s : List Char) : Option (Nat × List Char) :=
  let digits := s.take n
  if digits.length = n ∧ digits.all Char.isDigit then some (NumberText.ofDigits digits, s.drop n)
  else none

def daysOf (year month : Nat) : Nat :=
  if month = 2 then
    if (year % 4 = 0 ∧ year % 100 ≠ 0) ∨ year % 400 = 0 then 29 else 28
  else if month = 4 ∨ month = 6 ∨ month = 9 ∨ month = 11 then 30
  else 31

def date? (s : List Char) : Option (List Char) := do
  let (year, s) ← fixedNumber 4 s
  let s ← after? ['-'] s
  let (month, s) ← fixedNumber 2 s
  let s ← after? ['-'] s
  let (day, s) ← fixedNumber 2 s
  if 1 ≤ month ∧ month ≤ 12 ∧ 1 ≤ day ∧ day ≤ daysOf year month then some s else none

def time? (s : List Char) : Option (List Char) := do
  let (hour, s) ← fixedNumber 2 s
  let s ← after? [':'] s
  let (minute, s) ← fixedNumber 2 s
  let s ← after? [':'] s
  let (second, s) ← fixedNumber 2 s
  if hour ≤ 23 ∧ minute ≤ 59 ∧ second ≤ 60 then
    match s with
    | '.' :: rest =>
      let digits := rest.takeWhile Char.isDigit
      if digits.isEmpty then none else some (rest.drop digits.length)
    | _ => some s
  else none

/-- The text after an offset from universal time, if there is one. -/
def offset? : List Char → Option (List Char)
  | c :: rest =>
    if c = 'Z' ∨ c = 'z' then some rest
    else if c = '+' ∨ c = '-' then do
      let (hour, s) ← fixedNumber 2 rest
      let s ← after? [':'] s
      let (minute, s) ← fixedNumber 2 s
      if hour ≤ 23 ∧ minute ≤ 59 then some s else none
    else some (c :: rest)
  | [] => some []

/-- The text after a date, a time, or a date with a time. -/
def moment? (s : List Char) : Option (List Char) :=
  match date? s with
  | none => time? s
  | some rest =>
    match rest with
    | c :: more =>
      if c = 'T' ∨ c = 't' then (time? more).bind offset?
      else if c = ' ' then
        match time? more with
        | some more => offset? more
        | none => some rest
      else some rest
    | [] => some []

/-- Does a text begin like a date or a time? -/
def isMoment (s : List Char) : Bool :=
  let digits := s.takeWhile Char.isDigit
  (digits.length = 4 && (s.drop 4).head? == some '-')
    || (digits.length = 2 && (s.drop 2).head? == some ':')

def number? (s : List Char) : Option (Toml × List Char) :=
  let integer := fun (n, rest) => (Toml.integer n, rest)
  match s with
  | '0' :: 'x' :: rest => (based 16 rest).map integer
  | '0' :: 'o' :: rest => (based 8 rest).map integer
  | '0' :: 'b' :: rest => (based 2 rest).map integer
  | _ => if isMoment s then (moment? s).map fun rest => (.other, rest) else decimal? s

def boolean? (s : List Char) : Option (Toml × List Char) :=
  ((after? "true".toList s).or (after? "false".toList s)).map fun rest => (.other, rest)

/-- A value that is not made of others. -/
def scalar? (s : List Char) : Option (Toml × List Char) :=
  match s with
  | [] => none
  | c :: _ =>
    if c = '"' ∨ c = '\'' then (string? s).map fun (text, rest) => (.string text, rest)
    else if c = 't' ∨ c = 'f' then boolean? s
    else number? s

end Toml

end TaskMachine

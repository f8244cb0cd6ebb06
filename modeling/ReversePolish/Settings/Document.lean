import ReversePolish.Numeral

/-! # Settings documents

A document assigns values to keys, line by line, in the notation of TOML. It is read as far as
settings go: of the values there are integers, strings, arrays and tables without entries, and
tables with one entry that is such an array or table. Nothing but the start of the program knows of
this notation. -/

namespace ReversePolish.Settings.Document

/-- A value in a document. -/
inductive Node where
  | integer (n : Int)
  | text (s : String)
  /-- An array or a table without entries. -/
  | hollow
  /-- A table whose only entry is hollow. -/
  | tagged (key : String)
  deriving DecidableEq, Repr

/-- A line of a document that says something. Keys are given from the outermost table inwards. -/
inductive Entry where
  /-- The value of a key. -/
  | assign (path : List String) (node : Node)
  /-- The table in which the keys of the next lines are. -/
  | header (path : List String)
  deriving DecidableEq, Repr

/-- What was read, and the text behind it. -/
abbrev Reader (α : Type) := List Char → Option (α × List Char)

/-! ## Spaces, comments and line ends -/

def isSpace (c : Char) : Bool := c = ' ' || c = '\t'

/-- Whether a character may stand in comments and strings as it is. -/
def isPrintable (c : Char) : Bool := c = '\t' || (' ' ≤ c && c ≠ '\x7f')

def skipSpaces (cs : List Char) : List Char := cs.dropWhile isSpace

/-- The text behind a comment, if there is one. -/
def skipComment : List Char → List Char
  | '#' :: rest => rest.dropWhile isPrintable
  | cs => cs

/-- The text behind a line end. -/
def newline? : List Char → Option (List Char)
  | '\n' :: rest => some rest
  | '\r' :: '\n' :: rest => some rest
  | _ => none

/-- The text behind spaces and line ends. -/
def skipBlankLines : List Char → List Char
  | '\r' :: '\n' :: rest => skipBlankLines rest
  | c :: rest => if isSpace c || c = '\n' then skipBlankLines rest else c :: rest
  | [] => []

/-- The text behind the rest of a line that says nothing. -/
def lineEnd? (cs : List Char) : Option (List Char) :=
  match skipComment (skipSpaces cs) with
  | [] => some []
  | rest => newline? rest

/-- The text behind spaces and lines that say nothing, of which there are at most as many as the
first argument. -/
def skipLines : Nat → List Char → List Char
  | 0, cs => skipSpaces cs
  | n + 1, cs =>
    match newline? (skipComment (skipSpaces cs)) with
    | some rest => skipLines n rest
    | none => skipSpaces cs

/-- The text behind a character, with spaces around it. -/
def symbol? (c : Char) (cs : List Char) : Option (List Char) :=
  match skipSpaces cs with
  | d :: rest => if c = d then some (skipSpaces rest) else none
  | [] => none

/-! ## Strings -/

/-- The character of an escape in hexadecimal digits. -/
def codePoint? (count : Nat) (cs : List Char) : Option (Char × List Char) :=
  let digits := cs.take count
  let n := Numeral.value 16 digits
  if digits.length = count && digits.all (Numeral.isDigitOf 16) && n.isValidChar then
    some (Char.ofNat n, cs.drop count)
  else none

/-- The character of an escape, from behind its backslash. -/
def escape? : Reader Char
  | 'b' :: rest => some ('\x08', rest)
  | 't' :: rest => some ('\t', rest)
  | 'n' :: rest => some ('\n', rest)
  | 'f' :: rest => some ('\x0c', rest)
  | 'r' :: rest => some ('\r', rest)
  | '"' :: rest => some ('"', rest)
  | '\\' :: rest => some ('\\', rest)
  | 'u' :: rest => codePoint? 4 rest
  | 'U' :: rest => codePoint? 8 rest
  | _ => none

/-- The notations of strings: the quote, three of which enclose several lines. -/
structure Quotes where
  quote : Char
  long : Bool

namespace Quotes

/-- Only double quotes have escapes. -/
def escapes (q : Quotes) : Bool := q.quote = '"'

/-- The text behind the closing quotes, with the quotes that belong to the string: a string of
several lines may end in up to two of them. -/
def close? (q : Quotes) : Reader (List Char) := fun cs =>
  let run := (cs.takeWhile (· = q.quote)).length
  if q.long then
    if run < 3 then none
    else
      let kept := min (run - 3) 2
      some (List.replicate kept q.quote, cs.drop (kept + 3))
  else if run = 0 then none
  else some ([], cs.drop 1)

/-- The next characters of a string. A backslash at the end of a line takes all spaces and line ends
behind it away. -/
def next? (q : Quotes) : Reader (List Char)
  | '\\' :: rest =>
    if !q.escapes then some (['\\'], rest)
    else if q.long && (newline? (skipSpaces rest)).isSome then
      some ([], skipBlankLines rest)
    else (escape? rest).map fun (c, after) => ([c], after)
  | c :: rest =>
    if isPrintable c then some ([c], rest)
    else if q.long then (newline? (c :: rest)).map (['\n'], ·)
    else none
  | [] => none

/-- The rest of a string in as many steps as the first argument. -/
def body? (q : Quotes) : Nat → Reader (List Char)
  | 0, _ => none
  | n + 1, cs =>
    match q.close? cs with
    | some closed => some closed
    | none => do
      let (start, rest) ← q.next? cs
      let (text, rest) ← q.body? n rest
      some (start ++ text, rest)

end Quotes

/-- A string on one line. -/
def shortString? : Reader String
  | c :: rest =>
    if c = '"' || c = '\'' then
      (Quotes.body? ⟨c, false⟩ (rest.length + 1) rest).map fun (s, after) =>
        (String.ofList s, after)
    else none
  | [] => none

/-- A string, on several lines if its quotes are threefold; then a line end right after them does
not belong to it. -/
def string? : Reader String := fun cs =>
  match cs with
  | a :: b :: c :: rest =>
    if (a = '"' || a = '\'') && a = b && b = c then
      let rest := (newline? rest).getD rest
      (Quotes.body? ⟨a, true⟩ (rest.length + 1) rest).map fun (s, after) =>
        (String.ofList s, after)
    else shortString? cs
  | _ => shortString? cs

/-! ## Integers -/

/-- Digits, between two of which an underscore may stand. -/
def digits? (radix : Radix) : Reader Nat := fun cs =>
  let part (c : Char) := c = '_' || Numeral.isDigitOf radix.base c
  let groups := (cs.takeWhile part).splitOnP (· = '_')
  if groups.any List.isEmpty then none
  else some (Numeral.value radix.base groups.flatten, cs.dropWhile part)

/-- A decimal number without zeros in front. -/
def decimal? (cs : List Char) : Option (Nat × List Char) :=
  match cs with
  | '0' :: rest => if rest.head?.any (fun c => c = '_' || c.isDigit) then none else some (0, rest)
  | _ => digits? .decimal cs

/-- A decimal integer with or without sign, or one without sign in another radix, of 64 bits. -/
def integer? : Reader Int := fun cs => do
  let (n, rest) ← match cs with
    | '+' :: rest => (decimal? rest).map fun (n, after) => ((n : Int), after)
    | '-' :: rest => (decimal? rest).map fun (n, after) => (-(n : Int), after)
    | _ =>
      match Radix.ofMark? (cs.take 2) with
      | some radix => (digits? radix (cs.drop 2)).map fun (n, after) => ((n : Int), after)
      | none => (decimal? cs).map fun (n, after) => ((n : Int), after)
  if Int64.minValue.toInt ≤ n && n ≤ Int64.maxValue.toInt then some (n, rest) else none

/-! ## Keys and values -/

def isKeyChar (c : Char) : Bool := c.isAlphanum || c = '_' || c = '-'

/-- A key without dots. -/
def key? : Reader String := fun cs =>
  let bare := cs.takeWhile isKeyChar
  if bare.isEmpty then shortString? cs else some (String.ofList bare, cs.dropWhile isKeyChar)

/-- Keys between dots, at most as many as the first argument. -/
def path? : Nat → Reader (List String)
  | 0, _ => none
  | n + 1, cs => do
    let (key, rest) ← key? (skipSpaces cs)
    match symbol? '.' rest with
    | some rest => (path? n rest).map fun (keys, after) => (key :: keys, after)
    | none => some ([key], rest)

/-- An array or a table without entries. -/
def hollow? (cs : List Char) : Option (List Char) :=
  match cs with
  | '[' :: rest =>
    match skipLines rest.length rest with
    | ']' :: after => some after
    | _ => none
  | '{' :: rest =>
    match skipSpaces rest with
    | '}' :: after => some after
    | _ => none
  | _ => none

/-- A table whose only entry is hollow. -/
def tagged? : Reader String
  | '{' :: rest => do
    let (key, rest) ← key? (skipSpaces rest)
    let rest ← hollow? (← symbol? '=' rest)
    match skipSpaces rest with
    | '}' :: after => some (key, after)
    | _ => none
  | _ => none

def node? : Reader Node := fun cs =>
  match string? cs, integer? cs, hollow? cs, tagged? cs with
  | some (s, rest), _, _, _ => some (.text s, rest)
  | none, some (n, rest), _, _ => some (.integer n, rest)
  | none, none, some rest, _ => some (.hollow, rest)
  | none, none, none, some (key, rest) => some (.tagged key, rest)
  | none, none, none, none => none

/-! ## Documents -/

/-- A line that says something, in the table of the given path. -/
def entry? (table : List String) : Reader Entry := fun cs =>
  match cs with
  | '[' :: rest => do
    let (path, rest) ← path? rest.length rest
    match skipSpaces rest with
    | ']' :: after => some (.header path, after)
    | _ => none
  | _ => do
    let (path, rest) ← path? cs.length cs
    let (node, rest) ← node? (← symbol? '=' rest)
    some (.assign (table ++ path) node, rest)

/-- The table in which the next keys are. -/
def Entry.table (before : List String) : Entry → List String
  | .header path => path
  | .assign .. => before

/-- The entries of a text, in as many lines as the first argument. -/
def entries? (table : List String) : Nat → List Char → Option (List Entry)
  | 0, _ => none
  | n + 1, cs =>
    match skipSpaces cs, lineEnd? cs with
    | [], _ | _, some [] => some []
    | _, some rest => entries? table n rest
    | line, none => do
      let (entry, rest) ← entry? table line
      let rest ← lineEnd? rest
      let entries ← entries? (entry.table table) n rest
      some (entry :: entries)

/-- The entries of a document, unless some line is no entry. -/
def read? (text : String) : Option (List Entry) :=
  let cs := text.toList
  let cs := if cs.head? = some '\ufeff' then cs.drop 1 else cs
  entries? [] (cs.length + 2) cs

end ReversePolish.Settings.Document

import ReversePolish.Terminal.Launch

/-! # Command line arguments

The notation in which options are given to the program. Nothing but the start of the program knows
of it. -/

namespace ReversePolish.Terminal

inductive Request where
  | calculate (options : Options)
  | help
  | version
  deriving DecidableEq, Repr

/-- The options of the command line. -/
inductive Flag where
  | line
  | settingsFile
  | listOperators
  | listUnits
  | help
  | version
  deriving DecidableEq, Repr

namespace Flag

def ofLetter? : Char → Option Flag
  | 'e' => some .line
  | 'c' => some .settingsFile
  | 'h' => some .help
  | 'V' => some .version
  | _ => none

def ofName? : String → Option Flag
  | "eval" => some .line
  | "config" => some .settingsFile
  | "list-operators" => some .listOperators
  | "list-units" => some .listUnits
  | "help" => some .help
  | "version" => some .version
  | _ => none

def takesValue : Flag → Bool
  | line | settingsFile => true
  | _ => false

end Flag

/-- The options with one more. Only lines may be given more than once, and a file has a name. -/
def Options.set? (o : Options) (flag : Flag) (value : String) : Option Options :=
  match flag with
  | .line => some { o with lines := o.lines ++ [value] }
  | .settingsFile =>
    if o.settingsFile.isSome || value.isEmpty then none
    else some { o with settingsFile := some value }
  | .listOperators => if o.listOperators then none else some { o with listOperators := true }
  | .listUnits => if o.listUnits then none else some { o with listUnits := true }
  | .help | .version => none

/-- An argument that names an option, and the value attached to it. -/
structure Argument where
  flag : Flag
  value : Option String

/-- The value behind a letter, after an equals sign if there is one. -/
def attached? : List Char → Option String
  | [] => none
  | '=' :: value => some (String.ofList value)
  | value => some (String.ofList value)

/-- A letter behind a single hyphen. A letter without value is answered before what follows it. -/
def letter? (c : Char) (rest : List Char) : Option Argument := do
  let flag ← Flag.ofLetter? c
  some ⟨flag, if flag.takesValue then attached? rest else none⟩

/-- A name behind two hyphens. -/
def longName? (cs : List Char) : Option Argument := do
  let flag ← Flag.ofName? (String.ofList (cs.takeWhile (· ≠ '=')))
  let value := (cs.dropWhile (· ≠ '=')).tail?.map String.ofList
  if value.isSome && !flag.takesValue then none else some ⟨flag, value⟩

def Argument.read? (arg : String) : Option Argument :=
  match arg.toList with
  | '-' :: '-' :: cs => longName? cs
  | '-' :: c :: cs => letter? c cs
  | _ => none

/-- Whether an argument can be the value of an option before it. -/
def isValue (arg : String) : Bool := arg = "-" || !arg.startsWith "-"

/-- Reads arguments from left to right. The help and the version are answered as soon as they are
asked for; whatever is no option or lacks its value is a mistake. -/
def request? (o : Options) : List String → Option Request
  | [] => some (.calculate o)
  | ["--"] => some (.calculate o)
  | arg :: args => do
    let argument ← Argument.read? arg
    match argument.flag, argument.value, args with
    | .help, _, _ => some .help
    | .version, _, _ => some .version
    | flag, some value, args => request? (← o.set? flag value) args
    | flag, none, args =>
      if flag.takesValue then
        match args with
        | value :: args => if isValue value then request? (← o.set? flag value) args else none
        | [] => none
      else request? (← o.set? flag "") args

def usageLines : List String := [
  "Typed-value RPN calculator",
  "",
  "Usage: rcalc [OPTIONS]",
  "",
  "Options:",
  "  -e, --eval <LINE>     Evaluate LINE instead of reading stdin (repeatable)",
  "  -c, --config <FILE>   Engine configuration file (TOML)",
  "      --list-operators  Print every operator by category and exit",
  "      --list-units      Print every unit family and exit",
  "  -h, --help            Print help",
  "  -V, --version         Print version"]

def versionLine : String := "rcalc 0.3.0"

end ReversePolish.Terminal

import ReversePolish.Settings.Basic

/-! # Settings from a file

The notation of the file is for others to know: what reads settings from a text is an argument
here. -/

namespace ReversePolish.Settings

/-- A setting whose value is outside its range. -/
inductive RangeFault where
  | realPrecision (p : Nat)
  | maxDepth
  | maxIntegerBits (bits : Nat)
  deriving DecidableEq, Repr

/-- Why a file cannot be read. -/
inductive FileFault where
  | missing
  | directory
  | notDirectory
  | denied
  | other (reason : String)
  deriving DecidableEq, Repr

/-- Why there are no settings in a file. -/
inductive LoadError where
  | unreadable (fault : FileFault)
  | malformed (reason : String)
  | outOfRange (fault : RangeFault)
  deriving DecidableEq, Repr

def RangeFault.message (path : String) : RangeFault → String
  | .realPrecision p => s!"invalid value for 'real_precision' in {path}: {p} is outside 1..=17"
  | .maxDepth => s!"invalid value for 'max_stack_depth' in {path}: must be at least 1"
  | .maxIntegerBits bits => s!"invalid value for 'max_integer_bits' in {path}: {bits} is below 64"

def FileFault.message : FileFault → String
  | .missing => "No such file or directory (os error 2)"
  | .directory => "Is a directory (os error 21)"
  | .notDirectory => "Not a directory (os error 20)"
  | .denied => "Permission denied (os error 13)"
  | .other reason => reason

/-- What is shown if the settings of the file cannot be used. -/
def LoadError.message (path : String) : LoadError → String
  | .unreadable fault => s!"failed to read config at {path}: {fault.message}"
  | .malformed reason => s!"failed to parse config at {path}: {reason}"
  | .outOfRange fault => fault.message path

/-- The first setting outside its range. -/
def rangeFault? (s : Settings) : Option RangeFault :=
  match s.realPrecision.filter fun p => p < 1 || 17 < p with
  | some p => some (.realPrecision p)
  | none =>
    if s.maxDepth = some 0 then some .maxDepth
    else if s.maxIntegerBits < 64 then some (.maxIntegerBits s.maxIntegerBits)
    else none

/-- Reads settings from a text, in the notation of the first argument, and checks their ranges. -/
def ofText (parse : String → Except String Settings) (text : String) :
    Except LoadError Settings := do
  let s ← (parse text).mapError .malformed
  match s.rangeFault? with
  | some fault => .error (.outOfRange fault)
  | none => .ok s

/-- Reads settings from the file of that path. -/
def ofFile (readFile : String → Except FileFault String) (parse : String → Except String Settings)
    (path : String) : Except LoadError Settings := do
  let text ← (readFile path).mapError .unreadable
  ofText parse text

/-- The significant digits of reals. -/
def precision (s : Settings) : Nat := s.style.digits

end ReversePolish.Settings

import ReversePolish.Settings.Document
import ReversePolish.Settings.Loading

/-! # Settings from a document -/

namespace ReversePolish.Settings

open Document

/-- The entries of a key of the outermost table. -/
def entriesOf (key : String) (entries : List Entry) : List Entry :=
  entries.filter fun
    | .assign path _ => path.head? = some key
    | .header path => path.head? = some key

/-- The number below the bound that is assigned to a key; without entry, the default. -/
def number? {α : Type} (key : String) (bound : Nat) (entries : List Entry) (default : α)
    (f : Nat → α) : Option α :=
  match entriesOf key entries with
  | [] => some default
  | [.assign [_] (.integer n)] => if 0 ≤ n && n < bound then some (f n.toNat) else none
  | _ => none

/-- A name that is assigned to a key, or the only entry of its table. -/
def choice? (key : String) (entries : List Entry) : Option (Option String) :=
  match entriesOf key entries with
  | [] => some none
  | [.assign [_] (.text name)] => some (some name)
  | [.assign [_] (.tagged name)] => some (some name)
  | [.assign [_, name] .hollow] => some (some name)
  | [.header [_], .assign [_, name] .hollow] => some (some name)
  | [.header [_, name]] => some (some name)
  | [.header [_], .header [_, name]] => some (some name)
  | [.header [_, name], .header [_]] => some (some name)
  | _ => none

def promotion? : Option String → Option Promotion
  | none => some ({} : Settings).promotion
  | some "on_overflow" => some .onOverflow
  | some "explicit" => some .explicit
  | some _ => none

/-- The keys of a document of settings. -/
def keys : List String :=
  ["integer_promotion", "max_stack_depth", "history_limit", "real_precision", "max_integer_bits"]

/-- Reads settings from the entries of a document, all of which have to belong to a setting. -/
def ofEntries? (entries : List Entry) : Option Settings := do
  guard (entries.length = (keys.flatMap fun key => entriesOf key entries).length)
  let defaults : Settings := {}
  let promotion ← promotion? (← choice? "integer_promotion" entries)
  let maxDepth ← number? "max_stack_depth" UInt64.size entries defaults.maxDepth some
  let historyLimit ← number? "history_limit" UInt64.size entries defaults.historyLimit id
  let realPrecision ← number? "real_precision" UInt8.size entries defaults.realPrecision some
  let maxIntegerBits ← number? "max_integer_bits" UInt64.size entries defaults.maxIntegerBits id
  some { promotion, maxDepth, historyLimit, realPrecision, maxIntegerBits }

/-- The settings of a document, or why there are none. -/
def parse (text : String) : Except String Settings :=
  match (Document.read? text).bind ofEntries? with
  | some s => .ok s
  | none => .error "not a document of settings"

/-- Reads a document of settings and checks their ranges. -/
def read : String → Except LoadError Settings := ofText parse

end ReversePolish.Settings

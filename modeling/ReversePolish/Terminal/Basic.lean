import ReversePolish.Session.Basic

/-! # The terminal

The terminal follows the stack by the events alone, and prints it with the deepest level first. -/

namespace ReversePolish

/-- A line on one of the two output streams. -/
inductive Output where
  | out (line : String)
  | err (line : String)
  deriving DecidableEq, Repr

/-- What the terminal knows: the stack as it was told, and whether the user has asked to leave. -/
structure Terminal where
  items : List ItemView := []
  quit : Bool := false

namespace Terminal

/-- The commands that the terminal runs itself. -/
def commands : List String := ["\\help", "\\units", "\\quit", "\\q"]

def claims (token : String) : Bool := commands.contains token

/-- The width of the names in listings. -/
def nameWidth : Nat := 20

/-- A name and its description in two columns. -/
def entryLine (name description : String) : String :=
  let padding := String.ofList (List.replicate (nameWidth - name.length) ' ')
  s!"  {name}{padding} {description}"

/-- Every operator by category. -/
def operatorLines (c : Catalog) : List String :=
  c.categories.flatMap fun (name, ops) =>
    s!"{name}:" :: ops.map fun op => entryLine (" ".intercalate op.names) op.description

/-- Every unit by family. -/
def unitLines : List String :=
  MeasureFamily.all.flatMap fun family =>
    s!"{family.name} (base type: {family.converts.name}):" ::
      family.measures.map fun m => entryLine m.usage m.description

def commandLine (c : Command) : String :=
  entryLine (" ".intercalate (c.names.map Command.token)) c.description

def helpLines (c : Catalog) : List String :=
  ["Commands:",
    "  \\help               Show this help",
    "  \\units              List unit families",
    "  \\quit (\\q)          Exit"] ++
    Command.all.map commandLine ++ "" :: operatorLines c

/-- The levels of the stack, the top last as level one. -/
def stackLines (t : Terminal) : List String :=
  t.items.zipIdx.map fun (item, i) => s!"{t.items.length - i}: {item.output}"

/-- Runs a command of the terminal. -/
def run (t : Terminal) (c : Catalog) (token : String) : Terminal × List Output :=
  match token with
  | "\\help" => (t, (helpLines c).map .out)
  | "\\units" => (t, unitLines.map .out)
  | "\\quit" | "\\q" => ({ t with quit := true }, [])
  | _ => (t, [])

/-- What the terminal makes of an event. -/
def receive (t : Terminal) (c : Catalog) : Event → Terminal × List Output
  | .info text => (t, [.out text])
  | .error text => (t, [.err ("error: " ++ text)])
  | .command token => t.run c token
  | .stack change => ({ t with items := change.apply t.items }, [])

/-- What the terminal makes of events in turn. -/
def receiveAll (t : Terminal) (c : Catalog) : List Event → Terminal × List Output
  | [] => (t, [])
  | e :: es =>
    let (t, first) := t.receive c e
    let (t, rest) := t.receiveAll c es
    (t, first ++ rest)

end Terminal

end ReversePolish

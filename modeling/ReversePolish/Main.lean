import ReversePolish.Terminal.Program

/-! # The calculator on a terminal -/

namespace ReversePolish.Terminal

/-- Prints lines on their streams. -/
def printAll (outputs : List Output) : IO Unit := do
  for output in outputs do
    match output with
    | .out line => IO.println line
    | .err line => IO.eprintln line
  (← IO.getStdout).flush

/-- A line of the input without its end. -/
def withoutLineEnd (line : String) : String :=
  match Text.lines line.toList with
  | [cs] => String.ofList cs
  | _ => line

/-- Reads and submits lines until the input ends or the user leaves, and gives the exit code. -/
partial def interact (stdin : IO.FS.Stream) (p : Program) : IO UInt32 := do
  match ← stdin.getLine.toBaseIO with
  | .error e =>
    printAll [.err (Program.inputFault (toString e))]
    return 1
  | .ok line =>
    if line.isEmpty then return 0
    let (p, outputs) := p.enterShowing (withoutLineEnd line)
    printAll outputs
    if p.terminal.quit then return 0
    interact stdin p

def fileFault : IO.Error → Settings.FileFault
  | .noFileOrDirectory .. => .missing
  | .permissionDenied .. => .denied
  | .inappropriateType .. => .directory
  | e => .other (toString e)

/-- The text of a file, or the reason why there is none. -/
def readFile (path : String) : IO (Except Settings.FileFault String) := do
  try return .ok (← IO.FS.readFile path)
  catch e => return .error (fileFault e)

/-- The text of the file of settings that the arguments name, and no text if they name none. -/
def readSettings (args : List String) : IO (Except Settings.FileFault String) :=
  match request? {} args with
  | some (.calculate { settingsFile := some path, .. }) => readFile path
  | _ => return .ok ""

end ReversePolish.Terminal

def main (args : List String) : IO UInt32 := do
  let settings ← ReversePolish.Terminal.readSettings args
  match ReversePolish.Launch.ofArguments (fun _ => settings) args with
  | .finish outputs exitCode =>
    ReversePolish.Terminal.printAll outputs
    return exitCode.toUInt32
  | .interactive p => ReversePolish.Terminal.interact (← IO.getStdin) p

import ReversePolish.Settings.Reading
import ReversePolish.Terminal.Arguments

/-! # The program on the command line

Arguments and settings in the notations that users write. -/

namespace ReversePolish.Launch

/-- The exit code of a mistake in the arguments. -/
def usageError : Nat := 2

/-- Carries out the arguments. -/
def ofArguments (readFile : String → Except Settings.FileFault String) (args : List String) :
    Launch :=
  match Terminal.request? {} args with
  | none => .finish (Terminal.usageLines.map .err) usageError
  | some .help => .finish (Terminal.usageLines.map .out) 0
  | some .version => .finish [.out Terminal.versionLine] 0
  | some (.calculate o) => start readFile Settings.parse o

/-- Everything the program prints on an input of these lines, and its exit code. -/
def run (input : List String) (launch : Launch) : List Output × Nat :=
  launch.play (input.map .ok)

end ReversePolish.Launch

import ReversePolish.Session.Basic

/-! # Suggestions for the last word of a line -/

namespace ReversePolish.Session

/-- A text up to its last blank, and the word behind it. -/
def splitLastWord (text : List Char) : List Char × List Char :=
  let fromEnd := text.reverse
  ((fromEnd.dropWhile (!Text.isBlank ·)).reverse, (fromEnd.takeWhile (!Text.isBlank ·)).reverse)

/-- The kinds on the stack after a line that is not submitted; if it fails, those on the stack
now. -/
def previewKinds (s : Session) (line : List Char) : List Kind :=
  let preview := do
    let tokens ← Token.scanLine (String.ofList line)
    s.evaluator.run s.stack (tokens.map Token.text)
  match preview with
  | .ok draft => draft.stack.kinds
  | .error _ => s.stack.kinds

/-- The words that may stand in the place of the last one. -/
def completions (s : Session) (before : List Char) (word : String) : List String :=
  if word.startsWith "\\" then Command.complete word
  else if word.startsWith "_" then MeasureFamily.complete (word.drop 1).toString
  else (s.evaluator.catalog.applicable (s.previewKinds before) word).map Prod.fst

/-- Lines that begin with the given one and complete its last word. -/
def suggest (s : Session) (typed : String) : List String :=
  let (before, word) := splitLastWord typed.toList
  (s.completions before (String.ofList word)).map (String.ofList before ++ ·)

end ReversePolish.Session

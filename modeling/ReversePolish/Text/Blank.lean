/-! # Blank characters and the fields between separators -/

namespace ReversePolish.Text

/-- The characters with the Unicode property `White_Space`. -/
def isBlank (c : Char) : Bool :=
  ('\t' ≤ c && c ≤ '\r') || c = ' ' || c = '\u0085' || c = '\u00a0' || c = '\u1680' ||
    ('\u2000' ≤ c && c ≤ '\u200a') || c = '\u2028' || c = '\u2029' || c = '\u202f' ||
    c = '\u205f' || c = '\u3000'

/-- The text without the blanks at its two ends. -/
def trim (cs : List Char) : List Char :=
  ((cs.dropWhile isBlank).reverse.dropWhile isBlank).reverse

/-- The maximal non-empty runs of characters that are no separators. -/
def fields (separator : Char → Bool) (cs : List Char) : List (List Char) :=
  (cs.splitOnP separator).filter (!·.isEmpty)

/-- The lines of a text. A line ends at a line feed, and a carriage return just before it belongs
to the line end; nothing after the last line feed is no line. -/
def lines (cs : List Char) : List (List Char) :=
  let pieces := cs.splitOnP (· = '\n')
  let ended := pieces.dropLast.map fun l => if l.getLast? = some '\r' then l.dropLast else l
  match pieces.getLast? with
  | none | some [] => ended
  | some rest => ended ++ [rest]

end ReversePolish.Text

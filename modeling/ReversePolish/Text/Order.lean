/-! # Short texts first -/

namespace ReversePolish.Text

/-- Texts by their length in bytes, those of one length by code points. -/
def shorterFirst (a b : String) : Bool :=
  a.utf8ByteSize < b.utf8ByteSize || (a.utf8ByteSize = b.utf8ByteSize && a ≤ b)

end ReversePolish.Text

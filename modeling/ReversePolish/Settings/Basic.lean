import ReversePolish.Value.Format

/-! # Settings -/

namespace ReversePolish

/-- What becomes of machine integers whose exact result does not fit. -/
inductive Promotion where
  /-- The result is an integer of any size. -/
  | onOverflow
  /-- The operation fails. -/
  | explicit
  deriving DecidableEq, Repr

/-- What operators consult besides their arguments. -/
structure Limits where
  promotion : Promotion
  /-- Integers that are estimated to have more bits are not computed. -/
  maxIntegerBits : Nat
  deriving DecidableEq, Repr

structure Settings where
  promotion : Promotion := .onOverflow
  /-- The greatest number of items on the stack, if there is one. -/
  maxDepth : Option Nat := some 1024
  /-- The number of changes that can be undone. -/
  historyLimit : Nat := 100
  /-- The significant digits of reals, if not the default. -/
  realPrecision : Option Nat := none
  maxIntegerBits : Nat := 65536
  deriving DecidableEq, Repr

namespace Settings

def limits (s : Settings) : Limits := ⟨s.promotion, s.maxIntegerBits⟩

/-- The style of values that ask for none. -/
def style (s : Settings) : Style := { precision := s.realPrecision }

end Settings

end ReversePolish

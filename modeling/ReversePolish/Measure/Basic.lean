import ReversePolish.Value.Format

/-! # Units of measurement -/

namespace ReversePolish

/-- A unit of measurement. The base unit of its family measures `x * scale + offset` where this one
measures `x`. -/
structure Measure where
  name : String
  description : String
  scale : Float
  offset : Float := 0

namespace Measure

/-- How the unit is entered. -/
def usage (m : Measure) : String := Value.unitText m.name

def toBase (m : Measure) (x : Float) : Float := x * m.scale + m.offset

def fromBase (m : Measure) (x : Float) : Float := (x - m.offset) / m.scale

/-- The factor from the first unit to the second, if neither has an offset. -/
def factorTo? (m target : Measure) : Option Float :=
  if m.offset == 0 && target.offset == 0 then some (m.scale / target.scale) else none

end Measure

/-- Units that convert into each other, the base unit first. -/
structure MeasureFamily where
  name : String
  /-- The kinds of values that the family converts. -/
  converts : KindSet
  base : Measure
  derived : List Measure

namespace MeasureFamily

def measures (f : MeasureFamily) : List Measure := f.base :: f.derived

def find? (f : MeasureFamily) (name : String) : Option Measure :=
  f.measures.find? (·.name = name)

end MeasureFamily

end ReversePolish

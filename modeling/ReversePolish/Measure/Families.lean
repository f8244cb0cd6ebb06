import ReversePolish.Measure.Basic

/-! # The known units -/

namespace ReversePolish.MeasureFamily

/-- The ratio of a circle's circumference to its diameter. -/
def pi : Float := 3.141592653589793

/-- What a family without offsets converts. -/
def linear : KindSet := .scalar ∪ .vector

def angle : MeasureFamily where
  name := "Angle"
  converts := linear
  base := ⟨"rad", "radian", 1, 0⟩
  derived := [
    ⟨"deg", "degree", pi / 180, 0⟩,
    ⟨"grad", "gradian", pi / 200, 0⟩,
    ⟨"turn", "full turn", 2 * pi, 0⟩]

def data : MeasureFamily where
  name := "Data"
  converts := linear
  base := ⟨"B", "byte", 1, 0⟩
  derived := [
    ⟨"bit", "bit", 0.125, 0⟩,
    ⟨"KB", "kilobyte", 1e3, 0⟩,
    ⟨"MB", "megabyte", 1e6, 0⟩,
    ⟨"GB", "gigabyte", 1e9, 0⟩,
    ⟨"KiB", "kibibyte", 1024, 0⟩,
    ⟨"MiB", "mebibyte", 1048576, 0⟩,
    ⟨"GiB", "gibibyte", 1073741824, 0⟩]

def length : MeasureFamily where
  name := "Length"
  converts := linear
  base := ⟨"m", "metre", 1, 0⟩
  derived := [
    ⟨"km", "kilometre", 1e3, 0⟩,
    ⟨"cm", "centimetre", 1e-2, 0⟩,
    ⟨"mm", "millimetre", 1e-3, 0⟩,
    ⟨"um", "micrometre", 1e-6, 0⟩,
    ⟨"in", "inch", 0.0254, 0⟩,
    ⟨"ft", "foot", 0.3048, 0⟩,
    ⟨"yd", "yard", 0.9144, 0⟩,
    ⟨"mi", "mile", 1609.344, 0⟩,
    ⟨"nmi", "nautical mile", 1852, 0⟩]

def mass : MeasureFamily where
  name := "Mass"
  converts := linear
  base := ⟨"kg", "kilogram", 1, 0⟩
  derived := [
    ⟨"g", "gram", 1e-3, 0⟩,
    ⟨"mg", "milligram", 1e-6, 0⟩,
    ⟨"t", "tonne", 1e3, 0⟩,
    ⟨"lb", "pound", 0.45359237, 0⟩,
    ⟨"oz", "ounce", 0.028349523125, 0⟩]

/-- Temperatures have different zeros, so that only scalars convert. -/
def temperature : MeasureFamily where
  name := "Temperature"
  converts := .scalar
  base := ⟨"K", "kelvin", 1, 0⟩
  derived := [
    ⟨"C", "degree Celsius", 1, 273.15⟩,
    ⟨"F", "degree Fahrenheit", 5 / 9, 459.67 * 5 / 9⟩,
    ⟨"R", "degree Rankine", 5 / 9, 0⟩]

def time : MeasureFamily where
  name := "Time"
  converts := linear
  base := ⟨"s", "second", 1, 0⟩
  derived := [
    ⟨"ms", "millisecond", 1e-3, 0⟩,
    ⟨"us", "microsecond", 1e-6, 0⟩,
    ⟨"min", "minute", 60, 0⟩,
    ⟨"h", "hour", 3600, 0⟩,
    ⟨"day", "day", 86400, 0⟩,
    ⟨"wk", "week", 604800, 0⟩]

/-- Every family, by name. -/
def all : List MeasureFamily := [angle, data, length, mass, temperature, time]

/-- The unit of a name, with its family. -/
def lookup? (name : String) : Option (MeasureFamily × Measure) :=
  all.findSome? fun family => (family.find? name).map (family, ·)

/-- How the units are entered whose names begin with the given text. -/
def complete (start : String) : List String :=
  ((all.flatMap measures).filter (·.name.startsWith start)).map Measure.usage

end ReversePolish.MeasureFamily

import ReversePolish.Catalog.Basic
import ReversePolish.Operator.Arithmetic
import ReversePolish.Operator.Constants
import ReversePolish.Operator.Conversion
import ReversePolish.Operator.Elementary
import ReversePolish.Operator.Linear
import ReversePolish.Operator.Units

/-! # The standard libraries -/

namespace ReversePolish

namespace Library

def arithmetic : Library := ⟨1, "Arithmetic", Arithmetic.operators⟩

def elementary : Library := ⟨2, "Transcendentals", Elementary.operators⟩

def linearAlgebra : Library := ⟨3, "Linear algebra", LinearAlgebra.operators⟩

def conversion : Library := ⟨4, "Conversion", Conversion.operators⟩

def constants : Library := ⟨5, "Constants", Constants.operators⟩

def units : Library := ⟨6, "Units", UnitConversion.operators⟩

/-- The libraries of the standard catalog. -/
def standard : List Library :=
  [arithmetic, elementary, linearAlgebra, conversion, constants, units]

end Library

namespace Catalog

/-- Registers libraries in turn, up to the first that fails. -/
def ofLibraries (libs : List Library) : Except Error Catalog :=
  libs.foldlM (fun c lib => match c.add lib with
    | (next, .ok _) => .ok next
    | (_, .error e) => .error e) empty

/-- The catalog of the standard libraries. -/
def standard : Except Error Catalog := ofLibraries Library.standard

end Catalog

end ReversePolish

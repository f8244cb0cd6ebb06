import Mathlib.Data.List.Nodup
import ReversePolish.Measure.Families

/-! # The families of units -/

namespace ReversePolish.MeasureFamily

variable {f g : MeasureFamily} {m : Measure} {name : String}

theorem lookup?_eq_some (h : lookup? name = some (f, m)) :
    f ∈ all ∧ m ∈ f.measures ∧ m.name = name := by
  obtain ⟨family, hfamily, h⟩ := List.exists_of_findSome?_eq_some h
  obtain ⟨measure, hmeasure, h⟩ := Option.map_eq_some_iff.mp h
  obtain ⟨rfl, rfl⟩ := Prod.mk.inj h
  exact ⟨hfamily, List.mem_of_find?_eq_some hmeasure,
    by simpa using List.find?_some hmeasure⟩

theorem mem_all_of_lookup? (h : lookup? name = some (f, m)) : f ∈ all := (lookup?_eq_some h).1

theorem eq_of_name_eq (hf : f ∈ all) (hg : g ∈ all) (h : f.name = g.name) : f = g := by
  have hnodup : (all.map MeasureFamily.name).Nodup := by decide
  exact List.inj_on_of_nodup_map hnodup hf hg h

/-- The units of a family that converts vectors differ by factors alone. -/
theorem offset_eq_zero (hf : f ∈ all) {d : Dimension} (hd : f.converts.contains (.vector d))
    (hm : m ∈ f.measures) : m.offset == 0 := by
  have hall : ∀ f ∈ all, f.converts.contains (.vector d) → ∀ m ∈ f.measures, m.offset == 0 := by
    cases d <;> decide +kernel
  exact hall f hf hd m hm

theorem factorTo?_isSome (hf : f ∈ all) {d : Dimension} (hd : f.converts.contains (.vector d))
    (hm : m ∈ f.measures) {target : Measure} (htarget : target ∈ f.measures) :
    ∃ factor, m.factorTo? target = some factor := by
  simp [Measure.factorTo?, offset_eq_zero hf hd hm, offset_eq_zero hf hd htarget]

end ReversePolish.MeasureFamily

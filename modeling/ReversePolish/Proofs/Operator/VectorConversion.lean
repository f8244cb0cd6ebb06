import ReversePolish.Proofs.Measure.Conversion
import ReversePolish.Proofs.Measure.Families
import ReversePolish.Proofs.Operator.Scalars
import ReversePolish.Proofs.Value.Shape

/-! # Conversion of vectors

A vector converts component by component, and each component comes close to what it comes to as a
scalar. -/

namespace ReversePolish

open Operator Binary64

/-! ## The known units -/

namespace MeasureFamily

variable {f : MeasureFamily} {m : Measure}

theorem isScale (hf : f ∈ all) (hm : m ∈ f.measures) : IsScale m.scale := by
  have hall : ∀ f ∈ all, ∀ m ∈ f.measures, isFinite m.scale ∧ isNegative m.scale = false ∧
      2 ^ 52 ≤ significand m.scale ∧ -72 ≤ exponent m.scale ∧ exponent m.scale ≤ -22 := by
    decide +kernel
  obtain ⟨hfinite, hsign, hfull, hleast, hgreatest⟩ := hall f hf m hm
  have hlow : (2 : ℚ) ^ 52 ≤ significand m.scale := by exact_mod_cast hfull
  have hhigh : (significand m.scale : ℚ) ≤ 2 ^ 53 := by exact_mod_cast (isCanonical hfinite).lt.le
  refine ⟨hfinite, hsign, ?_, ?_⟩
  · calc (2 : ℚ) ^ (-20 : ℤ) = 2 ^ 52 * 2 ^ (-72 : ℤ) := by
          rw [two_pow_mul_zpow]
          norm_num
      _ ≤ significand m.scale * 2 ^ exponent m.scale :=
          mul_le_mul hlow (zpow_le_zpow_right₀ one_le_two hleast) (zpow_pos two_pos _).le
            (Nat.cast_nonneg _)
  · calc (significand m.scale : ℚ) * 2 ^ exponent m.scale ≤ 2 ^ 53 * 2 ^ (-22 : ℤ) :=
          mul_le_mul hhigh (zpow_le_zpow_right₀ one_le_two hgreatest) (zpow_pos two_pos _).le
            (by norm_num)
      _ = 2 ^ (31 : ℤ) := by
          rw [two_pow_mul_zpow]
          norm_num

theorem base_scale (hf : f ∈ all) : f.base.scale = 1 := by
  have hall : ∀ f ∈ all, f.base.scale.toBits = (1 : Float).toBits := by decide +kernel
  exact Float.toBits_inj.mp (hall f hf)

/-- A family none of whose units has an offset. -/
def HasNoOffset (f : MeasureFamily) : Prop := ∀ m ∈ f.measures, m.offset == 0

theorem HasNoOffset.eq_zero (h : f.HasNoOffset) (hf : f ∈ all) (hm : m ∈ f.measures) :
    m.offset = 0 := by
  have hall : ∀ f ∈ all, ∀ m ∈ f.measures, m.offset == 0 → m.offset.toBits = (0 : Float).toBits := by
    decide +kernel
  exact Float.toBits_inj.mp (hall f hf m hm (h m hm))

/-- Celsius is what keeps temperatures from it. -/
theorem HasNoOffset.converts_eq (h : f.HasNoOffset) (hf : f ∈ all) : f.converts = linear := by
  simp only [all, List.mem_cons, List.not_mem_nil, or_false] at hf
  rcases hf with rfl | rfl | rfl | rfl | rfl | rfl
  · rfl
  · rfl
  · rfl
  · rfl
  · exact absurd (h ⟨"C", "degree Celsius", 1, 273.15⟩
      (List.mem_cons_of_mem _ List.mem_cons_self)) (by decide +kernel)
  · rfl

end MeasureFamily

namespace UnitConversion

open MeasureFamily

variable {f : MeasureFamily} {source target : Measure} {name name' : String}

/-! ## Evaluations -/

theorem convertible_scalar (a : Scalar) : convertible.contains (Value.scalar a).kind := by
  rw [convertible, KindSet.contains_union, KindSet.contains_scalar.mpr ⟨a, rfl⟩, Bool.true_or]

theorem convertible_vector (d : Dimension) (v : RealVector d.size) :
    convertible.contains (Value.vector d v).kind := by
  rw [convertible, KindSet.contains_union, KindSet.contains_vector.mpr ⟨d, v, rfl⟩, Bool.or_true]

theorem apply_convert (limits : Limits) {x : Value} (hx : convertible.contains x.kind)
    (h : lookup? name = some (f, source)) (h' : lookup? name' = some (f, target)) :
    operators[0].apply limits [x, .unit name, .unit name'] =
      convertValue "convert" [x, .unit name, .unit name'] x f source target := by
  have hunit (name : String) := KindSet.contains_unit.mpr ⟨name, rfl⟩
  have hfits : Signature.Fits [convertible, .unit, .unit] [x, .unit name, .unit name'] :=
    .cons hx (.cons (hunit name) (.cons (hunit name') .nil))
  have heval : operators[0].evaluate = convert := rfl
  rw [apply_of_fits List.mem_cons_self limits hfits, heval]
  simp only [convert, ternary, unitArg, h, h']
  exact if_neg (not_not.mpr rfl)

theorem apply_toBaseUnit (limits : Limits) {x : Value} (hx : convertible.contains x.kind)
    (h : lookup? name = some (f, source)) :
    operators[1].apply limits [x, .unit name] =
      convertValue "ubase" [x, .unit name] x f source f.base := by
  have hfits : Signature.Fits [convertible, .unit] [x, .unit name] :=
    .cons hx (.cons (KindSet.contains_unit.mpr ⟨name, rfl⟩) .nil)
  have heval : operators[1].evaluate = toBaseUnit := rfl
  rw [apply_of_fits List.mem_cons_self limits hfits, heval]
  simp only [toBaseUnit, binary, unitArg, h]
  rfl

section Linear

variable (hf : f ∈ all) (hlinear : f.HasNoOffset) (hsource : source ∈ f.measures)
  (htarget : target ∈ f.measures) (op : String) (args : List Value)

include hf hlinear hsource htarget

theorem convertValue_scalar (a : Scalar) :
    convertValue op args (.scalar a) f source target =
      .ok (.real ((a.toReal * source.scale + 0 - 0) / target.scale)) := by
  have hconverts : f.converts.contains (Value.scalar a).kind := by
    rw [hlinear.converts_eq hf]
    exact convertible_scalar a
  rw [convertValue, hconverts, Measure.fromBase, Measure.toBase, hlinear.eq_zero hf hsource,
    hlinear.eq_zero hf htarget]
  rfl

theorem convertValue_vector {d : Dimension} (v : RealVector d.size) :
    convertValue op args (.vector d v) f source target =
      .ok (.vector d (v.scale (source.scale / target.scale))) := by
  have hconverts : f.converts.contains (Value.vector d v).kind := by
    rw [hlinear.converts_eq hf]
    exact convertible_vector d v
  have hfactor : source.factorTo? target = some (source.scale / target.scale) := by
    simp [Measure.factorTo?, hlinear source hsource, hlinear target htarget]
  unfold convertValue
  rw [hconverts]
  simp only [hfactor]
  rfl

end Linear

/-! ## Vectors and their components -/

/-- What an operator does that converts from the one unit to the other: vectors by one factor, and
scalars, by their reals, to what is close to it. -/
structure ConvertsByFactor (run : Value → Except Error Value) (source target : Measure) :
    Prop where
  scalar (a : Scalar) : run (.scalar a) = run (.real a.toReal)
  vector (d : Dimension) (v : RealVector d.size) (hv : ∀ c ∈ v.toList, isFinite c) :
    ∃ w, run (.vector d v) = .ok (.vector d w) ∧
      List.Forall₂ (fun c p => ∃ q, run (.real c) = .ok (.real q) ∧
        Converted c source.scale target.scale p q) v.toList w.toList
  itself (h : source = target) (d : Dimension) (v : RealVector d.size)
    (hv : ∀ c ∈ v.toList, isFinite c) : run (.vector d v) = .ok (.vector d v)

theorem scale_one {n : ℕ} {v : RealVector n} (hv : ∀ c ∈ v.toList, isFinite c) :
    v.scale 1 = v := by
  rw [← Vector.toList_inj, RealVector.toList_scale]
  exact (List.map_congr_left fun c hc => mul_one_of_isFinite (hv c hc)).trans (List.map_id' _)

theorem convertsByFactor {run : Value → Except Error Value} (hs : IsScale source.scale)
    (ht : IsScale target.scale)
    (hscalar : ∀ a : Scalar, run (.scalar a) =
      .ok (.real ((a.toReal * source.scale + 0 - 0) / target.scale)))
    (hvector : ∀ (d : Dimension) (v : RealVector d.size), run (.vector d v) =
      .ok (.vector d (v.scale (source.scale / target.scale)))) :
    ConvertsByFactor run source target where
  scalar a := by
    rw [hscalar, hscalar]
    rfl
  vector d v hv := by
    refine ⟨_, hvector d v, ?_⟩
    rw [RealVector.toList_scale, List.forall₂_map_right_iff, List.forall₂_same]
    exact fun c hc => ⟨_, hscalar (.real c), converted (hv c hc) hs ht⟩
  itself h d v hv := by
    rw [hvector, ← h, hs.ratio_self, scale_one hv]

variable {catalog : Catalog}

/-- Between the units of a family without offsets, vectors convert by one factor, and to the base
unit exactly as their components do as scalars, up to the sign of zero. -/
theorem vectors_convert_by_factor (hcatalog : Catalog.standard = .ok catalog) (limits : Limits) :
    ∃ convert ubase, catalog.find? "convert" = some convert ∧
      catalog.find? "ubase" = some ubase ∧
      ∀ (f : MeasureFamily) (source target : Measure) (name name' : String),
        lookup? name = some (f, source) → lookup? name' = some (f, target) → f.HasNoOffset →
        absValue f.base.scale = 1 ∧
          ConvertsByFactor (fun x => convert.apply limits [x, .unit name, .unit name'])
            source target ∧
          ConvertsByFactor (fun x => ubase.apply limits [x, .unit name]) source f.base := by
  refine ⟨operators[0], operators[1], find?_operator hcatalog 0 (by decide),
    find?_operator hcatalog 1 (by decide), fun f source target name name' h h' hlinear => ?_⟩
  obtain ⟨hf, hsource, -⟩ := lookup?_eq_some h
  obtain ⟨-, htarget, -⟩ := lookup?_eq_some h'
  have hbase : f.base ∈ f.measures := List.mem_cons_self
  refine ⟨by rw [base_scale hf, absValue_one], ?_, ?_⟩
  · refine convertsByFactor (isScale hf hsource) (isScale hf htarget) (fun a => ?_) fun d v => ?_
    · rw [apply_convert limits (convertible_scalar a) h h',
        convertValue_scalar hf hlinear hsource htarget]
    · rw [apply_convert limits (convertible_vector d v) h h',
        convertValue_vector hf hlinear hsource htarget]
  · refine convertsByFactor (isScale hf hsource) (isScale hf hbase) (fun a => ?_) fun d v => ?_
    · rw [apply_toBaseUnit limits (convertible_scalar a) h,
        convertValue_scalar hf hlinear hsource hbase]
    · rw [apply_toBaseUnit limits (convertible_vector d v) h,
        convertValue_vector hf hlinear hsource hbase]

theorem hasNoOffset_length : length.HasNoOffset := by
  change ∀ m ∈ length.measures, m.offset == 0
  decide +kernel

/-- Kilometres in metres and in the base unit. -/
theorem vectors_convert_by_factor_of_length :
    let catalog := Catalog.standard.toOption.getD .empty
    let limits : Limits := ⟨.onOverflow, 65536⟩
    let v : RealVector Dimension.two.size := #v[2, 1]
    ∃ f source target, lookup? "km" = some (f, source) ∧ lookup? "m" = some (f, target) ∧
      f.HasNoOffset ∧ (∀ c ∈ v.toList, isFinite c) ∧ ∃ convert ubase,
        catalog.find? "convert" = some convert ∧ catalog.find? "ubase" = some ubase ∧
        convert.apply limits [.vector .two v, .unit "km", .unit "km"] = .ok (.vector .two v) ∧
        ∃ w, ubase.apply limits [.vector .two v, .unit "km"] = .ok (.vector .two w) ∧
          List.Forall₂ (fun c p => ∃ q,
            ubase.apply limits [.real c, .unit "km"] = .ok (.real q) ∧ q = p + 0)
            [2, 1] w.toList := by
  intro catalog limits v
  have hkm : lookup? "km" = some (length, ⟨"km", "kilometre", 1e3, 0⟩) := rfl
  have hm : lookup? "m" = some (length, ⟨"m", "metre", 1, 0⟩) := rfl
  have hv : ∀ c ∈ v.toList, isFinite c := by decide +kernel
  obtain ⟨convert, ubase, hconvert, hubase, hfamily⟩ :=
    vectors_convert_by_factor Catalog.standard_eq limits
  obtain ⟨-, hself, -⟩ := hfamily _ _ _ _ _ hkm hkm hasNoOffset_length
  obtain ⟨hone, -, hbase⟩ := hfamily _ _ _ _ _ hkm hm hasNoOffset_length
  obtain ⟨w, hw, hentries⟩ := hbase.vector .two v hv
  refine ⟨length, _, _, hkm, hm, hasNoOffset_length, hv, convert, ubase, hconvert, hubase,
    hself.itself rfl .two v hv, w, hw, hentries.imp ?_⟩
  rintro c p ⟨q, hq, hconverted⟩
  exact ⟨q, hq, hconverted.of_base hone⟩

/-- Nine metres come to one more last place of a kilometre as a component, and 15 degrees do not come
back to 15 degrees as a scalar. -/
theorem component_not_scalar :
    let catalog := Catalog.standard.toOption.getD .empty
    let limits : Limits := ⟨.onOverflow, 65536⟩
    ∃ convert, catalog.find? "convert" = some convert ∧
      (∃ w p q, convert.apply limits [.vector .two #v[9, 1], .unit "m", .unit "km"] =
          .ok (.vector .two w) ∧ w.toList.head? = some p ∧
        convert.apply limits [.real 9, .unit "m", .unit "km"] = .ok (.real q) ∧ ¬ p == q) ∧
      ∃ q, convert.apply limits [.real 15, .unit "deg", .unit "deg"] = .ok (.real q) ∧
        ¬ q == 15 := by
  intro catalog limits
  exact ⟨operators[0], find?_operator Catalog.standard_eq 0 (by decide),
    ⟨_, 9 * (1 / 1e3), _, rfl, congrArg List.head? (RealVector.toList_scale _ _), rfl,
      by decide +kernel⟩, _, rfl, by decide +kernel⟩

end UnitConversion

end ReversePolish

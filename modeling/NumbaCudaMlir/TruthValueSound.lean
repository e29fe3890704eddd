import Mathlib.Algebra.Order.Field.Basic
import NumbaCudaMlir.TruthValue

/-!
# Which truth values agree

The conversion to `i1` and the element tests of the reductions find every number but zero
true. The comparison of `not` and the ordered one of the logical ufuncs go wrong with NaN,
the conversion to an output's dtype with numbers that it takes to zero, and complex
numbers have no conversion to `i1`.
-/

namespace NumbaCudaMlir.TruthValue

open MachineInt BinaryFloat

/-! ## Conversions -/

theorem ofInt_eq_zero_iff (f : Format) (n : Int) : ofInt f n = .finite 0 ↔ n = 0 := by
  constructor
  · intro h
    by_contra hne
    have hpos := roundNat_pos f (show 0 < n.natAbs by omega)
    unfold ofInt at h
    simp only at h
    split at h
    · have hm : n.sign * (roundNat f n.natAbs : Int) = 0 := by exact_mod_cast Value.finite.inj h
      rcases Int.mul_eq_zero.mp hm with hs | hr
      · exact hne (Int.sign_eq_zero_iff_zero.mp hs)
      · omega
    · cases h
  · rintro rfl
    have hpos : 0 < 2 ^ f.maxExponent := Nat.two_pow_pos _
    simp [ofInt, hpos]

theorem value_eq_zero_iff (signed : Bool) {w : Nat} (x : BitVec w) : value signed x = 0 ↔ x = 0 := by
  constructor
  · intro h
    rw [← ofInt_value signed x, h]
    rfl
  · rintro rfl
    cases signed <;> simp

theorem ofInt_ne_nan (f : Format) (n : Int) : ofInt f n ≠ .nan := by
  unfold ofInt
  simp only
  split <;> simp

theorem convertInteger_one_ne_zero (signed : Option Bool) {w : Nat} (hw : 0 < w) (x : BitVec w) :
    (convertInteger signed 1 x != 0) = (x != 0) := by
  by_cases h : 1 < w
  · rw [convertInteger_bool h]
    by_cases hx : x = 0
    · subst hx; rfl
    · have hne : (x != 0) = true := by simpa using hx
      rw [hne]; rfl
  · obtain rfl : w = 1 := by omega
    rw [convertInteger_self]

theorem convertInteger_ne_zero_iff {w v : Nat} (hv : v ≠ 1) (x : BitVec w) :
    convertInteger none v x ≠ 0 ↔ x.toNat % 2 ^ v ≠ 0 := by
  have hconv : convertInteger none v x = x.setWidth v := by
    simp [convertInteger, hv]
  rw [hconv, Ne, Ne, ← BitVec.toNat_inj, BitVec.toNat_setWidth]
  simp

theorem tdiv_eq_zero_iff (q : Rat) : q.num.tdiv q.den = 0 ↔ |q| < 1 := by
  have hpos := q.den_pos
  have hden : (0 : Rat) < q.den := by exact_mod_cast hpos
  have habs : |q| < 1 ↔ q.num.natAbs < q.den := by
    conv_lhs => rw [← Rat.num_div_den q]
    rw [abs_div, abs_of_pos hden, div_lt_one hden, ← Int.cast_abs, Int.abs_eq_natAbs]
    norm_cast
  rw [habs, ← Int.natAbs_eq_zero, Int.natAbs_tdiv, Int.natAbs_natCast]
  exact Nat.div_eq_zero_iff_lt hpos

/-! ## Tests -/

theorem bne_zero {w : Nat} (x : BitVec w) : (x != 0) = decide (x ≠ 0) := by rw [Bool.eq_iff_iff]; simp

theorem valueIsNonzero_load (x : Scalar) : valueIsNonzero x.load = x.truth := by
  have hune (v : BinaryFloat.Value) : cmpf .UNE v (.finite 0) = decide (v ≠ .finite 0) := by
    cases v <;> simp [cmpf]
  cases x with
  | boolean x => exact bne_zero x
  | integer t x => exact bne_zero x
  | float f x => exact hune x
  | complex f re im => simp [Scalar.load, valueIsNonzero, Scalar.truth, hune]

theorem toBool_load (x : Scalar) : toBool x.load = x.truth ↔ ¬IsNaN x := by
  rw [← valueIsNonzero_load]
  cases x with
  | boolean x | integer t x | complex f re im => simp [Scalar.load, toBool, valueIsNonzero, IsNaN]
  | float f x => cases x <;> simp [Scalar.load, toBool, valueIsNonzero, IsNaN, cmpf]

theorem lowerNot_load (x : Scalar) : (lowerNot x.load).map (!·) = some x.truth ↔ ¬IsComplex x ∧ ¬IsNaN x := by
  cases x with
  | boolean x => exact iff_of_true (congrArg some (bne_zero x)) ⟨id, id⟩
  | integer t x => exact iff_of_true (congrArg some (bne_zero x)) ⟨id, id⟩
  | float f x => cases x <;> simp [Scalar.load, lowerNot, Scalar.truth, IsComplex, IsNaN, cmpf]
  | complex f re im => simp [Scalar.load, lowerNot, IsComplex]

theorem bitVec_one_bit (b : Bool) : ((BitVec.ofBool b).setWidth 1 != 0) = b := by cases b <;> rfl

theorem convert_one (signed : Option Bool) {x : Scalar} (h : ¬IsComplex x) :
    ∃ b : BitVec 1, convert signed x.load (.int 1) = some (.int 1 b) ∧ (b != 0) = x.truth := by
  cases x with
  | boolean x =>
    refine ⟨_, rfl, ?_⟩
    rw [convertInteger_one_ne_zero signed (by decide)]
    exact valueIsNonzero_load (.boolean x)
  | integer t x =>
    refine ⟨_, rfl, ?_⟩
    rw [convertInteger_one_ne_zero signed t.width.bits_pos]
    exact valueIsNonzero_load (.integer t x)
  | float f x => exact ⟨_, rfl, bitVec_one_bit _⟩
  | complex f re im => exact absurd trivial h

theorem convertToBoolean_eq (x : Scalar) : convertToBoolean x = some x.truth ↔ ¬IsComplex x := by
  by_cases h : IsComplex x
  · cases x with
    | complex f re im => simp [convertToBoolean, Scalar.load, convert, IsComplex]
    | boolean | integer | float => exact absurd h id
  · obtain ⟨b, hb, htruth⟩ := convert_one x.signedness h
    rw [convertToBoolean, hb]
    exact iff_of_true (congrArg some htruth) h

theorem logicalBinary_eq (x : Scalar) : (convert none x.load (.int 1)).map toBool = some x.truth ↔ ¬IsComplex x := by
  by_cases h : IsComplex x
  · cases x with
    | complex f re im => simp [Scalar.load, convert, IsComplex]
    | boolean | integer | float => exact absurd h id
  · obtain ⟨b, hb, htruth⟩ := convert_one none h
    rw [hb]
    exact iff_of_true (congrArg some htruth) h

/-! ## Tests after a conversion -/

theorem cmpf_une (v : BinaryFloat.Value) : cmpf .UNE v (.finite 0) = decide (v ≠ .finite 0) := by
  cases v <;> simp [cmpf]

theorem cmpf_one (v : BinaryFloat.Value) : cmpf .ONE v (.finite 0) = decide (v ≠ .nan ∧ v ≠ .finite 0) := by
  cases v <;> simp [cmpf]

theorem convertFloat_nan_iff (f g : FloatType) (x : BinaryFloat.Value) : convertFloat f g x = .nan ↔ x = .nan := by
  unfold convertFloat
  split
  · rfl
  · cases x with
    | finite q => simp [ofRat_ne_nan]
    | infinity | nan => simp

theorem convertFloat_zero (f g : FloatType) : convertFloat f g (.finite 0) = .finite 0 := by
  unfold convertFloat
  split <;> simp

theorem keepsNonzero_iff (f g : FloatType) (x : BinaryFloat.Value) :
    (convertFloat f g x = .finite 0 ↔ x = .finite 0) ↔ KeepsNonzero f g x := by
  by_cases h : x = .finite 0
  · subst h
    simp [KeepsNonzero, convertFloat_zero]
  · simp [KeepsNonzero, h]

theorem convertIntegerToFloat_eq_zero_iff (f : Format) {w : Nat} (x : BitVec w) :
    convertIntegerToFloat none f x = .finite 0 ↔ x = 0 := by
  rw [convertIntegerToFloat, intToFp, ofInt_eq_zero_iff, value_eq_zero_iff]

theorem convertIntegerToFloat_ne_nan (f : Format) {w : Nat} (x : BitVec w) : convertIntegerToFloat none f x ≠ .nan :=
  ofInt_ne_nan f _

theorem toBool_integer (t : IntType) {w : Nat} (x : BitVec w) :
    (convert none (.int w x) (.int t.bits)).map toBool = some (decide (x ≠ 0)) ↔ x = 0 ∨ x.toNat % 2 ^ t.bits ≠ 0 := by
  have hbits : t.bits ≠ 1 := Nat.ne_of_gt t.width.one_lt_bits
  have hne := convertInteger_ne_zero_iff hbits x
  simp only [convert, Option.map_some, toBool, bne_zero, Option.some.injEq, decide_eq_decide, hne]
  by_cases hx : x = 0
  · subst hx; simp
  · tauto

theorem toBool_fpToInt (t : IntType) (f : FloatType) (x : BinaryFloat.Value) :
    (convert none (.float f x) (.int t.bits)).map toBool = some (decide (x ≠ .finite 0)) ↔ KeptBy (.integer t) (.float f x) := by
  have hbits : t.bits ≠ 1 := Nat.ne_of_gt t.width.one_lt_bits
  have hsigned : useSignedConversion none (decide (1 < t.bits)) = true := decide_eq_true t.width.one_lt_bits
  cases x with
  | infinity | nan => simp [convert, convertFloatToInteger, hbits, fpToInt, KeptBy]
  | finite q =>
    rw [KeptBy]
    by_cases hr : InRange true t.bits (q.num.tdiv q.den)
    · have hconvert : convert none (.float f (.finite q)) (.int t.bits) = some (.int t.bits (BitVec.ofInt t.bits (q.num.tdiv q.den))) := by
        simp [convert, convertFloatToInteger, hbits, hsigned, fpToInt, hr]
      have hzero : BitVec.ofInt t.bits (q.num.tdiv q.den) = 0 ↔ |q| < 1 := by
        rw [← tdiv_eq_zero_iff, ← value_eq_zero_iff true, (value_ofInt_iff t.width.bits_pos true _).mpr hr]
      rw [hconvert, Option.map_some, toBool, bne_zero, Option.some.injEq, decide_eq_decide, Ne, hzero, not_lt, Ne,
        Value.finite.injEq]
      by_cases hq : q = 0
      · subst hq; simp
      · simp [hq, hr]
    · have hconvert : convert none (.float f (.finite q)) (.int t.bits) = none := by
        simp [convert, convertFloatToInteger, hbits, hsigned, fpToInt, hr]
      have hq : q ≠ 0 := by
        rintro rfl
        refine hr (inRange_signed.mpr ⟨?_, ?_⟩) <;> simp
      simp [hconvert, hr, hq]

theorem keptBy_iff (dtype : ScalarType) (x : Scalar) :
    (convert none x.load dtype.toMlir).map toBool = some x.truth ↔ KeptBy dtype x := by
  cases dtype with
  | boolean =>
    rw [ScalarType.toMlir, logicalBinary_eq]
    cases x <;> simp [IsComplex, KeptBy]
  | integer t =>
    cases x with
    | boolean b =>
      refine (toBool_integer t b).trans (iff_of_true ?_ trivial)
      have hlt : b.toNat < 2 ^ t.bits := b.isLt.trans_le (Nat.pow_le_pow_right (by decide) t.width.one_lt_bits.le)
      rw [Nat.mod_eq_of_lt hlt, or_iff_not_imp_left]
      intro hb h
      exact hb (BitVec.eq_of_toNat_eq h)
    | integer s b => exact toBool_integer t b
    | float f v => exact toBool_fpToInt t f v
    | complex f re im => simp [Scalar.load, ScalarType.toMlir, convert, KeptBy]
  | float g =>
    have hint {w : Nat} (b : BitVec w) :
        (convert none (.int w b) (.float g)).map toBool = some (decide (b ≠ 0)) := by
      simp only [convert, Option.map_some, toBool, cmpf_one, Ne, convertIntegerToFloat_eq_zero_iff,
        convertIntegerToFloat_ne_nan, not_false_eq_true, true_and]
    cases x with
    | boolean b => exact iff_of_true (hint b) trivial
    | integer t b => exact iff_of_true (hint b) trivial
    | float f v =>
      simp only [Scalar.load, ScalarType.toMlir, convert, Option.map_some, toBool, cmpf_one, Scalar.truth,
        Option.some.injEq, decide_eq_decide, Ne, convertFloat_nan_iff, KeptBy, ← keepsNonzero_iff]
      by_cases hn : v = .nan
      · subst hn; simp
      · simp [hn, not_iff_not]
    | complex f re im =>
      simp only [Scalar.load, ScalarType.toMlir, convert, Option.map_some, toBool, cmpf_one, Scalar.truth,
        Option.some.injEq, decide_eq_decide, Ne, KeptBy]
      by_cases hn : re = .nan
      · subst hn; simp
      · by_cases hre : re = .finite 0 <;> simp [hn, hre]
  | complex g =>
    have hint {w : Nat} (b : BitVec w) :
        (convert none (.int w b) (.complex g)).map toBool = some (decide (b ≠ 0)) := by
      simp only [convert, Option.map_some, toBool, cmpf_une, Ne, convertIntegerToFloat_eq_zero_iff, not_true_eq_false,
        decide_false, Bool.or_false]
    cases x with
    | boolean b => exact iff_of_true (hint b) trivial
    | integer t b => exact iff_of_true (hint b) trivial
    | float f v =>
      simp only [Scalar.load, ScalarType.toMlir, convert, Option.map_some, toBool, cmpf_une, Scalar.truth, Ne,
        not_true_eq_false, decide_false, Bool.or_false, Option.some.injEq, decide_eq_decide, KeptBy, ← keepsNonzero_iff,
        not_iff_not]
    | complex f re im =>
      simp only [Scalar.load, ScalarType.toMlir, convert, Option.map_some, toBool, cmpf_une, Scalar.truth, Ne,
        ← Bool.decide_or, Option.some.injEq, decide_eq_decide, KeptBy]
      by_cases hre : re = .finite 0
      · subst hre
        by_cases him : im = .finite 0
        · subst him; simp [convertFloat_zero]
        · simp [convertFloat_zero, him]
      · simp [hre]

/-! ## All places -/

theorem route_truth_iff (r : Route) (x : Scalar) : r.truth x = some x.truth ↔ r.Agrees x := by
  cases r with
  | bool | branch | assign => exact convertToBoolean_eq x
  | not => exact lowerNot_load x
  | any | all => simp [Route.truth, Route.Agrees, valueIsNonzero_load]
  | logicalBinary => exact logicalBinary_eq x
  | logicalBinaryOut dtype => exact keptBy_iff dtype x
  | logicalNotOut dtype => exact keptBy_iff dtype x
  | logicalBinaryScalar | logicalNot | logicalNotScalar =>
    simp only [Route.truth, Route.Agrees, Option.some.injEq]
    exact toBool_load x

/-- `not nan` is true beside `bool(nan)`; 256 is false for an output of bytes; a complex number has no `bool`. -/
theorem route_truth_differs :
    (Route.truth (.float .float64 .nan) .bool = some true ∧ Route.truth (.float .float64 .nan) .not = some false ∧
      Route.truth (.float .float64 .nan) .logicalBinaryScalar = some false) ∧
    (Route.truth (.integer ⟨true, .w64⟩ 256) .bool = some true ∧
      Route.truth (.integer ⟨true, .w64⟩ 256) (.logicalBinaryOut (.integer ⟨true, .w8⟩)) = some false) ∧
    Route.truth (.complex .float64 (.finite 1) (.finite 0)) .bool = none := by
  decide

end NumbaCudaMlir.TruthValue

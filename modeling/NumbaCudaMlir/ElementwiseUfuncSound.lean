import NumbaCudaMlir.ElementwiseUfunc
import NumbaCudaMlir.FloatOrder
import NumbaCudaMlir.NditerSound
import NumbaCudaMlir.TruthValueSound

/-!
# Soundness of comparisons, truth and extrema

Elements are compared as signed integers of the type they were converted to,
and converted by zeros. This is right where each operand keeps its order on the
way (`KeepsOrder`) and, for truth, where no bit that is set gets lost
(`KeepsTruth`). Arrays of other extents than the result's are read as if they
had them.
-/

namespace NumbaCudaMlir.Elementwise

open MachineInt
open NumberTyping (OperandType)
open IntegerArith (Operand)
open TruthValue (FloatType Scalar MlirType MlirValue convert convertFloat toBool KeptBy keptBy_iff toBool_load ofInt_eq_zero_iff
  ofInt_ne_nan convertFloat_zero)
open Ufunc (integerLoops findMatchingLoop)
open Nditer (broadcastShapes broadcastIndex broadcastReversed broadcastDim broadcastIndex_self)
open Tensor (InShape)

/-! ## Operands -/

theorem operandType_eq {a b : OperandType} (hw : a.width = b.width) (hs : a.signed = b.signed) : a = b := by
  have hinj : ∀ w w' : Width, w.bits = w'.bits → w = w' := by
    intro w w' h
    cases w <;> cases w' <;> first | rfl | exact absurd h (by decide)
  cases a with
  | boolean =>
    cases b with
    | boolean => rfl
    | integer t => exact absurd hw.symm t.width.one_lt_bits.ne'
  | integer s =>
    cases b with
    | boolean => exact absurd hw s.width.one_lt_bits.ne'
    | integer t =>
      obtain ⟨ss, sw⟩ := s
      obtain ⟨ts, tw⟩ := t
      have hws : sw = tw := hinj sw tw hw
      have hss : ss = ts := hs
      rw [hws, hss]

theorem width_pos (d : OperandType) : 0 < d.width := by
  cases d with
  | boolean => decide
  | integer t => exact t.width.bits_pos

@[simp] theorem value_zero (d : OperandType) : (⟨d, 0⟩ : Operand).value = 0 := by simp [Operand.value, value]

/-- The least value of a signed type, and half of the values of an unsigned one. -/
def half (d : OperandType) : Operand := ⟨d, BitVec.intMin d.width⟩

theorem half_value (d : OperandType) : (half d).value = if d.signed then -2 ^ (d.width - 1) else 2 ^ (d.width - 1) := by
  unfold half Operand.value
  cases hs : d.signed with
  | true => rw [if_pos rfl]; exact BitVec.toInt_intMin_of_pos (width_pos d)
  | false =>
    rw [if_neg Bool.false_ne_true, value_unsigned]
    show ((BitVec.intMin d.width).toNat : Int) = _
    rw [BitVec.toNat_intMin_of_pos (width_pos d)]
    push_cast
    rfl

theorem half_toInt (d : OperandType) : (half d).bits.toInt = -2 ^ (d.width - 1) := BitVec.toInt_intMin_of_pos (width_pos d)

theorem toInt_eq_value {x : Operand} (h : x.ty.signed = true) : x.bits.toInt = x.value := by
  rw [Operand.value, h, value_signed]

/-! ## Casts of truth -/

theorem castInt_toNat_inj (out : TruthValue.ScalarType) {b b' : Bool} : castInt out b.toNat = castInt out b'.toNat ↔ b = b' := by
  have hne : castInt out 1 ≠ castInt out 0 := by
    cases out with
    | boolean =>
      intro h
      exact absurd (eq_of_heq (MlirValue.int.inj h).2) (by decide)
    | integer t =>
      intro h
      have hbits : BitVec.ofInt t.bits 1 = BitVec.ofInt t.bits 0 := eq_of_heq (MlirValue.int.inj h).2
      rw [ofInt_eq_ofInt_iff] at hbits
      have hle := Int.le_of_dvd (by decide) hbits
      have hpow : (2 : Int) ^ 1 ≤ 2 ^ t.bits := pow_le_pow_right₀ (by decide) t.width.bits_pos
      omega
    | float f =>
      intro h
      have hf := (MlirValue.float.inj h).2
      rw [(ofInt_eq_zero_iff f.format 0).mpr rfl, ofInt_eq_zero_iff] at hf
      exact absurd hf (by decide)
    | complex f =>
      intro h
      have hf := (MlirValue.complex.inj h).2.1
      rw [(ofInt_eq_zero_iff f.format 0).mpr rfl, ofInt_eq_zero_iff] at hf
      exact absurd hf (by decide)
  constructor
  · intro h
    cases b <;> cases b' <;> first | rfl | exact absurd h hne | exact absurd h.symm hne
  · rintro rfl
    rfl

theorem toNat_ofBool (b : Bool) : (BitVec.ofBool b).toNat = b.toNat := by cases b <;> rfl

theorem convert_bool (b : Bool) (out : TruthValue.ScalarType) : convert none (bool b) out.toMlir = some (castInt out b.toNat) := by
  have hfloat : ∀ f : BinaryFloat.Format, convertIntegerToFloat none f (BitVec.ofBool b) = BinaryFloat.ofInt f b.toNat := fun f => by
    rw [convertIntegerToFloat, useSignedConversion, Option.getD_none, decide_eq_false (by decide), intToFp, value_unsigned, toNat_ofBool]
  cases out with
  | boolean => cases b <;> rfl
  | integer t =>
    have hbits : t.bits ≠ 1 := t.width.one_lt_bits.ne'
    have hconv : convertInteger none t.bits (BitVec.ofBool b) = BitVec.ofInt t.bits b.toNat := by
      rw [convertInteger_eq (.inl hbits), decide_eq_false (by simp), value_unsigned, toNat_ofBool]
    exact congrArg (fun x => some (MlirValue.int t.bits x)) hconv
  | float f => exact congrArg (fun x => some (MlirValue.float f x)) (hfloat f.format)
  | complex f => exact congrArg (fun x => some (MlirValue.complex f x (.finite 0))) (hfloat f.format)

theorem boolToValueType_eq (b : Bool) (out : TruthValue.ScalarType) : boolToValueType b out.toMlir = castInt out b.toNat := by
  cases out with
  | boolean => cases b <;> rfl
  | integer t =>
    have hconv : (BitVec.ofBool b).setWidth t.bits = BitVec.ofInt t.bits b.toNat := by
      rw [← toNat_ofBool, BitVec.ofInt_natCast, BitVec.ofNat_toNat]
    exact congrArg (MlirValue.int t.bits) hconv
  | float f => rfl
  | complex f => rfl

theorem toInt_eq_iff_value {d : OperandType} (x y : BitVec d.width) : x.toInt = y.toInt ↔ (⟨d, x⟩ : Operand).value = (⟨d, y⟩ : Operand).value := by
  rw [BitVec.toInt_inj, Operand.value, Operand.value]
  constructor
  · rintro rfl
    rfl
  · intro h
    rw [← ofInt_value d.signed x, h, ofInt_value]

/-! ## Comparisons -/

def Comparison.isOrder : Comparison → Bool
  | equal | notEqual => false
  | greater | greaterEqual | less | lessEqual => true

theorem Comparison.fn_eq (c : Comparison) (x y : Operand) : c.fn x y = c.holds x.bits.toInt y.bits.toInt := by cases c <;> rfl

theorem Comparison.holds_neg (c : Comparison) (hc : c.isOrder = true) {p : Int} (hp : 0 < p) :
    c.holds (-p) 0 ≠ c.holds p 0 ∧ c.holds 0 (-p) ≠ c.holds 0 p := by
  cases c with
  | equal | notEqual => cases hc
  | greater | greaterEqual | less | lessEqual =>
    simp only [Comparison.holds, ne_eq, decide_eq_decide]
    omega

theorem Comparison.signed_of_exact (c : Comparison) (hc : c.isOrder = true) {a b : OperandType}
    (h : ∀ x y : Operand, x.ty = a → y.ty = b → c.fn x y = c.holds x.value y.value) : a.signed = true ∧ b.signed = true := by
  have hpos : ∀ d : OperandType, (0 : Int) < 2 ^ (d.width - 1) := fun d => by positivity
  constructor
  · by_contra hs
    have hx := h (half a) ⟨b, 0⟩ rfl rfl
    rw [Comparison.fn_eq, half_toInt, half_value, if_neg hs, value_zero] at hx
    exact (c.holds_neg hc (hpos a)).1 (by simpa using hx)
  · by_contra hs
    have hx := h ⟨a, 0⟩ (half b) rfl rfl
    rw [Comparison.fn_eq, half_toInt, half_value, if_neg hs, value_zero] at hx
    exact (c.holds_neg hc (hpos b)).2 (by simpa using hx)

theorem Comparison.signs_of_exact (c : Comparison) (hc : c.isOrder = false) {a b : OperandType} (hw : a.width = b.width)
    (h : ∀ x y : Operand, x.ty = a → y.ty = b → c.fn x y = c.holds x.value y.value) : a.signed = b.signed := by
  by_contra hs
  have hpos : (0 : Int) < 2 ^ (b.width - 1) := by positivity
  have hne : (half a).value ≠ (half b).value := by
    rw [half_value, half_value, hw]
    cases ha : a.signed with
    | true =>
      have hb : b.signed = false := by simpa [ha] using Ne.symm hs
      rw [if_pos rfl, if_neg (by simp [hb])]
      omega
    | false =>
      have hb : b.signed = true := by simpa [ha] using Ne.symm hs
      rw [if_neg Bool.false_ne_true, if_pos hb]
      omega
  have hx := h (half a) (half b) rfl rfl
  rw [Comparison.fn_eq, half_toInt, half_toInt, hw] at hx
  cases c with
  | greater | greaterEqual | less | lessEqual => cases hc
  | equal => simp [Comparison.holds, hne] at hx
  | notEqual => simp [Comparison.holds, hne] at hx

theorem Comparison.exact_iff (c : Comparison) {a b : OperandType} (hw : a.width = b.width) :
    (∀ x y : Operand, x.ty = a → y.ty = b → c.fn x y = c.holds x.value y.value) ↔ a = b ∧ (c.isOrder = true → a.signed = true) := by
  constructor
  · intro h
    cases hc : c.isOrder with
    | true =>
      obtain ⟨ha, hb⟩ := c.signed_of_exact hc h
      exact ⟨operandType_eq hw (ha.trans hb.symm), fun _ => ha⟩
    | false => exact ⟨operandType_eq hw (c.signs_of_exact hc hw h), fun h => absurd h Bool.false_ne_true⟩
  · rintro ⟨rfl, hsigned⟩ x y hx hy
    rw [Comparison.fn_eq]
    cases hc : c.isOrder with
    | true => rw [toInt_eq_value (hx ▸ hsigned hc), toInt_eq_value (hy ▸ hsigned hc)]
    | false =>
      obtain ⟨d, x⟩ := x
      obtain ⟨d', y⟩ := y
      obtain rfl : d = a := hx
      obtain rfl : d' = d := hy
      have heq := toInt_eq_iff_value x y
      cases c with
      | greater | greaterEqual | less | lessEqual => cases hc
      | equal => exact decide_eq_decide.mpr heq
      | notEqual => exact decide_eq_decide.mpr (not_congr heq)

/-! ## Truth -/

def scalarOf : Operand → Scalar
  | ⟨.boolean, x⟩ => .boolean x
  | ⟨.integer t, x⟩ => .integer t x

theorem load_scalarOf (x : Operand) : (scalarOf x).load = load x := by
  obtain ⟨d, x⟩ := x
  cases d <;> rfl

theorem truth_scalarOf (x : Operand) : (scalarOf x).truth = decide (x.value ≠ 0) := by
  have hzero : ∀ {w : Nat} (s : Bool) (x : BitVec w), decide (x ≠ 0) = decide (value s x ≠ 0) := fun s x => by
    rw [decide_eq_decide, Ne, Ne, TruthValue.value_eq_zero_iff]
  obtain ⟨d, x⟩ := x
  cases d with
  | boolean => exact hzero false x
  | integer t => exact hzero t.signed x

theorem toBool_operand (x : Operand) : toBool (load x) = decide (x.value ≠ 0) := by
  have hnan : ¬TruthValue.IsNaN (scalarOf x) := by
    obtain ⟨d, x⟩ := x
    cases d <;> exact id
  rw [← load_scalarOf, (toBool_load (scalarOf x)).mpr hnan, truth_scalarOf]

/-- A dtype with room for the bits of an operand. -/
def KeepsTruth : TruthValue.ScalarType → OperandType → Prop
  | .integer t, d => d.width ≤ t.bits
  | .boolean, _ | .float _, _ | .complex _, _ => True

theorem low_bits {w v : Nat} (h : w ≤ v) (x : BitVec w) : x = 0 ∨ x.toNat % 2 ^ v ≠ 0 := by
  have hlt : x.toNat < 2 ^ v := x.isLt.trans_le (Nat.pow_le_pow_right (by decide) h)
  rw [Nat.mod_eq_of_lt hlt]
  by_cases hx : x = 0
  · exact .inl hx
  · exact .inr fun hz => hx (BitVec.eq_of_toNat_eq hz)

theorem keptBy_scalarOf {out : TruthValue.ScalarType} {d : OperandType} : (∀ x : Operand, x.ty = d → KeptBy out (scalarOf x)) ↔ KeepsTruth out d := by
  cases d with
  | boolean =>
    refine iff_of_true ?_ ?_
    · rintro ⟨_, x⟩ rfl
      cases out <;> trivial
    · cases out with
      | integer t => exact t.width.bits_pos
      | boolean | float | complex => trivial
  | integer s =>
    cases out with
    | boolean | float | complex =>
      refine iff_of_true ?_ trivial
      rintro ⟨_, x⟩ rfl
      trivial
    | integer t =>
      constructor
      · intro h
        refine Nat.le_of_not_lt fun hlt => ?_
        have hpow : 2 ^ t.bits < 2 ^ s.bits := Nat.pow_lt_pow_right (by decide) hlt
        have htoNat : (BitVec.ofNat s.bits (2 ^ t.bits)).toNat = 2 ^ t.bits := by
          rw [BitVec.toNat_ofNat, Nat.mod_eq_of_lt hpow]
        rcases h ⟨.integer s, BitVec.ofNat s.bits (2 ^ t.bits)⟩ rfl with hzero | hmod
        · rw [hzero] at htoNat
          exact absurd htoNat.symm (Nat.two_pow_pos _).ne'
        · exact hmod (by rw [htoNat, Nat.mod_self])
      · rintro hle ⟨_, x⟩ rfl
        exact low_bits hle x

theorem keepsTruth_iff {out : TruthValue.ScalarType} {d : OperandType} :
    (∀ x : Operand, x.ty = d → (convert none (load x) out.toMlir).map toBool = some (decide (x.value ≠ 0))) ↔ KeepsTruth out d := by
  rw [← keptBy_scalarOf]
  refine forall_congr' fun x => forall_congr' fun _ => ?_
  rw [← load_scalarOf, ← truth_scalarOf, keptBy_iff]

theorem convert_load (x : Operand) (out : TruthValue.ScalarType) : ∃ v, convert none (load x) out.toMlir = some v := by
  cases out <;> exact ⟨_, rfl⟩

theorem one_value (d : OperandType) : (⟨d, 1#d.width⟩ : Operand).value ≠ 0 := by
  rw [Operand.value, Ne, TruthValue.value_eq_zero_iff]
  intro h
  have hnat : (1#d.width).toNat = 0 := congrArg BitVec.toNat h
  rw [BitVec.toNat_one (width_pos d)] at hnat
  exact absurd hnat (by decide)

def Logical.table : Logical → Bool → Bool → Bool
  | logicalAnd => and
  | logicalOr => or
  | logicalXor => xor

theorem Logical.fn_eq (l : Logical) (a b : MlirValue) : l.fn a b = l.table (toBool a) (toBool b) := by cases l <;> rfl

theorem Logical.holds_eq (l : Logical) (m n : Int) : l.holds m n = l.table (decide (m ≠ 0)) (decide (n ≠ 0)) := by cases l <;> rfl

theorem Logical.exact_iff (l : Logical) {a b : OperandType} {f : Operand → Bool} (hzero : ∀ d, f ⟨d, 0⟩ = false) :
    (∀ x y : Operand, x.ty = a → y.ty = b → l.table (f x) (f y) = l.holds x.value y.value) ↔
      (∀ x : Operand, x.ty = a → f x = decide (x.value ≠ 0)) ∧ ∀ y : Operand, y.ty = b → f y = decide (y.value ≠ 0) := by
  constructor
  · intro h
    have hxz := fun x hx => h x ⟨b, 0⟩ hx rfl
    have hzy := fun y hy => h ⟨a, 0⟩ y rfl hy
    simp only [hzero, value_zero, Logical.holds_eq] at hxz hzy
    cases l with
    | logicalOr => exact ⟨by simpa [Logical.table] using hxz, by simpa [Logical.table] using hzy⟩
    | logicalXor => exact ⟨by simpa [Logical.table] using hxz, by simpa [Logical.table] using hzy⟩
    | logicalAnd =>
      have hone := h ⟨a, 1#a.width⟩ ⟨b, 1#b.width⟩ rfl rfl
      simp only [Logical.table, Logical.holds_eq, one_value, ne_eq, not_false_eq_true, decide_true, Bool.and_self,
        Bool.and_eq_true] at hone
      refine ⟨fun x hx => ?_, fun y hy => ?_⟩
      · have hx1 := h x ⟨b, 1#b.width⟩ hx rfl
        simpa [Logical.table, Logical.holds_eq, hone.2, one_value] using hx1
      · have hy1 := h ⟨a, 1#a.width⟩ y rfl hy
        simpa [Logical.table, Logical.holds_eq, hone.1, one_value] using hy1
  · rintro ⟨ha, hb⟩ x y hx hy
    rw [ha x hx, hb y hy, Logical.holds_eq]

/-! ## Extrema of rounded integers -/

theorem floatLt_eq_false_iff {x y : BinaryFloat.Value} (hx : x ≠ .nan) (hy : y ≠ .nan) :
    IntegerArith.floatLt x y = false ↔ BinaryFloat.Le y x := by
  cases x with
  | nan => exact absurd rfl hx
  | finite p => cases y <;> simp_all [IntegerArith.floatLt, BinaryFloat.Le]
  | infinity m =>
    cases y with
    | nan => exact absurd rfl hy
    | finite q => simp [IntegerArith.floatLt, BinaryFloat.Le]
    | infinity n => cases m <;> cases n <;> simp [IntegerArith.floatLt, BinaryFloat.Le]

section
variable (f : BinaryFloat.Format) {m n : Int}

theorem ofInt_max_of_le (h : BinaryFloat.Le (BinaryFloat.ofInt f n) (BinaryFloat.ofInt f m)) :
    BinaryFloat.ofInt f m = BinaryFloat.ofInt f (max m n) := by
  rcases le_total n m with hle | hle
  · rw [max_eq_left hle]
  · rw [max_eq_right hle]
    exact BinaryFloat.le_antisymm (BinaryFloat.ofInt_mono f hle) h

theorem ofInt_min_of_le (h : BinaryFloat.Le (BinaryFloat.ofInt f m) (BinaryFloat.ofInt f n)) :
    BinaryFloat.ofInt f m = BinaryFloat.ofInt f (min m n) := by
  rcases le_total m n with hle | hle
  · rw [min_eq_left hle]
  · rw [min_eq_right hle]
    exact BinaryFloat.le_antisymm h (BinaryFloat.ofInt_mono f hle)

theorem select_ofInt (e : Extremum) {p : Bool} (hp : IntegerArith.floatLt (BinaryFloat.ofInt f m) (BinaryFloat.ofInt f n) = true → p = !e.greater)
    (hp' : IntegerArith.floatLt (BinaryFloat.ofInt f n) (BinaryFloat.ofInt f m) = true → p = e.greater) :
    (if p then BinaryFloat.ofInt f m else BinaryFloat.ofInt f n) = BinaryFloat.ofInt f (e.pick m n) := by
  have hm := ofInt_ne_nan f m
  have hn := ofInt_ne_nan f n
  have hle : p = !e.greater ∨ BinaryFloat.Le (BinaryFloat.ofInt f n) (BinaryFloat.ofInt f m) := by
    rw [← floatLt_eq_false_iff hm hn, or_iff_not_imp_right, Bool.not_eq_false]
    exact hp
  have hle' : p = e.greater ∨ BinaryFloat.Le (BinaryFloat.ofInt f m) (BinaryFloat.ofInt f n) := by
    rw [← floatLt_eq_false_iff hn hm, or_iff_not_imp_right, Bool.not_eq_false]
    exact hp'
  unfold Extremum.pick
  cases hg : e.greater with
  | true =>
    rw [if_pos rfl]
    cases p with
    | true => exact ofInt_max_of_le f (hle.resolve_left (by simp [hg]))
    | false => rw [if_neg Bool.false_ne_true, max_comm]; exact ofInt_max_of_le f (hle'.resolve_left (by simp [hg]))
  | false =>
    rw [if_neg Bool.false_ne_true]
    cases p with
    | true => exact ofInt_min_of_le f (hle'.resolve_left (by simp [hg]))
    | false => rw [if_neg Bool.false_ne_true, min_comm]; exact ofInt_min_of_le f (hle.resolve_left (by simp [hg]))

theorem floatLt_asymm {x y : BinaryFloat.Value} (h : IntegerArith.floatLt x y = true) : IntegerArith.floatLt y x = false := by
  cases x with
  | nan => cases h
  | finite p =>
    cases y with
    | nan => cases h
    | finite q => exact decide_eq_false (not_lt_of_gt (of_decide_eq_true h))
    | infinity n => simpa [IntegerArith.floatLt] using h
  | infinity m =>
    cases y with
    | nan => cases h
    | finite q => simpa [IntegerArith.floatLt] using h
    | infinity n => cases m <;> cases n <;> simp_all [IntegerArith.floatLt]

theorem floatMinMax_ofInt (e : Extremum) {nanOperand : BinaryFloat.Value} (h : nanOperand ≠ .nan) :
    floatMinMax e.greater (BinaryFloat.ofInt f m) (BinaryFloat.ofInt f n) nanOperand = BinaryFloat.ofInt f (e.pick m n) := by
  have hm := ofInt_ne_nan f m
  have hn := ofInt_ne_nan f n
  simp only [floatMinMax, h, or_false]
  refine select_ofInt f e (fun hlt => ?_) fun hlt => ?_
  · have hgt := floatLt_asymm hlt
    cases e.greater <;> simp [IntegerArith.cmpf, hm, hn, hlt, hgt]
  · have hgt := floatLt_asymm hlt
    cases e.greater <;> simp [IntegerArith.cmpf, hm, hn, hlt, hgt]

theorem complexOrder_ofInt (e : Extremum) :
    (if complexOrder e.greater (BinaryFloat.ofInt f m) (.finite 0) (BinaryFloat.ofInt f n) (.finite 0) then BinaryFloat.ofInt f m
      else BinaryFloat.ofInt f n) = BinaryFloat.ofInt f (e.pick m n) := by
  have hzero : IntegerArith.floatLt (.finite 0) (.finite 0) = false := by simp [IntegerArith.floatLt]
  refine select_ofInt f e (fun hlt => ?_) fun hlt => ?_
  · have hgt := floatLt_asymm hlt
    cases e.greater <;> simp [complexOrder, IntegerArith.cmpf, hlt, hgt, hzero]
  · have hgt := floatLt_asymm hlt
    cases e.greater <;> simp [complexOrder, IntegerArith.cmpf, hlt, hgt, hzero]

end

/-! ## Extrema -/

/-- The integer that a converted operand stands for. -/
def reading : TruthValue.ScalarType → Operand → Int
  | .integer t, x => (convertInteger none t.bits x.bits).toInt
  | .boolean, x | .float _, x | .complex _, x => value (1 < x.ty.width) x.bits

theorem convert_reading {out : TruthValue.ScalarType} (hout : out ≠ .boolean) (x : Operand) :
    convert none (load x) out.toMlir = some (castInt out (reading out x)) := by
  cases out with
  | boolean => exact absurd rfl hout
  | integer t =>
    have hself : convertInteger none t.bits x.bits = BitVec.ofInt t.bits (convertInteger none t.bits x.bits).toInt := BitVec.ofInt_toInt.symm
    exact congrArg (fun b => some (MlirValue.int t.bits b)) hself
  | float f => rfl
  | complex f => rfl

theorem convert_castInt (out : TruthValue.ScalarType) (n : Int) : convert none (castInt out n) out.toMlir = some (castInt out n) := by
  cases out with
  | boolean => exact congrArg (fun b => some (MlirValue.int 1 b)) (convertInteger_self none _)
  | integer t => exact congrArg (fun b => some (MlirValue.int t.bits b)) (convertInteger_self none _)
  | float f => simp [castInt, TruthValue.ScalarType.toMlir, convert, convertFloat]
  | complex f => simp [castInt, TruthValue.ScalarType.toMlir, convert, convertFloat]

/-- Integers that an output type has are selected between as such. -/
def Readable (out : TruthValue.ScalarType) (n : Int) : Prop := ∀ t, out = .integer t → InRange true t.bits n

theorem reading_readable (out : TruthValue.ScalarType) (x : Operand) : Readable out (reading out x) := by
  rintro t rfl
  exact value_inRange t.width.bits_pos true _

theorem Extremum.fn_castInt (e : Extremum) {out : TruthValue.ScalarType} (hout : out ≠ .boolean) {m n : Int} (hm : Readable out m) (hn : Readable out n) :
    e.fn (castInt out m) (castInt out n) = some (castInt out (e.pick m n)) := by
  cases out with
  | boolean => exact absurd rfl hout
  | integer t =>
    have hmt : (BitVec.ofInt t.bits m).toInt = m := (value_ofInt_iff t.width.bits_pos true m).mpr (hm t rfl)
    have hnt : (BitVec.ofInt t.bits n).toInt = n := (value_ofInt_iff t.width.bits_pos true n).mpr (hn t rfl)
    simp only [castInt, Extremum.fn, Extremum.pick, hmt, hnt]
    cases e.greater with
    | true =>
      by_cases h : n < m
      · simp [h, max_eq_left h.le]
      · simp [h, max_eq_right (not_lt.mp h)]
    | false =>
      by_cases h : m < n
      · simp [h, min_eq_left h.le]
      · simp [h, min_eq_right (not_lt.mp h)]
  | float f =>
    have hnan : ∀ k, BinaryFloat.ofInt f.format k ≠ .nan := ofInt_ne_nan f.format
    cases e <;> exact congrArg (fun v => some (MlirValue.float f v)) (floatMinMax_ofInt f.format _ (hnan _))
  | complex f =>
    simp only [castInt, Extremum.fn]
    rw [← complexOrder_ofInt f.format e]
    split <;> rfl

/-- The dtypes to which operands are converted without a change of their order. -/
def KeepsOrder : TruthValue.ScalarType → OperandType → Prop
  | .boolean, _ => False
  | .integer t, .integer s => if s.signed then s.bits = t.bits else s.bits < t.bits
  | .integer _, .boolean | .float _, .boolean | .complex _, .boolean => True
  | .float _, .integer s | .complex _, .integer s => s.signed = true

theorem reading_integer (t : IntType) (x : Operand) : reading (.integer t) x = (BitVec.ofInt t.bits (x.bits.toNat : Int)).toInt := by
  have hbits : t.bits ≠ 1 := t.width.one_lt_bits.ne'
  rw [reading, convertInteger_eq (.inl hbits), decide_eq_false (by simp), value_unsigned]

theorem value_unsigned_operand {x : Operand} (h : x.ty.signed = false) : x.value = x.bits.toNat := by rw [Operand.value, h, value_unsigned]

theorem reading_eq_value {out : TruthValue.ScalarType} {x : Operand} (h : KeepsOrder out x.ty) : reading out x = x.value := by
  cases out with
  | boolean => exact h.elim
  | integer t =>
    rw [reading_integer]
    have hnarrow : x.ty.signed = false → x.ty.width < t.bits → (BitVec.ofInt t.bits (x.bits.toNat : Int)).toInt = x.value := fun hs hw => by
      rw [value_unsigned_operand hs]
      refine (value_ofInt_iff t.width.bits_pos true _).mpr (inRange_signed.mpr ⟨?_, ?_⟩)
      · have hpos : (0 : Int) < 2 ^ (t.width.bits - 1) := by positivity
        omega
      · have hlt : x.bits.toNat < 2 ^ (t.bits - 1) := x.bits.isLt.trans_le (Nat.pow_le_pow_right (by decide) (by omega))
        exact_mod_cast hlt
    obtain ⟨d, b⟩ := x
    cases d with
    | boolean => exact hnarrow rfl t.width.one_lt_bits
    | integer s =>
      cases hs : s.signed with
      | true =>
        have hw : s.bits = t.bits := by simpa [KeepsOrder, hs] using h
        have hmod : BitVec.ofInt t.bits (b.toNat : Int) = BitVec.ofInt t.bits b.toInt := by
          rw [ofInt_eq_ofInt_iff, ← hw]
          rcases toInt_cases b with ⟨-, hb⟩ | ⟨-, hb⟩
          · rw [hb, sub_self]
            exact dvd_zero _
          · rw [hb, sub_sub_cancel]
            exact dvd_refl _
        have hrange : InRange true t.bits b.toInt := hw ▸ value_inRange s.width.bits_pos true b
        have hvalue : (⟨.integer s, b⟩ : Operand).value = b.toInt := (toInt_eq_value (x := ⟨.integer s, b⟩) hs).symm
        rw [hvalue, hmod]
        exact (value_ofInt_iff t.width.bits_pos true _).mpr hrange
      | false =>
        have hw : s.bits < t.bits := by simpa [KeepsOrder, hs] using h
        exact hnarrow hs hw
  | float f | complex f =>
    obtain ⟨d, b⟩ := x
    cases d with
    | boolean => rfl
    | integer s =>
      have hs : s.signed = true := h
      have hw : 1 < s.bits := s.width.one_lt_bits
      show value (decide (1 < s.bits)) b = value s.signed b
      rw [hs, decide_eq_true hw]

/-- Signs that the conversion exchanges, of numbers that the dtype tells from zero. -/
structure Flips (out : TruthValue.ScalarType) (x : Operand) : Prop where
  signs : 0 < x.value ∧ reading out x < 0 ∨ x.value < 0 ∧ 0 < reading out x
  value_ne : castInt out x.value ≠ castInt out 0
  reading_ne : castInt out (reading out x) ≠ castInt out 0

theorem castInt_ne_zero {out : TruthValue.ScalarType} (hout : out ≠ .boolean) {n : Int} (hn : n ≠ 0)
    (hlt : ∀ t, out = .integer t → -2 ^ t.bits < n ∧ n < 2 ^ t.bits) : castInt out n ≠ castInt out 0 := by
  intro h
  cases out with
  | boolean => exact hout rfl
  | integer t =>
    obtain ⟨hl, hu⟩ := hlt t rfl
    have hbits : BitVec.ofInt t.bits n = BitVec.ofInt t.bits 0 := eq_of_heq (MlirValue.int.inj h).2
    rw [ofInt_eq_ofInt_iff, sub_zero] at hbits
    exact hn (Int.eq_zero_of_abs_lt_dvd hbits (abs_lt.mpr ⟨hl, hu⟩))
  | float f =>
    have hf := (MlirValue.float.inj h).2
    rw [(ofInt_eq_zero_iff f.format 0).mpr rfl, ofInt_eq_zero_iff] at hf
    exact hn hf
  | complex f =>
    have hf := (MlirValue.complex.inj h).2.1
    rw [(ofInt_eq_zero_iff f.format 0).mpr rfl, ofInt_eq_zero_iff] at hf
    exact hn hf

theorem flips_of_wide {t s : IntType} (hw : t.bits ≤ s.bits) (hs : s.signed = true → t.bits ≠ s.bits) :
    ∃ x : Operand, x.ty = .integer s ∧ Flips (.integer t) x := by
  have htpos : 0 < t.bits := t.width.bits_pos
  have hpos : (0 : Int) < 2 ^ (t.bits - 1) := by positivity
  have h2 := two_pow_pred htpos
  let x : Operand := ⟨.integer s, BitVec.ofInt s.bits (2 ^ (t.bits - 1))⟩
  have hrange : InRange s.signed s.bits (2 ^ (t.bits - 1)) := by
    cases hsigned : s.signed with
    | true =>
      have hne := hs hsigned
      have hlt : (2 : Int) ^ (t.bits - 1) < 2 ^ (s.bits - 1) := pow_lt_pow_right₀ (by decide) (by omega)
      exact inRange_signed.mpr ⟨by omega, hlt⟩
    | false =>
      have hlt : (2 : Int) ^ (t.bits - 1) < 2 ^ s.bits := pow_lt_pow_right₀ (by decide) (by omega)
      exact inRange_unsigned.mpr ⟨hpos.le, hlt⟩
  have hvalue : x.value = 2 ^ (t.bits - 1) := (value_ofInt_iff s.width.bits_pos s.signed _).mpr hrange
  have htoNat : (x.bits.toNat : Int) = 2 ^ (t.bits - 1) := by
    have hlt : (2 : Int) ^ (t.bits - 1) < 2 ^ s.bits := pow_lt_pow_right₀ (by decide) (by omega)
    exact (value_ofInt_iff s.width.bits_pos false _).mpr (inRange_unsigned.mpr ⟨hpos.le, hlt⟩)
  have hreading : reading (.integer t) x = -2 ^ (t.bits - 1) := by
    have hneg : BitVec.ofInt t.bits (2 ^ (t.bits - 1)) = BitVec.ofInt t.bits (-2 ^ (t.bits - 1)) := by
      rw [ofInt_eq_ofInt_iff, sub_neg_eq_add, ← Int.two_mul, ← h2]
    rw [reading_integer, htoNat, hneg]
    exact (value_ofInt_iff htpos true _).mpr (inRange_signed.mpr ⟨le_refl _, by omega⟩)
  refine ⟨x, rfl, .inl ⟨by omega, by omega⟩, ?_, ?_⟩
  · refine castInt_ne_zero TruthValue.ScalarType.noConfusion (by omega) ?_
    rintro _ ⟨⟩
    omega
  · refine castInt_ne_zero TruthValue.ScalarType.noConfusion (by omega) ?_
    rintro _ ⟨⟩
    omega

theorem flips_of_narrow {t s : IntType} (hw : s.bits < t.bits) (hs : s.signed = true) :
    ∃ x : Operand, x.ty = .integer s ∧ Flips (.integer t) x := by
  have hspos : 0 < s.bits := s.width.bits_pos
  have htpos : 0 < t.bits := t.width.bits_pos
  have hpos : (0 : Int) < 2 ^ (s.bits - 1) := by positivity
  have h2 := two_pow_pred hspos
  have hlt : (2 : Int) ^ s.bits ≤ 2 ^ (t.bits - 1) := pow_le_pow_right₀ (by decide) (by omega)
  have hlt' : (2 : Int) ^ (t.bits - 1) ≤ 2 ^ t.bits := pow_le_pow_right₀ (by decide) (by omega)
  let x : Operand := ⟨.integer s, BitVec.ofInt s.bits (-1)⟩
  have hvalue : x.value = -1 := by
    refine (value_ofInt_iff hspos s.signed _).mpr ?_
    rw [hs]
    exact inRange_signed.mpr ⟨by omega, by omega⟩
  have htoNat : (x.bits.toNat : Int) = 2 ^ s.bits - 1 := by
    have hwrap : x.bits = BitVec.ofInt s.bits (2 ^ s.bits - 1) := by
      rw [← ofInt_sub_two_pow, show (2 : Int) ^ s.bits - 1 - 2 ^ s.bits = -1 by ring]
    rw [hwrap]
    exact (value_ofInt_iff hspos false _).mpr (inRange_unsigned.mpr ⟨by omega, by omega⟩)
  have hreading : reading (.integer t) x = 2 ^ s.bits - 1 := by
    rw [reading_integer, htoNat]
    exact (value_ofInt_iff htpos true _).mpr (inRange_signed.mpr ⟨by omega, by omega⟩)
  refine ⟨x, rfl, .inr ⟨by omega, by omega⟩, ?_, ?_⟩
  · refine castInt_ne_zero TruthValue.ScalarType.noConfusion (by omega) ?_
    rintro _ ⟨⟩
    omega
  · refine castInt_ne_zero TruthValue.ScalarType.noConfusion (by omega) ?_
    rintro _ ⟨⟩
    omega

theorem flips_of_unsigned {out : TruthValue.ScalarType} (hout : out ≠ .boolean) (hint : ∀ t, out ≠ .integer t) {s : IntType} (hs : s.signed = false) :
    Flips out (half (.integer s)) := by
  have hpos : (0 : Int) < 2 ^ (s.bits - 1) := by positivity
  have hvalue : (half (.integer s)).value = 2 ^ (s.bits - 1) := by
    rw [half_value, if_neg (by simp [OperandType.signed, hs])]
    rfl
  have hreading : reading out (half (.integer s)) = -2 ^ (s.bits - 1) := by
    have hw : 1 < s.bits := s.width.one_lt_bits
    have hread : reading out (half (.integer s)) = value (1 < s.bits) (BitVec.intMin s.bits) := by
      cases out with
      | boolean => exact absurd rfl hout
      | integer t => exact absurd rfl (hint t)
      | float f => rfl
      | complex f => rfl
    rw [hread, decide_eq_true hw]
    exact BitVec.toInt_intMin_of_pos s.width.bits_pos
  refine ⟨.inl ⟨by omega, by omega⟩, ?_, ?_⟩
  · exact castInt_ne_zero hout (by omega) fun t ht => absurd ht (hint t)
  · exact castInt_ne_zero hout (by omega) fun t ht => absurd ht (hint t)

theorem flips_of_not_keepsOrder {out : TruthValue.ScalarType} (hout : out ≠ .boolean) {d : OperandType} (h : ¬KeepsOrder out d) :
    ∃ x : Operand, x.ty = d ∧ Flips out x := by
  cases d with
  | boolean => cases out <;> first | exact absurd rfl hout | exact absurd trivial h
  | integer s =>
    cases out with
    | boolean => exact absurd rfl hout
    | integer t =>
      cases hs : s.signed with
      | true =>
        have hne : s.bits ≠ t.bits := by simpa [KeepsOrder, hs] using h
        rcases Nat.lt_or_gt_of_ne hne with hlt | hlt
        · exact flips_of_narrow hlt hs
        · exact flips_of_wide hlt.le fun _ => hlt.ne
      | false =>
        have hle : t.bits ≤ s.bits := by simpa [KeepsOrder, hs] using h
        exact flips_of_wide hle fun htrue => absurd (hs.symm.trans htrue) Bool.false_ne_true
    | float f => exact ⟨_, rfl, flips_of_unsigned hout (fun _ => TruthValue.ScalarType.noConfusion) (by simpa [KeepsOrder] using h)⟩
    | complex f => exact ⟨_, rfl, flips_of_unsigned hout (fun _ => TruthValue.ScalarType.noConfusion) (by simpa [KeepsOrder] using h)⟩

theorem Flips.pick_ne {out : TruthValue.ScalarType} {x : Operand} (h : Flips out x) (e : Extremum) :
    castInt out (e.pick (reading out x) 0) ≠ castInt out (e.pick x.value 0) ∧
      castInt out (e.pick 0 (reading out x)) ≠ castInt out (e.pick 0 x.value) := by
  have hcomm : ∀ m n, e.pick m n = e.pick n m := fun m n => by
    unfold Extremum.pick
    rw [max_comm, min_comm]
  rw [hcomm 0, hcomm 0, and_self]
  unfold Extremum.pick
  rcases h.signs with ⟨hv, hr⟩ | ⟨hv, hr⟩
  · rw [max_eq_right hr.le, min_eq_left hr.le, max_eq_left hv.le, min_eq_right hv.le]
    cases e.greater with
    | true => exact h.value_ne.symm
    | false => exact h.reading_ne
  · rw [max_eq_left hr.le, min_eq_right hr.le, max_eq_right hv.le, min_eq_left hv.le]
    cases e.greater with
    | true => exact h.reading_ne
    | false => exact h.value_ne.symm

/-! ## Loops -/

theorem extremumLoop_cases (a b : OperandType) : (a = .boolean ∧ b = .boolean ∧ extremumLoop a b = .boolean) ∨
    (∃ t, extremumLoop a b = .integer t) ∨
    extremumLoop a b = .float .float64 ∧ (a = .integer NumberTyping.uint64 ∨ b = .integer NumberTyping.uint64) := by
  cases a with
  | boolean =>
    cases b with
    | boolean => exact .inl ⟨rfl, rfl, rfl⟩
    | integer t =>
      obtain ⟨s, w⟩ := t
      cases s <;> cases w <;> exact .inr (.inl ⟨_, rfl⟩)
  | integer s =>
    have hloop : extremumLoop (.integer s) b =
        (findMatchingLoop integerLoops (.integer s) b).elim (.float .float64) .integer := by
      cases b with
      | boolean =>
        cases h : findMatchingLoop integerLoops (.integer s) .boolean <;> simp [extremumLoop, h]
      | integer t =>
        cases h : findMatchingLoop integerLoops (.integer s) (.integer t) <;> simp [extremumLoop, h]
    right
    cases hfind : findMatchingLoop integerLoops (.integer s) b with
    | some u => exact .inl ⟨u, by rw [hloop, hfind, Option.elim_some]⟩
    | none =>
      refine .inr ⟨by rw [hloop, hfind, Option.elim_none], ?_⟩
      cases b with
      | boolean =>
        obtain ⟨s, w⟩ := s
        cases s <;> cases w <;> exact absurd hfind (by decide)
      | integer t =>
        rcases (Ufunc.findMatchingLoop_eq_none_iff s t).mp hfind with ⟨rfl, -⟩ | ⟨-, rfl⟩
        · exact .inl rfl
        · exact .inr rfl

theorem arrayElement_extremum (e : Extremum) {out : TruthValue.ScalarType} (hout : out ≠ .boolean) (x y : Operand) :
    (BinaryUfunc.extremum e).arrayElement out x y = some (castInt out (e.pick (reading out x) (reading out y))) := by
  simp only [BinaryUfunc.arrayElement, convert_reading hout, BinaryUfunc.mathFn, Option.bind_eq_bind, Option.bind_some,
    e.fn_castInt hout (reading_readable out x) (reading_readable out y), convert_castInt]

theorem expected_extremum (e : Extremum) {out : TruthValue.ScalarType} {x y : Operand} (h : ∀ f, extremumLoop x.ty y.ty ≠ .float f) :
    (BinaryUfunc.extremum e).expected out x y = some (castInt out (e.pick x.value y.value)) := by
  unfold BinaryUfunc.expected
  cases hloop : extremumLoop x.ty y.ty with
  | float f => exact absurd hloop (h f)
  | boolean | integer | complex => rfl

theorem reading_zero {out : TruthValue.ScalarType} (d : OperandType) : reading out ⟨d, 0⟩ = 0 := by
  cases out with
  | integer t => simp [reading_integer]
  | boolean | float | complex => simp [reading, value]

def TakesFloats (out : TruthValue.ScalarType) : Prop := ∃ f, out = .float f ∨ out = .complex f

theorem takesFloats_of_kind {out : TruthValue.ScalarType} (h : 3 ≤ kind out) : TakesFloats out := by
  cases out with
  | boolean => exact absurd h (by decide)
  | integer t =>
    cases hs : t.signed <;> simp [kind, hs] at h
  | float f => exact ⟨f, .inl rfl⟩
  | complex f => exact ⟨f, .inr rfl⟩

theorem TakesFloats.ne_boolean {out : TruthValue.ScalarType} (h : TakesFloats out) : out ≠ .boolean := by
  rintro rfl
  obtain ⟨f, h | h⟩ := h <;> cases h

theorem TakesFloats.ne_integer {out : TruthValue.ScalarType} (h : TakesFloats out) (t : IntType) : out ≠ .integer t := by
  rintro rfl
  obtain ⟨f, h | h⟩ := h <;> cases h

theorem floatExtremum_eq (e : Extremum) (f : FloatType) (out : TruthValue.ScalarType) (m n : Int) :
    floatExtremum e f out m n = convert none (.float f (BinaryFloat.ofInt f.format (e.pick m n))) out.toMlir := by
  rw [floatExtremum, floatMinMax_ofInt f.format e (ofInt_ne_nan f.format m)]

theorem convert_float_zero {out : TruthValue.ScalarType} (h : TakesFloats out) :
    convert none (.float .float64 (BinaryFloat.ofInt BinaryFloat.binary64 0)) out.toMlir = some (castInt out 0) := by
  have hzero : ∀ f : BinaryFloat.Format, BinaryFloat.ofInt f 0 = .finite 0 := fun f => (ofInt_eq_zero_iff f 0).mpr rfl
  obtain ⟨f, rfl | rfl⟩ := h
  · simp only [TruthValue.ScalarType.toMlir, convert, castInt, hzero, convertFloat_zero]
  · simp only [TruthValue.ScalarType.toMlir, convert, castInt, hzero, convertFloat_zero]

theorem convert_float_half {out : TruthValue.ScalarType} (h : TakesFloats out) :
    convert none (.float .float64 (BinaryFloat.ofInt BinaryFloat.binary64 (2 ^ 63))) out.toMlir ≠ some (castInt out 0) := by
  have hne : ∀ f : FloatType, convertFloat .float64 f (BinaryFloat.ofInt BinaryFloat.binary64 (2 ^ 63)) ≠ .finite 0 := by
    intro f
    cases f <;> decide +kernel
  have hzero : ∀ f : BinaryFloat.Format, BinaryFloat.ofInt f 0 = .finite 0 := fun f => (ofInt_eq_zero_iff f 0).mpr rfl
  obtain ⟨f, rfl | rfl⟩ := h
  · intro heq
    have hf := (MlirValue.float.inj (Option.some.inj heq)).2
    rw [hzero] at hf
    exact hne f hf
  · intro heq
    have hf := (MlirValue.complex.inj (Option.some.inj heq)).2.1
    rw [hzero] at hf
    exact hne f hf

theorem floatLoop_differs (e : Extremum) {out : TruthValue.ScalarType} (h : TakesFloats out) {x : Operand} (hx : x = half (.integer NumberTyping.uint64)) :
    some (castInt out (e.pick (reading out x) 0)) ≠ floatExtremum e .float64 out x.value 0 ∧
      some (castInt out (e.pick 0 (reading out x))) ≠ floatExtremum e .float64 out 0 x.value := by
  have hcomm : ∀ m n, e.pick m n = e.pick n m := fun m n => by
    unfold Extremum.pick
    rw [max_comm, min_comm]
  have hvalue : x.value = 2 ^ 63 := by rw [hx]; exact half_value _
  have hflips : Flips out x := hx ▸ flips_of_unsigned h.ne_boolean h.ne_integer rfl
  obtain ⟨-, hr⟩ | ⟨hv, -⟩ := hflips.signs
  · rw [floatExtremum_eq, floatExtremum_eq, hcomm 0, hcomm 0, and_self, hvalue]
    unfold Extremum.pick
    rw [max_eq_right hr.le, min_eq_left hr.le, max_eq_left (by decide), min_eq_right (by decide)]
    cases e.greater with
    | true => exact (convert_float_half h).symm
    | false =>
      intro heq
      exact hflips.reading_ne (Option.some.inj (heq.trans (convert_float_zero h)))
  · rw [hvalue] at hv
    exact absurd hv (by decide)

/-! ## Exactness at an element -/

/-- The result at every pair of elements is the one that is expected. -/
def ExactAt (u : BinaryUfunc) (out : TruthValue.ScalarType) (f : Operand → Operand → Option MlirValue) (a b : OperandType) : Prop :=
  ∀ x y : Operand, x.ty = a → y.ty = b → ∃ v, f x y = some v ∧ u.expected out x y = some v

theorem extremum_boolean (e : Extremum) : ¬ExactAt (.extremum e) .boolean ((BinaryUfunc.extremum e).arrayElement .boolean) .boolean .boolean := by
  intro h
  obtain ⟨v, hcode, hnumpy⟩ := h ⟨.boolean, 1#1⟩ ⟨.boolean, 0#1⟩ rfl rfl
  have hbit : ∀ {x y : BitVec 1}, some (MlirValue.int 1 x) = some v → some (MlirValue.int 1 y) = some v → x = y := fun hx hy =>
    eq_of_heq (MlirValue.int.inj (Option.some.inj (hx.trans hy.symm))).2
  cases e with
  | maximum | fmax => exact absurd (hbit (x := 0) (y := 1) hcode hnumpy) (by decide)
  | minimum | fmin => exact absurd (hbit (x := 1) (y := 0) hcode hnumpy) (by decide)

theorem keepsOrder_of_exact (e : Extremum) {out : TruthValue.ScalarType} (hout : out ≠ .boolean) {a b : OperandType}
    (hkind : kind (extremumLoop a b) ≤ kind out) (h : ExactAt (.extremum e) out ((BinaryUfunc.extremum e).arrayElement out) a b) :
    KeepsOrder out a ∧ KeepsOrder out b := by
  have hcode : ∀ x y : Operand, x.ty = a → y.ty = b →
      (BinaryUfunc.extremum e).expected out x y = some (castInt out (e.pick (reading out x) (reading out y))) := by
    intro x y hx hy
    obtain ⟨v, hv, hexpected⟩ := h x y hx hy
    rw [hexpected, ← hv, arrayElement_extremum e hout]
  rcases extremumLoop_cases a b with ⟨rfl, rfl, -⟩ | ⟨t, ht⟩ | ⟨hloop, hwide⟩
  · cases out with
    | boolean => exact absurd rfl hout
    | integer | float | complex => exact ⟨trivial, trivial⟩
  · have hvalue : ∀ x y : Operand, x.ty = a → y.ty = b →
        castInt out (e.pick (reading out x) (reading out y)) = castInt out (e.pick x.value y.value) := by
      intro x y hx hy
      have hxy := hcode x y hx hy
      rw [expected_extremum e (by rw [hx, hy, ht]; exact fun _ => TruthValue.ScalarType.noConfusion)] at hxy
      exact (Option.some.inj hxy).symm
    constructor
    · by_contra hkeeps
      obtain ⟨x, hx, hflips⟩ := flips_of_not_keepsOrder hout hkeeps
      have hxy := hvalue x ⟨b, 0⟩ hx rfl
      rw [reading_zero, value_zero] at hxy
      exact (hflips.pick_ne e).1 hxy
    · by_contra hkeeps
      obtain ⟨y, hy, hflips⟩ := flips_of_not_keepsOrder hout hkeeps
      have hxy := hvalue ⟨a, 0⟩ y rfl hy
      rw [reading_zero, value_zero] at hxy
      exact (hflips.pick_ne e).2 hxy
  · exfalso
    have htakes : TakesFloats out := takesFloats_of_kind (by rw [hloop] at hkind; exact hkind)
    have hfloat : ∀ x y : Operand, x.ty = a → y.ty = b →
        floatExtremum e .float64 out x.value y.value = some (castInt out (e.pick (reading out x) (reading out y))) := by
      intro x y hx hy
      have hxy := hcode x y hx hy
      rw [BinaryUfunc.expected, hx, hy, hloop] at hxy
      exact hxy
    rcases hwide with rfl | rfl
    · have hxy := hfloat (half _) ⟨b, 0⟩ rfl rfl
      rw [reading_zero, value_zero] at hxy
      exact (floatLoop_differs e htakes rfl).1 hxy.symm
    · have hxy := hfloat ⟨a, 0⟩ (half _) rfl rfl
      rw [reading_zero, value_zero] at hxy
      exact (floatLoop_differs e htakes rfl).2 hxy.symm

theorem not_float_of_keepsOrder {out : TruthValue.ScalarType} {a b : OperandType} (hkind : kind (extremumLoop a b) ≤ kind out)
    (ha : KeepsOrder out a) (hb : KeepsOrder out b) (f : FloatType) : extremumLoop a b ≠ .float f := by
  intro hfloat
  rcases extremumLoop_cases a b with ⟨-, -, hloop⟩ | ⟨t, hloop⟩ | ⟨hloop, hwide⟩
  · rw [hloop] at hfloat
    cases hfloat
  · rw [hloop] at hfloat
    cases hfloat
  · obtain ⟨g, hg⟩ := takesFloats_of_kind (by rw [hloop] at hkind; exact hkind)
    rcases hwide with rfl | rfl
    · rcases hg with rfl | rfl <;> cases ha
    · rcases hg with rfl | rfl <;> cases hb

theorem extremum_exact_iff (e : Extremum) {out : TruthValue.ScalarType} {a b : OperandType} (hkind : kind (extremumLoop a b) ≤ kind out) :
    ExactAt (.extremum e) out ((BinaryUfunc.extremum e).arrayElement out) a b ↔ KeepsOrder out a ∧ KeepsOrder out b := by
  by_cases hout : out = .boolean
  · subst hout
    have hbool : a = .boolean ∧ b = .boolean := by
      rcases extremumLoop_cases a b with ⟨ha, hb, -⟩ | ⟨t, hloop⟩ | ⟨hloop, -⟩
      · exact ⟨ha, hb⟩
      · rw [hloop] at hkind
        cases hs : t.signed <;> simp [kind, hs] at hkind
      · rw [hloop] at hkind
        exact absurd hkind (by decide)
    obtain ⟨rfl, rfl⟩ := hbool
    exact iff_of_false (extremum_boolean e) fun h => h.1
  · constructor
    · exact keepsOrder_of_exact e hout hkind
    · rintro ⟨ha, hb⟩ x y rfl rfl
      refine ⟨_, arrayElement_extremum e hout x y, ?_⟩
      rw [expected_extremum e (not_float_of_keepsOrder hkind ha hb), reading_eq_value ha, reading_eq_value hb]

theorem exactAt_bool {u : BinaryUfunc} {out : TruthValue.ScalarType} {a b : OperandType} {f : Operand → Operand → Option MlirValue}
    {code numpy : Operand → Operand → Bool} (hcode : ∀ x y, f x y = some (castInt out (code x y).toNat))
    (hnumpy : ∀ x y, u.expected out x y = some (castInt out (numpy x y).toNat)) :
    ExactAt u out f a b ↔ ∀ x y : Operand, x.ty = a → y.ty = b → code x y = numpy x y := by
  refine forall_congr' fun x => forall_congr' fun y => forall_congr' fun _ => forall_congr' fun _ => ?_
  rw [hcode, hnumpy]
  constructor
  · rintro ⟨v, hv, hv'⟩
    exact (castInt_toNat_inj out).mp (Option.some.inj (hv.trans hv'.symm))
  · intro heq
    exact ⟨_, rfl, by rw [heq]⟩

/-- The truth value of an operand after its conversion. -/
def convertedTruth (out : TruthValue.ScalarType) (x : Operand) : Bool := ((convert none (load x) out.toMlir).map toBool).getD false

theorem arrayElement_logical (l : Logical) (out : TruthValue.ScalarType) (x y : Operand) : (BinaryUfunc.logical l).arrayElement out x y =
    some (castInt out (l.table (convertedTruth out x) (convertedTruth out y)).toNat) := by
  obtain ⟨v, hv⟩ := convert_load x out
  obtain ⟨w, hw⟩ := convert_load y out
  simp only [BinaryUfunc.arrayElement, BinaryUfunc.mathFn, hv, hw, Option.bind_eq_bind, Option.bind_some, convert_bool, Logical.fn_eq,
    convertedTruth, Option.map_some, Option.getD_some]

theorem convertedTruth_zero (out : TruthValue.ScalarType) (d : OperandType) : convertedTruth out ⟨d, 0⟩ = false := by
  have hkept : KeptBy out (scalarOf ⟨d, 0⟩) := by
    cases d with
    | boolean => cases out <;> trivial
    | integer s =>
      cases out with
      | integer t => exact .inl rfl
      | boolean | float | complex => trivial
  rw [convertedTruth, ← load_scalarOf, (keptBy_iff out _).mpr hkept, Option.getD_some, truth_scalarOf, value_zero]
  rfl

theorem convertedTruth_iff {out : TruthValue.ScalarType} {d : OperandType} :
    (∀ x : Operand, x.ty = d → convertedTruth out x = decide (x.value ≠ 0)) ↔ KeepsTruth out d := by
  rw [← keepsTruth_iff]
  refine forall_congr' fun x => forall_congr' fun _ => ?_
  obtain ⟨v, hv⟩ := convert_load x out
  rw [convertedTruth, hv, Option.map_some, Option.getD_some, Option.some.injEq]

/-- The types at which the elements of arrays are computed with exactly. -/
def BinaryUfunc.Keeps (u : BinaryUfunc) (out : TruthValue.ScalarType) (a b : OperandType) : Prop :=
  match u with
  | comparison c => a = b ∧ (c.isOrder = true → a.signed = true)
  | logical _ => KeepsTruth out a ∧ KeepsTruth out b
  | extremum _ => KeepsOrder out a ∧ KeepsOrder out b

def BinaryUfunc.KeepsScalars (u : BinaryUfunc) (out : TruthValue.ScalarType) (a b : OperandType) : Prop :=
  match u with
  | comparison _ | extremum _ => u.Keeps out a b
  | logical _ => True

theorem arrayElement_exact_iff (u : BinaryUfunc) {out : TruthValue.ScalarType} {a b : OperandType} (hverifies : u.verifies a b = true)
    (hkind : kind (u.outputType a b) ≤ kind out) : ExactAt u out (u.arrayElement out) a b ↔ u.Keeps out a b := by
  cases u with
  | comparison c =>
    have hbool := exactAt_bool (u := .comparison c) (a := a) (b := b) (fun x y => convert_bool (c.fn x y) out) fun _ _ => rfl
    exact hbool.trans (c.exact_iff (of_decide_eq_true hverifies))
  | logical l =>
    have hbool := exactAt_bool (u := .logical l) (a := a) (b := b) (arrayElement_logical l out) fun _ _ => rfl
    rw [l.exact_iff (convertedTruth_zero out), convertedTruth_iff, convertedTruth_iff] at hbool
    exact hbool
  | extremum e => exact extremum_exact_iff e hkind

theorem scalarElement_exact_iff (u : BinaryUfunc) {out : TruthValue.ScalarType} {a b : OperandType} (hverifies : u.verifies a b = true)
    (hkind : kind (u.outputType a b) ≤ kind out) : ExactAt u out (u.scalarElement out) a b ↔ u.KeepsScalars out a b := by
  cases u with
  | comparison c =>
    have hbool := exactAt_bool (u := .comparison c) (a := a) (b := b) (fun x y => congrArg some (boolToValueType_eq (c.fn x y) out)) fun _ _ => rfl
    exact hbool.trans (c.exact_iff (of_decide_eq_true hverifies))
  | logical l =>
    have hbool := exactAt_bool (u := .logical l) (a := a) (b := b)
      (fun x y => congrArg some (boolToValueType_eq (l.fn (load x) (load y)) out)) fun _ _ => rfl
    refine hbool.trans (iff_of_true (fun x y _ _ => ?_) trivial)
    rw [Logical.fn_eq, Logical.holds_eq, toBool_operand, toBool_operand]
  | extremum e => exact extremum_exact_iff e hkind

end NumbaCudaMlir.Elementwise

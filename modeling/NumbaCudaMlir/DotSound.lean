import NumbaCudaMlir.Dot

/-!
# Soundness of products of arrays

Operands are extended by their sign and read as signed, which is right for the
signed types and for the type of the result itself. No module with an array of
more than one dimension on one side only verifies, and the loops read past the
end of the right operand where the left one is longer.
-/

namespace NumbaCudaMlir.Dot

open MachineInt
open NumberTyping (UnifiedType OperandType unifyTypes promoteTypes maxWidth nextSigned unifyTypes_covers)
open Tensor (indices InShape)

/-! ## Types -/

/-- The operand has the sign that the conversion assumes, or is of the type of the result. -/
def Fits : UnifiedType → IntType → Prop
  | .boolean, _ => False
  | .integer ty, x => x.signed = true ∨ x.bits = ty.bits
  | .float64, x => x.signed = true

theorem unifyDtypes_eq (a b : IntType) : unifyDtypes a b = promoteTypes a b ∨ unifyDtypes a b = promoteTypes b a := by
  unfold unifyDtypes unifyTypes
  by_cases h : a.bits ≤ b.bits
  · have hsort : [OperandType.integer a, .integer b].insertionSort (fun a b => a.bitwidth ≤ b.bitwidth) = [.integer a, .integer b] := by
      simp [List.insertionSort, List.orderedInsert, OperandType.bitwidth, h]
    rw [hsort]
    exact .inl rfl
  · have hsort : [OperandType.integer a, .integer b].insertionSort (fun a b => a.bitwidth ≤ b.bitwidth) = [.integer b, .integer a] := by
      simp [List.insertionSort, List.orderedInsert, OperandType.bitwidth, h]
    rw [hsort]
    exact .inr rfl

theorem bits_le_of_unifyDtypes {a b t : IntType} (h : unifyDtypes a b = .integer t) : a.bits ≤ t.bits ∧ b.bits ≤ t.bits := by
  have ha : (unifyDtypes a b).Covers (.integer a) := unifyTypes_covers (by simp)
  have hb : (unifyDtypes a b).Covers (.integer b) := unifyTypes_covers (by simp)
  rw [h] at ha hb
  exact ⟨ha, hb⟩

theorem bits_maxWidth (a b : IntType) : (maxWidth a b).bits = max a.bits b.bits := by
  unfold maxWidth
  split
  · exact (Nat.max_eq_right (Nat.le_of_lt ‹_›)).symm
  · exact (Nat.max_eq_left (Nat.le_of_not_lt ‹_›)).symm

theorem nextSigned_bits {w : Width} {t : IntType} (h : nextSigned w = .integer t) : w.bits < t.bits := by
  cases w with
  | w64 => cases h
  | w8 => cases h; decide
  | w16 => cases h; decide
  | w32 => cases h; decide

theorem nextSigned_float64 {w : Width} (h : nextSigned w = .float64) : w.bits = 64 := by
  cases w with
  | w64 => rfl
  | w8 => cases h
  | w16 => cases h
  | w32 => cases h

theorem promoteTypes_fits {a b t : IntType} (h : promoteTypes a b = .integer t) (ha : Fits (.integer t) a) (hb : Fits (.integer t) b) :
    t.bits = max a.bits b.bits := by
  unfold promoteTypes at h
  by_cases hs : a.signed = b.signed
  · rw [if_pos hs] at h
    cases h
    exact bits_maxWidth a b
  · rw [if_neg hs] at h
    cases has : a.signed with
    | true =>
      rw [if_pos has] at h
      have hbs : b.signed = false := by simpa [has] using hs
      by_cases hlt : b.bits < a.bits
      · rw [if_pos hlt] at h
        cases h
        omega
      · rw [if_neg hlt] at h
        have hlt := nextSigned_bits h
        rcases hb with hb | hb
        · exact absurd hb (by simp [hbs])
        · exact absurd hb hlt.ne
    | false =>
      rw [if_neg (by simp [has])] at h
      by_cases hlt : a.bits < b.bits
      · rw [if_pos hlt] at h
        cases h
        omega
      · rw [if_neg hlt] at h
        have hlt := nextSigned_bits h
        rcases ha with ha | ha
        · exact absurd ha (by simp [has])
        · exact absurd ha hlt.ne

theorem promoteTypes_float64 {a b : IntType} (h : promoteTypes a b = .float64) :
    a.signed = false ∧ a.bits = 64 ∨ b.signed = false ∧ b.bits = 64 := by
  unfold promoteTypes at h
  by_cases hs : a.signed = b.signed
  · rw [if_pos hs] at h
    cases h
  · rw [if_neg hs] at h
    cases has : a.signed with
    | true =>
      have hbs : b.signed = false := by simpa [has] using hs
      rw [if_pos has] at h
      by_cases hlt : b.bits < a.bits
      · rw [if_pos hlt] at h
        cases h
      · rw [if_neg hlt] at h
        exact .inr ⟨hbs, nextSigned_float64 h⟩
    | false =>
      rw [if_neg (by simp [has])] at h
      by_cases hlt : a.bits < b.bits
      · rw [if_pos hlt] at h
        cases h
      · rw [if_neg hlt] at h
        exact .inl ⟨rfl, nextSigned_float64 h⟩

theorem promoteTypes_ne_boolean (a b : IntType) : promoteTypes a b ≠ .boolean := by
  unfold promoteTypes
  have hnext : ∀ w : Width, nextSigned w ≠ .boolean := fun w => by cases w <;> exact UnifiedType.noConfusion
  split_ifs
  · exact UnifiedType.noConfusion
  · exact UnifiedType.noConfusion
  · exact hnext _
  · exact UnifiedType.noConfusion
  · exact hnext _

theorem unifyDtypes_ne_boolean (a b : IntType) : unifyDtypes a b ≠ .boolean := by
  rcases unifyDtypes_eq a b with h | h
  · exact h ▸ promoteTypes_ne_boolean a b
  · exact h ▸ promoteTypes_ne_boolean b a

theorem bits_of_fits {a b t : IntType} (h : unifyDtypes a b = .integer t) (ha : Fits (.integer t) a) (hb : Fits (.integer t) b) :
    t.bits = max a.bits b.bits := by
  rcases unifyDtypes_eq a b with heq | heq
  · exact promoteTypes_fits (heq ▸ h) ha hb
  · rw [Nat.max_comm]
    exact promoteTypes_fits (heq ▸ h) hb ha

theorem wide_unsigned_of_float64 {a b : IntType} (h : unifyDtypes a b = .float64) :
    a.signed = false ∧ a.bits = 64 ∨ b.signed = false ∧ b.bits = 64 := by
  rcases unifyDtypes_eq a b with heq | heq
  · exact promoteTypes_float64 (heq ▸ h)
  · exact (promoteTypes_float64 (heq ▸ h)).symm

/-! ## Products -/

section
variable {v w : Nat}

theorem inRange_max_left (x : BitVec v) (hv : 0 < v) : InRange true (max v w) x.toInt := by
  have h := value_inRange hv true x
  rw [value_signed, inRange_signed] at h
  have hle : (2 : Int) ^ (v - 1) ≤ 2 ^ (max v w - 1) := pow_le_pow_right₀ (by decide) (by omega)
  exact inRange_signed.mpr ⟨by omega, by omega⟩

def matrixTerm (target : UnifiedType) (x : BitVec v) (y : BitVec w) : Value target :=
  mulValue target (simpleScalarConversion target x) (simpleScalarConversion target y)

def vectorTerm : (target : UnifiedType) → BitVec v → BitVec w → Value target
  | .boolean, x, y => convertInteger (some true) 1 (mul x y)
  | .integer ty, x, y => convertInteger (some true) ty.bits (mul x y)
  | .float64, x, y => intToFp true BinaryFloat.binary64 (mul x y)

theorem addProduct_eq (target : UnifiedType) (acc : Value target) (x : BitVec v) (y : BitVec w) :
    addProduct target acc (mul x y) = addValue target acc (vectorTerm target x y) := by
  cases target <;> rfl

theorem mul_eq (x : BitVec v) (y : BitVec w) (hv : 1 < v) (hw : 1 < w) : mul x y = BitVec.ofInt (max v w) (x.toInt * y.toInt) := by
  rw [mul, convertInteger_eq (.inl (by omega)), convertInteger_eq (.inl (by omega)), BitVec.ofInt_mul]
  rfl

/-- The product of the signed readings; a product of two widths is taken at the wider one before it is extended. -/
def Multiplies : (target : UnifiedType) → (BitVec v → BitVec w → Value target) → Prop
  | .boolean, _ => False
  | .integer ty, term => ∀ x y, ty.bits = max v w ∨ InRange true (max v w) (x.toInt * y.toInt) →
      term x y = BitVec.ofInt ty.bits (x.toInt * y.toInt)
  | .float64, term => ∀ x y, InRange true (max v w) (x.toInt * y.toInt) →
      (x.toInt, y.toInt) ∈ [(0, 0), (-2 ^ 63, 1), (1, -2 ^ 63)] → term x y = .finite (x.toInt * y.toInt : Int)

theorem ofInt_exact {x y : Int} (h : (x, y) ∈ [(0, 0), (-2 ^ 63, 1), (1, -2 ^ 63)]) :
    BinaryFloat.ofInt BinaryFloat.binary64 (x * y) = .finite (x * y : Int) := by
  have hall : ∀ p ∈ [((0 : Int), (0 : Int)), (-2 ^ 63, 1), (1, -2 ^ 63)],
      BinaryFloat.ofInt BinaryFloat.binary64 (p.1 * p.2) = .finite (p.1 * p.2 : Int) := by
    decide +kernel
  have hxy := hall (x, y) h
  dsimp only at hxy
  exact hxy

theorem mul_ofInt_exact {x y : Int} (h : (x, y) ∈ [(0, 0), (-2 ^ 63, 1), (1, -2 ^ 63)]) :
    BinaryFloat.mul BinaryFloat.binary64 (BinaryFloat.ofInt BinaryFloat.binary64 x) (BinaryFloat.ofInt BinaryFloat.binary64 y) =
      .finite (x * y : Int) := by
  have hall : ∀ p ∈ [((0 : Int), (0 : Int)), (-2 ^ 63, 1), (1, -2 ^ 63)],
      BinaryFloat.mul BinaryFloat.binary64 (BinaryFloat.ofInt BinaryFloat.binary64 p.1) (BinaryFloat.ofInt BinaryFloat.binary64 p.2) =
        .finite (p.1 * p.2 : Int) := by
    decide +kernel
  have hxy := hall (x, y) h
  dsimp only at hxy
  exact hxy

theorem ofInt_value_ofInt {v w : Nat} (h : v ≤ w) (signed : Bool) (n : Int) :
    BitVec.ofInt v (value signed (BitVec.ofInt w n)) = BitVec.ofInt v n := by
  rw [ofInt_eq_ofInt_iff]
  exact (two_pow_dvd_iff.mpr h).trans (ofInt_eq_ofInt_iff.mp (ofInt_value signed (BitVec.ofInt w n)))

theorem simpleScalarConversion_integer {t : IntType} (h : v ≤ t.bits) (x : BitVec v) :
    simpleScalarConversion (.integer t) x = BitVec.ofInt t.bits x.toInt :=
  if_neg (Nat.not_lt.mpr h)

theorem matrixTerm_multiplies {target : UnifiedType} (hne : target ≠ .boolean) (hv : 1 < v) (hw : 1 < w)
    (hle : ∀ t, target = .integer t → v ≤ t.bits ∧ w ≤ t.bits) : Multiplies target (matrixTerm (v := v) (w := w) target) := by
  cases target with
  | boolean => exact hne rfl
  | integer t =>
    intro x y _
    obtain ⟨hvt, hwt⟩ := hle t rfl
    rw [matrixTerm, simpleScalarConversion_integer hvt, simpleScalarConversion_integer hwt, BitVec.ofInt_mul]
    rfl
  | float64 =>
    intro x y _ hmem
    have hconv : matrixTerm .float64 x y =
        BinaryFloat.mul BinaryFloat.binary64 (BinaryFloat.ofInt BinaryFloat.binary64 x.toInt) (BinaryFloat.ofInt BinaryFloat.binary64 y.toInt) := by
      rw [matrixTerm, mulValue, simpleScalarConversion, simpleScalarConversion, decide_eq_true hv, decide_eq_true hw, intToFp, intToFp,
        value_signed, value_signed]
    rw [hconv]
    exact mul_ofInt_exact hmem

theorem vectorTerm_multiplies {target : UnifiedType} (hne : target ≠ .boolean) (hv : 1 < v) (hw : 1 < w) :
    Multiplies target (vectorTerm (v := v) (w := w) target) := by
  have hread : ∀ {x : BitVec v} {y : BitVec w}, InRange true (max v w) (x.toInt * y.toInt) → value true (mul x y) = x.toInt * y.toInt := by
    intro x y h
    rw [mul_eq x y hv hw, value_ofInt_iff (by omega)]
    exact h
  cases target with
  | boolean => exact hne rfl
  | integer t =>
    intro x y h
    have h1 : t.bits ≠ 1 := t.width.one_lt_bits.ne'
    rw [vectorTerm, convertInteger_eq (.inl h1), decide_eq_true rfl]
    rcases h with h | h
    · rw [mul_eq x y hv hw]
      exact ofInt_value_ofInt h.le true _
    · rw [hread h]
  | float64 =>
    intro x y h hmem
    rw [vectorTerm, intToFp, hread h]
    exact ofInt_exact hmem

/-! ## Sums -/

theorem foldl_ofInt {n : Nat} {f : BitVec w → Nat → BitVec w} {g : Nat → Int} (h : ∀ acc k, f acc k = acc + BitVec.ofInt w (g k)) :
    (List.range n).foldl f 0#w = BitVec.ofInt w ((List.range n).map g).sum := by
  induction n with
  | zero => rfl
  | succ n ih =>
    rw [List.range_succ, List.foldl_append, ih, List.foldl_cons, List.foldl_nil, h, List.map_append, List.sum_append, List.map_singleton,
      List.sum_singleton, BitVec.ofInt_add]

theorem foldl_first {α : Type} {f : α → Nat → α} {z y : α} (hfirst : f z 0 = y) (hrest : ∀ k, f y (k + 1) = y) (n : Nat) :
    (List.range (n + 1)).foldl f z = y := by
  induction n with
  | zero => exact hfirst
  | succ n ih => rw [List.range_succ, List.foldl_append, ih, List.foldl_cons, List.foldl_nil, hrest]

theorem sum_first {g : Nat → Int} (hrest : ∀ k, g (k + 1) = 0) (n : Nat) : ((List.range (n + 1)).map g).sum = g 0 := by
  induction n with
  | zero => exact Int.add_zero _
  | succ n ih => rw [List.range_succ, List.map_append, List.sum_append, ih, List.map_singleton, List.sum_singleton, hrest, Int.add_zero]

def sole {u : Nat} (x : BitVec u) (k : Nat) : BitVec u := if k = 0 then x else 0#u

variable {a b : IntType} {target : UnifiedType} {term : BitVec a.bits → BitVec b.bits → Value target}

def Exact (a b : IntType) (target : UnifiedType) (term : BitVec a.bits → BitVec b.bits → Value target) (n : Nat) : Prop :=
  ∀ (xs : Nat → BitVec a.bits) (ys : Nat → BitVec b.bits),
    StandsFor target ((List.range n).map fun k => value a.signed (xs k) * value b.signed (ys k)).sum
      ((List.range n).foldl (fun acc k => addValue target acc (term (xs k) (ys k))) (zero target))

theorem ofInt_value_of_fits {t c : IntType} (h : Fits (.integer t) c) (x : BitVec c.bits) :
    BitVec.ofInt t.bits (value c.signed x) = BitVec.ofInt t.bits x.toInt := by
  rcases h with h | h
  · rw [h, value_signed]
  · have hx : BitVec.ofInt c.bits (value c.signed x) = BitVec.ofInt c.bits x.toInt := by rw [ofInt_value, BitVec.ofInt_toInt]
    rw [ofInt_eq_ofInt_iff] at hx ⊢
    exact h ▸ hx

theorem exact_zero (hne : target ≠ .boolean) : Exact a b target term 0 := by
  intro xs ys
  cases target with
  | boolean => exact hne rfl
  | integer t => rfl
  | float64 => rfl

theorem exact_of_fits {t : IntType} {term : BitVec a.bits → BitVec b.bits → Value (.integer t)} (hterm : Multiplies (.integer t) term)
    (ht : unifyDtypes a b = .integer t) (ha : Fits (.integer t) a) (hb : Fits (.integer t) b) (n : Nat) : Exact a b (.integer t) term n := by
  intro xs ys
  refine foldl_ofInt fun acc k => ?_
  have hk := hterm (xs k) (ys k) (.inl (bits_of_fits ht ha hb))
  have hown : BitVec.ofInt t.bits (value a.signed (xs k) * value b.signed (ys k)) = BitVec.ofInt t.bits ((xs k).toInt * (ys k).toInt) := by
    rw [BitVec.ofInt_mul, BitVec.ofInt_mul, ofInt_value_of_fits ha, ofInt_value_of_fits hb]
  rw [hown, ← hk]
  rfl

theorem exact_at {t : IntType} {term : BitVec a.bits → BitVec b.bits → Value (.integer t)} (hterm : Multiplies (.integer t) term) {n : Nat}
    (h : Exact a b (.integer t) term (n + 1)) {x : BitVec a.bits} {y : BitVec b.bits}
    (hrange : InRange true (max a.bits b.bits) (x.toInt * y.toInt)) :
    (2 : Int) ^ t.bits ∣ value a.signed x * value b.signed y - x.toInt * y.toInt := by
  have hzero : InRange true (max a.bits b.bits) ((0#a.bits).toInt * (0#b.bits).toInt) := by
    have hpos : (0 : Int) < 2 ^ (max a.bits b.bits - 1) := by positivity
    rw [BitVec.toInt_zero, Int.zero_mul, inRange_signed]
    omega
  have hcode : (List.range (n + 1)).foldl (fun acc k => addValue (.integer t) acc (term (sole x k) (sole y k))) (zero (.integer t)) =
      BitVec.ofInt t.bits (x.toInt * y.toInt) := by
    refine (foldl_ofInt (g := fun k => (sole x k).toInt * (sole y k).toInt) fun acc k => ?_).trans ?_
    · have hk : term (sole x k) (sole y k) = BitVec.ofInt t.bits ((sole x k).toInt * (sole y k).toInt) := by
        refine hterm _ _ (.inr ?_)
        cases k with
        | zero => exact hrange
        | succ k => exact hzero
      rw [← hk]
      rfl
    · rw [sum_first fun k => by rw [sole, if_neg (Nat.succ_ne_zero k), BitVec.toInt_zero, Int.zero_mul]]
      rfl
  have hown := h (sole x) (sole y)
  rw [hcode, sum_first fun k => by simp [sole, value]] at hown
  exact ofInt_eq_ofInt_iff.mp hown.symm

theorem addValue_first {p : Int} (h : p = -2 ^ 63) :
    addValue .float64 (.finite 0) (.finite p) = .finite p ∧ addValue .float64 (.finite p) (.finite 0) = .finite p := by
  subst h
  have hadd : BinaryFloat.add BinaryFloat.binary64 (.finite 0) (.finite (-2 ^ 63 : Int)) = .finite (-2 ^ 63 : Int) ∧
      BinaryFloat.add BinaryFloat.binary64 (.finite (-2 ^ 63 : Int)) (.finite 0) = .finite (-2 ^ 63 : Int) := by
    decide +kernel
  exact hadd

theorem exact_at_float {term : BitVec a.bits → BitVec b.bits → Value .float64} (hterm : Multiplies .float64 term) {n : Nat}
    (h : Exact a b .float64 term (n + 1)) {x : BitVec a.bits} {y : BitVec b.bits}
    (hrange : InRange true (max a.bits b.bits) (x.toInt * y.toInt)) (hmem : (x.toInt, y.toInt) ∈ [(-2 ^ 63, 1), (1, -2 ^ 63)]) :
    value a.signed x * value b.signed y = x.toInt * y.toInt := by
  have hp : x.toInt * y.toInt = -2 ^ 63 := by
    simp only [List.mem_cons, Prod.mk.injEq, List.not_mem_nil, or_false] at hmem
    rcases hmem with ⟨hx, hy⟩ | ⟨hx, hy⟩ <;> rw [hx, hy] <;> decide
  obtain ⟨hfirst, hrest⟩ := addValue_first hp
  have hzero : term 0#a.bits 0#b.bits = .finite 0 := by
    have hpos : (0 : Int) < 2 ^ (max a.bits b.bits - 1) := by positivity
    have hterm0 := hterm 0#a.bits 0#b.bits (by rw [BitVec.toInt_zero, Int.zero_mul, inRange_signed]; omega) (by simp)
    rw [hterm0, BitVec.toInt_zero, BitVec.toInt_zero]
    rfl
  have hcode : (List.range (n + 1)).foldl (fun acc k => addValue .float64 acc (term (sole x k) (sole y k))) (zero .float64) =
      .finite (x.toInt * y.toInt : Int) := by
    refine foldl_first ?_ (fun k => ?_) n
    · rw [sole, sole, if_pos rfl, if_pos rfl, hterm x y hrange (List.mem_cons_of_mem _ hmem)]
      exact hfirst
    · rw [sole, sole, if_neg (Nat.succ_ne_zero k), if_neg (Nat.succ_ne_zero k), hzero]
      exact hrest
  have hown := h (sole x) (sole y)
  rw [hcode, sum_first fun k => by simp [sole, value]] at hown
  have heq : ((x.toInt * y.toInt : Int) : Rat) = ((value a.signed x * value b.signed y : Int) : Rat) :=
    BinaryFloat.Value.finite.inj hown
  exact_mod_cast heq.symm

theorem value_one {w : Nat} (hw : 1 < w) (signed : Bool) : value signed 1#w = 1 := by
  cases signed with
  | true => exact BitVec.toInt_one hw
  | false => rw [value_unsigned, BitVec.toNat_one (by omega)]; rfl

theorem value_intMin {w : Nat} (hw : 0 < w) : value false (BitVec.intMin w) = 2 ^ (w - 1) := by
  rw [value_unsigned, BitVec.toNat_intMin_of_pos hw]
  push_cast
  rfl

theorem signed_of_dvd {w v : Nat} {signed : Bool} (hw : 0 < w) (h : (2 : Int) ^ v ∣ value signed (BitVec.intMin w) - (BitVec.intMin w).toInt) :
    signed = true ∨ v ≤ w := by
  cases signed with
  | true => exact .inl rfl
  | false =>
    rw [value_intMin hw, BitVec.toInt_intMin_of_pos hw, sub_neg_eq_add, ← Int.two_mul, ← two_pow_pred hw, two_pow_dvd_iff] at h
    exact .inr h

theorem fits_of_exact (hterm : Multiplies target term) (ht : unifyDtypes a b = target) {n : Nat} (h : Exact a b target term (n + 1)) :
    Fits target a ∧ Fits target b := by
  have ha : 1 < a.bits := a.width.one_lt_bits
  have hb : 1 < b.bits := b.width.one_lt_bits
  have hapos : 0 < a.bits := a.width.bits_pos
  have hbpos : 0 < b.bits := b.width.bits_pos
  have haone : (1#a.bits).toInt = 1 := BitVec.toInt_one ha
  have hbone : (1#b.bits).toInt = 1 := BitVec.toInt_one hb
  have hleft : InRange true (max a.bits b.bits) ((BitVec.intMin a.bits).toInt * (1#b.bits).toInt) := by
    rw [hbone, Int.mul_one]
    exact inRange_max_left _ hapos
  have hright : InRange true (max a.bits b.bits) ((1#a.bits).toInt * (BitVec.intMin b.bits).toInt) := by
    rw [haone, Int.one_mul, Nat.max_comm]
    exact inRange_max_left _ hbpos
  cases target with
  | boolean => exact absurd ht (unifyDtypes_ne_boolean a b)
  | integer t =>
    obtain ⟨hat, hbt⟩ := bits_le_of_unifyDtypes ht
    have hl := exact_at hterm h hleft
    have hr := exact_at hterm h hright
    rw [value_one hb, hbone, Int.mul_one, Int.mul_one] at hl
    rw [value_one ha, haone, Int.one_mul, Int.one_mul] at hr
    exact ⟨(signed_of_dvd hapos hl).imp id (hat.antisymm ·), (signed_of_dvd hbpos hr).imp id (hbt.antisymm ·)⟩
  | float64 =>
    exfalso
    rcases wide_unsigned_of_float64 ht with ⟨hs, h64⟩ | ⟨hs, h64⟩
    · have hmin : (BitVec.intMin a.bits).toInt = -2 ^ 63 := by rw [BitVec.toInt_intMin_of_pos hapos, h64]
      have hl := exact_at_float hterm h hleft (by rw [hmin, hbone]; simp)
      rw [hs, value_intMin hapos, hmin, hbone, value_one hb, h64] at hl
      exact absurd hl (by decide)
    · have hmin : (BitVec.intMin b.bits).toInt = -2 ^ 63 := by rw [BitVec.toInt_intMin_of_pos hbpos, h64]
      have hr := exact_at_float hterm h hright (by rw [hmin, haone]; simp)
      rw [hs, value_intMin hbpos, hmin, haone, value_one ha, h64] at hr
      exact absurd hr (by decide)

theorem not_fits_float64 (ht : unifyDtypes a b = .float64) : ¬(Fits .float64 a ∧ Fits .float64 b) := by
  rintro ⟨ha, hb⟩
  rcases wide_unsigned_of_float64 ht with ⟨hs, -⟩ | ⟨hs, -⟩
  · exact absurd (ha.symm.trans hs) (by decide)
  · exact absurd (hb.symm.trans hs) (by decide)

theorem exact_iff (hterm : Multiplies target term) (ht : unifyDtypes a b = target) {n : Nat} :
    Exact a b target term n ↔ n = 0 ∨ Fits target a ∧ Fits target b := by
  have hne : target ≠ .boolean := ht ▸ unifyDtypes_ne_boolean a b
  constructor
  · intro h
    cases n with
    | zero => exact .inl rfl
    | succ n => exact .inr (fits_of_exact hterm ht h)
  · rintro (rfl | ⟨ha, hb⟩)
    · exact exact_zero hne
    · cases target with
      | boolean => exact absurd rfl hne
      | integer t => exact exact_of_fits hterm ht ha hb n
      | float64 => exact absurd ⟨ha, hb⟩ (not_fits_float64 ht)

end

/-! ## Calls -/

/-- The call returns the right sums, or stays in bounds: it has vectors or
matrices on both sides, operands that fit where there is anything to add, and
no longer a left operand than a right one. -/
def Call.Right (c : Call) : Prop :=
  (c.lhsSizes.length = 1 ∧ c.rhsSizes.length = 1 ∨ c.lhsSizes.length = 2 ∧ c.rhsSizes.length = 2) ∧
    if c.inner = c.rhsInner then c.inner = 0 ∨ 0 ∈ c.shape ∨ Fits (unifyDtypes c.a c.b) c.a ∧ Fits (unifyDtypes c.a c.b) c.b
    else 0 ∈ c.shape ∨ c.inner < c.rhsInner

section
variable {c : Call}

theorem meets_iff {m : c.Memory} {target : UnifiedType} {o : Outcome target} (h : lower c m = some ⟨target, o⟩) :
    Meets c m ↔ if c.inner = c.rhsInner then o.shape = c.shape ∧ ∀ is, InShape is c.shape → StandsFor target (c.sumOfProducts m is) (o.elem is)
      else o.error = true ∧ ∀ r ∈ o.reads, InShape r.2 (c.sizesOf r.1) := by
  constructor
  · rintro ⟨target', o', heq, hmeets⟩
    rw [h] at heq
    cases heq
    exact hmeets
  · exact fun hmeets => ⟨target, o, h, hmeets⟩

def Call.lhsIndex (c : Call) (is : List Nat) (k : Nat) : List Nat := is.take (c.lhsSizes.length - 1) ++ [k]

def Call.rhsIndex (c : Call) (is : List Nat) (k : Nat) : List Nat := Dot.rhsIndex c.rhsSizes (is.drop (c.lhsSizes.length - 1)) k

theorem sumOfProducts_eq (m : c.Memory) (is : List Nat) : c.sumOfProducts m is =
    ((List.range c.inner).map fun k => value c.a.signed (m.lhs (c.lhsIndex is k)) * value c.b.signed (m.rhs (c.rhsIndex is k))).sum := rfl

/-- The elements along the contracted index, at every index of the result. -/
def Call.along (c : Call) (xs : Nat → BitVec c.a.bits) (ys : Nat → BitVec c.b.bits) : c.Memory where
  lhs is := xs (is.getLastD 0)
  rhs is := ys (is.getD (is.length - 2) 0)
  uninitialised target := fun _ => zero target

theorem along_lhs (xs : Nat → BitVec c.a.bits) (ys : Nat → BitVec c.b.bits) (is : List Nat) (k : Nat) :
    (c.along xs ys).lhs (c.lhsIndex is k) = xs k := by
  simp [Call.along, Call.lhsIndex]

theorem along_rhs (xs : Nat → BitVec c.a.bits) (ys : Nat → BitVec c.b.bits) (is : List Nat) (k : Nat) :
    (c.along xs ys).rhs (c.rhsIndex is k) = ys k := by
  rw [Call.along, Call.rhsIndex, rhsIndex]
  by_cases h : c.rhsSizes.length = 1
  · simp [h]
  · simp [h, List.getD_eq_getElem?_getD]

theorem sums_iff {target : UnifiedType} {term : BitVec c.a.bits → BitVec c.b.bits → Value target} (hterm : Multiplies target term)
    (ht : unifyDtypes c.a c.b = target) {elem : c.Memory → List Nat → Value target}
    (helem : ∀ m is, InShape is c.shape → elem m is =
      (List.range c.inner).foldl (fun acc k => addValue target acc (term (m.lhs (c.lhsIndex is k)) (m.rhs (c.rhsIndex is k)))) (zero target)) :
    (∀ m is, InShape is c.shape → StandsFor target (c.sumOfProducts m is) (elem m is)) ↔
      c.inner = 0 ∨ 0 ∈ c.shape ∨ Fits target c.a ∧ Fits target c.b := by
  constructor
  · intro h
    by_cases hshape : 0 ∈ c.shape
    · exact .inr (.inl hshape)
    · refine ((exact_iff hterm ht).mp fun xs ys => ?_).imp id .inr
      have his := Tensor.last_inShape hshape
      have hstands := h (c.along xs ys) _ his
      rw [helem _ _ his, sumOfProducts_eq] at hstands
      simpa only [along_lhs, along_rhs] using hstands
  · intro h m is his
    have hexact : Exact c.a c.b target term c.inner := by
      refine (exact_iff hterm ht).mpr ?_
      rcases h with h | h | h
      · exact .inl h
      · exact absurd h his.pos
      · exact .inr h
    rw [helem m is his]
    exact hexact _ _

/-- What the loops of both lowerings do, up to the products. -/
structure Loops (c : Call) (target : UnifiedType) (o : c.Memory → Outcome target) : Prop where
  lowered : ∀ m, lower c m = some ⟨target, o m⟩
  shape : ∀ m, (o m).shape = c.shape
  error : ∀ m, (o m).error = decide (c.inner ≠ c.rhsInner)
  reads : ∀ m, (∀ r ∈ (o m).reads, InShape r.2 (c.sizesOf r.1)) ↔ 0 ∈ c.shape ∨ c.inner ≤ c.rhsInner

theorem meets_iff_of_loops {target : UnifiedType} {o : c.Memory → Outcome target} (h : Loops c target o)
    {term : BitVec c.a.bits → BitVec c.b.bits → Value target} (hterm : Multiplies target term) (ht : unifyDtypes c.a c.b = target)
    (helem : ∀ m is, InShape is c.shape → (o m).elem is =
      (List.range c.inner).foldl (fun acc k => addValue target acc (term (m.lhs (c.lhsIndex is k)) (m.rhs (c.rhsIndex is k)))) (zero target)) :
    (∀ m, Meets c m) ↔ if c.inner = c.rhsInner then c.inner = 0 ∨ 0 ∈ c.shape ∨ Fits target c.a ∧ Fits target c.b
      else 0 ∈ c.shape ∨ c.inner < c.rhsInner := by
  simp only [meets_iff (h.lowered _)]
  by_cases hinner : c.inner = c.rhsInner
  · simp only [if_pos hinner, h.shape, true_and]
    exact sums_iff hterm ht helem
  · simp only [if_neg hinner, h.error, h.reads, decide_eq_true hinner, true_and]
    constructor
    · exact fun hr => (hr (c.along (fun _ => 0) fun _ => 0)).imp id fun hle => Nat.lt_of_le_of_ne hle hinner
    · exact fun hr _ => hr.imp id Nat.le_of_lt

theorem inShape_one {i n : Nat} : InShape [i] [n] ↔ i < n := by simp

theorem inShape_two {i j m n : Nat} : InShape [i, j] [m, n] ↔ i < m ∧ j < n := by simp

/-! ## Vectors -/

theorem vector_loops (hl : c.lhsSizes.length = 1) (hr : c.rhsSizes.length = 1) :
    Loops c (unifyDtypes c.a c.b) fun m =>
      lowerLinalgDotVector ⟨c.lhsSizes, m.lhs⟩ ⟨c.rhsSizes, m.rhs⟩ (unifyDtypes c.a c.b) (m.uninitialised (unifyDtypes c.a c.b)) := by
  obtain ⟨op, a, b, ls, rs, hacc⟩ := c
  obtain ⟨n, rfl⟩ := List.length_eq_one_iff.mp hl
  obtain ⟨k, rfl⟩ := List.length_eq_one_iff.mp hr
  refine ⟨fun m => rfl, fun m => rfl, fun m => rfl, fun m => ?_⟩
  simp only [lowerLinalgDotVector, List.mem_flatMap, List.mem_range]
  constructor
  · intro h
    refine .inr (Nat.le_of_not_lt fun hlt => ?_)
    have hread := inShape_one.mp (h (.rhs, [k]) ⟨k, hlt, by simp⟩)
    exact absurd hread (Nat.lt_irrefl k)
  · rintro h r ⟨i, hi, hmem⟩
    have hi : i < n := hi
    have hle : n ≤ k := h.resolve_left (by simp [Call.shape, keptDims])
    rcases List.mem_cons.mp hmem with rfl | hmem
    · exact inShape_one.mpr hi
    · rw [List.mem_singleton.mp hmem]
      exact inShape_one.mpr (hi.trans_le hle)

theorem vector_meets_iff (hl : c.lhsSizes.length = 1) (hr : c.rhsSizes.length = 1) : (∀ m, Meets c m) ↔ c.Right := by
  have hterm := vectorTerm_multiplies (unifyDtypes_ne_boolean c.a c.b) c.a.width.one_lt_bits c.b.width.one_lt_bits
  have hranks : c.lhsSizes.length = 1 ∧ c.rhsSizes.length = 1 ∨ c.lhsSizes.length = 2 ∧ c.rhsSizes.length = 2 := .inl ⟨hl, hr⟩
  rw [Call.Right, and_iff_right hranks]
  refine meets_iff_of_loops (vector_loops hl hr) hterm rfl ?_
  intro m is his
  simp only [lowerLinalgDotVector, addProduct_eq]
  obtain ⟨op, a, b, ls, rs, hacc⟩ := c
  obtain ⟨n, rfl⟩ := List.length_eq_one_iff.mp hl
  obtain ⟨k, rfl⟩ := List.length_eq_one_iff.mp hr
  rfl

/-! ## Matrices -/

theorem matrix_loops (hl : c.lhsSizes.length = 2) (hr : c.rhsSizes.length = 2) :
    Loops c (unifyDtypes c.a c.b) fun m =>
      lowerMatmul ⟨c.lhsSizes, m.lhs⟩ ⟨c.rhsSizes, m.rhs⟩ (unifyDtypes c.a c.b) (m.uninitialised (unifyDtypes c.a c.b)) := by
  obtain ⟨op, a, b, ls, rs, hacc⟩ := c
  obtain ⟨m, k, rfl⟩ := List.length_eq_two.mp hl
  obtain ⟨k', n, rfl⟩ := List.length_eq_two.mp hr
  refine ⟨fun _ => rfl, fun _ => rfl, fun _ => rfl, fun _ => ?_⟩
  have hshape : Call.shape ⟨op, a, b, [m, k], [k', n], hacc⟩ = [m, n] := rfl
  simp only [lowerMatmul, List.mem_flatMap, List.mem_range, Tensor.mem_indices, hshape]
  constructor
  · intro h
    by_cases hzero : 0 ∈ [m, n]
    · exact .inl hzero
    · refine .inr (Nat.le_of_not_lt fun hlt => ?_)
      have hread := h (.rhs, [k', n - 1]) ⟨Tensor.last [m, n], Tensor.last_inShape hzero, k', hlt, by simp [Tensor.last]⟩
      exact absurd (inShape_two.mp hread).1 (Nat.lt_irrefl k')
  · rintro h r ⟨is, his, l, hlt, hmem⟩
    have hlt : l < k := hlt
    have hle : k ≤ k' := h.resolve_left his.pos
    obtain _ | ⟨hi, _ | ⟨hj, ⟨⟩⟩⟩ := his
    rcases List.mem_cons.mp hmem with rfl | hmem
    · exact inShape_two.mpr ⟨hi, hlt⟩
    · rw [List.mem_singleton.mp hmem]
      exact inShape_two.mpr ⟨hlt.trans_le hle, hj⟩

theorem matrix_meets_iff (hl : c.lhsSizes.length = 2) (hr : c.rhsSizes.length = 2) : (∀ m, Meets c m) ↔ c.Right := by
  have hterm := matrixTerm_multiplies (unifyDtypes_ne_boolean c.a c.b) c.a.width.one_lt_bits c.b.width.one_lt_bits
    fun t ht => bits_le_of_unifyDtypes ht
  have hranks : c.lhsSizes.length = 1 ∧ c.rhsSizes.length = 1 ∨ c.lhsSizes.length = 2 ∧ c.rhsSizes.length = 2 := .inr ⟨hl, hr⟩
  rw [Call.Right, and_iff_right hranks]
  refine meets_iff_of_loops (matrix_loops hl hr) hterm rfl ?_
  intro m is his
  obtain ⟨op, a, b, ls, rs, hacc⟩ := c
  obtain ⟨m, k, rfl⟩ := List.length_eq_two.mp hl
  obtain ⟨k', n, rfl⟩ := List.length_eq_two.mp hr
  obtain _ | ⟨hi, _ | ⟨hj, ⟨⟩⟩⟩ := his
  rfl

/-! ## Other ranks -/

theorem lower_nd (h : ¬(c.lhsSizes.length = 1 ∧ c.rhsSizes.length = 1 ∨ c.lhsSizes.length = 2 ∧ c.rhsSizes.length = 2)) (m : c.Memory) :
    lower c m = none := by
  rw [not_or] at h
  have hverify : ∀ n, allocVerifies n 0 = false := fun n => decide_eq_false (by omega)
  rw [lower, if_neg h.2, if_neg h.1, lowerLinalgNdDot, if_neg (by simp [hverify])]
  rfl

end

/-- The sums are exact and nothing is read out of bounds, for all elements and whatever memory held, exactly where the call is right. -/
theorem dot_meets_iff (c : Call) : (∀ m, Meets c m) ↔ c.Right := by
  by_cases h : c.lhsSizes.length = 1 ∧ c.rhsSizes.length = 1 ∨ c.lhsSizes.length = 2 ∧ c.rhsSizes.length = 2
  · rcases h with ⟨hl, hr⟩ | ⟨hl, hr⟩
    · exact vector_meets_iff hl hr
    · exact matrix_meets_iff hl hr
  · constructor
    · intro hmeets
      obtain ⟨target, o, hsome, -⟩ := hmeets (c.along (fun _ => 0) fun _ => 0)
      rw [lower_nd h] at hsome
      cases hsome
    · exact fun hright => absurd hright.1 h

/-- `uint8` 200 times `int32` 1, and vectors of two elements and of one. -/
theorem dot_fails :
    let product : Call := ⟨.matmul, ⟨false, .w8⟩, ⟨true, .w32⟩, [1, 1], [1, 1], ⟨rfl, rfl⟩⟩
    let vectors : Call := ⟨.dot, ⟨true, .w32⟩, ⟨true, .w32⟩, [2], [1], ⟨Nat.le_refl 1, Nat.le_refl 1⟩⟩
    ¬Meets product ⟨fun _ => 200, fun _ => 1, fun target _ => zero target⟩ ∧
      ¬Meets vectors ⟨fun _ => 1, fun _ => 1, fun target _ => zero target⟩ := by
  intro product vectors
  constructor
  · intro h
    have hsums := (meets_iff rfl).mp h
    rw [if_pos (by decide)] at hsums
    have helem : (0#32 + (200#8).signExtend 32 * (1#32).signExtend 32 : BitVec 32) = BitVec.ofInt 32 200 := hsums.2 [0, 0] (by decide)
    exact absurd helem (by decide)
  · intro h
    have hreads := (meets_iff rfl).mp h
    rw [if_neg (by decide)] at hreads
    have hread : InShape [1] [1] := hreads.2 (.rhs, [1]) (by decide)
    exact absurd hread (by decide)

end NumbaCudaMlir.Dot

import NumbaCudaMlir.RecordLaws

/-!
# Conversions of assigned values

Which conversions of the code keep what the number means: it converts without
a word about signs.
-/

namespace NumbaCudaMlir.Record

open ArrayIndex ByteMemory CInt MachineInt
open RecordArray (IndexKind HasKind)
open Aggregate (FloatWidth)

theorem FloatWidth.bits_format (w : FloatWidth) : w.format.bits = w.bits := by cases w <;> decide

theorem FloatWidth.interchange (w : FloatWidth) : w.format.Interchange := by
  cases w
  · exact BinaryFloat.interchange_binary16
  · exact BinaryFloat.interchange_binary32
  · exact BinaryFloat.interchange_binary64

theorem integerToFloat_toNat (f : FloatWidth) (n : Int) : (integerToFloat f n).toNat = BinaryFloat.encodeInt f.format n := by
  have hlt := BinaryFloat.encodeInt_lt (FloatWidth.interchange f) n
  rw [FloatWidth.bits_format] at hlt
  rw [integerToFloat, BitVec.toNat_ofNat, Nat.mod_eq_of_lt hlt]

theorem decode_integerToFloat (f : FloatWidth) (n : Int) :
    BinaryFloat.decode f.format (integerToFloat f n).toNat = BinaryFloat.ofInt f.format n := by
  rw [integerToFloat_toNat, BinaryFloat.decode_encodeInt (FloatWidth.interchange f)]

theorem allOnes_values {w : Nat} (hw : 0 < w) :
    (BitVec.allOnes w).toInt = -1 ∧ ((BitVec.allOnes w).toNat : Int) = 2 ^ w - 1 := by
  have hpow : (1 : Int) < 2 ^ w := one_lt_pow₀ (by norm_num) (by omega)
  have hnat : ((BitVec.allOnes w).toNat : Int) = 2 ^ w - 1 := by
    rw [BitVec.toNat_allOnes, Nat.cast_sub Nat.one_le_two_pow]
    push_cast
    rfl
  refine ⟨?_, hnat⟩
  rw [BitVec.toInt_allOnes, if_pos hw]

theorem integer_to_integer_iff (a b : IntType) :
    (∀ x : BitVec a.bits, convertInteger none b.bits x = BitVec.ofInt b.bits (value a.signed x)) ↔ a.signed = false ∨ b.bits ≤ a.bits := by
  have hb : b.bits ≠ 1 := (Nat.ne_of_lt b.width.one_lt_bits).symm
  have hconv : ∀ x : BitVec a.bits, convertInteger none b.bits x = BitVec.ofInt b.bits x.toNat := fun x => convertInteger_eq (.inl hb) x
  simp only [hconv]
  cases hs : a.signed with
  | false => simp
  | true =>
    simp only [Bool.true_eq_false, false_or, value_signed, ofInt_eq_ofInt_iff]
    constructor
    · intro h
      obtain ⟨hint, hnat⟩ := allOnes_values a.width.bits_pos
      have := h (BitVec.allOnes a.bits)
      rw [hint, hnat, sub_neg_eq_add, Int.sub_add_cancel] at this
      exact two_pow_dvd_iff.mp this
    · intro hle x
      rcases toInt_cases x with ⟨-, heq⟩ | ⟨-, heq⟩
      · rw [heq, Int.sub_self]
        exact Int.dvd_zero _
      · rw [heq, sub_sub_cancel]
        exact two_pow_dvd_iff.mpr hle

theorem integer_to_float_iff (a : IntType) (f : FloatWidth) :
    (∀ x : BitVec a.bits, integerToFloat f x.toInt = integerToFloat f (value a.signed x)) ↔ a.signed = true := by
  constructor
  · intro h
    by_contra hs
    rw [Bool.not_eq_true] at hs
    obtain ⟨hint, hnat⟩ := allOnes_values a.width.bits_pos
    have hx := congrArg (fun y => BinaryFloat.decode f.format y.toNat) (h (BitVec.allOnes a.bits))
    rw [hs, value_unsigned] at hx
    simp only [decode_integerToFloat] at hx
    exact BinaryFloat.ofInt_ne_of_sign f.format (by rw [hint]; decide) (Int.natCast_nonneg _) hx
  · rintro hs x
    rw [hs, value_signed]

theorem tdiv_lt_of_abs_lt {q : Rat} {k : Nat} (h : |q| < 2 ^ k) : q.num.tdiv q.den < 2 ^ k := by
  by_cases hq : 0 ≤ q.num
  · have hden : (0 : Rat) < q.den := by exact_mod_cast q.den_pos
    have hdiv : |q| = q.num / q.den := by rw [abs_of_nonneg (Rat.num_nonneg.mp hq), Rat.num_div_den]
    rw [hdiv, div_lt_iff₀ hden] at h
    rw [Int.tdiv_eq_ediv_of_nonneg hq]
    exact Int.ediv_lt_of_lt_mul (by exact_mod_cast q.den_pos) (by exact_mod_cast h)
  · have hneg := Int.tdiv_nonneg (show 0 ≤ -q.num by omega) (Int.natCast_nonneg q.den)
    have hpos : (0 : Int) < 2 ^ k := by positivity
    rw [Int.neg_tdiv] at hneg
    omega

theorem fpToInt_finite (signed : Bool) (w : Nat) (n : Int) :
    fpToInt signed w (.finite n) = if InRange signed w n then some (BitVec.ofInt w n) else none := by
  have hn : (n : Rat).num.tdiv (n : Rat).den = n := by rw [Rat.num_intCast, Rat.den_intCast, Nat.cast_one, Int.tdiv_one]
  simp only [fpToInt, hn]

theorem float_to_integer_iff (g : FloatWidth) (b : IntType) :
    (∀ (x : BitVec g.bits) (y : BitVec b.bits), fpToInt b.signed b.bits (BinaryFloat.decode g.format x.toNat) = some y →
      fpToInt true b.bits (BinaryFloat.decode g.format x.toNat) = some y) ↔ b.signed = true ∨ g.format.maxExponent < b.bits := by
  have htwo : (2 : Int) ^ b.bits = 2 * 2 ^ (b.bits - 1) := two_pow_pred b.width.bits_pos
  have hpos : (0 : Int) < 2 ^ (b.bits - 1) := by positivity
  constructor
  · intro h
    by_contra hc
    rw [not_or, Bool.not_eq_true, Nat.not_lt] at hc
    obtain ⟨hs, hle⟩ := hc
    have hbits : 1 < b.bits := b.width.one_lt_bits
    -- half the range is a number of the format
    have hrep : BinaryFloat.Representable g.format (2 ^ (b.bits - 1)) := by
      have habs : ((2 : Int) ^ (b.bits - 1)).natAbs = 2 ^ (b.bits - 1) := by
        rw [Int.natAbs_pow]
        rfl
      rw [BinaryFloat.Representable, habs]
      refine ⟨Nat.pow_dvd_pow 2 ?_, Nat.pow_lt_pow_right (by decide) (by omega)⟩
      rw [BinaryFloat.excess, Nat.log2_two_pow]
      have := g.format.precision_pos
      omega
    have hdec := decode_integerToFloat g (2 ^ (b.bits - 1))
    rw [(BinaryFloat.ofInt_eq_finite_iff g.format _).mpr hrep] at hdec
    have hcode := h (integerToFloat g (2 ^ (b.bits - 1))) (BitVec.ofInt b.bits (2 ^ (b.bits - 1)))
    rw [hdec, fpToInt_finite, fpToInt_finite, hs, if_pos (inRange_unsigned.mpr ⟨hpos.le, by omega⟩),
      if_neg (by rw [inRange_signed]; omega)] at hcode
    cases hcode rfl
  · rintro hcond x y hy
    cases hs : b.signed with
    | true => rwa [hs] at hy
    | false =>
      rw [hs] at hy
      have hlt := hcond.resolve_left (by simp [hs])
      obtain ⟨q, hq, hr, rfl⟩ := fpToInt_eq_some hy
      have habs := BinaryFloat.abs_lt_of_decode (FloatWidth.interchange g) hq
      have hsmall := tdiv_lt_of_abs_lt habs
      have hpow : (2 : Int) ^ g.format.maxExponent ≤ 2 ^ (b.bits - 1) := pow_le_pow_right₀ (by norm_num) (by omega)
      rw [inRange_unsigned] at hr
      rw [hq, fpToInt, if_pos (inRange_signed.mpr ⟨by omega, by omega⟩)]

theorem value_eq_zero_iff (signed : Bool) {w : Nat} (x : BitVec w) : value signed x = 0 ↔ x = 0 := by
  constructor
  · intro h
    rw [← ofInt_value signed x, h]
    rfl
  · rintro rfl
    cases signed <;> simp

theorem ofBool_ne_zero (signed : Bool) {w : Nat} (x : BitVec w) : BitVec.ofBool (x != 0) = BitVec.ofBool (value signed x ≠ 0) := by
  congr 1
  rw [Bool.eq_iff_iff, bne_iff_ne, decide_eq_true_eq, ne_eq, ne_eq, value_eq_zero_iff]

section
variable (resize : (f g : FloatWidth) → BitVec f.bits → BitVec g.bits)

/-- The conversion of the code is the one that keeps what the number means. -/
def ConvertsAs (s t : ItemType) : Prop :=
  ∀ v v', v.type = s.toMlir → cast resize s t v = some v' → convert resize v t.toMlir = some v'

theorem convertsAs_int_iff {s t : ItemType} {w : Nat} (hs : s.toMlir = .int w) :
    ConvertsAs resize s t ↔ ∀ (x : BitVec w) v', cast resize s t (.int w x) = some v' → convert resize (.int w x) t.toMlir = some v' := by
  constructor
  · intro h x v' hcast
    exact h _ _ hs.symm hcast
  · intro h v v' hv hcast
    rw [hs] at hv
    cases v with
    | int bits x =>
      cases hv
      exact h x v' hcast
    | float | complex | pointer => cases hv

theorem convertsAs_integer (a : IntType) {t : ItemType} (ht : t.IsNumber) : ConvertsAs resize (.integer a) t ↔ Converts (.integer a) t := by
  have hone : (1 : Nat) < a.bits := a.width.one_lt_bits
  have hsign : useSignedConversion none (decide (1 < a.bits)) = true := by simp [useSignedConversion, hone]
  rw [convertsAs_int_iff resize (show (ItemType.integer a).toMlir = .int a.bits from rfl)]
  cases t with
  | integer b =>
    rw [Converts, ← integer_to_integer_iff]
    simp [cast, convert, ItemType.toMlir, ItemType.signed]
  | float f =>
    rw [Converts, ← integer_to_float_iff a f]
    simp [cast, convert, ItemType.toMlir, ItemType.signed, hsign]
  | complex f =>
    rw [Converts, ← integer_to_float_iff a f]
    simp [cast, convert, ItemType.toMlir, ItemType.signed, hsign]
  | boolean =>
    refine iff_of_true (fun x v' hcast => ?_) trivial
    cases hcast
    simp only [ItemType.toMlir, convert, convertInteger_bool hone, BitVec.setWidth_eq]
    exact congrArg (fun b => some (Value.int 1 b)) (ofBool_ne_zero _ x)
  | record size => exact absurd rfl (ht size)

theorem convertsAs_boolean {t : ItemType} (ht : t.IsNumber) : ConvertsAs resize .boolean t := by
  have hone : useSignedConversion none (decide (1 < 1)) = false := rfl
  rw [convertsAs_int_iff resize (show ItemType.boolean.toMlir = .int 1 from rfl)]
  intro x v' hcast
  cases t with
  | integer b =>
    cases hcast
    have hb : b.bits ≠ 1 := (Nat.ne_of_lt b.width.one_lt_bits).symm
    simp only [ItemType.toMlir, convert, convertInteger_eq (.inl hb), ItemType.signed]
    rfl
  | float f =>
    cases hcast
    rfl
  | complex f =>
    cases hcast
    rfl
  | boolean =>
    cases hcast
    have hbit : x = BitVec.ofBool (x != 0) := by
      have hx : x = 0 ∨ x = 1 := by
        have := x.isLt
        simp only [← BitVec.toNat_inj]
        simp
        omega
      rcases hx with rfl | rfl <;> rfl
    simp only [ItemType.toMlir, convert, convertInteger_self]
    exact congrArg (fun b => some (Value.int 1 b)) (hbit.trans (ofBool_ne_zero _ x))
  | record size => exact absurd rfl (ht size)

theorem convertsAs_float (g : FloatWidth) {t : ItemType} (ht : t.IsNumber) : ConvertsAs resize (.float g) t ↔ Converts (.float g) t := by
  have hall : ConvertsAs resize (.float g) t ↔ ∀ (x : BitVec g.bits) v', cast resize (.float g) t (.float g x) = some v' →
      convert resize (.float g x) t.toMlir = some v' := by
    constructor
    · intro h x v' hcast
      exact h _ _ rfl hcast
    · intro h v v' hv hcast
      cases v with
      | float w x =>
        cases hv
        exact h x v' hcast
      | int | complex | pointer => cases hv
  rw [hall]
  cases t with
  | integer b =>
    have hone : b.bits ≠ 1 := (Nat.ne_of_lt b.width.one_lt_bits).symm
    have hsign : useSignedConversion none (decide (1 < b.bits)) = true := by
      have : 1 < b.bits := b.width.one_lt_bits
      simp [useSignedConversion, this]
    rw [Converts, ← float_to_integer_iff]
    simp only [cast, convert, ItemType.toMlir, convertFloatToInteger, if_neg hone, hsign, Option.map_eq_some_iff]
    constructor
    · intro h x y hy
      obtain ⟨y', hy', he⟩ := h x _ ⟨y, hy, rfl⟩
      cases he
      exact hy'
    · rintro h x v' ⟨y, hy, rfl⟩
      exact ⟨y, h x y hy, rfl⟩
  | float f | complex f => exact iff_of_true (fun x v' hcast => hcast) trivial
  | boolean =>
    refine iff_of_true (fun x v' hcast => ?_) trivial
    cases hcast
    simp [convert, ItemType.toMlir, convertFloatToInteger]
  | record size => exact absurd rfl (ht size)

theorem convertsAs_iff {s t : ItemType} (hs : s.IsNumber) (ht : t.IsNumber) : ConvertsAs resize s t ↔ Converts s t := by
  cases s with
  | integer a => exact convertsAs_integer resize a ht
  | float g => exact convertsAs_float resize g ht
  | complex g =>
    refine iff_of_true (fun v v' hv hcast => ?_) (by cases t <;> trivial)
    cases v with
    | complex w re im =>
      cases hv
      cases t with
      | complex f => exact hcast
      | integer | float | boolean | record => cases hcast
    | int | float | pointer => cases hv
  | boolean => exact iff_of_true (convertsAs_boolean resize ht) (by cases t <;> trivial)
  | record size => exact absurd rfl (hs size)

theorem convert_type {v v' : Value} {type : MlirType} (h : convert resize v type = some v') :
    v'.type = type ∨ (∃ f re im g, v = .complex f re im ∧ type = .float g) := by
  cases v <;> cases type <;> simp only [convert, Option.some.injEq, Option.map_eq_some_iff, reduceCtorEq] at h
  case complex.float => exact .inr ⟨_, _, _, _, rfl, rfl⟩
  case float.int =>
    obtain ⟨y, -, rfl⟩ := h
    exact .inl rfl
  all_goals
    cases h
    exact .inl rfl

theorem cast_type {s t : ItemType} {v v' : Value} (h : cast resize s t v = some v') : v'.type = t.toMlir := by
  cases v <;> cases t <;> simp only [cast, Option.some.injEq, Option.map_eq_some_iff, reduceCtorEq] at h
  case float.integer =>
    obtain ⟨y, -, rfl⟩ := h
    rfl
  all_goals
    cases h
    rfl

theorem convert_castable {s t : ItemType} (hc : Castable s t) {v v' : Value} (hv : v.type = s.toMlir)
    (h : convert resize v t.toMlir = some v') : v'.type = t.toMlir := by
  rcases convert_type resize h with htype | ⟨f, re, im, g, rfl, ht⟩
  · exact htype
  · exfalso
    cases s with
    | complex => cases t <;> first | exact hc | cases ht
    | integer | float | boolean | record => cases hv

theorem convertItem_eq {s t : ItemType} (hc : Castable s t) {v : Value} (hv : v.type = s.toMlir) :
    convertItem resize t v = convert resize v t.toMlir := by
  rw [convertItem]
  cases h : convert resize v t.toMlir with
  | none => rfl
  | some v' =>
    rw [Option.bind_eq_bind, Option.bind_some]
    exact if_pos (convert_castable resize hc hv h)

theorem expected_number {m : Memory} {s t : ItemType} (hs : s.IsNumber) (v : Value) : expected resize m s t v = (cast resize s t v).map .value := by
  cases s with
  | record size => exact absurd rfl (hs size)
  | _ => rfl

end

end NumbaCudaMlir.Record

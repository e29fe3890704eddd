import NumbaCudaMlir.ExplicitLaunchSlots

/-!
# Halves among the arguments

`double_to_f16_bits` cuts a number towards zero to a half. Magnitudes are compared
as numbers of units: 2^-25 for a half, 2^-150 for the `float` that it is made of.
-/

namespace NumbaCudaMlir.ExplicitLaunch

open BinaryFloat (Format Value binary16 binary32 decode encodeParts ofParts magnitude significand)

/-- The half that is closest to the number, among those that are no larger. -/
structure TruncatedHalf (q r : Rat) : Prop where
  le : |r| ≤ |q|
  sign : 0 ≤ r * q
  greatest : ∀ (half : BitVec 16) (z : Rat), decode binary16 half.toNat = .finite z → |z| ≤ |q| → |z| ≤ |r|

/-- The half has the sign of the number and is what the number is cut to. -/
structure EncodesHalf (single : BitVec 32) (half : BitVec 16) : Prop where
  sign : half.toNat.testBit 15 = single.toNat.testBit 31
  nan : decode binary32 single.toNat = .nan → decode binary16 half.toNat = .nan
  infinity : ∀ negative, decode binary32 single.toNat = .infinity negative → decode binary16 half.toNat = .infinity negative
  large : ∀ q, decode binary32 single.toNat = .finite q → 65536 ≤ |q| → decode binary16 half.toNat = .infinity (single.toNat.testBit 31)
  finite : ∀ q, decode binary32 single.toNat = .finite q → |q| < 65536 → ∃ r, decode binary16 half.toNat = .finite r ∧ TruncatedHalf q r

/-- The numbers that are cut to a subnormal half. -/
def IsTiny (q : Rat) : Prop := 1 / 2 ^ 24 ≤ |q| ∧ |q| < 1 / 2 ^ 14

/-! ## Units -/

def units (f : Format) (exponent fraction : Nat) : Nat := significand f exponent fraction * 2 ^ max exponent 1

theorem abs_ofParts {f : Format} {negative : Bool} {exponent fraction : Nat} {q : Rat} (h : ofParts f negative exponent fraction = .finite q) :
    |q| = units f exponent fraction / 2 ^ (f.bias + f.fractionBits) := by
  have hmag : |q| = magnitude f exponent fraction := by
    rw [(BinaryFloat.ofParts_finite h).2]
    cases negative with
    | false => exact abs_of_nonneg (BinaryFloat.magnitude_nonneg f exponent fraction)
    | true => exact (abs_neg _).trans (abs_of_nonneg (BinaryFloat.magnitude_nonneg f exponent fraction))
  rw [hmag, magnitude, units, Nat.cast_mul, Nat.cast_pow, Nat.cast_ofNat]

theorem units_le_iff {n m : Nat} : (n : Rat) / 2 ^ 25 ≤ (m : Rat) / 2 ^ 150 ↔ n * 2 ^ 125 ≤ m := by
  rw [show (2 : Rat) ^ 150 = 2 ^ 125 * 2 ^ 25 by norm_num, ← div_div, div_le_div_iff_of_pos_right (by positivity), le_div_iff₀ (by positivity)]
  exact_mod_cast Iff.rfl

theorem two_pow_le_iff {n k : Nat} {c : Rat} (hc : c = 2 ^ k / 2 ^ 150) : c ≤ (n : Rat) / 2 ^ 150 ↔ 2 ^ k ≤ n := by
  rw [hc, div_le_div_iff_of_pos_right (by positivity)]
  exact_mod_cast Iff.rfl

theorem two_dvd_units (f : Format) (e x : Nat) : 2 ∣ units f e x := by
  have hmax : max e 1 ≠ 0 := Nat.ne_of_gt (Nat.lt_of_lt_of_le Nat.one_pos (Nat.le_max_right e 1))
  exact Dvd.dvd.mul_left (dvd_pow_self 2 hmax) _

theorem units_half (e x : Nat) : units binary16 (e + 1) x = (2 ^ 10 + x) * 2 ^ (e + 1) := by
  rw [units, significand, if_neg (Nat.succ_ne_zero e), Nat.max_eq_left (Nat.le_add_left 1 e)]
  rfl

theorem two_pow_le_units {e x k : Nat} (hx : x < 2 ^ 23) (hk : 24 ≤ k) : 2 ^ k ≤ units binary32 e x ↔ k ≤ e + 23 := by
  have hbits : binary32.fractionBits = 23 := rfl
  rw [units, significand, hbits]
  cases e with
  | zero =>
    have hpow : 2 ^ 24 ≤ 2 ^ k := Nat.pow_le_pow_right (by decide) hk
    rw [if_pos rfl, show max 0 1 = 1 from rfl]
    omega
  | succ e =>
    rw [if_neg (Nat.succ_ne_zero e), Nat.max_eq_left (Nat.le_add_left 1 e)]
    constructor
    · intro h
      by_contra hlt
      have hpow : 2 ^ (24 + (e + 1)) ≤ 2 ^ k := Nat.pow_le_pow_right (by decide) (by omega)
      have hmul : (2 ^ 23 + x) * 2 ^ (e + 1) < 2 ^ 24 * 2 ^ (e + 1) := Nat.mul_lt_mul_of_pos_right (by omega) (Nat.two_pow_pos _)
      rw [Nat.pow_add] at hpow
      omega
    · intro h
      calc
        2 ^ k ≤ 2 ^ (23 + (e + 1)) := Nat.pow_le_pow_right (by decide) (by omega)
        _ = 2 ^ 23 * 2 ^ (e + 1) := Nat.pow_add 2 23 (e + 1)
        _ ≤ (2 ^ 23 + x) * 2 ^ (e + 1) := Nat.mul_le_mul_right _ (Nat.le_add_right _ _)

theorem half_units_le {e m e' x' : Nat} (hx' : x' < 2 ^ 10) (he : 112 < e) (hm : 2 ^ 23 ≤ m) (h : units binary16 e' x' * 2 ^ 125 ≤ m * 2 ^ e) :
    units binary16 e' x' ≤ m / 2 ^ 13 * 2 ^ (e - 112) := by
  obtain ⟨j, rfl⟩ : ∃ j, e = 113 + j := ⟨e - 113, by omega⟩
  rw [show 113 + j - 112 = j + 1 by omega]
  have hs : significand binary16 e' x' < 2 ^ 11 := (BinaryFloat.normalised_significand binary16 e' hx').1
  have hscaled : significand binary16 e' x' * 2 ^ max e' 1 * 2 ^ 12 ≤ m * 2 ^ j := by
    rw [units, show 2 ^ 125 = 2 ^ 12 * 2 ^ 113 by norm_num, ← Nat.mul_assoc, Nat.add_comm 113 j, Nat.pow_add, ← Nat.mul_assoc] at h
    exact Nat.le_of_mul_le_mul_right h (Nat.two_pow_pos 113)
  unfold units
  generalize significand binary16 e' x' = s at hs hscaled
  generalize max e' 1 = k at hscaled
  by_cases hk : k ≤ j
  · -- a half of a lower exponent is below the leading digit
    have hpow : 2 ^ k ≤ 2 ^ j := Nat.pow_le_pow_right (by decide) hk
    calc
      s * 2 ^ k ≤ 2 ^ 11 * 2 ^ j := Nat.mul_le_mul (Nat.le_of_lt hs) hpow
      _ = 2 ^ 10 * 2 ^ (j + 1) := by rw [Nat.pow_succ]; omega
      _ ≤ m / 2 ^ 13 * 2 ^ (j + 1) := Nat.mul_le_mul_right _ (by omega)
  · -- any other is a multiple of the last digit kept
    obtain ⟨d, rfl⟩ : ∃ d, k = d + (j + 1) := ⟨k - (j + 1), by omega⟩
    have hdigits : s * 2 ^ d * 2 ^ 13 ≤ m := by
      have hj : s * 2 ^ d * 2 ^ 13 * 2 ^ j ≤ m * 2 ^ j := by
        refine Nat.le_trans (Nat.le_of_eq ?_) hscaled
        rw [Nat.pow_add, Nat.pow_succ]
        ring
      exact Nat.le_of_mul_le_mul_right hj (Nat.two_pow_pos j)
    rw [Nat.pow_add, ← Nat.mul_assoc]
    exact Nat.mul_le_mul_right _ ((Nat.le_div_iff_mul_le (Nat.two_pow_pos 13)).mpr hdigits)

theorem ofParts_sign {f g : Format} {negative : Bool} {e x e' x' : Nat} {q r : Rat} (hr : ofParts f negative e x = .finite r)
    (hq : ofParts g negative e' x' = .finite q) : 0 ≤ r * q := by
  have h := BinaryFloat.magnitude_nonneg f e x
  have h' := BinaryFloat.magnitude_nonneg g e' x'
  rw [(BinaryFloat.ofParts_finite hr).2, (BinaryFloat.ofParts_finite hq).2]
  cases negative with
  | false => exact mul_nonneg h h'
  | true =>
    refine le_of_le_of_eq (mul_nonneg h h') ?_
    exact (neg_mul_neg (BinaryFloat.magnitude f e x) (BinaryFloat.magnitude g e' x')).symm

theorem exists_parts (single : BitVec 32) : ∃ negative e x, e < 2 ^ 8 ∧ x < 2 ^ 23 ∧ single = .ofNat 32 (encodeParts binary32 negative e x) := by
  have hlt : single.toNat < 2 ^ 32 := single.isLt
  refine ⟨decide (2 ^ 31 ≤ single.toNat), single.toNat / 2 ^ 23 % 2 ^ 8, single.toNat % 2 ^ 23, Nat.mod_lt _ (by decide),
    Nat.mod_lt _ (by decide), ?_⟩
  have hsum : encodeParts binary32 (decide (2 ^ 31 ≤ single.toNat)) (single.toNat / 2 ^ 23 % 2 ^ 8) (single.toNat % 2 ^ 23) = single.toNat := by
    change (decide (2 ^ 31 ≤ single.toNat)).toNat * 2 ^ 31 + single.toNat / 2 ^ 23 % 2 ^ 8 * 2 ^ 23 + single.toNat % 2 ^ 23 = single.toNat
    by_cases h : 2 ^ 31 ≤ single.toNat
    · rw [decide_eq_true h, Bool.toNat_true]
      omega
    · rw [decide_eq_false h, Bool.toNat_false]
      omega
  rw [hsum, BitVec.ofNat_toNat, BitVec.setWidth_eq]

theorem half_sign (negative : Bool) {y : Nat} (hy : y < 2 ^ 15) : (BitVec.ofNat 16 (negative.toNat * 2 ^ 15 ||| y)).toNat.testBit 15 = negative := by
  have hle := negative.toNat_le
  rw [or_eq_add hy, BitVec.toNat_ofNat, Nat.mod_eq_of_lt (by omega), Nat.testBit_eq_decide_div_mod_eq]
  cases negative with
  | false =>
    have hdiv : (false.toNat * 2 ^ 15 + y) / 2 ^ 15 % 2 = 0 := by
      rw [Bool.toNat_false]
      omega
    rw [hdiv]
    rfl
  | true =>
    have hdiv : (true.toNat * 2 ^ 15 + y) / 2 ^ 15 % 2 = 1 := by
      rw [Bool.toNat_true]
      omega
    rw [hdiv]
    rfl

/-! ## One branch after another -/

theorem ofParts_half_finite {negative : Bool} {e x : Nat} (he : e < 31) : ∃ r, ofParts binary16 negative e x = .finite r := by
  unfold ofParts
  rw [if_neg (show ¬ e = 2 ^ binary16.exponentBits - 1 from Nat.ne_of_lt he)]
  exact ⟨_, rfl⟩

theorem ofParts_single_finite {negative : Bool} {e x : Nat} (he : e < 255) : ∃ q, ofParts binary32 negative e x = .finite q := by
  unfold ofParts
  rw [if_neg (show ¬ e = 2 ^ binary32.exponentBits - 1 from Nat.ne_of_lt he)]
  exact ⟨_, rfl⟩

theorem ofParts_eq_nan {negative : Bool} {e x : Nat} (h : ofParts binary32 negative e x = .nan) : e = 255 ∧ x ≠ 0 := by
  unfold ofParts at h
  split at h
  · next htop =>
    split at h
    · cases h
    · next hx => exact ⟨htop, hx⟩
  · cases h

theorem ofParts_eq_infinity {negative sign : Bool} {e x : Nat} (h : ofParts binary32 negative e x = .infinity sign) : e = 255 ∧ x = 0 ∧ negative = sign := by
  unfold ofParts at h
  split at h
  · next htop =>
    split at h
    · next hx => exact ⟨htop, hx, Value.infinity.inj h⟩
    · cases h
  · cases h

theorem truncated_normal {negative : Bool} {e x : Nat} (he : 112 < e) {q r : Rat}
    (hq : ofParts binary32 negative e x = .finite q) (hr : ofParts binary16 negative (e - 112) (x / 2 ^ 13) = .finite r) : TruncatedHalf q r := by
  have hqabs : |q| = (((2 ^ 23 + x) * 2 ^ e : Nat) : Rat) / 2 ^ 150 := by
    rw [abs_ofParts hq, units, significand, if_neg (by omega), Nat.max_eq_left (by omega)]
    rfl
  have hdigits : 2 ^ 10 + x / 2 ^ 13 = (2 ^ 23 + x) / 2 ^ 13 := by omega
  have hrabs : |r| = (((2 ^ 23 + x) / 2 ^ 13 * 2 ^ (e - 112) : Nat) : Rat) / 2 ^ 25 := by
    obtain ⟨j, hj⟩ : ∃ j, e - 112 = j + 1 := ⟨e - 113, by omega⟩
    rw [abs_ofParts hr, hj, units_half, hdigits]
    rfl
  refine ⟨?_, ofParts_sign hr hq, ?_⟩
  · rw [hrabs, hqabs, units_le_iff]
    calc
      (2 ^ 23 + x) / 2 ^ 13 * 2 ^ (e - 112) * 2 ^ 125 = (2 ^ 23 + x) / 2 ^ 13 * 2 ^ 13 * 2 ^ e := by
        rw [Nat.mul_assoc, Nat.mul_assoc, ← Nat.pow_add, ← Nat.pow_add]
        congr 2
        omega
      _ ≤ (2 ^ 23 + x) * 2 ^ e := Nat.mul_le_mul_right _ (Nat.div_mul_le_self _ _)
  · intro half z hz hle
    have hzabs : |z| = _ / 2 ^ 25 := abs_ofParts hz
    rw [hzabs, hqabs, units_le_iff] at hle
    rw [hzabs, hrabs, div_le_div_iff_of_pos_right (by positivity)]
    exact_mod_cast half_units_le (Nat.mod_lt _ (by decide)) he (Nat.le_add_right _ _) hle

theorem truncated_zero {negative : Bool} {e x : Nat} (he : e < 103) (hx : x < 2 ^ 23) {q : Rat}
    (hq : ofParts binary32 negative e x = .finite q) : TruncatedHalf q 0 := by
  refine ⟨by rw [abs_zero]; exact abs_nonneg q, by rw [zero_mul], ?_⟩
  intro half z hz hle
  have hzabs : |z| = _ / 2 ^ 25 := abs_ofParts hz
  have hqabs : |q| = units binary32 e x / 2 ^ 150 := abs_ofParts hq
  have hsmall : ¬ 2 ^ 126 ≤ units binary32 e x := by
    rw [two_pow_le_units hx (by decide)]
    omega
  rw [hzabs, hqabs, units_le_iff] at hle
  rw [abs_zero, hzabs]
  have hnone : units binary16 (half.toNat / 2 ^ 10 % 2 ^ 5) (half.toNat % 2 ^ 10) = 0 := by
    have heven := two_dvd_units binary16 (half.toNat / 2 ^ 10 % 2 ^ 5) (half.toNat % 2 ^ 10)
    change units binary16 (half.toNat / 2 ^ 10 % 2 ^ 5) (half.toNat % 2 ^ 10) * 2 ^ 125 ≤ _ at hle
    omega
  change ((units binary16 (half.toNat / 2 ^ 10 % 2 ^ 5) (half.toNat % 2 ^ 10) : Nat) : Rat) / 2 ^ 25 ≤ 0
  rw [hnone, Nat.cast_zero, zero_div]

theorem isTiny_iff {negative : Bool} {e x : Nat} (hx : x < 2 ^ 23) {q : Rat} (hq : ofParts binary32 negative e x = .finite q) :
    IsTiny q ↔ 103 ≤ e ∧ e ≤ 112 := by
  have hqabs : |q| = units binary32 e x / 2 ^ 150 := abs_ofParts hq
  unfold IsTiny
  rw [hqabs, ← not_le, two_pow_le_iff (k := 126) (by norm_num), two_pow_le_iff (k := 136) (by norm_num), two_pow_le_units hx (by decide),
    two_pow_le_units hx (by decide)]
  omega

theorem large_iff {negative : Bool} {e x : Nat} (hx : x < 2 ^ 23) {q : Rat} (hq : ofParts binary32 negative e x = .finite q) :
    65536 ≤ |q| ↔ 142 < e := by
  have hqabs : |q| = units binary32 e x / 2 ^ 150 := abs_ofParts hq
  rw [hqabs, two_pow_le_iff (k := 166) (by norm_num), two_pow_le_units hx (by decide)]
  omega

theorem exists_half (negative : Bool) {e x : Nat} (he : e < 2 ^ 8) (hx : x < 2 ^ 23) : ∃ e' x', e' < 2 ^ 5 ∧ x' < 2 ^ 10 ∧
    doubleToF16Bits (.ofNat 32 (encodeParts binary32 negative e x)) = .ofNat 16 (negative.toNat * 2 ^ 15 ||| (e' * 2 ^ 10 + x')) ∧
    (142 < e → e' = 31 ∧ (x' = 0 ↔ ¬ (e = 255 ∧ x ≠ 0))) ∧ (112 < e → e ≤ 142 → e' = e - 112 ∧ x' = x / 2 ^ 13) ∧ (e ≤ 112 → e' = 0 ∧ x' = 0) := by
  rw [doubleToF16Bits_fields negative he hx]
  by_cases htop : e = 255
  · rw [if_pos htop]
    by_cases hx0 : x = 0
    · refine ⟨31, 0, by decide, by decide, ?_, fun _ => ⟨rfl, ?_⟩, by omega, by omega⟩
      · rw [if_neg (not_not.mpr hx0), Nat.or_zero]
        rfl
      · exact ⟨fun _ h => h.2 hx0, fun _ => rfl⟩
    · have hy : x >>> 13 ||| 1 < 2 ^ 10 := by
        refine Nat.or_lt_two_pow ?_ (by decide)
        rw [Nat.shiftRight_eq_div_pow]
        omega
      refine ⟨31, x >>> 13 ||| 1, by decide, hy, ?_, fun _ => ⟨rfl, ?_⟩, by omega, by omega⟩
      · rw [if_pos hx0, ← encodeParts_half negative hy]
        rfl
      · exact ⟨fun h => absurd (Nat.or_eq_zero_iff.mp h).2 Nat.one_ne_zero, fun h => absurd ⟨htop, hx0⟩ h⟩
  rw [if_neg htop]
  by_cases hlarge : 142 < e
  · rw [if_pos hlarge]
    exact ⟨31, 0, by decide, by decide, rfl, fun _ => ⟨rfl, fun _ h => htop h.1, fun _ => rfl⟩, by omega, by omega⟩
  rw [if_neg hlarge]
  by_cases hnormal : 112 < e
  · have hy : x / 2 ^ 13 < 2 ^ 10 := by omega
    refine ⟨e - 112, x / 2 ^ 13, by omega, hy, ?_, by omega, fun _ _ => ⟨rfl, rfl⟩, by omega⟩
    rw [if_pos hnormal, ← encodeParts_half negative hy, Nat.shiftRight_eq_div_pow]
  rw [if_neg hnormal]
  refine ⟨0, 0, by decide, by decide, ?_, by omega, by omega, fun _ => ⟨rfl, rfl⟩⟩
  by_cases hsub : 103 ≤ e
  · -- the shift goes past every digit
    have hgone : (x ||| 0x800000) >>> (136 - e) = 0 := by
      have hlt : x ||| 0x800000 < 2 ^ 24 := Nat.or_lt_two_pow (by omega) (by decide)
      rw [Nat.shiftRight_eq_div_pow]
      exact Nat.div_eq_of_lt (Nat.lt_of_lt_of_le hlt (Nat.pow_le_pow_right (by decide) (by omega)))
    rw [if_pos hsub, hgone, Nat.zero_mul]
  · rw [if_neg hsub, Nat.zero_mul, Nat.add_zero, Nat.or_zero]

theorem ofParts_infinity (negative : Bool) : ofParts binary16 negative 31 0 = .infinity negative := rfl

theorem ofParts_nan (negative : Bool) {x : Nat} (hx : x ≠ 0) : ofParts binary16 negative 31 x = .nan := by
  unfold ofParts
  rw [if_pos (show 31 = 2 ^ binary16.exponentBits - 1 from rfl), if_neg hx]

/-! ## The whole encoding -/

theorem TruncatedHalf.eq {q r : Rat} (h : TruncatedHalf q r) {half : BitVec 16} (hq : decode binary16 half.toNat = .finite q) : r = q := by
  have habs : |r| = |q| := le_antisymm h.le (h.greatest half q hq (le_refl _))
  rcases abs_eq_abs.mp habs with heq | hneg
  · exact heq
  · have hsq : r * q = -(q * q) := by rw [hneg, neg_mul]
    have hzero : q * q = 0 := le_antisymm (by linarith [h.sign]) (mul_self_nonneg q)
    rw [hneg, mul_self_eq_zero.mp hzero, neg_zero]

theorem encodesHalf_of_fields {negative : Bool} {e x : Nat} (he : e < 2 ^ 8) (hx : x < 2 ^ 23) (htiny : ¬ (103 ≤ e ∧ e ≤ 112)) :
    EncodesHalf (.ofNat 32 (encodeParts binary32 negative e x)) (doubleToF16Bits (.ofNat 32 (encodeParts binary32 negative e x))) := by
  have hlt : encodeParts binary32 negative e x < 2 ^ 32 := BinaryFloat.encodeParts_lt binary32 negative he hx
  have hbits : (BitVec.ofNat 32 (encodeParts binary32 negative e x)).toNat = encodeParts binary32 negative e x := by
    rw [BitVec.toNat_ofNat, Nat.mod_eq_of_lt hlt]
  have hsingle : decode binary32 (encodeParts binary32 negative e x) = ofParts binary32 negative e x :=
    BinaryFloat.decode_encodeParts binary32 negative he hx
  have hsign : (encodeParts binary32 negative e x).testBit 31 = negative := BinaryFloat.encodeParts_testBit binary32 negative he hx
  obtain ⟨e', x', he', hx', hhalf, htop, hnormal, hzero⟩ := exists_half negative he hx
  rw [hhalf]
  have hvalue : decode binary16 (BitVec.ofNat 16 (negative.toNat * 2 ^ 15 ||| (e' * 2 ^ 10 + x'))).toNat = ofParts binary16 negative e' x' :=
    decode_half negative he' hx'
  have hspecial : 142 < e → ¬ (e = 255 ∧ x ≠ 0) → ofParts binary16 negative e' x' = .infinity negative := by
    intro hlarge hnan
    obtain ⟨rfl, hx0⟩ := htop hlarge
    rw [hx0.mpr hnan, ofParts_infinity]
  constructor
  · rw [hbits, hsign]
    exact half_sign negative (by omega)
  · intro hnan
    rw [hbits, hsingle] at hnan
    obtain ⟨rfl, hx0⟩ := ofParts_eq_nan hnan
    obtain ⟨rfl, hy0⟩ := htop (by decide)
    rw [hvalue]
    exact ofParts_nan negative fun h => hy0.mp h ⟨rfl, hx0⟩
  · intro sign hinf
    rw [hbits, hsingle] at hinf
    obtain ⟨rfl, rfl, rfl⟩ := ofParts_eq_infinity hinf
    rw [hvalue]
    exact hspecial (by decide) fun h => h.2 rfl
  · intro q hq hq'
    rw [hbits, hsingle] at hq
    rw [hbits, hsign, hvalue]
    exact hspecial ((large_iff hx hq).mp hq') fun h => (BinaryFloat.ofParts_finite hq).1 h.1
  · intro q hq hq'
    rw [hbits, hsingle] at hq
    rw [hvalue]
    have hsmall : ¬ 142 < e := fun h => absurd ((large_iff hx hq).mpr h) (not_le.mpr hq')
    by_cases h112 : 112 < e
    · obtain ⟨rfl, rfl⟩ := hnormal h112 (by omega)
      obtain ⟨r, hr⟩ := @ofParts_half_finite negative _ (x / 2 ^ 13) (show e - 112 < 31 by omega)
      exact ⟨r, hr, truncated_normal h112 hq hr⟩
    · obtain ⟨rfl, rfl⟩ := hzero (by omega)
      exact ⟨0, ofParts_zero binary16 negative, truncated_zero (by omega) hx hq⟩

theorem decode_least_half : decode binary16 (1#16).toNat = .finite (1 / 2 ^ 24) := by
  have hparts : decode binary16 (1#16).toNat = ofParts binary16 false 0 1 := rfl
  obtain ⟨r, hr⟩ := @ofParts_half_finite false 0 1 (by decide)
  have hmag : r = BinaryFloat.magnitude binary16 0 1 := (BinaryFloat.ofParts_finite hr).2
  rw [hparts, hr, hmag, BinaryFloat.magnitude, show significand binary16 0 1 = 1 from rfl, show binary16.bias + binary16.fractionBits = 25 from rfl,
    show max 0 1 = 1 from rfl]
  norm_num

theorem not_encodesHalf_of_fields {negative : Bool} {e x : Nat} (he : 103 ≤ e) (he' : e ≤ 112) (hx : x < 2 ^ 23) :
    ¬ EncodesHalf (.ofNat 32 (encodeParts binary32 negative e x)) (doubleToF16Bits (.ofNat 32 (encodeParts binary32 negative e x))) := by
  intro h
  have hlt : encodeParts binary32 negative e x < 2 ^ 32 := BinaryFloat.encodeParts_lt binary32 negative (show e < 2 ^ 8 by omega) hx
  have hsingle : decode binary32 (BitVec.ofNat 32 (encodeParts binary32 negative e x)).toNat = ofParts binary32 negative e x := by
    rw [BitVec.toNat_ofNat, Nat.mod_eq_of_lt hlt]
    exact BinaryFloat.decode_encodeParts binary32 negative (show e < 2 ^ 8 by omega) hx
  obtain ⟨q, hq⟩ := @ofParts_single_finite negative e x (by omega)
  have hsmall : |q| < 65536 := lt_of_not_ge fun hle => absurd ((large_iff hx hq).mp hle) (by omega)
  obtain ⟨r, hr, htrunc⟩ := h.finite q (hsingle.trans hq) hsmall
  obtain ⟨e', x', hlt', hlt'', hhalf, -, -, hzero⟩ := exists_half negative (show e < 2 ^ 8 by omega) hx
  obtain ⟨rfl, rfl⟩ := hzero he'
  rw [hhalf, decode_half negative hlt' hlt'', ofParts_zero] at hr
  obtain rfl := Value.finite.inj hr
  -- the least half is not above the number and is above zero
  have hone : |(1 / 2 ^ 24 : Rat)| = 1 / 2 ^ 24 := abs_of_pos (by norm_num)
  have hleast := htrunc.greatest 1#16 _ decode_least_half (hone.trans_le ((isTiny_iff hx hq).mpr ⟨he, he'⟩).1)
  rw [hone, abs_zero] at hleast
  norm_num at hleast

theorem half_argument_exact_iff (single : BitVec 32) :
    (EncodesHalf single (doubleToF16Bits single) ∧ ∀ half : BitVec 16, decode binary16 half.toNat = decode binary32 single.toNat →
      decode binary16 (doubleToF16Bits single).toNat = decode binary32 single.toNat) ↔
    ∀ q, decode binary32 single.toNat = .finite q → ¬ IsTiny q := by
  obtain ⟨negative, e, x, he, hx, rfl⟩ := exists_parts single
  have hlt : encodeParts binary32 negative e x < 2 ^ 32 := BinaryFloat.encodeParts_lt binary32 negative he hx
  have hsingle : decode binary32 (BitVec.ofNat 32 (encodeParts binary32 negative e x)).toNat = ofParts binary32 negative e x := by
    rw [BitVec.toNat_ofNat, Nat.mod_eq_of_lt hlt]
    exact BinaryFloat.decode_encodeParts binary32 negative he hx
  constructor
  · rintro ⟨hencodes, -⟩ q hq htiny
    obtain ⟨h103, h112⟩ := (isTiny_iff hx (hsingle.symm.trans hq)).mp htiny
    exact not_encodesHalf_of_fields h103 h112 hx hencodes
  · intro h
    have hencodes := @encodesHalf_of_fields negative _ _ he hx <| by
      rintro ⟨h103, h112⟩
      obtain ⟨q, hq⟩ := @ofParts_single_finite negative e x (by omega)
      exact h q (hsingle.trans hq) ((isTiny_iff hx hq).mpr ⟨h103, h112⟩)
    refine ⟨hencodes, fun half hhalf => ?_⟩
    cases hvalue : decode binary32 (BitVec.ofNat 32 (encodeParts binary32 negative e x)).toNat with
    | nan => exact hencodes.nan hvalue
    | infinity sign => exact hencodes.infinity sign hvalue
    | finite q =>
      rw [hvalue] at hhalf
      have hlt : |q| < 65536 := by
        have hmax := BinaryFloat.abs_lt_of_decode BinaryFloat.interchange_binary16 hhalf
        exact lt_of_lt_of_eq hmax (by norm_num [binary16])
      obtain ⟨r, hr, htrunc⟩ := hencodes.finite q hvalue hlt
      rw [hr, htrunc.eq hhalf]

/-- The least half of all is passed as zero. -/
theorem least_half_lost : decode binary16 (1#16).toNat = .finite (1 / 2 ^ 24) ∧ decode binary32 (0x33800000#32).toNat = .finite (1 / 2 ^ 24) ∧
    doubleToF16Bits 0x33800000#32 = 0#16 ∧ decode binary16 (0#16).toNat = .finite 0 ∧
    ¬ EncodesHalf 0x33800000#32 (doubleToF16Bits 0x33800000#32) := by
  have hbits : 0x33800000#32 = .ofNat 32 (encodeParts binary32 false 103 0) := rfl
  have hfails : ¬ EncodesHalf 0x33800000#32 (doubleToF16Bits 0x33800000#32) := by
    rw [hbits]
    exact not_encodesHalf_of_fields (by decide) (by decide) (by decide)
  refine ⟨decode_least_half, ?_, rfl, ofParts_zero binary16 false, hfails⟩
  have hparts : decode binary32 (0x33800000#32).toNat = ofParts binary32 false 103 0 := rfl
  obtain ⟨q, hq⟩ := @ofParts_single_finite false 103 0 (by decide)
  have hmag : q = BinaryFloat.magnitude binary32 103 0 := (BinaryFloat.ofParts_finite hq).2
  rw [hparts, hq, hmag, BinaryFloat.magnitude, show significand binary32 103 0 = 2 ^ 23 from rfl,
    show binary32.bias + binary32.fractionBits = 150 from rfl, show max 103 1 = 103 from rfl]
  norm_num

end NumbaCudaMlir.ExplicitLaunch

import NumbaCudaMlir.BinaryFloat
import Mathlib.Tactic.LinearCombination
import Mathlib.Tactic.Ring

/-!
# The bits of a floating-point number

The interchange encoding of a format: the fraction in the low bits, the biased
exponent above it and the sign on top. The encoding of a rounded integer
decodes to the rounded integer.
-/

namespace BinaryFloat

def Format.fractionBits (f : Format) : Nat := f.precision - 1

def Format.exponentBits (f : Format) : Nat := f.maxExponent.log2 + 1

def Format.bias (f : Format) : Nat := f.maxExponent - 1

def Format.bits (f : Format) : Nat := f.fractionBits + f.exponentBits + 1

/-- The formats whose exponents are one power of two on each side. -/
structure Format.Interchange (f : Format) : Prop where
  power : 2 ^ f.maxExponent.log2 = f.maxExponent
  one_lt : 1 < f.maxExponent

def ofParts (f : Format) (negative : Bool) (exponent fraction : Nat) : Value :=
  if exponent = 2 ^ f.exponentBits - 1 then
    if fraction = 0 then .infinity negative else .nan
  else
    -- an exponent field of zero belongs to the subnormal numbers
    let significand := if exponent = 0 then fraction else 2 ^ f.fractionBits + fraction
    let magnitude : Rat := significand * 2 ^ max exponent 1 / 2 ^ (f.bias + f.fractionBits)
    .finite (if negative then -magnitude else magnitude)

def decode (f : Format) (n : Nat) : Value :=
  ofParts f (n.testBit (f.fractionBits + f.exponentBits)) (n / 2 ^ f.fractionBits % 2 ^ f.exponentBits) (n % 2 ^ f.fractionBits)

def encodeParts (f : Format) (negative : Bool) (exponent fraction : Nat) : Nat :=
  negative.toNat * 2 ^ (f.fractionBits + f.exponentBits) + exponent * 2 ^ f.fractionBits + fraction

/-- The bits of an integer rounded to the format. -/
def encodeInt (f : Format) (n : Int) : Nat :=
  let m := roundNat f n.natAbs
  if m = 0 then 0
  else if m < 2 ^ f.maxExponent then
    encodeParts f (n < 0) (m.log2 + f.bias) (m * 2 ^ f.fractionBits / 2 ^ m.log2 - 2 ^ f.fractionBits)
  else encodeParts f (n < 0) (2 ^ f.exponentBits - 1) 0

theorem encodeParts_testBit (f : Format) (negative : Bool) {exponent fraction : Nat} (he : exponent < 2 ^ f.exponentBits)
    (hf : fraction < 2 ^ f.fractionBits) :
    (encodeParts f negative exponent fraction).testBit (f.fractionBits + f.exponentBits) = negative := by
  have hlow : exponent * 2 ^ f.fractionBits + fraction < 2 ^ (f.fractionBits + f.exponentBits) := by
    have := Nat.mul_le_mul_right (2 ^ f.fractionBits) (Nat.succ_le_of_lt he)
    rw [Nat.succ_mul] at this
    rw [Nat.pow_add, Nat.mul_comm (2 ^ f.fractionBits)]
    omega
  rw [encodeParts, Nat.add_assoc, Nat.testBit_eq_decide_div_mod_eq, Nat.mul_comm,
    Nat.mul_add_div (Nat.two_pow_pos _), Nat.div_eq_of_lt hlow]
  cases negative <;> rfl

theorem encodeParts_div (f : Format) (negative : Bool) {exponent fraction : Nat} (he : exponent < 2 ^ f.exponentBits)
    (hf : fraction < 2 ^ f.fractionBits) :
    encodeParts f negative exponent fraction / 2 ^ f.fractionBits % 2 ^ f.exponentBits = exponent := by
  have : encodeParts f negative exponent fraction =
      2 ^ f.fractionBits * (negative.toNat * 2 ^ f.exponentBits + exponent) + fraction := by
    unfold encodeParts
    ring
  rw [this, Nat.mul_add_div (Nat.two_pow_pos _), Nat.div_eq_of_lt hf, Nat.add_zero, Nat.mul_comm, Nat.mul_add_mod,
    Nat.mod_eq_of_lt he]

theorem encodeParts_mod (f : Format) (negative : Bool) (exponent : Nat) {fraction : Nat} (hf : fraction < 2 ^ f.fractionBits) :
    encodeParts f negative exponent fraction % 2 ^ f.fractionBits = fraction := by
  have : encodeParts f negative exponent fraction =
      fraction + 2 ^ f.fractionBits * (negative.toNat * 2 ^ f.exponentBits + exponent) := by
    unfold encodeParts
    ring
  rw [this, Nat.add_mul_mod_self_left, Nat.mod_eq_of_lt hf]

theorem decode_encodeParts (f : Format) (negative : Bool) {exponent fraction : Nat} (he : exponent < 2 ^ f.exponentBits)
    (hf : fraction < 2 ^ f.fractionBits) : decode f (encodeParts f negative exponent fraction) = ofParts f negative exponent fraction := by
  rw [decode, encodeParts_testBit f negative he hf, encodeParts_div f negative he hf, encodeParts_mod f negative exponent hf]

/-! ## Rounded integers -/

theorem roundQuotient_le {f : Format} {n : Nat} : roundQuotient n (excess f n) ≤ 2 ^ f.precision := by
  have hn : n < 2 ^ excess f n * 2 ^ f.precision := by
    have hlt : n < 2 ^ (n.log2 + 1) := Nat.lt_log2_self
    rw [← Nat.pow_add]
    refine hlt.trans_le (Nat.pow_le_pow_right (by decide) ?_)
    unfold excess
    omega
  have hq : n / 2 ^ excess f n < 2 ^ f.precision := Nat.div_lt_of_lt_mul hn
  unfold roundQuotient
  simp only
  split <;> omega

theorem two_pow_excess_dvd_roundNat (f : Format) (n : Nat) : 2 ^ excess f (roundNat f n) ∣ roundNat f n := by
  by_cases h0 : roundNat f n = 0
  · simp [h0]
  · have hp := f.precision_pos
    have hle := roundQuotient_le (f := f) (n := n)
    obtain ⟨j, hj, hd⟩ : ∃ j, (roundNat f n).log2 + 1 ≤ j + f.precision ∧ 2 ^ j ∣ roundNat f n := by
      by_cases hq : roundQuotient n (excess f n) = 2 ^ f.precision
      · have hm : roundNat f n = 2 ^ (f.precision + excess f n) := by rw [roundNat, hq, Nat.pow_add]
        refine ⟨f.precision + excess f n, ?_, by rw [hm]⟩
        rw [hm, Nat.log2_two_pow]
        omega
      · refine ⟨excess f n, ?_, Nat.dvd_mul_left _ _⟩
        rw [Nat.add_comm (excess f n), Nat.succ_le_iff, Nat.log2_lt h0, Nat.pow_add]
        exact Nat.mul_lt_mul_of_pos_right (by omega) (Nat.two_pow_pos _)
    refine (Nat.pow_dvd_pow 2 ?_).trans hd
    unfold excess
    omega

theorem ofParts_normal {f : Format} (hf : f.Interchange) (negative : Bool) {m : Nat} (hm : m ≠ 0) (hlt : m < 2 ^ f.maxExponent)
    (hd : 2 ^ excess f m ∣ m) : m * 2 ^ f.fractionBits / 2 ^ m.log2 - 2 ^ f.fractionBits < 2 ^ f.fractionBits ∧
      m.log2 + f.bias < 2 ^ f.exponentBits ∧
      ofParts f negative (m.log2 + f.bias) (m * 2 ^ f.fractionBits / 2 ^ m.log2 - 2 ^ f.fractionBits) =
        .finite (if negative then -m else m) := by
  have hone := hf.one_lt
  have hprec := f.precision_pos
  have hlog : m.log2 < f.maxExponent := (Nat.log2_lt hm).mpr hlt
  have hexp : 2 ^ f.exponentBits = 2 * f.maxExponent := by rw [Format.exponentBits, Nat.pow_succ, hf.power, Nat.mul_comm]
  have hdvd : 2 ^ m.log2 ∣ m * 2 ^ f.fractionBits := by
    refine (Nat.pow_dvd_pow 2 ?_).trans ((Nat.pow_add 2 (excess f m) f.fractionBits) ▸ Nat.mul_dvd_mul_right hd _)
    unfold excess Format.fractionBits
    omega
  obtain ⟨s, hs⟩ := hdvd
  have hpos : 0 < 2 ^ m.log2 := Nat.two_pow_pos _
  have hlo : 2 ^ f.fractionBits ≤ s := by
    refine Nat.le_of_mul_le_mul_left ?_ hpos
    rw [← hs]
    exact Nat.mul_le_mul_right _ (Nat.log2_self_le hm)
  have hhi : s < 2 * 2 ^ f.fractionBits := by
    refine Nat.lt_of_mul_lt_mul_left (a := 2 ^ m.log2) ?_
    rw [← hs, ← Nat.mul_assoc, ← Nat.pow_succ]
    exact Nat.mul_lt_mul_of_pos_right Nat.lt_log2_self (Nat.two_pow_pos _)
  rw [hs, Nat.mul_div_cancel_left _ hpos]
  refine ⟨by omega, by unfold Format.bias; omega, ?_⟩
  have hbias : 1 ≤ f.bias := by unfold Format.bias; omega
  rw [ofParts, if_neg (by unfold Format.bias; omega), if_neg (by omega)]
  have hmax : max (m.log2 + f.bias) 1 = m.log2 + f.bias := by omega
  have hsum : ((2 ^ f.fractionBits : Nat) : Rat) + ((s - 2 ^ f.fractionBits : Nat) : Rat) = s := by
    rw [← Nat.cast_add, Nat.add_sub_cancel' hlo]
  have hs' : (m : Rat) * 2 ^ f.fractionBits = 2 ^ m.log2 * s := by exact_mod_cast hs
  have hmag : ((2 ^ f.fractionBits + (s - 2 ^ f.fractionBits) : Nat) : Rat) * 2 ^ max (m.log2 + f.bias) 1 /
      2 ^ (f.bias + f.fractionBits) = m := by
    rw [Nat.cast_add, hsum, hmax, div_eq_iff (by positivity), pow_add, pow_add]
    linear_combination -(2 ^ f.bias : Rat) * hs'
  simp only [hmag]

theorem decode_encodeInt {f : Format} (hf : f.Interchange) (n : Int) : decode f (encodeInt f n) = ofInt f n := by
  have htop : 1 < 2 ^ f.exponentBits := Nat.one_lt_two_pow (by simp [Format.exponentBits])
  unfold encodeInt ofInt
  simp only
  by_cases h0 : roundNat f n.natAbs = 0
  · rw [if_pos h0, h0, if_pos (Nat.two_pow_pos _)]
    simp [decode, ofParts, show ¬ 0 = 2 ^ f.exponentBits - 1 by omega]
  · rw [if_neg h0]
    by_cases hlt : roundNat f n.natAbs < 2 ^ f.maxExponent
    · obtain ⟨hfrac, hexp, hparts⟩ := ofParts_normal hf (n < 0) h0 hlt (two_pow_excess_dvd_roundNat f _)
      rw [if_pos hlt, if_pos hlt, decode_encodeParts f _ hexp hfrac, hparts]
      have hn : n ≠ 0 := by
        rintro rfl
        exact h0 (roundNat_zero f)
      by_cases hneg : n < 0
      · simp [hneg, Int.sign_eq_neg_one_of_neg hneg]
      · simp [hneg, Int.sign_eq_one_of_pos (show 0 < n by omega)]
    · rw [if_neg hlt, if_neg hlt, decode_encodeParts f _ (by omega) (Nat.two_pow_pos _), ofParts, if_pos rfl, if_pos rfl]

theorem encodeParts_lt (f : Format) (negative : Bool) {exponent fraction : Nat} (he : exponent < 2 ^ f.exponentBits)
    (hf : fraction < 2 ^ f.fractionBits) : encodeParts f negative exponent fraction < 2 ^ f.bits := by
  have hexp := Nat.mul_le_mul_right (2 ^ f.fractionBits) (Nat.succ_le_of_lt he)
  have hbool : negative.toNat ≤ 1 := negative.toNat_le
  have hsign := Nat.mul_le_mul_right (2 ^ (f.fractionBits + f.exponentBits)) hbool
  rw [Nat.succ_mul] at hexp
  rw [encodeParts, Format.bits, Nat.pow_succ]
  rw [Nat.pow_add, Nat.mul_comm (2 ^ f.fractionBits)] at hsign ⊢
  omega

theorem encodeInt_lt {f : Format} (hf : f.Interchange) (n : Int) : encodeInt f n < 2 ^ f.bits := by
  have htop : 1 < 2 ^ f.exponentBits := Nat.one_lt_two_pow (by simp [Format.exponentBits])
  unfold encodeInt
  simp only
  by_cases h0 : roundNat f n.natAbs = 0
  · rw [if_pos h0]
    exact Nat.two_pow_pos _
  · rw [if_neg h0]
    by_cases hlt : roundNat f n.natAbs < 2 ^ f.maxExponent
    · obtain ⟨hfrac, hexp, -⟩ := ofParts_normal hf (n < 0) h0 hlt (two_pow_excess_dvd_roundNat f _)
      rw [if_pos hlt]
      exact encodeParts_lt f _ hexp hfrac
    · rw [if_neg hlt]
      exact encodeParts_lt f _ (by omega) (Nat.two_pow_pos _)

theorem abs_lt_of_decode {f : Format} (hf : f.Interchange) {n : Nat} {q : Rat} (h : decode f n = .finite q) : |q| < 2 ^ f.maxExponent := by
  have hone := hf.one_lt
  have hexp : 2 ^ f.exponentBits = 2 * f.maxExponent := by rw [Format.exponentBits, Nat.pow_succ, hf.power, Nat.mul_comm]
  have hfrac : n % 2 ^ f.fractionBits < 2 ^ f.fractionBits := Nat.mod_lt _ (Nat.two_pow_pos _)
  have hfield : n / 2 ^ f.fractionBits % 2 ^ f.exponentBits < 2 ^ f.exponentBits := Nat.mod_lt _ (Nat.two_pow_pos _)
  unfold decode ofParts at h
  generalize n % 2 ^ f.fractionBits = fraction at h hfrac
  generalize n / 2 ^ f.fractionBits % 2 ^ f.exponentBits = exponent at h hfield
  split at h
  · split at h <;> cases h
  · next htop =>
    have hmax : max exponent 1 ≤ 2 * f.maxExponent - 2 := by omega
    have hsig : (if exponent = 0 then fraction else 2 ^ f.fractionBits + fraction) < 2 ^ (f.fractionBits + 1) := by
      rw [Nat.pow_succ]
      split <;> omega
    generalize (if exponent = 0 then fraction else 2 ^ f.fractionBits + fraction) = significand at h hsig
    have hmag : (significand : Rat) * 2 ^ max exponent 1 / 2 ^ (f.bias + f.fractionBits) < 2 ^ f.maxExponent := by
      rw [div_lt_iff₀ (by positivity), ← pow_add]
      have hnat : significand * 2 ^ max exponent 1 < 2 ^ (f.maxExponent + (f.bias + f.fractionBits)) := by
        refine (Nat.mul_lt_mul_of_lt_of_le hsig (Nat.pow_le_pow_right (by decide) hmax) (Nat.two_pow_pos _)).trans_le ?_
        rw [← Nat.pow_add]
        exact Nat.pow_le_pow_right (by decide) (by unfold Format.bias; omega)
      exact_mod_cast hnat
    have hpos : 0 ≤ (significand : Rat) * 2 ^ max exponent 1 / 2 ^ (f.bias + f.fractionBits) :=
      div_nonneg (mul_nonneg significand.cast_nonneg (pow_nonneg (by decide) _)) (by positivity)
    simp only [Value.finite.injEq] at h
    rw [← h]
    split
    · rwa [abs_neg, abs_of_nonneg hpos]
    · rwa [abs_of_nonneg hpos]

theorem interchange_binary16 : binary16.Interchange := ⟨by decide, by decide⟩

theorem interchange_binary32 : binary32.Interchange := ⟨by decide, by decide⟩

theorem interchange_binary64 : binary64.Interchange := ⟨by decide, by decide⟩

end BinaryFloat

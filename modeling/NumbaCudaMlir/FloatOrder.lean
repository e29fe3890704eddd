import NumbaCudaMlir.FloatBits

/-!
# The order of floating-point numbers

Rounding an integer to a format keeps the order. Within one binade this is that
of the quotients, and a power of two separates the binades and is rounded to
itself.
-/

namespace BinaryFloat

/-- The order of the numbers of a format, without NaN. -/
def Le : Value → Value → Prop
  | .finite p, .finite q => p ≤ q
  | .finite _, .infinity negative => negative = false
  | .infinity negative, .finite _ => negative = true
  | .infinity m, .infinity n => n = true → m = true
  | .nan, _ | _, .nan => False

theorem le_antisymm {x y : Value} (h : Le x y) (h' : Le y x) : x = y := by
  cases x with
  | finite p =>
    cases y with
    | finite q => exact congrArg Value.finite (Rat.le_antisymm h h')
    | infinity n => exact absurd (h.symm.trans h') (by decide)
    | nan => exact h.elim
  | infinity m =>
    cases y with
    | finite q => exact absurd (h'.symm.trans h) (by decide)
    | infinity n => exact congrArg Value.infinity (Bool.eq_iff_iff.mpr ⟨h', h⟩)
    | nan => exact h.elim
  | nan => cases y <;> exact h.elim

/-! ## Rounding -/

theorem roundQuotient_mono {m n : Nat} (k : Nat) (h : m ≤ n) : roundQuotient m k ≤ roundQuotient n k := by
  have hdiv : m / 2 ^ k ≤ n / 2 ^ k := Nat.div_le_div_right h
  have hm := Nat.div_add_mod m (2 ^ k)
  have hn := Nat.div_add_mod n (2 ^ k)
  unfold roundQuotient
  simp only
  by_cases heq : m / 2 ^ k = n / 2 ^ k
  · rw [heq] at hm ⊢
    have hmod : m % 2 ^ k ≤ n % 2 ^ k := by omega
    split_ifs <;> omega
  · split_ifs <;> omega

theorem excess_mono (f : Format) {m n : Nat} (h : m ≤ n) : excess f m ≤ excess f n := by
  have hlog : m.log2 ≤ n.log2 := by
    rw [Nat.log2_eq_log_two, Nat.log2_eq_log_two]
    exact Nat.log_mono_right h
  unfold excess
  omega

theorem roundNat_two_pow (f : Format) (l : Nat) : roundNat f (2 ^ l) = 2 ^ l := by
  rw [roundNat, roundQuotient_mul_eq_iff]
  refine Nat.pow_dvd_pow 2 ?_
  have hp := f.precision_pos
  rw [excess, Nat.log2_two_pow]
  omega

theorem roundNat_mono (f : Format) {m n : Nat} (h : m ≤ n) : roundNat f m ≤ roundNat f n := by
  by_cases hexcess : excess f m = excess f n
  · rw [roundNat, roundNat, hexcess]
    exact Nat.mul_le_mul_right _ (roundQuotient_mono _ h)
  · -- The binades differ, and the power of two between them is kept.
    have hle := excess_mono f h
    have hn0 : n ≠ 0 := by
      rintro rfl
      exact hexcess (by rw [Nat.le_zero.mp h])
    have hupper : roundNat f m ≤ 2 ^ n.log2 := by
      rw [roundNat]
      calc roundQuotient m (excess f m) * 2 ^ excess f m ≤ 2 ^ f.precision * 2 ^ excess f m := Nat.mul_le_mul_right _ roundQuotient_le
        _ = 2 ^ (f.precision + excess f m) := by rw [Nat.pow_add]
        _ ≤ 2 ^ n.log2 := Nat.pow_le_pow_right (by decide) (by unfold excess at *; omega)
    have hsame : excess f (2 ^ n.log2) = excess f n := by rw [excess, excess, Nat.log2_two_pow]
    have hlower : 2 ^ n.log2 ≤ roundNat f n := by
      have hquotient := Nat.mul_le_mul_right (2 ^ excess f n) (roundQuotient_mono (excess f n) (Nat.log2_self_le hn0))
      rw [← hsame, ← roundNat, roundNat_two_pow, hsame] at hquotient
      exact hquotient
    exact hupper.trans hlower

def roundInt (f : Format) (n : Int) : Int := n.sign * roundNat f n.natAbs

theorem roundInt_mono (f : Format) {m n : Int} (h : m ≤ n) : roundInt f m ≤ roundInt f n := by
  unfold roundInt
  rcases lt_trichotomy m 0 with hm | rfl | hm
  · rw [Int.sign_eq_neg_one_of_neg hm]
    rcases lt_trichotomy n 0 with hn | rfl | hn
    · have hround := roundNat_mono f (show n.natAbs ≤ m.natAbs by omega)
      rw [Int.sign_eq_neg_one_of_neg hn]
      omega
    · simp
    · rw [Int.sign_eq_one_of_pos hn]
      omega
  · have hs := Int.mul_nonneg (Int.sign_nonneg_iff.mpr h) (Int.natCast_nonneg (roundNat f n.natAbs))
    simpa using hs
  · have hround := roundNat_mono f (show m.natAbs ≤ n.natAbs by omega)
    rw [Int.sign_eq_one_of_pos hm, Int.sign_eq_one_of_pos (hm.trans_le h)]
    omega

theorem ofInt_mono (f : Format) {m n : Int} (h : m ≤ n) : Le (ofInt f m) (ofInt f n) := by
  have hround := roundInt_mono f h
  have hmn : n < 0 → m < 0 := h.trans_lt
  have hm : ofInt f m = if roundNat f m.natAbs < 2 ^ f.maxExponent then .finite (roundInt f m : Int) else .infinity (m < 0) := by
    simp [ofInt, roundInt]
  have hn : ofInt f n = if roundNat f n.natAbs < 2 ^ f.maxExponent then .finite (roundInt f n : Int) else .infinity (n < 0) := by
    simp [ofInt, roundInt]
  rw [hm, hn]
  split
  · split
    · exact Rat.intCast_le_intCast.mpr hround
    · refine decide_eq_false fun hneg => ?_
      have hmag := roundNat_mono f (show n.natAbs ≤ m.natAbs by omega)
      omega
  · split
    · refine decide_eq_true (Int.not_le.mp fun hpos => ?_)
      have hmag := roundNat_mono f (show m.natAbs ≤ n.natAbs by omega)
      omega
    · simpa [Le] using hmn

end BinaryFloat

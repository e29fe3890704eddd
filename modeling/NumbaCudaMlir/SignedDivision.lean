import NumbaCudaMlir.ArithOps

/-!
# Signed division

The truncated quotient and remainder, and where they are those of the division
that rounds down, or of the unsigned division.
-/

namespace ArithOps

open MachineInt

variable {w : Nat} {x y : BitVec w}

/-- The quotient rounded toward zero. -/
def divsi (x y : BitVec w) : Option (BitVec w) :=
  if divides x y then some (BitVec.ofInt w (x.toInt.tdiv y.toInt)) else none

theorem ofInt_inj_of_near {a b : Int} (h : a - b < 2 ^ w) (h' : b - a < 2 ^ w) : BitVec.ofInt w a = BitVec.ofInt w b ↔ a = b := by
  rw [ofInt_eq_ofInt_iff]
  constructor
  · intro hdvd
    by_contra hne
    rcases lt_or_gt_of_ne hne with hlt | hlt
    · have := Int.le_of_dvd (by omega) (Int.neg_sub a b ▸ Int.dvd_neg.mpr hdvd)
      omega
    · have := Int.le_of_dvd (by omega) hdvd
      omega
  · rintro rfl
    simp

theorem ofInt_natCast_inj {q r : Nat} (hq : q < 2 ^ w) (hr : r < 2 ^ w) : BitVec.ofInt w q = BitVec.ofInt w r ↔ q = r := by
  have hcast : ((2 ^ w : Nat) : Int) = 2 ^ w := by push_cast; rfl
  rw [ofInt_inj_of_near (by omega) (by omega), Int.natCast_inj]

/-! ## Rounding down -/

/-- The division is exact, or its quotient is not negative. -/
def TruncatesDown (x y : BitVec w) : Prop := x.toInt.tmod y.toInt = 0 ∨ (x.toInt < 0 ↔ y.toInt < 0)

theorem tmod_neg_iff {a b : Int} (h : a.tmod b ≠ 0) : a.tmod b < 0 ↔ a < 0 := by
  rcases lt_or_ge a 0 with ha | ha
  · have hneg := Int.tmod_nonneg b (Int.neg_nonneg_of_nonpos ha.le)
    rw [Int.neg_tmod] at hneg
    omega
  · have hpos := Int.tmod_nonneg b ha
    omega

theorem fmod_of_truncatesDown (hy : y.toInt ≠ 0) (h : TruncatesDown x y) : x.toInt.fmod y.toInt = x.toInt.tmod y.toInt := by
  have hneg := @tmod_neg_iff x.toInt y.toInt
  rw [fmod_eq_tmod_add hy, if_neg, add_zero]
  rintro ⟨hs, hne⟩
  have := hneg hne
  rcases h with h | h
  · exact hne h
  · omega

theorem fmod_of_not_truncatesDown (hy : y.toInt ≠ 0) (h : ¬ TruncatesDown x y) :
    x.toInt.fmod y.toInt = x.toInt.tmod y.toInt + y.toInt := by
  rw [TruncatesDown, not_or] at h
  have := tmod_neg_iff h.1
  rw [fmod_eq_tmod_add hy, if_pos ⟨by omega, h.1⟩]

theorem fdiv_of_truncatesDown (hy : y.toInt ≠ 0) (h : TruncatesDown x y) : x.toInt.fdiv y.toInt = x.toInt.tdiv y.toInt := by
  have hf := Int.mul_fdiv_add_fmod x.toInt y.toInt
  have ht := Int.mul_tdiv_add_tmod x.toInt y.toInt
  rw [fmod_of_truncatesDown hy h] at hf
  exact Int.eq_of_mul_eq_mul_left hy (by omega)

theorem fdiv_of_not_truncatesDown (hy : y.toInt ≠ 0) (h : ¬ TruncatesDown x y) :
    x.toInt.fdiv y.toInt = x.toInt.tdiv y.toInt - 1 := by
  have hf := Int.mul_fdiv_add_fmod x.toInt y.toInt
  have ht := Int.mul_tdiv_add_tmod x.toInt y.toInt
  rw [fmod_of_not_truncatesDown hy h] at hf
  refine Int.eq_of_mul_eq_mul_left hy ?_
  rw [Int.mul_sub, mul_one]
  omega

/-! ## Quotients by different divisors -/

theorem tdiv_eq_zero_iff_abs {n k : Int} (hk : k ≠ 0) : n.tdiv k = 0 ↔ |n| < |k| := by
  have hnat := Nat.div_eq_zero_iff (a := n.natAbs) (b := k.natAbs)
  rw [← Int.natAbs_eq_zero, Int.natAbs_tdiv, Int.abs_eq_natAbs, Int.abs_eq_natAbs, show n.natAbs.div k.natAbs = n.natAbs / k.natAbs from rfl, hnat]
  omega

/-- A divisor and one of the other sign, no nearer to zero, give quotients of different signs, unless they are zero. -/
theorem tdiv_eq_tdiv_iff {n k d : Int} (hk : k < 0) (hd : -k ≤ d) : n.tdiv d = n.tdiv k ↔ |n| < |k| := by
  have hzero := tdiv_eq_zero_iff_abs (n := n) hk.ne
  have hzero' := tdiv_eq_zero_iff_abs (n := n) (show d ≠ 0 by omega)
  have habs : |k| ≤ |d| := by
    rw [abs_of_neg hk, abs_of_pos (show 0 < d by omega)]
    exact hd
  constructor
  · intro h
    rw [← hzero]
    rcases le_total 0 n with hn | hn
    · have h1 := Int.tdiv_nonneg hn (show 0 ≤ d by omega)
      have h2 := Int.tdiv_nonpos_of_nonneg_of_nonpos hn hk.le
      omega
    · have h1 := Int.tdiv_nonneg (Int.neg_nonneg_of_nonpos hn) (show 0 ≤ d by omega)
      have h2 := Int.tdiv_nonneg_of_nonpos_of_nonpos hn hk.le
      rw [Int.neg_tdiv] at h1
      omega
  · intro h
    rw [hzero.mpr h, hzero'.mpr (h.trans_le habs)]

theorem tdiv_eq_fdiv_iff {n k : Int} (hk : k ≠ 0) : n.tdiv k = n.fdiv k ↔ k ∣ n ∨ (n < 0 ↔ k < 0) := by
  have hsign : k.sign = if 0 ≤ k then 1 else -1 := by
    split
    · exact Int.sign_eq_one_of_pos (by omega)
    · exact Int.sign_eq_neg_one_of_neg (by omega)
  rw [Int.tdiv_eq_fdiv, hsign]
  by_cases hdvd : k ∣ n
  · simp [hdvd]
  · simp only [hdvd, false_or, if_false]
    generalize n.fdiv k = q
    split_ifs <;> omega

theorem tdiv_eq_fdiv_iff_of_neg {n k d : Int} (hk : k < 0) (hd : -k ≤ d) : n.tdiv d = n.fdiv k ↔ k < n ∧ n ≤ 0 := by
  rcases le_or_gt n 0 with hn | hn
  · have hdown : n.tdiv k = n.fdiv k := by
      rw [tdiv_eq_fdiv_iff hk.ne]
      rcases hn.lt_or_eq with hlt | rfl
      · exact .inr (iff_of_true hlt hk)
      · exact .inl (dvd_zero k)
    rw [← hdown, tdiv_eq_tdiv_iff hk hd, abs_of_nonpos hn, abs_of_neg hk]
    omega
  · have h1 := Int.tdiv_nonneg hn.le (show 0 ≤ d by omega)
    have h2 := Int.fdiv_neg_of_neg_of_pos (show -n < 0 by omega) (show 0 < -k by omega)
    rw [Int.neg_fdiv_neg] at h2
    omega

/-! ## Operations that divide -/

theorem toInt_ne_zero (h : divides x y) : y.toInt ≠ 0 := by
  rw [← BitVec.toInt_zero, Ne, BitVec.toInt_inj]
  exact h.1

theorem divsi_eq_floordivsi_iff (hw : 0 < w) (h : divides x y) : divsi x y = floordivsi x y ↔ TruncatesDown x y := by
  have hy := toInt_ne_zero h
  have hpow : (0 : Int) < 2 ^ (w - 1) := by positivity
  have h2 := two_pow_pred hw
  rw [divsi, floordivsi, if_pos h, if_pos h, Option.some.injEq]
  constructor
  · intro heq
    by_contra hn
    rw [fdiv_of_not_truncatesDown hy hn, ofInt_inj_of_near (by omega) (by omega)] at heq
    omega
  · intro ht
    rw [fdiv_of_truncatesDown hy ht]

theorem remsi_eq_fmod_iff (hw : 0 < w) (h : divides x y) :
    remsi x y = some (BitVec.ofInt w (x.toInt.fmod y.toInt)) ↔ TruncatesDown x y := by
  have hy := toInt_ne_zero h
  have hpow : (0 : Int) < 2 ^ (w - 1) := by positivity
  have h2 := two_pow_pred hw
  have hrange := value_inRange hw true y
  rw [value_signed, inRange_signed] at hrange
  rw [remsi, if_pos h, Option.some.injEq]
  constructor
  · intro heq
    by_contra hn
    rw [fmod_of_not_truncatesDown hy hn, ofInt_inj_of_near (by omega) (by omega)] at heq
    omega
  · intro ht
    rw [fmod_of_truncatesDown hy ht]

/-! ## Unsigned operands -/

/-- Where the operands, read as signed, have the unsigned quotient. -/
def QuotientUnsigned (x y : BitVec w) : Prop := y.toNat = 1 ∨ x = y ∨ 2 * x.toNat < 2 ^ w ∧ x.toNat + y.toNat < 2 ^ w

def RemainderUnsigned (x y : BitVec w) : Prop :=
  x = y ∨ (2 * x.toNat < 2 ^ w ∧ x.toNat + y.toNat < 2 ^ w) ∨ y.toNat ∣ x.toNat ∧ y.toNat ∣ 2 ^ w

theorem toInt_of_small (h : 2 * x.toNat < 2 ^ w) : x.toInt = x.toNat := by
  rw [BitVec.toInt_eq_toNat_cond, if_pos h]

theorem toInt_of_large (h : ¬ 2 * x.toNat < 2 ^ w) : x.toInt = -((2 ^ w - x.toNat : Nat) : Int) := by
  have := x.isLt
  rw [BitVec.toInt_eq_toNat_cond, if_neg h]
  omega

theorem toNat_ne_zero (hy : y ≠ 0#w) : y.toNat ≠ 0 := by
  rwa [← BitVec.toNat_zero (w := w), Ne, BitVec.toNat_inj]

theorem quotient_iff (hy : y ≠ 0#w) :
    BitVec.ofInt w (x.toInt.tdiv y.toInt) = BitVec.ofInt w ((x.toNat / y.toNat : Nat) : Int) ↔ QuotientUnsigned x y := by
  have hx := x.isLt
  have hylt := y.isLt
  have hy0 := toNat_ne_zero hy
  have hcast : ((2 ^ w : Nat) : Int) = 2 ^ w := by push_cast; rfl
  have hle := Nat.div_le_self x.toNat y.toNat
  rw [QuotientUnsigned, show x = y ↔ x.toNat = y.toNat from BitVec.toNat_inj.symm]
  by_cases hxs : 2 * x.toNat < 2 ^ w
  · rw [toInt_of_small hxs]
    by_cases hys : 2 * y.toNat < 2 ^ w
    · rw [toInt_of_small hys, ← Int.ofNat_tdiv]
      exact iff_of_true rfl (by omega)
    · -- the unsigned quotient is zero
      have hzero : x.toNat / y.toNat = 0 := Nat.div_eq_of_lt (by omega)
      have hneg := Nat.div_le_self x.toNat (2 ^ w - y.toNat)
      have hlt : x.toNat / (2 ^ w - y.toNat) = 0 ↔ x.toNat < 2 ^ w - y.toNat := by
        rw [Nat.div_eq_zero_iff]
        omega
      rw [toInt_of_large hys, Int.tdiv_neg, ← Int.ofNat_tdiv, hzero]
      generalize x.toNat / (2 ^ w - y.toNat) = q at hneg hlt ⊢
      rw [ofInt_inj_of_near (by omega) (by omega)]
      omega
  · rw [toInt_of_large hxs]
    have hneg := Nat.div_le_self (2 ^ w - x.toNat) y.toNat
    by_cases hys : 2 * y.toNat < 2 ^ w
    · rw [toInt_of_small hys, Int.neg_tdiv, ← Int.ofNat_tdiv]
      by_cases h1 : y.toNat = 1
      · rw [h1, Nat.div_one, Nat.div_one, ofInt_eq_ofInt_iff]
        exact iff_of_true ⟨-1, by omega⟩ (.inl rfl)
      · -- neither part of the sum reaches half of the modulus
        have hpos : 1 ≤ x.toNat / y.toNat := (Nat.one_le_div_iff (by omega)).mpr (by omega)
        have h2 : x.toNat / y.toNat ≤ x.toNat / 2 := Nat.div_le_div_left (by omega) (by omega)
        have h2' : (2 ^ w - x.toNat) / y.toNat ≤ (2 ^ w - x.toNat) / 2 := Nat.div_le_div_left (by omega) (by omega)
        generalize x.toNat / y.toNat = q at hpos h2 ⊢
        generalize (2 ^ w - x.toNat) / y.toNat = q' at h2' ⊢
        rw [ofInt_inj_of_near (by omega) (by omega)]
        omega
    · have hle' := Nat.div_le_self (2 ^ w - x.toNat) (2 ^ w - y.toNat)
      rw [toInt_of_large hys, Int.neg_tdiv, Int.tdiv_neg, neg_neg, ← Int.ofNat_tdiv,
        ofInt_natCast_inj (by omega) (by omega)]
      rcases Nat.lt_trichotomy x.toNat y.toNat with hlt | heq | hlt
      · have hzero : x.toNat / y.toNat = 0 := Nat.div_eq_of_lt hlt
        have hpos : 1 ≤ (2 ^ w - x.toNat) / (2 ^ w - y.toNat) := (Nat.one_le_div_iff (by omega)).mpr (by omega)
        omega
      · rw [heq, Nat.div_self (by omega), Nat.div_self (by omega)]
        omega
      · have hzero : (2 ^ w - x.toNat) / (2 ^ w - y.toNat) = 0 := Nat.div_eq_of_lt (by omega)
        have hpos : 1 ≤ x.toNat / y.toNat := (Nat.one_le_div_iff (by omega)).mpr hlt.le
        omega

theorem remainder_iff (hy : y ≠ 0#w) :
    BitVec.ofInt w (x.toInt.tmod y.toInt) = BitVec.ofInt w ((x.toNat % y.toNat : Nat) : Int) ↔ RemainderUnsigned x y := by
  have hx := x.isLt
  have hylt := y.isLt
  have hy0 := toNat_ne_zero hy
  have hcast : ((2 ^ w : Nat) : Int) = 2 ^ w := by push_cast; rfl
  have hle := Nat.mod_le x.toNat y.toNat
  -- a divisor of both with half of the range or more is the dividend
  have hdvd : 2 ^ w ≤ 2 * y.toNat → y.toNat ∣ x.toNat → x.toNat = 0 ∨ x.toNat = y.toNat := by
    rintro hlarge ⟨k, hk⟩
    match k with
    | 0 => exact .inl hk
    | 1 => exact .inr (by omega)
    | k + 2 =>
      have := Nat.mul_le_mul_left y.toNat (show 2 ≤ k + 2 by omega)
      omega
  rw [RemainderUnsigned, show x = y ↔ x.toNat = y.toNat from BitVec.toNat_inj.symm]
  by_cases hxs : 2 * x.toNat < 2 ^ w
  · rw [toInt_of_small hxs]
    by_cases hys : 2 * y.toNat < 2 ^ w
    · rw [toInt_of_small hys, ← Int.ofNat_tmod]
      exact iff_of_true rfl (by omega)
    · have hself : x.toNat % y.toNat = x.toNat := Nat.mod_eq_of_lt (by omega)
      have hneg := Nat.mod_le x.toNat (2 ^ w - y.toNat)
      rw [toInt_of_large hys, Int.tmod_neg, ← Int.ofNat_tmod, hself, ofInt_inj_of_near (by omega) (by omega)]
      by_cases hlt : x.toNat < 2 ^ w - y.toNat
      · rw [Nat.mod_eq_of_lt hlt]
        exact iff_of_true rfl (by omega)
      · have hmod := Nat.mod_lt x.toNat (show 2 ^ w - y.toNat > 0 by omega)
        refine iff_of_false (by omega) ?_
        rintro (h | h | h)
        · omega
        · omega
        · have := hdvd (by omega) h.1
          omega
  · rw [toInt_of_large hxs]
    have hneg := Nat.mod_le (2 ^ w - x.toNat) y.toNat
    by_cases hys : 2 * y.toNat < 2 ^ w
    · have hlt := Nat.mod_lt x.toNat (show y.toNat > 0 by omega)
      have hlt' := Nat.mod_lt (2 ^ w - x.toNat) (show y.toNat > 0 by omega)
      have hsum : y.toNat ∣ 2 ^ w - x.toNat ∧ y.toNat ∣ x.toNat ↔ y.toNat ∣ x.toNat ∧ y.toNat ∣ 2 ^ w := by
        rw [and_comm]
        exact and_congr_right fun h => (Nat.dvd_sub_iff_left hx.le h)
      rw [toInt_of_small hys, Int.neg_tmod, ← Int.ofNat_tmod, ofInt_inj_of_near (by omega) (by omega), ← hsum,
        Nat.dvd_iff_mod_eq_zero, Nat.dvd_iff_mod_eq_zero]
      omega
    · have hlt := Nat.mod_lt x.toNat (show y.toNat > 0 by omega)
      have hlt' := Nat.mod_lt (2 ^ w - x.toNat) (show 2 ^ w - y.toNat > 0 by omega)
      rw [toInt_of_large hys, Int.neg_tmod, Int.tmod_neg, ← Int.ofNat_tmod, ofInt_inj_of_near (by omega) (by omega)]
      rcases Nat.lt_trichotomy x.toNat y.toNat with hlt | heq | hlt
      · have hself : x.toNat % y.toNat = x.toNat := Nat.mod_eq_of_lt hlt
        refine iff_of_false (by omega) ?_
        rintro (h | h | h)
        · omega
        · omega
        · have := hdvd (by omega) h.1
          omega
      · rw [heq, Nat.mod_self, Nat.mod_self]
        exact iff_of_true (by simp) (.inl rfl)
      · have hself : (2 ^ w - x.toNat) % (2 ^ w - y.toNat) = 2 ^ w - x.toNat := Nat.mod_eq_of_lt (by omega)
        refine iff_of_false (by omega) ?_
        rintro (h | h | h)
        · omega
        · omega
        · have := hdvd (by omega) h.1
          omega

theorem toNat_of_not_divides (hw : 1 < w) (hy : y ≠ 0#w) (h : ¬ divides x y) :
    2 * x.toNat = 2 ^ w ∧ y.toNat = 2 ^ w - 1 ∧ 4 ≤ 2 ^ w := by
  obtain ⟨rfl, rfl⟩ : x = BitVec.intMin w ∧ y = BitVec.allOnes w := by
    by_contra hn
    exact h ⟨hy, hn⟩
  have hpow : 2 ^ w = 2 * 2 ^ (w - 1) := by
    rw [← Nat.pow_succ']
    congr 1
    omega
  have hlt : 2 ^ (w - 1) < 2 ^ w := Nat.pow_lt_pow_right (by omega) (by omega)
  have h4 : 2 ^ 2 ≤ 2 ^ w := Nat.pow_le_pow_right (by omega) hw
  rw [BitVec.toNat_intMin, BitVec.toNat_allOnes, Nat.mod_eq_of_lt hlt]
  omega

theorem divsi_eq_divui_iff (hw : 1 < w) (hy : y ≠ 0#w) : divsi x y = divui x y ↔ QuotientUnsigned x y := by
  rw [divui_eq_some (toNat_ne_zero hy), ← Int.ofNat_fdiv]
  by_cases h : divides x y
  · rw [divsi, if_pos h, Option.some.injEq]
    exact quotient_iff hy
  · obtain ⟨hx, hy', h4⟩ := toNat_of_not_divides hw hy h
    rw [divsi, if_neg h, QuotientUnsigned, show x = y ↔ x.toNat = y.toNat from BitVec.toNat_inj.symm]
    exact iff_of_false (by simp) (by omega)

theorem remsi_eq_remui_iff (hw : 1 < w) (hy : y ≠ 0#w) : remsi x y = remui x y ↔ RemainderUnsigned x y := by
  rw [remui_eq_some (toNat_ne_zero hy), ← Int.ofNat_fmod]
  by_cases h : divides x y
  · rw [remsi, if_pos h, Option.some.injEq]
    exact remainder_iff hy
  · obtain ⟨hx, hy', h4⟩ := toNat_of_not_divides hw hy h
    rw [remsi, if_neg h, RemainderUnsigned, show x = y ↔ x.toNat = y.toNat from BitVec.toNat_inj.symm]
    refine iff_of_false (by simp) ?_
    rintro (heq | hlt | ⟨hdvd, -⟩)
    · omega
    · omega
    · have := Nat.le_of_dvd (by omega) hdvd
      omega

end ArithOps

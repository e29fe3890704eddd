import Mathlib.Algebra.Order.Field.Basic
import Mathlib.Algebra.Order.Field.Power
import Mathlib.Data.Rat.Cast.Order
import Mathlib.Tactic.FieldSimp
import NumbaCudaMlir.FloatFormats

/-!
# Rounding rationals

A magnitude has a last place in a format, and is rounded to the nearest
multiple of it, a tie to the even one. The bits of the result are the multiple
counted on from the place. A number that was rounded before, to a format with
more bits, is rounded alike unless the first rounding reached a halfway point.
-/

namespace BinaryFloat

/-! ## The nearest integer -/

/-- `m` is nearest to `y`, and even if another integer is as near. -/
def NearestEven (y : Rat) (m : Nat) : Prop := |y - m| < 1 / 2 ∨ |y - m| = 1 / 2 ∧ m % 2 = 0

theorem NearestEven.unique {y : Rat} {m n : Nat} (hm : NearestEven y m) (hn : NearestEven y n) : m = n := by
  have hsum : |(m : Rat) - n| ≤ |y - n| + |y - m| := by
    have h := abs_sub (y - n) (y - m)
    rwa [sub_sub_sub_cancel_left] at h
  have hle : |(m : Rat) - n| ≤ 1 := by
    rcases hm with hm | ⟨hm, -⟩ <;> rcases hn with hn | ⟨hn, -⟩ <;> linarith
  have hint : |(m : Int) - n| ≤ 1 := by exact_mod_cast hle
  by_contra hne
  -- Two neighbours are both as near as one half, so both are even.
  have hone : |(m : Int) - n| = 1 := Int.le_antisymm hint (Int.one_le_abs (sub_ne_zero.mpr (Int.ofNat_inj.not.mpr hne)))
  have hone' : |(m : Rat) - n| = 1 := by exact_mod_cast hone
  have heven : m % 2 = 0 ∧ n % 2 = 0 := by
    rcases hm with hm | ⟨hm, hm'⟩ <;> rcases hn with hn | ⟨hn, hn'⟩
    · linarith
    · linarith
    · linarith
    · exact ⟨hm', hn'⟩
  rcases (abs_eq (by decide)).mp hone with h | h <;> omega

theorem nearestEven_natCast (m : Nat) : NearestEven m m := .inl (by norm_num)

theorem nearestEven_roundDiv (n : Nat) {d : Nat} (hd : 0 < d) : NearestEven (n / d) (roundDiv n d) := by
  have hd' : (0 : Rat) < d := by exact_mod_cast hd
  have hmod : n % d < d := Nat.mod_lt n hd
  have hsplit : (n : Rat) = d * (n / d : Nat) + (n % d : Nat) := by exact_mod_cast (Nat.div_add_mod n d).symm
  have hlow : (n : Rat) / d - (n / d : Nat) = (n % d : Nat) / d := by
    rw [hsplit]
    field_simp
    ring
  have hhigh : (n : Rat) / d - (n / d + 1 : Nat) = -((d - n % d : Nat) / d) := by
    rw [Nat.cast_sub hmod.le, Nat.cast_add, Nat.cast_one, ← sub_sub, hlow]
    field_simp
    ring
  unfold roundDiv NearestEven
  split
  · next h =>
    rw [hlow, abs_of_nonneg (by positivity), div_lt_iff₀ hd', div_eq_iff hd'.ne']
    rcases h with h | ⟨h, heven⟩
    · left
      have : (2 * (n % d : Nat) : Rat) < d := by exact_mod_cast h
      linarith
    · right
      have : (2 * (n % d : Nat) : Rat) = d := by exact_mod_cast h
      exact ⟨by linarith, heven⟩
  · next h =>
    rw [hhigh, abs_neg, abs_of_nonneg (by positivity), div_lt_iff₀ hd', div_eq_iff hd'.ne']
    by_cases htie : 2 * (n % d) = d
    · right
      have : (2 * (d - n % d : Nat) : Rat) = d := by exact_mod_cast (show 2 * (d - n % d) = d by omega)
      exact ⟨by linarith, by omega⟩
    · left
      have : (2 * (d - n % d : Nat) : Rat) < d := by exact_mod_cast (show 2 * (d - n % d) < d by omega)
      linarith

theorem NearestEven.le_of_le {y : Rat} {m n : Nat} (hm : NearestEven y m) (h : (n : Rat) ≤ y) : n ≤ m := by
  by_contra hlt
  have hle : (m : Rat) + 1 ≤ n := by exact_mod_cast Nat.not_le.mp hlt
  have habs := le_abs_self (y - m)
  rcases hm with hm | ⟨hm, -⟩ <;> linarith

theorem NearestEven.le_of_ge {y : Rat} {m n : Nat} (hm : NearestEven y m) (h : y ≤ n) : m ≤ n := by
  by_contra hlt
  have hle : (n : Rat) + 1 ≤ m := by exact_mod_cast Nat.not_le.mp hlt
  have habs := neg_le_abs (y - m)
  rcases hm with hm | ⟨hm, -⟩ <;> linarith

/-! ## The last place -/

/-- The exponent of the last place of the subnormal numbers. -/
def Format.leastPlace (f : Format) : Int := 3 - f.maxExponent - f.precision

/-- A magnitude has its last place at `2 ^ e`. -/
structure LastPlace (f : Format) (a : Rat) (e : Int) : Prop where
  least : f.leastPlace ≤ e
  below : a < 2 ^ (e + f.precision)
  above : e = f.leastPlace ∨ 2 ^ (e + f.precision - 1) ≤ a

theorem two_zpow_le_iff {a b : Int} : (2 : Rat) ^ a ≤ 2 ^ b ↔ a ≤ b := zpow_le_zpow_iff_right₀ (by norm_num)

theorem two_zpow_lt_iff {a b : Int} : (2 : Rat) ^ a < 2 ^ b ↔ a < b := zpow_lt_zpow_iff_right₀ (by norm_num)

theorem LastPlace.unique {f : Format} {a : Rat} {e e' : Int} (h : LastPlace f a e) (h' : LastPlace f a e') : e = e' := by
  have hcases : ∀ {e e'}, LastPlace f a e → LastPlace f a e' → e ≤ e' := by
    intro e e' h h'
    by_contra hlt
    rcases h.above with heq | hle
    · have := h'.least
      omega
    · have := two_zpow_lt_iff.mp (hle.trans_lt h'.below)
      omega
  exact Int.le_antisymm (hcases h h') (hcases h' h)

theorem log_bounds {n d : Nat} (hn : n ≠ 0) (hd : d ≠ 0) {k : Int} (hk : k = n.log2 - d.log2) :
    (2 : Rat) ^ (k - 1) < n / d ∧ (n : Rat) / d < 2 ^ (k + 1) := by
  have hn' : (2 : Rat) ^ n.log2 ≤ n ∧ (n : Rat) < 2 ^ (n.log2 + 1) :=
    ⟨by exact_mod_cast Nat.log2_self_le hn, by exact_mod_cast Nat.lt_log2_self⟩
  have hd' : (2 : Rat) ^ d.log2 ≤ d ∧ (d : Rat) < 2 ^ (d.log2 + 1) :=
    ⟨by exact_mod_cast Nat.log2_self_le hd, by exact_mod_cast Nat.lt_log2_self⟩
  have hpos : (0 : Rat) < d := by exact_mod_cast Nat.pos_of_ne_zero hd
  rw [lt_div_iff₀ hpos, div_lt_iff₀ hpos]
  constructor
  · calc (2 : Rat) ^ (k - 1) * d < 2 ^ (k - 1) * 2 ^ (d.log2 + 1) := mul_lt_mul_of_pos_left hd'.2 (by positivity)
      _ = 2 ^ n.log2 := by
        rw [← zpow_natCast, ← zpow_natCast, ← zpow_add₀ two_ne_zero]
        congr 1
        push_cast
        omega
      _ ≤ n := hn'.1
  · calc (n : Rat) < 2 ^ (n.log2 + 1) := hn'.2
      _ = 2 ^ (k + 1) * 2 ^ d.log2 := by
        rw [← zpow_natCast, ← zpow_natCast, ← zpow_add₀ two_ne_zero]
        congr 1
        push_cast
        omega
      _ ≤ 2 ^ (k + 1) * d := mul_le_mul_of_nonneg_left hd'.1 (by positivity)

theorem scaled_le_iff {n d : Nat} (hd : d ≠ 0) (k : Int) : d * 2 ^ k.toNat ≤ n * 2 ^ (-k).toNat ↔ (2 : Rat) ^ k ≤ n / d := by
  have hpos : (0 : Rat) < d := by exact_mod_cast Nat.pos_of_ne_zero hd
  have hk : (2 : Rat) ^ k * 2 ^ (-k).toNat = 2 ^ k.toNat := by
    rw [← zpow_natCast, ← zpow_natCast, ← zpow_add₀ two_ne_zero]
    congr 1
    omega
  have hscale : (0 : Rat) < 2 ^ (-k).toNat := by positivity
  rw [le_div_iff₀ hpos, ← mul_le_mul_iff_left₀ hscale, mul_right_comm, hk, mul_comm _ (d : Rat)]
  exact_mod_cast Iff.rfl

theorem lastPlace_lastPlace (f : Format) {n d : Nat} (hn : n ≠ 0) (hd : d ≠ 0) : LastPlace f (n / d) (lastPlace f n d) := by
  have hp := f.precision_pos
  obtain ⟨hlow, hhigh⟩ := log_bounds hn hd rfl
  unfold lastPlace
  simp only [scaled_le_iff hd]
  generalize ((n.log2 : Int) - d.log2) = k at hlow hhigh ⊢
  obtain ⟨log, hlog, hge, hlt⟩ : ∃ log, (if (2 : Rat) ^ k ≤ n / d then k else k - 1) = log ∧ (2 : Rat) ^ log ≤ n / d ∧ (n : Rat) / d < 2 ^ (log + 1) := by
    split
    · next h => exact ⟨k, rfl, h, hhigh⟩
    · next h => exact ⟨k - 1, rfl, hlow.le, by rw [sub_add_cancel]; exact not_le.mp h⟩
  rw [hlog]
  have hcast : ((f.precision - 1 : Nat) : Int) = f.precision - 1 := by omega
  refine ⟨le_max_right _ _, hlt.trans_le (two_zpow_le_iff.mpr (by omega)), ?_⟩
  rcases le_total (log - ((f.precision : Int) - 1)) (3 - f.maxExponent - f.precision) with h | h
  · exact .inl (max_eq_right h)
  · refine .inr (le_trans (two_zpow_le_iff.mpr ?_) hge)
    rw [max_eq_left h]
    omega

/-! ## Rounded numbers -/

/-- `m` units of the place `e`, infinite from the largest exponent on. -/
def ofScaled (f : Format) (negative : Bool) (m : Nat) (e : Int) : Value :=
  if (m : Rat) * 2 ^ e < 2 ^ f.maxExponent then .finite (if negative then -(m * 2 ^ e) else m * 2 ^ e) else .infinity negative

theorem ofScaled_zero (f : Format) (negative : Bool) (e : Int) : ofScaled f negative 0 e = .finite 0 := by
  simp [ofScaled]

theorem ofScaled_two_mul (f : Format) (negative : Bool) (m : Nat) (e : Int) :
    ofScaled f negative (2 * m) e = ofScaled f negative m (e + 1) := by
  have hscale : ((2 * m : Nat) : Rat) * 2 ^ e = m * 2 ^ (e + 1) := by
    rw [zpow_add_one₀ two_ne_zero]
    push_cast
    ring
  rw [ofScaled, ofScaled, hscale]

theorem abs_eq_div (q : Rat) : |q| = q.num.natAbs / q.den := by
  conv_lhs => rw [← Rat.num_div_den q, abs_div, Nat.abs_cast, ← Int.cast_abs, Int.abs_eq_natAbs, Int.cast_natCast]

theorem two_zpow_eq_div (e : Int) : (2 : Rat) ^ e = 2 ^ e.toNat / 2 ^ (-e).toNat := by
  rw [eq_div_iff (by positivity), ← zpow_natCast, ← zpow_natCast, ← zpow_add₀ two_ne_zero]
  congr 1
  omega

theorem ofRat_of_lastPlace {f : Format} {q : Rat} {e : Int} {m : Nat} (he : LastPlace f |q| e) (hm : NearestEven (|q| / 2 ^ e) m) :
    ofRat f q = ofScaled f (q < 0) m e := by
  by_cases hq : q = 0
  · subst hq
    rw [abs_zero, zero_div] at hm
    rw [ofRat_zero, hm.unique (nearestEven_natCast 0), ofScaled_zero]
  have hnum : q.num.natAbs ≠ 0 := Int.natAbs_ne_zero.mpr (Rat.num_ne_zero.mpr hq)
  have hlast : lastPlace f q.num.natAbs q.den = e :=
    (lastPlace_lastPlace f hnum q.den_nz).unique (abs_eq_div q ▸ he)
  have hround : roundDiv (q.num.natAbs * 2 ^ (-e).toNat) (q.den * 2 ^ e.toNat) = m := by
    refine (nearestEven_roundDiv _ (Nat.mul_pos q.den_pos (Nat.two_pow_pos _))).unique ?_
    rw [abs_eq_div, two_zpow_eq_div, div_div_div_eq] at hm
    exact_mod_cast hm
  have hlt : m * 2 ^ e.toNat < 2 ^ f.maxExponent * 2 ^ (-e).toNat ↔ (m : Rat) * 2 ^ e < 2 ^ f.maxExponent := by
    rw [two_zpow_eq_div, ← mul_div_assoc, div_lt_iff₀ (by positivity)]
    exact_mod_cast Iff.rfl
  have hsign : ∀ x : Rat, (q.num.sign : Rat) * x = if decide (q < 0) then -x else x := by
    intro x
    rcases lt_or_gt_of_ne hq with h | h
    · rw [Int.sign_eq_neg_one_of_neg (Rat.num_neg.mpr h)]
      simp [h]
    · rw [Int.sign_eq_one_of_pos (Rat.num_pos.mpr h)]
      simp [h.le]
  unfold ofRat ofScaled
  simp only [hlast, hround, hlt, Rat.num_neg]
  rw [mul_div_assoc, ← two_zpow_eq_div, hsign]

/-! ## Bits -/

theorem leastPlace_eq (f : Format) (hf : f.Interchange) : f.leastPlace - 1 = -((f.bias + f.fractionBits : Nat) : Int) := by
  have := f.precision_pos
  have := hf.one_lt
  unfold Format.leastPlace Format.bias Format.fractionBits
  omega

theorem two_pow_precision (f : Format) : 2 ^ f.precision = 2 * 2 ^ f.fractionBits := by
  have := f.precision_pos
  rw [Format.fractionBits, ← Nat.pow_succ']
  congr 1
  omega

theorem two_pow_maxExponent (f : Format) (hf : f.Interchange) :
    (2 : Rat) ^ f.maxExponent = 2 ^ f.fractionBits * 2 ^ (f.leastPlace + (2 ^ f.exponentBits - 1 : Nat) - 1) := by
  have hp := f.precision_pos
  have hone := hf.one_lt
  rw [← zpow_natCast, ← zpow_natCast, ← zpow_add₀ two_ne_zero, hf.two_pow_exponentBits]
  congr 1
  unfold Format.leastPlace Format.fractionBits
  omega

theorem magnitude_scaled {f : Format} (hf : f.Interchange) (exponent fraction : Nat) :
    magnitude f exponent fraction = significand f exponent fraction * 2 ^ (f.leastPlace + (max exponent 1 : Nat) - 1) := by
  rw [magnitude, mul_div_assoc, add_sub_right_comm, leastPlace_eq f hf, zpow_add₀ two_ne_zero, zpow_neg, zpow_natCast, zpow_natCast]
  ring

theorem ofParts_scaled {f : Format} (hf : f.Interchange) (negative : Bool) {exponent fraction : Nat} (hx : fraction < 2 ^ f.fractionBits)
    (htop : exponent * 2 ^ f.fractionBits + fraction ≤ (2 ^ f.exponentBits - 1) * 2 ^ f.fractionBits) :
    ofParts f negative exponent fraction =
      ofScaled f negative (significand f exponent fraction) (f.leastPlace + (max exponent 1 : Nat) - 1) := by
  have hone := hf.one_lt
  have hbits := hf.two_pow_exponentBits
  have hpos : 0 < 2 ^ f.fractionBits := Nat.two_pow_pos _
  by_cases he : exponent = 2 ^ f.exponentBits - 1
  · obtain rfl : fraction = 0 := by
      rw [he] at htop
      omega
    have hmax : max exponent 1 = 2 ^ f.exponentBits - 1 := by omega
    have hsig : significand f exponent 0 = 2 ^ f.fractionBits := by rw [significand, if_neg (by omega), Nat.add_zero]
    rw [ofParts, if_pos he, if_pos rfl, ofScaled, hsig, hmax, if_neg]
    rw [two_pow_maxExponent f hf]
    push_cast
    exact lt_irrefl _
  · have hlt : exponent < 2 ^ f.exponentBits - 1 := by
      refine lt_of_le_of_ne (Nat.le_of_mul_le_mul_right ?_ hpos) he
      omega
    have hsig : significand f exponent fraction < 2 * 2 ^ f.fractionBits := by
      unfold significand
      split <;> omega
    have hbound : (significand f exponent fraction : Rat) * 2 ^ (f.leastPlace + (max exponent 1 : Nat) - 1) < 2 ^ f.maxExponent := by
      have hplaces : f.leastPlace + (max exponent 1 : Nat) - 1 + 1 ≤ f.leastPlace + (2 ^ f.exponentBits - 1 : Nat) - 1 := by omega
      calc (significand f exponent fraction : Rat) * 2 ^ (f.leastPlace + (max exponent 1 : Nat) - 1)
          < (2 * 2 ^ f.fractionBits : Nat) * 2 ^ (f.leastPlace + (max exponent 1 : Nat) - 1) :=
            mul_lt_mul_of_pos_right (by exact_mod_cast hsig) (by positivity)
        _ = 2 ^ f.fractionBits * 2 ^ (f.leastPlace + (max exponent 1 : Nat) - 1 + 1) := by
            rw [zpow_add_one₀ two_ne_zero]
            push_cast
            ring
        _ ≤ 2 ^ f.fractionBits * 2 ^ (f.leastPlace + (2 ^ f.exponentBits - 1 : Nat) - 1) :=
            mul_le_mul_of_nonneg_left (two_zpow_le_iff.mpr hplaces) (by positivity)
        _ = 2 ^ f.maxExponent := (two_pow_maxExponent f hf).symm
    rw [ofParts, if_neg he, ofScaled, if_pos hbound, ← magnitude_scaled hf]
    rfl

/-- **Bits of a multiple.** A significand at a place above the least has these bits, and those after it when it carries. -/
theorem decode_scaled {f : Format} (hf : f.Interchange) (negative : Bool) {a s : Nat} (hs : s ≤ 2 ^ f.precision)
    (hlead : 2 ^ f.fractionBits ≤ s ∨ a = 0) (htop : a * 2 ^ f.fractionBits + s ≤ (2 ^ f.exponentBits - 1) * 2 ^ f.fractionBits) :
    decode f (negative.toNat * 2 ^ (f.fractionBits + f.exponentBits) + (a * 2 ^ f.fractionBits + s)) =
      ofScaled f negative s (f.leastPlace + a) := by
  have hpos : 0 < 2 ^ f.fractionBits := Nat.two_pow_pos _
  have hone := hf.one_lt
  have hbits := hf.two_pow_exponentBits
  rw [two_pow_precision] at hs
  have hparts : ∀ {exponent fraction}, fraction < 2 ^ f.fractionBits → exponent * 2 ^ f.fractionBits + fraction = a * 2 ^ f.fractionBits + s →
      decode f (negative.toNat * 2 ^ (f.fractionBits + f.exponentBits) + (a * 2 ^ f.fractionBits + s)) =
        ofScaled f negative (significand f exponent fraction) (f.leastPlace + (max exponent 1 : Nat) - 1) := by
    intro exponent fraction hx heq
    rw [← heq] at htop ⊢
    have hexponent : exponent ≤ 2 ^ f.exponentBits - 1 := Nat.le_of_mul_le_mul_right (by omega) hpos
    rw [← ofParts_scaled hf negative hx htop, ← decode_encodeParts f negative (by omega) hx, encodeParts, Nat.add_assoc]
  by_cases hsub : s < 2 ^ f.fractionBits
  · obtain rfl : a = 0 := hlead.resolve_left (by omega)
    rw [@hparts 0 s hsub rfl, significand, if_pos rfl]
    congr 1
    simp
  by_cases hcarry : s < 2 * 2 ^ f.fractionBits
  · rw [@hparts (a + 1) (s - 2 ^ f.fractionBits) (by omega) (by rw [Nat.succ_mul]; omega), significand, if_neg (by omega)]
    congr 1
    · omega
    · push_cast
      omega
  · obtain rfl : s = 2 * 2 ^ f.fractionBits := by omega
    rw [@hparts (a + 2) 0 hpos (by rw [Nat.add_mul]; omega), significand, if_neg (by omega), Nat.add_zero, ofScaled_two_mul]
    congr 1
    push_cast
    omega

/-- The place of a number in the bits of the format, from the least place on. -/
def placeField (f : Format) (q : Rat) : Nat := (lastPlace f q.num.natAbs q.den - f.leastPlace).toNat

def placeUnits (f : Format) (q : Rat) : Nat :=
  let e := lastPlace f q.num.natAbs q.den
  roundDiv (q.num.natAbs * 2 ^ (-e).toNat) (q.den * 2 ^ e.toNat)

def encodeRat (f : Format) (negative : Bool) (q : Rat) : Nat :=
  let magnitude := if q = 0 then 0 else min (placeField f q * 2 ^ f.fractionBits + placeUnits f q) ((2 ^ f.exponentBits - 1) * 2 ^ f.fractionBits)
  negative.toNat * 2 ^ (f.fractionBits + f.exponentBits) + magnitude

theorem placeUnits_spec (f : Format) {q : Rat} (hq : q ≠ 0) :
    ∃ e, LastPlace f |q| e ∧ NearestEven (|q| / 2 ^ e) (placeUnits f q) ∧ e = f.leastPlace + placeField f q := by
  have hnum : q.num.natAbs ≠ 0 := Int.natAbs_ne_zero.mpr (Rat.num_ne_zero.mpr hq)
  have hlast := lastPlace_lastPlace f hnum q.den_nz
  rw [← abs_eq_div] at hlast
  refine ⟨_, hlast, ?_, ?_⟩
  · rw [abs_eq_div, two_zpow_eq_div, div_div_div_eq]
    exact_mod_cast nearestEven_roundDiv _ (Nat.mul_pos q.den_pos (Nat.two_pow_pos _))
  · have := hlast.least
    unfold placeField
    omega

theorem LastPlace.units_bounds {f : Format} {a : Rat} {e : Int} {m : Nat} (he : LastPlace f a e) (hm : NearestEven (a / 2 ^ e) m) :
    m ≤ 2 ^ f.precision ∧ (2 ^ f.fractionBits ≤ m ∨ e = f.leastPlace) := by
  have hp := f.precision_pos
  have hpos : (0 : Rat) < 2 ^ e := by positivity
  constructor
  · refine hm.le_of_ge ?_
    rw [div_le_iff₀ hpos, Nat.cast_pow, Nat.cast_ofNat, ← zpow_natCast, ← zpow_add₀ two_ne_zero, add_comm]
    exact he.below.le
  · refine he.above.symm.imp_left fun h => hm.le_of_le ?_
    rw [le_div_iff₀ hpos, Nat.cast_pow, Nat.cast_ofNat, ← zpow_natCast, ← zpow_add₀ two_ne_zero]
    refine (two_zpow_le_iff.mpr ?_).trans h
    unfold Format.fractionBits
    omega

theorem ofParts_sign {f : Format} {negative : Bool} {exponent fraction : Nat} {q : Rat} (h : ofParts f negative exponent fraction = .finite q) :
    (q < 0 → negative = true) ∧ (0 < q → negative = false) := by
  obtain ⟨-, rfl⟩ := ofParts_finite h
  have hnonneg := magnitude_nonneg f exponent fraction
  cases negative with
  | false => exact ⟨fun hlt => absurd hlt hnonneg.not_gt, fun _ => rfl⟩
  | true => exact ⟨fun _ => rfl, fun hlt => absurd hlt (neg_nonpos.mpr hnonneg).not_gt⟩

theorem encodeRat_testBit (f : Format) (negative : Bool) (q : Rat) :
    (encodeRat f negative q).testBit (f.fractionBits + f.exponentBits) = negative := by
  have hpos : 0 < 2 ^ f.fractionBits * 2 ^ f.exponentBits := Nat.mul_pos (Nat.two_pow_pos _) (Nat.two_pow_pos _)
  have htop : (2 ^ f.exponentBits - 1) * 2 ^ f.fractionBits < 2 ^ (f.fractionBits + f.exponentBits) := by
    rw [Nat.sub_one_mul, Nat.pow_add, Nat.mul_comm (2 ^ f.exponentBits)]
    exact Nat.sub_lt hpos (Nat.two_pow_pos _)
  unfold encodeRat
  simp only
  generalize hmagnitude : (if q = 0 then 0 else min _ _) = magnitude
  have hlow : magnitude < 2 ^ (f.fractionBits + f.exponentBits) := by
    rw [← hmagnitude]
    split
    · exact Nat.two_pow_pos _
    · exact (min_le_right _ _).trans_lt htop
  rw [Nat.testBit_eq_decide_div_mod_eq, Nat.mul_comm, Nat.mul_add_div (Nat.two_pow_pos _), Nat.div_eq_of_lt hlow]
  cases negative <;> rfl

/-- **The encoding is that of the rounded number.** -/
theorem decode_encodeRat {f : Format} (hf : f.Interchange) {negative : Bool} {q : Rat} (hneg : q < 0 → negative = true)
    (hpos : 0 < q → negative = false) : decode f (encodeRat f negative q) = ofRat f q := by
  have hF : 0 < 2 ^ f.fractionBits := Nat.two_pow_pos _
  have hone := hf.one_lt
  have hbits := hf.two_pow_exponentBits
  unfold encodeRat
  by_cases hq : q = 0
  · have hzero := decode_scaled hf negative (a := 0) (s := 0) (Nat.zero_le _) (.inr rfl) (by simp)
    rw [ofScaled_zero] at hzero
    simpa [hq] using hzero
  obtain ⟨e, he, hm, hplace⟩ := placeUnits_spec f hq
  have hnegative : negative = decide (q < 0) := by
    rcases lt_or_gt_of_ne hq with h | h
    · rw [hneg h, decide_eq_true h]
    · rw [hpos h, decide_eq_false h.le.not_gt]
  obtain ⟨hle, hlead⟩ := he.units_bounds hm
  rw [ofRat_of_lastPlace he hm, ← hnegative, hplace, if_neg hq]
  generalize placeField f q = a at *
  generalize placeUnits f q = m at *
  have hlead' : 2 ^ f.fractionBits ≤ m ∨ a = 0 := hlead.imp_right fun h => by omega
  by_cases htop : a * 2 ^ f.fractionBits + m ≤ (2 ^ f.exponentBits - 1) * 2 ^ f.fractionBits
  · rw [min_eq_left htop, decode_scaled hf negative hle hlead' htop]
  · -- Past the largest exponent the bits are those of the infinity.
    rw [two_pow_precision] at hle
    have hfar : 2 ^ f.exponentBits - 2 ≤ a := by
      by_contra hlt
      have hmul := Nat.mul_le_mul_right (2 ^ f.fractionBits) (show a + 2 ≤ 2 ^ f.exponentBits - 1 by omega)
      rw [Nat.add_mul] at hmul
      omega
    have hunits : 2 ^ f.fractionBits ≤ m := hlead'.resolve_right (by omega)
    have hinfinite : ¬ (m : Rat) * 2 ^ (f.leastPlace + a) < 2 ^ f.maxExponent := by
      rw [not_lt, two_pow_maxExponent f hf]
      exact mul_le_mul (by exact_mod_cast hunits) (two_zpow_le_iff.mpr (by omega)) (by positivity) (by positivity)
    have hinfinity := decode_scaled hf negative (a := 2 ^ f.exponentBits - 2) (s := 2 ^ f.fractionBits)
      (by rw [two_pow_precision]; omega) (.inl le_rfl)
      (by rw [← Nat.succ_mul]; exact Nat.mul_le_mul_right _ (by omega))
    have hsum : (2 ^ f.exponentBits - 2) * 2 ^ f.fractionBits + 2 ^ f.fractionBits = (2 ^ f.exponentBits - 1) * 2 ^ f.fractionBits := by
      rw [← Nat.succ_mul]
      congr 1
      omega
    rw [hsum] at hinfinity
    rw [min_eq_right (by omega), hinfinity, ofScaled, ofScaled, if_neg hinfinite, if_neg]
    rw [not_lt, two_pow_maxExponent f hf]
    push_cast
    exact mul_le_mul_of_nonneg_left (two_zpow_le_iff.mpr (by omega)) (by positivity)

end BinaryFloat

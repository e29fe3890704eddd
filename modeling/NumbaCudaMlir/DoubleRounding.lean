import NumbaCudaMlir.FloatRounding

/-!
# Rounding twice

A number rounded to a format with `k` more bits and then to the narrower one is
rounded as at once, unless it lies beside a halfway point of the narrower format,
by at most half a place of the wider, on the side of the odd neighbour.
-/

namespace BinaryFloat

/-- `y` is rounded to the middle between two multiples of `2 ^ k`, and from there away from it. -/
def Slips (k : Nat) (y : Rat) : Prop :=
  ∃ j : Nat, |y - (2 * j + 1 : Nat) * 2 ^ (k - 1)| ≤ 1 / 2 ∧
    if j % 2 = 0 then ((2 * j + 1 : Nat) : Rat) * 2 ^ (k - 1) < y else y < (2 * j + 1 : Nat) * 2 ^ (k - 1)

theorem nearestEven_div_iff {c : Rat} (hc : 0 < c) (y : Rat) (m : Nat) :
    NearestEven (y / c) m ↔ |y - m * c| < c / 2 ∨ |y - m * c| = c / 2 ∧ m % 2 = 0 := by
  have hscale : |y / c - m| = |y - m * c| / c := by
    rw [← abs_of_pos hc, ← abs_div, abs_of_pos hc, sub_div, mul_div_cancel_right₀ _ hc.ne']
  rw [NearestEven, hscale, div_lt_iff₀ hc, div_eq_iff hc.ne']
  have hhalf : 1 / 2 * c = c / 2 := by ring
  rw [hhalf]

theorem NearestEven.abs_le {y : Rat} {n : Nat} (h : NearestEven y n) : |y - n| ≤ 1 / 2 := by
  rcases h with h | ⟨h, -⟩
  · exact h.le
  · exact h.le

section
variable {h : Nat} {y : Rat} {n : Nat}

theorem nearestEven_below (hn : NearestEven y n) (j : Nat) (hlow : 2 * j * h ≤ n) (hlt : n < (2 * j + 1) * h) :
    NearestEven (n / (2 * h)) j ∧ NearestEven (y / (2 * h)) j := by
  have hpos : 0 < h := Nat.pos_of_ne_zero fun h0 => by simp [h0] at hlt
  have hc : (0 : Rat) < 2 * h := by exact_mod_cast Nat.mul_pos two_pos hpos
  have habs := abs_le.mp hn.abs_le
  have hlow' : (2 * j * h : Rat) ≤ n := by exact_mod_cast hlow
  have hlt' : (n : Rat) + 1 ≤ (2 * j + 1) * h := by exact_mod_cast hlt
  have hone : (1 : Rat) ≤ h := by exact_mod_cast hpos
  rw [nearestEven_div_iff hc, nearestEven_div_iff hc]
  refine ⟨.inl (abs_lt.mpr ⟨?_, ?_⟩), .inl (abs_lt.mpr ⟨?_, ?_⟩)⟩ <;> nlinarith

theorem nearestEven_above (hn : NearestEven y n) (j : Nat) (hlt : (2 * j + 1) * h < n) (hhigh : n ≤ 2 * (j + 1) * h) :
    NearestEven (n / (2 * h)) (j + 1) ∧ NearestEven (y / (2 * h)) (j + 1) := by
  have hpos : 0 < h := Nat.pos_of_ne_zero fun h0 => by simp [h0] at hlt hhigh; omega
  have hc : (0 : Rat) < 2 * h := by exact_mod_cast Nat.mul_pos two_pos hpos
  have habs := abs_le.mp hn.abs_le
  have hhigh' : (n : Rat) ≤ 2 * (j + 1) * h := by exact_mod_cast hhigh
  have hlt' : (2 * j + 1 : Rat) * h + 1 ≤ n := by exact_mod_cast hlt
  have hone : (1 : Rat) ≤ h := by exact_mod_cast hpos
  rw [nearestEven_div_iff hc, nearestEven_div_iff hc]
  push_cast
  refine ⟨.inl (abs_lt.mpr ⟨?_, ?_⟩), .inl (abs_lt.mpr ⟨?_, ?_⟩)⟩ <;> nlinarith

theorem nearestEven_middle (hn : NearestEven y n) (hh : 0 < h) (j : Nat) (heq : n = (2 * j + 1) * h) :
    NearestEven (n / (2 * h)) (j + j % 2) ∧ ((n : Rat) < y → NearestEven (y / (2 * h)) (j + 1)) ∧
      (y < n → NearestEven (y / (2 * h)) j) := by
  have hc : (0 : Rat) < 2 * h := by exact_mod_cast Nat.mul_pos two_pos hh
  have habs := abs_le.mp hn.abs_le
  have heq' : (n : Rat) = (2 * j + 1) * h := by exact_mod_cast heq
  have hone : (1 : Rat) ≤ h := by exact_mod_cast hh
  rw [nearestEven_div_iff hc, nearestEven_div_iff hc, nearestEven_div_iff hc, heq']
  rw [heq'] at habs
  refine ⟨.inr ⟨?_, by omega⟩, fun hlt => .inl (abs_lt.mpr ⟨?_, ?_⟩), fun hlt => .inl (abs_lt.mpr ⟨?_, ?_⟩)⟩
  · rcases Nat.mod_two_eq_zero_or_one j with hj | hj
    · rw [hj, Nat.add_zero, abs_of_nonneg] <;> nlinarith
    · rw [hj, abs_of_nonpos] <;> push_cast <;> nlinarith
  all_goals push_cast; nlinarith

end

theorem slips_iff {k : Nat} (hk : 2 ≤ k) {y : Rat} {n : Nat} (hn : NearestEven y n) :
    Slips k y ↔ ∃ j, n = (2 * j + 1) * 2 ^ (k - 1) ∧ if j % 2 = 0 then (n : Rat) < y else y < n := by
  have heven : ∀ j : Nat, (2 * j + 1) * 2 ^ (k - 1) % 2 = 0 := fun j =>
    Nat.mod_eq_zero_of_dvd (Dvd.dvd.mul_left (dvd_pow_self 2 (by omega)) _)
  constructor
  · rintro ⟨j, hnear, hside⟩
    have hj : NearestEven y ((2 * j + 1) * 2 ^ (k - 1) : Nat) := by
      rw [NearestEven]
      push_cast at hnear ⊢
      exact hnear.lt_or_eq.imp_right fun h => ⟨h, heven j⟩
    obtain rfl := hn.unique hj
    exact ⟨j, rfl, by exact_mod_cast hside⟩
  · rintro ⟨j, rfl, hside⟩
    have hnear := hn.abs_le
    push_cast at hnear hside
    exact ⟨j, by exact_mod_cast hnear, by exact_mod_cast hside⟩

/-- **Double rounding.** -/
theorem nearestEven_twice {k : Nat} (hk : 2 ≤ k) {y : Rat} {n m m' : Nat} (hn : NearestEven y n) (hm : NearestEven (y / 2 ^ k) m)
    (hm' : NearestEven (n / 2 ^ k) m') : m' = m ↔ ¬ Slips k y := by
  have hh : 0 < 2 ^ (k - 1) := Nat.two_pow_pos _
  have hpow : (2 : Rat) ^ k = 2 * (2 ^ (k - 1) : Nat) := by
    rw [Nat.cast_pow, Nat.cast_ofNat, ← pow_succ']
    congr 1
    omega
  rw [hpow] at hm hm'
  rw [slips_iff hk hn]
  generalize 2 ^ (k - 1) = h at hh hm hm'
  -- The multiple of `2 * h` below, and the middle after it.
  obtain ⟨j, hlow, hhigh⟩ : ∃ j, 2 * j * h ≤ n ∧ n < 2 * (j + 1) * h := by
    refine ⟨n / (2 * h), ?_, ?_⟩
    · rw [mul_right_comm]
      exact Nat.mul_div_le n (2 * h)
    · rw [mul_right_comm]
      exact Nat.lt_mul_div_succ n (by omega)
  have hbetween : ∀ i, n = (2 * i + 1) * h → i = j := by
    rintro i rfl
    have h1 := Nat.lt_of_mul_lt_mul_right hhigh
    have h2 := Nat.le_of_mul_le_mul_right hlow hh
    omega
  rcases lt_trichotomy n ((2 * j + 1) * h) with hlt | heq | hgt
  · obtain ⟨hn', hy⟩ := nearestEven_below hn j hlow hlt
    refine iff_of_true ((hm'.unique hn').trans (hy.unique hm)) ?_
    rintro ⟨i, hi, -⟩
    rw [hbetween i hi] at hi
    omega
  · obtain ⟨hn', hup, hdown⟩ := nearestEven_middle hn hh j heq
    obtain rfl := hm'.unique hn'
    have hside : (∃ i, n = (2 * i + 1) * h ∧ if i % 2 = 0 then (n : Rat) < y else y < n) ↔
        if j % 2 = 0 then (n : Rat) < y else y < n :=
      ⟨fun ⟨i, hi, hs⟩ => hbetween i hi ▸ hs, fun hs => ⟨j, heq, hs⟩⟩
    rw [hside]
    rcases lt_trichotomy (n : Rat) y with hlt | rfl | hgt
    · obtain rfl := hm.unique (hup hlt)
      rcases Nat.mod_two_eq_zero_or_one j with hj | hj <;> simp [hj, hlt, hlt.le]
    · obtain rfl := hm.unique hn'
      simp
    · obtain rfl := hm.unique (hdown hgt)
      rcases Nat.mod_two_eq_zero_or_one m with hj | hj <;> simp [hj, hgt, hgt.le]
  · obtain ⟨hn', hy⟩ := nearestEven_above hn j hgt hhigh.le
    refine iff_of_true ((hm'.unique hn').trans (hy.unique hm)) ?_
    rintro ⟨i, hi, -⟩
    rw [hbetween i hi] at hi
    omega

/-! ## Formats -/

/-- `g` has the exponents of `f` and `k` more bits. -/
structure Finer (f g : Format) (k : Nat) : Prop where
  source : f.Interchange
  precision : g.precision = f.precision + k
  maxExponent : g.maxExponent = f.maxExponent

section
variable {f g : Format} {k : Nat} {q : Rat} {e : Int} {n m : Nat}

theorem Finer.leastPlace (hfg : Finer f g k) : f.leastPlace = g.leastPlace + k := by
  unfold Format.leastPlace
  rw [hfg.precision, hfg.maxExponent]
  push_cast
  omega

theorem Finer.lastPlace (hfg : Finer f g k) {a : Rat} (he : LastPlace g a e) : LastPlace f a (e + k) := by
  have hleast := hfg.leastPlace
  have hp : (g.precision : Int) = f.precision + k := by exact_mod_cast hfg.precision
  refine ⟨by have := he.least; omega, ?_, he.above.imp (fun h => by omega) fun h => ?_⟩
  · rw [add_assoc, add_comm (k : Int), ← hp]
    exact he.below
  · rwa [add_assoc e, add_comm (k : Int), ← hp]

theorem div_two_zpow_add (a : Rat) (e : Int) (k : Nat) : a / 2 ^ (e + k) = a / 2 ^ e / 2 ^ k := by
  rw [zpow_add₀ two_ne_zero, zpow_natCast, div_div]

theorem nearestEven_two_pow (hfg : Finer f g k) : NearestEven ((2 ^ g.precision : Nat) / 2 ^ k) (2 ^ f.precision) := by
  have hexact : ((2 ^ g.precision : Nat) : Rat) / 2 ^ k = (2 ^ f.precision : Nat) := by
    rw [hfg.precision, pow_add, div_eq_iff (by positivity)]
    push_cast
    ring
  rw [hexact]
  exact nearestEven_natCast _

theorem ofRat_multiple (hfg : Finer f g k) (hleast : g.leastPlace ≤ e) (hle : n ≤ 2 ^ g.precision)
    (hlead : 2 ^ g.fractionBits ≤ n ∨ e = g.leastPlace) (hm : NearestEven (n / 2 ^ k) m) {r : Rat} (hr : |r| = n * 2 ^ e) :
    ofRat f r = ofScaled f (r < 0) m (e + k) := by
  have hp := g.precision_pos
  have hpos : (0 : Rat) < 2 ^ e := by positivity
  by_cases hlt : n < 2 ^ g.precision
  · have hplace : LastPlace g |r| e := by
      refine ⟨hleast, ?_, hlead.symm.imp_right fun h => ?_⟩
      · rw [hr, add_comm, zpow_add₀ two_ne_zero, zpow_natCast]
        exact mul_lt_mul_of_pos_right (by exact_mod_cast hlt) hpos
      · have hexp : e + g.precision - 1 = (g.fractionBits : Int) + e := by
          unfold Format.fractionBits
          omega
        rw [hr, hexp, zpow_add₀ two_ne_zero, zpow_natCast]
        exact mul_le_mul_of_nonneg_right (by exact_mod_cast h) hpos.le
    refine ofRat_of_lastPlace (hfg.lastPlace hplace) ?_
    rwa [div_two_zpow_add, hr, mul_div_cancel_right₀ _ hpos.ne']
  · -- The rounding carried: the number is a power of two, of the next place.
    obtain rfl : n = 2 ^ g.precision := by omega
    have hr' : |r| = 2 ^ (e + g.precision) := by
      rw [hr, add_comm, zpow_add₀ two_ne_zero, zpow_natCast]
      push_cast
      rfl
    have hplace : LastPlace g |r| (e + 1) := by
      refine ⟨by omega, ?_, .inr ?_⟩
      · rw [hr', two_zpow_lt_iff]
        omega
      · rw [hr', two_zpow_le_iff]
        omega
    have hunits : NearestEven (|r| / 2 ^ (e + 1 + k)) (2 ^ f.fractionBits) := by
      have hexact : |r| / 2 ^ (e + 1 + k) = (2 ^ f.fractionBits : Nat) := by
        rw [hr', ← zpow_sub₀ two_ne_zero, Nat.cast_pow, Nat.cast_ofNat, ← zpow_natCast]
        congr 1
        have := f.precision_pos
        have hprecision : (g.precision : Int) = f.precision + k := by exact_mod_cast hfg.precision
        unfold Format.fractionBits
        omega
      rw [hexact]
      exact nearestEven_natCast _
    rw [ofRat_of_lastPlace (hfg.lastPlace hplace) hunits, hm.unique (nearestEven_two_pow hfg), two_pow_precision, ofScaled_two_mul]
    congr 1
    omega

/-- **A number of the format is kept.** -/
theorem ofRat_of_decode (hf : f.Interchange) {x : Nat} (h : decode f x = .finite q) : ofRat f q = .finite q := by
  have hfrac : x % 2 ^ f.fractionBits < 2 ^ f.fractionBits := Nat.mod_lt _ (Nat.two_pow_pos _)
  have hexp : x / 2 ^ f.fractionBits % 2 ^ f.exponentBits < 2 ^ f.exponentBits := Nat.mod_lt _ (Nat.two_pow_pos _)
  unfold decode at h
  generalize x.testBit (f.fractionBits + f.exponentBits) = negative at h
  generalize x / 2 ^ f.fractionBits % 2 ^ f.exponentBits = exponent at h hexp
  generalize x % 2 ^ f.fractionBits = fraction at h hfrac
  obtain ⟨hneg, hpos⟩ := ofParts_sign h
  obtain ⟨htop, hq⟩ := ofParts_finite h
  have hle : exponent * 2 ^ f.fractionBits + fraction ≤ (2 ^ f.exponentBits - 1) * 2 ^ f.fractionBits := by
    have hmul := Nat.mul_le_mul_right (2 ^ f.fractionBits) (show exponent + 1 ≤ 2 ^ f.exponentBits - 1 by omega)
    rw [Nat.succ_mul] at hmul
    omega
  have hscaled := ofParts_scaled hf negative hfrac hle
  have habs : |q| = significand f exponent fraction * 2 ^ (f.leastPlace + (max exponent 1 : Nat) - 1) := by
    have hmagnitude := abs_of_nonneg (magnitude_nonneg f exponent fraction)
    rw [hq, ← magnitude_scaled hf]
    cases negative with
    | false => exact hmagnitude
    | true => exact (abs_neg _).trans hmagnitude
  obtain ⟨hlt, hone, hlead⟩ := normalised_significand f exponent hfrac
  generalize significand f exponent fraction = s at *
  generalize max exponent 1 = place at *
  by_cases h0 : q = 0
  · rw [h0, ofRat_zero]
  have hnegative : negative = decide (q < 0) := by
    rcases lt_or_gt_of_ne h0 with hlt | hgt
    · rw [hneg hlt, decide_eq_true hlt]
    · rw [hpos hgt, decide_eq_false hgt.le.not_gt]
  have hexact : NearestEven ((s : Rat) / 2 ^ 0) s := by
    rw [pow_zero, div_one]
    exact nearestEven_natCast s
  have hmultiple := ofRat_multiple (k := 0) ⟨hf, rfl, rfl⟩ (by omega) (by rw [two_pow_precision]; exact hlt.le)
    (hlead.imp_right fun h => by omega) hexact habs
  rw [hmultiple, ← h, hscaled, hnegative, Nat.cast_zero, add_zero]

theorem overflow_rounded {M : Nat} {x : Rat} (hx : 2 ^ k ≤ x ∨ (k : Int) ≤ M - e) (hm : NearestEven (x / 2 ^ k) m)
    (h : (2 : Rat) ^ M ≤ x * 2 ^ e) : (2 : Rat) ^ M ≤ m * 2 ^ (e + k) := by
  have hpos : (0 : Rat) < 2 ^ e := by positivity
  obtain ⟨u, hu, hule⟩ : ∃ u : Nat, (M : Int) ≤ u + k + e ∧ (2 : Rat) ^ (u + k) ≤ x := by
    by_cases ht : (M : Int) - e ≤ k
    · rcases hx with hx | hx
      · exact ⟨0, by omega, by rwa [Nat.zero_add]⟩
      · refine ⟨0, by omega, ?_⟩
        have hexp : (k : Int) = M - e := by omega
        rw [Nat.zero_add, ← zpow_natCast, hexp, zpow_sub₀ two_ne_zero, zpow_natCast, div_le_iff₀ hpos]
        exact h
    · refine ⟨((M : Int) - e - k).toNat, by omega, ?_⟩
      have hexp : ((((M : Int) - e - k).toNat + k : Nat) : Int) = M - e := by omega
      rw [← zpow_natCast, hexp, zpow_sub₀ two_ne_zero, zpow_natCast, div_le_iff₀ hpos]
      exact h
  have hmle : 2 ^ u ≤ m := by
    refine hm.le_of_le ?_
    rw [le_div_iff₀ (by positivity), Nat.cast_pow, Nat.cast_ofNat, ← pow_add]
    exact hule
  calc (2 : Rat) ^ M ≤ 2 ^ (u + k + e : Int) := by
        rw [← zpow_natCast]
        exact two_zpow_le_iff.mpr hu
    _ = 2 ^ u * 2 ^ (e + k) := by
        rw [← zpow_natCast, ← zpow_add₀ two_ne_zero]
        congr 1
        omega
    _ ≤ m * 2 ^ (e + k) := mul_le_mul_of_nonneg_right (by exact_mod_cast hmle) (by positivity)

theorem Finer.lead (hfg : Finer f g k) (he : LastPlace g |q| e) : 2 ^ k ≤ |q| / 2 ^ e ∨ (k : Int) ≤ f.maxExponent - e := by
  have hp := f.precision_pos
  have hone := hfg.source.one_lt
  have hprecision : (g.precision : Int) = f.precision + k := by exact_mod_cast hfg.precision
  have hmax : (g.maxExponent : Int) = f.maxExponent := by exact_mod_cast hfg.maxExponent
  rcases he.above with heq | hle
  · right
    unfold Format.leastPlace at heq
    omega
  · left
    rw [le_div_iff₀ (by positivity), ← zpow_natCast, ← zpow_add₀ two_ne_zero]
    exact (two_zpow_le_iff.mpr (by omega)).trans hle

theorem Finer.lead_units (hfg : Finer f g k) (hlead : 2 ^ g.fractionBits ≤ n ∨ e = g.leastPlace) :
    (2 : Rat) ^ k ≤ n ∨ (k : Int) ≤ f.maxExponent - e := by
  have hp := f.precision_pos
  have hone := hfg.source.one_lt
  have hprecision := hfg.precision
  have hmax := hfg.maxExponent
  rcases hlead with hn | he
  · left
    have hk : 2 ^ k ≤ n := by
      refine (Nat.pow_le_pow_right two_pos ?_).trans hn
      unfold Format.fractionBits
      omega
    exact_mod_cast hk
  · right
    unfold Format.leastPlace at he
    omega

/-- **A multiple of the last place rounded to the narrower format.** -/
theorem roundTo_ofScaled (hfg : Finer f g k) (negative : Bool) (hleast : g.leastPlace ≤ e) (hle : n ≤ 2 ^ g.precision)
    (hlead : 2 ^ g.fractionBits ≤ n ∨ e = g.leastPlace) (hm : NearestEven (n / 2 ^ k) m) :
    roundTo f (ofScaled g negative n e) = ofScaled f negative m (e + k) := by
  have hnonneg : (0 : Rat) ≤ n * 2 ^ e := by positivity
  rw [ofScaled, hfg.maxExponent]
  split
  · next hlt =>
    by_cases h0 : n = 0
    · subst h0
      rw [Nat.cast_zero, zero_div] at hm
      simp [roundTo, hm.unique (nearestEven_natCast 0), ofScaled_zero]
    have hpos : (0 : Rat) < n * 2 ^ e := mul_pos (by exact_mod_cast Nat.pos_of_ne_zero h0) (by positivity)
    cases negative with
    | true =>
      rw [if_pos rfl, roundTo, ofRat_multiple hfg hleast hle hlead hm (by rw [abs_neg, abs_of_nonneg hnonneg]),
        decide_eq_true (neg_neg_iff_pos.mpr hpos)]
    | false =>
      rw [if_neg Bool.false_ne_true, roundTo, ofRat_multiple hfg hleast hle hlead hm (abs_of_nonneg hnonneg),
        decide_eq_false hnonneg.not_gt]
  · next hge => rw [roundTo, ofScaled, if_neg (overflow_rounded (hfg.lead_units hlead) hm (not_lt.mp hge)).not_gt]

theorem roundTo_ofRat (hfg : Finer f g k) (he : LastPlace g |q| e) (hn : NearestEven (|q| / 2 ^ e) n) (hm : NearestEven (n / 2 ^ k) m) :
    roundTo f (ofRat g q) = ofScaled f (q < 0) m (e + k) := by
  obtain ⟨hle, hlead⟩ := he.units_bounds hn
  rw [ofRat_of_lastPlace he hn]
  exact roundTo_ofScaled hfg _ he.least hle hlead hm

/-- The number lies beside a halfway point of `f` that it is rounded to in `g`. -/
def BesideHalfway (f g : Format) (k : Nat) (q : Rat) : Prop :=
  |q| < 2 ^ f.maxExponent ∧ ∃ e, LastPlace g |q| e ∧ Slips k (|q| / 2 ^ e)

theorem exists_lastPlace (f : Format) {q : Rat} (hq : q ≠ 0) : ∃ e n, LastPlace f |q| e ∧ NearestEven (|q| / 2 ^ e) n :=
  have ⟨e, he, hn, _⟩ := placeUnits_spec f hq
  ⟨e, _, he, hn⟩

theorem ofScaled_inj {negative : Bool} {m' : Nat} : ofScaled f negative m' e = ofScaled f negative m e ↔
    m' = m ∨ (2 : Rat) ^ f.maxExponent ≤ m' * 2 ^ e ∧ (2 : Rat) ^ f.maxExponent ≤ m * 2 ^ e := by
  have hpos : (2 : Rat) ^ e ≠ 0 := by positivity
  unfold ofScaled
  by_cases h' : (m' : Rat) * 2 ^ e < 2 ^ f.maxExponent
  · have hinj : (m' : Rat) * 2 ^ e = m * 2 ^ e ↔ m' = m := by rw [mul_left_inj' hpos, Nat.cast_inj]
    by_cases h : (m : Rat) * 2 ^ e < 2 ^ f.maxExponent
    · cases negative <;> simp [h', h, hinj]
    · have hne : m' ≠ m := fun heq => h (heq ▸ h')
      simp [h', h, hne]
  · by_cases h : (m : Rat) * 2 ^ e < 2 ^ f.maxExponent
    · have hne : m' ≠ m := fun heq => h' (heq ▸ h)
      simp [h', h, hne]
    · simp [h', h, not_lt.mp h', not_lt.mp h]

theorem units_of_overflow (hone : 1 < f.maxExponent) (hq : |q| < 2 ^ f.maxExponent) (he : LastPlace f |q| e) (hm : m ≤ 2 ^ f.precision)
    (h : (2 : Rat) ^ f.maxExponent ≤ m * 2 ^ e) : m = 2 ^ f.precision := by
  have hplace : (f.precision : Int) + e ≤ f.maxExponent := by
    rcases he.above with heq | hle
    · unfold Format.leastPlace at heq
      omega
    · have hlt := hle.trans_lt hq
      rw [← zpow_natCast, two_zpow_lt_iff] at hlt
      omega
  have hle : (2 : Rat) ^ f.precision * 2 ^ e ≤ m * 2 ^ e := by
    refine le_trans ?_ h
    rw [← zpow_natCast, ← zpow_natCast, ← zpow_add₀ two_ne_zero]
    exact two_zpow_le_iff.mpr hplace
  have hge : 2 ^ f.precision ≤ m := by exact_mod_cast le_of_mul_le_mul_right hle (by positivity)
  omega

theorem exists_nearestEven {x : Rat} (hx : 0 ≤ x) : ∃ m, NearestEven x m := by
  have h := nearestEven_roundDiv x.num.natAbs x.den_pos
  rw [← abs_eq_div, abs_of_nonneg hx] at h
  exact ⟨_, h⟩

/-- **Rounding twice is rounding once** but beside a halfway point. -/
theorem roundTo_ofRat_iff (hfg : Finer f g k) (hk : 2 ≤ k) (q : Rat) : roundTo f (ofRat g q) = ofRat f q ↔ ¬ BesideHalfway f g k q := by
  by_cases hq : q = 0
  · subst hq
    refine iff_of_true (by rw [ofRat_zero, roundTo, ofRat_zero]) ?_
    rintro ⟨-, e, -, j, hnear, -⟩
    rw [abs_zero, zero_div, zero_sub, abs_neg, abs_of_nonneg (by positivity)] at hnear
    have hone : 1 ≤ (2 * j + 1) * 2 ^ (k - 1) := Nat.mul_pos (by omega) (Nat.two_pow_pos _)
    have hone' : (1 : Rat) ≤ (2 * j + 1 : Nat) * 2 ^ (k - 1) := by exact_mod_cast hone
    linarith
  obtain ⟨e, n, he, hn⟩ := exists_lastPlace g hq
  obtain ⟨m', hm'⟩ := exists_nearestEven (show 0 ≤ (n : Rat) / 2 ^ k by positivity)
  obtain ⟨m, hm⟩ := exists_nearestEven (show 0 ≤ |q| / 2 ^ e / 2 ^ k by positivity)
  have hm2 : NearestEven (|q| / 2 ^ (e + k)) m := by rwa [div_two_zpow_add]
  have hplace := hfg.lastPlace he
  have hbeside : BesideHalfway f g k q ↔ |q| < 2 ^ f.maxExponent ∧ Slips k (|q| / 2 ^ e) :=
    and_congr_right fun _ => ⟨fun ⟨e', he', hs⟩ => he.unique he' ▸ hs, fun hs => ⟨e, he, hs⟩⟩
  rw [roundTo_ofRat hfg he hn hm', ofRat_of_lastPlace hplace hm2, ofScaled_inj, hbeside, not_and, ← nearestEven_twice hk hn hm hm']
  constructor
  · rintro (h | ⟨h', h⟩) hlt
    · exact h
    · -- Both reach the power of two that overflows.
      obtain ⟨hle, -⟩ := he.units_bounds hn
      have hle' : m' ≤ 2 ^ f.precision := by
        refine hm'.le_of_ge ?_
        rw [div_le_iff₀ (by positivity), Nat.cast_pow, Nat.cast_ofNat, ← pow_add, ← hfg.precision]
        exact_mod_cast hle
      have hone := hfg.source.one_lt
      rw [units_of_overflow hone hlt hplace hle' h', units_of_overflow hone hlt hplace (hplace.units_bounds hm2).1 h]
  · intro h
    refine or_iff_not_imp_left.mpr fun hne => ?_
    have hge : (2 : Rat) ^ f.maxExponent ≤ |q| := not_lt.mp fun hlt => hne (h hlt)
    have hscaled : (2 : Rat) ^ f.maxExponent ≤ |q| / 2 ^ e * 2 ^ e := by rwa [div_mul_cancel₀ _ (by positivity)]
    have hfirst : (2 : Rat) ^ f.maxExponent ≤ n * 2 ^ (e + (0 : Nat)) := by
      refine overflow_rounded ?_ (by simpa using hn) hscaled
      refine (hfg.lead he).imp (fun h => le_trans ?_ h) fun h => by omega
      rw [pow_zero]
      exact one_le_pow₀ one_le_two
    rw [Nat.cast_zero, add_zero] at hfirst
    exact ⟨overflow_rounded (hfg.lead_units (he.units_bounds hn).2) hm' hfirst, overflow_rounded (hfg.lead he) hm hscaled⟩

end

end BinaryFloat

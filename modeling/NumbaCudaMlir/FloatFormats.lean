import NumbaCudaMlir.FloatBits

/-!
# Encodings of one number

A finite number other than zero has one encoding in a format, and the encoding
in a wider format is found from the parts of the one in the narrower.
-/

namespace BinaryFloat

/-! ## One encoding -/

theorem Format.Interchange.two_pow_exponentBits {f : Format} (hf : f.Interchange) : 2 ^ f.exponentBits = 2 * f.maxExponent := by
  rw [Format.exponentBits, Nat.pow_succ, hf.power, Nat.mul_comm]

/-- A significand with its leading bit, or any significand at the lowest exponent. -/
def Normalised (p e s : Nat) : Prop := s < 2 * p ∧ 1 ≤ e ∧ (p ≤ s ∨ e = 1)

theorem normalised_le {p e s e' s' : Nat} (h : Normalised p e s) (h' : Normalised p e' s')
    (heq : s * 2 ^ e = s' * 2 ^ e') : e ≤ e' := by
  by_contra hlt
  obtain ⟨k, rfl⟩ := Nat.exists_eq_add_of_lt (Nat.lt_of_not_le hlt)
  have hs : s' = s * 2 ^ (k + 1) := by
    refine Nat.eq_of_mul_eq_mul_right (Nat.two_pow_pos e') ?_
    rw [← heq, Nat.mul_assoc, ← Nat.pow_add]
    congr 2
    omega
  have hge : 2 * s ≤ s * 2 ^ (k + 1) := by
    rw [Nat.pow_succ, Nat.mul_comm 2 s, Nat.mul_comm (2 ^ k) 2, ← Nat.mul_assoc]
    exact Nat.le_mul_of_pos_right _ (Nat.two_pow_pos k)
  obtain ⟨-, -, hlead⟩ := h
  obtain ⟨hlt', h1, -⟩ := h'
  omega

theorem normalised_inj {p e s e' s' : Nat} (h : Normalised p e s) (h' : Normalised p e' s')
    (heq : s * 2 ^ e = s' * 2 ^ e') : e = e' ∧ s = s' := by
  have he : e = e' := Nat.le_antisymm (normalised_le h h' heq) (normalised_le h' h heq.symm)
  subst he
  exact ⟨rfl, Nat.eq_of_mul_eq_mul_right (Nat.two_pow_pos e) heq⟩

def significand (f : Format) (exponent fraction : Nat) : Nat :=
  if exponent = 0 then fraction else 2 ^ f.fractionBits + fraction

theorem normalised_significand (f : Format) (exponent : Nat) {fraction : Nat} (hf : fraction < 2 ^ f.fractionBits) :
    Normalised (2 ^ f.fractionBits) (max exponent 1) (significand f exponent fraction) := by
  unfold Normalised significand
  by_cases h : exponent = 0
  · rw [if_pos h]
    exact ⟨by omega, by omega, .inr (by omega)⟩
  · rw [if_neg h]
    exact ⟨by omega, by omega, .inl (Nat.le_add_right ..)⟩

def magnitude (f : Format) (exponent fraction : Nat) : Rat :=
  significand f exponent fraction * 2 ^ max exponent 1 / 2 ^ (f.bias + f.fractionBits)

theorem magnitude_nonneg (f : Format) (exponent fraction : Nat) : 0 ≤ magnitude f exponent fraction :=
  div_nonneg (mul_nonneg (Nat.cast_nonneg _) (by positivity)) (by positivity)

theorem ofParts_finite {f : Format} {negative : Bool} {exponent fraction : Nat} {q : Rat}
    (h : ofParts f negative exponent fraction = .finite q) :
    exponent ≠ 2 ^ f.exponentBits - 1 ∧ q = if negative then -magnitude f exponent fraction else magnitude f exponent fraction := by
  unfold ofParts at h
  split at h
  · split at h <;> cases h
  · next htop => exact ⟨htop, (Value.finite.inj h).symm⟩

theorem ofParts_inj {f : Format} {negative negative' : Bool} {exponent fraction exponent' fraction' : Nat} {q : Rat} (hq : q ≠ 0)
    (hf : fraction < 2 ^ f.fractionBits) (hf' : fraction' < 2 ^ f.fractionBits)
    (h : ofParts f negative exponent fraction = .finite q) (h' : ofParts f negative' exponent' fraction' = .finite q) :
    negative = negative' ∧ exponent = exponent' ∧ fraction = fraction' := by
  obtain ⟨-, rfl⟩ := ofParts_finite h
  obtain ⟨-, heq⟩ := ofParts_finite h'
  have hm := magnitude_nonneg f exponent fraction
  have hm' := magnitude_nonneg f exponent' fraction'
  have hsign : negative = negative' ∧ magnitude f exponent fraction = magnitude f exponent' fraction' := by
    cases negative <;> cases negative' <;> simp only [Bool.false_eq_true, if_false, if_true] at heq hq
    · exact ⟨rfl, heq⟩
    · exact absurd (by linarith) hq
    · exact absurd (by linarith) hq
    · exact ⟨rfl, neg_injective heq⟩
  refine ⟨hsign.1, ?_⟩
  have hprod : significand f exponent fraction * 2 ^ max exponent 1 = significand f exponent' fraction' * 2 ^ max exponent' 1 := by
    have hdiv := (div_left_inj' (by positivity)).mp hsign.2
    exact_mod_cast hdiv
  obtain ⟨he, hs⟩ := normalised_inj (normalised_significand f exponent hf) (normalised_significand f exponent' hf') hprod
  unfold significand at hs
  split at hs <;> split at hs <;> omega

theorem decode_inj {f : Format} {m n : Nat} {q : Rat} (hq : q ≠ 0) (hm : decode f m = .finite q) (hn : decode f n = .finite q) :
    m % 2 ^ (f.fractionBits + f.exponentBits) = n % 2 ^ (f.fractionBits + f.exponentBits) := by
  obtain ⟨-, he, hf⟩ := ofParts_inj hq (Nat.mod_lt _ (Nat.two_pow_pos _)) (Nat.mod_lt _ (Nat.two_pow_pos _)) hm hn
  rw [Nat.pow_add, Nat.mod_mul, Nat.mod_mul, he, hf]

/-! ## Rounded numbers have encodings -/

theorem decode_mod (f : Format) (n : Nat) : decode f (n % 2 ^ f.bits) = decode f n := by
  have hsign : (n % 2 ^ f.bits).testBit (f.fractionBits + f.exponentBits) = n.testBit (f.fractionBits + f.exponentBits) := by
    rw [Nat.testBit_mod_two_pow, decide_eq_true (by unfold Format.bits; omega), Bool.true_and]
  have hexp : n % 2 ^ f.bits / 2 ^ f.fractionBits % 2 ^ f.exponentBits = n / 2 ^ f.fractionBits % 2 ^ f.exponentBits := by
    rw [Format.bits, Nat.add_assoc, Nat.pow_add, Nat.mod_mul_right_div_self]
    exact Nat.mod_mod_of_dvd _ (Nat.pow_dvd_pow 2 (Nat.le_succ _))
  have hfrac : n % 2 ^ f.bits % 2 ^ f.fractionBits = n % 2 ^ f.fractionBits :=
    Nat.mod_mod_of_dvd _ (Nat.pow_dvd_pow 2 (by unfold Format.bits; omega))
  rw [decode, decode, hsign, hexp, hfrac]

theorem decode_ofInt {f : Format} (hf : f.Interchange) (n : Int) : ∃ m < 2 ^ f.bits, decode f m = ofInt f n :=
  ⟨encodeInt f n, encodeInt_lt hf n, decode_encodeInt hf n⟩

theorem decode_special (f : Format) : (∀ negative, ∃ m < 2 ^ f.bits, decode f m = .infinity negative) ∧
    (1 < f.precision → ∃ m < 2 ^ f.bits, decode f m = .nan) := by
  have htop : 2 ^ f.exponentBits - 1 < 2 ^ f.exponentBits := Nat.sub_lt (Nat.two_pow_pos _) (by decide)
  constructor
  · intro negative
    refine ⟨_, encodeParts_lt f negative htop (Nat.two_pow_pos _), ?_⟩
    rw [decode_encodeParts f negative htop (Nat.two_pow_pos _), ofParts, if_pos rfl, if_pos rfl]
  · intro hp
    have hone : 1 < 2 ^ f.fractionBits := Nat.one_lt_two_pow (by unfold Format.fractionBits; omega)
    refine ⟨_, encodeParts_lt f false htop hone, ?_⟩
    rw [decode_encodeParts f false htop hone, ofParts, if_pos rfl, if_neg Nat.one_ne_zero]

theorem ofInt_overflow (f : Format) {n : Int} (h : 2 ^ f.maxExponent ≤ n) : ofInt f n = .infinity false := by
  have hpos : (0 : Int) < 2 ^ f.maxExponent := by positivity
  have habs : 2 ^ f.maxExponent ≤ n.natAbs := by zify; rw [abs_of_nonneg (by omega)]; exact h
  have hne : n.natAbs ≠ 0 := by omega
  have hexcess : excess f n.natAbs ≤ n.natAbs.log2 := by
    have := f.precision_pos
    unfold excess
    omega
  have hlog : f.maxExponent ≤ n.natAbs.log2 := (Nat.le_log2 hne).mpr habs
  have hround : 2 ^ n.natAbs.log2 ≤ roundNat f n.natAbs := by
    have hq : n.natAbs / 2 ^ excess f n.natAbs ≤ roundQuotient n.natAbs (excess f n.natAbs) := by
      unfold roundQuotient
      simp only
      split <;> omega
    have hdiv : 2 ^ (n.natAbs.log2 - excess f n.natAbs) ≤ n.natAbs / 2 ^ excess f n.natAbs := by
      rw [Nat.le_div_iff_mul_le (Nat.two_pow_pos _), ← Nat.pow_add, Nat.sub_add_cancel hexcess]
      exact Nat.log2_self_le hne
    calc 2 ^ n.natAbs.log2 = 2 ^ (n.natAbs.log2 - excess f n.natAbs) * 2 ^ excess f n.natAbs := by
          rw [← Nat.pow_add, Nat.sub_add_cancel hexcess]
      _ ≤ roundNat f n.natAbs := Nat.mul_le_mul_right _ (hdiv.trans hq)
  have hge := (Nat.pow_le_pow_right (by decide : 0 < 2) hlog).trans hround
  unfold ofInt
  simp only
  rw [if_neg (by omega), decide_eq_false (by omega)]

/-! ## Widening -/

/-- The parts in `g` of the number that has these bits in `f`. -/
def widen (f g : Format) (n : Nat) : Nat :=
  let negative := n.testBit (f.fractionBits + f.exponentBits)
  let exponent := n / 2 ^ f.fractionBits % 2 ^ f.exponentBits
  let fraction := n % 2 ^ f.fractionBits
  if exponent = 2 ^ f.exponentBits - 1 then
    encodeParts g negative (2 ^ g.exponentBits - 1) (fraction * 2 ^ (g.fractionBits - f.fractionBits))
  else if exponent = 0 then
    if fraction = 0 then encodeParts g negative 0 0
    -- a subnormal number of `f` is a normal one of `g`
    else
      encodeParts g negative (fraction.log2 + 1 + (g.bias - f.bias - f.fractionBits))
        ((fraction - 2 ^ fraction.log2) * 2 ^ (g.fractionBits - fraction.log2))
  else encodeParts g negative (exponent + (g.bias - f.bias)) (fraction * 2 ^ (g.fractionBits - f.fractionBits))

structure Wider (f g : Format) : Prop where
  source : f.Interchange
  target : g.Interchange
  fractions : f.fractionBits ≤ g.fractionBits
  exponents : f.bias + f.fractionBits ≤ g.bias

theorem shifted_fraction_lt {a b x : Nat} (hab : a ≤ b) (hx : x < 2 ^ a) : x * 2 ^ (b - a) < 2 ^ b := by
  have h := Nat.mul_lt_mul_of_pos_right hx (Nat.two_pow_pos (b - a))
  rwa [← Nat.pow_add, Nat.add_sub_cancel' hab] at h

theorem magnitude_eq (f g : Format) {e s e' s' : Nat}
    (h : s * 2 ^ (e + (g.bias + g.fractionBits)) = s' * 2 ^ (e' + (f.bias + f.fractionBits))) :
    (s : Rat) * 2 ^ e / 2 ^ (f.bias + f.fractionBits) = s' * 2 ^ e' / 2 ^ (g.bias + g.fractionBits) := by
  rw [div_eq_div_iff (by positivity) (by positivity), mul_assoc, mul_assoc, ← pow_add, ← pow_add]
  exact_mod_cast h

theorem Wider.two_bias_lt {f g : Format} (hfg : Wider f g) :
    2 * f.bias + 2 = 2 ^ f.exponentBits ∧ 2 * g.bias + 2 = 2 ^ g.exponentBits ∧ 1 ≤ f.bias := by
  have hf := hfg.source.one_lt
  have hg := hfg.target.one_lt
  rw [hfg.source.two_pow_exponentBits, hfg.target.two_pow_exponentBits]
  unfold Format.bias
  omega

theorem ofParts_widen_subnormal {f g : Format} (hfg : Wider f g) (negative : Bool) {x : Nat} (h0 : x ≠ 0) (hx : x < 2 ^ f.fractionBits) :
    (x - 2 ^ x.log2) * 2 ^ (g.fractionBits - x.log2) < 2 ^ g.fractionBits ∧
      ofParts g negative (x.log2 + 1 + (g.bias - f.bias - f.fractionBits)) ((x - 2 ^ x.log2) * 2 ^ (g.fractionBits - x.log2)) =
        ofParts f negative 0 x := by
  obtain ⟨hf, hg, hone⟩ := hfg.two_bias_lt
  have hfrac := hfg.fractions
  have hexp := hfg.exponents
  have hlog : x.log2 < f.fractionBits := (Nat.log2_lt h0).mpr hx
  have hle : 2 ^ x.log2 ≤ x := Nat.log2_self_le h0
  have hlt : x < 2 ^ (x.log2 + 1) := Nat.lt_log2_self
  refine ⟨shifted_fraction_lt (by omega) (by rw [Nat.pow_succ] at hlt; omega), ?_⟩
  have hsig : 2 ^ g.fractionBits + (x - 2 ^ x.log2) * 2 ^ (g.fractionBits - x.log2) = x * 2 ^ (g.fractionBits - x.log2) := by
    have hmul := Nat.mul_le_mul_right (2 ^ (g.fractionBits - x.log2)) hle
    rw [← Nat.pow_add, Nat.add_sub_cancel' (by omega)] at hmul
    rw [Nat.sub_mul, ← Nat.pow_add, Nat.add_sub_cancel' (by omega)]
    omega
  have hmag : (x : Rat) * 2 ^ max 0 1 / 2 ^ (f.bias + f.fractionBits) = (x * 2 ^ (g.fractionBits - x.log2) : Nat) *
      2 ^ max (x.log2 + 1 + (g.bias - f.bias - f.fractionBits)) 1 / 2 ^ (g.bias + g.fractionBits) := by
    refine magnitude_eq f g ?_
    rw [Nat.mul_assoc, ← Nat.pow_add]
    congr 2
    omega
  rw [ofParts, ofParts, if_neg (by omega), if_neg (by omega), if_neg (by omega), if_pos rfl, hsig]
  simp only [hmag]

theorem ofParts_widen_normal {f g : Format} (hfg : Wider f g) (negative : Bool) {e : Nat} (h0 : e ≠ 0)
    (htop : e < 2 ^ f.exponentBits - 1) (x : Nat) :
    ofParts g negative (e + (g.bias - f.bias)) (x * 2 ^ (g.fractionBits - f.fractionBits)) = ofParts f negative e x := by
  obtain ⟨hf, hg, hone⟩ := hfg.two_bias_lt
  have hfrac := hfg.fractions
  have hexp := hfg.exponents
  have hsig : 2 ^ g.fractionBits + x * 2 ^ (g.fractionBits - f.fractionBits) =
      (2 ^ f.fractionBits + x) * 2 ^ (g.fractionBits - f.fractionBits) := by
    rw [Nat.add_mul, ← Nat.pow_add, Nat.add_sub_cancel' hfrac]
  have hmag : ((2 ^ f.fractionBits + x : Nat) : Rat) * 2 ^ max e 1 / 2 ^ (f.bias + f.fractionBits) =
      ((2 ^ f.fractionBits + x) * 2 ^ (g.fractionBits - f.fractionBits) : Nat) * 2 ^ max (e + (g.bias - f.bias)) 1 /
        2 ^ (g.bias + g.fractionBits) := by
    refine magnitude_eq f g ?_
    rw [Nat.mul_assoc, ← Nat.pow_add]
    congr 2
    omega
  rw [ofParts, ofParts, if_neg (by omega), if_neg (by omega), if_neg (by omega), if_neg h0, hsig]
  simp only [hmag]

theorem widen_spec {f g : Format} (hfg : Wider f g) (n : Nat) : ∃ negative e x, e < 2 ^ g.exponentBits ∧ x < 2 ^ g.fractionBits ∧
    widen f g n = encodeParts g negative e x ∧ ofParts g negative e x = decode f n := by
  obtain ⟨hf, hg, hone⟩ := hfg.two_bias_lt
  have hexp := hfg.exponents
  have hx : n % 2 ^ f.fractionBits < 2 ^ f.fractionBits := Nat.mod_lt _ (Nat.two_pow_pos _)
  have he : n / 2 ^ f.fractionBits % 2 ^ f.exponentBits < 2 ^ f.exponentBits := Nat.mod_lt _ (Nat.two_pow_pos _)
  unfold widen decode
  simp only
  generalize n % 2 ^ f.fractionBits = x at hx
  generalize n / 2 ^ f.fractionBits % 2 ^ f.exponentBits = e at he
  generalize n.testBit (f.fractionBits + f.exponentBits) = negative
  have hshift := shifted_fraction_lt hfg.fractions hx
  by_cases htop : e = 2 ^ f.exponentBits - 1
  · have hzero : x * 2 ^ (g.fractionBits - f.fractionBits) = 0 ↔ x = 0 := by simp
    rw [if_pos htop]
    refine ⟨_, _, _, by omega, hshift, rfl, ?_⟩
    rw [ofParts, ofParts, if_pos rfl, if_pos htop]
    simp only [hzero]
  · rw [if_neg htop]
    by_cases h0 : e = 0
    · subst h0
      rw [if_pos rfl]
      by_cases hx0 : x = 0
      · subst hx0
        rw [if_pos rfl]
        refine ⟨_, _, _, Nat.two_pow_pos _, Nat.two_pow_pos _, rfl, ?_⟩
        rw [ofParts, ofParts, if_neg (by omega), if_neg htop]
        simp
      · obtain ⟨hlt, hparts⟩ := ofParts_widen_subnormal hfg negative hx0 hx
        have hlog : x.log2 < f.fractionBits := (Nat.log2_lt hx0).mpr hx
        rw [if_neg hx0]
        exact ⟨_, _, _, by omega, hlt, rfl, hparts⟩
    · rw [if_neg h0]
      exact ⟨_, _, _, by omega, hshift, rfl, ofParts_widen_normal hfg negative h0 (by omega) x⟩

theorem decode_widen {f g : Format} (hfg : Wider f g) (n : Nat) : decode g (widen f g n) = decode f n := by
  obtain ⟨negative, e, x, he, hx, hw, hd⟩ := widen_spec hfg n
  rw [hw, decode_encodeParts g negative he hx, hd]

theorem widen_lt {f g : Format} (hfg : Wider f g) (n : Nat) : widen f g n < 2 ^ g.bits := by
  obtain ⟨negative, e, x, he, hx, hw, -⟩ := widen_spec hfg n
  rw [hw]
  exact encodeParts_lt g negative he hx

theorem wider_binary16_binary32 : Wider binary16 binary32 :=
  ⟨interchange_binary16, interchange_binary32, by decide, by decide⟩

end BinaryFloat

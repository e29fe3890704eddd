import NumbaCudaMlir.Convert
import NumbaCudaMlir.DoubleRounding

/-!
# Casts of bfloat16

LLVM 7 has no type for bfloat16. Its numbers are stored as `i16` and computed
as `float`: a cast to them is one to `float` and a rounding of its bits.
-/

namespace NumbaCudaMlir.BfloatCast

open BinaryFloat MachineInt

inductive CastType where
  | integer (width : Nat)
  | index
  | bf16 | f16 | f32 | f64
  deriving DecidableEq

def CastType.width : CastType → Nat
  | integer width => width
  | index => 64
  | bf16 | f16 => 16
  | f32 => 32
  | f64 => 64

inductive CastOp where
  | bitcast | trunc | zext | sext
  | fpTrunc | fpExt | fpToSI | fpToUI | siToFP | uiToFP
  deriving DecidableEq

/-! ## Bits -/

/-- bf16 (stored as i16) → f32: zero-extend to i32, shift left 16, bitcast. -/
def bf16ToF32 (i16Val : BitVec 16) : BitVec 32 :=
  let i32Val := i16Val.setWidth 32
  i32Val <<< 16

/-- f32 → bf16 (i16) with round-to-nearest-even. -/
def f32ToBf16 (f32Val : BitVec 32) : BitVec 16 :=
  let lsb := f32Val >>> 16
  let lsb := lsb &&& 1#32
  let rounding := lsb + 0x7FFF#32
  let bits := f32Val + rounding
  let hi16 := bits >>> 16
  hi16.setWidth 16

/-! ## Instructions of LLVM -/

section
variable (nan : Format → Nat)

/-- Of the floats of LLVM; a `bf16` is an integer to it. -/
def llvmFormat : CastType → Option Format
  | .f16 => some binary16
  | .f32 => some binary32
  | .f64 => some binary64
  | .bf16 | .integer _ | .index => none

def isInteger : CastType → Bool
  | .integer _ | .index => true
  | _ => false

/-- To the nearest, ties to even. Which NaN a NaN becomes is left to the target. -/
def floatCast (f g : Format) (x : Nat) : Nat :=
  match decode f x with
  | .finite q => encodeRat g (x.testBit (f.fractionBits + f.exponentBits)) q
  | .infinity negative => encodeParts g negative (2 ^ g.exponentBits - 1) 0
  | .nan => nan g

/-- Without a cast that LLVM verifies there is no result. -/
def buildFPTrunc (src dst : CastType) (x : BitVec src.width) : Option (BitVec dst.width) := do
  let f ← llvmFormat src
  let g ← llvmFormat dst
  if g.bits < f.bits then some (.ofNat dst.width (floatCast nan f g x.toNat)) else none

def buildFPExt (src dst : CastType) (x : BitVec src.width) : Option (BitVec dst.width) := do
  let f ← llvmFormat src
  let g ← llvmFormat dst
  if f.bits < g.bits then some (.ofNat dst.width (floatCast nan f g x.toNat)) else none

def buildFPToInt (signed : Bool) (src dst : CastType) (x : BitVec src.width) : Option (BitVec dst.width) := do
  let f ← llvmFormat src
  if isInteger dst then fpToInt signed dst.width (decode f x.toNat) else none

def buildIntToFP (signed : Bool) (src dst : CastType) (x : BitVec src.width) : Option (BitVec dst.width) := do
  let g ← llvmFormat dst
  let n := value signed x
  if isInteger src then some (.ofNat dst.width (encodeRat g (n < 0) n)) else none

/-! ## The translation -/

def promoted : (src : CastType) → BitVec src.width → (t : CastType) × BitVec t.width
  | .bf16, x => ⟨.f32, bf16ToF32 x⟩
  | src, x => ⟨src, x⟩

def translateCastOp (op : CastOp) (src dst : CastType) (x : BitVec src.width) : Option (BitVec dst.width) :=
  match op with
  | .bitcast => if src.width = dst.width then some (x.setWidth dst.width) else none
  | .trunc => if isInteger src ∧ isInteger dst ∧ dst.width < src.width then some (x.setWidth dst.width) else none
  | .zext => if isInteger src ∧ isInteger dst ∧ src.width < dst.width then some (x.setWidth dst.width) else none
  | .sext => if isInteger src ∧ isInteger dst ∧ src.width < dst.width then some (x.signExtend dst.width) else none
  | .fpTrunc =>
    match src, dst, x with
    | .f64, .bf16, x => (buildFPTrunc nan .f64 .f32 x).map f32ToBf16
    | .f32, .bf16, x => some (f32ToBf16 x)
    -- `f32ToBf16` of anything but a `float` is no cast.
    | _, .bf16, _ => none
    | src, dst, x => buildFPTrunc nan (promoted src x).1 dst (promoted src x).2
  | .fpExt =>
    match src, dst, x with
    | .bf16, .f64, x => buildFPExt nan .f32 .f64 (bf16ToF32 x)
    | .bf16, .f32, x => some (bf16ToF32 x)
    | .bf16, _, _ => none
    | src, .bf16, x => (buildFPExt nan src .f32 x).map f32ToBf16
    | src, dst, x => buildFPExt nan src dst x
  | .fpToSI => buildFPToInt true (promoted src x).1 dst (promoted src x).2
  | .fpToUI => buildFPToInt false (promoted src x).1 dst (promoted src x).2
  | .siToFP =>
    match dst with
    | .bf16 => (buildIntToFP true src .f32 x).map f32ToBf16
    | dst => buildIntToFP true src dst x
  | .uiToFP =>
    match dst with
    | .bf16 => (buildIntToFP false src .f32 x).map f32ToBf16
    | dst => buildIntToFP false src dst x

end

end NumbaCudaMlir.BfloatCast

/-!
## Soundness of the casts to bfloat16

The bits of a `float` that is no NaN are rounded to those of the nearest
bfloat16. The carry takes some NaN to an infinity or a zero, and a `double` or
an integer that reaches a halfway point as a `float` is rounded twice.
-/

namespace NumbaCudaMlir.BfloatCast

open BinaryFloat MachineInt

/-! ## The bits -/

theorem interchange_bfloat16 : bfloat16.Interchange := ⟨by decide, by decide⟩

theorem finer_bfloat16 : Finer bfloat16 binary32 16 := ⟨interchange_bfloat16, rfl, rfl⟩

theorem roundQuotient_eq_div (n : Nat) : roundQuotient n 16 = (n + (n / 2 ^ 16 % 2 + 0x7FFF)) / 2 ^ 16 := by
  unfold roundQuotient
  simp only
  split <;> omega

theorem roundQuotient_add (t n : Nat) : roundQuotient (t * 2 ^ 17 + n) 16 = t * 2 + roundQuotient n 16 := by
  have hdiv : (t * 2 ^ 17 + n) / 2 ^ 16 = t * 2 + n / 2 ^ 16 := by omega
  have hmod : (t * 2 ^ 17 + n) % 2 ^ 16 = n % 2 ^ 16 := by omega
  unfold roundQuotient
  simp only [hdiv, hmod, Nat.mul_add_mod_self_right]
  split <;> omega

theorem toNat_f32ToBf16 (x : BitVec 32) : (f32ToBf16 x).toNat = roundQuotient x.toNat 16 % 2 ^ 16 := by
  have hx : x.toNat < 2 ^ 32 := x.isLt
  have hlsb : ((x >>> 16) &&& 1#32).toNat = x.toNat / 2 ^ 16 % 2 := by
    rw [BitVec.toNat_and, BitVec.toNat_ushiftRight, Nat.shiftRight_eq_div_pow]
    exact Nat.and_one_is_mod _
  rw [f32ToBf16, BitVec.toNat_setWidth, BitVec.toNat_ushiftRight, BitVec.toNat_add, BitVec.toNat_add, hlsb, Nat.shiftRight_eq_div_pow,
    roundQuotient_eq_div]
  have hconst : (0x7FFF#32).toNat = 0x7FFF := rfl
  rw [hconst]
  omega

theorem toNat_bf16ToF32 (y : BitVec 16) : (bf16ToF32 y).toNat = y.toNat * 2 ^ 16 := by
  have hy : y.toNat < 2 ^ 16 := y.isLt
  rw [bf16ToF32, BitVec.toNat_shiftLeft, BitVec.toNat_setWidth, Nat.shiftLeft_eq]
  omega

/-- **A bfloat16 is kept.** -/
theorem f32ToBf16_bf16ToF32 (y : BitVec 16) : f32ToBf16 (bf16ToF32 y) = y := by
  have hy : y.toNat < 2 ^ 16 := y.isLt
  have hexact := (roundQuotient_mul_eq_iff (y.toNat * 2 ^ 16) 16).mpr (Nat.dvd_mul_left ..)
  apply BitVec.eq_of_toNat_eq
  rw [toNat_f32ToBf16, toNat_bf16ToF32, Nat.eq_of_mul_eq_mul_right (Nat.two_pow_pos 16) hexact, Nat.mod_eq_of_lt hy]

theorem nearestEven_roundQuotient (n k : Nat) : NearestEven (n / 2 ^ k) (roundQuotient n k) := by
  have h := nearestEven_roundDiv n (Nat.two_pow_pos k)
  rw [Nat.cast_pow, Nat.cast_ofNat] at h
  exact h

/-! ## Magnitudes -/

def magnitudeBits (x : BitVec 32) : Nat := x.toNat % 2 ^ 31

theorem toNat_eq_sign (x : BitVec 32) : x.toNat = x.msb.toNat * 2 ^ 31 + magnitudeBits x := by
  have hx : x.toNat < 2 ^ 32 := x.isLt
  rw [BitVec.msb_eq_decide, magnitudeBits]
  by_cases h : 2 ^ (32 - 1) ≤ x.toNat
  · rw [decide_eq_true h]
    change x.toNat = 1 * 2 ^ 31 + _
    omega
  · rw [decide_eq_false h]
    change x.toNat = 0 * 2 ^ 31 + _
    omega

theorem decode_nan_iff (x : BitVec 32) : decode binary32 x.toNat = .nan ↔ 0x7F800000 < magnitudeBits x := by
  have hx : x.toNat < 2 ^ 32 := x.isLt
  have hexp : x.toNat / 2 ^ 23 % 2 ^ 8 = magnitudeBits x / 2 ^ 23 := by
    unfold magnitudeBits
    omega
  have hfrac : x.toNat % 2 ^ 23 = magnitudeBits x % 2 ^ 23 := by
    unfold magnitudeBits
    omega
  have hlt : magnitudeBits x < 2 ^ 31 := Nat.mod_lt _ (by decide)
  change ofParts binary32 _ (x.toNat / 2 ^ 23 % 2 ^ 8) (x.toNat % 2 ^ 23) = .nan ↔ _
  rw [hexp, hfrac, ofParts]
  change (if magnitudeBits x / 2 ^ 23 = 255 then _ else _) = _ ↔ _
  split
  · split
    · exact iff_of_false (by simp) (by omega)
    · exact iff_of_true rfl (by omega)
  · exact iff_of_false (by simp) (by omega)

theorem decode_bfloat16_nan_iff (y : BitVec 16) : decode bfloat16 y.toNat = .nan ↔ 0x7F80 < y.toNat % 2 ^ 15 := by
  have hy : y.toNat < 2 ^ 16 := y.isLt
  change ofParts bfloat16 _ (y.toNat / 2 ^ 7 % 2 ^ 8) (y.toNat % 2 ^ 7) = .nan ↔ _
  rw [ofParts]
  change (if y.toNat / 2 ^ 7 % 2 ^ 8 = 255 then _ else _) = _ ↔ _
  split
  · split
    · exact iff_of_false (by simp) (by omega)
    · exact iff_of_true rfl (by omega)
  · exact iff_of_false (by simp) (by omega)

theorem exists_units {x : BitVec 32} (h : magnitudeBits x ≤ 0x7F800000) : ∃ a s, magnitudeBits x = a * 2 ^ 23 + s ∧
    s ≤ 2 ^ 24 ∧ (2 ^ 23 ≤ s ∨ a = 0) := by
  by_cases hsub : magnitudeBits x < 2 ^ 23
  · exact ⟨0, magnitudeBits x, by omega, by omega, .inr rfl⟩
  · refine ⟨magnitudeBits x / 2 ^ 23 - 1, magnitudeBits x % 2 ^ 23 + 2 ^ 23, by omega, by omega, .inl (by omega)⟩

theorem f32ToBf16_value {x : BitVec 32} (h : magnitudeBits x ≤ 0x7F800000) :
    decode bfloat16 (f32ToBf16 x).toNat = roundTo bfloat16 (decode binary32 x.toNat) ∧ (f32ToBf16 x).msb = x.msb := by
  obtain ⟨a, s, hunits, hle, hlead⟩ := exists_units h
  have hsplit := toNat_eq_sign x
  have hbit : x.msb.toNat ≤ 1 := x.msb.toNat_le
  have hround : roundQuotient s 16 ≤ 2 ^ 8 ∧ (2 ^ 7 ≤ roundQuotient s 16 ∨ a = 0) ∧ a * 2 ^ 7 + roundQuotient s 16 ≤ 255 * 2 ^ 7 := by
    rw [roundQuotient_eq_div]
    omega
  have hbits : (f32ToBf16 x).toNat = x.msb.toNat * 2 ^ 15 + (a * 2 ^ 7 + roundQuotient s 16) := by
    have hpairs : x.toNat = (x.msb.toNat * 2 ^ 14 + a * 2 ^ 6) * 2 ^ 17 + s := hsplit.trans (by rw [hunits]; ring)
    rw [toNat_f32ToBf16, hpairs, roundQuotient_add, Nat.mod_eq_of_lt]
    · ring
    · omega
  have hsource : decode binary32 x.toNat = ofScaled binary32 x.msb s (binary32.leastPlace + a) := by
    rw [hsplit, hunits]
    exact decode_scaled interchange_binary32 x.msb hle hlead (show a * 2 ^ 23 + s ≤ 255 * 2 ^ 23 by omega)
  have htarget : decode bfloat16 (f32ToBf16 x).toNat = ofScaled bfloat16 x.msb (roundQuotient s 16) (bfloat16.leastPlace + a) := by
    rw [hbits]
    exact decode_scaled interchange_bfloat16 x.msb hround.1 hround.2.1 hround.2.2
  constructor
  · rw [hsource, htarget, finer_bfloat16.leastPlace, add_right_comm]
    refine (roundTo_ofScaled finer_bfloat16 x.msb (by omega) hle ?_ (nearestEven_roundQuotient s 16)).symm
    exact hlead.imp_right fun h => by omega
  · rw [BitVec.msb_eq_decide, hbits]
    cases x.msb with
    | false => exact decide_eq_false (show ¬ 2 ^ 15 ≤ 0 * 2 ^ 15 + _ by omega)
    | true => exact decide_eq_true (show 2 ^ 15 ≤ 1 * 2 ^ 15 + _ by omega)

theorem f32ToBf16_nan {x : BitVec 32} (h : 0x7F800000 < magnitudeBits x) :
    decode bfloat16 (f32ToBf16 x).toNat = .nan ↔ 0x7F808000 < magnitudeBits x ∧ magnitudeBits x < 0x7FFF8000 := by
  have hlt : magnitudeBits x < 2 ^ 31 := Nat.mod_lt _ (by decide)
  have hpairs : x.toNat = x.msb.toNat * 2 ^ 14 * 2 ^ 17 + magnitudeBits x := (toNat_eq_sign x).trans (by ring)
  rw [decode_bfloat16_nan_iff, toNat_f32ToBf16, hpairs, roundQuotient_add, Nat.mod_mod_of_dvd _ (by decide), Nat.mul_assoc, show 2 ^ 14 * 2 = 2 ^ 15 from rfl,
    Nat.mul_add_mod_self_right, roundQuotient_eq_div]
  clear hpairs
  generalize magnitudeBits x = m at *
  have hodd : m / 2 ^ 16 % 2 < 2 := Nat.mod_lt _ two_pos
  by_cases htop : m < 0x7FFF8000
  · rw [Nat.mod_eq_of_lt (by omega)]
    omega
  · have hcarry : (m + (m / 2 ^ 16 % 2 + 0x7FFF)) / 2 ^ 16 = 2 ^ 15 := by omega
    rw [hcarry]
    omega

/-! ## Conversions -/

inductive Source where
  | double | single | half
  | integer (signed : Bool) (width : Nat)
  | index (signed : Bool)

def Source.type : Source → CastType
  | double => .f64
  | single => .f32
  | half => .f16
  | integer _ width => .integer width
  | index _ => .index

def Source.op : Source → CastOp
  | double | single => .fpTrunc
  | half => .fpExt
  | integer signed _ | index signed => if signed then .siToFP else .uiToFP

def Source.value : (s : Source) → BitVec s.type.width → Value
  | double, x => decode binary64 x.toNat
  | single, x => decode binary32 x.toNat
  | half, x => decode binary16 x.toNat
  | integer signed _, x => .finite (MachineInt.value signed x)
  | index signed, x => .finite (MachineInt.value signed x)

/-- Of a float its sign bit, which a zero has too. -/
def Source.negative : (s : Source) → BitVec s.type.width → Bool
  | double, x => x.msb
  | single, x => x.msb
  | half, x => x.msb
  | integer signed _, x => decide (MachineInt.value signed x < 0)
  | index signed, x => decide (MachineInt.value signed x < 0)

/-- The bfloat16 nearest to the value, ties to even. -/
structure Rounded (y : BitVec 16) (v : Value) (negative : Bool) : Prop where
  value : decode bfloat16 y.toNat = roundTo bfloat16 v
  sign : y.msb = negative

section
variable (nan : Format → Nat)

/-- A conversion rounds every value that is no NaN. -/
def Source.Meets (s : Source) (x : BitVec s.type.width) : Prop :=
  s.value x ≠ .nan → ∃ y, translateCastOp nan s.op s.type .bf16 x = some y ∧ Rounded y (s.value x) (s.negative x)

structure Single (z : BitVec 32) (v : Value) (negative : Bool) : Prop where
  value : decode binary32 z.toNat = roundTo binary32 v
  sign : z.msb = negative

theorem decode_ofNat (n : Nat) : decode binary32 (BitVec.ofNat 32 n).toNat = decode binary32 n := by
  rw [BitVec.toNat_ofNat]
  exact decode_mod binary32 n

theorem msb_ofNat (n : Nat) : (BitVec.ofNat 32 n).msb = n.testBit 31 := by
  rw [BitVec.msb_eq_getLsbD_last, BitVec.getLsbD_ofNat]
  rfl

theorem single_encodeRat {negative : Bool} {q : Rat} (hneg : q < 0 → negative = true) (hpos : 0 < q → negative = false) :
    Single (.ofNat 32 (encodeRat binary32 negative q)) (.finite q) negative := by
  constructor
  · rw [decode_ofNat]
    exact decode_encodeRat interchange_binary32 hneg hpos
  · rw [msb_ofNat]
    exact encodeRat_testBit binary32 negative q

theorem single_floatCast (f : Format) {x : Nat} (h : decode f x ≠ .nan) :
    Single (.ofNat 32 (floatCast nan f binary32 x)) (decode f x) (x.testBit (f.fractionBits + f.exponentBits)) := by
  unfold floatCast
  cases hv : decode f x with
  | nan => exact absurd hv h
  | infinity negative =>
    have hsign : x.testBit (f.fractionBits + f.exponentBits) = negative := by
      unfold decode ofParts at hv
      split at hv
      · split at hv
        · exact Value.infinity.inj hv
        · cases hv
      · cases hv
    constructor
    · rw [decode_ofNat]
      exact decode_encodeParts binary32 negative (by decide) (by decide)
    · rw [msb_ofNat, hsign]
      exact encodeParts_testBit binary32 negative (by decide) (by decide)
  | finite q =>
    obtain ⟨hneg, hpos⟩ := ofParts_sign hv
    exact single_encodeRat hneg hpos

theorem single_value (signed : Bool) {w : Nat} (x : BitVec w) :
    Single (.ofNat 32 (encodeRat binary32 (decide (MachineInt.value signed x < 0)) (MachineInt.value signed x)))
      (.finite (MachineInt.value signed x)) (decide (MachineInt.value signed x < 0)) := by
  apply single_encodeRat
  · intro h
    exact decide_eq_true (by exact_mod_cast h)
  · intro h
    have hpos : 0 < MachineInt.value signed x := by exact_mod_cast h
    exact decide_eq_false (by omega)

/-- **Every conversion goes through a `float`.** -/
theorem Source.single_of (s : Source) (x : BitVec s.type.width) (h : s.value x ≠ .nan) :
    ∃ z, translateCastOp nan s.op s.type .bf16 x = some (f32ToBf16 z) ∧ Single z (s.value x) (s.negative x) := by
  cases s with
  | double => exact ⟨_, rfl, single_floatCast nan binary64 h⟩
  | single =>
    refine ⟨x, rfl, ?_, rfl⟩
    change decode binary32 x.toNat = roundTo binary32 (decode binary32 x.toNat)
    cases hv : decode binary32 x.toNat with
    | finite q => exact (ofRat_of_decode interchange_binary32 hv).symm
    | infinity negative => rfl
    | nan => rfl
  | half => exact ⟨_, rfl, single_floatCast nan binary16 h⟩
  | integer signed width =>
    cases signed with
    | false => exact ⟨_, rfl, single_value false x⟩
    | true => exact ⟨_, rfl, single_value true x⟩
  | index signed =>
    cases signed with
    | false => exact ⟨_, rfl, single_value false x⟩
    | true => exact ⟨_, rfl, single_value true x⟩

end

theorem rounded_iff {z : BitVec 32} {v : Value} {negative : Bool} (hz : Single z v negative) (hv : v ≠ .nan) :
    Rounded (f32ToBf16 z) v negative ↔ ∀ q, v = .finite q → ¬ BesideHalfway bfloat16 binary32 16 q := by
  have hle : magnitudeBits z ≤ 0x7F800000 := by
    by_contra hgt
    have hnan := (decode_nan_iff z).mpr (Nat.lt_of_not_le hgt)
    rw [hz.value] at hnan
    cases v with
    | finite q => exact absurd hnan (ofRat_ne_nan binary32 q)
    | infinity _ => cases hnan
    | nan => exact hv rfl
  obtain ⟨hvalue, hsign⟩ := f32ToBf16_value hle
  rw [hz.value] at hvalue
  have hrounded : Rounded (f32ToBf16 z) v negative ↔ roundTo bfloat16 (roundTo binary32 v) = roundTo bfloat16 v :=
    ⟨fun h => hvalue.symm.trans h.value, fun h => ⟨hvalue.trans h, hsign.trans hz.sign⟩⟩
  rw [hrounded]
  cases v with
  | nan => exact absurd rfl hv
  | infinity negative => exact iff_of_true rfl (fun q h => by cases h)
  | finite q =>
    have htwice := roundTo_ofRat_iff finer_bfloat16 (by decide) q
    exact ⟨fun h p hp => Value.finite.inj hp ▸ htwice.mp h, fun h => htwice.mpr (h q rfl)⟩

/-! ## Rounding as documented -/

/-- A NaN stays one, and anything else is rounded. -/
structure RoundsBits (x : BitVec 32) : Prop where
  nan : decode bfloat16 (f32ToBf16 x).toNat = .nan ↔ decode binary32 x.toNat = .nan
  rounded : decode binary32 x.toNat ≠ .nan → Rounded (f32ToBf16 x) (decode binary32 x.toNat) x.msb

theorem roundsBits_iff (x : BitVec 32) : RoundsBits x ↔
    (decode binary32 x.toNat = .nan → 0x7F808000 < magnitudeBits x ∧ magnitudeBits x < 0x7FFF8000) := by
  by_cases hnan : decode binary32 x.toNat = .nan
  · have hkept := f32ToBf16_nan ((decode_nan_iff x).mp hnan)
    constructor
    · exact fun h _ => hkept.mp (h.nan.mpr hnan)
    · exact fun h => ⟨iff_of_true (hkept.mpr (h hnan)) hnan, fun hne => absurd hnan hne⟩
  · have hle : magnitudeBits x ≤ 0x7F800000 := Nat.le_of_not_lt fun hgt => hnan ((decode_nan_iff x).mpr hgt)
    obtain ⟨hvalue, hsign⟩ := f32ToBf16_value hle
    refine iff_of_true ⟨iff_of_false ?_ hnan, fun _ => ⟨hvalue, hsign⟩⟩ fun h => absurd h hnan
    rw [hvalue]
    cases hv : decode binary32 x.toNat with
    | finite q => exact ofRat_ne_nan bfloat16 q
    | infinity _ => exact fun h => by cases h
    | nan => exact absurd hv hnan

theorem Source.meets_iff (nan : Format → Nat) (s : Source) (x : BitVec s.type.width) :
    s.Meets nan x ↔ ∀ q, s.value x = .finite q → ¬ BesideHalfway bfloat16 binary32 16 q := by
  by_cases hnan : s.value x = .nan
  · exact iff_of_true (fun h => absurd hnan h) (fun q hq => by rw [hnan] at hq; cases hq)
  obtain ⟨z, hcast, hz⟩ := s.single_of nan x hnan
  rw [← rounded_iff hz hnan]
  constructor
  · intro h
    obtain ⟨y, hy, hrounded⟩ := h hnan
    rw [hcast] at hy
    rwa [Option.some.inj hy]
  · exact fun h _ => ⟨_, hcast, h⟩

/-- **Conversions to bfloat16.** The bits of a `float` are rounded but for some NaN, a bfloat16 is kept, and a
conversion rounds its source but for those beside a halfway point. -/
theorem conversions_round_iff (nan : Format → Nat) (x : BitVec 32) (y : BitVec 16) (s : Source) (v : BitVec s.type.width) :
    (RoundsBits x ↔ (decode binary32 x.toNat = .nan → 0x7F808000 < magnitudeBits x ∧ magnitudeBits x < 0x7FFF8000)) ∧
      f32ToBf16 (bf16ToF32 y) = y ∧
      (s.Meets nan v ↔ ∀ q, s.value v = .finite q → ¬ BesideHalfway bfloat16 binary32 16 q) :=
  ⟨roundsBits_iff x, f32ToBf16_bf16ToF32 y, s.meets_iff nan v⟩

/-- The NaN of all ones turns into a zero, and `257 * 2 ^ 17 + 1` is rounded down from the middle it reaches. -/
theorem conversions_slip : ¬ RoundsBits 0x7FFFFFFF#32 ∧ ¬ Source.Meets (fun _ => 0x7FC00000) (.integer true 32) 33685505#32 := by
  constructor
  · intro h
    have hrange := (roundsBits_iff _).mp h ((decode_nan_iff _).mpr (by decide))
    exact absurd hrange.2 (by decide)
  · intro h
    refine (Source.meets_iff _ (.integer true 32) 33685505#32).mp h 33685505 rfl ?_
    have habs : |(33685505 : Rat)| = 33685505 := abs_of_pos (by norm_num)
    rw [BesideHalfway, habs]
    refine ⟨?_, 2, ⟨by decide, ?_, .inr ?_⟩, 128, ?_, ?_⟩
    · rw [show bfloat16.maxExponent = 128 from rfl]
      norm_num
    · rw [show binary32.precision = 24 from rfl]
      norm_num
    · rw [show binary32.precision = 24 from rfl]
      norm_num
    · norm_num [abs_le]
    · norm_num

end NumbaCudaMlir.BfloatCast

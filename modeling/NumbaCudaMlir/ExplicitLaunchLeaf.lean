import NumbaCudaMlir.ExplicitLaunchSlots

/-!
# One parameter of a launch

A number that is launched as it is, or as the `float` it was coerced to, is read
back by the kernel exactly when the kernel declares an integer for an integer,
and for a float a float of the width that was launched. Any other declaration
misreads one of three numbers of the same class and type.
-/

namespace NumbaCudaMlir.ExplicitLaunch

open CInt
open BinaryFloat (Format Value Representable binary16 binary32 binary64 decode encodeInt)

/-! ## Coerced numbers -/

inductive Coercion where
  | kept | single | double

section
variable (conv : Conversions)

def Coercion.apply : Coercion → PyObj → PyObj
  | kept, arg => arg
  | single, arg => .npFloat32 (conv.npFloat32 arg)
  | double, arg => .float .float (conv.pyFloat arg)

/-- The kernel reads the number that was passed. -/
def Reads (declared : NumbaType) (passed : Option Number) (slot : CudaArg) : Prop :=
  ∃ x, passed = some x ∧ Holds conv declared x slot

end

/-- The declared type fits a number and the object it is launched as. -/
def LeafFits (declared : NumbaType) (passed : Option Number) (launched : PyObj) : Prop :=
  match declared, launched with
  | .literal (.int v), _ => passed = some (.int v)
  | .scalar (.integer _ s), .long .. | .scalar (.integer _ s), .npInteger _ => s.bytes ≤ 8
  | .cpointer _, .long .. | .cpointer _, .npInteger _ => True
  | .scalar (.float s), .float .. => s = .s8
  | .scalar (.float s), .npFloat32 _ => s = .s4
  | .scalar (.float s), .npFloat16 single => s = .s2 ∧ ∀ half, single = halfToSingle half → ¬ IsSubnormal half
  | _, _ => False

theorem isNumber_cases {arg : PyObj} (h : IsNumber arg) :
    (∃ cls v, arg = .long cls v ∧ number arg = some (.int v)) ∨ (∃ n, arg = .npInteger n) ∨ (∃ cls bits, arg = .float cls bits) ∨
      (∃ bits, arg = .npFloat32 bits) ∨ ∃ half, arg = .npFloat16 (halfToSingle half) := by
  obtain ⟨hn, hhalf⟩ := h
  cases arg with
  | long cls v => cases cls with
    | int => exact .inl ⟨_, _, rfl, rfl⟩
    | sub => exact .inl ⟨_, _, rfl, rfl⟩
    | bool => cases hn
    | intEnum => cases hn
  | npInteger n => exact .inr (.inl ⟨n, rfl⟩)
  | float cls bits => exact .inr (.inr (.inl ⟨cls, bits, rfl⟩))
  | npFloat32 bits => exact .inr (.inr (.inr (.inl ⟨bits, rfl⟩)))
  | npFloat16 single =>
    obtain ⟨half, rfl⟩ := hhalf single rfl
    exact .inr (.inr (.inr (.inr ⟨half, rfl⟩)))
  | _ => cases hn

/-! ## Declarations that fit -/

theorem decode_halfToSingle (half : BitVec 16) : decode binary32 (halfToSingle half).toNat = decode binary16 half.toNat := by
  have hlt : BinaryFloat.widen binary16 binary32 half.toNat < 2 ^ 32 :=
    BinaryFloat.widen_lt BinaryFloat.wider_binary16_binary32 half.toNat
  rw [halfToSingle, BitVec.toNat_ofNat, Nat.mod_eq_of_lt hlt]
  exact BinaryFloat.decode_widen BinaryFloat.wider_binary16_binary32 half.toNat

theorem toNat_ofInt_mod (n : Int) {k : Nat} (hk : k ≤ 64) : ((BitVec.ofInt 64 n).toNat % 2 ^ k : Int) = n % 2 ^ k := by
  rw [BitVec.toNat_ofInt]
  have hd : ((2 : Int) ^ k) ∣ 2 ^ 64 := pow_dvd_pow 2 hk
  have hpos : (0 : Int) < 2 ^ 64 := by decide
  rw [show ((2 : Nat) ^ 64 : Nat) = ((2 ^ 64 : Nat) : Int) from rfl, Int.toNat_of_nonneg (Int.emod_nonneg _ (by decide))]
  exact Int.emod_emod_of_dvd n hd

section
variable {conv : Conversions} {t : NumbaType} {x : Number} {slot : CudaArg}

theorem fits_cases {arg : PyObj} {passed : Option Number} (h : LeafFits t passed arg) :
    (∃ v, t = .literal (.int v) ∧ passed = some (.int v)) ∨
    (((∃ cls v, arg = .long cls v) ∨ ∃ n, arg = .npInteger n) ∧
      ((∃ signed s, t = .scalar (.integer signed s) ∧ s.bytes ≤ 8) ∨ ∃ d, t = .cpointer d)) ∨
    (t = .scalar (.float .s8) ∧ ∃ cls bits, arg = .float cls bits) ∨ (t = .scalar (.float .s4) ∧ ∃ bits, arg = .npFloat32 bits) ∨
    (t = .scalar (.float .s2) ∧ ∃ single, arg = .npFloat16 single ∧ ∀ half, single = halfToSingle half → ¬ IsSubnormal half) := by
  unfold LeafFits at h
  split at h
  · exact .inl ⟨_, rfl, h⟩
  · exact .inr (.inl ⟨.inl ⟨_, _, rfl⟩, .inl ⟨_, _, rfl, h⟩⟩)
  · exact .inr (.inl ⟨.inr ⟨_, rfl⟩, .inl ⟨_, _, rfl, h⟩⟩)
  · exact .inr (.inl ⟨.inl ⟨_, _, rfl⟩, .inr ⟨_, rfl⟩⟩)
  · exact .inr (.inl ⟨.inr ⟨_, rfl⟩, .inr ⟨_, rfl⟩⟩)
  · exact .inr (.inr (.inl ⟨by rw [h], _, _, rfl⟩))
  · exact .inr (.inr (.inr (.inl ⟨by rw [h], _, rfl⟩)))
  · exact .inr (.inr (.inr (.inr ⟨by rw [h.1], _, rfl, h.2⟩)))
  · exact h.elim

theorem holds_int {n : Int} (hint : (∃ signed s, t = .scalar (.integer signed s) ∧ s.bytes ≤ 8) ∨ ∃ d, t = .cpointer d)
    (hw : slot = .ofInt 64 n) : Holds conv t (.int n) slot := by
  obtain ⟨signed, s, rfl, hs⟩ | ⟨d, rfl⟩ := hint
  · refine ⟨hs, ?_⟩
    rw [hw, conv.toInt_int]
    exact toNat_ofInt_mod n (by omega)
  · exact hw

theorem holds_double {bits : BitVec 64} (h : decode binary64 bits.toNat = conv.toFloat binary64 x) : Holds conv (.scalar (.float .s8)) x bits := by
  refine ⟨binary64, rfl, ?_⟩
  rw [show (2 : Nat) ^ (8 * ItemSize.s8.bytes) = 2 ^ 64 from rfl, Nat.mod_eq_of_lt bits.isLt, h]

theorem holds_single {bits : BitVec 32} (hw : slot.toNat % 2 ^ 32 = bits.toNat) (h : decode binary32 bits.toNat = conv.toFloat binary32 x) :
    Holds conv (.scalar (.float .s4)) x slot := by
  refine ⟨binary32, rfl, ?_⟩
  rw [show (2 : Nat) ^ (8 * ItemSize.s4.bytes) = 2 ^ 32 from rfl, hw, h]

theorem toNat_setWidth_mod (bits : BitVec 16) : (bits.setWidth 64).toNat % 2 ^ 16 = bits.toNat := by
  have h := bits.isLt
  rw [BitVec.toNat_setWidth]
  omega

theorem reads_of_fits {c : Coercion} {arg : PyObj} (harg : IsNumber arg)
    (hw : Wrote (c.apply conv arg) slot) (h : LeafFits t (number arg) (c.apply conv arg)) : Reads conv t (number arg) slot := by
  obtain ⟨x, hx⟩ := Option.isSome_iff_exists.mp harg.1
  rcases fits_cases h with ⟨v, rfl, hv⟩ | ⟨hint, ht⟩ | ⟨rfl, cls, bits, hbits⟩ | ⟨rfl, bits, hbits⟩ | ⟨rfl, single, hsingle, hsub⟩
  · exact ⟨_, hv, rfl⟩
  · cases c with
    | single => rcases hint with ⟨_, _, h⟩ | ⟨_, h⟩ <;> cases h
    | double => rcases hint with ⟨_, _, h⟩ | ⟨_, h⟩ <;> cases h
    | kept =>
      rcases isNumber_cases harg with ⟨cls, v, rfl, hn⟩ | ⟨n, rfl⟩ | ⟨_, _, rfl⟩ | ⟨_, rfl⟩ | ⟨_, rfl⟩
      · exact ⟨_, hn, holds_int ht hw⟩
      · exact ⟨_, rfl, holds_int ht hw⟩
      all_goals rcases hint with ⟨_, _, h⟩ | ⟨_, h⟩ <;> cases h
  · cases c with
    | single => cases hbits
    | kept =>
      rw [Coercion.apply] at hbits hw
      subst hbits
      cases hw
      exact ⟨_, rfl, holds_double (conv.toFloat_float ..).symm⟩
    | double =>
      cases hw
      exact ⟨x, hx, holds_double (conv.pyFloat_spec arg x hx)⟩
  · cases c with
    | double => cases hbits
    | kept =>
      rw [Coercion.apply] at hbits hw
      subst hbits
      exact ⟨_, rfl, holds_single hw (conv.toFloat_float ..).symm⟩
    | single => exact ⟨x, hx, holds_single hw (conv.npFloat32_spec arg x hx)⟩
  · cases c with
    | single => cases hsingle
    | double => cases hsingle
    | kept =>
      rw [Coercion.apply] at hsingle hw
      subst hsingle
      obtain ⟨half, rfl⟩ := harg.2 single rfl
      cases hw
      refine ⟨_, rfl, binary16, rfl, ?_⟩
      rw [show (2 : Nat) ^ (8 * ItemSize.s2.bytes) = 2 ^ 16 from rfl, toNat_setWidth_mod, decode_doubleToF16Bits, decode_halfToSingle,
        conv.toFloat_float, if_neg (hsub half rfl)]

end

/-! ## Numbers that are misread -/

def one64 : BitVec 64 := 0x3FF0000000000000#64

def one32 : BitVec 32 := 0x3F800000#32

/-- An argument of the same class and type whose number is one, or `u` where the type is `uint64`. -/
def probe (u : Int) : PyObj → PyObj
  | .long cls v => .long cls (if InInt64 v then 1 else u)
  | .npInteger n => .npInteger ⟨n.signed, n.size, 1, by cases n.signed <;> cases n.size <;> decide⟩
  | .float cls _ => .float cls one64
  | .npFloat32 _ => .npFloat32 one32
  | .npFloat16 _ => .npFloat16 one32
  | arg => arg

structure Stands (conv : Conversions) (x : Number) (n : Int) : Prop where
  toInt : conv.toInt x = n
  toFloat : ∀ f : Format, f.Interchange → Representable f n → conv.toFloat f x = .finite n
  overflow : ∀ f : Format, f.Interchange → 2 ^ f.maxExponent ≤ n → conv.toFloat f x = .infinity false

theorem stands_int (conv : Conversions) (n : Int) : Stands conv (.int n) n :=
  ⟨conv.toInt_int n, fun f _ => conv.toFloat_int f n, fun f _ => conv.toFloat_overflow f n⟩

theorem decode_encodeInt_of_representable {f : Format} (hf : f.Interchange) {n : Int} (hn : Representable f n) :
    decode f (encodeInt f n) = .finite n :=
  (BinaryFloat.decode_encodeInt hf n).trans ((BinaryFloat.ofInt_eq_finite_iff f n).mpr hn)

theorem stands_one (conv : Conversions) : Stands conv (.float (.finite 1)) 1 where
  toInt := by exact_mod_cast conv.toInt_finite 1
  toFloat := fun f hf hn => by
    have h := conv.toFloat_float f (encodeInt f 1)
    rw [decode_encodeInt_of_representable hf hn] at h
    exact_mod_cast h
  overflow := fun f hf h => by
    have hlt : (1 : Int) < 2 ^ f.maxExponent := one_lt_pow₀ (by decide) (by have := hf.one_lt; omega)
    omega

theorem decode_one64 : decode binary64 one64.toNat = .finite 1 := by decide +kernel

theorem decode_one32 : decode binary32 one32.toNat = .finite 1 := by decide +kernel

/-- Representable in both formats, with different low bits in each. -/
def topSingle : Int := 2 ^ 64 - 2 ^ 40

def topDouble : Int := 2 ^ 64 - 2 ^ 11

theorem probes_encoded :
    (Representable binary16 1 ∧ encodeInt binary16 1 = 0x3C00) ∧
    (Representable binary32 1 ∧ encodeInt binary32 1 = 0x3F800000) ∧
    (Representable binary64 1 ∧ encodeInt binary64 1 = 0x3FF0000000000000) ∧
    (Representable binary32 topSingle ∧ encodeInt binary32 topSingle = 0x5F7FFFFF) ∧
    (Representable binary64 topSingle ∧ encodeInt binary64 topSingle = 0x43EFFFFFE0000000) ∧
    (Representable binary64 topDouble ∧ encodeInt binary64 topDouble = 0x43EFFFFFFFFFFFFF) := by
  decide +kernel

theorem topSingle_overflows : 2 ^ binary16.maxExponent ≤ topSingle := by decide

theorem half_not_infinity : ∀ bits ∈ [0, 0xFFFF], decode binary16 bits ≠ .infinity false := by decide

theorem doubleToF16Bits_one32 : doubleToF16Bits one32 = 0x3C00#16 := by decide

section
variable {conv : Conversions} {x : Number} {n : Int} {slot : CudaArg}

/-! ### What a declaration reads -/

theorem Holds.integer_slot {signed : Bool} {s : ItemSize} (hx : Stands conv x n) (h : Holds conv (.scalar (.integer signed s)) x slot) :
    s.bytes ≤ 8 ∧ (slot.toNat % 2 ^ (8 * s.bytes) : Int) = n % 2 ^ (8 * s.bytes) := by
  obtain ⟨hs, h⟩ := h
  rw [hx.toInt] at h
  exact ⟨hs, h⟩

theorem Holds.float_slot {s : ItemSize} (hx : Stands conv x n) (hn : n ≠ 0) (h : Holds conv (.scalar (.float s)) x slot) :
    ∃ f, floatFormat s = some f ∧ f.Interchange ∧
      (Representable f n → slot.toNat % 2 ^ (8 * s.bytes - 1) = encodeInt f n % 2 ^ (8 * s.bytes - 1)) ∧
      (2 ^ f.maxExponent ≤ n → decode f (slot.toNat % 2 ^ (8 * s.bytes)) = .infinity false) := by
  obtain ⟨f, hf, h⟩ := h
  obtain ⟨hi, hbits⟩ : f.Interchange ∧ f.fractionBits + f.exponentBits = 8 * s.bytes - 1 := by
    cases s <;> cases hf
    · exact ⟨BinaryFloat.interchange_binary16, rfl⟩
    · exact ⟨BinaryFloat.interchange_binary32, rfl⟩
    · exact ⟨BinaryFloat.interchange_binary64, rfl⟩
  refine ⟨f, hf, hi, fun hr => ?_, fun ho => h.trans (hx.overflow f hi ho)⟩
  have hdec := decode_encodeInt_of_representable hi hr
  have hinj := BinaryFloat.decode_inj (by exact_mod_cast hn) (h.trans (hx.toFloat f hi hr)) hdec
  rw [hbits] at hinj
  rw [← hinj]
  exact (Nat.mod_mod_of_dvd _ (Nat.pow_dvd_pow 2 (Nat.sub_le ..))).symm

theorem Holds.pointer_slot {d : ScalarType} (hx : Stands conv x n) (h : Holds conv (.cpointer d) x slot) : slot = .ofInt 64 n := by
  cases x with
  | int m =>
    have hm : m = n := (conv.toInt_int m).symm.trans hx.toInt
    exact hm ▸ h
  | float => cases h

/-! ### Each way to launch one -/

theorem int_not_float {s : ItemSize} (hx : Stands conv x n) (hn : n = 1 ∨ n = topSingle) :
    ¬ Holds conv (.scalar (.float s)) x (.ofInt 64 n) := by
  intro h
  obtain ⟨f, hf, -, hr, ho⟩ := h.float_slot hx (by rcases hn with rfl | rfl <;> decide)
  obtain ⟨hone16, hone32, hone64, htop32, htop64, -⟩ := probes_encoded
  rcases hn with rfl | rfl <;> cases s <;> cases hf
  · exact absurd (hone16.2 ▸ hr hone16.1) (by decide)
  · exact absurd (hone32.2 ▸ hr hone32.1) (by decide)
  · exact absurd (hone64.2 ▸ hr hone64.1) (by decide)
  -- In a `float16` it overflows.
  · exact absurd (ho topSingle_overflows) (half_not_infinity _ (by decide))
  · exact absurd (htop32.2 ▸ hr htop32.1) (by decide)
  · exact absurd (htop64.2 ▸ hr htop64.1) (by decide)

/-- The bits of `n` as a `float`, whatever the rest of the slot holds. -/
def SingleSlot (n : Int) (slot : CudaArg) : Prop := slot.toNat % 2 ^ 31 = encodeInt binary32 n % 2 ^ 31

def DoubleSlot (n : Int) (slot : CudaArg) : Prop := slot.toNat % 2 ^ 63 = encodeInt binary64 n % 2 ^ 63

theorem singleSlot_bits (hw : SingleSlot n slot) (hn : n = 1 ∨ n = topSingle) :
    (n = 1 ∧ slot.toNat % 2 ^ 31 = 0x3F800000) ∨ (n = topSingle ∧ slot.toNat % 2 ^ 31 = 0x5F7FFFFF) := by
  obtain ⟨-, hone32, -, htop32, -, -⟩ := probes_encoded
  unfold SingleSlot at hw
  rcases hn with rfl | rfl
  · exact .inl ⟨rfl, by rw [hw, hone32.2]; rfl⟩
  · exact .inr ⟨rfl, by rw [hw, htop32.2]; rfl⟩

theorem doubleSlot_bits (hw : DoubleSlot n slot) (hn : n = 1 ∨ n = topSingle ∨ n = topDouble) :
    (n = 1 ∧ slot.toNat % 2 ^ 63 = 0x3FF0000000000000) ∨ (n = topSingle ∧ slot.toNat % 2 ^ 63 = 0x43EFFFFFE0000000) ∨
      (n = topDouble ∧ slot.toNat % 2 ^ 63 = 0x43EFFFFFFFFFFFFF) := by
  obtain ⟨-, -, hone64, -, htop64, htop⟩ := probes_encoded
  unfold DoubleSlot at hw
  rcases hn with rfl | rfl | rfl
  · exact .inl ⟨rfl, by rw [hw, hone64.2]; rfl⟩
  · exact .inr (.inl ⟨rfl, by rw [hw, htop64.2]; rfl⟩)
  · exact .inr (.inr ⟨rfl, by rw [hw, htop.2]; rfl⟩)

theorem single_not_integer {signed : Bool} {s : ItemSize} (hx : Stands conv x n) (hn : n = 1 ∨ n = topSingle) (hw : SingleSlot n slot) :
    ¬ Holds conv (.scalar (.integer signed s)) x slot := by
  intro h
  obtain ⟨hs, h⟩ := h.integer_slot hx
  rcases singleSlot_bits hw hn with ⟨rfl, hb⟩ | ⟨rfl, hb⟩ <;> cases s <;>
    simp only [ItemSize.bytes, topSingle] at h hs <;> omega

theorem double_not_integer {signed : Bool} {s : ItemSize} (hx : Stands conv x n) (hn : n = 1 ∨ n = topDouble) (hw : DoubleSlot n slot) :
    ¬ Holds conv (.scalar (.integer signed s)) x slot := by
  intro h
  obtain ⟨hs, h⟩ := h.integer_slot hx
  rcases doubleSlot_bits hw (hn.imp_right .inr) with ⟨rfl, hb⟩ | ⟨rfl, hb⟩ | ⟨rfl, hb⟩
  · cases s <;> simp only [ItemSize.bytes] at h hs <;> omega
  · exact absurd hn (by decide)
  · cases s <;> simp only [ItemSize.bytes, topDouble] at h hs <;> omega

theorem single_not_pointer {d : ScalarType} (hx : Stands conv x n) (hn : n = 1 ∨ n = topSingle) (hw : SingleSlot n slot) :
    ¬ Holds conv (.cpointer d) x slot := by
  intro h
  rcases singleSlot_bits hw hn with ⟨rfl, hb⟩ | ⟨rfl, hb⟩ <;> rw [h.pointer_slot hx] at hb <;> exact absurd hb (by decide)

theorem double_not_pointer {d : ScalarType} (hx : Stands conv x n) (hn : n = 1 ∨ n = topSingle) (hw : DoubleSlot n slot) :
    ¬ Holds conv (.cpointer d) x slot := by
  intro h
  rcases doubleSlot_bits hw (hn.imp_right .inl) with ⟨rfl, hb⟩ | ⟨rfl, hb⟩ | ⟨rfl, hb⟩ <;> rw [h.pointer_slot hx] at hb <;>
    exact absurd hb (by decide)

theorem single_only_float32 {s : ItemSize} (hx : Stands conv x n) (hn : n = 1 ∨ n = topSingle) (hw : SingleSlot n slot)
    (h : Holds conv (.scalar (.float s)) x slot) : s = .s4 := by
  obtain ⟨f, hf, -, hr, ho⟩ := h.float_slot hx (by rcases hn with rfl | rfl <;> decide)
  obtain ⟨hone16, -, hone64, -, htop64, -⟩ := probes_encoded
  rcases singleSlot_bits hw hn with ⟨rfl, hb⟩ | ⟨rfl, hb⟩ <;> cases s <;> cases hf
  · have h16 := hr hone16.1
    rw [hone16.2] at h16
    simp only [ItemSize.bytes] at h16
    omega
  · rfl
  · have h64 := hr hone64.1
    rw [hone64.2] at h64
    simp only [ItemSize.bytes] at h64
    omega
  · have hlow : slot.toNat % 2 ^ (8 * ItemSize.s2.bytes) = 0xFFFF := by
      simp only [ItemSize.bytes]
      omega
    rw [hlow] at ho
    exact absurd (ho topSingle_overflows) (half_not_infinity _ (by decide))
  · rfl
  · have h64 := hr htop64.1
    rw [htop64.2] at h64
    simp only [ItemSize.bytes] at h64
    omega

theorem double_only_float64 {s : ItemSize} (hx : Stands conv x n) (hn : n = 1 ∨ n = topSingle) (hw : DoubleSlot n slot)
    (h : Holds conv (.scalar (.float s)) x slot) : s = .s8 := by
  obtain ⟨f, hf, -, hr, ho⟩ := h.float_slot hx (by rcases hn with rfl | rfl <;> decide)
  obtain ⟨hone16, hone32, -, htop32, -, -⟩ := probes_encoded
  rcases doubleSlot_bits hw (hn.imp_right .inl) with ⟨rfl, hb⟩ | ⟨rfl, hb⟩ | ⟨rfl, hb⟩
  · cases s <;> cases hf
    · have h16 := hr hone16.1
      rw [hone16.2] at h16
      simp only [ItemSize.bytes] at h16
      omega
    · have h32 := hr hone32.1
      rw [hone32.2] at h32
      simp only [ItemSize.bytes] at h32
      omega
    · rfl
  · cases s <;> cases hf
    · have hlow : slot.toNat % 2 ^ (8 * ItemSize.s2.bytes) = 0 := by
        simp only [ItemSize.bytes]
        omega
      rw [hlow] at ho
      exact absurd (ho topSingle_overflows) (half_not_infinity _ (by decide))
    · have h32 := hr htop32.1
      rw [htop32.2] at h32
      simp only [ItemSize.bytes] at h32
      omega
    · rfl
  · exact absurd hn (by decide)

theorem half_only_float16 {t : NumbaType} (hx : Stands conv x 1) (h : Holds conv t x 0x3C00#64) :
    (∃ v, t = .literal (.int v)) ∨ t = .scalar (.float .s2) := by
  unfold Holds at h
  split at h
  · next _ s =>
    obtain ⟨-, h⟩ := @Holds.integer_slot conv _ 1 _ true s hx h
    cases s <;> exact absurd h (by decide)
  · next _ s =>
    obtain ⟨f, hf, -, hr, -⟩ := Holds.float_slot (s := s) hx (by decide) h
    obtain ⟨-, hone32, hone64, -, -, -⟩ := probes_encoded
    cases s <;> cases hf
    · exact .inr rfl
    · exact absurd (hone32.2 ▸ hr hone32.1) (by decide)
    · exact absurd (hone64.2 ▸ hr hone64.1) (by decide)
  · exact absurd (Holds.pointer_slot (d := .boolean) hx h) (by decide)
  · exact .inl ⟨_, rfl⟩
  · exact h.elim

/-! ### What can be declared for each -/

theorem holds_cases {t : NumbaType} (h : Holds conv t x slot) : (∃ v, t = .literal (.int v) ∧ x = .int v) ∨
    (∃ signed s, t = .scalar (.integer signed s)) ∨ (∃ s, t = .scalar (.float s)) ∨ ∃ d, t = .cpointer d := by
  unfold Holds at h
  split at h
  · exact .inr (.inl ⟨_, _, rfl⟩)
  · exact .inr (.inr (.inl ⟨_, rfl⟩))
  · exact .inr (.inr (.inr ⟨_, rfl⟩))
  · exact .inl ⟨_, rfl, by rw [h]⟩
  · exact h.elim

theorem int_fits {t : NumbaType} {arg : PyObj} (harg : (∃ cls v, arg = .long cls v) ∨ ∃ m, arg = .npInteger m) (hx : Stands conv x n)
    (hn : n = 1 ∨ n = topSingle) (h : Holds conv t x (.ofInt 64 n)) (hl : ∀ v, t ≠ .literal (.int v)) (passed : Option Number) :
    LeafFits t passed arg := by
  rcases holds_cases h with ⟨v, rfl, -⟩ | ⟨signed, s, rfl⟩ | ⟨s, rfl⟩ | ⟨d, rfl⟩
  · exact absurd rfl (hl v)
  · rcases harg with ⟨cls, v, rfl⟩ | ⟨m, rfl⟩ <;> exact (h.integer_slot hx).1
  · exact absurd h (int_not_float hx hn)
  · rcases harg with ⟨cls, v, rfl⟩ | ⟨m, rfl⟩ <;> trivial

theorem single_fits {t : NumbaType} (hx : Stands conv x n) (hn : n = 1 ∨ n = topSingle) (hw : SingleSlot n slot) (h : Holds conv t x slot)
    (hl : ∀ v, t ≠ .literal (.int v)) (passed : Option Number) (bits : BitVec 32) : LeafFits t passed (.npFloat32 bits) := by
  rcases holds_cases h with ⟨v, rfl, -⟩ | ⟨signed, s, rfl⟩ | ⟨s, rfl⟩ | ⟨d, rfl⟩
  · exact absurd rfl (hl v)
  · exact absurd h (single_not_integer hx hn hw)
  · exact single_only_float32 hx hn hw h
  · exact absurd h (single_not_pointer hx hn hw)

theorem double_fits {t : NumbaType} (hx : Stands conv x n) (hn : n = 1 ∨ n = topSingle) (hw : DoubleSlot n slot) (h : Holds conv t x slot)
    (hi : ∀ signed s, t ≠ .scalar (.integer signed s)) (hl : ∀ v, t ≠ .literal (.int v)) (passed : Option Number) (cls : FloatClass)
    (bits : BitVec 64) : LeafFits t passed (.float cls bits) := by
  rcases holds_cases h with ⟨v, rfl, -⟩ | ⟨signed, s, rfl⟩ | ⟨s, rfl⟩ | ⟨d, rfl⟩
  · exact absurd rfl (hl v)
  · exact absurd rfl (hi signed s)
  · exact double_only_float64 hx hn hw h
  · exact absurd h (double_not_pointer hx hn hw)

end

/-! ### Probes -/

section
variable {conv : Conversions} {slot : CudaArg}

theorem number_long {cls : LongClass} {v : Int} (h : (number (.long cls v)).isSome = true) (w : Int) :
    number (.long cls w) = some (.int w) := by
  cases cls with
  | int => rfl
  | sub => rfl
  | bool => cases h
  | intEnum => cases h

theorem probed_int (v u : Int) : (if InInt64 v then 1 else u) = 1 ∨ (if InInt64 v then 1 else u) = u := by
  by_cases hv : InInt64 v
  · exact .inl (if_pos hv)
  · exact .inr (if_neg hv)

theorem number_probe (conv : Conversions) {arg : PyObj} (harg : IsNumber arg) (u : Int) :
    ∃ x n, number (probe u arg) = some x ∧ Stands conv x n ∧ (n = 1 ∨ n = u) := by
  rcases isNumber_cases harg with ⟨cls, v, rfl, hn⟩ | ⟨n, rfl⟩ | ⟨_, _, rfl⟩ | ⟨_, rfl⟩ | ⟨_, rfl⟩
  · exact ⟨_, _, number_long harg.1 _, stands_int conv _, probed_int v u⟩
  · exact ⟨_, _, rfl, stands_int conv 1, .inl rfl⟩
  · exact ⟨_, _, rfl, decode_one64 ▸ stands_one conv, .inl rfl⟩
  · exact ⟨_, _, rfl, decode_one32 ▸ stands_one conv, .inl rfl⟩
  · exact ⟨_, _, rfl, decode_one32 ▸ stands_one conv, .inl rfl⟩

theorem single_slot {arg : PyObj} {x : Number} {n : Int} (hx : number arg = some x) (hs : Stands conv x n) (hn : n = 1 ∨ n = topSingle)
    (hw : Wrote (.npFloat32 (conv.npFloat32 arg)) slot) : SingleSlot n slot := by
  obtain ⟨-, hone32, -, htop32, -, -⟩ := probes_encoded
  have hr : Representable binary32 n := by rcases hn with rfl | rfl <;> simp only [hone32, htop32]
  have hne : (n : Rat) ≠ 0 := by rcases hn with rfl | rfl <;> decide
  have hdec := (conv.npFloat32_spec arg x hx).trans (hs.toFloat binary32 BinaryFloat.interchange_binary32 hr)
  rw [← show slot.toNat % 2 ^ 32 = _ from hw] at hdec
  have hinj := BinaryFloat.decode_inj hne hdec (decode_encodeInt_of_representable BinaryFloat.interchange_binary32 hr)
  rw [SingleSlot, ← Nat.mod_mod_of_dvd slot.toNat (show 2 ^ 31 ∣ 2 ^ 32 by decide)]
  exact hinj

theorem double_slot {arg : PyObj} {x : Number} {n : Int} (hx : number arg = some x) (hs : Stands conv x n)
    (hn : n = 1 ∨ n = topSingle ∨ n = topDouble) : DoubleSlot n (conv.pyFloat arg) := by
  obtain ⟨-, -, hone64, -, htop64, htop⟩ := probes_encoded
  have hr : Representable binary64 n := by rcases hn with rfl | rfl | rfl <;> simp only [hone64, htop64, htop]
  have hne : (n : Rat) ≠ 0 := by rcases hn with rfl | rfl | rfl <;> decide
  exact BinaryFloat.decode_inj hne ((conv.pyFloat_spec arg x hx).trans (hs.toFloat binary64 BinaryFloat.interchange_binary64 hr))
    (decode_encodeInt_of_representable BinaryFloat.interchange_binary64 hr)

theorem subnormal_ne_zero {half : BitVec 16} (h : IsSubnormal half) : decode binary16 half.toNat ≠ .finite 0 := by
  intro hzero
  obtain ⟨he, hx⟩ := h
  have hparts : BinaryFloat.ofParts binary16 (half.toNat.testBit 15) (half.toNat / 2 ^ 10 % 2 ^ 5) (half.toNat % 2 ^ 10) = .finite 0 := hzero
  rw [he] at hparts
  obtain ⟨-, hq⟩ := BinaryFloat.ofParts_finite hparts
  have hmag : BinaryFloat.magnitude binary16 0 (half.toNat % 2 ^ 10) ≠ 0 := by
    unfold BinaryFloat.magnitude BinaryFloat.significand
    have hne : ((half.toNat % 2 ^ 10 : Nat) : Rat) ≠ 0 := Nat.cast_ne_zero.mpr hx
    rw [if_pos rfl]
    exact div_ne_zero (mul_ne_zero hne (by positivity)) (by positivity)
  split at hq
  · exact hmag (neg_eq_zero.mp hq.symm)
  · exact hmag hq.symm

theorem fits_of_reads {t : NumbaType} {c : Coercion} {arg : PyObj} {slot' slot'' : CudaArg} (harg : IsNumber arg)
    (hw : Wrote (c.apply conv arg) slot) (hw' : Wrote (c.apply conv (probe topSingle arg)) slot')
    (hw'' : Wrote (c.apply conv (probe topDouble arg)) slot'') (h : Reads conv t (number arg) slot)
    (h' : Reads conv t (number (probe topSingle arg)) slot') (h'' : Reads conv t (number (probe topDouble arg)) slot'') :
    LeafFits t (number arg) (c.apply conv arg) := by
  by_cases hl : ∃ v, t = .literal (.int v)
  · obtain ⟨v, rfl⟩ := hl
    obtain ⟨x, hx, h⟩ := h
    cases x with
    | int n => exact hx.trans (by rw [show v = n from h])
    | float => exact h.elim
  have hl : ∀ v, t ≠ .literal (.int v) := fun v he => hl ⟨v, he⟩
  obtain ⟨x, hx, h⟩ := h
  obtain ⟨x', n', hx', hs', hn'⟩ := number_probe conv harg topSingle
  obtain ⟨x'', n'', hx'', hs'', hn''⟩ := number_probe conv harg topDouble
  obtain ⟨_, he', h'⟩ := h'
  obtain ⟨_, he'', h''⟩ := h''
  cases hx'.symm.trans he'
  cases hx''.symm.trans he''
  cases c with
  | single => exact single_fits hs' hn' (single_slot hx' hs' hn' hw') h' hl _ _
  | double =>
    cases hw'
    cases hw''
    refine double_fits hs' hn' (double_slot hx' hs' (hn'.imp_right .inl)) h' (fun signed s ht => ?_) hl _ _ _
    exact double_not_integer hs'' hn'' (double_slot hx'' hs'' (hn''.imp_right .inr)) (ht ▸ h'')
  | kept =>
    rcases isNumber_cases harg with ⟨cls, v, rfl, hn⟩ | ⟨m, rfl⟩ | ⟨cls, bits, rfl⟩ | ⟨bits, rfl⟩ | ⟨half, rfl⟩
    · cases hw'
      cases (number_long harg.1 _).symm.trans hx'
      exact int_fits (.inl ⟨cls, v, rfl⟩) (stands_int conv _) (probed_int v topSingle) h' hl _
    · cases hw'
      cases hx'
      exact int_fits (.inr ⟨m, rfl⟩) (stands_int conv 1) (.inl rfl) h' hl _
    · cases hw'
      cases hx'
      have hs : Stands conv (.float (decode binary64 one64.toNat)) 1 := decode_one64 ▸ stands_one conv
      have hd : DoubleSlot 1 one64 := by rw [DoubleSlot, probes_encoded.2.2.1.2]; decide
      exact double_fits hs (.inl rfl) hd h' (fun signed s ht => double_not_integer hs (.inl rfl) hd (ht ▸ h')) hl _ _ _
    · cases hx'
      have hs : Stands conv (.float (decode binary32 one32.toNat)) 1 := decode_one32 ▸ stands_one conv
      have hd : SingleSlot 1 slot' := by
        have hlow : slot'.toNat % 2 ^ 32 = one32.toNat := hw'
        rw [SingleSlot, ← Nat.mod_mod_of_dvd slot'.toNat (show 2 ^ 31 ∣ 2 ^ 32 by decide), hlow, probes_encoded.2.1.2]
        decide
      exact single_fits hs (.inl rfl) hd h' hl _ _
    · cases hx'
      cases hw'
      cases hw
      have hs : Stands conv (.float (decode binary32 one32.toNat)) 1 := decode_one32 ▸ stands_one conv
      have hslot : (doubleToF16Bits one32).setWidth 64 = 0x3C00#64 := by rw [doubleToF16Bits_one32]; rfl
      rcases half_only_float16 hs (hslot ▸ h') with ⟨v, rfl⟩ | rfl
      · exact absurd rfl (hl v)
      · refine ⟨rfl, fun half' heq hsub => ?_⟩
        cases hx
        obtain ⟨f, hf, h⟩ := h
        cases hf
        rw [show (2 : Nat) ^ (8 * ItemSize.s2.bytes) = 2 ^ 16 from rfl, toNat_setWidth_mod, heq, decode_doubleToF16Bits, if_pos hsub,
          decode_halfToSingle, conv.toFloat_float] at h
        exact subnormal_ne_zero hsub h.symm

end

end NumbaCudaMlir.ExplicitLaunch

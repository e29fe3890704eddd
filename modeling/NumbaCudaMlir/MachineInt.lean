import Mathlib.Tactic.Linarith

/-!
# Integers of a machine

An integer type has a sign and one of four widths. Its values are bit vectors,
read by their own sign and extended by it.
-/

namespace MachineInt

inductive Width where
  | w8 | w16 | w32 | w64
  deriving DecidableEq, Repr

def Width.bits : Width → Nat
  | w8 => 8
  | w16 => 16
  | w32 => 32
  | w64 => 64

theorem Width.bits_pos (w : Width) : 0 < w.bits := by cases w <;> decide

theorem Width.one_lt_bits (w : Width) : 1 < w.bits := by cases w <;> decide

theorem Width.bits_le (w : Width) : w.bits ≤ 64 := by cases w <;> decide

structure IntType where
  signed : Bool
  width : Width
  deriving DecidableEq, Repr

abbrev IntType.bits (t : IntType) : Nat := t.width.bits

def value (signed : Bool) {w : Nat} (x : BitVec w) : Int := if signed then x.toInt else x.toNat

@[simp] theorem value_signed {w : Nat} (x : BitVec w) : value true x = x.toInt := rfl

@[simp] theorem value_unsigned {w : Nat} (x : BitVec w) : value false x = x.toNat := rfl

/-! ## Ranges -/

def InRange (signed : Bool) (w : Nat) (n : Int) : Prop :=
  if signed then -2 ^ (w - 1) ≤ n ∧ n < 2 ^ (w - 1) else 0 ≤ n ∧ n < 2 ^ w

instance (signed : Bool) (w : Nat) (n : Int) : Decidable (InRange signed w n) :=
  inferInstanceAs (Decidable (if signed then _ else _))

theorem inRange_signed {w : Nat} {n : Int} : InRange true w n ↔ -2 ^ (w - 1) ≤ n ∧ n < 2 ^ (w - 1) := Iff.rfl

theorem inRange_unsigned {w : Nat} {n : Int} : InRange false w n ↔ 0 ≤ n ∧ n < 2 ^ w := Iff.rfl

theorem two_pow_pred {w : Nat} (hw : 0 < w) : (2 : Int) ^ w = 2 * 2 ^ (w - 1) := by
  obtain ⟨k, rfl⟩ := Nat.exists_eq_succ_of_ne_zero hw.ne'
  rw [Nat.succ_sub_one, pow_succ, Int.mul_comm]

theorem two_pow_dvd_iff {v w : Nat} : (2 : Int) ^ v ∣ 2 ^ w ↔ v ≤ w := by
  rw [← Nat.pow_dvd_pow_iff_le_right (show 1 < 2 by decide)]
  exact_mod_cast Iff.rfl

theorem value_ofInt_iff {w : Nat} (hw : 0 < w) (signed : Bool) (n : Int) :
    value signed (BitVec.ofInt w n) = n ↔ InRange signed w n := by
  have h2 := two_pow_pred hw
  have hpos : (0 : Int) < 2 ^ (w - 1) := by positivity
  cases signed with
  | true =>
    have hl := Int.le_bmod (x := n) (m := 2 ^ w) (by positivity)
    have hu := Int.bmod_lt (x := n) (m := 2 ^ w) (by positivity)
    push_cast at hl hu
    rw [value_signed, BitVec.toInt_ofInt, inRange_signed]
    constructor
    · intro h
      omega
    · intro h
      exact Int.bmod_eq_of_le_mul_two (by push_cast; omega) (by push_cast; omega)
  | false =>
    have hl := Int.emod_nonneg n (show (2 : Int) ^ w ≠ 0 by positivity)
    have hu := Int.emod_lt_of_pos n (show (0 : Int) < 2 ^ w by positivity)
    rw [value_unsigned, BitVec.toNat_ofInt, inRange_unsigned]
    push_cast
    rw [Int.toNat_of_nonneg hl]
    constructor
    · intro h
      omega
    · intro h
      exact Int.emod_eq_of_lt h.1 h.2

@[simp] theorem ofInt_value (signed : Bool) {w : Nat} (x : BitVec w) : BitVec.ofInt w (value signed x) = x := by
  cases signed with
  | true => exact BitVec.ofInt_toInt
  | false => rw [value_unsigned, BitVec.ofInt_natCast, BitVec.ofNat_toNat, BitVec.setWidth_eq]

theorem value_inRange {w : Nat} (hw : 0 < w) (signed : Bool) (x : BitVec w) : InRange signed w (value signed x) := by
  rw [← value_ofInt_iff hw, ofInt_value]

theorem value_eq_iff {w : Nat} (hw : 0 < w) {signed : Bool} {x : BitVec w} {n : Int} :
    value signed x = n ↔ x = BitVec.ofInt w n ∧ InRange signed w n := by
  constructor
  · rintro rfl
    exact ⟨(ofInt_value signed x).symm, value_inRange hw signed x⟩
  · rintro ⟨rfl, hn⟩
    exact (value_ofInt_iff hw signed n).mpr hn

theorem ofInt_sub_two_pow (w : Nat) (n : Int) : BitVec.ofInt w (n - 2 ^ w) = BitVec.ofInt w n := by
  apply BitVec.eq_of_toNat_eq
  rw [BitVec.toNat_ofInt, BitVec.toNat_ofInt]
  push_cast
  rw [Int.sub_emod_right]

theorem ofInt_eq_ofInt_iff {w : Nat} {a b : Int} : BitVec.ofInt w a = BitVec.ofInt w b ↔ (2 : Int) ^ w ∣ a - b := by
  have hpos : (0 : Int) < 2 ^ w := by positivity
  rw [← BitVec.toNat_inj, BitVec.toNat_ofInt, BitVec.toNat_ofInt, Int.dvd_iff_emod_eq_zero, ← Int.emod_eq_emod_iff_emod_sub_eq_zero]
  have ha := Int.emod_nonneg a hpos.ne'
  have hb := Int.emod_nonneg b hpos.ne'
  push_cast
  omega

theorem toInt_cases {w : Nat} (x : BitVec w) : 0 ≤ x.toInt ∧ x.toInt = x.toNat ∨ x.toInt < 0 ∧ x.toInt = x.toNat - 2 ^ w := by
  have hlt := x.isLt
  have h2 : ((2 ^ w : Nat) : Int) = 2 ^ w := by push_cast; rfl
  rw [BitVec.toInt_eq_toNat_cond]
  split <;> omega

theorem value_cases (s s' : Bool) {w : Nat} (x : BitVec w) : value s x = value s' x ∨ (value s x < 0 ↔ 0 ≤ value s' x) := by
  have := toInt_cases x
  by_cases hs : s = s'
  · exact .inl (hs ▸ rfl)
  · cases s <;> cases s' <;> simp only [value_signed, value_unsigned, not_true_eq_false] at hs ⊢ <;> omega

/-! ## Changes of width -/

/-- The low `v` bits of `x`, continued by its sign or by zeros. -/
def extend (signed : Bool) {w : Nat} (v : Nat) (x : BitVec w) : BitVec v :=
  if signed then x.signExtend v else x.setWidth v

theorem extend_eq_ofInt (signed : Bool) {w : Nat} (v : Nat) (x : BitVec w) :
    extend signed v x = BitVec.ofInt v (value signed x) := by
  cases signed with
  | true => rfl
  | false =>
    rw [value_unsigned, BitVec.ofInt_natCast, BitVec.ofNat_toNat]
    rfl

end MachineInt

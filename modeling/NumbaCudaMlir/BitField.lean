import Mathlib.Data.Nat.Bitwise

/-!
# Fields of bits

A field is a range of bits of a word. Inserting a value clears the range and
puts the value's bits in from the offset on: it reads back modulo the width,
and its higher bits fall into the fields above.
-/

namespace BitField

variable {S : Nat}

def mask (S w : Nat) : BitVec S := BitVec.ofNat S (2 ^ w - 1)

def extract (off w : Nat) (x : BitVec S) : BitVec S := (x >>> off) &&& mask S w

def insert (off w : Nat) (x v : BitVec S) : BitVec S := (x &&& ~~~(mask S w <<< off)) ||| (v <<< off)

theorem getLsbD_mask (w i : Nat) : (mask S w).getLsbD i = (decide (i < S) && decide (i < w)) := by
  rw [mask, BitVec.getLsbD_ofNat, Nat.testBit_two_pow_sub_one]

theorem mask_eq_sub_one {w : Nat} (h : w < S) : ((1#S) <<< w) - 1#S = mask S w := by
  have hlt : 2 ^ w < 2 ^ S := Nat.pow_lt_pow_right (by decide) h
  have hone : (1 : Nat) < 2 ^ S := Nat.one_lt_two_pow (by omega)
  have hpos : 0 < 2 ^ w := Nat.two_pow_pos w
  apply BitVec.eq_of_toNat_eq
  rw [BitVec.toNat_sub, BitVec.toNat_shiftLeft, BitVec.toNat_ofNat, mask, BitVec.toNat_ofNat, Nat.mod_eq_of_lt hone,
    Nat.shiftLeft_eq, Nat.one_mul, Nat.mod_eq_of_lt hlt, Nat.mod_eq_of_lt (show 2 ^ w - 1 < 2 ^ S by omega)]
  rw [show 2 ^ S - 1 + 2 ^ w = 2 ^ S + (2 ^ w - 1) by omega, Nat.add_mod_left, Nat.mod_eq_of_lt (by omega)]

theorem getLsbD_extract (off w i : Nat) (x : BitVec S) :
    (extract off w x).getLsbD i = (decide (i < w) && x.getLsbD (off + i)) := by
  rw [extract, BitVec.getLsbD_and, BitVec.getLsbD_ushiftRight, getLsbD_mask]
  by_cases hi : i < S
  · simp [hi, Bool.and_comm]
  · have hx : x.getLsbD (off + i) = false := BitVec.getLsbD_of_ge x _ (by omega)
    simp [hi, hx]

theorem getLsbD_insert (off w i : Nat) (x v : BitVec S) (hi : i < S) :
    (insert off w x v).getLsbD i =
      if i < off then x.getLsbD i
      else if i < off + w then v.getLsbD (i - off)
      else x.getLsbD i || v.getLsbD (i - off) := by
  rw [insert, BitVec.getLsbD_or, BitVec.getLsbD_and, BitVec.getLsbD_not, BitVec.getLsbD_shiftLeft, BitVec.getLsbD_shiftLeft,
    getLsbD_mask]
  by_cases hlo : i < off
  · simp [hi, hlo]
  · by_cases hin : i < off + w
    · simp [hi, hlo, hin, show i - off < S by omega, show i - off < w by omega]
    · simp [hi, hlo, hin, show ¬ i - off < w by omega]

theorem extract_insert_self {off w : Nat} (h : off + w ≤ S) (x v : BitVec S) :
    extract off w (insert off w x v) = v &&& mask S w := by
  apply BitVec.eq_of_getLsbD_eq
  intro i hi
  rw [getLsbD_extract, BitVec.getLsbD_and, getLsbD_mask]
  by_cases hw : i < w
  · rw [getLsbD_insert _ _ _ _ _ (by omega), if_neg (by omega), if_pos (by omega), Nat.add_sub_cancel_left]
    simp [hi, hw]
  · simp [hw]

theorem toNat_and_mask (w : Nat) (x : BitVec S) : (x &&& mask S w).toNat = x.toNat % 2 ^ w := by
  apply Nat.eq_of_testBit_eq
  intro i
  rw [Nat.testBit_mod_two_pow, BitVec.testBit_toNat, BitVec.testBit_toNat, BitVec.getLsbD_and, getLsbD_mask]
  by_cases hi : i < S
  · simp [hi, Bool.and_comm]
  · simp [hi, BitVec.getLsbD_of_ge x i (by omega)]

theorem extract_insert_other_iff {off w off' w' : Nat} (hd : off + w ≤ off' ∨ off' + w' ≤ off) (h : off' + w' ≤ S) (v : BitVec S) :
    (∀ x, extract off' w' (insert off w x v) = extract off' w' x) ↔
      ∀ i, w ≤ i → off' ≤ off + i → off + i < off' + w' → v.getLsbD i = false := by
  constructor
  · intro hx i hwi hlo hhi
    have hbit := congrArg (·.getLsbD (off + i - off')) (hx 0)
    simp only [getLsbD_extract, show off' + (off + i - off') = off + i by omega] at hbit
    rw [getLsbD_insert _ _ _ _ _ (by omega), if_neg (by omega), if_neg (by omega), Nat.add_sub_cancel_left] at hbit
    simpa [show off + i - off' < w' by omega] using hbit
  · intro hv x
    apply BitVec.eq_of_getLsbD_eq
    intro i hi
    rw [getLsbD_extract, getLsbD_extract]
    by_cases hw : i < w'
    · rw [getLsbD_insert _ _ _ _ _ (by omega)]
      rcases hd with hd | hd
      · rw [if_neg (by omega), if_neg (by omega), hv (off' + i - off) (by omega) (by omega) (by omega), Bool.or_false]
      · rw [if_pos (by omega)]
    · simp [hw]

theorem setWidth_extract_inj {off w v : Nat} (x y : BitVec S) :
    (extract off w x).setWidth v = (extract off w y).setWidth v ↔ extract off (min w v) x = extract off (min w v) y := by
  constructor
  · intro h
    apply BitVec.eq_of_getLsbD_eq
    intro i hi
    rw [getLsbD_extract, getLsbD_extract]
    by_cases hi' : i < min w v
    · have hbit := congrArg (·.getLsbD i) h
      simp only [BitVec.getLsbD_setWidth, getLsbD_extract] at hbit
      simpa [hi', show i < v by omega, show i < w by omega] using hbit
    · simp [hi']
  · intro h
    apply BitVec.eq_of_getLsbD_eq
    intro i hi
    have hbit := congrArg (·.getLsbD i) h
    simp only [getLsbD_extract] at hbit
    rw [BitVec.getLsbD_setWidth, BitVec.getLsbD_setWidth, getLsbD_extract, getLsbD_extract]
    by_cases hw : i < w
    · simpa [hi, hw, show i < min w v by omega] using hbit
    · simp [hw]

end BitField

import Mathlib.Data.Int.Bitwise
import NumbaCudaMlir.MachineInt

/-!
# Integer operations of the arith dialect

An operation has no value where it is undefined or poison.
-/

namespace ArithOps

open MachineInt

variable {w : Nat}

/-- `nsw`: the signed result must not overflow. -/
def noSignedWrap (nsw : Bool) (exact : Int) (x : BitVec w) : Option (BitVec w) :=
  if nsw ∧ ¬ InRange true w exact then none else some x

def addi (nsw : Bool) (x y : BitVec w) : Option (BitVec w) := noSignedWrap nsw (x.toInt + y.toInt) (x + y)

def subi (nsw : Bool) (x y : BitVec w) : Option (BitVec w) := noSignedWrap nsw (x.toInt - y.toInt) (x - y)

def muli (nsw : Bool) (x y : BitVec w) : Option (BitVec w) := noSignedWrap nsw (x.toInt * y.toInt) (x * y)

/-- Signed division by zero, and of the least value by -1, is undefined. -/
def divides (x y : BitVec w) : Prop := y ≠ 0#w ∧ ¬ (x = BitVec.intMin w ∧ y = BitVec.allOnes w)

instance (x y : BitVec w) : Decidable (divides x y) := inferInstanceAs (Decidable (_ ∧ _))

/-- The quotient rounded down. -/
def floordivsi (x y : BitVec w) : Option (BitVec w) :=
  if divides x y then some (BitVec.ofInt w (x.toInt.fdiv y.toInt)) else none

/-- The remainder has the sign of the dividend. -/
def remsi (x y : BitVec w) : Option (BitVec w) :=
  if divides x y then some (BitVec.ofInt w (x.toInt.tmod y.toInt)) else none

def divui (x y : BitVec w) : Option (BitVec w) := if y = 0#w then none else some (x / y)

def remui (x y : BitVec w) : Option (BitVec w) := if y = 0#w then none else some (x % y)

def shli (x y : BitVec w) : Option (BitVec w) := if y.toNat < w then some (x <<< y.toNat) else none

def shrsi (x y : BitVec w) : Option (BitVec w) := if y.toNat < w then some (x.sshiftRight y.toNat) else none

def shrui (x y : BitVec w) : Option (BitVec w) := if y.toNat < w then some (x >>> y.toNat) else none

/-! ## Exact results -/

theorem ofInt_sub (a b : Int) : BitVec.ofInt w (a - b) = BitVec.ofInt w a - BitVec.ofInt w b := by
  rw [Int.sub_eq_add_neg, BitVec.ofInt_add, BitVec.ofInt_neg, BitVec.sub_eq_add_neg]

theorem getLsbD_ofInt (n : Int) (i : Nat) : (BitVec.ofInt w n).getLsbD i = (decide (i < w) && n.testBit i) := by
  cases n with
  | ofNat m =>
    rw [Int.ofNat_eq_natCast, BitVec.ofInt_natCast, BitVec.getLsbD_ofNat]
    rfl
  | negSucc m =>
    rw [BitVec.ofInt_negSucc_eq_not_ofNat, BitVec.getLsbD_not, BitVec.getLsbD_ofNat]
    by_cases h : i < w <;> simp [h, Int.testBit]

theorem ofInt_eq_of_testBit {n : Int} {x : BitVec w} (h : ∀ i < w, n.testBit i = x.getLsbD i) : BitVec.ofInt w n = x := by
  apply BitVec.eq_of_getLsbD_eq
  intro i hi
  rw [getLsbD_ofInt, decide_eq_true hi, Bool.true_and, h i hi]

theorem testBit_eq (n : Int) {i : Nat} (hi : i < w) : n.testBit i = (BitVec.ofInt w n).getLsbD i := by
  rw [getLsbD_ofInt, decide_eq_true hi, Bool.true_and]

theorem ofInt_land (a b : Int) : BitVec.ofInt w (a.land b) = BitVec.ofInt w a &&& BitVec.ofInt w b :=
  ofInt_eq_of_testBit fun i hi => by rw [Int.testBit_land, BitVec.getLsbD_and, testBit_eq a hi, testBit_eq b hi]

theorem ofInt_lor (a b : Int) : BitVec.ofInt w (a.lor b) = BitVec.ofInt w a ||| BitVec.ofInt w b :=
  ofInt_eq_of_testBit fun i hi => by rw [Int.testBit_lor, BitVec.getLsbD_or, testBit_eq a hi, testBit_eq b hi]

theorem ofInt_xor (a b : Int) : BitVec.ofInt w (a.xor b) = BitVec.ofInt w a ^^^ BitVec.ofInt w b :=
  ofInt_eq_of_testBit fun i hi => by rw [Int.testBit_lxor, BitVec.getLsbD_xor, testBit_eq a hi, testBit_eq b hi]

theorem ofInt_pow (a : Int) (n : Nat) : BitVec.ofInt w (a ^ n) = BitVec.ofInt w a ^ n := by
  induction n with
  | zero => rw [Int.pow_zero, BitVec.pow_zero, BitVec.ofInt_ofNat]
  | succ n ih => rw [Int.pow_succ, BitVec.ofInt_mul, ih, BitVec.pow_succ]

/-! ## Python's remainder -/

theorem fmod_eq_tmod_add {a b : Int} (hb : b ≠ 0) :
    a.fmod b = a.tmod b + if (a.tmod b < 0 ↔ 0 < b) ∧ a.tmod b ≠ 0 then b else 0 := by
  have hnonneg := Int.emod_nonneg a hb
  have hlt := Int.emod_lt a hb
  rw [Int.tmod_eq_emod, Int.fmod_eq_emod]
  by_cases hd : b ∣ a
  · simp [hd, Int.emod_eq_zero_of_dvd hd]
  · have hne : a % b ≠ 0 := fun h => hd (Int.dvd_of_emod_eq_zero h)
    simp only [hd, or_false]
    by_cases ha : 0 ≤ a <;> by_cases hp : 0 ≤ b <;> simp only [ha, hp, if_true, if_false] <;> split <;> omega

theorem toInt_tmod (x y : BitVec w) : (BitVec.ofInt w (x.toInt.tmod y.toInt)).toInt = x.toInt.tmod y.toInt := by
  rw [← BitVec.toInt_srem, BitVec.ofInt_toInt]

theorem xor_slt_zero (x y : BitVec w) : (x ^^^ y).slt 0#w = true ↔ (x.toInt < 0 ↔ 0 ≤ y.toInt) := by
  rw [BitVec.slt_zero_eq_msb, BitVec.msb_xor, BitVec.msb_eq_toInt, BitVec.msb_eq_toInt]
  by_cases hx : x.toInt < 0 <;> by_cases hy : y.toInt < 0 <;> simp [hx, hy]
  all_goals omega

theorem rem_add_divisor {x y : BitVec w} (hy : y.toInt ≠ 0) :
    (let rem := BitVec.ofInt w (x.toInt.tmod y.toInt)
     rem + if ((rem ^^^ y).slt 0#w && rem != 0#w) = true then y else 0#w) = BitVec.ofInt w (x.toInt.fmod y.toInt) := by
  have hzero : BitVec.ofInt w (x.toInt.tmod y.toInt) = 0#w ↔ x.toInt.tmod y.toInt = 0 := by
    rw [← BitVec.toInt_inj, toInt_tmod, BitVec.toInt_zero]
  have hsign := xor_slt_zero (BitVec.ofInt w (x.toInt.tmod y.toInt)) y
  rw [toInt_tmod, show 0 ≤ y.toInt ↔ 0 < y.toInt by omega] at hsign
  have hfix : ((BitVec.ofInt w (x.toInt.tmod y.toInt) ^^^ y).slt 0#w && BitVec.ofInt w (x.toInt.tmod y.toInt) != 0#w) = true ↔
      (x.toInt.tmod y.toInt < 0 ↔ 0 < y.toInt) ∧ x.toInt.tmod y.toInt ≠ 0 := by
    rw [Bool.and_eq_true, bne_iff_ne, Ne, hzero, hsign]
  rw [fmod_eq_tmod_add hy, BitVec.ofInt_add]
  by_cases h : (x.toInt.tmod y.toInt < 0 ↔ 0 < y.toInt) ∧ x.toInt.tmod y.toInt ≠ 0
  · simp only [if_pos h, BitVec.ofInt_toInt, hfix.mpr h, if_true]
  · simp only [if_neg h, mt hfix.mp h]
    rfl

/-! ## Values of the operations -/

theorem addi_eq_some {nsw : Bool} {x y : BitVec w} (h : nsw = true → InRange true w (x.toInt + y.toInt)) :
    addi nsw x y = some (x + y) := if_neg fun hn => hn.2 (h hn.1)

theorem subi_eq_some {nsw : Bool} {x y : BitVec w} (h : nsw = true → InRange true w (x.toInt - y.toInt)) :
    subi nsw x y = some (x - y) := if_neg fun hn => hn.2 (h hn.1)

theorem muli_eq_some {nsw : Bool} {x y : BitVec w} (h : nsw = true → InRange true w (x.toInt * y.toInt)) :
    muli nsw x y = some (x * y) := if_neg fun hn => hn.2 (h hn.1)

theorem divides_iff (hw : 0 < w) {x y : BitVec w} :
    divides x y ↔ y.toInt ≠ 0 ∧ ¬ (x.toInt = -2 ^ (w - 1) ∧ y.toInt = -1) := by
  have hy : y = 0#w ↔ y.toInt = 0 := by rw [← BitVec.toInt_inj, BitVec.toInt_zero]
  have hx : x = BitVec.intMin w ↔ x.toInt = -2 ^ (w - 1) := by rw [← BitVec.toInt_inj, BitVec.toInt_intMin_of_pos hw]
  have hone : y = BitVec.allOnes w ↔ y.toInt = -1 := by rw [← BitVec.toInt_inj, BitVec.toInt_allOnes, if_pos hw]
  rw [divides, Ne, hy, hx, hone]

theorem shli_eq_some {n : Int} {y : BitVec w} (h : y.toNat < w) :
    shli (BitVec.ofInt w n) y = some (BitVec.ofInt w (n * 2 ^ y.toNat)) := by
  have hpow : BitVec.twoPow w y.toNat = BitVec.ofInt w (2 ^ y.toNat) := by
    apply BitVec.eq_of_toNat_eq
    rw [BitVec.toNat_twoPow, show (2 : Int) ^ y.toNat = ((2 ^ y.toNat : Nat) : Int) by push_cast; rfl, BitVec.ofInt_natCast,
      BitVec.toNat_ofNat]
  rw [shli, if_pos h, BitVec.shiftLeft_eq_mul_twoPow, hpow, ← BitVec.ofInt_mul]

theorem shrsi_eq_some {x y : BitVec w} (h : y.toNat < w) : shrsi x y = some (BitVec.ofInt w (x.toInt.fdiv (2 ^ y.toNat))) := by
  rw [shrsi, if_pos h, Int.fdiv_eq_ediv_of_nonneg _ (by positivity), ← BitVec.ofInt_toInt (x := x.sshiftRight y.toNat), BitVec.toInt_sshiftRight,
    Int.shiftRight_eq_div_pow]
  norm_cast

theorem shrui_eq_some {x y : BitVec w} (h : y.toNat < w) : shrui x y = some (BitVec.ofInt w ((x.toNat : Int).fdiv (2 ^ y.toNat))) := by
  have hcast : ((2 : Int) ^ y.toNat) = ((2 ^ y.toNat : Nat) : Int) := by push_cast; rfl
  rw [shrui, if_pos h, hcast, ← Int.ofNat_fdiv, BitVec.ofInt_natCast, ← Nat.shiftRight_eq_div_pow, ← BitVec.toNat_ushiftRight,
    BitVec.ofNat_toNat, BitVec.setWidth_eq]

theorem divui_eq_some {x y : BitVec w} (h : y.toNat ≠ 0) : divui x y = some (BitVec.ofInt w ((x.toNat : Int).fdiv y.toNat)) := by
  have hy : y ≠ 0#w := fun h0 => h (by rw [h0, BitVec.toNat_zero])
  rw [divui, if_neg hy, ← Int.ofNat_fdiv, BitVec.ofInt_natCast, ← BitVec.toNat_udiv, BitVec.ofNat_toNat, BitVec.setWidth_eq]

theorem remui_eq_some {x y : BitVec w} (h : y.toNat ≠ 0) : remui x y = some (BitVec.ofInt w ((x.toNat : Int).fmod y.toNat)) := by
  have hy : y ≠ 0#w := fun h0 => h (by rw [h0, BitVec.toNat_zero])
  rw [remui, if_neg hy, ← Int.ofNat_fmod, BitVec.ofInt_natCast, ← BitVec.toNat_umod, BitVec.ofNat_toNat, BitVec.setWidth_eq]

end ArithOps

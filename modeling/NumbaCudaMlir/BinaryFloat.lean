import Mathlib.Data.Rat.Cast.Order
import Mathlib.Data.Nat.Log
import Mathlib.Tactic.Linarith

/-!
# Binary floating-point numbers

A format has a precision and a largest exponent. Integers are rounded to it to
nearest, ties to even: the result is the integer itself exactly when it is
representable, and has the integer's sign. Zeros have no sign: a division by zero is
infinite with the sign of the dividend.
-/

namespace BinaryFloat

structure Format where
  precision : Nat
  precision_pos : 0 < precision
  /-- Finite magnitudes are below `2 ^ maxExponent`. -/
  maxExponent : Nat

def binary16 : Format := ⟨11, by decide, 16⟩

def binary32 : Format := ⟨24, by decide, 128⟩

def binary64 : Format := ⟨53, by decide, 1024⟩

def bfloat16 : Format := ⟨8, by decide, 128⟩

/-- The numbers of a format, with one zero and one NaN. -/
inductive Value where
  | finite (q : Rat)
  | infinity (negative : Bool)
  | nan
  deriving DecidableEq

/-! ## Rounding -/

/-- The bits of `n` that do not fit. -/
def excess (f : Format) (n : Nat) : Nat := n.log2 + 1 - f.precision

/-- `n / 2 ^ k` to the nearest integer, a tie to the even one. -/
def roundQuotient (n k : Nat) : Nat :=
  let q := n / 2 ^ k
  let r := n % 2 ^ k
  if 2 * r < 2 ^ k ∨ 2 * r = 2 ^ k ∧ q % 2 = 0 then q else q + 1

def roundNat (f : Format) (n : Nat) : Nat := roundQuotient n (excess f n) * 2 ^ excess f n

def ofInt (f : Format) (n : Int) : Value :=
  let m := roundNat f n.natAbs
  if m < 2 ^ f.maxExponent then .finite (n.sign * m) else .infinity (n < 0)

def Representable (f : Format) (n : Int) : Prop := 2 ^ excess f n.natAbs ∣ n.natAbs ∧ n.natAbs < 2 ^ f.maxExponent

instance (f : Format) (n : Int) : Decidable (Representable f n) := inferInstanceAs (Decidable (_ ∧ _))

theorem roundQuotient_mul_eq_iff (n k : Nat) : roundQuotient n k * 2 ^ k = n ↔ 2 ^ k ∣ n := by
  constructor
  · exact fun h => ⟨_, by rw [Nat.mul_comm, h]⟩
  · intro h
    have hr : n % 2 ^ k = 0 := Nat.mod_eq_zero_of_dvd h
    have hpos : 0 < 2 ^ k := Nat.two_pow_pos k
    rw [roundQuotient, if_pos (.inl (by rw [hr]; omega))]
    exact Nat.div_mul_cancel h

theorem roundNat_pos (f : Format) {n : Nat} (h : 0 < n) : 0 < roundNat f n := by
  have hle : 2 ^ excess f n ≤ n := by
    have hlog : 2 ^ n.log2 ≤ n := Nat.log2_self_le h.ne'
    have hexp : 2 ^ excess f n ≤ 2 ^ n.log2 := Nat.pow_le_pow_right (by decide) (by
      have := f.precision_pos
      unfold excess
      omega)
    omega
  have hq : 0 < n / 2 ^ excess f n := Nat.div_pos hle (Nat.two_pow_pos _)
  have hr : 0 < roundQuotient n (excess f n) := by
    unfold roundQuotient
    simp only
    split <;> omega
  exact Nat.mul_pos hr (Nat.two_pow_pos _)

@[simp] theorem roundNat_zero (f : Format) : roundNat f 0 = 0 := by simp [roundNat, roundQuotient]

theorem sign_mul_eq_iff (f : Format) (n : Int) : n.sign * (roundNat f n.natAbs : Int) = n ↔ roundNat f n.natAbs = n.natAbs := by
  rcases lt_trichotomy n 0 with h | rfl | h
  · rw [Int.sign_eq_neg_one_of_neg h]
    omega
  · simp
  · rw [Int.sign_eq_one_of_pos h]
    omega

theorem ofInt_eq_finite_iff (f : Format) (n : Int) : ofInt f n = .finite n ↔ Representable f n := by
  unfold ofInt Representable
  rw [← roundQuotient_mul_eq_iff, ← roundNat]
  constructor
  · intro h
    simp only at h
    split at h
    · next hlt =>
      have hn : n.sign * (roundNat f n.natAbs : Int) = n := by
        exact_mod_cast Value.finite.inj h
      have habs := (sign_mul_eq_iff f n).mp hn
      exact ⟨habs, habs ▸ hlt⟩
    · cases h
  · intro ⟨habs, hlt⟩
    have hn := (sign_mul_eq_iff f n).mpr habs
    simp only [habs, if_pos hlt]
    rw [habs] at hn
    exact congrArg Value.finite (by rw [← Int.cast_natCast, ← Int.cast_mul, hn])

theorem ofInt_ne_finite_of_sign (f : Format) {m n : Int} (h : m < 0 ↔ 0 ≤ n) : ofInt f n ≠ .finite m := by
  intro he
  unfold ofInt at he
  simp only at he
  split at he
  · have hm : n.sign * (roundNat f n.natAbs : Int) = m := by exact_mod_cast Value.finite.inj he
    by_cases hn : 0 ≤ n
    · have hs := Int.mul_nonneg (Int.sign_nonneg_iff.mpr hn) (Int.natCast_nonneg (roundNat f n.natAbs))
      omega
    · have hpos := roundNat_pos f (show 0 < n.natAbs by omega)
      rw [Int.sign_eq_neg_one_of_neg (by omega)] at hm
      omega
  · cases he

theorem ofInt_ne_of_sign (f : Format) {m n : Int} (hm : m < 0) (hn : 0 ≤ n) : ofInt f m ≠ ofInt f n := by
  intro he
  unfold ofInt at he
  simp only at he
  have hpos := roundNat_pos f (show 0 < m.natAbs by omega)
  have hs := Int.mul_nonneg (Int.sign_nonneg_iff.mpr hn) (Int.natCast_nonneg (roundNat f n.natAbs))
  split at he
  · split at he
    · have hq : m.sign * (roundNat f m.natAbs : Int) = n.sign * (roundNat f n.natAbs : Int) := by
        exact_mod_cast Value.finite.inj he
      rw [Int.sign_eq_neg_one_of_neg hm] at hq
      omega
    · cases he
  · split at he
    · cases he
    · have hsign := Value.infinity.inj he
      simp only [decide_eq_decide] at hsign
      omega

/-! ## Rounding of rationals -/

/-- `n / d` to the nearest integer, a tie to the even one. -/
def roundDiv (n d : Nat) : Nat :=
  if 2 * (n % d) < d ∨ 2 * (n % d) = d ∧ n / d % 2 = 0 then n / d else n / d + 1

/-- The exponent of the last place of `n / d`, not below that of the subnormal numbers. -/
def lastPlace (f : Format) (n d : Nat) : Int :=
  let k : Int := n.log2 - d.log2
  let log : Int := if d * 2 ^ k.toNat ≤ n * 2 ^ (-k).toNat then k else k - 1
  max (log - (f.precision - 1)) (3 - f.maxExponent - f.precision)

/-- A rational number in the format: to nearest, ties to even, infinite from the overflow threshold on. -/
def ofRat (f : Format) (q : Rat) : Value :=
  let e := lastPlace f q.num.natAbs q.den
  let m := roundDiv (q.num.natAbs * 2 ^ (-e).toNat) (q.den * 2 ^ e.toNat)
  if m * 2 ^ e.toNat < 2 ^ f.maxExponent * 2 ^ (-e).toNat then .finite (q.num.sign * (m * 2 ^ e.toNat / 2 ^ (-e).toNat))
  else .infinity (q.num < 0)

@[simp] theorem ofRat_zero (f : Format) : ofRat f 0 = .finite 0 := by
  simp [ofRat, roundDiv]

theorem ofRat_ne_nan (f : Format) (q : Rat) : ofRat f q ≠ .nan := by
  unfold ofRat
  simp only
  split <;> simp

/-! ## Arithmetic -/

def mul (f : Format) : Value → Value → Value
  | .finite p, .finite q => ofRat f (p * q)
  | .finite p, .infinity negative | .infinity negative, .finite p => if p = 0 then .nan else .infinity (negative != decide (p < 0))
  | .infinity m, .infinity n => .infinity (m != n)
  | .nan, _ | _, .nan => .nan

def add (f : Format) : Value → Value → Value
  | .finite p, .finite q => ofRat f (p + q)
  | .finite _, .infinity negative | .infinity negative, .finite _ => .infinity negative
  | .infinity m, .infinity n => if m = n then .infinity m else .nan
  | .nan, _ | _, .nan => .nan

/-- `arith.truncf`; infinities and NaN are kept. -/
def roundTo (f : Format) : Value → Value
  | .finite q => ofRat f q
  | .infinity negative => .infinity negative
  | .nan => .nan

def neg : Value → Value
  | .finite q => .finite (-q)
  | .infinity negative => .infinity !negative
  | .nan => .nan

def sub (f : Format) (x y : Value) : Value := add f x (neg y)

def div (f : Format) : Value → Value → Value
  | .finite p, .finite q => if q = 0 then if p = 0 then .nan else .infinity (p < 0) else ofRat f (p / q)
  | .finite _, .infinity _ => .finite 0
  | .infinity negative, .finite q => .infinity (negative != decide (q < 0))
  | .infinity _, .infinity _ => .nan
  | .nan, _ | _, .nan => .nan

/-- `fmod`: the exact remainder of the truncated quotient. -/
def rem : Value → Value → Value
  | .finite p, .finite q => if q = 0 then .nan else .finite (p - q * (p / q).num.tdiv (p / q).den)
  | .finite p, .infinity _ => .finite p
  | .infinity _, _ => .nan
  | .nan, _ | _, .nan => .nan

/-- The integer below, which is in the format. -/
def floor : Value → Value
  | .finite q => .finite q.floor
  | .infinity negative => .infinity negative
  | .nan => .nan

end BinaryFloat

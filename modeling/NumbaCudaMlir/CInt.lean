import Mathlib.Tactic.Ring
import Mathlib.Tactic.Linarith

/-!
# C integers

`wrap64` reads an integer as a signed 64-bit value modulo `2 ^ 64`, and
`Int.tdiv` is the division of C, which truncates toward zero.
-/

namespace CInt

def InInt64 (x : Int) : Prop := -2 ^ 63 ≤ x ∧ x < 2 ^ 63

instance (x : Int) : Decidable (InInt64 x) := inferInstanceAs (Decidable (_ ∧ _))

def InUInt64 (x : Int) : Prop := 0 ≤ x ∧ x < 2 ^ 64

instance (x : Int) : Decidable (InUInt64 x) := inferInstanceAs (Decidable (_ ∧ _))

def wrap64 (x : Int) : Int := x.bmod (2 ^ 64)

theorem wrap64_mem (x : Int) : InInt64 (wrap64 x) := by
  have hl := Int.le_bmod (x := x) (m := 2 ^ 64) (by decide)
  have hu := Int.bmod_lt (x := x) (m := 2 ^ 64) (by decide)
  unfold InInt64 wrap64
  omega

theorem wrap64_eq {x : Int} (h : InInt64 x) : wrap64 x = x := by
  unfold InInt64 at h
  exact Int.bmod_eq_of_le_mul_two (by omega) (by omega)

theorem wrap64_eq_iff (x : Int) : wrap64 x = x ↔ InInt64 x :=
  ⟨fun h => h ▸ wrap64_mem x, wrap64_eq⟩

theorem wrap64_mul_wrap64 (x y : Int) : wrap64 (wrap64 x * wrap64 y) = wrap64 (x * y) := by
  unfold wrap64
  rw [← Int.mul_bmod]

theorem wrap64_wrap64_mul (x y : Int) : wrap64 (wrap64 x * y) = wrap64 (x * y) :=
  Int.bmod_mul_bmod

theorem ofInt_wrap64 (v : Int) : BitVec.ofInt 64 (wrap64 v) = BitVec.ofInt 64 v :=
  BitVec.eq_of_toInt_eq (by rw [BitVec.toInt_ofInt, BitVec.toInt_ofInt, wrap64, Int.bmod_bmod])

theorem wrap64_neg {x : Int} (hx : 2 ^ 63 ≤ x) (hu : x < 2 ^ 64) : wrap64 x < 0 := by
  have h : wrap64 x = x - 2 ^ 64 := by
    unfold wrap64
    rw [← Int.sub_bmod_right]
    exact Int.bmod_eq_of_le_mul_two (by omega) (by omega)
  omega

/-! ## Truncated division -/

theorem mul_tdiv_self_iff {b s : Int} : b * s.tdiv b = s ↔ b ∣ s := by
  constructor
  · intro h; exact ⟨_, h.symm⟩
  · intro h; exact Int.mul_tdiv_cancel_of_dvd h

theorem mul_tdiv_eq_iff_zero {b w s : Int} (hw : 0 < w) (hb : 2 * w ≤ b) : b * s.tdiv w = s ↔ s = 0 := by
  constructor
  · intro h
    have hdiv := Int.mul_tdiv_add_tmod s w
    have hlt : (s.tmod w).natAbs < w.natAbs := by
      rw [Int.natAbs_tmod]; exact Nat.mod_lt _ (by omega)
    have hr : (b - w) * s.tdiv w = s.tmod w := by rw [Int.sub_mul]; linarith
    by_cases hq : s.tdiv w = 0
    · rw [hq] at h; simpa using h.symm
    · exfalso
      have hq1 : 1 ≤ (s.tdiv w).natAbs := Int.natAbs_pos.mpr hq
      have habs : (b - w).natAbs * (s.tdiv w).natAbs = (s.tmod w).natAbs := by
        rw [← Int.natAbs_mul, hr]
      have : (b - w).natAbs ≤ (b - w).natAbs * (s.tdiv w).natAbs := Nat.le_mul_of_pos_right _ hq1
      omega
  · rintro rfl; simp

end CInt

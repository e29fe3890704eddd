import Mathlib.Tactic.Ring

/-!
# Gregorian calendar

Days of the years and the months of the proleptic Gregorian calendar, counted
from the first of January 1970.
-/

namespace Calendar

def IsLeap (year : Int) : Prop := year % 4 = 0 ∧ (year % 100 ≠ 0 ∨ year % 400 = 0)

instance (year : Int) : Decidable (IsLeap year) := inferInstanceAs (Decidable (_ ∧ _))

/-- Leap years from the year 1 to the one before. -/
def leapsBefore (year : Int) : Int := (year - 1) / 4 - (year - 1) / 100 + (year - 1) / 400

/-- The first day of the year 1970 + `y`. -/
def yearDays (y : Int) : Int := 365 * y + (leapsBefore (1970 + y) - leapsBefore 1970)

@[simp] theorem yearDays_zero : yearDays 0 = 0 := by decide

theorem yearDays_bounds (y : Int) : (0 ≤ y → 365 * y ≤ yearDays y) ∧ (y ≤ 0 → yearDays y ≤ 365 * y) := by
  unfold yearDays leapsBefore
  omega

/-! ## Months -/

/-- The days of a year before its months, in a year without a leap day. -/
def monthOffsets : List Int := [0, 31, 59, 90, 120, 151, 181, 212, 243, 273, 304, 334]

/-- The first day of month `n`, of which 0 is January 1970. -/
def monthDays (n : Int) : Int :=
  let month := (n % 12).toNat
  yearDays (n / 12) + monthOffsets.getD month 0 + if 2 ≤ month ∧ IsLeap (1970 + n / 12) then 1 else 0

@[simp] theorem monthDays_zero : monthDays 0 = 0 := by decide

theorem monthOffset_bounds {month : Nat} (h : month < 12) :
    29 * (month : Int) ≤ monthOffsets.getD month 0 ∧ monthOffsets.getD month 0 ≤ 30 * month + 4 := by
  have hall : ∀ m : Nat, m < 12 → 29 * (m : Int) ≤ monthOffsets.getD m 0 ∧ monthOffsets.getD m 0 ≤ 30 * m + 4 := by decide
  exact hall month h

theorem monthDays_bounds (n : Int) : (0 ≤ n → 28 * n ≤ monthDays n) ∧ (n ≤ 0 → monthDays n ≤ 28 * n) := by
  by_cases h0 : n = 0
  · rw [h0, monthDays_zero]
    omega
  have hmonth : (n % 12).toNat < 12 := by omega
  have hoff := monthOffset_bounds hmonth
  have hyear := yearDays_bounds (n / 12)
  have hextra : ∀ p : Prop, [Decidable p] → 0 ≤ (if p then (1 : Int) else 0) ∧ (if p then (1 : Int) else 0) ≤ 1 := by
    intro p _
    split <;> omega
  have hleap := hextra (2 ≤ (n % 12).toNat ∧ IsLeap (1970 + n / 12))
  unfold monthDays
  simp only
  generalize (if 2 ≤ (n % 12).toNat ∧ IsLeap (1970 + n / 12) then (1 : Int) else 0) = extra at hleap ⊢
  generalize monthOffsets.getD (n % 12).toNat 0 = offset at hoff ⊢
  generalize yearDays (n / 12) = days at hyear ⊢
  omega

end Calendar

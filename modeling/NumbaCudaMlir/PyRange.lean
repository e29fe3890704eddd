import Mathlib.Tactic.Ring
import Mathlib.Tactic.Linarith

/-!
# Python ranges and slices

`len` is the length of `range(start, stop, step)`, and `first` and `last` are
what `slice(start, stop, step).indices(n)` makes of its first two components.
-/

namespace PyRange

def len (start stop step : Int) : Nat :=
  if 0 < step then
    if start < stop then ((stop - start - 1) / step + 1).toNat else 0
  else
    if stop < start then ((start - stop - 1) / (-step) + 1).toNat else 0

def lower (step : Int) : Int := if step < 0 then -1 else 0

def upper (n : Nat) (step : Int) : Int := if step < 0 then (n : Int) - 1 else n

def clamp (n : Nat) (step v : Int) : Int :=
  if v < 0 then max (v + n) (lower step) else min v (upper n step)

def first (n : Nat) (step : Int) : Option Int → Int
  | none => if step < 0 then upper n step else lower step
  | some v => clamp n step v

def last (n : Nat) (step : Int) : Option Int → Int
  | none => if step < 0 then lower step else upper n step
  | some v => clamp n step v

def elements (start stop step : Int) : List Int := (List.range (len start stop step)).map fun k : Nat => start + k * step

theorem elements_get (start stop step : Int) (k : Nat) :
    (elements start stop step)[k]? = if k < len start stop step then some (start + k * step) else none := by
  by_cases h : k < len start stop step
  · simp [elements, h]
  · simp [elements, h]

/-! ## Lengths -/

theorem len_neg {step : Int} (h : step < 0) (start stop : Int) : len start stop step = len (-start) (-stop) (-step) := by
  have hp : ¬ 0 < step := by omega
  have hm : 0 < -step := by omega
  unfold len
  rw [if_neg hp, if_pos hm]
  by_cases hs : stop < start
  · have hs' : -start < -stop := by omega
    have : -stop - -start - 1 = start - stop - 1 := by ring
    rw [if_pos hs, if_pos hs', this]
  · have hs' : ¬ -start < -stop := by omega
    rw [if_neg hs, if_neg hs']

theorem lt_len_iff {step : Int} (h : 0 < step) (start stop : Int) (j : Nat) :
    j < len start stop step ↔ start + j * step < stop := by
  unfold len
  rw [if_pos h]
  have hj : 0 ≤ (j : Int) * step := Int.mul_nonneg (by omega) (by omega)
  by_cases hs : start < stop
  · rw [if_pos hs]
    have hq : 0 ≤ (stop - start - 1) / step := Int.ediv_nonneg (by omega) (by omega)
    have hlt : (j : Int) ≤ (stop - start - 1) / step ↔ (j : Int) * step ≤ stop - start - 1 := Int.le_ediv_iff_mul_le h
    omega
  · rw [if_neg hs]
    omega

theorem lt_len_iff_neg {step : Int} (h : step < 0) (start stop : Int) (j : Nat) :
    j < len start stop step ↔ stop < start + j * step := by
  rw [len_neg h, lt_len_iff (by omega)]
  have : (j : Int) * -step = -(j * step) := by ring
  omega

theorem len_eq_zero_iff {step : Int} (h : step ≠ 0) (start stop : Int) :
    len start stop step = 0 ↔ (0 < step ∧ stop ≤ start) ∨ (step < 0 ∧ start ≤ stop) := by
  rcases Int.lt_or_gt_of_ne h with hn | hp
  · have := lt_len_iff_neg hn start stop 0
    simp only [Nat.cast_zero, Int.zero_mul, Int.add_zero] at this
    omega
  · have := lt_len_iff hp start stop 0
    simp only [Nat.cast_zero, Int.zero_mul, Int.add_zero] at this
    omega

theorem len_le_natAbs {step : Int} (h : step ≠ 0) (start stop : Int) : len start stop step ≤ (stop - start).natAbs := by
  by_cases hl : len start stop step = 0
  · omega
  · obtain ⟨j, hj⟩ := Nat.exists_eq_succ_of_ne_zero hl
    have hlt : j < len start stop step := by omega
    rcases Int.lt_or_gt_of_ne h with hn | hp
    · rw [lt_len_iff_neg hn] at hlt
      have := Int.mul_le_mul_of_nonneg_left (show step ≤ -1 by omega) (Int.natCast_nonneg j)
      omega
    · rw [lt_len_iff hp] at hlt
      have := Int.mul_le_mul_of_nonneg_left (show 1 ≤ step by omega) (Int.natCast_nonneg j)
      omega

theorem last_le {step : Int} (h : 0 < step) (n : Nat) (stop : Option Int) : last n step stop ≤ n := by
  have hnn : ¬ step < 0 := by omega
  cases stop <;> simp only [last, clamp, upper, lower, hnn, if_false] <;> (try split) <;> omega

theorem position_mem {n : Nat} {step : Int} (h : step ≠ 0) (start stop : Option Int) {j : Nat}
    (hj : j < len (first n step start) (last n step stop) step) :
    0 ≤ first n step start + j * step ∧ first n step start + j * step < n := by
  rcases Int.lt_or_gt_of_ne h with hn | hp
  · rw [lt_len_iff_neg hn] at hj
    have hs : first n step start ≤ (n : Int) - 1 := by
      cases start <;> simp only [first, clamp, upper, lower, hn, if_true] <;> (try split) <;> omega
    have he : -1 ≤ last n step stop := by
      cases stop <;> simp only [last, clamp, upper, lower, hn, if_true] <;> (try split) <;> omega
    have hm : (j : Int) * step ≤ 0 := Int.mul_nonpos_of_nonneg_of_nonpos (by omega) (by omega)
    omega
  · rw [lt_len_iff hp] at hj
    have hnn : ¬ step < 0 := by omega
    have hs : 0 ≤ first n step start := by
      cases start <;> simp only [first, clamp, upper, lower, hnn, if_false] <;> (try split) <;> omega
    have he := last_le hp n stop
    have hm : 0 ≤ (j : Int) * step := Int.mul_nonneg (by omega) (by omega)
    omega

theorem len_le {n : Nat} {step : Int} (h : step ≠ 0) (start stop : Option Int) :
    len (first n step start) (last n step stop) step ≤ n := by
  by_cases hl : len (first n step start) (last n step stop) step = 0
  · omega
  · have hfirst := position_mem h start stop (Nat.pos_of_ne_zero hl)
    have hlast := position_mem h start stop (Nat.sub_one_lt hl)
    rw [Nat.cast_sub (by omega), Nat.cast_one] at hlast
    simp only [Nat.cast_zero, Int.zero_mul, Int.add_zero] at hfirst
    have hl₁ : 0 ≤ (len (first n step start) (last n step stop) step : Int) - 1 := by omega
    rcases Int.lt_or_gt_of_ne h with hn | hp
    · have := Int.mul_le_mul_of_nonneg_left (show step ≤ -1 by omega) hl₁
      omega
    · have := Int.mul_le_mul_of_nonneg_left (show 1 ≤ step by omega) hl₁
      omega

/-! ## Floor division -/

theorem fdiv_eq_iff {d t q : Int} (h : 0 < t) : d.fdiv t = q ↔ q * t ≤ d ∧ d < (q + 1) * t := by
  rw [Int.fdiv_eq_ediv_of_nonneg d (by omega)]
  have h₁ : q ≤ d / t ↔ q * t ≤ d := Int.le_ediv_iff_mul_le h
  have h₂ : q + 1 ≤ d / t ↔ (q + 1) * t ≤ d := Int.le_ediv_iff_mul_le h
  omega

theorem fdiv_eq_iff_neg {d t q : Int} (h : t < 0) : d.fdiv t = q ↔ (q + 1) * t < d ∧ d ≤ q * t := by
  rw [← Int.neg_fdiv_neg, fdiv_eq_iff (by omega)]
  have h₁ : q * -t = -(q * t) := by ring
  have h₂ : (q + 1) * -t = -((q + 1) * t) := by ring
  omega

theorem fdiv_bounds {d t b : Int} (ht : t ≠ 0) (hl : -b ≤ d) (hu : d ≤ b) : -b ≤ d.fdiv t ∧ d.fdiv t ≤ b := by
  have key : ∀ {d t : Int}, 0 < t → -b ≤ d → d ≤ b → -b ≤ d.fdiv t ∧ d.fdiv t ≤ b := by
    intro d t hp hl hu
    obtain ⟨h₁, h₂⟩ := (fdiv_eq_iff hp).mp (rfl : d.fdiv t = d.fdiv t)
    constructor
    · by_contra hc
      have := Int.mul_le_mul_of_nonneg_right (show d.fdiv t + 1 ≤ -b by omega) (show 0 ≤ t by omega)
      have := Int.mul_le_mul_of_nonneg_left (show 1 ≤ t by omega) (show 0 ≤ b by omega)
      linarith [Int.neg_mul b t]
    · by_contra hc
      have := Int.mul_le_mul_of_nonneg_right (show b + 1 ≤ d.fdiv t by omega) (show 0 ≤ t by omega)
      have := Int.mul_le_mul_of_nonneg_left (show 1 ≤ t by omega) (show 0 ≤ b + 1 by omega)
      linarith
  rcases Int.lt_or_gt_of_ne ht with hn | hp
  · rw [← Int.neg_fdiv_neg]
    exact key (by omega) (by omega) (by omega)
  · exact key hp hl hu

/-- A multiple of `t` from `a` to `b`, in the direction of `t`. -/
def MultipleIn (t a b m : Int) : Prop := (0 < t ∧ a ≤ m * t ∧ m * t ≤ b) ∨ (t < 0 ∧ b ≤ m * t ∧ m * t ≤ a)

theorem multipleIn_neg (t a b m : Int) : MultipleIn (-t) (-a) (-b) m ↔ MultipleIn t a b m := by
  unfold MultipleIn
  have : m * -t = -(m * t) := by ring
  omega

/-- **A floor agrees with a ceiling**: `⌊d / step⌋` is the length of a nonempty
range exactly when one multiple of the step lies between the extent of the
range and `d`. -/
theorem fdiv_eq_len_iff {start stop step : Int} (h : len start stop step ≠ 0) (hs : step ≠ 0) (d : Int) :
    d.fdiv step = len start stop step ↔ ∃! m : Int, MultipleIn step (stop - start) d m := by
  have key : ∀ {start stop step d : Int}, 0 < step → len start stop step ≠ 0 →
      (d.fdiv step = len start stop step ↔ ∃! m : Int, MultipleIn step (stop - start) d m) := by
    intro start stop step d hp hl
    obtain ⟨l, hld⟩ : ∃ l : Int, l = len start stop step := ⟨_, rfl⟩
    rw [← hld]
    have hbelow : start + (l - 1) * step < stop := by
      have := (lt_len_iff hp start stop (len start stop step - 1)).mp (by omega)
      rwa [Nat.cast_sub (by omega), Nat.cast_one, ← hld] at this
    have habove : stop ≤ start + l * step := by
      have := (lt_len_iff hp start stop (len start stop step)).not.mp (lt_irrefl _)
      rw [← hld] at this
      omega
    rw [fdiv_eq_iff hp]
    constructor
    · intro ⟨hle, hlt⟩
      refine ⟨l, .inl ⟨hp, by omega, hle⟩, ?_⟩
      rintro m (⟨_, ham, hmb⟩ | ⟨hn, _⟩)
      · have h₁ : l - 1 < m := lt_of_mul_lt_mul_right (a := step) (by omega) (by omega)
        have h₂ : m < l + 1 := lt_of_mul_lt_mul_right (a := step) (by omega) (by omega)
        omega
      · omega
    · intro ⟨m, hm, huniq⟩
      rcases hm with ⟨_, ham, hmb⟩ | ⟨hn, _⟩
      · have h₁ : l - 1 < m := lt_of_mul_lt_mul_right (a := step) (by omega) (by omega)
        have hle : l * step ≤ m * step := Int.mul_le_mul_of_nonneg_right (by omega) (by omega)
        refine ⟨by omega, ?_⟩
        by_contra hc
        have hl₁ := huniq l (.inl ⟨hp, by omega, by omega⟩)
        have hl₂ := huniq (l + 1) (.inl ⟨hp, by
          have : (l + 1) * step = l * step + step := by ring
          omega, by omega⟩)
        omega
      · omega
  rcases Int.lt_or_gt_of_ne hs with hn | hp
  · rw [len_neg hn] at h ⊢
    rw [← Int.neg_fdiv_neg, key (by omega) h]
    have : -stop - -start = -(stop - start) := by ring
    rw [this]
    simp only [multipleIn_neg]
  · exact key hp h

end PyRange

import NumbaCudaMlir.Slicing

/-!
# Soundness of slices

A view selects Python's elements where its size is the length of Python's range
and its first position the range's. The two lowerings size the view without
clamping, so each selects them only where the bounds need no clamping in the
way its own formula can tell.
-/

namespace NumbaCudaMlir.Slicing

open ArrayIndex (MemRef IndexArg)
open CInt (wrap64 InInt64)
open PyRange (first last len MultipleIn)

/-! ## Components -/

/-- The component as the cast to `index` reads it. -/
def Component.cast : Component → Option Int
  | none => .none
  | literal v | captured v => some (wrap64 v)
  | var _ bits => some bits.toInt

theorem Component.convert_toInt {c : Component} {x : Option (BitVec 64)} (h : c.convert = some x) :
    x.map BitVec.toInt = c.cast := by
  cases c with
  | none => cases h; rfl
  | literal v =>
    simp only [convert, Option.ite_none_right_eq_some, Option.some.injEq] at h
    obtain ⟨_, rfl⟩ := h
    simp [cast, wrap64, BitVec.toInt_ofInt]
  | captured v =>
    simp only [convert, Option.ite_none_right_eq_some, Option.some.injEq] at h
    obtain ⟨_, rfl⟩ := h
    simp [cast, wrap64, BitVec.toInt_ofInt]
  | var ty bits =>
    cases h
    simp [cast, BitVec.toInt_signExtend_of_le ty.width.bits_le]

theorem Component.value_cast (c : Component) :
    (c.value = .none ∧ c.cast = .none) ∨ ∃ v x, c.value = some v ∧ c.cast = some x := by
  cases c <;> simp [value, cast]

/-- The integer has a type, and is the constant of its type where it is captured. -/
def Component.Accepted : Component → Prop
  | literal v => InInt64 v ∨ CInt.InUInt64 v
  | captured v => InInt64 v
  | none | var _ _ => True

theorem Component.accepted_iff (c : Component) : c.Accepted ↔ ∃ x, c.convert = some x := by
  cases c <;> simp [Accepted, convert]

/-- Where the cast of an accepted component is not negative, it keeps the value. -/
theorem Component.value_of_cast_nonneg {c : Component} {v x : Int} (ha : c.Accepted) (hv : c.value = some v)
    (hx : c.cast = some x) (h : 0 ≤ x) : v = x := by
  cases c with
  | none => cases hv
  | literal w =>
    cases hv; cases hx
    rcases ha with hi | hu
    · exact (CInt.wrap64_eq hi).symm
    · by_cases hi : InInt64 v
      · exact (CInt.wrap64_eq hi).symm
      · unfold InInt64 CInt.InUInt64 at *
        have := CInt.wrap64_neg (x := v) (by omega) hu.2
        omega
  | captured w =>
    cases hv; cases hx
    exact (CInt.wrap64_eq ha).symm
  | var ty bits =>
    cases hv; cases hx
    unfold MachineInt.value
    split
    · rfl
    · rw [BitVec.toInt_eq_toNat_cond] at h ⊢
      split
      · rfl
      · rename_i hc
        rw [if_neg hc] at h
        have := bits.isLt
        omega

/-! ## Python's elements -/

namespace SliceArgs

variable (n : Nat) (args : SliceArgs)

def pyStep : Int := args.step.value.getD 1

def pyFirst : Int := first n args.pyStep args.start.value

def pyLast : Int := last n args.pyStep args.stop.value

def pyLen : Nat := len (args.pyFirst n) (args.pyLast n) args.pyStep

def castStart : Int := args.start.cast.getD 0

def castStop : Int := args.stop.cast.getD n

def castStep : Int := args.step.cast.getD 1

def extent : Int := wrap64 (args.castStop n - args.castStart)

def Accepted : Prop := args.start.Accepted ∧ args.stop.Accepted ∧ args.step.Accepted

end SliceArgs

/-- The view has Python's elements of a dimension of `n`, and no others. -/
structure Selects (n : Nat) (args : SliceArgs) (v : DimSlice) : Prop where
  size : v.size.toInt = args.pyLen n
  position : ∀ j : Nat, j < args.pyLen n → v.offset.toInt + j * v.stride.toInt = args.pyFirst n + j * args.pyStep
  inside : ∀ j : Int, 0 ≤ j → j < v.size.toInt → 0 ≤ v.offset.toInt + j * v.stride.toInt ∧
    v.offset.toInt + j * v.stride.toInt < n

theorem selects_iff {n : Nat} {args : SliceArgs} (hs : args.pyStep ≠ 0) (v : DimSlice) :
    Selects n args v ↔ v.size.toInt = args.pyLen n ∧ (0 < args.pyLen n → v.offset.toInt = args.pyFirst n) ∧
      (1 < args.pyLen n → v.stride.toInt = args.pyStep) := by
  constructor
  · intro h
    refine ⟨h.size, fun hl => ?_, fun hl => ?_⟩
    · simpa using h.position 0 hl
    · have h₀ := h.position 0 (by omega)
      have h₁ := h.position 1 hl
      simp at h₀ h₁
      omega
  · intro ⟨hsize, hfirst, hstep⟩
    have hpos : ∀ j : Nat, j < args.pyLen n → v.offset.toInt + j * v.stride.toInt = args.pyFirst n + j * args.pyStep := by
      intro j hj
      rw [hfirst (by omega)]
      by_cases hl : 1 < args.pyLen n
      · rw [hstep hl]
      · have : j = 0 := by omega
        simp [this]
    refine ⟨hsize, hpos, fun j hj hlt => ?_⟩
    obtain ⟨k, rfl⟩ := Int.eq_ofNat_of_zero_le hj
    have hk : k < args.pyLen n := by omega
    rw [hpos k hk]
    exact PyRange.position_mem hs args.start.value args.stop.value hk

/-! ## Lowered components -/

theorem lowerArraySlice_eq_some {args : SliceArgs} {s : Slice} (h : lowerArraySlice args = some s) :
    ∃ x y z, args.start.convert = some x ∧ args.stop.convert = some y ∧ args.step.convert = some z ∧
      s = ⟨x.getD 0, y, z.getD 1⟩ := by
  simp only [lowerArraySlice, Slice.init, Option.bind_eq_bind, Option.bind_eq_some_iff] at h
  obtain ⟨x, hx, y, hy, z, hz, h⟩ := h
  cases h
  exact ⟨x, y, z, hx, hy, hz, rfl⟩

theorem lowerArraySlice_accepted {args : SliceArgs} : args.Accepted ↔ ∃ s, lowerArraySlice args = some s := by
  constructor
  · intro ⟨hx, hy, hz⟩
    obtain ⟨x, hx⟩ := args.start.accepted_iff.mp hx
    obtain ⟨y, hy⟩ := args.stop.accepted_iff.mp hy
    obtain ⟨z, hz⟩ := args.step.accepted_iff.mp hz
    simp [lowerArraySlice, Slice.init, hx, hy, hz]
  · intro ⟨s, h⟩
    obtain ⟨x, y, z, hx, hy, hz, _⟩ := lowerArraySlice_eq_some h
    exact ⟨args.start.accepted_iff.mpr ⟨x, hx⟩, args.stop.accepted_iff.mpr ⟨y, hy⟩, args.step.accepted_iff.mpr ⟨z, hz⟩⟩

theorem dim_toInt {a : MemRef} {dim n : Nat} (ha : a.extents.getD dim 0 = n) (hn : n < 2 ^ 63) : (a.dim dim).toInt = n := by
  unfold MemRef.dim
  rw [ha, BitVec.toInt_eq_toNat_cond, BitVec.toNat_ofNat, Nat.mod_eq_of_lt (by omega), if_pos (by omega)]

theorem sub_toInt (x y : BitVec 64) : (x - y).toInt = wrap64 (x.toInt - y.toInt) := BitVec.toInt_sub

section
variable {n : Nat} {args : SliceArgs} {s : Slice} (h : lowerArraySlice args = some s)
include h

theorem start_toInt : s.start.toInt = args.castStart := by
  obtain ⟨x, _, _, hx, _, _, rfl⟩ := lowerArraySlice_eq_some h
  unfold SliceArgs.castStart
  rw [← Component.convert_toInt hx]
  cases x <;> rfl

theorem step_toInt : s.step.toInt = args.castStep := by
  obtain ⟨_, _, z, _, _, hz, rfl⟩ := lowerArraySlice_eq_some h
  unfold SliceArgs.castStep
  rw [← Component.convert_toInt hz]
  cases z <;> rfl

theorem stop_toInt {a : MemRef} {dim : Nat} (ha : a.extents.getD dim 0 = n) (hn : n < 2 ^ 63) :
    (s.stop.getD (a.dim dim)).toInt = args.castStop n := by
  obtain ⟨_, y, _, _, hy, _, rfl⟩ := lowerArraySlice_eq_some h
  unfold SliceArgs.castStop
  rw [← Component.convert_toInt hy]
  cases y with
  | none => exact dim_toInt ha hn
  | some _ => rfl

theorem extent_toInt {a : MemRef} {dim : Nat} (ha : a.extents.getD dim 0 = n) (hn : n < 2 ^ 63) :
    (s.stop.getD (a.dim dim) - s.start).toInt = args.extent n := by
  rw [sub_toInt, stop_toInt h ha hn, start_toInt h]
  rfl

end

namespace SliceArgs.Accepted

variable {args : SliceArgs} (ha : args.Accepted)
include ha

theorem castStep_neg (h : args.castStep ≠ args.pyStep) : args.castStep < 0 := by
  unfold castStep pyStep at *
  by_contra hc
  rcases args.step.value_cast with ⟨hv, hx⟩ | ⟨v, x, hv, hx⟩
  · simp [hv, hx] at h
  · rw [hv, hx] at h
    rw [hx] at hc
    exact h (Component.value_of_cast_nonneg ha.2.2 hv hx (Int.not_lt.mp hc)).symm

theorem castStep_ne_zero (hs : args.pyStep ≠ 0) : args.castStep ≠ 0 := by
  by_cases h : args.castStep = args.pyStep
  · omega
  · have := ha.castStep_neg h
    omega

end SliceArgs.Accepted

/-! ## The slice itself -/

/-- Where `a[start:stop:step]` selects Python's elements. -/
def SliceForm (n : Nat) (args : SliceArgs) : Prop :=
  if args.pyLen n = 0 then
    (0 ≤ args.extent n ∧ args.extent n < args.castStep) ∨ (args.castStep < args.extent n ∧ args.extent n ≤ 0)
  else
    args.castStart = args.pyFirst n ∧
      if args.castStep = args.pyStep then
        ∃! m, MultipleIn args.pyStep (args.pyLast n - args.pyFirst n) (args.extent n) m
      else
        args.pyLen n = 1 ∧ 2 * args.castStep < args.extent n ∧ args.extent n ≤ args.castStep

theorem floordivsi_toInt (x y : BitVec 64) : (floordivsi x y).toInt = wrap64 (x.toInt.fdiv y.toInt) := by
  unfold floordivsi wrap64
  rw [BitVec.toInt_ofInt]

theorem wrap64_eq_natCast_iff {x : Int} {l : Nat} (hl : -2 ^ 63 ≤ x) (hu : x ≤ 2 ^ 63) (h : l < 2 ^ 63) :
    wrap64 x = l ↔ x = l := by
  by_cases hx : x = 2 ^ 63
  · have := CInt.wrap64_neg (x := x) (by omega) (by omega)
    omega
  · rw [CInt.wrap64_eq (by unfold InInt64; omega)]

theorem fdiv_extent_iff {n : Nat} {args : SliceArgs} (ha : args.Accepted) (hs : args.pyStep ≠ 0) :
    ((args.extent n).fdiv args.castStep = args.pyLen n ∧ (0 < args.pyLen n → args.castStart = args.pyFirst n) ∧
      (1 < args.pyLen n → args.castStep = args.pyStep)) ↔ SliceForm n args := by
  unfold SliceForm
  have hT := ha.castStep_ne_zero hs
  by_cases hl : args.pyLen n = 0
  · rw [if_pos hl, hl]
    rcases Int.lt_or_gt_of_ne hT with hneg | hpos
    · have := PyRange.fdiv_eq_iff_neg (d := args.extent n) (q := 0) hneg
      simp only [Int.zero_add, Int.zero_mul, Int.one_mul] at this
      simp only [Nat.cast_zero, this]
      omega
    · have := PyRange.fdiv_eq_iff (d := args.extent n) (q := 0) hpos
      simp only [Int.zero_add, Int.zero_mul, Int.one_mul] at this
      simp only [Nat.cast_zero, this]
      omega
  · rw [if_neg hl]
    by_cases hstep : args.castStep = args.pyStep
    · have := PyRange.fdiv_eq_len_iff (show len (args.pyFirst n) (args.pyLast n) args.pyStep ≠ 0 from hl) hs (args.extent n)
      rw [if_pos hstep, ← this, hstep]
      have : 0 < args.pyLen n := by omega
      simp only [this, true_imp_iff, imp_true_iff, and_true]
      exact and_comm
    · have hneg := ha.castStep_neg hstep
      rw [if_neg hstep]
      have hlen : (1 < args.pyLen n → args.castStep = args.pyStep) ↔ args.pyLen n = 1 := by
        simp only [hstep, imp_false]
        omega
      have := PyRange.fdiv_eq_iff_neg (d := args.extent n) (q := 1) hneg
      have : 0 < args.pyLen n := by omega
      rw [hlen]
      simp only [this, true_imp_iff]
      constructor
      · intro ⟨hq, hfirst, h1⟩
        rw [h1, Nat.cast_one] at hq
        have := ‹_ ↔ _›.mp hq
        exact ⟨hfirst, h1, by omega⟩
      · intro ⟨hfirst, h1, hb⟩
        rw [h1, Nat.cast_one]
        exact ⟨‹_ ↔ _›.mpr (by omega), hfirst, rfl⟩

theorem sliceDim_selects_iff (a : MemRef) (dim : Nat) {n : Nat} {args : SliceArgs} {s : Slice} (h : lowerArraySlice args = some s)
    (ha : a.extents.getD dim 0 = n) (hn : n < 2 ^ 63) (hs : args.pyStep ≠ 0) :
    Selects n args (sliceDim s.start (s.stop.getD (a.dim dim)) s.step) ↔ SliceForm n args := by
  have hacc := lowerArraySlice_accepted.mpr ⟨s, h⟩
  have hlen : args.pyLen n ≤ n := PyRange.len_le hs args.start.value args.stop.value
  have hext := CInt.wrap64_mem (args.castStop n - args.castStart)
  have hb := PyRange.fdiv_bounds (hacc.castStep_ne_zero hs) (d := args.extent n) (b := 2 ^ 63) (by exact hext.1) (by exact hext.2.le)
  rw [selects_iff hs, ← fdiv_extent_iff hacc hs]
  unfold sliceDim
  rw [floordivsi_toInt, extent_toInt h ha hn, step_toInt h, start_toInt h,
    wrap64_eq_natCast_iff hb.1 hb.2 (by omega)]

/-! ## The slice inside a tuple -/

/-- Where a slice inside an index tuple selects Python's elements, for a step
that is cast to a positive one. -/
def TupleForm (n : Nat) (args : SliceArgs) : Prop :=
  if args.pyLen n = 0 then args.castStop n = args.castStart
  else 0 ≤ args.castStart ∧ args.castStart < args.castStop n ∧ args.castStop n ≤ n ∧
    (args.castStep = 1 ∨ args.castStop n = args.castStart + 1)

namespace SliceArgs

theorem castStart_mem (args : SliceArgs) : InInt64 args.castStart := by
  unfold castStart
  cases args.start with
  | none => decide
  | literal v | captured v => exact CInt.wrap64_mem v
  | var ty bits =>
    rw [Component.cast, Option.getD_some, ← BitVec.toInt_signExtend_of_le ty.width.bits_le]
    exact ⟨BitVec.le_toInt _, BitVec.toInt_lt⟩

theorem castStop_mem (args : SliceArgs) {n : Nat} (hn : n < 2 ^ 63) : InInt64 (args.castStop n) := by
  unfold castStop
  cases args.stop with
  | none =>
    simp only [Component.cast, Option.getD_none, InInt64]
    omega
  | literal v | captured v => exact CInt.wrap64_mem v
  | var ty bits =>
    rw [Component.cast, Option.getD_some, ← BitVec.toInt_signExtend_of_le ty.width.bits_le]
    exact ⟨BitVec.le_toInt _, BitVec.toInt_lt⟩

theorem Accepted.pyStep_eq {args : SliceArgs} (ha : args.Accepted) (hT : 0 < args.castStep) : args.pyStep = args.castStep := by
  by_contra h
  have := ha.castStep_neg (Ne.symm h)
  omega

section
variable {args : SliceArgs} {n : Nat} (ha : args.Accepted) (ht : 0 < args.pyStep)
include ha ht

theorem Accepted.pyFirst_eq (h : 0 ≤ args.castStart) : args.pyFirst n = min args.castStart n := by
  have hneg : ¬ args.pyStep < 0 := by omega
  unfold pyFirst castStart at *
  rcases args.start.value_cast with ⟨hv, hx⟩ | ⟨v, x, hv, hx⟩
  · simp [hv, hx, first, PyRange.lower, hneg]
  · rw [hx, Option.getD_some] at h ⊢
    rw [hv, Component.value_of_cast_nonneg ha.1 hv hx h, first, PyRange.clamp, if_neg (by omega), PyRange.upper, if_neg hneg]

theorem Accepted.pyLast_eq (h : 0 ≤ args.castStop n) : args.pyLast n = min (args.castStop n) n := by
  have hneg : ¬ args.pyStep < 0 := by omega
  unfold pyLast castStop at *
  rcases args.stop.value_cast with ⟨hv, hx⟩ | ⟨v, x, hv, hx⟩
  · simp [hv, hx, last, PyRange.upper, hneg]
  · rw [hx, Option.getD_some] at h ⊢
    rw [hv, Component.value_of_cast_nonneg ha.2.1 hv hx h, last, PyRange.clamp, if_neg (by omega), PyRange.upper, if_neg hneg]

end

theorem extent_eq_zero_iff (args : SliceArgs) {n : Nat} (hn : n < 2 ^ 63) : args.extent n = 0 ↔ args.castStop n = args.castStart := by
  have hS := args.castStart_mem
  have hE := args.castStop_mem hn
  unfold extent
  unfold InInt64 at hS hE
  constructor
  · intro h
    have hd := Int.dvd_of_bmod_eq_zero h
    omega
  · intro h
    rw [h, Int.sub_self]
    rfl

end SliceArgs

theorem tupleForm_extent_iff {n : Nat} {args : SliceArgs} (ha : args.Accepted) (hn : n < 2 ^ 63) (hT : 0 < args.castStep) :
    (args.extent n = args.pyLen n ∧ (0 < args.pyLen n → args.castStart = args.pyFirst n)) ↔ TupleForm n args := by
  have ht := ha.pyStep_eq hT
  have htp : 0 < args.pyStep := by omega
  have hlen : ∀ j : Nat, j < args.pyLen n ↔ args.pyFirst n + j * args.pyStep < args.pyLast n :=
    PyRange.lt_len_iff htp (args.pyFirst n) (args.pyLast n)
  have hS := args.castStart_mem
  have hE := args.castStop_mem hn
  unfold InInt64 at hS hE
  unfold TupleForm
  by_cases hl : args.pyLen n = 0
  · rw [if_pos hl, hl, ← args.extent_eq_zero_iff hn]
    simp
  · rw [if_neg hl]
    constructor
    · intro ⟨hsize, hfirst⟩
      replace hfirst := hfirst (by omega)
      have hin := PyRange.position_mem (n := n) (by omega) args.start.value args.stop.value (j := 0) (show 0 < args.pyLen n by omega)
      change 0 ≤ args.pyFirst n + _ ∧ args.pyFirst n + _ < _ at hin
      simp only [Nat.cast_zero, Int.zero_mul, Int.add_zero, ← hfirst] at hin
      have hle := PyRange.last_le htp n args.stop.value
      change args.pyLast n ≤ n at hle
      have hbelow := (hlen (args.pyLen n - 1)).mp (by omega)
      rw [Nat.cast_sub (by omega), Nat.cast_one, ← hfirst, ht] at hbelow
      have hmul : (args.pyLen n : Int) - 1 ≤ ((args.pyLen n : Int) - 1) * args.castStep := le_mul_of_one_le_right (by omega) hT
      -- A negative stop wraps around to more elements than the dimension has left.
      have hE0 : 0 ≤ args.castStop n := by
        by_contra hneg
        have hmod := Int.bmod_emod (x := args.castStop n - args.castStart) (m := 2 ^ 64)
        unfold SliceArgs.extent wrap64 at hsize
        rw [hsize] at hmod
        omega
      have hd : args.extent n = args.castStop n - args.castStart := CInt.wrap64_eq (by unfold InInt64; omega)
      rw [ha.pyLast_eq htp hE0] at hbelow
      refine ⟨hin.1, by omega, by omega, ?_⟩
      by_contra hc
      have hT2 : 2 ≤ args.castStep := by omega
      have := Int.mul_le_mul_of_nonneg_left hT2 (show 0 ≤ (args.pyLen n : Int) - 1 by omega)
      omega
    · intro ⟨h0, hlt, hle, hone⟩
      have hfirst := ha.pyFirst_eq (n := n) htp h0
      have hlast := ha.pyLast_eq (n := n) htp (by omega)
      have hd : args.extent n = args.castStop n - args.castStart := CInt.wrap64_eq (by unfold InInt64; omega)
      refine ⟨?_, fun _ => by omega⟩
      rw [hfirst, hlast, ht] at hlen
      have hlast := hlen (args.pyLen n)
      have hbelow := (hlen (args.pyLen n - 1)).mp (by omega)
      rw [Nat.cast_sub (by omega), Nat.cast_one] at hbelow
      rcases hone with h1 | h1
      · rw [h1] at hbelow hlast
        omega
      · have hmul : (args.pyLen n : Int) - 1 ≤ ((args.pyLen n : Int) - 1) * args.castStep := le_mul_of_one_le_right (by omega) hT
        omega

theorem tupleDim_selects_iff (a : MemRef) (dim : Nat) {n : Nat} {args : SliceArgs} {s : Slice} (h : lowerArraySlice args = some s)
    (ha : a.extents.getD dim 0 = n) (hn : n < 2 ^ 63) (hT : 0 < args.castStep) :
    Selects n args (itemDim a dim (.slice s)) ↔ TupleForm n args := by
  have hacc := lowerArraySlice_accepted.mpr ⟨s, h⟩
  have ht := hacc.pyStep_eq hT
  rw [selects_iff (by omega), ← tupleForm_extent_iff hacc hn hT]
  unfold itemDim
  simp only [extent_toInt h ha hn, step_toInt h, start_toInt h, ht, imp_true_iff, and_true]

/-! ## Index tuples -/

theorem itemDims_getElem? (a : MemRef) : ∀ (dim : Nat) (items : List Item) (k : Nat),
    (itemDims a dim items)[k]? = items[k]?.map (itemDim a (dim + k))
  | _, [], _ => rfl
  | dim, x :: xs, 0 => rfl
  | dim, x :: xs, k + 1 => by
    simp only [itemDims, List.getElem?_cons_succ, itemDims_getElem? a (dim + 1) xs k]
    rw [Nat.add_right_comm, Nat.add_assoc]

theorem itemError_ne_zero (items : List Item) : ∀ cell : Nat,
    items.foldl itemError cell ≠ 0 ↔ cell ≠ 0 ∨ ∃ s, .slice s ∈ items ∧ s.step.toInt ≤ 0 := by
  induction items with
  | nil => simp
  | cons x xs ih =>
    intro cell
    rw [List.foldl_cons, ih]
    cases x with
    | scalar x => simp [itemError]
    | reversed => simp [itemError]
    | slice s =>
      have hstep : s.step.sle 0 = true ↔ s.step.toInt ≤ 0 := by
        rw [BitVec.sle_iff_toInt_le]; rfl
      by_cases hs : s.step.toInt ≤ 0
      · have : itemError cell (.slice s) ≠ 0 := by
          rw [itemError, if_pos (hstep.mpr hs)]
          by_cases hc : cell = 0
          · rw [hc, setErrorCode_zero]; decide
          · rwa [setErrorCode_of_ne hc]
        simp only [this, ne_eq, not_false_eq_true, true_or, true_iff]
        exact .inr ⟨s, by simp, hs⟩
      · rw [itemError, if_neg (mt hstep.mp hs)]
        simp only [List.mem_cons, Item.slice.injEq]
        constructor
        · rintro (hc | ⟨s', hs', hle⟩)
          · exact .inl hc
          · exact .inr ⟨s', .inr hs', hle⟩
        · rintro (hc | ⟨s', rfl | hs', hle⟩)
          · exact .inl hc
          · exact absurd hle hs
          · exact .inr ⟨s', hs', hle⟩

theorem loadTuple_getElem? : ∀ {xs : List TupleArg} {items : List Item}, loadTuple xs = some items →
    items.length = xs.length ∧
    (∀ (k : Nat) (args : SliceArgs), xs[k]? = some (.slice args) → ∃ s, lowerArraySlice args = some s ∧ items[k]? = some (.slice s)) ∧
    ∀ (k : Nat) (s : Slice), items[k]? = some (.slice s) → ∃ args, xs[k]? = some (.slice args) ∧ lowerArraySlice args = some s
  | [], items, h => by
    cases h
    simp
  | .scalar x :: xs, items, h => by
    simp only [loadTuple, Option.pure_def, Option.bind_eq_bind, Option.bind_eq_some_iff, Option.some.injEq] at h
    obtain ⟨rest, hrest, rfl⟩ := h
    obtain ⟨hlen, hto, hof⟩ := loadTuple_getElem? hrest
    refine ⟨by simp [hlen], ?_, ?_⟩
    · intro k args hk
      cases k with
      | zero => simp at hk
      | succ k => exact hto k args (by simpa using hk)
    · intro k s hk
      cases k with
      | zero => simp at hk
      | succ k => exact hof k s (by simpa using hk)
  | .slice args :: xs, items, h => by
    simp only [loadTuple, Option.pure_def, Option.bind_eq_bind, Option.bind_eq_some_iff, Option.some.injEq] at h
    obtain ⟨s, hs, rest, hrest, rfl⟩ := h
    obtain ⟨hlen, hto, hof⟩ := loadTuple_getElem? hrest
    refine ⟨by simp [hlen], ?_, ?_⟩
    · intro k args' hk
      cases k with
      | zero =>
        simp only [List.getElem?_cons_zero, Option.some.injEq, TupleArg.slice.injEq] at hk
        subst hk
        exact ⟨s, hs, rfl⟩
      | succ k => exact hto k args' (by simpa using hk)
    · intro k s' hk
      cases k with
      | zero =>
        simp only [List.getElem?_cons_zero, Option.some.injEq, Item.slice.injEq] at hk
        subst hk
        exact ⟨args, rfl, hs⟩
      | succ k => exact hof k s' (by simpa using hk)

theorem loadTuple_accepted : ∀ xs : List TupleArg, (∀ args, .slice args ∈ xs → args.Accepted) → ∃ items, loadTuple xs = some items
  | [], _ => ⟨[], rfl⟩
  | .scalar x :: xs, h => by
    obtain ⟨items, hi⟩ := loadTuple_accepted xs fun args ha => h args (by simp [ha])
    exact ⟨.scalar x :: items, by simp [loadTuple, hi]⟩
  | .slice args :: xs, h => by
    obtain ⟨items, hi⟩ := loadTuple_accepted xs fun args ha => h args (by simp [ha])
    obtain ⟨s, hs⟩ := lowerArraySlice_accepted.mp (h args (by simp))
    exact ⟨.slice s :: items, by simp [loadTuple, hi, hs]⟩

/-! ## Both forms -/

def SliceArgs.NonzeroStep (args : SliceArgs) : Prop := args.step.value ≠ some 0

theorem SliceArgs.NonzeroStep.pyStep_ne_zero {args : SliceArgs} (h : args.NonzeroStep) : args.pyStep ≠ 0 := by
  unfold pyStep
  cases hs : args.step.value with
  | none => decide
  | some v =>
    rintro rfl
    exact h hs

theorem extents_getD_lt (a : MemRef) (dim : Nat) : a.extents.getD dim 0 < 2 ^ 63 := by
  rw [List.getD_eq_getElem?_getD]
  cases h : a.extents[dim]? with
  | none => decide
  | some n => exact a.small n (List.mem_of_getElem? h)

/-- `a[start:stop:step]` is rejected or selects Python's elements. -/
def SliceOk (a : MemRef) (args : SliceArgs) : Prop :=
  ∀ dims, getitemSlice a args = some dims → ∃ v, dims[0]? = some v ∧ Selects (a.extents.getD 0 0) args v

/-- The index tuple is rejected, sets the error code or selects Python's
elements with each of its slices. -/
def TupleOk (a : MemRef) (xs : List TupleArg) : Prop :=
  ∀ r, getitemTuple a xs 0 = some r → r.errorCode ≠ 0 ∨
    ∀ k args, xs[k]? = some (.slice args) → ∃ v, r.dims[k]? = some v ∧ Selects (a.extents.getD k 0) args v

theorem sliceOk_iff (a : MemRef) (hr : 0 < a.extents.length) {args : SliceArgs} (hs : args.NonzeroStep) :
    SliceOk a args ↔ (args.Accepted → SliceForm (a.extents.getD 0 0) args) := by
  have hsel : ∀ {s}, lowerArraySlice args = some s → ∃ v rest, getitemSlice a args = some (v :: rest) ∧
      (Selects (a.extents.getD 0 0) args v ↔ SliceForm (a.extents.getD 0 0) args) := by
    intro s h
    have hform := sliceDim_selects_iff a 0 h rfl (extents_getD_lt a 0) hs.pyStep_ne_zero
    unfold getitemSlice lowerArraySliceGetitem
    rw [h, Option.bind_eq_bind, Option.bind_some]
    cases hl : a.extents.length with
    | zero => omega
    | succ r => exact ⟨_, _, rfl, hform⟩
  constructor
  · intro hok hacc
    obtain ⟨s, h⟩ := lowerArraySlice_accepted.mp hacc
    obtain ⟨v, rest, hget, hform⟩ := hsel h
    obtain ⟨w, hw, hselects⟩ := hok _ hget
    cases hw
    exact hform.mp hselects
  · intro hform dims hget
    obtain ⟨s, h, _⟩ := Option.bind_eq_some_iff.mp hget
    obtain ⟨v, rest, hget', hiff⟩ := hsel h
    rw [hget'] at hget
    cases hget
    exact ⟨v, rfl, hiff.mpr (hform (lowerArraySlice_accepted.mpr ⟨s, h⟩))⟩

theorem tupleOk_iff (a : MemRef) {xs : List TupleArg} :
    TupleOk a xs ↔ (xs.length ≤ a.extents.length → (∀ args, .slice args ∈ xs → args.Accepted ∧ 0 < args.castStep) →
      ∀ k args, xs[k]? = some (.slice args) → TupleForm (a.extents.getD k 0) args) := by
  have hsel : ∀ {items k args}, loadTuple xs = some items → xs[k]? = some (.slice args) → 0 < args.castStep →
      ∃ v, (itemDims a 0 items)[k]? = some v ∧
        (Selects (a.extents.getD k 0) args v ↔ TupleForm (a.extents.getD k 0) args) := by
    intro items k args h hk hT
    obtain ⟨s, hs, hi⟩ := (loadTuple_getElem? h).2.1 k args hk
    refine ⟨_, ?_, tupleDim_selects_iff a k hs rfl (extents_getD_lt a k) hT⟩
    rw [itemDims_getElem?, hi, Option.map_some, Nat.zero_add]
  have hdims : ∀ {items : List Item} {k : Nat} {v : DimSlice}, (itemDims a 0 items)[k]? = some v → ∀ rest, (itemDims a 0 items ++ rest)[k]? = some v := by
    intro items k v hk rest
    rw [List.getElem?_append_left (List.getElem?_eq_some_iff.mp hk).1, hk]
  constructor
  · intro hok hlen hacc k args hk
    obtain ⟨items, h⟩ := loadTuple_accepted xs fun args ha => (hacc args ha).1
    have hnot : ¬ a.extents.length < items.length := by
      rw [(loadTuple_getElem? h).1]
      omega
    have hget : getitemTuple a xs 0 = lowerArrayTupleGetitem a items 0 := by
      unfold getitemTuple
      rw [h]; rfl
    rw [lowerArrayTupleGetitem, if_neg hnot] at hget
    obtain ⟨v, hv, hform⟩ := hsel h hk (hacc args (List.mem_of_getElem? hk)).2
    rcases hok _ hget with herr | hall
    · obtain hc | ⟨s, hs, hle⟩ := (itemError_ne_zero items 0).mp herr
      · exact absurd rfl hc
      · obtain ⟨j, hj⟩ := List.getElem?_of_mem hs
        obtain ⟨args', hargs, hlower⟩ := (loadTuple_getElem? h).2.2 j s hj
        rw [step_toInt hlower] at hle
        have := (hacc args' (List.mem_of_getElem? hargs)).2
        omega
    · obtain ⟨w, hw, hselects⟩ := hall k args hk
      rw [hdims hv] at hw
      cases hw
      exact hform.mp hselects
  · intro hform r hget
    obtain ⟨items, h, hget⟩ := Option.bind_eq_some_iff.mp hget
    unfold lowerArrayTupleGetitem at hget
    split at hget
    · cases hget
    · rename_i hnot
      rw [(loadTuple_getElem? h).1] at hnot
      cases hget
      by_cases herr : items.foldl itemError 0 ≠ 0
      · exact .inl herr
      · have hpos : ∀ args, .slice args ∈ xs → args.Accepted ∧ 0 < args.castStep := by
          intro args hmem
          obtain ⟨j, hj⟩ := List.getElem?_of_mem hmem
          obtain ⟨s, hs, hi⟩ := (loadTuple_getElem? h).2.1 j args hj
          refine ⟨lowerArraySlice_accepted.mpr ⟨s, hs⟩, ?_⟩
          by_contra hle
          rw [← step_toInt hs] at hle
          exact herr ((itemError_ne_zero items 0).mpr (.inr ⟨s, List.mem_of_getElem? hi, by omega⟩))
        refine .inr fun k args hk => ?_
        obtain ⟨v, hv, hiff⟩ := hsel h hk (hpos args (List.mem_of_getElem? hk)).2
        exact ⟨v, hdims hv _, hiff.mpr (hform (by omega) hpos k args hk)⟩

/-- **The slices that select Python's elements**, in either form; where both
do, the forms agree. -/
theorem slices_select_iff (a : MemRef) (hr : 0 < a.extents.length) :
    (∀ args : SliceArgs, args.NonzeroStep →
      (SliceOk a args ↔ (args.Accepted → SliceForm (a.extents.getD 0 0) args))) ∧
    (∀ xs : List TupleArg, TupleOk a xs ↔
      (xs.length ≤ a.extents.length → (∀ args, .slice args ∈ xs → args.Accepted ∧ 0 < args.castStep) →
        ∀ k args, xs[k]? = some (.slice args) → TupleForm (a.extents.getD k 0) args)) :=
  ⟨fun _ hs => sliceOk_iff a hr hs, fun _ => tupleOk_iff a⟩

def row5 : MemRef := ⟨⟨0, [5], [1]⟩, rfl, by decide⟩

/-- `a[1:4]` of five elements, alone and in a tuple. -/
theorem slices_select_inner : SliceOk row5 ⟨.literal 1, .literal 4, .none⟩ ∧ TupleOk row5 [.slice ⟨.literal 1, .literal 4, .none⟩] := by
  obtain ⟨hslice, htuple⟩ := slices_select_iff row5 (by decide)
  refine ⟨(hslice _ (by simp [SliceArgs.NonzeroStep, Component.value])).mpr fun _ => ?_, (htuple _).mpr fun _ _ k args hk => ?_⟩
  · unfold SliceForm
    rw [if_neg (by decide), if_pos (by decide)]
    refine ⟨by decide, 3, by unfold MultipleIn; decide, fun m hm => ?_⟩
    have h : MultipleIn 1 3 3 m := hm
    unfold MultipleIn at h
    omega
  · match k with
    | 0 =>
      cases hk
      unfold TupleForm
      decide
    | k + 1 => simp at hk

/-- `a[::2]` has two of its three elements; `a[-2:]` is a view of seven that
starts before the array. -/
theorem slices_unclamped : ¬ SliceOk row5 ⟨.none, .none, .literal 2⟩ ∧ ¬ SliceOk row5 ⟨.literal (-2), .none, .none⟩ ∧
    ¬ TupleOk row5 [.slice ⟨.none, .none, .literal 2⟩] ∧ ¬ TupleOk row5 [.slice ⟨.literal (-2), .none, .none⟩] := by
  refine ⟨fun h => ?_, fun h => ?_, fun h => ?_, fun h => ?_⟩
  · obtain ⟨v, hv, hs⟩ := h _ rfl
    cases hv
    exact absurd hs.size (by decide)
  · obtain ⟨v, hv, hs⟩ := h _ rfl
    cases hv
    exact absurd hs.size (by decide)
  · rcases h _ rfl with herr | hall
    · exact absurd herr (by decide)
    · obtain ⟨v, hv, hs⟩ := hall 0 _ rfl
      cases hv
      exact absurd hs.size (by decide)
  · rcases h _ rfl with herr | hall
    · exact absurd herr (by decide)
    · obtain ⟨v, hv, hs⟩ := hall 0 _ rfl
      cases hv
      exact absurd hs.size (by decide)

end NumbaCudaMlir.Slicing

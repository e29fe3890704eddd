import Mathlib.Algebra.BigOperators.Ring.List
import Mathlib.Data.Finset.Max
import NumbaCudaMlir.Reduction

/-!
# Soundness of reductions

The folds are exact modulo the width of the dtype, and a result of another type is
extended by zeros. `mean` and `var` add to whatever the accumulator held, `len` is
the number of elements, and `min` and `max` of booleans are not built.
-/

namespace NumbaCudaMlir.Reduction

open MachineInt
open NumberTyping (OperandType UnifiedType)
open Dot (Value zero addValue)
open Tensor (indices InShape)

/-! ## Folds -/

section
variable {α : Type}

theorem foldl_add (g : α → Int) (xs : List α) (k : Int) : xs.foldl (fun n a => g a + n) k = k + (xs.map g).sum := by
  induction xs generalizing k with
  | nil => simp
  | cons a xs ih =>
    rw [List.foldl_cons, ih, List.map_cons, List.sum_cons]
    omega

theorem foldl_mul (g : α → Int) (xs : List α) (k : Int) : xs.foldl (fun n a => n * g a) k = k * (xs.map g).prod := by
  induction xs generalizing k with
  | nil => simp
  | cons a xs ih => rw [List.foldl_cons, ih, List.map_cons, List.prod_cons, Int.mul_assoc]

theorem le_foldl_min {g : α → Int} {xs : List α} {k n : Int} : n ≤ xs.foldl (fun m a => min m (g a)) k ↔ n ≤ k ∧ ∀ a ∈ xs, n ≤ g a := by
  induction xs generalizing k with
  | nil => simp
  | cons a xs ih => rw [List.foldl_cons, ih, le_min_iff, List.forall_mem_cons, and_assoc]

theorem foldl_max_le {g : α → Int} {xs : List α} {k n : Int} : xs.foldl (fun m a => max m (g a)) k ≤ n ↔ k ≤ n ∧ ∀ a ∈ xs, g a ≤ n := by
  induction xs generalizing k with
  | nil => simp
  | cons a xs ih => rw [List.foldl_cons, ih, max_le_iff, List.forall_mem_cons, and_assoc]

theorem foldl_or {p : α → Bool} {xs : List α} {b : Bool} : xs.foldl (fun b a => b || p a) b = true ↔ b = true ∨ ∃ a ∈ xs, p a = true := by
  induction xs generalizing b with
  | nil => simp
  | cons a xs ih => rw [List.foldl_cons, ih, Bool.or_eq_true, List.exists_mem_cons_iff, or_assoc]

theorem foldl_and {p : α → Bool} {xs : List α} {b : Bool} : xs.foldl (fun b a => b && p a) b = true ↔ b = true ∧ ∀ a ∈ xs, p a = true := by
  induction xs generalizing b with
  | nil => simp
  | cons a xs ih => rw [List.foldl_cons, ih, Bool.and_eq_true, List.forall_mem_cons, and_assoc]

theorem foldl_injective {β : Type} {step : β → α → β} (h : ∀ a, Function.Injective (step · a)) (xs : List α) :
    Function.Injective (xs.foldl step) := by
  induction xs with
  | nil => exact Function.injective_id
  | cons a xs ih =>
    intro x y hxy
    exact h a (ih hxy)

end

/-! ## Results -/

theorem StandsFor.unique {target : UnifiedType} {n : Int} {x y : Value target} (hx : StandsFor target n x) (hy : StandsFor target n y) :
    x = y := by
  cases target with
  | boolean => exact Eq.trans hx hy.symm
  | integer ty => exact Eq.trans hx hy.symm
  | float64 => exact Eq.trans hx hy.symm

theorem standsFor_unified (dtype : OperandType) {n : Int} {x : BitVec dtype.width} :
    StandsFor dtype.unified n (convertTo dtype.unified x) ↔ x = BitVec.ofInt dtype.width n := by
  cases dtype with
  | boolean =>
    have hself : convertInteger none 1 x = x := convertInteger_self none x
    exact Eq.congr_left hself
  | integer ty =>
    have hself : convertInteger none ty.bits x = x := convertInteger_self none x
    exact Eq.congr_left hself

theorem standsFor_wider {ty : IntType} {w : Nat} (hw : w ≤ ty.bits) {n : Int} :
    StandsFor (.integer ty) n (convertTo (.integer ty) (BitVec.ofInt w n)) ↔ n % 2 ^ ty.bits < 2 ^ w := by
  have hone : ty.bits ≠ 1 := ty.width.one_lt_bits.ne'
  have hpos : (0 : Int) < 2 ^ w := by positivity
  have hlow := Int.emod_nonneg n hpos.ne'
  have hhigh := Int.emod_lt_of_pos n hpos
  have hle : (2 : Int) ^ w ≤ 2 ^ ty.bits := pow_le_pow_right₀ (by decide) hw
  have hmod : n % 2 ^ ty.bits % 2 ^ w = n % 2 ^ w := Int.emod_emod_of_dvd n (two_pow_dvd_iff.mpr hw)
  have hconv : convertInteger none ty.bits (BitVec.ofInt w n) = BitVec.ofInt ty.bits (n % 2 ^ w) := by
    rw [convertInteger_eq (.inl hone), decide_eq_false (by simp), value_unsigned, BitVec.toNat_ofInt]
    push_cast
    rw [Int.toNat_of_nonneg hlow]
  have hsame : BitVec.ofInt ty.bits (n % 2 ^ w) = BitVec.ofInt ty.bits n ↔ n % 2 ^ ty.bits = n % 2 ^ w := by
    rw [ofInt_eq_ofInt_iff, Int.dvd_iff_emod_eq_zero, ← Int.emod_eq_emod_iff_emod_sub_eq_zero,
      Int.emod_eq_of_lt hlow (hhigh.trans_le hle), eq_comm]
  show convertInteger none ty.bits (BitVec.ofInt w n) = BitVec.ofInt ty.bits n ↔ _
  rw [hconv, hsame]
  constructor
  · intro h
    rw [h]
    exact hhigh
  · intro h
    rw [← hmod, Int.emod_eq_of_lt (Int.emod_nonneg n (by positivity)) h]

/-! ## Elements -/

section
variable (c : Call)

theorem mem_positions {is : List Nat} : is ∈ c.positions ↔ InShape is c.sizes := by rw [Call.positions, List.mem_toFinset, Tensor.mem_indices]

theorem mem_indices_iff {is : List Nat} : is ∈ indices c.sizes ↔ is ∈ c.positions := List.mem_toFinset.symm

theorem sum_positions : ∑ is ∈ c.positions, c.element is = ((indices c.sizes).map c.element).sum :=
  List.sum_toFinset _ (Tensor.nodup_indices _)

theorem prod_positions : ∏ is ∈ c.positions, c.element is = ((indices c.sizes).map c.element).prod :=
  List.prod_toFinset _ (Tensor.nodup_indices _)

variable {c} (m : c.Memory)

theorem valueTensor_eq (is : List Nat) : c.valueTensor m is = BitVec.ofInt c.dtype.width (c.element is) := (ofInt_value _ _).symm

theorem value_valueTensor (is : List Nat) : value c.dtype.signed (c.valueTensor m is) = c.element is := rfl

theorem reduce_sum : linalgReduce c.sizes (c.valueTensor m) (BitVec.ofNat c.dtype.width 0) (fun outArg inArg => outArg + inArg) =
    BitVec.ofInt c.dtype.width (∑ is ∈ c.positions, c.element is) := by
  have hzero : BitVec.ofNat c.dtype.width 0 = BitVec.ofInt c.dtype.width 0 := by simp
  have hfold : (indices c.sizes).foldl (fun acc is => c.valueTensor m is + acc) (BitVec.ofInt c.dtype.width 0) =
      BitVec.ofInt c.dtype.width ((indices c.sizes).foldl (fun n is => c.element is + n) 0) :=
    List.foldl_hom _ fun n is => by rw [valueTensor_eq, BitVec.ofInt_add]
  rw [linalgReduce, hzero, hfold, foldl_add, Int.zero_add, sum_positions]

theorem reduce_prod : linalgReduce c.sizes (c.valueTensor m) (BitVec.ofNat c.dtype.width 1) (fun inArg outArg => outArg * inArg) =
    BitVec.ofInt c.dtype.width (∏ is ∈ c.positions, c.element is) := by
  have hone : BitVec.ofNat c.dtype.width 1 = BitVec.ofInt c.dtype.width 1 := (BitVec.ofInt_natCast _ 1).symm
  have hfold : (indices c.sizes).foldl (fun acc is => acc * c.valueTensor m is) (BitVec.ofInt c.dtype.width 1) =
      BitVec.ofInt c.dtype.width ((indices c.sizes).foldl (fun n is => n * c.element is) 1) :=
    List.foldl_hom _ fun n is => by rw [valueTensor_eq, BitVec.ofInt_mul]
  rw [linalgReduce, hone, hfold, foldl_mul, Int.one_mul, prod_positions]

end

/-! ## Extrema -/

section
variable {c : Call} (m : c.Memory)

theorem value_minCombiner (dtype : OperandType) (x y : BitVec dtype.width) :
    value dtype.signed (minCombiner dtype x y) = min (value dtype.signed x) (value dtype.signed y) := by
  have hle : (if dtype.signed then x.sle y else x.ule y) = decide (value dtype.signed x ≤ value dtype.signed y) := by
    cases dtype.signed with
    | true => rfl
    | false => simp [BitVec.ule]
  rw [minCombiner, hle]
  by_cases h : value dtype.signed x ≤ value dtype.signed y
  · simp [h]
  · simp [h, Int.le_of_not_le h]

theorem value_maxCombiner (dtype : OperandType) (x y : BitVec dtype.width) :
    value dtype.signed (maxCombiner dtype x y) = max (value dtype.signed x) (value dtype.signed y) := by
  have hle : (if dtype.signed then y.sle x else y.ule x) = decide (value dtype.signed y ≤ value dtype.signed x) := by
    cases dtype.signed with
    | true => rfl
    | false => simp [BitVec.ule]
  rw [maxCombiner, hle]
  by_cases h : value dtype.signed y ≤ value dtype.signed x
  · simp [h]
  · simp [h, Int.le_of_not_le h]

theorem minInitValue_greatest {ty : IntType} (x : BitVec ty.bits) :
    value ty.signed x ≤ value ty.signed (BitVec.ofInt ty.bits (if ty.signed then 2 ^ (ty.bits - 1) - 1 else -1)) := by
  have hpos : 0 < ty.bits := ty.width.bits_pos
  have hx := value_inRange hpos ty.signed x
  cases hs : ty.signed with
  | true =>
    rw [hs, inRange_signed] at hx
    have hinit : value true (BitVec.ofInt ty.bits (2 ^ (ty.bits - 1) - 1)) = 2 ^ (ty.bits - 1) - 1 := by
      have hp : (0 : Int) < 2 ^ (ty.bits - 1) := by positivity
      rw [value_ofInt_iff hpos, inRange_signed]
      omega
    rw [if_pos rfl, hinit]
    omega
  | false =>
    rw [hs, inRange_unsigned] at hx
    have hinit : value false (BitVec.ofInt ty.bits (-1)) = 2 ^ ty.bits - 1 := by
      have hp : (0 : Int) < 2 ^ ty.bits := by positivity
      have hones : BitVec.ofInt ty.bits (-1) = BitVec.ofInt ty.bits (2 ^ ty.bits - 1) := by
        rw [← ofInt_sub_two_pow ty.bits (2 ^ ty.bits - 1)]
        congr 1
        omega
      rw [hones, value_ofInt_iff hpos, inRange_unsigned]
      omega
    rw [if_neg (by decide), hinit]
    omega

theorem maxInitValue_least {ty : IntType} (x : BitVec ty.bits) :
    value ty.signed (BitVec.ofInt ty.bits (if ty.signed then -2 ^ (ty.bits - 1) else 0)) ≤ value ty.signed x := by
  have hpos : 0 < ty.bits := ty.width.bits_pos
  have hx := value_inRange hpos ty.signed x
  cases hs : ty.signed with
  | true =>
    rw [hs, inRange_signed] at hx
    have hinit : value true (BitVec.ofInt ty.bits (-2 ^ (ty.bits - 1))) = -2 ^ (ty.bits - 1) := by
      have hp : (0 : Int) < 2 ^ (ty.bits - 1) := by positivity
      rw [value_ofInt_iff hpos, inRange_signed]
      omega
    rw [if_pos rfl, hinit]
    exact hx.1
  | false =>
    rw [hs, inRange_unsigned] at hx
    have hinit : value false (BitVec.ofInt ty.bits 0) = 0 := by
      have hp : (0 : Int) < 2 ^ ty.bits := by positivity
      rw [value_ofInt_iff hpos, inRange_unsigned]
      omega
    rw [if_neg (by decide), hinit]
    exact hx.1

theorem reduce_min {init : BitVec c.dtype.width} (hinit : ∀ x : BitVec c.dtype.width, value c.dtype.signed x ≤ value c.dtype.signed init)
    {n : Int} (hmem : ∃ is ∈ c.positions, c.element is = n) (hle : ∀ is ∈ c.positions, n ≤ c.element is) :
    linalgReduce c.sizes (c.valueTensor m) init (fun inArg outArg => minCombiner c.dtype outArg inArg) = BitVec.ofInt c.dtype.width n := by
  obtain ⟨js, hjs, rfl⟩ := hmem
  have hfold : value c.dtype.signed (linalgReduce c.sizes (c.valueTensor m) init fun inArg outArg => minCombiner c.dtype outArg inArg) =
      (indices c.sizes).foldl (fun k is => min k (c.element is)) (value c.dtype.signed init) :=
    (List.foldl_hom (value c.dtype.signed) fun x is => (value_minCombiner c.dtype x (c.valueTensor m is)).symm).symm
  have hleast := le_foldl_min.mpr ⟨hinit (c.valueTensor m js), fun is his => hle is ((mem_indices_iff c).mp his)⟩
  have hbelow := (le_foldl_min.mp (Int.le_refl ((indices c.sizes).foldl (fun k is => min k (c.element is)) (value c.dtype.signed init)))).2
    js ((mem_indices_iff c).mpr hjs)
  rw [← ofInt_value c.dtype.signed (linalgReduce _ _ _ _), hfold]
  exact congrArg _ (Int.le_antisymm hbelow hleast)

theorem reduce_max {init : BitVec c.dtype.width} (hinit : ∀ x : BitVec c.dtype.width, value c.dtype.signed init ≤ value c.dtype.signed x)
    {n : Int} (hmem : ∃ is ∈ c.positions, c.element is = n) (hle : ∀ is ∈ c.positions, c.element is ≤ n) :
    linalgReduce c.sizes (c.valueTensor m) init (fun inArg outArg => maxCombiner c.dtype outArg inArg) = BitVec.ofInt c.dtype.width n := by
  obtain ⟨js, hjs, rfl⟩ := hmem
  have hfold : value c.dtype.signed (linalgReduce c.sizes (c.valueTensor m) init fun inArg outArg => maxCombiner c.dtype outArg inArg) =
      (indices c.sizes).foldl (fun k is => max k (c.element is)) (value c.dtype.signed init) :=
    (List.foldl_hom (value c.dtype.signed) fun x is => (value_maxCombiner c.dtype x (c.valueTensor m is)).symm).symm
  have hgreatest := foldl_max_le.mpr ⟨hinit (c.valueTensor m js), fun is his => hle is ((mem_indices_iff c).mp his)⟩
  have habove := (foldl_max_le.mp (Int.le_refl ((indices c.sizes).foldl (fun k is => max k (c.element is)) (value c.dtype.signed init)))).2
    js ((mem_indices_iff c).mpr hjs)
  rw [← ofInt_value c.dtype.signed (linalgReduce _ _ _ _), hfold]
  exact congrArg _ (Int.le_antisymm hgreatest habove)

end

/-! ## Truth values -/

section
variable {c : Call} (m : c.Memory)

theorem element_ne_zero (is : List Nat) : (c.valueTensor m is != 0) = decide (c.element is ≠ 0) := by
  have hpos : 0 < c.dtype.width := by
    cases c.dtype with
    | boolean => decide
    | integer ty => exact ty.width.bits_pos
  have hzero : c.valueTensor m is = 0 ↔ c.element is = 0 := by
    rw [← value_valueTensor m, value_eq_iff hpos]
    have hrange : InRange c.dtype.signed c.dtype.width 0 := by
      have h := value_inRange hpos c.dtype.signed (0 : BitVec c.dtype.width)
      simpa [value] using h
    simp [hrange]
  rw [Bool.eq_iff_iff, bne_iff_ne, decide_eq_true_iff, Ne, hzero]

theorem ofBool_eq_ofInt (b : Bool) : BitVec.ofBool b = BitVec.ofInt 1 b.toNat := by cases b <;> rfl

theorem lowerAny_eq {b : Bool} (hb : b = true ↔ ∃ is ∈ c.positions, c.element is ≠ 0) : lowerAny c m = BitVec.ofInt 1 b.toNat := by
  have hfold : (indices c.sizes).foldl (fun b is => b || decide (c.element is ≠ 0)) false = b := by
    rw [Bool.eq_iff_iff, foldl_or, hb]
    simp [mem_indices_iff]
  rw [← ofBool_eq_ofInt, ← hfold]
  show (indices c.sizes).foldl (fun acc is => acc ||| BitVec.ofBool (c.valueTensor m is != 0)) (BitVec.ofBool false) = _
  refine List.foldl_hom BitVec.ofBool fun b is => ?_
  rw [element_ne_zero]
  cases b <;> cases decide (c.element is ≠ 0) <;> rfl

theorem lowerAll_eq {b : Bool} (hb : b = true ↔ ∀ is ∈ c.positions, c.element is ≠ 0) : lowerAll c m = BitVec.ofInt 1 b.toNat := by
  have hfold : (indices c.sizes).foldl (fun b is => b && decide (c.element is ≠ 0)) true = b := by
    rw [Bool.eq_iff_iff, foldl_and, hb]
    simp [mem_indices_iff]
  rw [← ofBool_eq_ofInt, ← hfold]
  show (indices c.sizes).foldl (fun acc is => acc &&& BitVec.ofBool (c.valueTensor m is != 0)) (BitVec.ofBool true) = _
  refine List.foldl_hom BitVec.ofBool fun b is => ?_
  rw [element_ne_zero]
  cases b <;> cases decide (c.element is ≠ 0) <;> rfl

end

/-! ## Numbers of elements -/

theorem foldl_extents (ns : List Nat) (k : Nat) :
    ns.foldl (fun product n => product * BitVec.ofNat 64 n) (BitVec.ofNat 64 k) = BitVec.ofNat 64 (k * ns.prod) := by
  induction ns generalizing k with
  | nil => simp
  | cons n ns ih => rw [List.foldl_cons, ← BitVec.ofNat_mul, ih, List.prod_cons, Nat.mul_assoc]

theorem ofNat_eq_ofInt_iff {k n : Nat} (hk : k < 2 ^ 63) (hn : n < 2 ^ 63) : BitVec.ofNat 64 k = BitVec.ofInt 64 n ↔ k = n := by
  rw [BitVec.ofInt_natCast, ← BitVec.toNat_inj, BitVec.toNat_ofNat, BitVec.toNat_ofNat, Nat.mod_eq_of_lt (by omega), Nat.mod_eq_of_lt (by omega)]

/-! ## Accumulators that were not written to -/

theorem addValue_injective (ty : UnifiedType) (hty : ty ≠ .float64) (x : Value ty) : Function.Injective fun acc => addValue ty acc x := by
  intro a b hab
  cases ty with
  | boolean => exact (BitVec.add_left_inj x).mp hab
  | integer ty => exact (BitVec.add_left_inj x).mp hab
  | float64 => exact absurd rfl hty

theorem foldl_nan {α : Type} (f : α → BinaryFloat.Value) (xs : List α) :
    xs.foldl (fun acc a => addValue .float64 acc (f a)) (BinaryFloat.Value.nan : Value .float64) = BinaryFloat.Value.nan := by
  induction xs with
  | nil => rfl
  | cons a xs ih => exact ih

theorem not_standsFor_foldl {α : Type} (target : UnifiedType) (f : α → Value target) (xs : List α) (n : Int) :
    ¬∀ acc, StandsFor target n (xs.foldl (fun acc a => addValue target acc (f a)) acc) := by
  intro h
  cases target with
  | boolean =>
    have heq := foldl_injective (fun a => addValue_injective .boolean (by decide) (f a)) xs ((h 0#1).unique (h 1#1))
    have hne : (0#1 : BitVec 1) ≠ 1#1 := by decide
    exact hne heq
  | integer ty =>
    have heq := foldl_injective (fun a => addValue_injective (.integer ty) (fun h => by cases h) (f a)) xs
      ((h (BitVec.ofNat ty.bits 0)).unique (h (BitVec.ofNat ty.bits 1)))
    have hone : (1 : Nat) < 2 ^ ty.bits := Nat.one_lt_two_pow ty.width.bits_pos.ne'
    have htoNat := congrArg BitVec.toNat heq
    rw [BitVec.toNat_ofNat, BitVec.toNat_ofNat, Nat.mod_eq_of_lt hone, Nat.zero_mod] at htoNat
    exact absurd htoNat (by decide)
  | float64 =>
    have hnan := h BinaryFloat.Value.nan
    rw [foldl_nan f xs] at hnan
    cases hnan

/-! ## Calls -/

/-- Where the fold is what NumPy says, for every initial content of memory. -/
def Call.Right (c : Call) : Prop :=
  match c.fn with
  | .sum | .any | .all => True
  | .prod => c.target = c.dtype.unified ∨ (∏ is ∈ c.positions, c.element is) % 2 ^ 64 < 2 ^ c.dtype.width
  | .min | .max => c.dtype ≠ .boolean ∨ 0 ∈ c.sizes
  | .len => ∀ first rest, c.sizes = first :: rest → first = 0 ∨ rest.prod = 1
  | .mean | .var => False

def Call.zeroed (c : Call) : c.Memory := ⟨fun _ => 0, zero c.target, zero c.target⟩

section
variable {dtype : OperandType} {target : UnifiedType} {sizes : List Nat} {extent_lt : ∀ n ∈ sizes, n < 2 ^ 63} {size_lt : sizes.prod < 2 ^ 63}
  {array : List Nat → BitVec (storageBits dtype)}

theorem sum_meets (returns : Fn.sum.Returns dtype target) : Meets ⟨.sum, dtype, target, returns, sizes, extent_lt, size_lt, array⟩ := by
  obtain rfl : target = dtype.unified := returns
  rintro m n rfl
  exact ⟨_, rfl, (standsFor_unified _).mpr (reduce_sum m)⟩

theorem bits_expandInteger (dtype : OperandType) : (expandInteger dtype).bits = 64 := by
  cases dtype with
  | boolean => rfl
  | integer ty =>
    show (if ty.signed then NumberTyping.int64 else NumberTyping.uint64).bits = 64
    cases ty.signed <;> rfl

theorem width_le (dtype : OperandType) : dtype.width ≤ 64 := by
  cases dtype with
  | boolean => decide
  | integer ty => exact ty.width.bits_le

theorem prod_meets_iff (returns : Fn.prod.Returns dtype target) :
    let c : Call := ⟨.prod, dtype, target, returns, sizes, extent_lt, size_lt, array⟩
    Meets c ↔ c.Right := by
  intro c
  have hmeets : Meets c ↔ StandsFor target (∏ is ∈ c.positions, c.element is)
      (convertTo target (BitVec.ofInt dtype.width (∏ is ∈ c.positions, c.element is))) := by
    have hlower : ∀ m, lower c m = some (.scalar (convertTo target (BitVec.ofInt dtype.width (∏ is ∈ c.positions, c.element is)))) :=
      fun m => congrArg (fun x => some (Outcome.scalar (convertTo target x))) (reduce_prod m)
    constructor
    · intro h
      obtain ⟨o, ho, hgives⟩ := h c.zeroed _ rfl
      obtain rfl := Option.some.inj ((hlower _).symm.trans ho)
      exact hgives
    · rintro h m n rfl
      exact ⟨_, hlower m, h⟩
  rw [hmeets]
  show _ ↔ target = dtype.unified ∨ (∏ is ∈ c.positions, c.element is) % 2 ^ 64 < 2 ^ dtype.width
  by_cases hsame : target = dtype.unified
  · subst hsame
    exact iff_of_true ((standsFor_unified _).mpr rfl) (.inl rfl)
  · obtain rfl := returns.resolve_left hsame
    have h64 := bits_expandInteger dtype
    rw [standsFor_wider (by rw [h64]; exact width_le dtype), h64, or_iff_right hsame]

theorem exists_extremum {c : Call} (h : 0 ∉ c.sizes) : (∃ n, (∃ is ∈ c.positions, c.element is = n) ∧ ∀ is ∈ c.positions, n ≤ c.element is) ∧
    ∃ n, (∃ is ∈ c.positions, c.element is = n) ∧ ∀ is ∈ c.positions, c.element is ≤ n := by
  have hne : c.positions.Nonempty := ⟨_, (mem_positions c).mpr (Tensor.last_inShape h)⟩
  obtain ⟨least, hl, hle⟩ := Finset.exists_min_image c.positions c.element hne
  obtain ⟨greatest, hg, hge⟩ := Finset.exists_max_image c.positions c.element hne
  exact ⟨⟨_, ⟨least, hl, rfl⟩, hle⟩, ⟨_, ⟨greatest, hg, rfl⟩, hge⟩⟩

theorem min_meets_iff (returns : Fn.min.Returns dtype target) :
    let c : Call := ⟨.min, dtype, target, returns, sizes, extent_lt, size_lt, array⟩
    Meets c ↔ c.Right := by
  intro c
  obtain rfl : target = dtype.unified := returns
  show _ ↔ dtype ≠ .boolean ∨ 0 ∈ sizes
  cases dtype with
  | integer ty =>
    refine iff_of_true ?_ (.inl OperandType.noConfusion)
    rintro m n ⟨hmem, hle⟩
    exact ⟨_, rfl, (standsFor_unified (.integer ty)).mpr (reduce_min m minInitValue_greatest hmem hle)⟩
  | boolean =>
    rw [or_iff_right (not_not.mpr rfl)]
    constructor
    · intro h
      by_contra h0
      obtain ⟨n, hn⟩ := (exists_extremum (c := c) h0).1
      obtain ⟨o, ho, -⟩ := h c.zeroed n hn
      cases ho
    · rintro h0 m n ⟨⟨is, his, -⟩, -⟩
      exact absurd h0 ((mem_positions c).mp his).pos

theorem max_meets_iff (returns : Fn.max.Returns dtype target) :
    let c : Call := ⟨.max, dtype, target, returns, sizes, extent_lt, size_lt, array⟩
    Meets c ↔ c.Right := by
  intro c
  obtain rfl : target = dtype.unified := returns
  show _ ↔ dtype ≠ .boolean ∨ 0 ∈ sizes
  cases dtype with
  | integer ty =>
    refine iff_of_true ?_ (.inl OperandType.noConfusion)
    rintro m n ⟨hmem, hle⟩
    exact ⟨_, rfl, (standsFor_unified (.integer ty)).mpr (reduce_max m maxInitValue_least hmem hle)⟩
  | boolean =>
    rw [or_iff_right (not_not.mpr rfl)]
    constructor
    · intro h
      by_contra h0
      obtain ⟨n, hn⟩ := (exists_extremum (c := c) h0).2
      obtain ⟨o, ho, -⟩ := h c.zeroed n hn
      cases ho
    · rintro h0 m n ⟨⟨is, his, -⟩, -⟩
      exact absurd h0 ((mem_positions c).mp his).pos

theorem any_meets (returns : Fn.any.Returns dtype target) : Meets ⟨.any, dtype, target, returns, sizes, extent_lt, size_lt, array⟩ := by
  obtain rfl : target = .boolean := returns
  rintro m n ⟨b, rfl, hb⟩
  exact ⟨_, rfl, lowerAny_eq m hb⟩

theorem all_meets (returns : Fn.all.Returns dtype target) : Meets ⟨.all, dtype, target, returns, sizes, extent_lt, size_lt, array⟩ := by
  obtain rfl : target = .boolean := returns
  rintro m n ⟨b, rfl, hb⟩
  exact ⟨_, rfl, lowerAll_eq m hb⟩

theorem len_meets_iff (returns : Fn.len.Returns dtype target) :
    let c : Call := ⟨.len, dtype, target, returns, sizes, extent_lt, size_lt, array⟩
    Meets c ↔ c.Right := by
  intro c
  obtain rfl : target = .integer NumberTyping.int64 := returns
  have hlen : lowerLen c = BitVec.ofNat 64 sizes.prod := by
    have hfold := foldl_extents sizes 1
    rw [Nat.one_mul] at hfold
    exact (BitVec.setWidth_eq _).trans hfold
  have hright : ∀ first rest, sizes = first :: rest →
      (lowerLen c = BitVec.ofInt 64 first ↔ first = 0 ∨ rest.prod = 1) := by
    rintro first rest rfl
    have hprod : BitVec.ofNat 64 (first :: rest).prod = BitVec.ofInt 64 first ↔ first = 0 ∨ rest.prod = 1 := by
      rw [ofNat_eq_ofInt_iff size_lt (extent_lt first List.mem_cons_self), List.prod_cons, mul_right_eq_self₀, or_comm]
    exact (Eq.congr_left hlen).trans hprod
  constructor
  · rintro h first rest hsizes
    obtain ⟨o, ho, hgives⟩ := h c.zeroed first ⟨first, rest, hsizes, rfl⟩
    obtain rfl := Option.some.inj ho
    exact (hright first rest hsizes).mp hgives
  · rintro h m n ⟨first, rest, hsizes, rfl⟩
    exact ⟨_, rfl, (hright first rest hsizes).mpr (h first rest hsizes)⟩

theorem not_meets_of_statistic {c : Call} {result : c.Memory → Option (Statistic c.target)} (hlower : ∀ m, lower c m = (result m).map .statistic)
    (hsummed : ∀ m s, result m = some s → s.summed = lowerSummed c m) (hdenotes : c.Denotes (∑ is ∈ c.positions, c.element is)) : ¬Meets c := by
  intro h
  refine not_standsFor_foldl c.target (fun is => convertTo c.target (storageToValue c.dtype (c.array is))) (indices c.sizes)
    (∑ is ∈ c.positions, c.element is) fun acc => ?_
  obtain ⟨o, ho, hgives⟩ := h { c.zeroed with accumulator := acc } _ hdenotes
  rw [hlower] at ho
  obtain ⟨s, hs, rfl⟩ := Option.map_eq_some_iff.mp ho
  have hsum : StandsFor c.target (∑ is ∈ c.positions, c.element is) s.summed := hgives.1
  rw [hsummed _ s hs] at hsum
  exact hsum

theorem mean_not_meets (returns : Fn.mean.Returns dtype target) : ¬Meets ⟨.mean, dtype, target, returns, sizes, extent_lt, size_lt, array⟩ := by
  refine not_meets_of_statistic (fun m => rfl) (fun m s hs => ?_) rfl
  obtain ⟨_, _, hs⟩ := Option.bind_eq_some_iff.mp hs
  cases hs
  rfl

theorem var_not_meets (returns : Fn.var.Returns dtype target) : ¬Meets ⟨.var, dtype, target, returns, sizes, extent_lt, size_lt, array⟩ := by
  refine not_meets_of_statistic (fun m => rfl) (fun m s hs => ?_) rfl
  obtain ⟨_, _, hs⟩ := Option.bind_eq_some_iff.mp hs
  cases hs
  rfl

end

/-- A call gives NumPy's fold, whatever memory held, exactly where it is right. -/
theorem reduction_meets_iff (c : Call) : Meets c ↔ c.Right := by
  obtain ⟨fn, dtype, target, returns, sizes, extent_lt, size_lt, array⟩ := c
  cases fn with
  | sum => exact iff_of_true (sum_meets returns) trivial
  | prod => exact prod_meets_iff returns
  | min => exact min_meets_iff returns
  | max => exact max_meets_iff returns
  | any => exact iff_of_true (any_meets returns) trivial
  | all => exact iff_of_true (all_meets returns) trivial
  | len => exact len_meets_iff returns
  | mean => exact iff_of_false (mean_not_meets returns) id
  | var => exact iff_of_false (var_not_meets returns) id

/-- The length of a matrix, a mean, the minimum of booleans and a product of `int8` in `int64`. -/
theorem reductions_fail :
    let int8 : OperandType := .integer ⟨true, .w8⟩
    let length : Call := ⟨.len, int8, .integer NumberTyping.int64, rfl, [2, 3], by decide, by decide, fun _ => 1#8⟩
    let mean : Call := ⟨.mean, int8, .float64, .inr rfl, [2], by decide, by decide, fun _ => 1#8⟩
    let minimum : Call := ⟨.min, .boolean, .boolean, rfl, [1], by decide, by decide, fun _ => 1#8⟩
    let product : Call := ⟨.prod, int8, .integer NumberTyping.int64, .inr rfl, [1], by decide, by decide, fun _ => 255#8⟩
    ¬Meets length ∧ ¬Meets mean ∧ ¬Meets minimum ∧ ¬Meets product := by
  intro int8 length mean minimum product
  refine ⟨fun h => ?_, mean_not_meets _, fun h => ?_, fun h => ?_⟩
  · exact absurd ((len_meets_iff _).mp h 2 [3] rfl) (by decide)
  · have hright : OperandType.boolean ≠ .boolean ∨ 0 ∈ [1] := (min_meets_iff _).mp h
    exact absurd hright (by decide)
  · have hright : (.integer NumberTyping.int64 : UnifiedType) = int8.unified ∨ (-1 : Int) % 2 ^ 64 < 2 ^ 8 := (prod_meets_iff _).mp h
    exact absurd hright (by decide)

end NumbaCudaMlir.Reduction

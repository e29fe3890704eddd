import Mathlib.Tactic.Linarith
import NumbaCudaMlir.IntEnum

/-!
# Where members behave like their values

A member that is compared with an integer is truncated to the integer's width and
compared signed. It is right for all integers of a type where the member is one of
them and the type is signed, and at the far ends where nothing is on the other side.
-/

namespace NumbaCudaMlir.IntEnum

open MachineInt NumberTyping

/-! ## Types of members -/

theorem bitLength_lt_iff {v : Int} {k : Nat} (hk : 1 < k) : bitLength v < k ↔ -2 ^ (k - 1) ≤ v ∧ v < 2 ^ (k - 1) := by
  have hsize : ∀ n : Nat, max 1 n.size < k ↔ n < 2 ^ (k - 1) := fun n => by
    rw [← Nat.size_le]
    omega
  have hcast : (2 : Int) ^ (k - 1) = ((2 ^ (k - 1) : Nat) : Int) := by push_cast; rfl
  rw [bitLength, hsize, hcast]
  split_ifs <;> omega

theorem typeofInt_iff {v : Int} {ty : IntType} :
    typeofInt v = some ty ↔ ty = int64 ∧ -2 ^ 63 ≤ v ∧ v < 2 ^ 63 ∨ ty = uint64 ∧ 2 ^ 63 ≤ v ∧ v < 2 ^ 64 := by
  have h32 := bitLength_lt_iff (v := v) (k := 32) (by decide)
  have h64 := bitLength_lt_iff (v := v) (k := 64) (by decide)
  have h65 := bitLength_lt_iff (v := v) (k := 65) (by decide)
  have hne : (int64 : IntType) ≠ uint64 := by decide
  unfold typeofInt
  simp only [Nat.reduceSub] at h32 h64 h65
  split_ifs with h1 h2 h3
  · have := h64.mp (by omega)
    simp only [Option.some.injEq]
    constructor
    · rintro rfl
      exact .inl ⟨rfl, this⟩
    · rintro (⟨rfl, -⟩ | ⟨-, h, -⟩)
      · rfl
      · omega
  · have := h64.mp h2
    simp only [Option.some.injEq]
    constructor
    · rintro rfl
      exact .inl ⟨rfl, this⟩
    · rintro (⟨rfl, -⟩ | ⟨-, h, -⟩)
      · rfl
      · omega
  · have hhigh := h65.mp (by omega)
    have hlow : ¬ (-2 ^ 63 ≤ v ∧ v < 2 ^ 63) := fun h => h2 (h64.mpr h)
    simp only [Option.some.injEq]
    constructor
    · rintro rfl
      exact .inr ⟨rfl, by omega, hhigh.2⟩
    · rintro (⟨-, h⟩ | ⟨rfl, -⟩)
      · exact absurd h hlow
      · rfl
  · have hlow : ¬ (-2 ^ 63 ≤ v ∧ v < 2 ^ 63) := fun h => h2 (h64.mpr h)
    have hhigh : ¬ (2 ^ 63 ≤ v ∧ v < 2 ^ 64) := fun h => h3 ⟨by have := h65.mpr (by omega); omega, by omega⟩
    simp only [false_iff, not_or, not_and]
    exact ⟨fun _ h h' => hlow ⟨h, h'⟩, fun _ h h' => hhigh ⟨h, h'⟩⟩

theorem Member.typed (m : Member) :
    m.cls.dtype = int64 ∧ -2 ^ 63 ≤ m.value ∧ m.value < 2 ^ 63 ∨ m.cls.dtype = uint64 ∧ 2 ^ 63 ≤ m.value ∧ m.value < 2 ^ 64 :=
  typeofInt_iff.mp (m.cls.typed m.value m.mem)

theorem Member.dtype_bits (m : Member) : m.cls.dtype.bits = 64 := by
  rcases m.typed with ⟨h, -⟩ | ⟨h, -⟩ <;> rw [h] <;> rfl

theorem Member.bounds (m : Member) : -2 ^ 63 ≤ m.value ∧ m.value < 2 ^ 64 := by
  rcases m.typed with ⟨-, h⟩ | ⟨-, h⟩ <;> omega

/-! ## Conversions -/

theorem convert_member (m : Member) (w : Width) :
    convertInteger none w.bits (Operand.member m).bits = BitVec.ofInt w.bits m.value := by
  have hle : w.bits ≤ m.cls.dtype.bits := m.dtype_bits ▸ w.bits_le
  have hone : w.bits ≠ 1 := (Nat.ne_of_lt w.one_lt_bits).symm
  rw [convertInteger_eq (.inl hone), ofInt_eq_ofInt_iff]
  have hdvd : (2 : Int) ^ m.cls.dtype.bits ∣ MachineInt.value false (BitVec.ofInt m.cls.dtype.bits m.value) - m.value := by
    rw [← ofInt_eq_ofInt_iff, ofInt_value]
  exact (two_pow_dvd_iff.mpr hle).trans hdvd

/-! ## Ordered comparisons -/

theorem toInt_bounds {w : Nat} (hw : 0 < w) (x : BitVec w) : -2 ^ (w - 1) ≤ x.toInt ∧ x.toInt < 2 ^ (w - 1) :=
  inRange_signed.mp (value_inRange hw true x)

theorem exists_toInt {w : Nat} (hw : 0 < w) {n : Int} (hl : -2 ^ (w - 1) ≤ n) (hu : n < 2 ^ (w - 1)) :
    ∃ x : BitVec w, x.toInt = n ∧ ((0 ≤ n ∧ (x.toNat : Int) = n) ∨ (n < 0 ∧ (x.toNat : Int) = n + 2 ^ w)) := by
  refine ⟨BitVec.ofInt w n, (value_ofInt_iff hw true n).mpr ⟨hl, hu⟩, ?_⟩
  have hx := (value_ofInt_iff hw true n).mpr ⟨hl, hu⟩
  rw [value_signed] at hx
  rcases toInt_cases (BitVec.ofInt w n) with ⟨h, he⟩ | ⟨h, he⟩
  · exact .inl ⟨by omega, by omega⟩
  · exact .inr ⟨by omega, by omega⟩

theorem truncated_cases (signed : Bool) (w : Nat) (e : Int) :
    e = value signed (BitVec.ofInt w e) ∨ value signed (BitVec.ofInt w e) + 2 ^ w ≤ e ∨ e + 2 ^ w ≤ value signed (BitVec.ofInt w e) := by
  have h : (2 : Int) ^ w ∣ e - value signed (BitVec.ofInt w e) := by
    rw [← ofInt_eq_ofInt_iff, ofInt_value]
  obtain ⟨k, hk⟩ := h
  have hpos : (0 : Int) < 2 ^ w := by positivity
  rcases lt_trichotomy k 0 with hneg | rfl | hk0
  · have := Int.mul_le_mul_of_nonneg_left (show k ≤ -1 by omega) hpos.le
    right; right
    linarith
  · left
    linarith
  · have := Int.mul_le_mul_of_nonneg_left (show 1 ≤ k by omega) hpos.le
    right; left
    linarith

theorem truncated_least_iff {w : Nat} (hw : 0 < w) (e : Int) :
    (2 : Int) ^ w ∣ e + 2 ^ (w - 1) ↔ (BitVec.ofInt w e).toInt = -2 ^ (w - 1) := by
  have hpos : (0 : Int) < 2 ^ (w - 1) := by positivity
  have h : ((BitVec.ofInt w e).toInt = -2 ^ (w - 1)) ↔ BitVec.ofInt w e = BitVec.ofInt w (-2 ^ (w - 1)) := by
    have : value true (BitVec.ofInt w e) = -2 ^ (w - 1) ↔ _ := value_eq_iff hw
    rw [inRange_signed] at this
    rw [← value_signed, this]
    exact and_iff_left ⟨le_refl _, by omega⟩
  rw [h, ofInt_eq_ofInt_iff, sub_neg_eq_add]

theorem truncated_greatest_iff {w : Nat} (hw : 0 < w) (e : Int) :
    (2 : Int) ^ w ∣ e + 1 - 2 ^ (w - 1) ↔ (BitVec.ofInt w e).toInt = 2 ^ (w - 1) - 1 := by
  have hpos : (0 : Int) < 2 ^ (w - 1) := by positivity
  have h : ((BitVec.ofInt w e).toInt = 2 ^ (w - 1) - 1) ↔ BitVec.ofInt w e = BitVec.ofInt w (2 ^ (w - 1) - 1) := by
    have : value true (BitVec.ofInt w e) = 2 ^ (w - 1) - 1 ↔ _ := value_eq_iff hw
    rw [inRange_signed] at this
    rw [← value_signed, this]
    exact and_iff_left ⟨by omega, by omega⟩
  rw [h, ofInt_eq_ofInt_iff]
  have heq : e + 1 - 2 ^ (w - 1) = e - (2 ^ (w - 1) - 1) := by ring
  rw [heq]

theorem below_iff {w : Nat} (hw : 0 < w) (signed : Bool) (e : Int) :
    (∀ x : BitVec w, x.toInt < (BitVec.ofInt w e).toInt ↔ value signed x < e) ↔
      signed = true ∧ InRange true w e ∨ e ≤ (if signed then -2 ^ (w - 1) else 0) ∧ (2 : Int) ^ w ∣ e + 2 ^ (w - 1) := by
  have h2 := two_pow_pred hw
  have hpos : (0 : Int) < 2 ^ (w - 1) := by positivity
  have hself := toInt_bounds hw (BitVec.ofInt w e)
  rw [truncated_least_iff hw]
  obtain ⟨least, hleast, hleastNat⟩ := exists_toInt hw (show -2 ^ (w - 1) ≤ -(2 : Int) ^ (w - 1) from le_refl _) (by omega)
  obtain ⟨zero, hzero, hzeroNat⟩ := exists_toInt hw (show -2 ^ (w - 1) ≤ (0 : Int) by omega) hpos
  have hcases := truncated_cases signed w e
  constructor
  · intro h
    have hat := h (BitVec.ofInt w e)
    have hatLeast := h least
    have hatZero := h zero
    have hrange := inRange_signed (w := w) (n := e)
    cases hs : signed with
    | true =>
      simp only [hs, value_signed, if_true, true_and] at hat hatLeast hcases ⊢
      rw [hrange]
      omega
    | false =>
      simp only [hs, value_unsigned, Bool.false_eq_true, if_false, false_and, false_or] at hat hatLeast hatZero hcases ⊢
      have hsplit := toInt_cases (BitVec.ofInt w e)
      have hlt := (BitVec.ofInt w e).isLt
      have hcast : ((2 ^ w : Nat) : Int) = 2 ^ w := by push_cast; rfl
      omega
  · rintro (⟨hs, hr⟩ | ⟨hlow, hleast'⟩) x
    · rw [hs, value_signed]
      have he : (BitVec.ofInt w e).toInt = e := (value_ofInt_iff hw true e).mpr hr
      rw [he]
    · have hx := toInt_bounds hw x
      rw [hleast']
      refine iff_of_false (by omega) ?_
      cases hs : signed with
      | true =>
        rw [hs, if_pos rfl] at hlow
        rw [value_signed]
        omega
      | false =>
        rw [hs, if_neg (by decide)] at hlow
        rw [value_unsigned]
        omega

theorem above_iff {w : Nat} (hw : 0 < w) (signed : Bool) (e : Int) :
    (∀ x : BitVec w, (BitVec.ofInt w e).toInt < x.toInt ↔ e < value signed x) ↔
      signed = true ∧ InRange true w e ∨
        (if signed then 2 ^ (w - 1) - 1 else 2 ^ w - 1) ≤ e ∧ (2 : Int) ^ w ∣ e + 1 - 2 ^ (w - 1) := by
  have h2 := two_pow_pred hw
  have hpos : (0 : Int) < 2 ^ (w - 1) := by positivity
  have hself := toInt_bounds hw (BitVec.ofInt w e)
  rw [truncated_greatest_iff hw]
  obtain ⟨most, hmost, hmostNat⟩ := exists_toInt hw (show -2 ^ (w - 1) ≤ (2 : Int) ^ (w - 1) - 1 by omega) (by omega)
  obtain ⟨zero, hzero, hzeroNat⟩ := exists_toInt hw (show -2 ^ (w - 1) ≤ (0 : Int) by omega) hpos
  obtain ⟨ones, hones, honesNat⟩ := exists_toInt hw (show -2 ^ (w - 1) ≤ (-1 : Int) by omega) (by omega)
  have hcases := truncated_cases signed w e
  constructor
  · intro h
    have hat := h (BitVec.ofInt w e)
    have hatMost := h most
    have hatZero := h zero
    have hatOnes := h ones
    have hrange := inRange_signed (w := w) (n := e)
    cases hs : signed with
    | true =>
      simp only [hs, value_signed, if_true, true_and] at hat hatMost hcases ⊢
      rw [hrange]
      omega
    | false =>
      simp only [hs, value_unsigned, Bool.false_eq_true, if_false, false_and, false_or] at hat hatMost hatZero hatOnes hcases ⊢
      have hsplit := toInt_cases (BitVec.ofInt w e)
      have hlt := (BitVec.ofInt w e).isLt
      have hcast : ((2 ^ w : Nat) : Int) = 2 ^ w := by push_cast; rfl
      omega
  · rintro (⟨hs, hr⟩ | ⟨hhigh, hmost'⟩) x
    · rw [hs, value_signed]
      have he : (BitVec.ofInt w e).toInt = e := (value_ofInt_iff hw true e).mpr hr
      rw [he]
    · have hx := toInt_bounds hw x
      rw [hmost']
      refine iff_of_false (by omega) ?_
      cases hs : signed with
      | true =>
        rw [hs, if_pos rfl] at hhigh
        rw [value_signed]
        omega
      | false =>
        have hlt := x.isLt
        have hcast : ((2 ^ w : Nat) : Int) = 2 ^ w := by push_cast; rfl
        rw [hs, if_neg (by decide)] at hhigh
        rw [value_unsigned]
        omega

/-! ## The operators -/

theorem lower_right {op : Op} (ty : IntType) (x : BitVec ty.bits) (m : Member) (hop : op ≠ .eq ∧ op ≠ .ne) :
    lower op (.integer ty x) (.member m) = some (apply op ⟨ty.bits, x, BitVec.ofInt ty.bits m.value⟩) := by
  have hconvert : intEnumMixedValues (.integer ty x) (.member m) = ⟨ty.bits, x, BitVec.ofInt ty.bits m.value⟩ :=
    congrArg (Converted.mk ty.bits x) (convert_member m ty.width)
  rw [← hconvert]
  cases op with
  | eq => exact absurd rfl hop.1
  | ne => exact absurd rfl hop.2
  | lt | le | gt | ge | add | sub => rfl

theorem lower_left {op : Op} (m : Member) (ty : IntType) (x : BitVec ty.bits) (hop : op ≠ .eq ∧ op ≠ .ne) :
    lower op (.member m) (.integer ty x) = some (apply op ⟨ty.bits, BitVec.ofInt ty.bits m.value, x⟩) := by
  have hconvert : intEnumMixedValues (.member m) (.integer ty x) = ⟨ty.bits, BitVec.ofInt ty.bits m.value, x⟩ :=
    congrArg (fun y => Converted.mk ty.bits y x) (convert_member m ty.width)
  rw [← hconvert]
  cases op with
  | eq => exact absurd rfl hop.1
  | ne => exact absurd rfl hop.2
  | lt | le | gt | ge | add | sub => rfl

def Resolves64 (found : Option Signature) : Prop := ∃ sig r, found = some sig ∧ sig.returnType = .integer r ∧ r.bits = 64

theorem resolves64_of_mem {found : Option Signature}
    (h : found.map (·.returnType) ∈ [some (.integer int64), some (.integer uint64)]) : Resolves64 found := by
  cases found with
  | none => simp at h
  | some sig =>
    simp only [Option.map_some, List.mem_cons, Option.some.injEq, List.not_mem_nil, or_false] at h
    rcases h with h | h
    · exact ⟨sig, int64, rfl, h, rfl⟩
    · exact ⟨sig, uint64, rfl, h, rfl⟩

theorem resolve_bits {op : Op} (hop : op = .add ∨ op = .sub) {d : IntType} (hd : d = int64 ∨ d = uint64) (ty : IntType) :
    Resolves64 (resolve op (true, d) (false, ty)) ∧ Resolves64 (resolve op (false, ty) (true, d)) := by
  obtain ⟨signed, width⟩ := ty
  have hcompute : ∀ op ∈ [Op.add, Op.sub], ∀ d ∈ [int64, uint64], ∀ signed : Bool, ∀ width ∈ [Width.w8, .w16, .w32, .w64],
      (resolve op (true, d) (false, ⟨signed, width⟩)).map (·.returnType) ∈ [some (.integer int64), some (.integer uint64)] ∧
      (resolve op (false, ⟨signed, width⟩) (true, d)).map (·.returnType) ∈ [some (.integer int64), some (.integer uint64)] := by
    decide
  have hwidth : width ∈ [Width.w8, .w16, .w32, .w64] := by cases width <;> decide
  have hop' : op ∈ [Op.add, Op.sub] := by rcases hop with rfl | rfl <;> decide
  have hd' : d ∈ [int64, uint64] := by rcases hd with rfl | rfl <;> decide
  have h := hcompute op hop' d hd' signed width hwidth
  exact ⟨resolves64_of_mem h.1, resolves64_of_mem h.2⟩

theorem boolean_iff {b c : Bool} : Result.boolean b = .boolean c ↔ (b = true ↔ c = true) := by
  rw [Result.boolean.injEq, Bool.eq_iff_iff]

section
variable {w : Nat} (x y : BitVec w) (a b : Int)

theorem apply_lt : apply .lt ⟨w, x, y⟩ = .boolean (exactCompare .lt a b) ↔ (x.toInt < y.toInt ↔ a < b) := by
  change Result.boolean (x.slt y) = .boolean (decide (a < b)) ↔ _
  rw [boolean_iff, BitVec.slt_iff_toInt_lt, decide_eq_true_iff]

theorem apply_gt : apply .gt ⟨w, x, y⟩ = .boolean (exactCompare .gt a b) ↔ (y.toInt < x.toInt ↔ b < a) := by
  change Result.boolean (y.slt x) = .boolean (decide (b < a)) ↔ _
  rw [boolean_iff, BitVec.slt_iff_toInt_lt, decide_eq_true_iff]

theorem apply_le : apply .le ⟨w, x, y⟩ = .boolean (exactCompare .le a b) ↔ (y.toInt < x.toInt ↔ b < a) := by
  change Result.boolean (!y.slt x) = .boolean (decide (a ≤ b)) ↔ _
  rw [boolean_iff, Bool.not_eq_true', ← Bool.not_eq_true, BitVec.slt_iff_toInt_lt, decide_eq_true_iff, ← not_lt, not_iff_not]

theorem apply_ge : apply .ge ⟨w, x, y⟩ = .boolean (exactCompare .ge a b) ↔ (x.toInt < y.toInt ↔ a < b) := by
  change Result.boolean (!x.slt y) = .boolean (decide (b ≤ a)) ↔ _
  rw [boolean_iff, Bool.not_eq_true', ← Bool.not_eq_true, BitVec.slt_iff_toInt_lt, decide_eq_true_iff, ← not_lt, not_iff_not]

end

theorem gives_iff_apply {op : Op} {lhs rhs : Operand} {c : Converted} (hop : op = .lt ∨ op = .le ∨ op = .gt ∨ op = .ge)
    (h : lower op lhs rhs = some (apply op c)) : Gives op lhs rhs ↔ apply op c = .boolean (exactCompare op lhs.value rhs.value) := by
  have hgives : Gives op lhs rhs ↔ lower op lhs rhs = some (.boolean (exactCompare op lhs.value rhs.value)) := by
    rcases hop with rfl | rfl | rfl | rfl <;> rfl
  rw [hgives, h, Option.some.injEq]

theorem meets_right_ordered {op : Op} (ty : IntType) (m : Member) (hop : op = .lt ∨ op = .le ∨ op = .gt ∨ op = .ge) :
    Meets op (.right ty m) ↔ Right op (.right ty m) := by
  have hbelow := below_iff ty.width.bits_pos ty.signed m.value
  have habove := above_iff ty.width.bits_pos ty.signed m.value
  have hgives := fun x => gives_iff_apply hop (lower_right ty x m (by rcases hop with rfl | rfl | rfl | rfl <;> decide))
  refine (forall_congr' hgives).trans ?_
  rcases hop with rfl | rfl | rfl | rfl
  · exact (forall_congr' fun x => apply_lt x _ _ _).trans hbelow
  · exact (forall_congr' fun x => apply_le x _ _ _).trans habove
  · exact (forall_congr' fun x => apply_gt x _ _ _).trans habove
  · exact (forall_congr' fun x => apply_ge x _ _ _).trans hbelow

theorem meets_left_ordered {op : Op} (m : Member) (ty : IntType) (hop : op = .lt ∨ op = .le ∨ op = .gt ∨ op = .ge) :
    Meets op (.left m ty) ↔ Right op (.left m ty) := by
  have hbelow := below_iff ty.width.bits_pos ty.signed m.value
  have habove := above_iff ty.width.bits_pos ty.signed m.value
  have hgives := fun x => gives_iff_apply hop (lower_left m ty x (by rcases hop with rfl | rfl | rfl | rfl <;> decide))
  refine (forall_congr' hgives).trans ?_
  rcases hop with rfl | rfl | rfl | rfl
  · exact (forall_congr' fun x => apply_lt _ x _ _).trans habove
  · exact (forall_congr' fun x => apply_le _ x _ _).trans hbelow
  · exact (forall_congr' fun x => apply_gt _ x _ _).trans hbelow
  · exact (forall_congr' fun x => apply_ge _ x _ _).trans habove

/-! ## Sums, differences and equality -/

theorem member_dtype (m : Member) : m.cls.dtype = int64 ∨ m.cls.dtype = uint64 := m.typed.imp And.left And.left

theorem integer_inj {v w : Nat} {x : BitVec v} {y : BitVec w} (h : Result.integer v x = .integer w y) : v = w := by
  cases h
  rfl

theorem gives_arith_iff {op : Op} (hop : op = .add ∨ op = .sub) {lhs rhs : Operand} {ty : IntType}
    (hresolve : Resolves64 (resolve op (lhs.isMember, lhs.ty) (rhs.isMember, rhs.ty)))
    (hlower : lower op lhs rhs = some (.integer ty.bits (BitVec.ofInt ty.bits (exactArith op lhs.value rhs.value)))) :
    Gives op lhs rhs ↔ ty.bits = 64 := by
  obtain ⟨sig, r, hres, hret, hr⟩ := hresolve
  have hgives : Gives op lhs rhs ↔ ∃ sig ty, resolve op (lhs.isMember, lhs.ty) (rhs.isMember, rhs.ty) = some sig ∧
      sig.returnType = .integer ty ∧
      lower op lhs rhs = some (.integer ty.bits (BitVec.ofInt ty.bits (exactArith op lhs.value rhs.value))) := by
    rcases hop with rfl | rfl <;> rfl
  rw [hgives]
  constructor
  · rintro ⟨sig', r', h1, h2, h3⟩
    rw [hres, Option.some.injEq] at h1
    rw [← h1, hret, NumberType.integer.injEq] at h2
    rw [hlower, Option.some.injEq] at h3
    exact (integer_inj h3).trans (h2 ▸ hr)
  · intro h64
    have hwidth : ty.bits = r.bits := h64.trans hr.symm
    exact ⟨sig, r, hres, hret, by rw [hlower, hwidth]⟩

theorem apply_arith {op : Op} (hop : op = .add ∨ op = .sub) (w : Nat) (a b : Int) :
    apply op ⟨w, BitVec.ofInt w a, BitVec.ofInt w b⟩ = .integer w (BitVec.ofInt w (exactArith op a b)) := by
  rcases hop with rfl | rfl
  · exact congrArg (Result.integer w) (BitVec.ofInt_add a b).symm
  · refine congrArg (Result.integer w) ?_
    change _ = BitVec.ofInt w (a - b)
    rw [BitVec.sub_eq_add_neg, ← BitVec.ofInt_neg, ← BitVec.ofInt_add, Int.sub_eq_add_neg]

theorem ne_of_arith {op : Op} (hop : op = .add ∨ op = .sub) : op ≠ .eq ∧ op ≠ .ne := by
  rcases hop with rfl | rfl <;> decide

theorem meets_right_arith {op : Op} (ty : IntType) (m : Member) (hop : op = .add ∨ op = .sub) :
    Meets op (.right ty m) ↔ Right op (.right ty m) := by
  have hgives : ∀ x : BitVec ty.bits, Gives op (.integer ty x) (.member m) ↔ ty.bits = 64 := fun x => by
    refine gives_arith_iff hop (resolve_bits hop (member_dtype m) ty).2 ?_
    rw [lower_right ty x m (ne_of_arith hop), ← apply_arith hop]
    simp only [Operand.value, ofInt_value]
  have hright : Right op (.right ty m) ↔ ty.bits = 64 := by rcases hop with rfl | rfl <;> rfl
  rw [hright]
  exact ⟨fun h => (hgives 0).mp (h 0), fun h x => (hgives x).mpr h⟩

theorem meets_left_arith {op : Op} (m : Member) (ty : IntType) (hop : op = .add ∨ op = .sub) :
    Meets op (.left m ty) ↔ Right op (.left m ty) := by
  have hgives : ∀ x : BitVec ty.bits, Gives op (.member m) (.integer ty x) ↔ ty.bits = 64 := fun x => by
    refine gives_arith_iff hop (resolve_bits hop (member_dtype m) ty).1 ?_
    rw [lower_left m ty x (ne_of_arith hop), ← apply_arith hop]
    simp only [Operand.value, ofInt_value]
  have hright : Right op (.left m ty) ↔ ty.bits = 64 := by rcases hop with rfl | rfl <;> rfl
  rw [hright]
  exact ⟨fun h => (hgives 0).mp (h 0), fun h x => (hgives x).mpr h⟩

theorem lower_members {op : Op} (m n : Member) (hop : op = .eq ∨ op = .ne) :
    lower op (.member m) (.member n) =
      some (apply op ⟨n.cls.dtype.bits, BitVec.ofInt n.cls.dtype.bits m.value, BitVec.ofInt n.cls.dtype.bits n.value⟩) := by
  have hconvert : memberValues (.member m) (.member n) =
      ⟨n.cls.dtype.bits, BitVec.ofInt n.cls.dtype.bits m.value, BitVec.ofInt n.cls.dtype.bits n.value⟩ :=
    congrArg (fun y => Converted.mk n.cls.dtype.bits y (BitVec.ofInt n.cls.dtype.bits n.value)) (convert_member m n.cls.dtype.width)
  rw [← hconvert]
  rcases hop with rfl | rfl <;> rfl

theorem low_bits_eq_iff (m n : Member) :
    (BitVec.ofInt n.cls.dtype.bits m.value = BitVec.ofInt n.cls.dtype.bits n.value ↔ m.value = n.value) ↔
      m.value ≠ n.value + 2 ^ 64 ∧ n.value ≠ m.value + 2 ^ 64 := by
  have hm := m.bounds
  have hn := n.bounds
  rw [ofInt_eq_ofInt_iff, n.dtype_bits]
  omega

theorem meets_members_eq (m n : Member) (op : Op) (hop : op = .eq ∨ op = .ne) :
    Meets op (.members m n) ↔ Right op (.members m n) := by
  have hlower := lower_members m n hop
  have hright : Right op (.members m n) ↔ m.value ≠ n.value + 2 ^ 64 ∧ n.value ≠ m.value + 2 ^ 64 := by
    rw [Right, and_iff_right hop]
  have hgives : Meets op (.members m n) ↔
      lower op (.member m) (.member n) = some (.boolean (exactCompare op m.value n.value)) := by
    rcases hop with rfl | rfl <;> rfl
  rw [hright, ← low_bits_eq_iff, hgives, hlower, Option.some.injEq]
  rcases hop with rfl | rfl
  · change Result.boolean (decide _) = .boolean (decide (m.value = n.value)) ↔ _
    rw [boolean_iff, decide_eq_true_iff, decide_eq_true_iff]
  · change Result.boolean (decide (¬ _)) = .boolean (decide (¬ m.value = n.value)) ↔ _
    rw [boolean_iff, decide_eq_true_iff, decide_eq_true_iff, not_iff_not]

/-! ## Operators without a lowering -/

theorem not_gives_of_none {op : Op} {lhs rhs : Operand} (h : registered op lhs rhs = false) : ¬ Gives op lhs rhs := by
  have hnone : lower op lhs rhs = none := by unfold lower; rw [h]; rfl
  cases op with
  | eq | ne | lt | le | gt | ge =>
    intro hg
    have hg' : lower _ lhs rhs = some _ := hg
    rw [hnone] at hg'
    cases hg'
  | add | sub =>
    rintro ⟨sig, ty, -, -, hg⟩
    rw [hnone] at hg
    cases hg

theorem op_cases (op : Op) : (op = .eq ∨ op = .ne) ∨ (op = .lt ∨ op = .le ∨ op = .gt ∨ op = .ge) ∨ op = .add ∨ op = .sub := by
  cases op <;> decide

theorem registered_members {op : Op} (m n : Member) (hop : ¬ (op = .eq ∨ op = .ne)) :
    registered op (.member m) (.member n) = false := by
  cases op with
  | eq | ne => simp at hop
  | lt | le | gt | ge | add | sub => rfl

theorem registered_mixed {op : Op} {lhs rhs : Operand} (hop : op = .eq ∨ op = .ne) (h : (lhs.isMember && rhs.isMember) = false) :
    registered op lhs rhs = false := by
  rcases hop with rfl | rfl <;> exact h

theorem meets_iff (op : Op) (operands : Operands) : Meets op operands ↔ Right op operands := by
  cases operands with
  | members m n =>
    by_cases hop : op = .eq ∨ op = .ne
    · exact meets_members_eq m n op hop
    · exact iff_of_false (not_gives_of_none (registered_members m n hop)) fun h => hop h.1
  | right ty m =>
    rcases op_cases op with hop | hop | hop
    · refine iff_of_false (fun h => not_gives_of_none (registered_mixed hop rfl) (h 0)) ?_
      rcases hop with rfl | rfl <;> exact id
    · exact meets_right_ordered ty m hop
    · exact meets_right_arith ty m hop
  | left m ty =>
    rcases op_cases op with hop | hop | hop
    · refine iff_of_false (fun h => not_gives_of_none (registered_mixed hop rfl) (h 0)) ?_
      rcases hop with rfl | rfl <;> exact id
    · exact meets_left_ordered m ty hop
    · exact meets_left_arith m ty hop

/-- `int` and `float` are not typed; a number class's lowerings are registered under the class, not where it is looked up. -/
theorem enumToNumber_none (callee : Callee) (m : Member) : enumToNumber callee m = none := by
  cases callee with
  | int => rfl
  | float => rfl
  | numberClass ty => rfl

theorem not_converts (callee : Callee) (m : Member) : ¬ Converts callee m := by
  intro h
  unfold Converts at h
  split at h <;> simp [enumToNumber_none] at h

/-- Members behave like their values in exactly these operations and in no constructor. -/
theorem intEnum_meets_iff (op : Op) (operands : Operands) :
    (Meets op operands ↔ Right op operands) ∧ ∀ callee m, ¬ Converts callee m :=
  ⟨meets_iff op operands, not_converts⟩

/-! ## A comparison that is wrong -/

/-- One member, of value `2 ^ 32`. -/
def largeClass : IntEnumClass where
  values := [2 ^ 32]
  dtype := int64
  typed := by decide

def largeMember : Member := ⟨largeClass, 2 ^ 32, by decide⟩

/-- `1 > E.large` with an `int32` is true. -/
theorem one_gt_large : lower .gt (.integer ⟨true, .w32⟩ 1) (.member largeMember) = some (.boolean true) ∧
    exactCompare .gt 1 largeMember.value = false ∧ ¬ Meets .gt (.right ⟨true, .w32⟩ largeMember) := by
  refine ⟨by rfl, by decide, fun h => ?_⟩
  have hgives : lower .gt (.integer ⟨true, .w32⟩ 1) (.member largeMember) = some (.boolean false) := h 1
  exact absurd (hgives.symm.trans (by rfl : lower .gt (.integer ⟨true, .w32⟩ 1) (.member largeMember) = some (.boolean true))) (by simp)

end NumbaCudaMlir.IntEnum

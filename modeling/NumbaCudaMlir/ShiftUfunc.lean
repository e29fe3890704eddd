import NumbaCudaMlir.IntegerArithSound

/-!
# Shifts of NumPy

`np.left_shift` and `np.right_shift` compute in the type of the ufunc's loop, the first
to which both operands are cast without loss. A count out of range is clamped and its
result replaced.
-/

namespace NumbaCudaMlir

namespace Ufunc

open MachineInt NumberTyping IntegerArith

/-! ## Loops -/

def canCastSafe : OperandType → OperandType → Bool
  | .boolean, _ => true
  | .integer _, .boolean => false
  | .integer a, .integer b =>
    if a.signed = b.signed then a.bits ≤ b.bits else !a.signed && a.bits < b.bits

/-- The integer loops of a ufunc, in the order of its `types`. -/
def integerLoops : List IntType :=
  [Width.w8, .w16, .w32, .w64, .w64].flatMap fun w => [⟨true, w⟩, ⟨false, w⟩]

def findMatchingLoop (loops : List IntType) (a b : OperandType) : Option IntType :=
  loops.find? fun t => canCastSafe a (.integer t) && canCastSafe b (.integer t)

theorem canCastSafe_of_find {loops : List IntType} {a b : OperandType} {t : IntType}
    (h : findMatchingLoop loops a b = some t) : canCastSafe a (.integer t) = true ∧ canCastSafe b (.integer t) = true := by
  have := List.find?_some h
  rwa [Bool.and_eq_true] at this

theorem findMatchingLoop_eq_none_iff (a b : IntType) :
    findMatchingLoop integerLoops (.integer a) (.integer b) = none ↔
      a = uint64 ∧ b.signed = true ∨ a.signed = true ∧ b = uint64 := by
  obtain ⟨s, w⟩ := a
  obtain ⟨s', w'⟩ := b
  revert s w s' w'
  have hall : ∀ s ∈ [true, false], ∀ w ∈ [Width.w8, .w16, .w32, .w64], ∀ s' ∈ [true, false], ∀ w' ∈ [Width.w8, .w16, .w32, .w64],
      findMatchingLoop integerLoops (.integer ⟨s, w⟩) (.integer ⟨s', w'⟩) = none ↔
        (⟨s, w⟩ : IntType) = uint64 ∧ s' = true ∨ s = true ∧ (⟨s', w'⟩ : IntType) = uint64 := by decide
  intro s w s' w'
  exact hall s (by cases s <;> simp) w (by cases w <;> simp) s' (by cases s' <;> simp) w' (by cases w' <;> simp)

theorem canCastSafe_integer (a : OperandType) (t : IntType) : canCastSafe a (.integer t) = fits a t := by
  cases a with
  | boolean => rfl
  | integer a => by_cases h : a.signed = t.signed <;> simp [canCastSafe, fits, h]

theorem value_of_canCastSafe {x : Operand} {t : IntType} (h : canCastSafe x.ty (.integer t) = true) :
    MachineInt.value t.signed (convertOperand x t.bits) = x.value :=
  value_convertOperand (by rwa [canCastSafe_integer] at h)

/-! ## Lowering -/

def minui {w : Nat} (x y : BitVec w) : BitVec w := if x.ult y then x else y

/-- `_shift_fn`, of a loop in a type of the given sign. -/
def shiftFn (left signed : Bool) {w : Nat} (a n : BitVec w) : Option (BitVec w) :=
  let inRange := n.ult (BitVec.ofNat w w)
  let count := minui n (BitVec.ofNat w (w - 1))
  if signed && !left then ArithOps.shrsi a count
  else do
    let shifted ← if left then ArithOps.shli a count else ArithOps.shrui a count
    some (if inRange then shifted else 0#w)

def shiftOp (left : Bool) (loop outType : IntType) (a b : Operand) : Except Failure Operand := do
  let shifted ← defined (shiftFn left loop.signed (convertOperand a loop.bits) (convertOperand b loop.bits))
  .ok ⟨.integer outType, convertInteger (some loop.signed) outType.bits shifted⟩

/-- Of two scalar integers; typing gives the target the loop's type. -/
def shiftScalar (left : Bool) (a b : Operand) : Except Failure Operand :=
  match a.ty, b.ty with
  | .integer _, .integer _ =>
    match findMatchingLoop integerLoops a.ty b.ty with
    | some loop => shiftOp left loop loop a b
    | none => .error .typingError
  | _, _ => .error .notImplemented

/-- An element of an output array: of two scalars or of two arrays' elements. -/
def shiftToArray (left : Bool) (outType : IntType) (a b : Operand) : Except Failure Operand :=
  match findMatchingLoop integerLoops a.ty b.ty with
  | some loop => shiftOp left loop outType a b
  | none => .error .typingError

/-! ## What NumPy computes -/

/-- `npy_lshift` and `npy_rshift`, of `w` bits. -/
def npyShift (left : Bool) (w : Nat) (a n : Int) : Int :=
  if 0 ≤ n ∧ n < w then if left then a * 2 ^ n.toNat else a.fdiv (2 ^ n.toNat)
  else if left then 0 else if a < 0 then -1 else 0

/-- The result in the loop's type, cast to the type of the output. -/
def npyResult (left : Bool) (loop outType : IntType) (a b : Operand) : Operand :=
  ⟨.integer outType, BitVec.ofInt outType.bits
    (MachineInt.value loop.signed (BitVec.ofInt loop.bits (npyShift left loop.bits a.value b.value)))⟩

/-! ## Agreement -/

theorem width_lt_two_pow {w : Nat} (hw : 0 < w) : (w : Int) ≤ 2 ^ (w - 1) := by
  have : w - 1 < 2 ^ (w - 1) := Nat.lt_two_pow_self
  exact_mod_cast (show w ≤ 2 ^ (w - 1) by omega)

theorem count_inRange_iff (signed : Bool) {w : Nat} (hw : 0 < w) (n : BitVec w) :
    (0 ≤ value signed n ∧ value signed n < w) ↔ n.toNat < w := by
  have hle := width_lt_two_pow hw
  have h2 := two_pow_pred hw
  have hlt := n.isLt
  have hcast : ((2 ^ w : Nat) : Int) = 2 ^ w := by push_cast; rfl
  cases signed with
  | false =>
    rw [value_unsigned]
    omega
  | true =>
    have hr : -2 ^ (w - 1) ≤ n.toInt ∧ n.toInt < 2 ^ (w - 1) := value_inRange hw true n
    rw [value_signed]
    rcases toInt_cases n with ⟨h0, h⟩ | ⟨h0, h⟩ <;> omega

theorem value_of_lt (signed : Bool) {w : Nat} (hw : 0 < w) {n : BitVec w} (h : n.toNat < w) : value signed n = n.toNat := by
  have hr := (count_inRange_iff signed hw n).mpr h
  cases signed with
  | false => rfl
  | true =>
    rcases toInt_cases n with ⟨-, hn⟩ | ⟨hneg, -⟩
    · exact hn
    · exact absurd hr.1 (by rw [value_signed]; omega)

theorem toNat_ofNat_of_le {w v : Nat} (h : v ≤ w) : (BitVec.ofNat w v).toNat = v := by
  rw [BitVec.toNat_ofNat, Nat.mod_eq_of_lt (h.trans_lt Nat.lt_two_pow_self)]

theorem toNat_count {w : Nat} (n : BitVec w) :
    (minui n (BitVec.ofNat w (w - 1))).toNat = if n.toNat < w then n.toNat else w - 1 := by
  have hclamp : (BitVec.ofNat w (w - 1)).toNat = w - 1 := toNat_ofNat_of_le (Nat.sub_le w 1)
  rw [minui, BitVec.ult, hclamp]
  by_cases h : n.toNat < w - 1
  · rw [decide_eq_true h, if_pos rfl, if_pos (by omega)]
  · rw [decide_eq_false h, if_neg (by simp), hclamp]
    split <;> omega

theorem fdiv_two_pow_pred {w : Nat} (hw : 0 < w) (x : BitVec w) :
    x.toInt.fdiv (2 ^ (w - 1)) = if x.toInt < 0 then -1 else 0 := by
  have hr : -2 ^ (w - 1) ≤ x.toInt ∧ x.toInt < 2 ^ (w - 1) := value_inRange hw true x
  have hpos : (0 : Int) < 2 ^ (w - 1) := by positivity
  rw [Int.fdiv_eq_ediv_of_nonneg _ hpos.le]
  split
  · next h => exact (Int.ediv_eq_iff_of_pos hpos).mpr (by omega)
  · next h => exact Int.ediv_eq_zero_of_lt (by omega) hr.2

theorem shiftFn_eq (left signed : Bool) {w : Nat} (hw : 0 < w) (a n : BitVec w) :
    shiftFn left signed a n = some (BitVec.ofInt w (npyShift left w (value signed a) (value signed n))) := by
  have hcount : (minui n (BitVec.ofNat w (w - 1))).toNat < w := by
    rw [toNat_count]
    split <;> omega
  have hult : n.ult (BitVec.ofNat w w) = decide (n.toNat < w) := by rw [BitVec.ult, toNat_ofNat_of_le (Nat.le_refl w)]
  simp only [shiftFn, hult, npyShift, count_inRange_iff signed hw]
  by_cases h : n.toNat < w
  · have hmin : (minui n (BitVec.ofNat w (w - 1))).toNat = n.toNat := by rw [toNat_count, if_pos h]
    have hn : (value signed n).toNat = n.toNat := by rw [value_of_lt signed hw h]; rfl
    rw [if_pos h, hn]
    cases left with
    | true =>
      have hshl := ArithOps.shli_eq_some (n := value signed a) hcount
      rw [ofInt_value, hmin] at hshl
      simp [hshl, h]
    | false =>
      cases signed with
      | true =>
        have hshr := ArithOps.shrsi_eq_some (x := a) hcount
        rw [hmin] at hshr
        simp [hshr]
      | false =>
        have hshr := ArithOps.shrui_eq_some (x := a) hcount
        rw [hmin] at hshr
        simp [hshr, h]
  · have hmin : (minui n (BitVec.ofNat w (w - 1))).toNat = w - 1 := by rw [toNat_count, if_neg h]
    rw [if_neg h]
    cases left with
    | true =>
      have hshl := ArithOps.shli_eq_some (n := value signed a) hcount
      rw [ofInt_value] at hshl
      simp [hshl, h]
    | false =>
      cases signed with
      | true =>
        have hshr := ArithOps.shrsi_eq_some (x := a) hcount
        rw [hmin, fdiv_two_pow_pred hw, ← value_signed] at hshr
        simp [hshr]
      | false =>
        have hshr := ArithOps.shrui_eq_some (x := a) hcount
        have hnonneg : ¬value false a < 0 := by rw [value_unsigned]; omega
        rw [if_neg hnonneg]
        simp [hshr, h]

theorem shiftOp_eq (left : Bool) (loop outType : IntType) {a b : Operand} (ha : canCastSafe a.ty (.integer loop) = true)
    (hb : canCastSafe b.ty (.integer loop) = true) :
    shiftOp left loop outType a b = .ok (npyResult left loop outType a b) := by
  have hout : outType.bits ≠ 1 := Nat.ne_of_gt outType.width.one_lt_bits
  have hconvert (x : BitVec loop.bits) :
      convertInteger (some loop.signed) outType.bits x = BitVec.ofInt outType.bits (MachineInt.value loop.signed x) := by
    rw [convertInteger_eq (.inl hout)]
    cases loop.signed <;> rfl
  rw [shiftOp, shiftFn_eq left loop.signed loop.width.bits_pos, value_of_canCastSafe ha, value_of_canCastSafe hb, npyResult,
    ← hconvert]
  rfl

end Ufunc

end NumbaCudaMlir

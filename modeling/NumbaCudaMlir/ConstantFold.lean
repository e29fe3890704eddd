import NumbaCudaMlir.ConstantsSound

/-!
# Constants seen through conversions

`try_extract_constant` reads the number of an `arith.constant`, also through
casts that stand over it; `type_convert` folds `int`, `float` and `bool` of such
a value.
-/

namespace NumbaCudaMlir.ConstantFold

open MachineInt

/-! ## Values -/

/-- The source-level types of MLIR integers; an index is a signed integer of 64 bits. -/
inductive IntLike where
  | boolean
  | integer (t : IntType)
  | index
  deriving DecidableEq, Repr

def IntLike.bits : IntLike → Nat
  | boolean => 1
  | integer t => t.bits
  | index => 64

def IntLike.signed : IntLike → Bool
  | boolean => false
  | integer t => t.signed
  | index => true

inductive Ty where
  | int (t : IntLike)
  | float (f : BinaryFloat.Format)

@[reducible] def Ty.Value : Ty → Type
  | int t => BitVec t.bits
  | float _ => BinaryFloat.Value

/-- An MLIR value and the operation that makes it, as far as the extraction looks into it. -/
inductive MlirValue : Ty → Type where
  | constant {ty : Ty} (x : ty.Value) : MlirValue ty
  | indexCast {t : IntLike} (t' : IntLike) (operand : MlirValue (.int t)) : MlirValue (.int t')
  | fpToInt (signed : Bool) {f : BinaryFloat.Format} (t : IntLike) (operand : MlirValue (.float f)) : MlirValue (.int t)
  | intToFp (signed : Bool) {t : IntLike} (f : BinaryFloat.Format) (operand : MlirValue (.int t)) : MlirValue (.float f)
  /-- A block argument, or the result of any other operation. -/
  | other {ty : Ty} (x : ty.Value) : MlirValue ty

/-- The value at run time, where it is no poison. -/
def MlirValue.run : {ty : Ty} → MlirValue ty → Option ty.Value
  | _, constant x | _, other x => some x
  | _, indexCast t' operand => operand.run.map fun x => BitVec.signExtend t'.bits x
  | _, fpToInt signed t operand => operand.run.bind fun x => NumbaCudaMlir.fpToInt signed t.bits x
  | _, intToFp signed f operand => operand.run.map fun x => NumbaCudaMlir.intToFp signed f x

/-- A number that Python holds; a boolean is one of the integers 0 and 1. -/
inductive Number where
  | int (n : Int)
  | float (x : BinaryFloat.Value)
  deriving DecidableEq

/-- Python compares integers with floats exactly. -/
def Number.exact : Number → BinaryFloat.Value
  | int n => .finite n
  | float x => x

def Number.Same (a b : Number) : Prop := a.exact = b.exact

/-- The number of a value, read by its source-level type. -/
def toNumber : (ty : Ty) → ty.Value → Number
  | .int t, x => .int (value t.signed (w := t.bits) x)
  | .float _, x => .float x

def MlirValue.number {ty : Ty} (v : MlirValue ty) : Option Number := v.run.map (toNumber ty)

/-! ## Extraction -/

/-- `IntegerAttr.value` reads a signless attribute as signed, except that an
attribute of `i1` is a boolean. -/
def attrInt (t : IntLike) (x : BitVec t.bits) : Int := if t = .boolean then x.toNat else x.toInt

def attrValue : (ty : Ty) → ty.Value → Number
  | .int t, x => .int (attrInt t x)
  | .float _, x => .float x

def tryExtractConstant : {ty : Ty} → MlirValue ty → Option Number
  | ty, .constant x => some (attrValue ty x)
  | _, .indexCast _ operand | _, .fpToInt _ _ operand | _, .intToFp _ _ operand => tryExtractConstant operand
  | _, .other _ => none

/-! ## Folded conversions -/

inductive Builtin where
  | int | bool | float
  deriving DecidableEq, Repr

/-- The type of the call; `float` of a boolean is refused, and a kernel has no name for an index. -/
def Builtin.resultType : Builtin → Ty → Option Ty
  | _, .int .index => none
  | .int, .int .boolean => some (.int (.integer ⟨true, .w64⟩))
  | .int, .int t => some (.int t)
  | .int, .float _ => some (.int (.integer ⟨true, .w64⟩))
  | .bool, _ => some (.int .boolean)
  | .float, .int .boolean => none
  | .float, .int _ => some (.float BinaryFloat.binary64)
  | .float, .float f => some (.float f)

def getConversionSignedness : Ty → Ty → Option Bool
  | .int t, _ => some t.signed
  | .float _, .int t => some t.signed
  | .float _, .float _ => none

def Number.truth : Number → Bool
  | int n => n ≠ 0
  | float x => x ≠ .finite 0

/-- Python's `int`, which refuses infinities and NaN. -/
def Number.toInt : Number → Option Int
  | int n => some n
  | float (.finite q) => some (q.num.tdiv q.den)
  | float _ => none

/-- Python's `float`: a double, or the number of an attribute of the result's own format. -/
def Number.toFloat : Number → BinaryFloat.Value
  | int n => BinaryFloat.ofInt BinaryFloat.binary64 n
  | float x => x

def constant (k : Number) : (ty : Ty) → Option ty.Value
  | .int t => if t.bits = 1 then some (BitVec.setWidth t.bits (BitVec.ofBool k.truth)) else k.toInt.bind (integerAttr t.bits)
  | .float _ => some k.toFloat

/-- `convert(value, ty, signed=signed)`. A value of the type is left alone, and the calls make a float of
no float but one of its own format. -/
def convert (signed : Option Bool) : (ty ty' : Ty) → ty.Value → Option ty'.Value
  | .int _, .int t', x => some (convertInteger signed t'.bits x)
  | .int _, .float f, x => some (convertIntegerToFloat signed f x)
  | .float _, .int t, x => convertFloatToInteger signed t.bits x
  | .float _, .float _, x => some x

/-- The branch of `type_convert` that folds, where the value extracts. -/
def foldedConvert {ty : Ty} (v : MlirValue ty) (ty' : Ty) : Option (Option ty'.Value) :=
  (tryExtractConstant v).map fun k => constant k ty'

/-- The branch of `type_convert` that does not. -/
def runTimeConvert {ty : Ty} (v : MlirValue ty) (ty' : Ty) : Option ty'.Value :=
  v.run.bind (convert (getConversionSignedness ty ty') ty ty')

end NumbaCudaMlir.ConstantFold

/-!
## Folded conversions against run time

A folded conversion is the one at run time, except that a float is made of the
attribute as a signed integer. The number that is extracted is the run-time one
as long as every conversion on the way to it is exact.
-/

namespace NumbaCudaMlir.ConstantFold

open CInt MachineInt

/-! ## Numbers -/

theorem IntLike.bits_pos (t : IntLike) : 0 < t.bits := by
  cases t with
  | boolean | index => decide
  | integer t => exact t.width.bits_pos

theorem Number.same_int_iff {m n : Int} : (int m).Same (int n) ↔ m = n := by simp [Same, exact]

theorem Number.Same.trans_iff {a b c : Number} (h : a.Same b) : a.Same c ↔ b.Same c := by
  unfold Same at *
  rw [h]

/-! ## Faithful extraction -/

/-- A number that is extracted is the one at run time. -/
def MlirValue.Faithful {ty : Ty} (v : MlirValue ty) : Prop :=
  ∀ k, tryExtractConstant v = some k → ∃ n, v.number = some n ∧ k.Same n

/-- The value and the operands that the extraction looks through to. -/
def MlirValue.AllFaithful : {ty : Ty} → MlirValue ty → Prop
  | _, v@(constant _) | _, v@(other _) => v.Faithful
  | _, v@(indexCast _ operand) | _, v@(fpToInt _ _ operand) | _, v@(intToFp _ _ operand) => operand.AllFaithful ∧ v.Faithful

/-- The casts stand over an `arith.constant`. -/
def MlirValue.Rooted : {ty : Ty} → MlirValue ty → Prop
  | _, constant _ => True
  | _, indexCast _ operand | _, fpToInt _ _ operand | _, intToFp _ _ operand => operand.Rooted
  | _, other _ => False

theorem MlirValue.rooted_iff : ∀ {ty : Ty} (v : MlirValue ty), v.Rooted ↔ ∃ k, tryExtractConstant v = some k
  | _, constant x => by simp [Rooted, tryExtractConstant]
  | _, other x => by simp [Rooted, tryExtractConstant]
  | _, indexCast t' operand => by
    rw [Rooted, tryExtractConstant]
    exact operand.rooted_iff
  | _, fpToInt signed t operand => by
    rw [Rooted, tryExtractConstant]
    exact operand.rooted_iff
  | _, intToFp signed f operand => by
    rw [Rooted, tryExtractConstant]
    exact operand.rooted_iff

/-- Every conversion over the constant is exact: an attribute is read with the
sign of its type, an index cast stays in both ranges, a float is an integer in
range and an integer is representable. -/
def MlirValue.KeepsNumbers : {ty : Ty} → MlirValue ty → Prop
  | .int t, constant x => t = .boolean ∨ t.signed = true ∨ 0 ≤ BitVec.toInt (n := t.bits) x
  | .float _, constant _ => True
  | _, @indexCast t t' operand => operand.KeepsNumbers ∧ (operand.Rooted → ∃ m, operand.number = some (.int m) ∧
      (t.bits < t'.bits → InRange true t.bits m) ∧ InRange t'.signed t'.bits m)
  | _, fpToInt signed t operand => operand.KeepsNumbers ∧ (operand.Rooted → ∃ m : Int,
      operand.number = some (.float (.finite m)) ∧ InRange signed t.bits m ∧ InRange t.signed t.bits m)
  | _, @intToFp signed t f operand => operand.KeepsNumbers ∧ (operand.Rooted → ∃ m, operand.number = some (.int m) ∧
      InRange signed t.bits m ∧ BinaryFloat.Representable f m)
  | _, other _ => True

/-! ## One conversion -/

theorem attrInt_eq_iff (t : IntLike) (x : BitVec t.bits) :
    attrInt t x = value t.signed x ↔ t = .boolean ∨ t.signed = true ∨ 0 ≤ x.toInt := by
  unfold attrInt
  by_cases hb : t = .boolean
  · subst hb
    simp [IntLike.signed]
  · have := toInt_cases x
    cases hs : t.signed with
    | true => simp [hb]
    | false =>
      simp only [hb, if_false, value_unsigned, false_or, Bool.false_eq_true]
      constructor <;> intro h <;> omega

theorem indexCast_exact_iff {t t' : IntLike} (x : BitVec t.bits) :
    value t'.signed (x.signExtend t'.bits) = value t.signed x ↔
      (t.bits < t'.bits → InRange true t.bits (value t.signed x)) ∧ InRange t'.signed t'.bits (value t.signed x) := by
  rw [BitVec.signExtend, value_eq_iff t'.bits_pos, ofInt_eq_ofInt_iff]
  refine and_congr_left fun _ => ?_
  have hr : InRange true t.bits (value t.signed x) ↔ x.toInt = value t.signed x := by
    rw [← value_ofInt_iff t.bits_pos, ofInt_value, value_signed]
  rw [hr]
  rcases toInt_cases x with ⟨-, hx⟩ | ⟨hneg, hx⟩
  · have he : value t.signed x = x.toInt := by cases t.signed <;> simp [hx]
    simp [he]
  · cases t.signed with
    | true => simp
    | false =>
      have hdiff : x.toInt - value false x = -(2 ^ t.bits) := by rw [value_unsigned]; omega
      have hne : x.toInt ≠ value false x := by rw [value_unsigned]; omega
      rw [hdiff, Int.dvd_neg, two_pow_dvd_iff]
      constructor
      · intro hle hlt
        omega
      · intro h
        by_contra hc
        exact hne (h (by omega))

theorem fpToInt_exact_iff {signed : Bool} {t : IntLike} (x : BinaryFloat.Value) :
    (∃ y : BitVec t.bits, NumbaCudaMlir.fpToInt signed t.bits x = some y ∧
      (Number.float x).Same (.int (value t.signed y))) ↔
      ∃ m : Int, x = .finite m ∧ InRange signed t.bits m ∧ InRange t.signed t.bits m := by
  constructor
  · intro ⟨y, hy, hsame⟩
    obtain ⟨q, rfl, hr, hyq⟩ := fpToInt_eq_some hy
    have hq : q = (value t.signed y : Int) := BinaryFloat.Value.finite.inj hsame
    refine ⟨value t.signed y, hsame, ?_, value_inRange t.bits_pos t.signed y⟩
    rw [hq] at hr
    simpa using hr
  · rintro ⟨m, rfl, hs, ht⟩
    have hy : NumbaCudaMlir.fpToInt signed t.bits (.finite m) = some (BitVec.ofInt t.bits m) := by
      simp [NumbaCudaMlir.fpToInt, hs]
    refine ⟨_, hy, ?_⟩
    rw [(value_ofInt_iff t.bits_pos t.signed m).mpr ht]
    rfl

theorem intToFp_exact_iff {signed : Bool} {t : IntLike} {f : BinaryFloat.Format} (x : BitVec t.bits) :
    (Number.int (value t.signed x)).Same (.float (NumbaCudaMlir.intToFp signed f x)) ↔
      InRange signed t.bits (value t.signed x) ∧ BinaryFloat.Representable f (value t.signed x) := by
  have hread : InRange signed t.bits (value t.signed x) ↔ value signed x = value t.signed x := by
    rw [← value_ofInt_iff t.bits_pos, ofInt_value]
  rw [hread, ← BinaryFloat.ofInt_eq_finite_iff, Number.Same, Number.exact, Number.exact, NumbaCudaMlir.intToFp]
  rcases value_cases signed t.signed x with he | hne
  · rw [he]
    simp [eq_comm]
  · have hsign : value t.signed x < 0 ↔ 0 ≤ value signed x := by omega
    have hdiff : value signed x ≠ value t.signed x := by omega
    simp only [hdiff, false_and, iff_false]
    exact fun h => BinaryFloat.ofInt_ne_finite_of_sign f hsign h.symm

/-! ## Chains of conversions -/

theorem number_eq_some {ty : Ty} {v : MlirValue ty} {n : Number} : v.number = some n ↔ ∃ x, v.run = some x ∧ toNumber ty x = n :=
  Option.map_eq_some_iff

theorem faithful_step {ty ty' : Ty} {v : MlirValue ty} {u : MlirValue ty'} {Exact : ty.Value → Prop}
    (hext : tryExtractConstant u = tryExtractConstant v) (hv : v.Faithful)
    (hstep : ∀ x, v.run = some x → ((∃ y, u.run = some y ∧ (toNumber ty x).Same (toNumber ty' y)) ↔ Exact x)) :
    u.Faithful ↔ (v.Rooted → ∃ x, v.run = some x ∧ Exact x) := by
  rw [v.rooted_iff]
  constructor
  · rintro hu ⟨k, hk⟩
    obtain ⟨n, hn, hkn⟩ := hv k hk
    obtain ⟨x, hx, rfl⟩ := number_eq_some.mp hn
    obtain ⟨m, hm, hkm⟩ := hu k (hext.trans hk)
    obtain ⟨y, hy, rfl⟩ := number_eq_some.mp hm
    exact ⟨x, hx, (hstep x hx).mp ⟨y, hy, hkn.trans_iff.mp hkm⟩⟩
  · intro h k hk
    rw [hext] at hk
    obtain ⟨x, hx, hex⟩ := h ⟨k, hk⟩
    obtain ⟨n, hn, hkn⟩ := hv k hk
    obtain ⟨x', hx', rfl⟩ := number_eq_some.mp hn
    cases hx.symm.trans hx'
    obtain ⟨y, hy, hsame⟩ := (hstep x hx).mpr hex
    exact ⟨_, number_eq_some.mpr ⟨y, hy, rfl⟩, hkn.trans_iff.mpr hsame⟩

theorem indexCast_faithful_iff {t : IntLike} (t' : IntLike) {v : MlirValue (.int t)} (hv : v.Faithful) :
    (MlirValue.indexCast t' v).Faithful ↔ (v.Rooted → ∃ m, v.number = some (.int m) ∧
      (t.bits < t'.bits → InRange true t.bits m) ∧ InRange t'.signed t'.bits m) := by
  have hstep : ∀ x, v.run = some x → ((∃ y, (MlirValue.indexCast t' v).run = some y ∧
      (toNumber (.int t) x).Same (toNumber (.int t') y)) ↔ _) := fun x hx => by
    simp only [MlirValue.run, hx, Option.map_some, Option.some.injEq, exists_eq_left', toNumber, Number.same_int_iff]
    exact eq_comm.trans (indexCast_exact_iff x)
  rw [faithful_step (v := v) (u := MlirValue.indexCast t' v) rfl hv hstep]
  refine imp_congr_right fun _ => ?_
  simp [MlirValue.number, toNumber]

theorem fpToInt_faithful_iff (signed : Bool) {f : BinaryFloat.Format} (t : IntLike) {v : MlirValue (.float f)} (hv : v.Faithful) :
    (MlirValue.fpToInt signed t v).Faithful ↔ (v.Rooted → ∃ m : Int, v.number = some (.float (.finite m)) ∧
      InRange signed t.bits m ∧ InRange t.signed t.bits m) := by
  have hstep : ∀ x, v.run = some x → ((∃ y, (MlirValue.fpToInt signed t v).run = some y ∧
      (toNumber (.float f) x).Same (toNumber (.int t) y)) ↔ _) := fun x hx => by
    simp only [MlirValue.run, hx, Option.bind_some, toNumber]
    exact fpToInt_exact_iff x
  rw [faithful_step (v := v) (u := MlirValue.fpToInt signed t v) rfl hv hstep]
  refine imp_congr_right fun _ => ?_
  simp [MlirValue.number, toNumber]

theorem intToFp_faithful_iff (signed : Bool) {t : IntLike} (f : BinaryFloat.Format) {v : MlirValue (.int t)} (hv : v.Faithful) :
    (MlirValue.intToFp signed f v).Faithful ↔ (v.Rooted → ∃ m, v.number = some (.int m) ∧
      InRange signed t.bits m ∧ BinaryFloat.Representable f m) := by
  have hstep : ∀ x, v.run = some x → ((∃ y, (MlirValue.intToFp signed f v).run = some y ∧
      (toNumber (.int t) x).Same (toNumber (.float f) y)) ↔ _) := fun x hx => by
    simp only [MlirValue.run, hx, Option.map_some, Option.some.injEq, exists_eq_left', toNumber]
    exact intToFp_exact_iff x
  rw [faithful_step (v := v) (u := MlirValue.intToFp signed f v) rfl hv hstep]
  refine imp_congr_right fun _ => ?_
  simp [MlirValue.number, toNumber]

theorem MlirValue.AllFaithful.faithful : ∀ {ty : Ty} {v : MlirValue ty}, v.AllFaithful → v.Faithful
  | _, .constant _, h | _, .other _, h => h
  | _, .indexCast .., h | _, .fpToInt .., h | _, .intToFp .., h => h.2

/-- **Extracted constants.** The extraction is faithful on a value and on all it
looks through exactly where every conversion on the way is exact. -/
theorem allFaithful_iff : ∀ {ty : Ty} (v : MlirValue ty), v.AllFaithful ↔ v.KeepsNumbers
  | .int t, .constant x => by
    rw [MlirValue.AllFaithful, MlirValue.KeepsNumbers, ← attrInt_eq_iff]
    simp [MlirValue.Faithful, tryExtractConstant, MlirValue.number, MlirValue.run, toNumber, attrValue, Number.same_int_iff]
  | .float f, .constant x => by
    simp [MlirValue.AllFaithful, MlirValue.KeepsNumbers, MlirValue.Faithful, tryExtractConstant, MlirValue.number, MlirValue.run,
      toNumber, attrValue, Number.Same]
  | ty, .other x => by
    simp [MlirValue.AllFaithful, MlirValue.KeepsNumbers, MlirValue.Faithful, tryExtractConstant]
  | _, .indexCast t' operand => by
    rw [MlirValue.AllFaithful, MlirValue.KeepsNumbers, ← allFaithful_iff operand]
    exact and_congr_right fun h => indexCast_faithful_iff t' h.faithful
  | _, .fpToInt signed t operand => by
    rw [MlirValue.AllFaithful, MlirValue.KeepsNumbers, ← allFaithful_iff operand]
    exact and_congr_right fun h => fpToInt_faithful_iff signed t h.faithful
  | _, .intToFp signed f operand => by
    rw [MlirValue.AllFaithful, MlirValue.KeepsNumbers, ← allFaithful_iff operand]
    exact and_congr_right fun h => intToFp_faithful_iff signed f h.faithful

/-! ## Folded conversions -/

/-- The fold of a conversion of a constant is what the conversion makes of it at run time. -/
def FoldAgrees (b : Builtin) (ty : Ty) (x : ty.Value) : Prop :=
  ∀ ty', b.resultType ty = some ty' → ∀ y, runTimeConvert (.constant x) ty' = some y →
    foldedConvert (.constant x) ty' = some (some y)

/-- The constant is in the upper half of an unsigned type. -/
def UpperHalf : (ty : Ty) → ty.Value → Prop
  | .int (.integer t), x => t.signed = false ∧ BitVec.toInt (n := t.bits) x < 0
  | .int .boolean, _ | .int .index, _ | .float _, _ => False

theorem integerAttr_toInt {w : Nat} (hw : w ≤ 64) (hpos : 0 < w) (x : BitVec w) : integerAttr w x.toInt = some x := by
  have hr := inRange_signed.mp (value_inRange hpos true x)
  have hle : (2 : Int) ^ (w - 1) ≤ 2 ^ 63 := by exact_mod_cast Nat.pow_le_pow_right (by decide) (show w - 1 ≤ 63 by omega)
  have hin : InInt64 x.toInt := by
    unfold InInt64
    rw [value_signed] at hr
    omega
  rw [integerAttr, if_pos hin, BitVec.ofInt_toInt]

theorem foldedConvert_constant {ty : Ty} (x : ty.Value) (ty' : Ty) :
    foldedConvert (.constant x) ty' = some (constant (attrValue ty x) ty') := rfl

theorem runTimeConvert_constant {ty : Ty} (x : ty.Value) (ty' : Ty) :
    runTimeConvert (.constant x) ty' = convert (getConversionSignedness ty ty') ty ty' x := rfl

theorem constant_int (t : IntType) (k : Number) : constant k (.int (.integer t)) = k.toInt.bind (integerAttr t.bits) :=
  if_neg t.width.one_lt_bits.ne'

theorem fold_int {ty : Ty} (x : ty.Value) : FoldAgrees .int ty x := by
  intro ty' ht y hy
  rw [runTimeConvert_constant] at hy
  rw [foldedConvert_constant]
  cases ty with
  | float f =>
    cases ht
    rw [constant_int]
    obtain ⟨q, rfl, hr, rfl⟩ := fpToInt_eq_some (show NumbaCudaMlir.fpToInt true 64 x = some y from hy)
    have hattr : integerAttr 64 (q.num.tdiv q.den) = some (BitVec.ofInt 64 (q.num.tdiv q.den)) := if_pos hr
    exact congrArg some hattr
  | int t =>
    cases t with
    | index => cases ht
    | boolean =>
      cases ht
      have hrun : convertInteger (some false) 64 x = y := Option.some.inj hy
      have hattr : ∀ b : BitVec 1, integerAttr 64 (b.toNat : Int) = some (convertInteger (some false) 64 b) := by decide
      rw [constant_int, attrValue, attrInt, if_pos rfl, Number.toInt, Option.bind_some]
      exact congrArg some ((hattr x).trans (congrArg some hrun))
    | integer t =>
      cases ht
      have hrun : x = y := (convertInteger_self (some t.signed) x).symm.trans (Option.some.inj hy)
      rw [constant_int, attrValue, attrInt, if_neg (by simp), Number.toInt, Option.bind_some]
      exact congrArg some ((integerAttr_toInt t.width.bits_le t.width.bits_pos x).trans (congrArg some hrun))

theorem truth_toInt {w : Nat} (x : BitVec w) : decide (x.toInt ≠ 0) = (x != 0) := by
  have hz : x.toInt = 0 ↔ x = 0#w := by rw [← BitVec.toInt_inj, BitVec.toInt_zero]
  rw [Bool.eq_iff_iff]
  simp [hz]

theorem fold_bool {ty : Ty} (x : ty.Value) : FoldAgrees .bool ty x := by
  intro ty' ht y hy
  rw [runTimeConvert_constant] at hy
  rw [foldedConvert_constant]
  cases ty with
  | float f =>
    cases ht
    exact congrArg some hy
  | int t =>
    cases t with
    | index => cases ht
    | boolean =>
      cases ht
      have hrun : convertInteger (some false) 1 x = y := Option.some.inj hy
      have hb : ∀ b : BitVec 1, BitVec.setWidth 1 (BitVec.ofBool (Number.int b.toNat).truth) = convertInteger (some false) 1 b := by
        decide
      exact congrArg some (congrArg some ((hb x).trans hrun))
    | integer t =>
      cases ht
      have hrun : BitVec.setWidth 1 (BitVec.ofBool (x != 0)) = y :=
        (convertInteger_bool t.width.one_lt_bits (some t.signed) x).symm.trans (Option.some.inj hy)
      have htruth : (attrValue (.int (.integer t)) x).truth = (x != 0) := by
        rw [attrValue, attrInt, if_neg (by simp), Number.truth]
        exact truth_toInt x
      have hfold : constant (attrValue (.int (.integer t)) x) (.int .boolean) = some (BitVec.setWidth 1 (BitVec.ofBool (x != 0))) := by
        rw [← htruth]
        rfl
      rw [hfold]
      exact congrArg some (congrArg some hrun)

theorem ofInt_toInt_eq_iff {f : BinaryFloat.Format} {w : Nat} (signed : Bool) (x : BitVec w) :
    BinaryFloat.ofInt f x.toInt = BinaryFloat.ofInt f (value signed x) ↔ ¬ (signed = false ∧ x.toInt < 0) := by
  constructor
  · rintro h ⟨rfl, hneg⟩
    exact BinaryFloat.ofInt_ne_of_sign f hneg (Int.natCast_nonneg _) h
  · intro h
    cases signed with
    | true => rfl
    | false =>
      have := toInt_cases x
      have hpos : 0 ≤ x.toInt := by
        by_contra hc
        exact h ⟨rfl, by omega⟩
      rw [value_unsigned]
      congr 1
      omega

theorem fold_float_iff {ty : Ty} (x : ty.Value) : FoldAgrees .float ty x ↔ ¬ UpperHalf ty x := by
  cases ty with
  | float f =>
    refine iff_of_true (fun ty' ht y hy => ?_) id
    cases ht
    exact congrArg some hy
  | int t =>
    cases t with
    | index | boolean => exact iff_of_true (fun _ ht => nomatch ht) id
    | integer t =>
      have hfold : FoldAgrees .float (.int (.integer t)) x ↔
          BinaryFloat.ofInt BinaryFloat.binary64 x.toInt = BinaryFloat.ofInt BinaryFloat.binary64 (value t.signed x) := by
        constructor
        · intro h
          have hk := h _ rfl _ rfl
          rw [foldedConvert_constant, attrValue, attrInt, if_neg (by simp)] at hk
          exact Option.some.inj (Option.some.inj hk)
        · intro h ty' ht y hy
          cases ht
          rw [foldedConvert_constant, attrValue, attrInt, if_neg (by simp)]
          exact congrArg some ((congrArg some h).trans hy)
      rw [hfold, UpperHalf]
      exact ofInt_toInt_eq_iff t.signed x

theorem foldAgrees_iff (b : Builtin) (ty : Ty) (x : ty.Value) : FoldAgrees b ty x ↔ ¬ (b = .float ∧ UpperHalf ty x) := by
  cases b with
  | int => simp [fold_int]
  | bool => simp [fold_bool]
  | float => simp [fold_float_iff]

def uint8 : IntType := ⟨false, .w8⟩

end NumbaCudaMlir.ConstantFold

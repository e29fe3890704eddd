import NumbaCudaMlir.ArithOps
import NumbaCudaMlir.Convert
import NumbaCudaMlir.NumberTyping

/-!
# Lowering of integer operators

The operators on integers and booleans. Each converts its operands to the
resolved result type, or to the type that a comparison was resolved at; the
power alone is computed in the type of its base.
-/

namespace NumbaCudaMlir

namespace IntegerArith

open MachineInt NumberTyping ArithOps

/-! ## Operands -/

structure Operand where
  ty : OperandType
  bits : BitVec ty.width
  deriving DecidableEq

def Operand.value (x : Operand) : Int := MachineInt.value x.ty.signed x.bits

/-- `get_conversion_signedness` of a boolean or an integer: its own sign, whatever the target. -/
def getConversionSignedness (source : OperandType) : Option Bool := some source.signed

def convertOperand (x : Operand) (w : Nat) : BitVec w := convertInteger (getConversionSignedness x.ty) w x.bits

/-- What lowering an operator gives instead of a value. -/
inductive Failure where
  | typingError | notImplemented | internalError
  /-- The operation is undefined, or its value poison. -/
  | undefined
  /-- `cf.assert` stops the kernel. -/
  | assertion
  deriving DecidableEq, Repr

def defined {α : Type} : Option α → Except Failure α
  | some x => .ok x
  | none => .error .undefined

def operandType : NumberType → Option OperandType
  | .boolean => some .boolean
  | .integer ty => some (.integer ty)
  | _ => none

/-! ## Lowerings -/

/-- The types for which an operator has a lowering: division, powers and shifts
are there for integers only. -/
def registered : BinOp → OperandType → OperandType → Bool
  | .floordiv, .integer _, .integer _ | .mod, .integer _, .integer _ | .pow, .integer _, .integer _ => true
  | .lshift, .integer _, .integer _ | .rshift, .integer _, .integer _ => true
  | .floordiv, _, _ | .mod, _, _ | .pow, _, _ | .lshift, _, _ | .rshift, _, _ => false
  | _, _, _ => true

def isComparison : BinOp → Bool
  | .eq | .ne | .lt | .le | .gt | .ge => true
  | _ => false

/-- The MLIR type of an operation, an integer or a float. -/
inductive UnifiedType where
  | integer (width : Nat)
  | float (format : NumberType)
  deriving DecidableEq, Repr

/-- Of a resolved type; no operator of integers is resolved at a complex one. -/
def toUnified : NumberType → UnifiedType
  | .boolean => .integer 1
  | .integer ty => .integer ty.bits
  | ty => .float ty

def promotedType (op : BinOp) (sig : Signature) (lhs rhs : OperandType) : Option NumberType :=
  let resolved := if sig.args.1 = sig.args.2 then sig.args.1 else sig.returnType
  match lhs, rhs with
  | .integer _, .integer _ => some resolved
  | .boolean, .integer _ | .integer _, .boolean => if isComparison op then some resolved else none
  | .boolean, .boolean => none

/-- `unified_type`: without a promoted type, the wider of the two. -/
def unifiedType (op : BinOp) (sig : Signature) (lhs rhs : OperandType) : UnifiedType :=
  match promotedType op sig lhs rhs with
  | some ty => toUnified ty
  | none => .integer (max lhs.width rhs.width)

def cmpi (op : BinOp) (isUnsigned : Bool) {w : Nat} (x y : BitVec w) : Bool :=
  let lt := fun a b : BitVec w => if isUnsigned then a.ult b else a.slt b
  match op with
  | .eq => x = y
  | .ne => x ≠ y
  | .lt => lt x y
  | .le => !lt y x
  | .gt => lt y x
  | .ge => !lt x y
  | _ => false

/-- `x < y`, false with a NaN. -/
def floatLt : BinaryFloat.Value → BinaryFloat.Value → Bool
  | .finite p, .finite q => p < q
  | .finite _, .infinity negative => !negative
  | .infinity negative, .finite _ => negative
  | .infinity n, .infinity m => n && !m
  | .nan, _ | _, .nan => false

/-- `arith.cmpf`, ordered but for `!=`. -/
def cmpf (op : BinOp) (x y : BinaryFloat.Value) : Bool :=
  let ordered := x ≠ .nan ∧ y ≠ .nan
  match op with
  | .eq => x = y ∧ ordered
  | .ne => ¬ (x = y ∧ ordered)
  | .lt => floatLt x y
  | .le => ordered ∧ ¬ floatLt y x
  | .gt => floatLt y x
  | .ge => ordered ∧ ¬ floatLt x y
  | _ => false

/-- A comparison: at the unified type, or of two booleans as they are. -/
def compare (op : BinOp) (sig : Signature) (a b : Operand) : Except Failure Bool :=
  let isUnsigned := a.ty.isUnsigned && b.ty.isUnsigned
  match unifiedType op sig a.ty b.ty with
  | .integer w => .ok (cmpi op isUnsigned (convertOperand a w) (convertOperand b w))
  | .float .float64 =>
    let toFloat := fun x : Operand => convertIntegerToFloat (getConversionSignedness x.ty) BinaryFloat.binary64 x.bits
    .ok (cmpf op (toFloat a) (toFloat b))
  | .float _ => .error .internalError

/-- `_bin_op_cg` for `+`, `-` and `*`: signed results carry the flag `nsw`. -/
def binOpCg (op : BinOp) (sig : Signature) (target : OperandType) (a b : Operand) : Except Failure Operand := do
  let .integer _ := unifiedType op sig a.ty b.ty | throw .internalError
  let w := target.width
  let nsw := match target with
    | .integer ty => ty.signed
    | .boolean => false
  let lhs := convertOperand a w
  let rhs := convertOperand b w
  let res ← defined (match op with
    | .add => addi nsw lhs rhs
    | .sub => subi nsw lhs rhs
    | .mul => muli nsw lhs rhs
    | _ => none)
  return ⟨target, res⟩

def bitwiseCg (op : BinOp) (target : OperandType) (a b : Operand) : Except Failure Operand :=
  let w := target.width
  let lhs := convertOperand a w
  let rhs := convertOperand b w
  .ok ⟨target, match op with
    | .and_ => lhs &&& rhs
    | .or_ => lhs ||| rhs
    | _ => lhs ^^^ rhs⟩

def floordivCg (target : OperandType) (a b : Operand) : Except Failure Operand := do
  let w := target.width
  let lhs := convertOperand a w
  let rhs := convertOperand b w
  let result ← defined (if target.signed then floordivsi lhs rhs else divui lhs rhs)
  return ⟨target, result⟩

/-- The divisor is added to a remainder of the other sign. -/
def modCg (target : OperandType) (a b : Operand) : Except Failure Operand := do
  let w := target.width
  let lhs := convertOperand a w
  let rhs := convertOperand b w
  if target.signed then
    let rem ← defined (remsi lhs rhs)
    let signMismatch := (rem ^^^ rhs).slt 0#w
    let remNonzero := rem != 0#w
    let needsFix := signMismatch && remNonzero
    return ⟨target, rem + if needsFix then rhs else 0#w⟩
  else
    return ⟨target, ← defined (remui lhs rhs)⟩

def lshiftCg (target : OperandType) (a b : Operand) : Except Failure Operand := do
  let w := target.width
  return ⟨target, ← defined (shli (convertOperand a w) (convertOperand b w))⟩

def rshiftCg (target : OperandType) (a b : Operand) : Except Failure Operand := do
  let w := target.width
  let lhs := convertOperand a w
  let rhs := convertOperand b w
  return ⟨target, ← defined (if target.signed then shrsi lhs rhs else shrui lhs rhs)⟩

/-- The loop of `ipowi`, with the result so far. -/
def powLoop {w : Nat} (result base exp : BitVec w) : BitVec w :=
  if _h : (0#w).slt exp = true then
    let isOdd := exp &&& 1#w != 0#w
    powLoop (if isOdd then result * base else result) (base * base) (exp >>> 1)
  else result
termination_by exp.toNat
decreasing_by
  have hne : exp.toNat ≠ 0 := by
    intro h0
    obtain rfl : exp = 0#w := BitVec.eq_of_toNat_eq (by simpa using h0)
    simp [BitVec.slt] at _h
  rw [BitVec.toNat_ushiftRight, Nat.shiftRight_eq_div_pow]
  omega

def ipowi {w : Nat} (base exp : BitVec w) : Except Failure (BitVec w) :=
  if exp.slt 0#w then .error .assertion else .ok (powLoop 1#w base exp)

/-- `pow_cg` of integers: the exponent is converted to the type of the base, and
the power to the result type, both without a sign. -/
def powCg (target : OperandType) (a b : Operand) : Except Failure Operand := do
  let rhs := convertInteger none a.ty.width b.bits
  let res ← ipowi a.bits rhs
  return ⟨target, convertInteger none target.width res⟩

def lowerBinop (op : BinOp) (a b : Operand) : Except Failure Operand := do
  let some sig := resolveFunctionType op a.ty.number b.ty.number | throw .typingError
  if !registered op a.ty b.ty then throw .notImplemented
  let some target := operandType sig.returnType | throw .internalError
  match op with
  | .add | .sub | .mul => binOpCg op sig target a b
  | .and_ | .or_ | .xor => bitwiseCg op target a b
  | .floordiv => floordivCg target a b
  | .mod => modCg target a b
  | .lshift => lshiftCg target a b
  | .rshift => rshiftCg target a b
  | .pow => powCg target a b
  | .eq | .ne | .lt | .le | .gt | .ge => return ⟨.boolean, BitVec.ofBool (← compare op sig a b)⟩

end IntegerArith

end NumbaCudaMlir

import Mathlib.Data.Nat.Size
import NumbaCudaMlir.IntegerArith

/-!
# Members of an IntEnum

A member is the integer of its class's `dtype`. The operators convert a member
to the MLIR type of the other operand, without a word on its sign.
-/

namespace NumbaCudaMlir.IntEnum

open MachineInt NumberTyping

/-! ## Classes and members -/

def bitLength (v : Int) : Nat := max 1 (if 0 ≤ v then v.toNat else (-v - 1).toNat).size

/-- `_typeof_int`; `intp` is `int64`. -/
def typeofInt (v : Int) : Option IntType :=
  if bitLength v < 32 then some int64
  else if bitLength v < 64 then some int64
  else if bitLength v = 64 ∧ 0 ≤ v then some uint64
  else none

/-- A class that `_typeof_enum_class` accepts: its members have one type. -/
structure IntEnumClass where
  values : List Int
  dtype : IntType
  typed : ∀ v ∈ values, typeofInt v = some dtype

structure Member where
  cls : IntEnumClass
  value : Int
  mem : value ∈ cls.values

inductive Operand where
  | integer (ty : IntType) (x : BitVec ty.bits)
  | member (m : Member)

namespace Operand

def width : Operand → Nat
  | integer ty _ => ty.bits
  | member m => m.cls.dtype.bits

def bits : (o : Operand) → BitVec o.width
  | integer _ x => x
  | member m => BitVec.ofInt m.cls.dtype.bits m.value

def value : Operand → Int
  | integer ty x => MachineInt.value ty.signed x
  | member m => m.value

end Operand

/-! ## Typing -/

inductive Op where
  | eq | ne | lt | le | gt | ge | add | sub
  deriving DecidableEq, Repr

def Op.binOp : Op → BinOp
  | eq => .eq
  | ne => .ne
  | lt => .lt
  | le => .le
  | gt => .gt
  | ge => .ge
  | add => .add
  | sub => .sub

/-- `IntEnumMember.can_convert_to`: as its integer, but never better than safe. -/
def memberConvert (dtype : IntType) (formal : NumberType) : Option Conversion :=
  (canConvert (.integer dtype) formal).map fun
    | .unsafeConvert => .unsafeConvert
    | _ => .safe

/-- The conversion of an operand, an integer or a member of a class. -/
def argConvert (isMember : Bool) (ty : IntType) (formal : NumberType) : Option Conversion :=
  if isMember then memberConvert ty formal else canConvert (.integer ty) formal

def Operand.isMember : Operand → Bool
  | integer .. => false
  | member _ => true

def Operand.ty : Operand → IntType
  | integer ty _ => ty
  | member m => m.cls.dtype

/-- The signature of an arithmetic operator, resolved as for numbers. -/
def resolve (op : Op) (lhs rhs : Bool × IntType) : Option Signature :=
  (best (op.binOp.templateCases.filterMap fun case => do
    let first ← argConvert lhs.1 lhs.2 case.args.1
    let second ← argConvert rhs.1 rhs.2 case.args.2
    some (((⟨0, 0, 0⟩ : Rating).count first).count second, case))).map (·.2)

/-! ## Lowerings -/

structure Converted where
  width : Nat
  lhs : BitVec width
  rhs : BitVec width

/-- The conversion of `_int_enum_value_cmp`: the left member to the right one's type. -/
def memberValues (lhs rhs : Operand) : Converted := ⟨rhs.width, convertInteger none rhs.width lhs.bits, rhs.bits⟩

def intEnumMixedValues (lhs rhs : Operand) : Converted :=
  if lhs.isMember then ⟨rhs.width, convertInteger none rhs.width lhs.bits, rhs.bits⟩
  else ⟨lhs.width, lhs.bits, convertInteger none lhs.width rhs.bits⟩

inductive Result where
  | boolean (b : Bool)
  | integer (width : Nat) (bits : BitVec width)

/-- The operators that have a lowering for the types of their operands. -/
def registered (op : Op) (lhs rhs : Operand) : Bool :=
  match op with
  | .eq | .ne => lhs.isMember && rhs.isMember
  | .lt | .le | .gt | .ge | .add | .sub => lhs.isMember ^^ rhs.isMember

/-- `arith.cmpi` with the signed predicates, `arith.addi` or `arith.subi`. -/
def apply (op : Op) (c : Converted) : Result :=
  match op with
  | .add => .integer c.width (c.lhs + c.rhs)
  | .sub => .integer c.width (c.lhs - c.rhs)
  | op => .boolean (IntegerArith.cmpi op.binOp false c.lhs c.rhs)

/-- `int_enum_eq`, `int_enum_gt`, `int_enum_add` and the others; `none` where the lowering is missing. -/
def lower (op : Op) (lhs rhs : Operand) : Option Result :=
  if registered op lhs rhs then
    match op with
    | .eq | .ne => some (apply op (memberValues lhs rhs))
    | op => some (apply op (intEnumMixedValues lhs rhs))
  else none

/-! ## Constructors -/

/-- A function that makes a number of its argument. -/
inductive Callee where
  | int | float
  | numberClass (ty : NumberType)

/-- The types of `int`, `float` and `NumberClass` calls on a member: the templates of `int` and `float` take numbers only. -/
def typeCall : Callee → Option NumberType
  | .int | .float => none
  | .numberClass ty => some ty

/-- What lowerings are registered and looked up under. -/
inductive Key where
  | int | float
  | type (ty : NumberType)
  | numberClass
  deriving DecidableEq

def numericTypes : List Key :=
  [.int, .float] ++ (signedDomain ++ unsignedDomain ++ realDomain).map .type

def extractCallable : Callee → Key
  | .int => .int
  | .float => .float
  | .numberClass _ => .numberClass

inductive Number where
  | integer (width : Nat) (bits : BitVec width)
  | float (x : BinaryFloat.Value)

def convertTo (m : Member) : NumberType → Option Number
  | .integer ty => some (.integer ty.bits (convertInteger none ty.bits (BitVec.ofInt m.cls.dtype.bits m.value)))
  | .float32 => some (.float (convertIntegerToFloat none BinaryFloat.binary32 (BitVec.ofInt m.cls.dtype.bits m.value)))
  | .float64 => some (.float (convertIntegerToFloat none BinaryFloat.binary64 (BitVec.ofInt m.cls.dtype.bits m.value)))
  | _ => none

/-- A call of a constructor on a member: typed, and `_enum_to_number` where that is found. -/
def enumToNumber (callee : Callee) (m : Member) : Option Number := do
  let ty ← typeCall callee
  if numericTypes.contains (extractCallable callee) then convertTo m ty else none

/-! ## What the operators are to give -/

def exactCompare (op : Op) (x y : Int) : Bool :=
  match op with
  | .eq => x = y
  | .ne => x ≠ y
  | .lt => x < y
  | .le => x ≤ y
  | .gt => y < x
  | .ge => y ≤ x
  | .add | .sub => false

def exactArith (op : Op) (x y : Int) : Int :=
  match op with
  | .add => x + y
  | .sub => x - y
  | _ => 0

/-- The exact comparison, or the exact sum or difference modulo the width of the resolved type. -/
def Gives (op : Op) (lhs rhs : Operand) : Prop :=
  match op with
  | .eq | .ne | .lt | .le | .gt | .ge => lower op lhs rhs = some (.boolean (exactCompare op lhs.value rhs.value))
  | .add | .sub => ∃ sig ty, resolve op (lhs.isMember, lhs.ty) (rhs.isMember, rhs.ty) = some sig ∧ sig.returnType = .integer ty ∧
      lower op lhs rhs = some (.integer ty.bits (BitVec.ofInt ty.bits (exactArith op lhs.value rhs.value)))

/-- A member and all integers of a type, on either side, or two members. -/
inductive Operands where
  | left (m : Member) (ty : IntType)
  | right (ty : IntType) (m : Member)
  | members (m n : Member)

def Meets (op : Op) : Operands → Prop
  | .left m ty => ∀ x, Gives op (.member m) (.integer ty x)
  | .right ty m => ∀ x, Gives op (.integer ty x) (.member m)
  | .members m n => Gives op (.member m) (.member n)

/-- The exact value of a member, in the type the constructor is to give. -/
def Converts (callee : Callee) (m : Member) : Prop :=
  match callee with
  | .int => enumToNumber callee m = some (.integer m.cls.dtype.bits (BitVec.ofInt m.cls.dtype.bits m.value))
  | .float | .numberClass .float64 => enumToNumber callee m = some (.float (BinaryFloat.ofInt BinaryFloat.binary64 m.value))
  | .numberClass .float32 => enumToNumber callee m = some (.float (BinaryFloat.ofInt BinaryFloat.binary32 m.value))
  | .numberClass (.integer ty) => enumToNumber callee m = some (.integer ty.bits (BitVec.ofInt ty.bits m.value))
  | .numberClass _ => False

/-! ## Where they do -/

def lowest (ty : IntType) : Int := if ty.signed then -2 ^ (ty.bits - 1) else 0

def highest (ty : IntType) : Int := if ty.signed then 2 ^ (ty.bits - 1) - 1 else 2 ^ ty.bits - 1

/-- `x < e` for all `x` of the type: `e` is a value of the type, or below all of them and truncated to the least signed one. -/
def BelowRight (ty : IntType) (e : Int) : Prop :=
  ty.signed = true ∧ InRange true ty.bits e ∨ e ≤ lowest ty ∧ (2 : Int) ^ ty.bits ∣ e + 2 ^ (ty.bits - 1)

def AboveRight (ty : IntType) (e : Int) : Prop :=
  ty.signed = true ∧ InRange true ty.bits e ∨ highest ty ≤ e ∧ (2 : Int) ^ ty.bits ∣ e + 1 - 2 ^ (ty.bits - 1)

def Right (op : Op) : Operands → Prop
  | .members m n => (op = .eq ∨ op = .ne) ∧ m.value ≠ n.value + 2 ^ 64 ∧ n.value ≠ m.value + 2 ^ 64
  | .right ty m =>
    match op with
    | .eq | .ne => False
    | .lt | .ge => BelowRight ty m.value
    | .gt | .le => AboveRight ty m.value
    | .add | .sub => ty.bits = 64
  | .left m ty =>
    match op with
    | .eq | .ne => False
    | .gt | .le => BelowRight ty m.value
    | .lt | .ge => AboveRight ty m.value
    | .add | .sub => ty.bits = 64

end NumbaCudaMlir.IntEnum

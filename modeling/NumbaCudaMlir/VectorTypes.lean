import NumbaCudaMlir.IntegerArith
import NumbaCudaMlir.SignedDivision
import NumbaCudaMlir.UnifyTypes

/-!
# CUDA vector types

Vectors of one to four numbers. An operator takes its instruction from a table
that knows integers and floats, where the operators on scalars also look at the
sign of the type.
-/

namespace NumbaCudaMlir.VectorTypes

open MachineInt ArithOps
open NumberTyping (maxWidth)

/-! ## Types -/

inductive FloatType where
  | float16 | float32 | float64
  deriving DecidableEq, Repr

def FloatType.width : FloatType → Nat
  | float16 => 16
  | float32 => 32
  | float64 => 64

def FloatType.format : FloatType → BinaryFloat.Format
  | float16 => BinaryFloat.binary16
  | float32 => BinaryFloat.binary32
  | float64 => BinaryFloat.binary64

inductive DType where
  | integer (t : IntType)
  | float (f : FloatType)
  deriving DecidableEq, Repr

/-- The values of an element. -/
abbrev DType.Lane : DType → Type
  | integer t => BitVec t.bits
  | float _ => BinaryFloat.Value

structure VectorType where
  dtype : DType
  length : Nat
  deriving DecidableEq, Repr

inductive ArgType where
  | boolean
  | number (d : DType)
  | complex (f : FloatType)
  | vector (v : VectorType)
  deriving DecidableEq, Repr

def allDTypes : List DType :=
  NumberTyping.allIntegerTypes.map .integer ++ [FloatType.float16, .float32, .float64].map .float

def vectorTypes : List VectorType := allDTypes.flatMap fun d => [1, 2, 3, 4].map fun n => ⟨d, n⟩

/-! ## Unification -/

/-- The float that an integer is promoted to beside one. -/
def floatOf (t : IntType) : FloatType :=
  match t.width with
  | .w8 => .float16
  | .w16 => .float32
  | .w32 | .w64 => .float64

def maxFloat (f g : FloatType) : FloatType := if f.width < g.width then g else f

def promoteTypes : DType → DType → DType
  | .integer a, .integer b =>
    match NumberTyping.promoteTypes a b with
    | .integer t => .integer t
    | .boolean | .float64 => .float .float64
  | .integer a, .float f | .float f, .integer a => .float (maxFloat (floatOf a) f)
  | .float f, .float g => .float (maxFloat f g)

/-- `unify_types` of two; the promotion does not depend on their order. -/
def unifyTypes (a b : DType) : DType := if a = b then a else promoteTypes a b

def getVectorType (d : DType) (length : Nat) : Option VectorType := vectorTypes.find? (· = ⟨d, length⟩)

/-- The operators, each with its form in place. -/
inductive VectorOp where
  | add | sub | mul | floordiv | mod
  deriving DecidableEq, Repr

/-- `VectorBinOpTemplate`; a complex number is unified to a complex type, of which there are no vectors. -/
def VectorOp.resolve (op : VectorOp) : ArgType → ArgType → Option VectorType
  | .vector a, .vector b =>
    if ¬ (op = .add ∨ op = .sub) then none
    else if a.length ≠ b.length then none
    else getVectorType (unifyTypes a.dtype b.dtype) a.length
  | .vector a, .number d => getVectorType (unifyTypes a.dtype d) a.length
  | .number d, .vector b => getVectorType (unifyTypes d b.dtype) b.length
  | _, _ => none

/-- The elements that an argument brings to a constructor; only numbers and booleans are mixed with others. -/
def ArgType.elements : ArgType → Option Nat
  | boolean | number _ => some 1
  | complex _ => none
  | vector v => some v.length

def VectorType.accepts (ty : VectorType) (args : List ArgType) : Bool :=
  match args with
  | [.vector v] => v.length = ty.length
  | [.number _] => true
  | [.complex _] => ty.length = 2
  | args => (args.mapM ArgType.elements).map List.sum = some ty.length

/-! ## Values -/

inductive Scalar where
  | boolean (x : BitVec 1)
  | integer (t : IntType) (x : BitVec t.bits)
  | float (f : FloatType) (x : BinaryFloat.Value)

def Scalar.ofLane : (d : DType) → d.Lane → Scalar
  | .integer t, x => .integer t x
  | .float f, x => .float f x

structure VectorValue where
  ty : VectorType
  lanes : List ty.dtype.Lane
  wf : lanes.length = ty.length

inductive Arg where
  | boolean (x : BitVec 1)
  | number (d : DType) (x : d.Lane)
  | complex (f : FloatType) (re im : BinaryFloat.Value)
  | vector (v : VectorValue)

def Arg.type : Arg → ArgType
  | boolean _ => .boolean
  | number d _ => .number d
  | complex f _ _ => .complex f
  | vector v => .vector v.ty

def getConversionSignedness (source : ArgType) (target : DType) : Option Bool :=
  let ofTarget := match target with
    | .integer t => some t.signed
    | .float _ => none
  let ofDType : DType → Option Bool
    | .integer t => some t.signed
    | .float _ => ofTarget
  match source with
  | .boolean => some false
  | .number d => ofDType d
  | .vector v => ofDType v.dtype
  | .complex _ => ofTarget

/-! ## Conversion -/

def convertFloat (f g : FloatType) (x : BinaryFloat.Value) : BinaryFloat.Value :=
  if g.width < f.width then BinaryFloat.roundTo g.format x else x

def convert (signed : Option Bool) : Scalar → (target : DType) → Option target.Lane
  | .boolean x, .integer t => some (convertInteger signed t.bits x)
  | .boolean x, .float f => some (convertIntegerToFloat signed f.format x)
  | .integer _ x, .integer t => some (convertInteger signed t.bits x)
  | .integer _ x, .float f => some (convertIntegerToFloat signed f.format x)
  | .float _ x, .integer t => convertFloatToInteger signed t.bits x
  | .float f x, .float g => some (convertFloat f g x)

/-- `convert` of a vector to another element type, lane by lane; integers of one width have one type. -/
def convertLane (signed : Option Bool) : (source target : DType) → source.Lane → Option target.Lane
  | .integer s, .integer t, x =>
    some (if s.bits = t.bits then x.setWidth t.bits
      else if s.bits > t.bits then x.setWidth t.bits
      else if useSignedConversion signed (1 < s.bits) then x.signExtend t.bits
      else x.setWidth t.bits)
  | .integer _, .float f, x => some (convertIntegerToFloat signed f.format x)
  | .float _, .integer t, x => fpToInt (useSignedConversion signed (1 < t.bits)) t.bits x
  | .float f, .float g, x => some (convertFloat f g x)

def convertVector (signed : Option Bool) (v : VectorValue) (target : DType) : Option (List target.Lane) :=
  v.lanes.mapM (convertLane signed v.ty.dtype target)

/-! ## Constructors -/

/-- The scalars of an argument, each with the signedness of its conversion. -/
def Arg.scalars (target : DType) (arg : Arg) : List (Scalar × Option Bool) :=
  let signed := getConversionSignedness arg.type target
  match arg with
  | boolean x => [(.boolean x, signed)]
  | number d x => [(.ofLane d x, signed)]
  | complex f re im => [(.float f re, signed), (.float f im, signed)]
  | vector v => v.lanes.map fun x => (.ofLane v.ty.dtype x, signed)

/-- A `ValueError` without a value; a lane is poison where its conversion is. -/
def buildVectorFromScalars (scalars : List (Scalar × Option Bool)) (ty : VectorType) : Option (List (Option ty.dtype.Lane)) :=
  if scalars.length ≠ ty.length then none
  else some (scalars.map fun s => convert s.2 s.1 ty.dtype)

def constructorLowering (ty : VectorType) (args : List Arg) : Option (List (Option ty.dtype.Lane)) :=
  let scalars := args.flatMap (Arg.scalars ty.dtype)
  let scalars := if scalars.length = 1 ∧ 1 < ty.length then (List.replicate ty.length scalars).flatten else scalars
  buildVectorFromScalars scalars ty

/-! ## Operators on vectors -/

def iop {w : Nat} : VectorOp → BitVec w → BitVec w → Option (BitVec w)
  | .add => addi false
  | .sub => subi false
  | .mul => muli false
  | .floordiv => divsi
  | .mod => remsi

def fop (f : BinaryFloat.Format) : VectorOp → BinaryFloat.Value → BinaryFloat.Value → BinaryFloat.Value
  | .add => BinaryFloat.add f
  | .sub => BinaryFloat.sub f
  | .mul => BinaryFloat.mul f
  | .floordiv => BinaryFloat.div f
  | .mod => BinaryFloat.rem

def instruction (op : VectorOp) : (d : DType) → d.Lane → d.Lane → Option d.Lane
  | .integer _ => iop op
  | .float f => fun x y => some (fop f.format op x y)

/-- An operand, converted to the type of the result or broadcast to it. -/
def convertOperand (target : VectorType) (arg : Arg) : Option (List target.dtype.Lane) :=
  let signed := getConversionSignedness arg.type target.dtype
  match arg with
  | .vector v => convertVector signed v target.dtype
  | .number d x => (convert signed (.ofLane d x) target.dtype).map (List.replicate target.length)
  | .boolean _ | .complex .. => none

/-- `binop_lowering`: undefined as a whole where an instruction is in one lane. -/
def binopLowering (op : VectorOp) (target : VectorType) (lhs rhs : Arg) : Option (List target.dtype.Lane) := do
  let lhs ← convertOperand target lhs
  let rhs ← convertOperand target rhs
  (List.zipWith (instruction op target.dtype) lhs rhs).mapM id

inductive UnaryOp where
  | neg | abs
  deriving DecidableEq, Repr

/-- `math.absi`, which keeps the least value. -/
def absi {w : Nat} (x : BitVec w) : BitVec w := if x.slt 0#w then -x else x

def absf : BinaryFloat.Value → BinaryFloat.Value
  | .finite q => .finite |q|
  | .infinity _ => .infinity false
  | .nan => .nan

def unaryInstruction : UnaryOp → (d : DType) → d.Lane → d.Lane
  | .neg, .integer _ => fun x => 0 - x
  | .neg, .float _ => BinaryFloat.neg
  | .abs, .integer _ => absi
  | .abs, .float _ => absf

/-- `unary_lowering`; the operand has the type of the result. -/
def unaryLowering (op : UnaryOp) (v : VectorValue) : List v.ty.dtype.Lane := v.lanes.map (unaryInstruction op v.ty.dtype)

/-! ## Operators on scalars -/

def floatDivmod (f : BinaryFloat.Format) (x y : BinaryFloat.Value) : BinaryFloat.Value × BinaryFloat.Value :=
  let zero : BinaryFloat.Value := .finite 0
  let one : BinaryFloat.Value := .finite 1
  let half : BinaryFloat.Value := .finite (1 / 2)
  let mod := BinaryFloat.rem x y
  let div := BinaryFloat.div f (BinaryFloat.sub f x mod) y
  let modNonzero := IntegerArith.cmpf .ne mod zero
  let yNegative := IntegerArith.cmpf .lt y zero
  let modNegative := IntegerArith.cmpf .lt mod zero
  let adjust := modNonzero && (yNegative ^^ modNegative)
  let mod := if adjust then BinaryFloat.add f mod y else mod
  let div := if adjust then BinaryFloat.sub f div one else div
  let mod := if modNonzero then mod else zero
  let floordiv := BinaryFloat.floor div
  let roundUp := IntegerArith.cmpf .gt (BinaryFloat.sub f div floordiv) half
  let floordiv := if roundUp then BinaryFloat.add f floordiv one else floordiv
  let quotient := BinaryFloat.div f x y
  let floordiv := if IntegerArith.cmpf .ne div zero then floordiv else zero
  let floordiv := if IntegerArith.cmpf .eq y zero then quotient else floordiv
  (floordiv, mod)

/-- The lowering of an operator on two integers of one type, with a result of this type. -/
def scalarIntLowering (op : VectorOp) (t : IntType) (x y : BitVec t.bits) : Except IntegerArith.Failure IntegerArith.Operand :=
  let a : IntegerArith.Operand := ⟨.integer t, x⟩
  let b : IntegerArith.Operand := ⟨.integer t, y⟩
  let sig : NumberTyping.Signature := ⟨.integer t, (.integer t, .integer t)⟩
  match op with
  | .add => IntegerArith.binOpCg .add sig (.integer t) a b
  | .sub => IntegerArith.binOpCg .sub sig (.integer t) a b
  | .mul => IntegerArith.binOpCg .mul sig (.integer t) a b
  | .floordiv => IntegerArith.floordivCg (.integer t) a b
  | .mod => IntegerArith.modCg (.integer t) a b

def scalarFloatLowering (op : VectorOp) (f : BinaryFloat.Format) (x y : BinaryFloat.Value) : BinaryFloat.Value :=
  match op with
  | .add => BinaryFloat.add f x y
  | .sub => BinaryFloat.sub f x y
  | .mul => BinaryFloat.mul f x y
  | .floordiv => (floatDivmod f x y).1
  | .mod => (floatDivmod f x y).2

/-- The operator on scalars of an element type, without a value where it is undefined. -/
def scalarLowering (op : VectorOp) : (d : DType) → d.Lane → d.Lane → Option d.Lane
  | .integer t => fun x y => (scalarIntLowering op t x y).toOption.map fun r => r.bits.setWidth t.bits
  | .float f => fun x y => some (scalarFloatLowering op f.format x y)

/-- `lower_abs_number` and `operator_neg_number_lower` -/
def scalarUnaryLowering : UnaryOp → (d : DType) → d.Lane → d.Lane
  | .neg, .integer _ => fun x => 0 - x
  | .neg, .float _ => BinaryFloat.neg
  | .abs, .integer t => fun x => if t.signed then absi x else x
  | .abs, .float _ => absf

end NumbaCudaMlir.VectorTypes

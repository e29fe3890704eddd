import NumbaCudaMlir.Nditer
import NumbaCudaMlir.ShiftUfunc
import NumbaCudaMlir.TruthValue

/-!
# Comparisons, truth and extrema of NumPy

The ufuncs of two arrays are `linalg.generic` over the extents of the first.
Comparisons leave the elements in their own types, the others convert them to
the element type of the result before they compute. Two scalars are computed
with and stored into the first element of an output array.
-/

namespace NumbaCudaMlir.Elementwise

open MachineInt
open NumberTyping (OperandType)
open IntegerArith (Operand)
open TruthValue (FloatType MlirType MlirValue convert convertFloat toBool)
open Ufunc (integerLoops findMatchingLoop)
open Nditer (broadcastShapes broadcastIndex)
open Tensor (InShape)

/-! ## Ufuncs -/

inductive Comparison where
  | greater | greaterEqual | less | lessEqual | equal | notEqual
  deriving DecidableEq

inductive Logical where
  | logicalAnd | logicalOr | logicalXor
  deriving DecidableEq

inductive Extremum where
  | maximum | minimum | fmax | fmin
  deriving DecidableEq

inductive BinaryUfunc where
  | comparison (c : Comparison)
  | logical (l : Logical)
  | extremum (e : Extremum)
  deriving DecidableEq

def load (x : Operand) : MlirValue := .int x.ty.width x.bits

def bool (b : Bool) : MlirValue := .int 1 (BitVec.ofBool b)

/-! ## Functions of elements -/

/-- `_create_comparison_fn` on two integers of one width, whose type has no sign. -/
def Comparison.fn (c : Comparison) (a b : Operand) : Bool :=
  match c with
  | greater => b.bits.toInt < a.bits.toInt
  | greaterEqual => b.bits.toInt ≤ a.bits.toInt
  | less => a.bits.toInt < b.bits.toInt
  | lessEqual => a.bits.toInt ≤ b.bits.toInt
  | equal => a.bits.toInt = b.bits.toInt
  | notEqual => a.bits.toInt ≠ b.bits.toInt

def Logical.fn (l : Logical) (a b : MlirValue) : Bool :=
  match l with
  | logicalAnd => toBool a && toBool b
  | logicalOr => toBool a || toBool b
  | logicalXor => toBool a ^^ toBool b

/-- `_float_min_max`: one of the operands is tested for NaN. -/
def floatMinMax (greater : Bool) (a b nanOperand : BinaryFloat.Value) : BinaryFloat.Value :=
  let predicate := if greater then IntegerArith.cmpf .ge a b else IntegerArith.cmpf .le a b
  if predicate ∨ nanOperand = .nan then a else b

def complexOrder (greater : Bool) (re im re' im' : BinaryFloat.Value) : Bool :=
  let op : NumberTyping.BinOp := if greater then .gt else .lt
  IntegerArith.cmpf op re re' || IntegerArith.cmpf .eq re re' && IntegerArith.cmpf op im im'

def Extremum.greater : Extremum → Bool
  | maximum | fmax => true
  | minimum | fmin => false

/-- The functions ask for a type and select; both operands have been converted to it. -/
def Extremum.fn (e : Extremum) : MlirValue → MlirValue → Option MlirValue
  | .int v x, .int w y =>
    let keepA : Bool := if e.greater then y.toInt < x.toInt else x.toInt < y.toInt
    some (if keepA then .int v x else .int w y)
  | .complex f re im, .complex g re' im' =>
    some (if complexOrder e.greater re im re' im' then .complex f re im else .complex g re' im')
  | .float f x, .float _ y =>
    let nanOperand := match e with
      | maximum | minimum => x
      | fmax | fmin => y
    some (.float f (floatMinMax e.greater x y nanOperand))
  | _, _ => none

/-! ## Typing -/

/-- `np.can_cast(source, target, "same_kind")` between the kinds of numbers. -/
def kind : TruthValue.ScalarType → Nat
  | .boolean => 0
  | .integer t => if t.signed then 2 else 1
  | .float _ => 3
  | .complex _ => 4

/-- The type of the loop that NumPy finds: one of booleans comes first, and integers without one meet in `float64`. -/
def extremumLoop : OperandType → OperandType → TruthValue.ScalarType
  | .boolean, .boolean => .boolean
  | a, b => match findMatchingLoop integerLoops a b with
    | some t => .integer t
    | none => .float .float64

/-- What the loop returns, the type of a result without an output array. -/
def BinaryUfunc.outputType (u : BinaryUfunc) (a b : OperandType) : TruthValue.ScalarType :=
  match u with
  | comparison _ | logical _ => .boolean
  | extremum _ => extremumLoop a b

/-- The verifier asks `arith.cmpi` for operands of one type. -/
def BinaryUfunc.verifies (u : BinaryUfunc) (a b : OperandType) : Bool :=
  match u with
  | comparison _ => a.width = b.width
  | logical _ | extremum _ => true

/-! ## Results at an element -/

def BinaryUfunc.mathFn (u : BinaryUfunc) (a b : MlirValue) : Option MlirValue :=
  match u with
  | comparison _ => none
  | logical l => some (bool (l.fn a b))
  | extremum e => e.fn a b

def boolToValueType (b : Bool) : MlirType → MlirValue
  | .int w => .int w ((BitVec.ofBool b).setWidth w)
  | .float f => .float f (BinaryFloat.ofInt f.format b.toNat)
  | .complex f => .complex f (BinaryFloat.ofInt f.format b.toNat) (.finite 0)

/-- The body of `create_binary_elementwise_op` and, with an output array, of
`create_binary_elementwise_op_with_output`, where comparisons keep `convert_inputs` false. -/
def BinaryUfunc.arrayElement (u : BinaryUfunc) (target : TruthValue.ScalarType) (x y : Operand) : Option MlirValue :=
  match u with
  | comparison c => convert none (bool (c.fn x y)) target.toMlir
  | logical _ | extremum _ => do
    let a ← convert none (load x) target.toMlir
    let b ← convert none (load y) target.toMlir
    let result ← u.mathFn a b
    convert none result target.toMlir

/-- `_create_comparison_scalar_lowering`, `_create_logical_binary_scalar_lowering` and `_create_binary_scalar_to_output_array`. -/
def BinaryUfunc.scalarElement (u : BinaryUfunc) (out : TruthValue.ScalarType) (x y : Operand) : Option MlirValue :=
  match u with
  | comparison c => some (boolToValueType (c.fn x y) out.toMlir)
  | logical l => some (boolToValueType (l.fn (load x) (load y)) out.toMlir)
  | extremum _ => u.arrayElement out x y

def logicalNotFn (a : MlirValue) : Bool := toBool a ^^ true

/-- The body of `create_elementwise_op` for `np.logical_not`, where the element keeps its type. -/
def notElement (x : Operand) : Option MlirValue := convert none (bool (logicalNotFn (load x))) (.int 1)

/-- The body of `create_elementwise_op_with_output`. -/
def notElementWithOutput (out : TruthValue.ScalarType) (x : Operand) : Option MlirValue := do
  let a ← convert none (load x) out.toMlir
  convert none (bool (logicalNotFn a)) out.toMlir

def notScalarElement (out : TruthValue.ScalarType) (x : Operand) : MlirValue := boolToValueType (logicalNotFn (load x)) out.toMlir

/-! ## Calls -/

/-- An operand's type; a scalar has no extents. -/
structure Arg where
  dtype : OperandType
  sizes : Option (List Nat)

def Arg.shape (a : Arg) : List Nat := a.sizes.getD []

/-- `types.Number`, which has no booleans. -/
def isNumber : OperandType → Bool
  | .integer _ => true
  | .boolean => false

structure Out where
  dtype : TruthValue.ScalarType
  sizes : List Nat

structure Outcome where
  shape : List Nat
  /-- None of what is read past the end of an array. -/
  elem : List Nat → Option MlirValue

/-- A call of two operands that NumPy accepts: they are broadcast, to the shape
of an output array where there is one, and its dtype takes what the loop
returns. -/
structure Call where
  ufunc : BinaryUfunc
  lhs : Arg
  rhs : Arg
  out : Option Out
  shape : List Nat
  broadcast : broadcastShapes ([lhs.shape, rhs.shape] ++ (out.map (·.sizes)).toList) = some shape
  fitsOut : ∀ o ∈ out, o.sizes = shape ∧ kind (ufunc.outputType lhs.dtype rhs.dtype) ≤ kind o.dtype

/-- The elements of the operands, and those that the output array had before. -/
structure Call.Memory (c : Call) where
  lhs : List Nat → BitVec c.lhs.dtype.width
  rhs : List Nat → BitVec c.rhs.dtype.width
  initial : List Nat → MlirValue

section
variable (c : Call) (m : c.Memory)

def Call.lhsAt (is : List Nat) : Operand := ⟨c.lhs.dtype, m.lhs is⟩

def Call.rhsAt (is : List Nat) : Operand := ⟨c.rhs.dtype, m.rhs is⟩

/-- The loops of `linalg.generic` have identity maps and the extents of the first operand. -/
def Call.generic (target : TruthValue.ScalarType) (rhsSizes is : List Nat) : Option MlirValue :=
  if InShape is rhsSizes then c.ufunc.arrayElement target (c.lhsAt m is) (c.rhsAt m is) else none

/-- The outcome of a call that is registered and whose module verifies. -/
def lower : Option Outcome :=
  if c.ufunc.verifies c.lhs.dtype c.rhs.dtype then
    match c.lhs.sizes, c.rhs.sizes, c.out with
    | some ls, some rs, none =>
      match c.ufunc with
      | .comparison _ => none
      | .logical _ | .extremum _ =>
        if ls.length = rs.length then some ⟨ls, c.generic m (c.ufunc.outputType c.lhs.dtype c.rhs.dtype) rs⟩ else none
    | some ls, some rs, some out =>
      if ls.length = rs.length ∧ ls.length = out.sizes.length then
        some ⟨out.sizes, fun is => if InShape is ls then c.generic m out.dtype rs is else some (m.initial is)⟩
      else none
    | none, none, some out =>
      if isNumber c.lhs.dtype ∧ isNumber c.rhs.dtype ∧ out.sizes.length = 1 then
        some ⟨out.sizes, fun is => if is = [0] then c.ufunc.scalarElement out.dtype (c.lhsAt m []) (c.rhsAt m []) else some (m.initial is)⟩
      else none
    | _, _, _ => none
  else none

end

structure NotCall where
  arg : Arg
  out : Option Out
  shape : List Nat
  broadcast : broadcastShapes (arg.shape :: (out.map (·.sizes)).toList) = some shape
  fitsOut : ∀ o ∈ out, o.sizes = shape

structure NotCall.Memory (c : NotCall) where
  elem : List Nat → BitVec c.arg.dtype.width
  initial : List Nat → MlirValue

section
variable (c : NotCall) (m : c.Memory)

def NotCall.at (is : List Nat) : Operand := ⟨c.arg.dtype, m.elem is⟩

def lowerNot : Option Outcome :=
  match c.arg.sizes, c.out with
  | some sizes, none => some ⟨sizes, fun is => notElement (c.at m is)⟩
  | some sizes, some out =>
    if sizes.length = out.sizes.length then
      some ⟨out.sizes, fun is => if InShape is sizes then notElementWithOutput out.dtype (c.at m is) else some (m.initial is)⟩
    else none
  | none, some out =>
    if isNumber c.arg.dtype ∧ out.sizes.length = 1 then
      some ⟨out.sizes, fun is => if is = [0] then some (notScalarElement out.dtype (c.at m [])) else some (m.initial is)⟩
    else none
  | none, none => none

end

/-! ## NumPy -/

def Comparison.holds (c : Comparison) (m n : Int) : Bool :=
  match c with
  | greater => n < m
  | greaterEqual => n ≤ m
  | less => m < n
  | lessEqual => m ≤ n
  | equal => m = n
  | notEqual => m ≠ n

def Logical.holds (l : Logical) (m n : Int) : Bool :=
  match l with
  | logicalAnd => decide (m ≠ 0) && decide (n ≠ 0)
  | logicalOr => decide (m ≠ 0) || decide (n ≠ 0)
  | logicalXor => decide (m ≠ 0) ^^ decide (n ≠ 0)

def Extremum.pick (e : Extremum) (m n : Int) : Int := if e.greater then max m n else min m n

def castInt : TruthValue.ScalarType → Int → MlirValue
  | .boolean, n => bool (n ≠ 0)
  | .integer t, n => .int t.bits (BitVec.ofInt t.bits n)
  | .float f, n => .float f (BinaryFloat.ofInt f.format n)
  | .complex f, n => .complex f (BinaryFloat.ofInt f.format n) (.finite 0)

/-- The extremum of two integers in a loop of floats, cast to a dtype that takes floats. -/
def floatExtremum (e : Extremum) (f : FloatType) (out : TruthValue.ScalarType) (m n : Int) : Option MlirValue :=
  let x := BinaryFloat.ofInt f.format m
  convert none (.float f (floatMinMax e.greater x (BinaryFloat.ofInt f.format n) x)) out.toMlir

/-- The result in the type of the loop, cast to the dtype of the output. -/
def BinaryUfunc.expected (u : BinaryUfunc) (out : TruthValue.ScalarType) (x y : Operand) : Option MlirValue :=
  match u with
  | comparison c => some (castInt out (c.holds x.value y.value).toNat)
  | logical l => some (castInt out (l.holds x.value y.value).toNat)
  | extremum e =>
    match extremumLoop x.ty y.ty with
    | .float f => floatExtremum e f out x.value y.value
    | _ => some (castInt out (e.pick x.value y.value))

def Call.outType (c : Call) : TruthValue.ScalarType :=
  match c.out with
  | some out => out.dtype
  | none => c.ufunc.outputType c.lhs.dtype c.rhs.dtype

/-- Every element of the result has NumPy's value at the broadcast operands. -/
def Meets (c : Call) (m : c.Memory) : Prop :=
  ∃ o, lower c m = some o ∧ o.shape = c.shape ∧ ∀ is, InShape is c.shape → ∃ v, o.elem is = some v ∧
    c.ufunc.expected c.outType (c.lhsAt m (broadcastIndex c.lhs.shape is)) (c.rhsAt m (broadcastIndex c.rhs.shape is)) = some v

def NotCall.outType (c : NotCall) : TruthValue.ScalarType :=
  match c.out with
  | some out => out.dtype
  | none => .boolean

def NotMeets (c : NotCall) (m : c.Memory) : Prop :=
  ∃ o, lowerNot c m = some o ∧ o.shape = c.shape ∧ ∀ is, InShape is c.shape →
    o.elem is = some (castInt c.outType (decide ((c.at m (broadcastIndex c.arg.shape is)).value = 0)).toNat)

end NumbaCudaMlir.Elementwise

import Mathlib.Algebra.BigOperators.Group.Finset.Basic
import NumbaCudaMlir.Dot

/-!
# Reductions of whole arrays

Each function folds the elements by a `linalg.reduce` over all dimensions and
converts the scalar to the type of its result. `sum`, `prod`, `min` and `max` start
from a neutral element of the dtype, `any` and `all` from a boolean, and `mean` and
`var` from a tensor that nothing was written to.
-/

namespace NumbaCudaMlir.Reduction

open MachineInt
open NumberTyping (OperandType UnifiedType)
open Dot (Value zero addValue mulValue)
open Tensor (indices InShape)

/-! ## Arrays -/

/-- A boolean is stored in a byte. -/
def storageBits : OperandType → Nat
  | .boolean => 8
  | .integer ty => ty.bits

def storageToValue : (dtype : OperandType) → BitVec (storageBits dtype) → BitVec dtype.width
  | .boolean, byte => BitVec.ofBool (byte != 0)
  | .integer _, x => x

/-- `memref_to_value_tensor`, which maps into an empty tensor where the stored type is another. -/
def memrefToValueTensor (dtype : OperandType) (array : List Nat → BitVec (storageBits dtype))
    (_init : List Nat → BitVec dtype.width) : List Nat → BitVec dtype.width :=
  fun is => storageToValue dtype (array is)

/-- `linalg.reduce` over all dimensions; the block takes the element and the value so far. -/
def linalgReduce {α β : Type} (sizes : List Nat) (array : List Nat → α) (init : β) (combiner : α → β → β) : β :=
  (indices sizes).foldl (fun acc is => combiner (array is) acc) init

/-! ## Values -/

/-- `convert` to the type of the result, with no word on the sign. -/
def convertTo : (target : UnifiedType) → {w : Nat} → BitVec w → Value target
  | .boolean, _, x => convertInteger none 1 x
  | .integer ty, _, x => convertInteger none ty.bits x
  | .float64, _, x => convertIntegerToFloat none BinaryFloat.binary64 x

/-- `convert` of an index: `arith.index_cast`, and by way of `i64` to a float. -/
def convertIndex : (target : UnifiedType) → BitVec 64 → Value target
  | .boolean, n => n.setWidth 1
  | .integer ty, n => n.setWidth ty.bits
  | .float64, n => convertIntegerToFloat none BinaryFloat.binary64 n

/-- `arith.divsi`, which is undefined by zero and on overflow. -/
def divsi {w : Nat} (x y : BitVec w) : Option (BitVec w) :=
  if y = 0 ∨ x = BitVec.intMin w ∧ y = BitVec.allOnes w then none else some (x.sdiv y)

/-- `arith.divf` by a number that is not negative. -/
def divf : BinaryFloat.Value → BinaryFloat.Value → BinaryFloat.Value
  | .finite p, .finite q =>
    if q = 0 then if p = 0 then .nan else .infinity (p < 0) else BinaryFloat.ofRat BinaryFloat.binary64 (p / q)
  | .infinity negative, .finite _ => .infinity negative
  | .finite _, .infinity _ => .finite 0
  | .infinity _, .infinity _ | .nan, _ | _, .nan => .nan

def divValue : (target : UnifiedType) → Value target → Value target → Option (Value target)
  | .boolean, x, y => divsi x y
  | .integer _, x, y => divsi x y
  | .float64, x, y => some (divf x y)

def subValue : (target : UnifiedType) → Value target → Value target → Value target
  | .boolean, x, y => BitVec.sub x y
  | .integer _, x, y => BitVec.sub x y
  | .float64, x, y => BinaryFloat.add BinaryFloat.binary64 x (BinaryFloat.mul BinaryFloat.binary64 (.finite (-1)) y)

/-! ## Calls -/

inductive Fn where
  | sum | prod | min | max | any | all | len | mean | var
  deriving DecidableEq, Repr

def expandInteger : OperandType → IntType
  | .boolean => NumberTyping.int64
  | .integer ty => if ty.signed then NumberTyping.int64 else NumberTyping.uint64

/-- The types of results: `prod`, `mean` and `var` have an overload beside their template. -/
def Fn.Returns (dtype : OperandType) (target : UnifiedType) : Fn → Prop
  | sum | min | max => target = dtype.unified
  | prod => target = dtype.unified ∨ target = .integer (expandInteger dtype)
  | any | all => target = .boolean
  | len => target = .integer NumberTyping.int64
  | mean | var => target = dtype.unified ∨ target = .float64

/-- A call on an array; extents and the number of elements are `intp`. -/
structure Call where
  fn : Fn
  dtype : OperandType
  target : UnifiedType
  returns : fn.Returns dtype target
  sizes : List Nat
  extent_lt : ∀ n ∈ sizes, n < 2 ^ 63
  size_lt : sizes.prod < 2 ^ 63
  array : List Nat → BitVec (storageBits dtype)

/-- What memory held where tensors are allocated. -/
structure Call.Memory (c : Call) where
  values : List Nat → BitVec c.dtype.width
  accumulator : Value c.target
  squares : Value c.target

section
variable (c : Call)

/-! ## Lowering -/

def Call.valueTensor (m : c.Memory) : List Nat → BitVec c.dtype.width := memrefToValueTensor c.dtype c.array m.values

def lowerSum (m : c.Memory) : Value c.target :=
  convertTo c.target (linalgReduce c.sizes (c.valueTensor m) (BitVec.ofNat c.dtype.width 0) fun outArg inArg => outArg + inArg)

/-- `create_reduction_op`, where the dtype has an initial value. -/
def createReductionOp (m : c.Memory) (initValueFn : (dtype : OperandType) → Option (BitVec dtype.width))
    (combinerFn : (dtype : OperandType) → BitVec dtype.width → BitVec dtype.width → BitVec dtype.width) : Option (Value c.target) :=
  (initValueFn c.dtype).map fun init =>
    convertTo c.target (linalgReduce c.sizes (c.valueTensor m) init fun inArg outArg => combinerFn c.dtype outArg inArg)

def minInitValue : (dtype : OperandType) → Option (BitVec dtype.width)
  | .integer ty => some (BitVec.ofInt ty.bits (if ty.signed then 2 ^ (ty.bits - 1) - 1 else -1))
  | .boolean => none

def maxInitValue : (dtype : OperandType) → Option (BitVec dtype.width)
  | .integer ty => some (BitVec.ofInt ty.bits (if ty.signed then -2 ^ (ty.bits - 1) else 0))
  | .boolean => none

def minCombiner (dtype : OperandType) (outArg inArg : BitVec dtype.width) : BitVec dtype.width :=
  if (if dtype.signed then outArg.sle inArg else outArg.ule inArg) then outArg else inArg

def maxCombiner (dtype : OperandType) (outArg inArg : BitVec dtype.width) : BitVec dtype.width :=
  if (if dtype.signed then inArg.sle outArg else inArg.ule outArg) then outArg else inArg

def lowerMin (m : c.Memory) : Option (Value c.target) := createReductionOp c m minInitValue minCombiner

def lowerMax (m : c.Memory) : Option (Value c.target) := createReductionOp c m maxInitValue maxCombiner

def lowerProd (m : c.Memory) : Option (Value c.target) :=
  createReductionOp c m (fun dtype => some (BitVec.ofNat dtype.width 1)) fun _ outArg inArg => outArg * inArg

/-- `np_any_cg`, whose result is stored as it is. -/
def lowerAny (m : c.Memory) : BitVec 1 :=
  linalgReduce c.sizes (c.valueTensor m) 0#1 fun inArg outArg => outArg ||| BitVec.ofBool (inArg != 0)

def lowerAll (m : c.Memory) : BitVec 1 :=
  linalgReduce c.sizes (c.valueTensor m) 1#1 fun inArg outArg => outArg &&& BitVec.ofBool (inArg != 0)

def lowerLen : Value c.target :=
  convertIndex c.target (c.sizes.foldl (fun product n => product * BitVec.ofNat 64 n) 1#64)

/-- What `mean` and `var` compute on the way to their result. -/
structure Statistic (target : UnifiedType) where
  summed : Value target
  numElements : Value target
  result : Option (Value target)

def lowerSummed (m : c.Memory) : Value c.target :=
  linalgReduce c.sizes (c.valueTensor m) m.accumulator fun element acc => addValue c.target acc (convertTo c.target element)

/-- `functools.reduce`, which raises on an empty list. -/
def reduceDims : List Nat → Option (BitVec 64)
  | [] => none
  | n :: ns => some (ns.foldl (fun product n => product * BitVec.ofNat 64 n) (BitVec.ofNat 64 n))

def lowerMean (m : c.Memory) : Option (Statistic c.target) := do
  let numElements := convertIndex c.target (← reduceDims c.sizes)
  let summed := lowerSummed c m
  some ⟨summed, numElements, divValue c.target summed numElements⟩

def lowerVar (m : c.Memory) : Option (Statistic c.target) := do
  let numElements := convertIndex c.target (← reduceDims c.sizes)
  let summed := lowerSummed c m
  let variance := (divValue c.target summed numElements).bind fun mean =>
    let squares := linalgReduce c.sizes (c.valueTensor m) m.squares fun element acc =>
      let diff := subValue c.target (convertTo c.target element) mean
      addValue c.target acc (mulValue c.target diff diff)
    divValue c.target squares numElements
  some ⟨summed, numElements, variance⟩

end

inductive Outcome (target : UnifiedType) where
  | scalar (x : Value target)
  | statistic (s : Statistic target)

/-- A boolean result, of the type that `any` and `all` return. -/
def ofBit : (target : UnifiedType) → BitVec 1 → Option (Value target)
  | .boolean, x => some x
  | .integer _, _ | .float64, _ => none

/-- What a call does; none where its module is not built. -/
def lower (c : Call) (m : c.Memory) : Option (Outcome c.target) :=
  match c.fn with
  | .sum => some (.scalar (lowerSum c m))
  | .prod => (lowerProd c m).map .scalar
  | .min => (lowerMin c m).map .scalar
  | .max => (lowerMax c m).map .scalar
  | .any => (ofBit c.target (lowerAny c m)).map .scalar
  | .all => (ofBit c.target (lowerAll c m)).map .scalar
  | .len => some (.scalar (lowerLen c))
  | .mean => (lowerMean c m).map .statistic
  | .var => (lowerVar c m).map .statistic

/-! ## NumPy -/

section
variable (c : Call)

/-- An element, read by its own sign. -/
def Call.element (is : List Nat) : Int := value c.dtype.signed (storageToValue c.dtype (c.array is))

def Call.positions : Finset (List Nat) := (indices c.sizes).toFinset

/-- The fold of the elements, where NumPy defines it; of `mean` and `var` it is the sum. -/
def Call.Denotes (n : Int) : Prop :=
  match c.fn with
  | .sum | .mean | .var => n = ∑ is ∈ c.positions, c.element is
  | .prod => n = ∏ is ∈ c.positions, c.element is
  | .min => (∃ is ∈ c.positions, c.element is = n) ∧ ∀ is ∈ c.positions, n ≤ c.element is
  | .max => (∃ is ∈ c.positions, c.element is = n) ∧ ∀ is ∈ c.positions, c.element is ≤ n
  | .any => ∃ b : Bool, n = b.toNat ∧ (b = true ↔ ∃ is ∈ c.positions, c.element is ≠ 0)
  | .all => ∃ b : Bool, n = b.toNat ∧ (b = true ↔ ∀ is ∈ c.positions, c.element is ≠ 0)
  | .len => ∃ first rest, c.sizes = first :: rest ∧ n = first

end

/-- The value is the integer, modulo the width of its type. -/
def StandsFor : (target : UnifiedType) → Int → Value target → Prop
  | .boolean, n, x => x = BitVec.ofInt 1 n
  | .integer ty, n, x => x = BitVec.ofInt ty.bits n
  | .float64, n, x => x = BinaryFloat.Value.finite n

def Outcome.Gives {target : UnifiedType} (n count : Int) : Outcome target → Prop
  | scalar x => StandsFor target n x
  | statistic s => StandsFor target n s.summed ∧ StandsFor target count s.numElements

/-- Whatever memory held, the fold is what NumPy says. -/
def Meets (c : Call) : Prop :=
  ∀ (m : c.Memory) (n : Int), c.Denotes n → ∃ o, lower c m = some o ∧ o.Gives n c.positions.card

end NumbaCudaMlir.Reduction

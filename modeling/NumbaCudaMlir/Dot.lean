import NumbaCudaMlir.Convert
import NumbaCudaMlir.Tensor
import NumbaCudaMlir.UnifyTypes

/-!
# Products of arrays

`a @ b` and `np.dot` of two matrices fill a tensor with zeros and multiply the
operands, converted to the type of the result, into it. `np.dot` of two vectors
multiplies elements in a type of their own before it adds them to the result.
The other ranks allocate their result by an operation that does not verify.
-/

namespace NumbaCudaMlir.Dot

open MachineInt
open NumberTyping (UnifiedType unifyTypes)
open Tensor (indices InShape)

/-! ## Values -/

structure IntArray (ty : IntType) where
  sizes : List Nat
  load : List Nat → BitVec ty.bits

def Value : UnifiedType → Type
  | .boolean => BitVec 1
  | .integer ty => BitVec ty.bits
  | .float64 => BinaryFloat.Value

def zero : (target : UnifiedType) → Value target
  | .boolean => 0#1
  | .integer ty => BitVec.ofNat ty.bits 0
  | .float64 => .finite 0

def mulValue : (target : UnifiedType) → Value target → Value target → Value target
  | .boolean, x, y => BitVec.mul x y
  | .integer _, x, y => BitVec.mul x y
  | .float64, x, y => BinaryFloat.mul BinaryFloat.binary64 x y

def addValue : (target : UnifiedType) → Value target → Value target → Value target
  | .boolean, x, y => BitVec.add x y
  | .integer _, x, y => BitVec.add x y
  | .float64, x, y => BinaryFloat.add BinaryFloat.binary64 x y

/-- `simple_scalar_conversion_op` on an integer: `arith.trunci`, `arith.extsi` or `arith.sitofp`. -/
def simpleScalarConversion : (target : UnifiedType) → {w : Nat} → BitVec w → Value target
  | .boolean, w, x => if 1 < w then x.setWidth 1 else x.signExtend 1
  | .integer ty, w, x => if ty.bits < w then x.setWidth ty.bits else x.signExtend ty.bits
  | .float64, w, x => intToFp (1 < w) BinaryFloat.binary64 x

def mul {v w : Nat} (x : BitVec v) (y : BitVec w) : BitVec (max v w) :=
  convertInteger (some true) (max v w) x * convertInteger (some true) (max v w) y

/-- `add` of a product to a value of the result's type, which is no narrower. -/
def addProduct : (target : UnifiedType) → Value target → {w : Nat} → BitVec w → Value target
  | .boolean, current, _, product => BitVec.add current (convertInteger (some true) 1 product)
  | .integer ty, current, _, product => BitVec.add current (convertInteger (some true) ty.bits product)
  | .float64, current, _, product => BinaryFloat.add BinaryFloat.binary64 current (intToFp true BinaryFloat.binary64 product)

def linalgFill {target : UnifiedType} (value : Value target) (_outs : List Nat → Value target) : List Nat → Value target := fun _ => value

/-! ## Lowering -/

inductive Side where
  | lhs | rhs
  deriving DecidableEq

/-- What the kernel does: the result, the elements that are read, and whether the error code is set. -/
structure Outcome (target : UnifiedType) where
  shape : List Nat
  elem : List Nat → Value target
  reads : List (Side × List Nat)
  error : Bool

section
variable {a b : IntType} (lhs : IntArray a) (rhs : IntArray b)

/-- The loops of `linalg.matmul` take the contracted extent from the first operand. -/
def lowerMatmul (target : UnifiedType) (uninitialised : List Nat → Value target) : Outcome target :=
  let (m, k) := (lhs.sizes.getD 0 0, lhs.sizes.getD 1 0)
  let (k', n) := (rhs.sizes.getD 0 0, rhs.sizes.getD 1 0)
  let lhsTensor := fun is => simpleScalarConversion target (lhs.load is)
  let rhsTensor := fun is => simpleScalarConversion target (rhs.load is)
  let resultTensor := linalgFill (zero target) uninitialised
  { shape := [m, n]
    elem is := (List.range k).foldl (fun acc l =>
      addValue target acc (mulValue target (lhsTensor [is.getD 0 0, l]) (rhsTensor [l, is.getD 1 0]))) (resultTensor is)
    reads := (indices [m, n]).flatMap fun is => (List.range k).flatMap fun l =>
      [(.lhs, [is.getD 0 0, l]), (.rhs, [l, is.getD 1 0])]
    error := decide (k ≠ k') }

def lowerLinalgDotVector (target : UnifiedType) (uninitialised : List Nat → Value target) : Outcome target :=
  let (n, rhsDim) := (lhs.sizes.getD 0 0, rhs.sizes.getD 0 0)
  let resultTensor := linalgFill (zero target) uninitialised
  { shape := []
    elem _ := (List.range n).foldl (fun current i => addProduct target current (mul (lhs.load [i]) (rhs.load [i]))) (resultTensor [0, 0])
    reads := (List.range n).flatMap fun i => [(.lhs, [i]), (.rhs, [i])]
    error := decide (n ≠ rhsDim) }

/-- The verifier of `memref.alloc` on the type of an array, whose layout has a symbol for the offset and for each stride. -/
def allocVerifies (ndim symbolOperands : Nat) : Bool := symbolOperands = 1 + ndim

/-- The extents that `dot` keeps of its right operand. -/
def keptDims (sizes : List Nat) : List Nat := if sizes.length = 1 then [] else sizes.dropLast.dropLast ++ [sizes.getLastD 0]

def rhsIndex (sizes kept : List Nat) (k : Nat) : List Nat := if sizes.length = 1 then [k] else kept.dropLast ++ [k, kept.getLastD 0]

/-- `lower_linalg_nd_1d_dot` and `lower_linalg_nd_md_dot`; a reduction has to be of the type of its initial value. -/
def lowerLinalgNdDot : Option (Outcome (.integer a)) :=
  let resultDims := lhs.sizes.dropLast ++ keptDims rhs.sizes
  let outer := lhs.sizes.length - 1
  let k := lhs.sizes.getLastD 0
  let k' := if rhs.sizes.length = 1 then rhs.sizes.getD 0 0 else rhs.sizes.getD (rhs.sizes.length - 2) 0
  if allocVerifies resultDims.length 0 ∧ max a.bits b.bits = a.bits then
    some
      { shape := resultDims
        elem is := (List.range k).foldl (fun acc l => addProduct (.integer a) acc
          (mul (lhs.load (is.take outer ++ [l])) (rhs.load (rhsIndex rhs.sizes (is.drop outer) l)))) (zero (.integer a))
        reads := (indices resultDims).flatMap fun is => (List.range k).flatMap fun l =>
          [(.lhs, is.take outer ++ [l]), (.rhs, rhsIndex rhs.sizes (is.drop outer) l)]
        error := decide (k ≠ k') }
  else none

end

/-! ## Calls -/

inductive Op where
  | dot | matmul
  deriving DecidableEq

/-- The ranks that typing and the assertions of the lowering let through. -/
def Op.Accepts : Op → Nat → Nat → Prop
  | .dot, l, r => 1 ≤ l ∧ 1 ≤ r
  | .matmul, l, r => l = 2 ∧ r = 2

structure Call where
  op : Op
  a : IntType
  b : IntType
  lhsSizes : List Nat
  rhsSizes : List Nat
  accepted : op.Accepts lhsSizes.length rhsSizes.length

/-- The elements of the arrays, and what memory held where tensors are allocated. -/
structure Call.Memory (c : Call) where
  lhs : List Nat → BitVec c.a.bits
  rhs : List Nat → BitVec c.b.bits
  uninitialised : (target : UnifiedType) → List Nat → Value target

def unifyDtypes (a b : IntType) : UnifiedType := unifyTypes [.integer a, .integer b]

/-- The outcome of a call whose module verifies, at the dtype that typing gives the result. -/
def lower (c : Call) (m : c.Memory) : Option ((target : UnifiedType) × Outcome target) :=
  let lhs : IntArray c.a := ⟨c.lhsSizes, m.lhs⟩
  let rhs : IntArray c.b := ⟨c.rhsSizes, m.rhs⟩
  let target := unifyDtypes c.a c.b
  if c.lhsSizes.length = 2 ∧ c.rhsSizes.length = 2 then some ⟨target, lowerMatmul lhs rhs target (m.uninitialised target)⟩
  else if c.lhsSizes.length = 1 ∧ c.rhsSizes.length = 1 then
    some ⟨target, lowerLinalgDotVector lhs rhs target (m.uninitialised target)⟩
  else (lowerLinalgNdDot lhs rhs).map fun o => ⟨.integer c.a, o⟩

/-! ## NumPy -/

section
variable (c : Call)

def Call.inner : Nat := c.lhsSizes.getLastD 0

def Call.rhsInner : Nat := if c.rhsSizes.length = 1 then c.rhsSizes.getD 0 0 else c.rhsSizes.getD (c.rhsSizes.length - 2) 0

def Call.shape : List Nat := c.lhsSizes.dropLast ++ keptDims c.rhsSizes

/-- The sum of products at an index of the result. -/
def Call.sumOfProducts (m : c.Memory) (is : List Nat) : Int :=
  ((List.range c.inner).map fun k =>
    value c.a.signed (m.lhs (is.take (c.lhsSizes.length - 1) ++ [k])) *
      value c.b.signed (m.rhs (rhsIndex c.rhsSizes (is.drop (c.lhsSizes.length - 1)) k))).sum

def Call.sizesOf : Side → List Nat
  | .lhs => c.lhsSizes
  | .rhs => c.rhsSizes

end

/-- The value stands for the integer, modulo the width of its type. -/
def StandsFor : (target : UnifiedType) → Int → Value target → Prop
  | .boolean, _, _ => False
  | .integer ty, n, x => x = BitVec.ofInt ty.bits n
  | .float64, n, x => x = BinaryFloat.Value.finite n

/-- The exact sums where the inner extents agree, else an error and no read out of bounds. -/
def Meets (c : Call) (m : c.Memory) : Prop :=
  ∃ target o, lower c m = some ⟨target, o⟩ ∧
    if c.inner = c.rhsInner then o.shape = c.shape ∧ ∀ is, InShape is c.shape → StandsFor target (c.sumOfProducts m is) (o.elem is)
    else o.error = true ∧ ∀ r ∈ o.reads, InShape r.2 (c.sizesOf r.1)

end NumbaCudaMlir.Dot

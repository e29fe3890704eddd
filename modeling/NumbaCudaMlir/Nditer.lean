import NumbaCudaMlir.ArrayIndex
import NumbaCudaMlir.Tensor

/-!
# Iterators over arrays

`np.nditer` and `a.flat` count the elements of the first array and turn the
count into an index vector, the last dimension first. The division of a call is
undefined where an extent is zero.
-/

namespace NumbaCudaMlir.Nditer

open ArrayIndex (MemRef)

/-! ## Arrays -/

/-- An array. NumPy creates none whose extents, but for zeros, have a product of 64 bits. -/
structure Operand where
  ref : MemRef
  size_lt : (ref.extents.filter (· ≠ 0)).prod < 2 ^ 63

abbrev Operand.sizes (a : Operand) : List Nat := a.ref.extents

abbrev Operand.rank (a : Operand) : Nat := a.sizes.length

/-- `_make_zero_d_subview`, by the address of its element. -/
def makeZeroDSubview (a : Operand) (multiIdx : List (BitVec 64)) : Int := a.ref.address (multiIdx.map BitVec.toInt)

/-! ## Iterators -/

structure IterResult (α : Type) where
  value : α
  isValid : Bool

structure NdIterIterObject where
  arrays : List Operand
  ndim : Nat
  shape : List (BitVec 64)
  size : BitVec 64

def ndIterIterObject (first : Operand) (rest : List Operand) (ndim : Nat) : NdIterIterObject :=
  let shape := (List.range ndim).map first.ref.dim
  { arrays := first :: rest
    ndim
    shape
    size := match shape with
      | [] => 1
      | n :: ns => ns.foldl (· * ·) n }

/-- The indices and what remains of the count. `arith.remsi` and `arith.divsi` by zero are undefined. -/
def unravelDims : List (BitVec 64) → BitVec 64 → Option (List (BitVec 64) × BitVec 64)
  | [], linearIdx => some ([], linearIdx)
  | n :: ns, linearIdx => do
    let (indices, remaining) ← unravelDims ns linearIdx
    if n = 0 then none else some (remaining.srem n :: indices, remaining.sdiv n)

def NdIterIterObject.unravelCOrder (it : NdIterIterObject) (linearIdx : BitVec 64) : Option (List (BitVec 64)) :=
  if it.ndim = 0 then some []
  else if it.ndim = 1 then some [linearIdx]
  else (unravelDims it.shape linearIdx).map (·.1)

/-- The views of a call, and the index after it. -/
def NdIterIterObject.next (it : NdIterIterObject) (currentIndex : BitVec 64) : Option (IterResult (List Int) × BitVec 64) := do
  let isValid := currentIndex.slt it.size
  let multiIdx ← it.unravelCOrder currentIndex
  let views := it.arrays.map fun arr => makeZeroDSubview arr multiIdx
  let nextIndex := currentIndex + 1
  return (⟨views, isValid⟩, if isValid then nextIndex else currentIndex)

/-- `FlatIterObject.next`: the address that is loaded, if one is. -/
def flatNext (it : NdIterIterObject) (array : Operand) (currentIndex : BitVec 64) : Option (IterResult (Option Int) × BitVec 64) := do
  let isValid := currentIndex.slt it.size
  let loaded ← if isValid then (it.unravelCOrder currentIndex).map fun indices => some (makeZeroDSubview array indices) else some none
  let nextIndex := currentIndex + 1
  return (⟨loaded, isValid⟩, if isValid then nextIndex else currentIndex)

/-! ## Lowering -/

inductive LoweringError where
  | notImplementedError
  deriving DecidableEq

/-- `make_array_nditer` on a tuple of arrays; an array is a tuple of one. -/
def makeArrayNditer (first : Operand) (rest : List Operand) : Except LoweringError NdIterIterObject :=
  if rest.any fun a => a.rank ≠ first.rank then .error .notImplementedError
  else .ok (ndIterIterObject first rest first.rank)

def makeArrayFlatiter (array : Operand) : NdIterIterObject := ndIterIterObject array [] array.rank

section
variable {α : Type} (next : BitVec 64 → Option (IterResult α × BitVec 64))

/-- The index of an iterator after a number of calls. -/
def indexAfter : Nat → Option (BitVec 64)
  | 0 => some 0
  | k + 1 => (indexAfter k).bind fun i => (next i).map (·.2)

def call (k : Nat) : Option (IterResult α) := (indexAfter next k).bind fun i => (next i).map (·.1)

end

/-! ## NumPy -/

def broadcastDim (m n : Nat) : Option Nat := if m = n ∨ n = 1 then some m else if m = 1 then some n else none

def broadcastReversed : List Nat → List Nat → Option (List Nat)
  | [], ns => some ns
  | ms, [] => some ms
  | m :: ms, n :: ns => do return (← broadcastDim m n) :: (← broadcastReversed ms ns)

def broadcastShapes (shapes : List (List Nat)) : Option (List Nat) :=
  ((shapes.map List.reverse).foldlM broadcastReversed []).map List.reverse

/-- The index into an operand: missing dimensions are left out and those of extent one repeat. -/
def broadcastIndex (sizes is : List Nat) : List Nat :=
  List.zipWith (fun n i => if n = 1 then 0 else i) sizes (is.drop (is.length - sizes.length))

/-- The address of an operand's element at a broadcast index. -/
def elementAddress (a : Operand) (is : List Nat) : Int := a.ref.address ((broadcastIndex a.sizes is).map fun i : Nat => (i : Int))

/-- One call for each index of the shape in C order, each with the elements at it, and no valid one after them. -/
def Visits {α : Type} (next : BitVec 64 → Option (IterResult α × BitVec 64)) (shape : List Nat) (exposed : List Nat → α) : Prop :=
  (∀ k < shape.prod, ∃ is, (Tensor.indices shape)[k]? = some is ∧ call next k = some ⟨exposed is, true⟩) ∧
    ∀ k, shape.prod ≤ k → ∃ value, call next k = some ⟨value, false⟩

/-- What is expected of `np.nditer` on arrays that NumPy can broadcast. -/
def NditerBroadcasts (first : Operand) (rest : List Operand) : Prop :=
  ∀ shape, broadcastShapes ((first :: rest).map Operand.sizes) = some shape →
    ∃ it, makeArrayNditer first rest = .ok it ∧ Visits it.next shape fun is => (first :: rest).map fun a => elementAddress a is

end NumbaCudaMlir.Nditer

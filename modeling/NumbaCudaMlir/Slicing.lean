import NumbaCudaMlir.ArrayIndex
import NumbaCudaMlir.KernelError
import NumbaCudaMlir.MachineInt
import NumbaCudaMlir.PyRange

/-!
# Slices of arrays

A slice becomes three `index` values, which `a[start:stop:step]` and a slice
inside an index tuple turn into a subview, each with its own size.
-/

namespace NumbaCudaMlir.Slicing

open ArrayIndex (MemRef IndexArg normalizeNegativeIndex)
open MachineInt (IntType)

/-! ## Slice values -/

inductive Component where
  | none
  | literal (v : Int)
  /-- A global or a closure variable. -/
  | captured (v : Int)
  | var (ty : IntType) (bits : BitVec ty.bits)

def Component.value : Component → Option Int
  | none => .none
  | literal v | captured v => some v
  | var ty bits => some (MachineInt.value ty.signed bits)

/-- `convert(value, T.index())`: `arith.index_cast` extends the sign of every
type. A literal of type uint64 is written in two's complement first, a captured
one is no 64-bit attribute. -/
def Component.convert : Component → Option (Option (BitVec 64))
  | none => some .none
  | literal v => if CInt.InInt64 v ∨ CInt.InUInt64 v then some (some (BitVec.ofInt 64 v)) else .none
  | captured v => if CInt.InInt64 v then some (some (BitVec.ofInt 64 v)) else .none
  | var _ bits => some (some (bits.signExtend 64))

structure Slice where
  start : BitVec 64
  stop : Option (BitVec 64)
  step : BitVec 64

/-- `Slice.__init__`; the values it tests for truth are MLIR values, which are
all true. -/
def Slice.init (start stop step : Component) : Option Slice := do
  let start ← start.convert
  let stop ← stop.convert
  let step ← step.convert
  return ⟨start.getD 0, stop, step.getD 1⟩

/-- The arguments of `slice(start, stop, step)`. -/
structure SliceArgs where
  start : Component
  stop : Component
  step : Component

def lowerArraySlice (args : SliceArgs) : Option Slice := Slice.init args.start args.stop args.step

/-! ## Subviews -/

structure DimSlice where
  offset : BitVec 64
  size : BitVec 64
  stride : BitVec 64

def floordivsi (x y : BitVec 64) : BitVec 64 := BitVec.ofInt 64 (x.toInt.fdiv y.toInt)

def sliceDim (start stop step : BitVec 64) : DimSlice := ⟨start, floordivsi (stop - start) step, step⟩

def fullDim (a : MemRef) (dim : Nat) : DimSlice := ⟨0, a.dim dim, 1⟩

def lowerArraySliceGetitem (a : MemRef) (slice : Slice) : Option (List DimSlice) :=
  match a.extents.length with
  | 0 => none
  | r + 1 => some (sliceDim slice.start (slice.stop.getD (a.dim 0)) slice.step ::
      (List.range r).map fun i => sliceDim 0 (a.dim (i + 1)) 1)

/-- `reversed` is the constant `slice(None, None, -1)` that `np.flip` builds. -/
inductive Item where
  | scalar (x : IndexArg)
  | slice (s : Slice)
  | reversed

def itemDim (a : MemRef) (dim : Nat) : Item → DimSlice
  | .reversed => ⟨a.dim dim - 1, a.dim dim, -1⟩
  | .slice s => ⟨s.start, s.stop.getD (a.dim dim) - s.start, s.step⟩
  | .scalar x => ⟨normalizeNegativeIndex a x dim, 1, 1⟩

/-- A step that is not positive sets the code of `ValueError`. -/
def itemError (cell : Nat) : Item → Nat
  | .slice s => if s.step.sle 0 then setErrorCode ((kernelErrorCodes .valueError).get valueError_isSome) cell else cell
  | .reversed | .scalar _ => cell

def itemDims (a : MemRef) : Nat → List Item → List DimSlice
  | _, [] => []
  | dim, x :: xs => itemDim a dim x :: itemDims a (dim + 1) xs

structure TupleView where
  dims : List DimSlice
  isScalar : List Bool
  errorCode : Nat

def Item.isScalar : Item → Bool
  | scalar _ => true
  | slice _ | reversed => false

/-- The subview of an index tuple and the error code after it. -/
def lowerArrayTupleGetitem (a : MemRef) (tupleIndices : List Item) (cell : Nat) : Option TupleView :=
  if a.extents.length < tupleIndices.length then none
  else
    let nTrailing := a.extents.length - tupleIndices.length
    some {
      dims := itemDims a 0 tupleIndices ++
        (List.range nTrailing).map fun i => fullDim a (tupleIndices.length + i)
      isScalar := tupleIndices.map Item.isScalar ++ List.replicate nTrailing false
      errorCode := tupleIndices.foldl itemError cell }

/-! ## Index expressions -/

inductive TupleArg where
  | scalar (x : IndexArg)
  | slice (args : SliceArgs)

def loadTuple : List TupleArg → Option (List Item)
  | [] => some []
  | .scalar x :: xs => return .scalar x :: (← loadTuple xs)
  | .slice args :: xs => do
    let s ← lowerArraySlice args
    return .slice s :: (← loadTuple xs)

def getitemSlice (a : MemRef) (args : SliceArgs) : Option (List DimSlice) := do
  lowerArraySliceGetitem a (← lowerArraySlice args)

def getitemTuple (a : MemRef) (xs : List TupleArg) (cell : Nat) : Option TupleView := do
  lowerArrayTupleGetitem a (← loadTuple xs) cell

end NumbaCudaMlir.Slicing

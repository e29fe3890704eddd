import NumbaCudaMlir.Descriptor

/-!
# Captured arrays

`lower_captured_array_to_memref`: the memref descriptor that a device array in
a global or a closure variable is lowered to, a constant made from its array
interface.
-/

namespace NumbaCudaMlir

open CInt

structure InterfaceArray where
  dtype : NpDType
  shape : List Int
  data : Int
  strides : Option (List Int)
  strides_length : ∀ ss, strides = some ss → ss.length = shape.length

namespace InterfaceArray

def interface (a : InterfaceArray) : ArrayInterface where
  typestr := some (.str a.dtype.typestr)
  shape := some (.tuple (a.shape.map .int))
  data := some (.tuple [.int a.data, .other])
  strides := a.strides.map fun ss => .tuple (ss.map .int)

end InterfaceArray

structure MemrefDescriptor where
  allocated : Int
  aligned : Int
  offset : Int
  shape : List Int
  strides : List Int
  deriving DecidableEq, Repr

/-- `arith.constant(T.i64(), v)` refuses an integer that is no 64-bit attribute. -/
def i64c (v : Int) : Option Int := if InInt64 v then some v else none

def buildMemrefDescriptor (ptr : Int) (shape strides : List Int) : Option MemrefDescriptor := do
  let shape ← shape.mapM i64c
  let strides ← strides.mapM i64c
  return ⟨ptr, ptr, 0, shape, strides⟩

/-- The strides of the loop over `reversed(shape)`, and the product it ends with. -/
def compactLoop : List Int → List Int × Int
  | [] => ([], 1)
  | d :: shape =>
    let (strides, s) := compactLoop shape
    (s :: strides, s * d)

/-- The empty tuple is no stride either. -/
def capturedStrides (itemsize : Int) (shape : List Int) : Option (List Int) → Option (List Int)
  | some (s :: ss) => if itemsize = 0 then none else some ((s :: ss).map (·.fdiv itemsize))
  | some [] | none => some (compactLoop shape).1

def lowerCapturedArrayToMemref (a : InterfaceArray) : Option MemrefDescriptor := do
  let strides ← capturedStrides a.dtype.itemsize a.shape a.strides
  let ptr ← i64c a.data
  buildMemrefDescriptor ptr a.shape strides

/-- The slots of an array, as the kernel reads them. -/
def LaunchHelper.descriptor (helper : LaunchHelper) (m : ArgMetadata) : MemrefDescriptor where
  allocated := (helper.cuargs.getD m.startIdx 0).toInt
  aligned := (helper.cuargs.getD (m.startIdx + 1) 0).toInt
  offset := (helper.cuargs.getD (m.startIdx + 2) 0).toInt
  shape := ((helper.cuargs.drop (m.startIdx + 3)).take m.ndim).map BitVec.toInt
  strides := helper.descriptorStrides m

end NumbaCudaMlir

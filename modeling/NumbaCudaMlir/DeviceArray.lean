import NumbaCudaMlir.Descriptor

/-!
# Device arrays

`DeviceNDArray` and the array interface it exposes. The interface reports
strides only when `is_contiguous` says no, and that test skips the dimensions
with one index and the broadcast ones.
-/

namespace NumbaCudaMlir

structure DeviceNDArray where
  dtype : NpDType
  shape : List Int
  strides : List Int
  ndim_eq : strides.length = shape.length
  ptr : Int

namespace DeviceNDArray

/-- The loop of `is_contiguous`, over the dimensions from the last to the first. -/
def contiguousFrom : Int → List (Int × Int) → Bool
  | _, [] => true
  | size, (shape, stride) :: dims =>
    if 1 < shape ∧ stride ≠ 0 then
      if size ≠ stride then false else contiguousFrom (size * shape) dims
    else contiguousFrom size dims

def isContiguous (ary : DeviceNDArray) : Bool :=
  contiguousFrom ary.dtype.itemsize (ary.shape.reverse.zip ary.strides.reverse)

def cudaArrayInterface (ary : DeviceNDArray) : ArrayInterface where
  shape := some (.tuple (ary.shape.map .int))
  strides := some (if ary.isContiguous then .none else .tuple (ary.strides.map .int))
  data := some (.tuple [.int ary.ptr, .other])
  typestr := some (.str ary.dtype.typestr)

end DeviceNDArray

/-- The bytes of one memref element: the arrays of opaque dtypes are lowered to `memref<?xi8>`. -/
def memrefElementSize (dtype : NpDType) : Int :=
  if dtype.isOpaque then 1 else dtype.itemsize

end NumbaCudaMlir

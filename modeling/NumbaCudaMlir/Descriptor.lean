import NumbaCudaMlir.Typestr

/-!
# Array descriptors

`extract_cuda_array`: the memref descriptor (pointer twice, offset, shape,
element strides) the launcher builds from `__cuda_array_interface__`, together
with the constants an array adds to its kernel key.
-/

namespace NumbaCudaMlir

open CInt

/-- One eight-byte slot of the flat argument storage. -/
abbrev CudaArg := BitVec 64

def cudaArgI64 (v : Int) : CudaArg := .ofInt 64 v

def cudaArgDevicePtr (p : Int) : CudaArg := .ofInt 64 p

inductive ArgMetadata.Kind where
  | scalar | array | tmaDescriptor
  deriving DecidableEq, Repr

structure ArgMetadata where
  kind : ArgMetadata.Kind
  startIdx : Nat
  ndim : Nat
  deriving DecidableEq, Repr

inductive ConstantArg where
  | int64 (v : Int)
  | uint64 (v : Int)
  | bool (b : Bool)
  | float64 (bits : BitVec 64)
  | string (s : List Char)
  deriving DecidableEq, Repr

structure RecordCopyInfo where
  hostPtr : Int
  devicePtr : Int
  size : Int
  deriving DecidableEq, Repr

structure LaunchHelper where
  cuargs : List CudaArg
  argMetadata : List ArgMetadata
  constants : List ConstantArg
  cudaContext : Option Nat
  alignedTmaDescriptors : List Int
  recordCopies : List RecordCopyInfo
  deriving DecidableEq, Repr

def LaunchHelper.empty : LaunchHelper := ⟨[], [], [], none, [], []⟩

structure Driver where
  /-- `cuPointerGetAttribute(CU_POINTER_ATTRIBUTE_CONTEXT)`. -/
  pointerContext : Int → Option Nat
  /-- `cuMemAlloc`: the device pointer, or the error's name. -/
  memAlloc : Int → Except String Int
  /-- `cuMemcpyHtoD(device, host, size)`. -/
  memcpyHtoD : Int → Int → Int → Except String Unit
  allocateAlignedStorage : Option Int

def Driver.idle : Driver :=
  ⟨fun _ => none, fun _ => .error "CUDA_ERROR_OUT_OF_MEMORY", fun _ _ _ => .ok (), none⟩

/-! ## Dtype constants -/

def dtypeAsUint (dtype : DLDataType) : Nat :=
  dtype.code.toNat ||| dtype.bits.toNat <<< 8 ||| dtype.lanes.toNat <<< 16

def packDtypeAndNdim (dtype : DLDataType) (ndim : Nat) : Int :=
  wrap64 (dtypeAsUint dtype ||| ndim <<< 32 : Nat)

/-- The second constant of a dtype that `DLDataType` does not tell apart; `dtypeRepr` is
`repr(pyobj.dtype)` where the object has a dtype. -/
def arrayDtypeIdentityConstant (dtypeRepr : Option (List Char)) (typestr : List Char) : List Char :=
  if typestr.length < 2 then []
  else if charAt typestr 1 ∈ ['V', 'S', 'U', 'M', 'm'] then dtypeRepr.getD typestr
  else []

/-! ## Strides -/

/-- C multiplies in 64 bits, so the range check that follows never fires. -/
def computeCompactRowMajorStrides : List Int → Result (List Int)
  | [] => .ok []
  | [_] => .ok [1]
  | _ :: n :: shapes => do
    let strides ← computeCompactRowMajorStrides (n :: shapes)
    let s := wrap64 (strides.headD 1 * n)
    if ¬ InInt64 s then raise .overflowError "stride is too big"
    else pure (s :: strides)

/-- The first `ndim` byte strides over the element width. -/
def elementStrides (dtypeBytewidth : Int) : Nat → List PyVal → Result (List Int)
  | 0, _ => .ok []
  | _ + 1, [] => .error .undefined
  | ndim + 1, item :: items => do
    let strideBytes ← pylongAs item
    if dtypeBytewidth = 0 then .error .undefined
    else do
      let strides ← elementStrides dtypeBytewidth ndim items
      pure (strideBytes.tdiv dtypeBytewidth :: strides)

/-! ## extract_cuda_array -/

def unpackArrayInterface (item : Option PyVal) (key : String) : Result PyVal :=
  match item with
  | some v => .ok v
  | none => raise .typeError ("__cuda_array_interface__ is missing the '" ++ key ++ "' key")

def typestrBytes : PyVal → Result (List Char)
  | .str bytes => .ok bytes
  | _ => raise .typeError "__cuda_array_interface__['typestr'] is not a string"

def dataPointer : PyVal → Result Int
  | .tuple [.int p, _] => pylongAsInt p
  | .tuple [_, _] => raise .typeError "__cuda_array_interface['data'][0] is not an integer"
  | _ => raise .typeError "__cuda_array_interface['data'] is not a tuple of length 2"

def shapeItems : PyVal → Result (List PyVal)
  | .tuple items =>
    if items.length > 2 ^ 32 - 1 then raise .typeError "Input array exceeds max supported dimensions"
    else .ok items
  | _ => raise .typeError "__cuda_array_interface['shape'] is not a tuple"

/-- The divisor of byte strides. Opaque types are passed as `memref<?xi8>`, so theirs stay in bytes. -/
def dtypeBytewidth (dtype : DLDataType) : Int :=
  if dtype.code = kDLOpaqueHandle then 1 else bytewidth dtype

def interfaceStrides (dtype : DLDataType) (shapes : List Int) : Option PyVal → Result (List Int)
  | none | some .none => computeCompactRowMajorStrides shapes
  | some (.tuple items) => elementStrides (dtypeBytewidth dtype) shapes.length items
  | some _ => raise .typeError "__cuda_array_interface['strides'] can only be absent, None, or a tuple"

def LaunchHelper.pushArray (helper : LaunchHelper) (dataPtr : Int) (shapes strides : List Int)
    (constants : List ConstantArg) (context : Option Nat) : LaunchHelper :=
  { helper with
    cuargs := helper.cuargs ++ [cudaArgDevicePtr dataPtr, cudaArgDevicePtr dataPtr, cudaArgI64 0] ++
      shapes.map cudaArgI64 ++ strides.map cudaArgI64
    argMetadata := helper.argMetadata ++ [⟨.array, helper.cuargs.length, shapes.length⟩]
    constants := helper.constants ++ constants
    cudaContext := helper.cudaContext.or context }

def arrayConstants (dtype : DLDataType) (ndim : Nat) (identity : List Char) : List ConstantArg :=
  .int64 (packDtypeAndNdim dtype ndim) :: if identity = [] then [] else [.string identity]

def extractCudaArray (driver : Driver) (attr : DictAttr) (dtypeRepr : Option (List Char))
    (helper : LaunchHelper) : Result LaunchHelper :=
  match attr with
  | .missing => .error .undefined
  | .nonDict => raise .typeError "__cuda_array_interface__ returned a non-dictionary object"
  | .dict d => do
    let typestr ← unpackArrayInterface d.typestr "typestr"
    let shape ← unpackArrayInterface d.shape "shape"
    let data ← unpackArrayInterface d.data "data"
    let typestr ← typestrBytes typestr
    let dtype ← parseTypestr typestr
    let dataPtr ← dataPointer data
    let items ← shapeItems shape
    let shapes ← items.mapM pylongAs
    let strides ← interfaceStrides dtype shapes d.strides
    let identity := arrayDtypeIdentityConstant dtypeRepr typestr
    pure (helper.pushArray dataPtr shapes strides (arrayConstants dtype shapes.length identity)
      (driver.pointerContext dataPtr))

/-- The element strides of an array's descriptor, as the kernel reads them. -/
def LaunchHelper.descriptorStrides (helper : LaunchHelper) (m : ArgMetadata) : List Int :=
  ((helper.cuargs.drop (m.startIdx + 3 + m.ndim)).take m.ndim).map BitVec.toInt

end NumbaCudaMlir

import NumbaCudaMlir.Classify

/-!
# Argument extraction

`extract_cuda_args`, which stores the kernel arguments of one launch in the
flat slots of its helper and collects the constants that select the kernel, and
the fast extractors for launches of plain scalars.
-/

namespace NumbaCudaMlir

open CInt

/-! ## Slots and constants -/

namespace LaunchHelper

def pushScalar (helper : LaunchHelper) (slots : List CudaArg) (ndim : Nat) (constants : List ConstantArg) :
    LaunchHelper :=
  { helper with
    cuargs := helper.cuargs ++ slots
    argMetadata := helper.argMetadata ++ [⟨.scalar, helper.cuargs.length, ndim⟩]
    constants := helper.constants ++ constants }

end LaunchHelper

def constantIf (isConstant : Bool) (c : ConstantArg) : List ConstantArg :=
  if isConstant then [c] else []

/-- The `float` bits in the low half of a zeroed slot. -/
def cudaArgF32 (bits : BitVec 32) : CudaArg := bits.setWidth 64

/-- `(double)value` on the bits of a `float`. -/
def widenF32 (bits : BitVec 32) : BitVec 64 :=
  let sign := (bits >>> 31).setWidth 64 <<< 63
  let exp := (bits.toNat / 2 ^ 23) % 2 ^ 8
  let mant := bits.toNat % 2 ^ 23
  if exp = 255 then sign ||| .ofNat 64 (2047 * 2 ^ 52 + mant * 2 ^ 29)
  else if exp = 0 then
    if mant = 0 then sign
    -- A subnormal `float` is a normal `double`.
    else sign ||| .ofNat 64 ((mant.log2 + 874) * 2 ^ 52 + (mant - 2 ^ mant.log2) * 2 ^ (52 - mant.log2))
  else sign ||| .ofNat 64 ((exp + 896) * 2 ^ 52 + mant * 2 ^ 29)

/-- `double_to_f16_bits`, from the bits of the `float` it narrows to first. -/
def doubleToF16Bits (fbits : BitVec 32) : BitVec 16 :=
  let sign : Nat := (fbits.toNat >>> 16) &&& 0x8000
  let exp : Int := ((fbits.toNat >>> 23) &&& 0xFF : Nat) - 127
  let mant : Nat := fbits.toNat &&& 0x7FFFFF
  if exp = 128 then .ofNat 16 (sign ||| 0x7C00 ||| if mant ≠ 0 then (mant >>> 13) ||| 1 else 0)
  else if exp > 15 then .ofNat 16 (sign ||| 0x7C00)
  else if exp > -15 then .ofNat 16 (sign ||| (exp + 15).toNat <<< 10 ||| mant >>> 13)
  else if exp ≥ -24 then .ofNat 16 (sign ||| (mant ||| 0x800000) >>> (-exp - 14 + 23).toNat)
  else .ofNat 16 sign

/-! ## Scalar extractors -/

def extractPyLong (arg : PyObj) (isConstant : Bool) (helper : LaunchHelper) : Result LaunchHelper :=
  match arg with
  | .long cls v =>
    match asLongLong v with
    | .ok value =>
      let c := if cls = .bool then .bool (value ≠ 0) else .int64 value
      .ok (helper.pushScalar [cudaArgI64 value] 0 (constantIf isConstant c))
    | .error _ => do
      let unsignedValue ← asUnsignedLongLong v
      let value := wrap64 unsignedValue
      let c := if cls = .bool then .bool (value ≠ 0) else .uint64 unsignedValue
      pure (helper.pushScalar [cudaArgI64 value] 0 (constantIf isConstant c))
  | _ => .error .undefined

def extractNpInteger (arg : PyObj) (isConstant : Bool) (helper : LaunchHelper) : Result LaunchHelper :=
  match arg with
  | .npInteger n => do
    let value ← pylongAsInt n.value
    pure (helper.pushScalar [cudaArgI64 value] 0 (constantIf isConstant (.int64 value)))
  | _ => .error .undefined

def extractPyEnum (arg : PyObj) (isConstant : Bool) (helper : LaunchHelper) : Result LaunchHelper :=
  match arg with
  | .enum cls value =>
    let typeConstant := constantIf isConstant (.int64 cls.id)
    match value with
    | .int v => do
      let value ← pylongAsInt v
      pure (helper.pushScalar [cudaArgI64 value] 0 (typeConstant ++ constantIf isConstant (.int64 value)))
    | .bool b =>
      let value := if b then 1 else 0
      .ok (helper.pushScalar [cudaArgI64 value] 0 (typeConstant ++ constantIf isConstant (.int64 value)))
    | .float bits =>
      .ok (helper.pushScalar [bits] 0 (typeConstant ++ constantIf isConstant (.float64 bits)))
    | .other tpName => raise .typeError ("must be real number, not " ++ tpName)
  | _ => .error .undefined

def extractNpDatetime (arg : PyObj) (isConstant : Bool) (helper : LaunchHelper) : Result LaunchHelper :=
  match arg with
  | .npDatetime _ _ ticks => do
    let value ← pylongAs (.index ticks)
    pure (helper.pushScalar [cudaArgI64 value] 0 (constantIf isConstant (.int64 value)))
  | _ => .error .undefined

def extractPyFloat (arg : PyObj) (isConstant : Bool) (helper : LaunchHelper) : Result LaunchHelper :=
  match arg with
  | .float _ bits => .ok (helper.pushScalar [bits] 0 (constantIf isConstant (.float64 bits)))
  | _ => .error .undefined

def extractNpFloat16 (arg : PyObj) (isConstant : Bool) (helper : LaunchHelper) : Result LaunchHelper :=
  match arg with
  | .npFloat16 single =>
    .ok (helper.pushScalar [(doubleToF16Bits single).setWidth 64] 0
      (constantIf isConstant (.float64 (widenF32 single))))
  | _ => .error .undefined

/-- Rank 3 marks a 32-bit float. -/
def extractNpFloat32 (arg : PyObj) (isConstant : Bool) (helper : LaunchHelper) : Result LaunchHelper :=
  match arg with
  | .npFloat32 bits =>
    .ok (helper.pushScalar [cudaArgF32 bits] 3 (constantIf isConstant (.float64 (widenF32 bits))))
  | _ => .error .undefined

/-- Two slots; the constants of complex arguments are not supported. -/
def extractPyComplex (arg : PyObj) (helper : LaunchHelper) : Result LaunchHelper :=
  match arg with
  | .complex _ re im => .ok (helper.pushScalar [re, im] 2 [])
  | _ => .error .undefined

def extractNpComplex64 (arg : PyObj) (helper : LaunchHelper) : Result LaunchHelper :=
  match arg with
  | .npComplex64 re im => .ok (helper.pushScalar [im ++ re] 1 [])
  | _ => .error .undefined

/-! ## Pointer extractors -/

def extractTmaDescriptor (driver : Driver) (arg : PyObj) (helper : LaunchHelper) : Result LaunchHelper :=
  match arg with
  | .object o =>
    if o.cls.tmaDescriptorCApi ∨ o.cls.getPtr then do
      match ← o.tmaPointer with
      | .int _ =>
        match driver.allocateAlignedStorage with
        | none => raise .memoryError "Failed to allocate aligned memory for TMA descriptor"
        | some ptr =>
          pure { helper with
            alignedTmaDescriptors := helper.alignedTmaDescriptors ++ [ptr]
            cuargs := helper.cuargs ++ [cudaArgDevicePtr ptr]
            argMetadata := helper.argMetadata ++ [⟨.tmaDescriptor, helper.cuargs.length, 0⟩] }
      | _ => raise .typeError "TMA descriptor method returned a non-integer"
    else raise .typeError "TMA descriptor must have either __tma_descriptor_c_api__() or getPtr() method"
  | _ => .error .undefined

def extractNumpyVoid (driver : Driver) (arg : PyObj) (helper : LaunchHelper) : Result LaunchHelper :=
  match arg with
  | .npVoid r => do
    let hostPtr ← pylongAsInt r.hostPtr
    let recordSize ← pylongAsInt r.itemsize
    if recordSize ≤ 0 then raise .valueError "Record itemsize must be positive"
    else
      match driver.memAlloc recordSize with
      | .error name => raise .runtimeError ("Failed to allocate device memory for record: " ++ name)
      | .ok devicePtr =>
        match driver.memcpyHtoD devicePtr hostPtr recordSize with
        | .error name => raise .runtimeError ("Failed to copy record to device: " ++ name)
        | .ok () =>
          pure { helper.pushScalar [cudaArgDevicePtr devicePtr] 0 [] with
            recordCopies := helper.recordCopies ++ [⟨hostPtr, devicePtr, recordSize⟩] }
  | _ => .error .undefined

def extractDeviceRecord (driver : Driver) (arg : PyObj) (helper : LaunchHelper) : Result LaunchHelper :=
  match arg.cudaArrayInterface with
  | .dict d => do
    let data ← unpackArrayInterface d.data "data"
    let devicePtr ← dataPointer data
    pure { helper.pushScalar [cudaArgDevicePtr devicePtr] 0 [] with
      cudaContext := helper.cudaContext.or (driver.pointerContext devicePtr) }
  | _ => raise .typeError "DeviceRecord missing __cuda_array_interface__"

def dlpackDtype : NpDType → Option DLDataType
  | .numeric .bool .s1 => some ⟨kDLBool, 8, 1⟩
  | .numeric .bool _ => none
  | .numeric .int s => some ⟨kDLInt, .ofNat (8 * s.bytes), 1⟩
  | .numeric .uint s => some ⟨kDLUInt, .ofNat (8 * s.bytes), 1⟩
  | .numeric .float s => some ⟨kDLFloat, .ofNat (8 * s.bytes), 1⟩
  | .numeric .complex s => some ⟨kDLComplex, .ofNat (8 * s.bytes), 1⟩
  | _ => none

def dlpackStrides (ary : ArrayObj) : Result (List Int) :=
  match ary.strides with
  | none => computeCompactRowMajorStrides ary.shape
  | some ss =>
    if ss.length < ary.shape.length then .error .undefined
    else .ok ((ss.take ary.shape.length).map (·.tdiv ary.dtype.itemsize))

/-- `extract_dlpack_common`, on the tensor that `__dlpack__` or torch exports. -/
def extractDlpack (driver : Driver) (arg : PyObj) (helper : LaunchHelper) : Result LaunchHelper :=
  match arg with
  | .array ary =>
    if ¬ ary.cls.hasDlpack then raise .attributeError "__dlpack__"
    else
      match dlpackDtype ary.dtype with
      | none => raise .bufferError "the dtype cannot be exported"
      | some dtype =>
        if ¬ ary.onCuda then raise .valueError "Input array is not on a CUDA device"
        else do
          let strides ← dlpackStrides ary
          pure (helper.pushArray ary.data ary.shape strides [.int64 (packDtypeAndNdim dtype ary.shape.length)]
            (driver.pointerContext ary.data))
  | _ => .error .undefined

/-! ## extract_cuda_args -/

def extractCudaArg (driver : Driver) (kind : PythonArgKind) (arg : PyObj) (isConstant : Bool)
    (helper : LaunchHelper) : Result LaunchHelper :=
  match kind with
  | .torchTensorDlpack | .dlpackArray => extractDlpack driver arg helper
  | .cudaArray => extractCudaArray driver arg.cudaArrayInterface arg.dtypeRepr helper
  | .tmaDescriptor => extractTmaDescriptor driver arg helper
  | .pyLong => extractPyLong arg isConstant helper
  | .npInteger => extractNpInteger arg isConstant helper
  | .pyEnum => extractPyEnum arg isConstant helper
  | .pyFloat => extractPyFloat arg isConstant helper
  | .npFloat16 => extractNpFloat16 arg isConstant helper
  | .npFloat32 => extractNpFloat32 arg isConstant helper
  | .pyComplex => extractPyComplex arg helper
  | .npComplex64 => extractNpComplex64 arg helper
  | .numpyVoid => extractNumpyVoid driver arg helper
  | .deviceRecord => extractDeviceRecord driver arg helper
  | .npDatetime => extractNpDatetime arg isConstant helper

def extractLoop (driver : Driver) : List PyObj → List PythonArgKind → List Bool → LaunchHelper →
    Result LaunchHelper
  | [], _, _, helper => .ok helper
  | _ :: _, [], _, _ => .error .undefined
  | arg :: args, kind :: kinds, flags, helper => do
    let helper ← extractCudaArg driver kind arg (flags.headD false) helper
    extractLoop driver args kinds flags.tail helper

/-- The helper comes from a free list, so its old contents are cleared first. -/
def extractCudaArgs (driver : Driver) (pyargs : List PyObj) (argKinds : List PythonArgKind)
    (constantArgFlags : List Bool) (_helper : LaunchHelper) : Result LaunchHelper :=
  extractLoop driver pyargs argKinds constantArgFlags .empty

end NumbaCudaMlir

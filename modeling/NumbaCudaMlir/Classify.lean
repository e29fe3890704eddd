import NumbaCudaMlir.PyObject

/-!
# Argument classification

`classify_arg`: the native argument kind of a Python object, and the coarser
parameter kind that selects the kernel family.
-/

namespace NumbaCudaMlir

inductive PythonArgKind where
  | torchTensorDlpack | dlpackArray | cudaArray | pyLong | pyFloat | npFloat16 | npFloat32
  | pyComplex | npComplex64 | tmaDescriptor | numpyVoid | deviceRecord | pyEnum | npDatetime | npInteger
  deriving DecidableEq, Repr

inductive ParameterKind where
  | array | integer | float | complex | record
  deriving DecidableEq, Repr

def classifyEnumValue : EnumValue → Result (PythonArgKind × ParameterKind)
  | .int _ | .bool _ => .ok (.pyEnum, .integer)
  | .float _ => .ok (.pyEnum, .float)
  | .other tpName => raise .typeError ("Enum members with " ++ tpName ++ " values are not supported. " ++
    "Only integer and float valued enums are supported.")

def enumValue : PyObj → EnumValue
  | .enum _ value => value
  | _ => .other ""

def classifyArg (arg : PyObj) : Result (PythonArgKind × ParameterKind) :=
  let ty := arg.type
  if ty.pyLongCheck then .ok (.pyLong, .integer)
  else if ty.pyFloatCheck then .ok (.pyFloat, .float)
  else if ty.isEnum then classifyEnumValue (enumValue arg)
  else if ty.tpName = "numpy.float16" then .ok (.npFloat16, .float)
  else if ty.tpName = "numpy.float32" then .ok (.npFloat32, .float)
  else if ty.tpName = "numpy.datetime64" ∨ ty.tpName = "numpy.timedelta64" then .ok (.npDatetime, .integer)
  else if ty.isNpInteger then .ok (.npInteger, .integer)
  else if ty.tpName = "numpy.complex64" then .ok (.npComplex64, .complex)
  else if ty.pyComplexCheck then .ok (.pyComplex, .complex)
  else if ty.isTorchTensor then .ok (.torchTensorDlpack, .array)
  else if ty.hasTmaDescriptorCApi then .ok (.tmaDescriptor, .integer)
  else if ty.tpName = "cuda.bindings.driver.CUtensorMap" ∧ ty.hasGetPtr ∧ ty.hasOpaque then
    .ok (.tmaDescriptor, .integer)
  else if ty.tpName = "numpy.void" ∨ ty.tpName = "record" then .ok (.numpyVoid, .record)
  else if ty.isDeviceRecord then .ok (.deviceRecord, .record)
  -- The CUDA interface is preferred: managed arrays inherit `__dlpack__` from NumPy.
  else if ty.hasCudaArrayInterface then .ok (.cudaArray, .array)
  else if ty.hasDlpack then .ok (.dlpackArray, .array)
  else raise .typeError ("Unsupported argument type " ++ ty.tpName)

/-! ## What a classification says -/

def PythonArgKind.isArray : PythonArgKind → Bool
  | torchTensorDlpack | dlpackArray | cudaArray => true
  | _ => false

theorem classifyEnumValue_kind {value : EnumValue} {k : PythonArgKind} {p : ParameterKind}
    (h : classifyEnumValue value = .ok (k, p)) : k = .pyEnum ∧ p ≠ .array := by
  cases value <;> cases h <;> exact ⟨rfl, nofun⟩

theorem classifyArg_array {ary : ArrayObj} {k : PythonArgKind} {p : ParameterKind}
    (h : classifyArg (.array ary) = .ok (k, p)) :
    p = .array ∧ k = if ary.cls = .torchTensor then .torchTensorDlpack
      else if ary.cls.hasCudaArrayInterface then .cudaArray else .dlpackArray := by
  obtain ⟨cls, d, shape, strides, data, ro, cuda, fl, hn⟩ := ary
  cases cls with
  | foreign id cai dlpack dt => cases cai <;> cases dlpack <;> cases h <;> exact ⟨rfl, rfl⟩
  | _ => cases h; exact ⟨rfl, rfl⟩

theorem classifyArg_npVoid {r : RecordObj} : classifyArg (.npVoid r) = .ok (.numpyVoid, .record) := by
  obtain ⟨isRecord, fs, n, p⟩ := r
  cases isRecord <;> rfl

theorem classifyArg_object {o : Obj} {k : PythonArgKind} {p : ParameterKind}
    (h : classifyArg (.object o) = .ok (k, p)) :
    (k = .tmaDescriptor ∧ p = .integer) ∨ (k = .deviceRecord ∧ p = .record) := by
  obtain ⟨⟨id, name, hname, tma, getPtr, opq, rec⟩, ty, ptr, cai⟩ := o
  simp only [numpyScalarNames, List.mem_cons, List.not_mem_nil, or_false, not_or] at hname
  simp only [classifyArg, PyObj.type, PyType.pyLongCheck, PyType.pyFloatCheck, PyType.isEnum, PyType.tpName,
    PyType.isNpInteger, PyType.pyComplexCheck, PyType.isTorchTensor, PyType.hasTmaDescriptorCApi,
    PyType.hasGetPtr, PyType.hasOpaque, PyType.isDeviceRecord, PyType.hasCudaArrayInterface, PyType.hasDlpack,
    hname, Bool.false_eq_true, if_false, or_self] at h
  cases tma with
  | true => cases h; exact .inl ⟨rfl, rfl⟩
  | false =>
    rw [if_neg (by decide)] at h
    split at h
    · cases h; exact .inl ⟨rfl, rfl⟩
    · cases rec with
      | true => cases h; exact .inr ⟨rfl, rfl⟩
      | false => cases h

end NumbaCudaMlir

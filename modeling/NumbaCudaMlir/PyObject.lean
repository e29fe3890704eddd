import NumbaCudaMlir.DeviceArray
import NumbaCudaMlir.NumbaType

/-!
# Launch arguments

The Python objects that reach a launch, their classes, and the probes the
launcher makes on them. The attributes it looks for belong to the class.
-/

namespace NumbaCudaMlir

/-! ## Classes -/

inductive EnumValue where
  | int (v : Int)
  | bool (b : Bool)
  | float (bits : BitVec 64)
  /-- Any value without a numeric conversion, by the name of its class. -/
  | other (tpName : String)
  deriving DecidableEq, Repr

structure EnumClass where
  id : Nat
  isInt : Bool
  values : List EnumValue
  deriving DecidableEq, Repr

inductive LongClass where
  | int | bool
  | intEnum (cls : EnumClass)
  | sub (id : Nat)
  deriving DecidableEq, Repr

inductive FloatClass where
  | float | npFloat64
  | sub (id : Nat)
  deriving DecidableEq, Repr

inductive ComplexClass where
  | complex | npComplex128
  | sub (id : Nat)
  deriving DecidableEq, Repr

inductive ArrayClass where
  | torchTensor | cupyNdarray
  /-- A `numpy.ndarray` subclass over managed memory. -/
  | managedNdarray
  /-- Any other array class, by the protocols it implements. -/
  | foreign (id : Nat) (cai dlpack dtype : Bool)
  deriving DecidableEq, Repr

namespace ArrayClass

def hasCudaArrayInterface : ArrayClass → Bool
  | foreign _ cai _ _ => cai
  | _ => true

def hasDlpack : ArrayClass → Bool
  | foreign _ _ dlpack _ => dlpack
  | _ => true

def hasNpDtype : ArrayClass → Bool
  | torchTensor => false
  | foreign _ _ _ dtype => dtype
  | _ => true

end ArrayClass

/-- The class names by which the launcher recognises NumPy scalars. -/
def numpyScalarNames : List String :=
  ["numpy.float16", "numpy.float32", "numpy.datetime64", "numpy.timedelta64", "numpy.complex64",
    "numpy.void", "record"]

structure ObjClass where
  id : Nat
  tpName : String
  tpName_ne : tpName ∉ numpyScalarNames
  tmaDescriptorCApi : Bool
  getPtr : Bool
  opaqueAttr : Bool
  deviceRecord : Bool
  deriving DecidableEq, Repr

inductive IntSize where
  | s1 | s2 | s4 | s8
  deriving DecidableEq, Repr

def IntSize.toItemSize : IntSize → ItemSize
  | s1 => .s1
  | s2 => .s2
  | s4 => .s4
  | s8 => .s8

inductive PyType where
  | long (cls : LongClass)
  | float (cls : FloatClass)
  | enum (cls : EnumClass)
  | npFloat16 | npFloat32
  | npDatetime64 | npTimedelta64
  | npInteger (signed : Bool) (size : IntSize)
  | npComplex64
  | complex (cls : ComplexClass)
  | npVoid | npRecord
  | deviceNDArray
  | array (cls : ArrayClass)
  | object (cls : ObjClass)
  deriving DecidableEq, Repr

/-! ## Objects -/

structure NpInteger where
  signed : Bool
  size : IntSize
  value : Int
  inRange : if signed then -2 ^ (8 * size.toItemSize.bytes - 1) ≤ value ∧ value < 2 ^ (8 * size.toItemSize.bytes - 1)
    else 0 ≤ value ∧ value < 2 ^ (8 * size.toItemSize.bytes)

structure ArrayObj where
  cls : ArrayClass
  dtype : NpDType
  shape : List Int
  strides : Option (List Int)
  data : Int
  readonly : Bool
  onCuda : Bool
  /-- The layout by its contiguity flags, or by its DLPack view. -/
  flags : Layout
  /-- A rank is a C `int`. -/
  ndim_lt : shape.length < 2 ^ 31

structure RecordObj where
  /-- Whether the class is `record` and not `numpy.void`. -/
  isRecord : Bool
  fields : String
  itemsize : Nat
  hostPtr : Int

structure Obj where
  cls : ObjClass
  /-- `_numba_type_`, or the type registered for the class. -/
  numbaType : Option NumbaType
  tmaPointer : Result PyVal
  cudaArrayInterface : DictAttr

inductive PyObj where
  | long (cls : LongClass) (value : Int)
  | float (cls : FloatClass) (bits : BitVec 64)
  | enum (cls : EnumClass) (value : EnumValue)
  /-- A `float16`, by the bits of its value as a `float32`. -/
  | npFloat16 (single : BitVec 32)
  | npFloat32 (bits : BitVec 32)
  | npDatetime (isTimedelta : Bool) (unit : String) (ticks : Int)
  | npInteger (n : NpInteger)
  | npComplex64 (re im : BitVec 32)
  | complex (cls : ComplexClass) (re im : BitVec 64)
  | npVoid (r : RecordObj)
  | deviceArray (ary : DeviceNDArray)
  | array (ary : ArrayObj)
  | object (o : Obj)

namespace PyObj

def type : PyObj → PyType
  | long cls _ => .long cls
  | float cls _ => .float cls
  | enum cls _ => .enum cls
  | npFloat16 _ => .npFloat16
  | npFloat32 _ => .npFloat32
  | npDatetime isTimedelta _ _ => if isTimedelta then .npTimedelta64 else .npDatetime64
  | npInteger n => .npInteger n.signed n.size
  | npComplex64 .. => .npComplex64
  | complex cls .. => .complex cls
  | npVoid r => if r.isRecord then .npRecord else .npVoid
  | deviceArray _ => .deviceNDArray
  | array ary => .array ary.cls
  | object o => .object o.cls

end PyObj

namespace ArrayObj

def cudaArrayInterface (ary : ArrayObj) : ArrayInterface where
  shape := some (.tuple (ary.shape.map .int))
  strides := ary.strides.map fun ss => .tuple (ss.map .int)
  data := some (.tuple [.int ary.data, .other])
  typestr := some (.str ary.dtype.typestr)

end ArrayObj

namespace PyObj

def cudaArrayInterface : PyObj → DictAttr
  | deviceArray ary => .dict ary.cudaArrayInterface
  | array ary => if ary.cls.hasCudaArrayInterface then .dict ary.cudaArrayInterface else .missing
  | object o => o.cudaArrayInterface
  | _ => .missing

def dtypeRepr : PyObj → Option (List Char)
  | deviceArray ary => some ary.dtype.repr
  | array ary => if ary.cls.hasNpDtype then some ary.dtype.repr else none
  | _ => none

end PyObj

namespace PyType

def tpName : PyType → String
  | npFloat16 => "numpy.float16"
  | npFloat32 => "numpy.float32"
  | npDatetime64 => "numpy.datetime64"
  | npTimedelta64 => "numpy.timedelta64"
  | npComplex64 => "numpy.complex64"
  | npVoid => "numpy.void"
  | npRecord => "record"
  | object cls => cls.tpName
  | _ => ""

/-! ## Probes -/

def pyLongCheck : PyType → Bool
  | long _ => true
  | _ => false

def pyFloatCheck : PyType → Bool
  | float _ => true
  | _ => false

/-- `isinstance(obj, enum.Enum)`; the members of an `IntEnum` are seen as `int` first. -/
def isEnum : PyType → Bool
  | enum _ => true
  | long (.intEnum _) => true
  | _ => false

def isNpInteger : PyType → Bool
  | npInteger .. => true
  | _ => false

def pyComplexCheck : PyType → Bool
  | complex _ => true
  | _ => false

def isTorchTensor : PyType → Bool
  | array .torchTensor => true
  | _ => false

def hasTmaDescriptorCApi : PyType → Bool
  | object cls => cls.tmaDescriptorCApi
  | _ => false

def hasGetPtr : PyType → Bool
  | object cls => cls.getPtr
  | _ => false

def hasOpaque : PyType → Bool
  | object cls => cls.opaqueAttr
  | _ => false

def isDeviceRecord : PyType → Bool
  | object cls => cls.deviceRecord
  | _ => false

def hasCudaArrayInterface : PyType → Bool
  | deviceNDArray => true
  | array cls => cls.hasCudaArrayInterface
  | object cls => cls.deviceRecord
  | _ => false

def hasDlpack : PyType → Bool
  | array cls => cls.hasDlpack
  | _ => false

def isArray : PyType → Bool
  | deviceNDArray | array _ => true
  | _ => false

theorem isArray_cases {arg : PyObj} (h : arg.type.isArray = true) :
    (∃ ary, arg = .deviceArray ary) ∨ ∃ ary, arg = .array ary := by
  cases arg with
  | deviceArray ary => exact .inl ⟨ary, rfl⟩
  | array ary => exact .inr ⟨ary, rfl⟩
  | npDatetime t => cases t <;> cases h
  | npVoid r => obtain ⟨isRecord, fs, n, p⟩ := r; cases isRecord <;> cases h
  | _ => cases h

end PyType

end NumbaCudaMlir

import NumbaCudaMlir.ArrayIndex
import NumbaCudaMlir.Cells
import NumbaCudaMlir.Convert

/-!
# Loads and stores of vectors

`vector.load` and `vector.store` on arrays and pointers. Without an alignment
they are transfers that follow the strides of the array; with one they are a
single access to the bytes from the first element on.
-/

namespace NumbaCudaMlir.VectorAccess

open ArrayIndex MachineInt

/-! ## Elements -/

inductive ElementType where
  | boolean
  | integer (width : Width)
  | float16 | bfloat16 | float32 | float64
  | tf32 | float8 | float6 | float4
  deriving DecidableEq

structure MlirType where
  isFloat : Bool
  width : Nat
  deriving DecidableEq

def ElementType.valueType : ElementType → MlirType
  | boolean => ⟨false, 1⟩
  | integer width => ⟨false, width.bits⟩
  | float16 | bfloat16 => ⟨true, 16⟩
  | float32 => ⟨true, 32⟩
  | float64 => ⟨true, 64⟩
  | tf32 => ⟨true, 19⟩
  | float8 => ⟨true, 8⟩
  | float6 => ⟨true, 6⟩
  | float4 => ⟨true, 4⟩

def ElementType.storageType : ElementType → MlirType
  | boolean => ⟨false, 8⟩
  | integer width => ⟨false, width.bits⟩
  | float16 | bfloat16 => ⟨false, 16⟩
  | float32 => ⟨true, 32⟩
  | float64 => ⟨true, 64⟩
  | tf32 => ⟨false, 32⟩
  | float8 | float6 | float4 => ⟨false, 8⟩

abbrev Value (t : ElementType) := BitVec t.valueType.width

abbrev Storage (t : ElementType) := BitVec t.storageType.width

def ElementType.bytes (t : ElementType) : Nat := t.storageType.width / 8

/-- `trunci`, `extui` and `bitcast` between the types of an element that is no
boolean, or nothing where they are one type. -/
def storageToValue : (t : ElementType) → Storage t → Value t
  | .boolean, value => BitVec.ofBool (value != 0)
  | t, value => value.setWidth t.valueType.width

def valueToStorage (t : ElementType) (value : Value t) : Storage t := value.setWidth t.storageType.width

def storageVectorToValue (t : ElementType) (value : List (Storage t)) : List (Value t) := value.map (storageToValue t)

def valueVectorToStorage (t : ElementType) (value : List (Value t)) : List (Storage t) := value.map (valueToStorage t)

/-! ## Arrays -/

/-- An array in memory: its elements are less than half of the memory apart. -/
structure StridedArray where
  layout : MemRef
  base : BitVec 64
  dtype : ElementType
  span : ∀ c ∈ box layout.extents, ∀ c' ∈ box layout.extents,
    |(dtype.bytes : Int) * (layout.address c - layout.address c')| < 2 ^ 63

def StridedArray.rank (a : StridedArray) : Nat := a.layout.extents.length

/-- The element with the given coordinates; addresses wrap. -/
def StridedArray.address (a : StridedArray) (coords : List Int) : BitVec 64 :=
  a.base + BitVec.ofInt 64 (a.dtype.bytes * a.layout.address coords)

def memrefDataPointer (array : StridedArray) : BitVec 64 :=
  array.base + BitVec.ofInt 64 (array.dtype.bytes * array.layout.offset)

/-- None is a number of indices that raises a ValueError. -/
def memrefIndexOffset (array : StridedArray) (indices : List (BitVec 64)) : Option Int :=
  if indices.length = 1 ∧ array.rank ≠ 1 then indices.head?.map (·.toInt)
  else if indices.length ≠ array.rank then none
  else some (Strided.dot (indices.map (·.toInt)) array.layout.strides)

def memrefToLlvmPtr (array : StridedArray) (indices : List (BitVec 64)) : Option (BitVec 64) :=
  (memrefIndexOffset array indices).map fun linearIdx =>
    memrefDataPointer array + BitVec.ofInt 64 (array.dtype.bytes * linearIdx)

def cpointerToElementPtr (t : ElementType) (ptr : BitVec 64) : IndexArg → BitVec 64
  | .const v => ptr + BitVec.ofInt 64 (t.bytes * v)
  | .var _ _ bits => ptr + BitVec.ofInt 64 (t.bytes * (convertInteger none 64 bits).toInt)

/-! ## Accesses to memory -/

/-- The vector's dimensions are the last ones of the array. -/
def getPermutationMap (memrefRank : Nat) (position : List Int) : List Int :=
  List.replicate (memrefRank - position.length) 0 ++ position

def advance (coords offset : List Int) : List Int := List.zipWith (· + ·) coords offset

/-- The elements of a `vector.transfer_read` or `vector.transfer_write`, which the
verifier takes with one index for each dimension of the array. -/
def transfer (array : StridedArray) (indices : List (BitVec 64)) (shape : List Nat) : Option (List (BitVec 64)) :=
  if indices.length = array.rank ∧ shape.length ≤ array.rank then
    some ((box shape).map fun p => array.address (advance (indices.map (·.toInt)) (getPermutationMap array.rank p)))
  else none

/-- The lanes of an `llvm.load` or `llvm.store` lie side by side. The dialect has
vectors of one dimension only, and a misaligned access is undefined. -/
def llvmAccess (t : ElementType) (ptr : BitVec 64) (shape : List Nat) (alignment : Nat) : Option (List (BitVec 64)) :=
  match shape with
  | [n] =>
    if alignment ∣ ptr.toNat then some ((List.range n).map fun (k : Nat) => ptr + BitVec.ofInt 64 (t.bytes * k)) else none
  | _ => none

def read (t : ElementType) (m : ByteMemory.Memory) (addresses : List (BitVec 64)) : List (Value t) :=
  storageVectorToValue t (addresses.map fun a => BitVec.ofNat _ (ByteMemory.load m a t.bytes))

def write (t : ElementType) (m : ByteMemory.Memory) (addresses : List (BitVec 64)) (vec : List (Value t)) : ByteMemory.Memory :=
  ByteMemory.storeAll m t.bytes addresses ((valueVectorToStorage t vec).map (·.toNat))

/-! ## Lowerings -/

section
variable (array : StridedArray) (shape : List Nat) (alignment : Nat) (m : ByteMemory.Memory)

def vectorLoad1dIndex (index : IndexArg) : Option (List (Value array.dtype)) :=
  (transfer array [indexOf index] shape).map (read array.dtype m)

def vectorLoadNdIndex (indices : List IndexArg) : Option (List (Value array.dtype)) :=
  (transfer array (indices.map indexOf) shape).map (read array.dtype m)

def vectorLoad1dIndexAligned (index : IndexArg) : Option (List (Value array.dtype)) := do
  let ptr ← memrefToLlvmPtr array [indexOf index]
  (llvmAccess array.dtype ptr shape alignment).map (read array.dtype m)

def vectorLoadNdIndexAligned (indices : List IndexArg) : Option (List (Value array.dtype)) := do
  let ptr ← memrefToLlvmPtr array (indices.map indexOf)
  (llvmAccess array.dtype ptr shape alignment).map (read array.dtype m)

variable (vec : List (Value array.dtype))

def vectorStore1dIndex (index : IndexArg) : Option ByteMemory.Memory :=
  (transfer array [indexOf index] shape).map fun addresses => write array.dtype m addresses vec

def vectorStoreNdIndex (indices : List IndexArg) : Option ByteMemory.Memory :=
  (transfer array (indices.map indexOf) shape).map fun addresses => write array.dtype m addresses vec

def vectorStore1dIndexAligned (index : IndexArg) : Option ByteMemory.Memory := do
  let ptr ← memrefToLlvmPtr array [indexOf index]
  (llvmAccess array.dtype ptr shape alignment).map fun addresses => write array.dtype m addresses vec

def vectorStoreNdIndexAligned (indices : List IndexArg) : Option ByteMemory.Memory := do
  let ptr ← memrefToLlvmPtr array (indices.map indexOf)
  (llvmAccess array.dtype ptr shape alignment).map fun addresses => write array.dtype m addresses vec

end

section
variable (t : ElementType) (ptr : BitVec 64) (index : IndexArg) (shape : List Nat) (alignment : Nat) (m : ByteMemory.Memory)

def vectorLoadCpointer1d : Option (List (Value t)) :=
  (llvmAccess t (cpointerToElementPtr t ptr index) shape alignment).map (read t m)

def vectorStoreCpointer1d (vec : List (Value t)) : Option ByteMemory.Memory :=
  (llvmAccess t (cpointerToElementPtr t ptr index) shape alignment).map fun addresses => write t m addresses vec

end

/-! ## Accesses -/

inductive Access where
  | unaligned (array : StridedArray) (index : Index)
  | aligned (array : StridedArray) (index : Index) (alignment : Nat)
  | pointer (dtype : ElementType) (ptr : BitVec 64) (index : IndexArg) (alignment : Nat)

def Access.dtype : Access → ElementType
  | unaligned array _ | aligned array _ _ => array.dtype
  | pointer dtype _ _ _ => dtype

def Access.load (shape : List Nat) (m : ByteMemory.Memory) : (c : Access) → Option (List (Value c.dtype))
  | unaligned array (.scalar index) => vectorLoad1dIndex array shape m index
  | unaligned array (.tuple indices) => vectorLoadNdIndex array shape m indices
  | aligned array (.scalar index) alignment => vectorLoad1dIndexAligned array shape alignment m index
  | aligned array (.tuple indices) alignment => vectorLoadNdIndexAligned array shape alignment m indices
  | pointer dtype ptr index alignment => vectorLoadCpointer1d dtype ptr index shape alignment m

def Access.store (shape : List Nat) (m : ByteMemory.Memory) : (c : Access) → List (Value c.dtype) → Option ByteMemory.Memory
  | unaligned array (.scalar index), vec => vectorStore1dIndex array shape m vec index
  | unaligned array (.tuple indices), vec => vectorStoreNdIndex array shape m vec indices
  | aligned array (.scalar index) alignment, vec => vectorStore1dIndexAligned array shape alignment m vec index
  | aligned array (.tuple indices) alignment, vec => vectorStoreNdIndexAligned array shape alignment m vec indices
  | pointer dtype ptr index alignment, vec => vectorStoreCpointer1d dtype ptr index shape alignment m vec

end NumbaCudaMlir.VectorAccess

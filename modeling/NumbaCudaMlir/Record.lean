import NumbaCudaMlir.Aggregate
import NumbaCudaMlir.ByteMemory
import NumbaCudaMlir.RecordArray

/-!
# Fields of records

A record is a pointer to its bytes. The lowerings of its field accesses by
attribute, name and position, of assignments to fields and of accesses to the
elements of a nested array, which is a pointer to its first element.
-/

namespace NumbaCudaMlir.Record

open ArrayIndex ByteMemory MachineInt
open Aggregate (FloatWidth)

/-! ## Types -/

inductive ItemType where
  | integer (t : IntType)
  | float (w : FloatWidth)
  | complex (w : FloatWidth)
  | boolean
  | record (size : Nat)
  deriving DecidableEq

def ItemType.size : ItemType → Nat
  | integer t => t.bits / 8
  | float w => w.bits / 8
  | complex w => 2 * (w.bits / 8)
  | boolean => 1
  | record size => size

/-- The type of a field. A nested array reads the `bitwidth` of its elements' type, which booleans do not have. -/
inductive FieldType where
  | item (t : ItemType)
  | nestedArray (dtype : ItemType) (shape : List Nat) (hasBitwidth : dtype ≠ .boolean)

def FieldType.size : FieldType → Nat
  | item t => t.size
  | nestedArray dtype shape _ => dtype.size * shape.prod

def FieldType.rank : FieldType → Nat
  | item _ => 0
  | nestedArray _ shape _ => shape.length

def strides (size : Nat) : List Nat → List Nat
  | [] => []
  | _ :: shape => size * shape.prod :: strides size shape

structure Field where
  offset : Nat
  type : FieldType

structure RecordType where
  fields : Dict String Field
  size : Nat
  size_lt : size < 2 ^ 56
  /-- The limit of NumPy. -/
  rank_le : ∀ name f, fields.get name = some f → f.type.rank ≤ 64
  field_le : ∀ name f, fields.get name = some f → f.offset + f.type.size ≤ size
  disjoint : ∀ name name' f f', fields.get name = some f → fields.get name' = some f' → name ≠ name' →
    ∀ i < f.type.size, ∀ j < f'.type.size, f.offset + i ≠ f'.offset + j

/-! ## Values -/

inductive MlirType where
  | int (bits : Nat)
  | float (w : FloatWidth)
  | complex (w : FloatWidth)
  | pointer
  deriving DecidableEq

/-- A value; floats are given by their bits. -/
inductive Value where
  | int (bits : Nat) (x : BitVec bits)
  | float (w : FloatWidth) (x : BitVec w.bits)
  | complex (w : FloatWidth) (re im : BitVec w.bits)
  | pointer (x : BitVec 64)

def Value.type : Value → MlirType
  | int bits _ => .int bits
  | float w _ => .float w
  | complex w _ _ => .complex w
  | pointer _ => .pointer

def ItemType.toMlir : ItemType → MlirType
  | integer t => .int t.bits
  | float w => .float w
  | complex w => .complex w
  | boolean => .int 1
  | record _ => .pointer

section
-- `arith.extf` and `arith.truncf` between float types of different widths
variable (resize : (f g : FloatWidth) → BitVec f.bits → BitVec g.bits)

def convertFloat (f g : FloatWidth) (x : BitVec f.bits) : BitVec g.bits := if h : f = g then h ▸ x else resize f g x

def integerToFloat (f : FloatWidth) (n : Int) : BitVec f.bits :=
  BitVec.ofNat f.bits (BinaryFloat.encodeInt f.format n)

def convert : Value → MlirType → Option Value
  | .int _ x, .int v => some (.int v (convertInteger none v x))
  | .int w x, .float f => some (.float f (integerToFloat f (value (useSignedConversion none (1 < w)) x)))
  | .int w x, .complex f => some (.complex f (integerToFloat f (value (useSignedConversion none (1 < w)) x)) 0)
  | .int _ x, .pointer => some (.pointer (convertInteger none 64 x))
  | .float f x, .int v => (convertFloatToInteger none v (BinaryFloat.decode f.format x.toNat)).map (.int v)
  | .float f x, .float g => some (.float g (convertFloat resize f g x))
  | .float f x, .complex g => some (.complex g (convertFloat resize f g x) 0)
  -- the real part keeps its own width
  | .complex f re _, .float _ => some (.float f re)
  | .complex f re im, .complex g => some (.complex g (convertFloat resize f g re) (convertFloat resize f g im))
  | .pointer x, .int v => some (.int v (convertInteger none v x))
  | .pointer x, .pointer => some (.pointer x)
  | .float .., .pointer | .complex .., .int _ | .complex .., .pointer | .pointer _, .float _ | .pointer _, .complex _ => none

/-- `as_storage` after the conversion: a value of another type is converted once more. -/
def convertItem (t : ItemType) (v : Value) : Option Value := do
  let v ← convert resize v t.toMlir
  if v.type = t.toMlir then some v else convert resize v t.toMlir

end

/-! ## Storage -/

/-- A boolean is stored in a byte. -/
def Value.bytes : Value → Nat
  | int bits _ => (bits + 7) / 8
  | float w _ => w.bits / 8
  | complex w _ _ => 2 * (w.bits / 8)
  | pointer _ => 8

def Value.toNat : Value → Nat
  | int _ x => x.toNat
  | float _ x => x.toNat
  | complex w re im => re.toNat + 2 ^ w.bits * im.toNat
  | pointer x => x.toNat

def storeValue (m : Memory) (ptr : BitVec 64) (v : Value) : Memory := store m ptr v.bytes v.toNat

/-- `from_storage`; what a record gives is its pointer. -/
def loadItem (m : Memory) (ptr : BitVec 64) (t : ItemType) : Value :=
  let x := load m ptr t.size
  match t with
  | .integer t => .int t.bits (BitVec.ofNat t.bits x)
  | .float w => .float w (BitVec.ofNat w.bits x)
  | .complex w => .complex w (BitVec.ofNat w.bits x) (BitVec.ofNat w.bits (x / 2 ^ w.bits))
  | .boolean => .int 1 (BitVec.ofBool (x != 0))
  | .record _ => .pointer ptr

/-! ## Fields -/

def getRecordFieldPtr (R : RecordType) (recordPtr : BitVec 64) (name : String) : Option (BitVec 64 × FieldType) := do
  let f ← R.fields.get name
  let offset ← integerAttr 64 f.offset
  return (recordPtr + offset, f.type)

/-- `_load_nested_array_field` gives the pointer. -/
def loadField (m : Memory) (fieldPtr : BitVec 64) : FieldType → Value
  | .nestedArray .. => .pointer fieldPtr
  | .item t => loadItem m fieldPtr t

def lowerRecordGetattr (R : RecordType) (m : Memory) (recordPtr : BitVec 64) (attr : String) : Option Value := do
  let (fieldPtr, type) ← getRecordFieldPtr R recordPtr attr
  return loadField m fieldPtr type

def lowerRecordStaticGetitemStr (R : RecordType) (m : Memory) (recordPtr : BitVec 64) (name : String) : Option Value := do
  let (fieldPtr, type) ← getRecordFieldPtr R recordPtr name
  return loadField m fieldPtr type

def fieldNameAt (R : RecordType) (index : Int) : Option String :=
  if index < 0 ∨ R.fields.length ≤ index then none else R.fields.keys[index.toNat]?

def lowerRecordStaticGetitemInt (R : RecordType) (m : Memory) (recordPtr : BitVec 64) (index : Int) : Option Value := do
  let name ← fieldNameAt R index
  let (fieldPtr, type) ← getRecordFieldPtr R recordPtr name
  return loadField m fieldPtr type

/-! ## Whole arrays -/

def unravel : Nat → List Nat → List Nat
  | _, [] => []
  | remaining, _ :: shape =>
    let trailingProduct := shape.prod
    if 1 < trailingProduct then remaining / trailingProduct :: unravel (remaining % trailingProduct) shape
    else remaining :: unravel remaining shape

/-- What is assigned: a value, which is a pointer for a record or a nested
array, or an array of the field's shape, whose memref has strides in elements. -/
inductive Source where
  | value (v : Value)
  | memref (data : BitVec 64) (strides : List Int)

def memrefElementBytes : ItemType → Nat
  | .record _ => 1
  | t => t.size

def sourceAddress (data : BitVec 64) (bytes : Nat) (strides : List Int) (indices : List Int) : BitVec 64 :=
  data + BitVec.ofInt 64 (bytes * Strided.dot indices strides)

/-- Where the loop loads an element and how many bytes of it: a record's type
is that of a pointer, and complex numbers cannot be loaded from a pointer. -/
def sourceElement (dtype : ItemType) (linearIdx : Nat) (indices : List Nat) : Source → Option (BitVec 64 × Nat)
  | .memref data strides =>
    some (sourceAddress data (memrefElementBytes dtype) strides (indices.map Nat.cast), memrefElementBytes dtype)
  | .value (.pointer src) =>
    let srcElemPtr := src + BitVec.ofNat 64 (linearIdx * dtype.size)
    match dtype with
    | .complex _ => none
    | .record _ => some (srcElemPtr, 8)
    | .integer _ | .float _ | .boolean => some (srcElemPtr, dtype.size)
  | .value (.int ..) | .value (.float ..) | .value (.complex ..) => none

def dstByteOffset : List Nat → List Nat → BitVec 64
  | index :: indices, stride :: strides => BitVec.ofNat 64 index * BitVec.ofNat 64 stride + dstByteOffset indices strides
  | _, _ => 0

/-- One turn of the loop; `from_storage` and `as_storage` keep the bits. -/
def storeElement (dtype : ItemType) (shape : List Nat) (fieldPtr : BitVec 64) (source : Source) (m : Memory) (linearIdx : Nat) :
    Option Memory := do
  let indices := unravel linearIdx shape
  let (srcElemPtr, bytes) ← sourceElement dtype linearIdx indices source
  return store m (fieldPtr + dstByteOffset indices (strides dtype.size shape)) bytes (load m srcElemPtr bytes)

def storeLoop (dtype : ItemType) (shape : List Nat) (fieldPtr : BitVec 64) (source : Source) (m : Memory) : Nat → Option Memory
  | 0 => some m
  | n + 1 => do
    let m ← storeLoop dtype shape fieldPtr source m n
    storeElement dtype shape fieldPtr source m n

/-- The loop's body is lowered even where it never runs. -/
def storeNestedArrayField (dtype : ItemType) (shape : List Nat) (fieldPtr : BitVec 64) (source : Source) (m : Memory) : Option Memory :=
  if (storeElement dtype shape fieldPtr source m 0).isNone then none
  else storeLoop dtype shape fieldPtr source m shape.prod

/-! ## Assignments -/

section
variable (resize : (f g : FloatWidth) → BitVec f.bits → BitVec g.bits)

def storeField (m : Memory) (fieldPtr : BitVec 64) (source : Source) : FieldType → Option Memory
  | .nestedArray dtype shape _ => storeNestedArrayField dtype shape fieldPtr source m
  | .item t =>
    match source with
    | .value v => do
      let v ← convertItem resize t v
      return storeValue m fieldPtr v
    | .memref .. => none

def lowerRecordSetattr (R : RecordType) (m : Memory) (recordPtr : BitVec 64) (attr : String) (source : Source) : Option Memory := do
  let (fieldPtr, type) ← getRecordFieldPtr R recordPtr attr
  storeField resize m fieldPtr source type

def lowerRecordStaticSetitemStr (R : RecordType) (m : Memory) (recordPtr : BitVec 64) (name : String) (source : Source) :
    Option Memory := do
  let (fieldPtr, type) ← getRecordFieldPtr R recordPtr name
  storeField resize m fieldPtr source type

/-! ## Elements of nested arrays -/

def byteOffset : List (BitVec 64) → List Nat → BitVec 64
  | index :: indices, stride :: strides => index * BitVec.ofNat 64 stride + byteOffset indices strides
  | _, _ => 0

def computeNestedArrayElemPtr (basePtr : BitVec 64) (dtype : ItemType) (shape : List Nat) (indices : List (BitVec 64)) : BitVec 64 :=
  basePtr + byteOffset indices (strides dtype.size shape)

/-- The getitems with an integer and with a tuple. -/
def lowerNestedArrayGetitem (m : Memory) (basePtr : BitVec 64) (dtype : ItemType) (shape : List Nat) (index : Index) : Value :=
  let indices := index.args.map RecordArray.convertIndex
  loadItem m (computeNestedArrayElemPtr basePtr dtype shape indices) dtype

/-- The setitems with an integer and with a tuple. -/
def lowerNestedArraySetitem (m : Memory) (basePtr : BitVec 64) (dtype : ItemType) (shape : List Nat) (index : Index) (v : Value) :
    Option Memory := do
  let indices := index.args.map RecordArray.convertIndex
  let elemPtr := computeNestedArrayElemPtr basePtr dtype shape indices
  let v ← convert resize v dtype.toMlir
  return storeValue m elemPtr v

end

end NumbaCudaMlir.Record

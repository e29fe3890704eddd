import NumbaCudaMlir.RecordLaws

/-!
# Memory accesses of records

The loads, stores and copies that the lowerings of records emit, at the
addresses they compute, and their translations to LLVM 7. No lowering says
how an access is aligned.
-/

namespace NumbaCudaMlir.RecordAccess

open ArrayIndex MachineInt
open Aggregate (FloatWidth)
open Record (Route SetRoute byteOffset dstByteOffset unravel sourceAddress)
open RecordArray (KernelArray convertIndex lowerRecordArrayGetitem)

/-! ## Types -/

inductive LlvmType where
  | int (w : Width)
  | half | float | double
  | pointer
  /-- The struct of a complex number. -/
  | pair (t : LlvmType)
  | array (count : Nat) (t : LlvmType)

def LlvmType.abiAlignment : LlvmType → Nat
  | int w => w.bits / 8
  | half => 2
  | float => 4
  | double => 8
  | pointer => 8
  | pair t => t.abiAlignment
  | array _ t => t.abiAlignment

inductive NumberType where
  | integer (t : IntType)
  | float (w : FloatWidth)
  | complex (w : FloatWidth)

inductive ScalarType where
  | number (t : NumberType)
  | boolean
  | datetime
  | charSeq (count : Nat)
  | unicodeCharSeq (count : Nat)

/-- A type of NumPy; nothing is said about where the fields lie. -/
inductive Layout where
  | scalar (t : ScalarType)
  | record (fields : List (String × Fin (2 ^ 63) × Layout)) (size : Fin (2 ^ 63))
  | nestedArray (dtype : Layout) (extent : Nat) (shape : List Nat)

abbrev Fields := List (String × Fin (2 ^ 63) × Layout)

def floatType : FloatWidth → LlvmType
  | .f16 => .half
  | .f32 => .float
  | .f64 => .double

def NumberType.value : NumberType → LlvmType
  | integer t => .int t.width
  | float w => floatType w
  | complex w => .pair (floatType w)

/-- `get_storage_type`; a half is stored as its bits. -/
def NumberType.storage : NumberType → LlvmType
  | float .f16 => .int .w16
  | t => t.value

def ScalarType.storage : ScalarType → LlvmType
  | number t => t.storage
  | boolean => .int .w8
  | datetime => .int .w64
  | charSeq count => .array count (.int .w8)
  | unicodeCharSeq count => .array count (.int .w32)

def NumberType.bitwidth : NumberType → Nat
  | integer t => t.bits
  | float w => w.bits
  | complex w => 2 * w.bits

/-- The types that have the attribute are those of nested arrays. -/
def Layout.bitwidth : Layout → Option Nat
  | scalar (.number t) => some t.bitwidth
  | record _ size => some (size * 8)
  | scalar _ | nestedArray .. => none

/-! ## Operations -/

/-- `llvm.load`, `llvm.store` and `llvm.intr.memcpy`. -/
inductive MemoryOp where
  | load (type : LlvmType) (ptr : BitVec 64) (alignment : Option Nat) (isVolatile : Bool)
  | store (type : LlvmType) (ptr : BitVec 64) (alignment : Option Nat) (isVolatile : Bool)
  | memcpy (dst src : BitVec 64) (size : BitVec 64) (isVolatile : Bool)

def load (type : LlvmType) (ptr : BitVec 64) : MemoryOp := .load type ptr none false

def store (type : LlvmType) (ptr : BitVec 64) : MemoryOp := .store type ptr none false

/-- An access without an alignment has that of its type, and a copy that of a byte. -/
def MemoryOp.alignment : MemoryOp → Nat
  | load type _ alignment _ | store type _ alignment _ => alignment.getD type.abiAlignment
  | memcpy .. => 1

def MemoryOp.isVolatile : MemoryOp → Bool
  | load _ _ _ isVolatile | store _ _ _ isVolatile | memcpy _ _ _ isVolatile => isVolatile

def MemoryOp.addresses : MemoryOp → List (BitVec 64)
  | load _ ptr _ _ | store _ ptr _ _ => [ptr]
  | memcpy dst src _ _ => [dst, src]

/-! ## LLVM 7 -/

structure Instruction where
  alignment : Nat
  isVolatile : Bool
  addresses : List (BitVec 64)

/-- `LLVMBuildLoad` gives the alignment of the type. -/
def translateLoadOp (type : LlvmType) (ptr : BitVec 64) : Instruction := ⟨type.abiAlignment, false, [ptr]⟩

def translateStoreOp (type : LlvmType) (ptr : BitVec 64) (isVolatile : Bool) : Instruction := ⟨type.abiAlignment, isVolatile, [ptr]⟩

def translateMemcpyOp (dst src : BitVec 64) (isVolatile : Bool) : Instruction := ⟨1, isVolatile, [dst, src]⟩

def translate : MemoryOp → Instruction
  | .load type ptr _ _ => translateLoadOp type ptr
  | .store type ptr _ isVolatile => translateStoreOp type ptr isVolatile
  | .memcpy dst src _ isVolatile => translateMemcpyOp dst src isVolatile

/-! ## Fields -/

inductive Result where
  | value
  | pointer (type : Layout) (x : BitVec 64)

structure Lowered where
  ops : List MemoryOp
  result : Result

def getRecordFieldPtr (fields : Fields) (recordPtr : BitVec 64) (fieldName : String) : Option (BitVec 64 × Layout) := do
  let (offset, type) ← fields.lookup fieldName
  let offset ← integerAttr 64 (offset : Nat)
  return (recordPtr + offset, type)

def loadField (fieldPtr : BitVec 64) : Layout → Lowered
  | .scalar t => ⟨[load t.storage fieldPtr], .value⟩
  | type => ⟨[], .pointer type fieldPtr⟩

def lowerRecordGetattr (fields : Fields) (recordPtr : BitVec 64) (attr : String) : Option Lowered := do
  let (fieldPtr, type) ← getRecordFieldPtr fields recordPtr attr
  return loadField fieldPtr type

def lowerRecordStaticGetitemStr (fields : Fields) (recordPtr : BitVec 64) (attr : String) : Option Lowered := do
  let (fieldPtr, type) ← getRecordFieldPtr fields recordPtr attr
  return loadField fieldPtr type

def lowerRecordStaticGetitemInt (fields : Fields) (recordPtr : BitVec 64) (fieldIndex : Int) : Option Lowered := do
  if fieldIndex < 0 ∨ fields.length ≤ fieldIndex then none
  else
    let (attr, _) ← fields[fieldIndex.toNat]?
    let (fieldPtr, type) ← getRecordFieldPtr fields recordPtr attr
    return loadField fieldPtr type

def lowerGet (fields : Fields) (recordPtr : BitVec 64) : Route → Option Lowered
  | .attr name => lowerRecordGetattr fields recordPtr name
  | .key name => lowerRecordStaticGetitemStr fields recordPtr name
  | .position index => lowerRecordStaticGetitemInt fields recordPtr index

/-! ## Assignments -/

/-- A value that converts to the type of the field, the pointer of a nested array, or an array. -/
inductive Source where
  | value
  | pointer (x : BitVec 64)
  | memref (data : BitVec 64) (strides : List Int)

/-- What one turn of the loop loads and stores: an array of records is one of
bytes, a record in a nested array is taken for its pointer, and complex
numbers cannot be loaded from a pointer. -/
def elementType (dtype : Layout) : Source → Option LlvmType
  | .memref .. =>
    match dtype with
    | .scalar t => some t.storage
    | .record .. => some (.int .w8)
    | .nestedArray .. => none
  | .pointer _ =>
    match dtype with
    | .scalar (.number (.complex _)) => none
    | .scalar t => some t.storage
    | .record .. => some .pointer
    | .nestedArray .. => none
  | .value => none

def memrefElementBytes (dtype : Layout) (elemSize : Nat) : Nat :=
  match dtype with
  | .record .. => 1
  | _ => elemSize

def sourceElement (dtype : Layout) (elemSize linearIdx : Nat) (indices : List Nat) : Source → BitVec 64
  | .memref data strides => sourceAddress data (memrefElementBytes dtype elemSize) strides (indices.map Nat.cast)
  | .pointer src => src + BitVec.ofNat 64 (linearIdx * elemSize)
  | .value => 0

def storeNestedArrayField (fieldPtr : BitVec 64) (source : Source) (dtype : Layout) (shape : List Nat) : Option (List MemoryOp) := do
  let bitwidth ← dtype.bitwidth
  let elemSize := bitwidth / 8
  let type ← elementType dtype source
  return (List.range shape.prod).flatMap fun linearIdx =>
    let indices := unravel linearIdx shape
    [load type (sourceElement dtype elemSize linearIdx indices source),
      store type (fieldPtr + dstByteOffset indices (Record.strides elemSize shape))]

/-- A record is stored as its pointer. -/
def storeField (fieldPtr : BitVec 64) (source : Source) : Layout → Option (List MemoryOp)
  | .nestedArray dtype extent shape => storeNestedArrayField fieldPtr source dtype (extent :: shape)
  | .record .. =>
    match source with
    | .pointer _ => some [store .pointer fieldPtr]
    | .value | .memref .. => none
  | .scalar t =>
    match source with
    | .value => some [store t.storage fieldPtr]
    | .pointer _ | .memref .. => none

def lowerRecordSetattr (fields : Fields) (recordPtr : BitVec 64) (attr : String) (source : Source) : Option (List MemoryOp) := do
  let (fieldPtr, type) ← getRecordFieldPtr fields recordPtr attr
  storeField fieldPtr source type

def lowerRecordStaticSetitemStr (fields : Fields) (recordPtr : BitVec 64) (attr : String) (source : Source) : Option (List MemoryOp) := do
  let (fieldPtr, type) ← getRecordFieldPtr fields recordPtr attr
  storeField fieldPtr source type

def lowerSet (fields : Fields) (recordPtr : BitVec 64) (attr : String) (source : Source) : SetRoute → Option (List MemoryOp)
  | .attr => lowerRecordSetattr fields recordPtr attr source
  | .key => lowerRecordStaticSetitemStr fields recordPtr attr source

/-! ## Elements of nested arrays -/

def computeNestedArrayElemPtr (basePtr : BitVec 64) (dtype : Layout) (shape : List Nat) (indices : List (BitVec 64)) :
    Option (BitVec 64) := do
  let bitwidth ← dtype.bitwidth
  return basePtr + byteOffset indices (Record.strides (bitwidth / 8) shape)

def elementPtr (basePtr : BitVec 64) (dtype : Layout) (shape : List Nat) (index : Index) : Option (BitVec 64) :=
  computeNestedArrayElemPtr basePtr dtype shape (index.args.map convertIndex)

def loadElement (elemPtr : BitVec 64) : Layout → Option Lowered
  | .scalar (.number t) => some ⟨[load t.value elemPtr], .value⟩
  | .record fields size => some ⟨[], .pointer (.record fields size) elemPtr⟩
  | .scalar _ | .nestedArray .. => none

/-- There is no conversion to the storage of the type. -/
def storeElement (elemPtr : BitVec 64) : Layout → Option (List MemoryOp)
  | .scalar (.number t) => some [store t.value elemPtr]
  | .record .. => some [store .pointer elemPtr]
  | .scalar _ | .nestedArray .. => none

/-- The getitems with an integer and with a tuple. -/
def lowerNestedArrayGetitem (basePtr : BitVec 64) (dtype : Layout) (shape : List Nat) (index : Index) : Option Lowered := do
  let elemPtr ← elementPtr basePtr dtype shape index
  loadElement elemPtr dtype

/-- The setitems with an integer and with a tuple. -/
def lowerNestedArraySetitem (basePtr : BitVec 64) (dtype : Layout) (shape : List Nat) (index : Index) : Option (List MemoryOp) := do
  let elemPtr ← elementPtr basePtr dtype shape index
  storeElement elemPtr dtype

/-! ## Whole records -/

def lowerRecordArraySetitem (recordSize : Nat) (array : KernelArray) (index : List IndexArg) (src : BitVec 64) : Option (List MemoryOp) := do
  let dest ← lowerRecordArrayGetitem recordSize array index
  let size ← integerAttr 64 recordSize
  return [.memcpy dest src size false]

end NumbaCudaMlir.RecordAccess

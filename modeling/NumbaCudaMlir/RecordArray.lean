import NumbaCudaMlir.ArrayIndex
import NumbaCudaMlir.CapturedArray
import NumbaCudaMlir.Convert
import NumbaCudaMlir.Dict

/-!
# Arrays of records

The lowerings of `arr[i]`, `arr[i] = rec` and `arr.field` for an array of
records, which a kernel gets as a memref of bytes.
-/

namespace NumbaCudaMlir.RecordArray

open ArrayIndex MachineInt

/-! ## Record types -/

/-- The type of a field: a number of some bytes, a record, or a type without a
`bitwidth` (booleans, dates, strings, nested arrays). -/
inductive FieldType where
  | number (bytes : Nat)
  | record (size : Nat)
  | other

def FieldType.bitwidth : FieldType → Option Nat
  | number bytes => some (8 * bytes)
  | record size => some (8 * size)
  | other => none

structure RecordField where
  offset : Nat
  type : FieldType

structure RecordType where
  size : Nat
  fields : Dict String RecordField
  size_lt : size < 2 ^ 63
  /-- The fields lie inside the record. -/
  offset_le : ∀ name f, fields.get name = some f → f.offset ≤ size
  field_le : ∀ name f b, fields.get name = some f → f.type.bitwidth = some b → b ≤ 8 * size

/-! ## The array in the kernel -/

structure KernelArray where
  data : BitVec 64
  memref : MemRef

def rank (array : KernelArray) : Nat := array.memref.extents.length

def kernelArray (d : MemrefDescriptor) : Option KernelArray :=
  if h : d.strides.length = d.shape.length ∧ ∀ n ∈ d.shape, 0 ≤ n ∧ n < 2 ^ 63 then
    some {
      data := BitVec.ofInt 64 (d.aligned + d.offset)
      memref := {
        offset := 0
        extents := d.shape.map Int.toNat
        strides := d.strides
        rank := by simp [h.1]
        small := by
          intro n hn
          obtain ⟨x, hx, rfl⟩ := List.mem_map.mp hn
          have := h.2 x hx
          omega } }
  else none

def convertIndex : IndexArg → BitVec 64
  | .const v => BitVec.ofInt 64 v
  | .var _ _ bits => convertInteger none 64 bits

/-- The pointer of `_lower_record_array_getitem`, which is the destination of
the copy in `_lower_record_array_setitem`. -/
def recordPointer (recordSize : Nat) (array : KernelArray) (index : IndexArg) : Option (BitVec 64) := do
  let recordSize ← integerAttr 64 recordSize
  let byteOffset := convertIndex index * recordSize
  return array.data + byteOffset

/-- An array of another rank is indexed by a tuple, which neither gives a
record nor stores one, or gives one of its rows. -/
def lowerRecordArrayGetitem (recordSize : Nat) (array : KernelArray) : List IndexArg → Option (BitVec 64)
  | [index] => if rank array = 1 then recordPointer recordSize array index else none
  | [] | _ :: _ :: _ => none

def scaleStrides (array : KernelArray) (multiplier : BitVec 64) : MemRef where
  offset := 0
  extents := array.memref.extents
  strides := array.memref.strides.map fun s => (BitVec.ofInt 64 s * multiplier).toInt
  rank := by rw [List.length_map, array.memref.rank]
  small := array.memref.small

def lowerRecordArrayFieldView (recordSize : Nat) (field : RecordField) (array : KernelArray) : Option KernelArray := do
  let fieldOffset ← integerAttr 64 field.offset
  let bitwidth ← field.type.bitwidth
  let fieldSize := bitwidth / 8
  if fieldSize = 0 then none
  else
    let strideMultiplier ← integerAttr 64 (recordSize / fieldSize : Nat)
    return ⟨array.data + fieldOffset, scaleStrides array strideMultiplier⟩

/-- The address of an element of a view of numbers; all its dimensions are indexed. -/
def elementAddress (bytes : Nat) (view : KernelArray) (xs : List IndexArg) : Option (BitVec 64) :=
  if xs.length = rank view then
    some (view.data + BitVec.ofInt 64 (bytes * view.memref.address (normalizeIndices view.memref 0 xs)))
  else none

/-! ## Accesses -/

inductive Access where
  | getitem
  | setitem
  | field (attr : String)

def lowerFieldElement (view : KernelArray) (xs : List IndexArg) : FieldType → Option (BitVec 64)
  | .number bytes => elementAddress bytes view xs
  | .record size => lowerRecordArrayGetitem size view xs
  | .other => none

def lowerAccess (T : RecordType) (array : KernelArray) (xs : List IndexArg) : Access → Option (BitVec 64)
  | .getitem | .setitem => lowerRecordArrayGetitem T.size array xs
  | .field attr => do
    let field ← T.fields.get attr
    let view ← lowerRecordArrayFieldView T.size field array
    lowerFieldElement view xs field.type

end NumbaCudaMlir.RecordArray

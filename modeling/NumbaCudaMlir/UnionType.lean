import NumbaCudaMlir.StructFields
import Mathlib.Data.Nat.Log

/-!
# Unions

A union is one integer as wide as its largest variant. `lower_union_type_getattr`
takes a variant out of it and the branch of `lower_setattr` puts one in, both by
`convert`.
-/

namespace NumbaCudaMlir.Aggregate

open MachineInt

inductive NumberType where
  | integer (t : IntType)
  | float (w : FloatWidth)

def NumberType.toFieldType : NumberType → FieldType
  | integer t => .integer t
  | float w => .float w

def NumberType.bits (t : NumberType) : Nat := t.toFieldType.bits

inductive Variant where
  | number (t : NumberType)
  | uniTuple (dtype : NumberType) (count : Nat)
  | aggregate (T : AggregateType)

def AggregateType.sizeBits (T : AggregateType) : Nat :=
  if T.isBitfieldStruct then max 8 (2 ^ Nat.clog 2 (bitfieldBits T.fields))
  else (T.fieldLayout.values.map (·.bitWidth)).sum

def Variant.sizeBits : Variant → Nat
  | number t => t.bits
  | uniTuple dtype count => count * dtype.bits
  | aggregate T => T.sizeBits

def Field.name : Field → Option String
  | bitfield name .. => name
  | regular name _ => name

structure UnionType where
  variants : List (String × Variant)
  /-- `struct` rejects duplicate names of fields. -/
  names_nodup : ∀ name T, (name, Variant.aggregate T) ∈ variants → (T.fields.filterMap Field.name).Nodup

namespace UnionType

def getVariantType (U : UnionType) (variantName : String) : Option Variant := U.variants.lookup variantName

def sizeBits (U : UnionType) : Nat := (U.variants.map (·.2.sizeBits)).foldl max 0

/-- The width of the integer; larger unions are not implemented. -/
def width (U : UnionType) : Option Nat :=
  if U.sizeBits ≤ 8 then some 8
  else if U.sizeBits ≤ 16 then some 16
  else if U.sizeBits ≤ 32 then some 32
  else if U.sizeBits ≤ 64 then some 64
  else none

end UnionType

inductive Data where
  | number (slot : Slot)
  | tuple (elements : List Slot)
  | struct (slots : List Slot)

/-! ## Reading a variant -/

def readBits {w : Nat} (unionValue : BitVec w) (bitOffset bits : Nat) (type : FieldType) : Option Slot := do
  let shifted ← shrOffset unionValue bitOffset
  let mask ← integerAttr w (2 ^ bits - 1)
  let masked := shifted &&& mask
  convertField masked type

def MlirType.zero : MlirType → Slot
  | int bits => .int bits 0
  | float w => .float w 0
  | pointer => .pointer 0
  | opaqueType id => .opaqueValue id 0

def AggregateType.mlirZero (T : AggregateType) : List Slot := T.llvmFields.map MlirType.zero

/-- The loop over the layout of a regular struct. -/
def readFields {w : Nat} (unionValue : BitVec w) (variantValue : List Slot) : List FieldInfo → Option (List Slot)
  | [] => some variantValue
  | info :: infos => do
    let fieldValue ← readBits unionValue info.bitOffset info.bitWidth info.underlyingType
    let variantValue ← insertvalue variantValue fieldValue info.fieldIndex
    readFields unionValue variantValue infos

def readStruct (T : AggregateType) {w : Nat} (unionValue : BitVec w) : Option (List Slot) :=
  if T.isBitfieldStruct then
    insertvalue T.mlirZero (.int T.bitfieldStorage (convertInteger none T.bitfieldStorage unionValue)) 0
  else readFields unionValue T.mlirZero T.fieldLayout.values

/-- `none` where the lowering fails or the value is poison. -/
def lowerUnionTypeGetattr (U : UnionType) {w : Nat} (unionValue : BitVec w) (attr : String) : Option Data := do
  match ← U.getVariantType attr with
  | .aggregate T => (readStruct T unionValue).map .struct
  | .uniTuple dtype count =>
    ((List.range count).mapM fun i => readBits unionValue (i * dtype.bits) dtype.bits dtype.toFieldType).map .tuple
  | .number t => (convertField unionValue t.toFieldType).map .number

/-! ## Writing a variant -/

/-- `convert` to the integer of the union; a float gives its value, not its bits. -/
def Slot.toInteger (w : Nat) : Slot → Option (BitVec w)
  | int _ x => some (convertInteger none w x)
  | float f x => convertFloatToInteger none w (BinaryFloat.decode f.format x.toNat)
  | pointer x => some (convertInteger none w x)
  | opaqueValue .. => none

def packFields {w : Nat} (newValue : List Slot) (unionValue : BitVec w) : List FieldInfo → Option (BitVec w)
  | [] => some unionValue
  | info :: infos => do
    let fieldValue ← extractvalue info.underlyingType.toMlir newValue info.fieldIndex
    let extended ← fieldValue.toInteger w
    let shifted ← shlOffset extended info.bitOffset
    packFields newValue (unionValue ||| shifted) infos

def packStruct (T : AggregateType) (w : Nat) (newValue : List Slot) : Option (BitVec w) :=
  if T.isBitfieldStruct then (extractInt T.bitfieldStorage newValue 0).map (convertInteger none w)
  else packFields newValue 0 T.fieldLayout.values

/-- There is no conversion from a tuple or a struct to an integer. -/
def Data.toInteger (w : Nat) : Data → Option (BitVec w)
  | number slot => slot.toInteger w
  | tuple _ | struct _ => none

def lowerSetattrUnion (U : UnionType) (w : Nat) (attr : String) (newValue : Data) : Option (BitVec w) := do
  match ← U.getVariantType attr, newValue with
  | .aggregate T, .struct slots => packStruct T w slots
  | .aggregate _, _ => none
  | .number _, newValue | .uniTuple .., newValue => newValue.toInteger w

end NumbaCudaMlir.Aggregate

import NumbaCudaMlir.Aggregate

/-!
# Fields of structs

`lower_aggregate_type_getattr` and the branch of `lower_setattr` for bitfields.
-/

namespace NumbaCudaMlir.Aggregate

open MachineInt

def extractInt (bits : Nat) (container : List Slot) (position : Nat) : Option (BitVec bits) :=
  match extractvalue (.int bits) container position with
  | some (.int _ x) => some (x.setWidth bits)
  | _ => none

/-- `arith.shli`; a shift by the width or more is poison. -/
def shli {w : Nat} (x : BitVec w) (amount : Nat) : Option (BitVec w) := if amount < w then some (x <<< amount) else none

def shrui {w : Nat} (x : BitVec w) (amount : Nat) : Option (BitVec w) := if amount < w then some (x >>> amount) else none

/-- The shifts by the offset of a field, which are left out where it is zero. -/
def shlOffset {w : Nat} (x : BitVec w) (bitOffset : Nat) : Option (BitVec w) := if 0 < bitOffset then shli x bitOffset else some x

def shrOffset {w : Nat} (x : BitVec w) (bitOffset : Nat) : Option (BitVec w) := if 0 < bitOffset then shrui x bitOffset else some x

/-- `convert` of an integer to the type of a field; a float gets its value, not its bits. -/
def convertField {w : Nat} (masked : BitVec w) : FieldType → Option Slot
  | .integer t => some (.int t.bits (convertInteger none t.bits masked))
  | .float f =>
    some (.float f (BitVec.ofNat f.bits (BinaryFloat.encodeInt f.format (value (useSignedConversion none (1 < w)) masked))))
  | .boolean => some (.int 1 (convertInteger none 1 masked))
  | .pointer => some (.pointer (convertInteger none 64 masked))
  | .opaqueType .. => none

def getBitfield (storage bitOffset bitWidth : Nat) (underlyingType : FieldType) (struct : List Slot) : Option Slot := do
  let storageFieldValue ← extractInt storage struct 0
  let shifted ← shrOffset storageFieldValue bitOffset
  let mask ← integerAttr storage (2 ^ bitWidth - 1)
  let masked := shifted &&& mask
  convertField masked underlyingType

/-- `none` where the lowering fails or the value is poison. -/
def lowerAggregateTypeGetattr (T : AggregateType) (struct : List Slot) (attr : String) : Option Slot := do
  let info ← T.fieldLayout.get attr
  if info.isBitfield then getBitfield T.bitfieldStorage info.bitOffset info.bitWidth info.underlyingType struct
  else extractvalue info.underlyingType.toMlir struct info.fieldIndex

def setBitfield (storage bitOffset bitWidth : Nat) (struct : List Slot) {w : Nat} (value : BitVec w) : Option (List Slot) := do
  let storageValue ← extractInt storage struct 0
  let newValue := convertInteger none storage value
  let one := BitVec.ofNat storage 1
  let fieldMask ← shli one bitWidth
  let fieldMask := fieldMask - one
  let shiftedMask ← shlOffset fieldMask bitOffset
  let clearMask := shiftedMask ^^^ BitVec.allOnes storage
  let clearedStorage := storageValue &&& clearMask
  let shiftedValue ← shlOffset newValue bitOffset
  let updatedStorage := clearedStorage ||| shiftedValue
  insertvalue struct (.int storage updatedStorage) 0

/-- The assignment of an integer to a bitfield. -/
def lowerSetattrBitfield (T : AggregateType) (struct : List Slot) (attr : String) {w : Nat} (value : BitVec w) :
    Option (List Slot) := do
  let info ← T.fieldLayout.get attr
  if info.isBitfield then setBitfield T.bitfieldStorage info.bitOffset info.bitWidth struct value else none

end NumbaCudaMlir.Aggregate

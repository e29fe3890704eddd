import NumbaCudaMlir.Convert
import NumbaCudaMlir.Dict
import NumbaCudaMlir.FloatBits

/-!
# Struct types

`AggregateType`: a struct of bitfields that are packed into one storage field,
of regular fields, or of both. `_calculate_field_layout` places the fields, and
`to_mlir_type` gives the LLVM struct they live in.
-/

namespace NumbaCudaMlir.Aggregate

open MachineInt

inductive FloatWidth where
  | f16 | f32 | f64
  deriving DecidableEq, Repr

def FloatWidth.bits : FloatWidth → Nat
  | f16 => 16
  | f32 => 32
  | f64 => 64

def FloatWidth.format : FloatWidth → BinaryFloat.Format
  | f16 => BinaryFloat.binary16
  | f32 => BinaryFloat.binary32
  | f64 => BinaryFloat.binary64

/-- The types of fields. `opaqueType` is a tuple or a struct, of which the
layout only reads the size. -/
inductive FieldType where
  | integer (t : IntType)
  | float (w : FloatWidth)
  | boolean
  | pointer
  | opaqueType (id bits : Nat)
  deriving DecidableEq, Repr

/-- A type that does not say its width is taken to have 64 bits. -/
def FieldType.bits : FieldType → Nat
  | integer t => t.bits
  | float w => w.bits
  | boolean | pointer => 64
  | opaqueType _ bits => bits

/-- A field with a bit width, which has an integer type, or one without; the
name `None` is padding. -/
inductive Field where
  | bitfield (name : Option String) (type : IntType) (bitWidth : Int)
  | regular (name : Option String) (type : FieldType)

structure FieldInfo where
  bitOffset : Nat
  bitWidth : Nat
  underlyingType : FieldType
  isBitfield : Bool
  fieldIndex : Nat

inductive LayoutError where
  /-- `NotImplementedError`, with the description of the field. -/
  | bitfieldAfterRegular (fieldDesc : String)
  | overflow (fieldDesc : String) (totalBitfieldBits : Nat)
  /-- `ValueError`. -/
  | invalidBitWidth (name : Option String) (bitWidth : Int)
  | unnamedRegular
  deriving DecidableEq, Repr

def fieldDesc : Option String → String
  | none => "padding"
  | some name => "field '" ++ name ++ "'"

def bitfieldStorageBits : Nat := 64

structure LayoutState where
  layout : Dict String FieldInfo
  bitOffset : Nat
  hasSeenRegularField : Bool
  totalBitfieldBits : Nat
  mlirFieldIndex : Nat

def LayoutState.initial : LayoutState := ⟨.empty, 0, false, 0, 0⟩

/-- One turn of the loop over the fields. -/
def layoutField (st : LayoutState) : Field → Except LayoutError LayoutState
  | .bitfield name type bitWidth =>
    if st.hasSeenRegularField then .error (.bitfieldAfterRegular (fieldDesc name))
    else if bitWidth ≤ 0 then .error (.invalidBitWidth name bitWidth)
    else
      let width := bitWidth.toNat
      let total := st.totalBitfieldBits + width
      if bitfieldStorageBits < total then .error (.overflow (fieldDesc name) total)
      else
        let layout := match name with
          | some name => st.layout.set name ⟨st.bitOffset, width, .integer type, true, 0⟩
          | none => st.layout
        .ok { st with layout := layout, bitOffset := st.bitOffset + width, totalBitfieldBits := total }
  | .regular none _ => .error .unnamedRegular
  | .regular (some name) type =>
    .ok { st with
      layout := st.layout.set name ⟨st.bitOffset, type.bits, type, false, st.mlirFieldIndex⟩
      bitOffset := st.bitOffset + type.bits
      hasSeenRegularField := true
      mlirFieldIndex := st.mlirFieldIndex + 1 }

def layoutLoop (st : LayoutState) : List Field → Except LayoutError LayoutState
  | [] => .ok st
  | f :: fields => (layoutField st f).bind fun st => layoutLoop st fields

def calculateFieldLayout (fields : List Field) : Except LayoutError (Dict String FieldInfo) :=
  (layoutLoop .initial fields).map (·.layout)

def bitfieldBits (fields : List Field) : Nat :=
  (fields.map fun
    | .bitfield _ _ bitWidth => bitWidth.toNat
    | .regular .. => 0).sum

structure AggregateType where
  fields : List Field
  fieldLayout : Dict String FieldInfo
  fieldLayout_eq : calculateFieldLayout fields = .ok fieldLayout
  /-- Set by `union` to the size of its largest variant. -/
  unionStorageBits : Option Nat
  storage_covers : ∀ bits, unionStorageBits = some bits → bitfieldBits fields ≤ bits

namespace AggregateType

def isBitfieldStruct (T : AggregateType) : Bool := T.fieldLayout.values.any (·.isBitfield)

def bitfieldStorage (T : AggregateType) : Nat :=
  match T.unionStorageBits with
  | some bits => if bits ≤ 8 then 8 else if bits ≤ 16 then 16 else if bits ≤ 32 then 32 else 64
  | none => 64

end AggregateType

/-! ## The LLVM struct -/

inductive MlirType where
  | int (bits : Nat)
  | float (w : FloatWidth)
  | pointer
  | opaqueType (id : Nat)
  deriving DecidableEq, Repr

def FieldType.toMlir : FieldType → MlirType
  | integer t => .int t.bits
  | float w => .float w
  | boolean => .int 1
  | pointer => .pointer
  | opaqueType id _ => .opaqueType id

/-- A field of a struct value; floats are given by their bits. -/
inductive Slot where
  | int (bits : Nat) (x : BitVec bits)
  | float (w : FloatWidth) (x : BitVec w.bits)
  | pointer (x : BitVec 64)
  | opaqueValue (id v : Nat)

def Slot.type : Slot → MlirType
  | int bits _ => .int bits
  | float w _ => .float w
  | pointer _ => .pointer
  | opaqueValue id _ => .opaqueType id

/-- `llvm.extractvalue`, which has to name the type of the position. -/
def extractvalue (type : MlirType) (container : List Slot) (position : Nat) : Option Slot :=
  match container[position]? with
  | some slot => if slot.type = type then some slot else none
  | none => none

def insertvalue (container : List Slot) (value : Slot) (position : Nat) : Option (List Slot) :=
  match container[position]? with
  | some slot => if slot.type = value.type then some (container.set position value) else none
  | none => none

def Field.mlirType : Field → Option MlirType
  | bitfield (some _) type _ => some (.int type.bits)
  | regular (some _) type => some type.toMlir
  | bitfield none .. | regular none _ => none

/-- The fields of the LLVM struct: the storage of the bitfields alone, or one for every named field. -/
def AggregateType.llvmFields (T : AggregateType) : List MlirType :=
  if T.isBitfieldStruct then [.int T.bitfieldStorage] else T.fields.filterMap Field.mlirType

end NumbaCudaMlir.Aggregate

import Mathlib.Data.BitVec

/-!
# Constants for LLVM 7

How the translator turns the attribute of an `llvm.mlir.constant` or of an
`llvm.mlir.global` into a constant of LLVM 7. It fails with an error, or aborts
the process.
-/

namespace NumbaCudaMlir.Llvm70

/-! ## Types -/

inductive FloatKind where
  | bfloat | half | float | double
  deriving DecidableEq

abbrev FloatKind.bits : FloatKind → Nat
  | bfloat | half => 16
  | float => 32
  | double => 64

inductive MlirType where
  | integer (width : Nat)
  | index
  | float (kind : FloatKind)
  | array (elem : MlirType) (count : Nat)
  | vector (elem : MlirType) (count : Nat)
  | struct (name : Option String) (packed : Bool) (body : List MlirType)

inductive LlvmType where
  | int (width : Nat)
  | fp (kind : FloatKind)
  | array (elem : LlvmType) (count : Nat)
  | vector (elem : LlvmType) (count : Nat)
  | struct (name : Option String) (packed : Bool) (body : List LlvmType)

mutual

def convertType : MlirType → LlvmType
  | .integer width => .int width
  | .index => .int 64
  | .float .bfloat => .int 16
  | .float kind => .fp kind
  | .array elem count => .array (convertType elem) count
  | .vector elem count => .vector (convertType elem) count
  | .struct name packed body => .struct name packed (convertTypes body)

def convertTypes : List MlirType → List LlvmType
  | [] => []
  | t :: ts => convertType t :: convertTypes ts

end

/-! ## Attributes -/

/-- `DenseElementsAttr`: a splat keeps one element. -/
structure Dense (width : Nat) where
  splat : Bool
  count : Nat
  data : List (BitVec width)
  sized : data.length = if splat then 1 else count

inductive Attr where
  | integer {width : Nat} (bits : BitVec width)
  | float (kind : FloatKind) (bits : BitVec kind.bits)
  | string (bytes : List (BitVec 8))
  | array (elems : List Attr)
  | denseInt {width : Nat} (d : Dense width)
  | denseFloat (kind : FloatKind) (d : Dense kind.bits)

def Dense.values {width : Nat} (d : Dense width) : List (BitVec width) :=
  if d.splat then (List.replicate d.count d.data).flatten else d.data

/-! ## Constants -/

inductive Constant where
  | int {width : Nat} (bits : BitVec width)
  | fp (kind : FloatKind) (bits : BitVec kind.bits)
  | array (elem : LlvmType) (elems : List Constant)
  | vector (elems : List Constant)
  | struct (name : Option String) (packed : Bool) (elems : List Constant)
  | null (type : LlvmType)

/-- `report_fatal_error` and a failed assertion end the process. -/
inductive Failure where
  | error
  | abort

abbrev Outcome := Except Failure

def toUInt64 {width : Nat} (val : BitVec width) : Outcome (BitVec 64) :=
  if val.toNat < 2 ^ 64 then .ok (BitVec.ofNat 64 val.toNat) else .error .abort

def constInt (ty : LlvmType) (val : BitVec 64) (signExt : Bool) : Outcome Constant :=
  match ty with
  | .int width => .ok (.int (if signExt then val.signExtend width else val.setWidth width))
  | _ => .error .abort

def constIntAttr {width : Nat} (ty : LlvmType) (bits : BitVec width) : Outcome Constant := do
  let n ← toUInt64 bits
  constInt ty n bits.msb

def constBF16 (bits : BitVec 16) : Outcome Constant := do
  constInt (.int 16) (bits.setWidth 64) false

/-- The conversions of `APFloat` to `double` and from it. -/
structure FloatConversions where
  getValueAsDouble : (kind : FloatKind) → BitVec kind.bits → BitVec 64
  ofDouble : (kind : FloatKind) → BitVec 64 → BitVec kind.bits

section
variable (conv : FloatConversions)

def constReal (ty : LlvmType) (val : BitVec 64) : Outcome Constant :=
  match ty with
  | .fp kind => .ok (.fp kind (conv.ofDouble kind val))
  | _ => .error .abort

def constFloatAttr (ty : LlvmType) : (kind : FloatKind) → BitVec kind.bits → Outcome Constant
  | .bfloat, bits => constBF16 bits
  | kind, bits => constReal conv ty (conv.getValueAsDouble kind bits)

def constElement : Attr → Outcome Constant
  | @Attr.integer width bits => constIntAttr (.int width) bits
  | .float kind bits => constFloatAttr conv (convertType (.float kind)) kind bits
  | .string _ | .array _ | .denseInt _ | .denseFloat .. => .error .error

/-- The bytes of an element, the low one first. -/
def littleEndian (n x : Nat) : List (BitVec 8) :=
  match n with
  | 0 => []
  | n + 1 => BitVec.ofNat 8 x :: littleEndian n (x / 256)

def ofBytes : List (BitVec 8) → Nat
  | [] => 0
  | b :: bs => b.toNat + 256 * ofBytes bs

def getRawData {width : Nat} (d : Dense width) : List (BitVec 8) := d.data.flatMap fun x => littleEndian (width / 8) x.toNat

/-- `std::memcpy` into a `uint64_t` that is zero. -/
def memcpyBits (raw : List (BitVec 8)) (offset n : Nat) : BitVec 64 := BitVec.ofNat 64 (ofBytes ((raw.drop offset).take n))

/-- A bit cast of an integer to a float of its width. -/
def constBitCast (kind : FloatKind) (bits : BitVec 64) : Constant := .fp kind (bits.setWidth kind.bits)

def denseFloatElement (kind : FloatKind) (d : Dense kind.bits) (i : Nat) : Constant :=
  let byteWidth := kind.bits / 8
  let bits := memcpyBits (getRawData d) (if d.splat then 0 else i * byteWidth) byteWidth
  match kind with
  | .bfloat => .int (bits.setWidth 16)
  | kind => constBitCast kind bits

def translateConstantOp (result : MlirType) : Attr → Outcome Constant
  | .integer bits => constIntAttr (convertType result) bits
  | .float kind bits => constFloatAttr conv (convertType result) kind bits
  | .array elems => do
    let elems ← elems.mapM (constElement conv)
    match result with
    | .struct name packed _ => if name.isSome then .ok (.struct name packed elems) else .ok (.struct none packed elems)
    | _ => .ok (.struct none false elems)
  | .denseInt d =>
    match result with
    | .vector elem _ => do
      let elems ← d.values.mapM fun x => constIntAttr (convertType elem) x
      .ok (.vector elems)
    | _ => .error .error
  | .denseFloat kind d =>
    match result with
    | .vector _ count => .ok (.vector ((List.range count).map (denseFloatElement kind d)))
    | _ => .error .error
  | .string _ => .error .error

/-! ## Globals -/

inductive Linkage where
  | private_ | internal | availableExternally | linkonce | weak | common | appending | externWeak | linkonceODR | weakODR | external
  deriving DecidableEq

/-- The linkages that the translator sets; LLVM begins with an external one. -/
def Linkage.set : Linkage → Linkage
  | internal => .internal
  | private_ => .private_
  | common => .common
  | _ => .external

structure GlobalOp where
  type : MlirType
  addrSpace : Nat
  linkage : Linkage
  alignment : Option Nat
  constant : Bool
  value : Option Attr
  initializerRegion : Bool

structure Global where
  type : LlvmType
  addrSpace : Nat
  linkage : Linkage
  alignment : Option Nat
  constant : Bool
  initializer : Option Constant

def globalInitializer (ty : LlvmType) : Attr → Outcome Constant
  | .string bytes => do
    let bytes ← bytes.mapM fun c => constInt (.int 8) (c.setWidth 64) false
    .ok (.array (.int 8) bytes)
  | @Attr.integer width bits => constIntAttr (.int width) bits
  | .float .. | .array _ | .denseInt _ | .denseFloat .. => .ok (.null ty)

def translateGlobalOp (op : GlobalOp) : Outcome Global := do
  let ty := convertType op.type
  let gv : Global := ⟨ty, op.addrSpace, op.linkage.set, op.alignment, false, none⟩
  match op.value with
  | some attr =>
    let init ← globalInitializer ty attr
    .ok { gv with initializer := some init }
  | none =>
    if op.initializerRegion then .error .error
    else if op.linkage ≠ .external then .ok { gv with initializer := some (.null ty) }
    else .ok gv

end

end NumbaCudaMlir.Llvm70

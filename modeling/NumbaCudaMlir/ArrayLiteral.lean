import NumbaCudaMlir.ArrayIndex
import NumbaCudaMlir.CapturedArray
import NumbaCudaMlir.Dict
import NumbaCudaMlir.Llvm70

/-!
# Captured host arrays

`lower_array_literal`: a host array that a kernel captures becomes a constant
global with the bytes of a C-ordered copy and a memref that describes it.
-/

namespace NumbaCudaMlir.ArrayLiteral

open ArrayIndex CInt

/-! ## Host arrays -/

/-- The order of the loop over the extents that NumPy's contiguity flags make:
a dimension of extent one has any stride. -/
def inOrder : List Int → List Int → List Int → Bool
  | n :: ns, s :: ss, t :: ts => (n < 2 || s = t) && inOrder ns ss ts
  | _, _, _ => true

def cOrder (shape : List Nat) : List Int := Strided.rowMajor (shape.map fun n : Nat => (n : Int))

def fOrder (shape : List Nat) : List Int := (Strided.rowMajor (shape.map fun n : Nat => (n : Int)).reverse).reverse

/-- A NumPy array: `element c` are the bytes of `a[c]`, `strides` count bytes. -/
structure NdArray where
  dtype : NpDType
  shape : List Nat
  strides : List Int
  element : List Int → List (BitVec 8)
  rank : strides.length = shape.length
  sized : ∀ c, (element c).length = dtype.itemsize
  extent_lt : ∀ n ∈ shape, n < 2 ^ 63
  stride_mem : ∀ s ∈ strides, InInt64 s
  nbytes_lt : dtype.itemsize * shape.prod < 2 ^ 63

namespace NdArray

def ndim (a : NdArray) : Nat := a.shape.length

def nbytes (a : NdArray) : Nat := a.dtype.itemsize * a.shape.prod

/-- An array is in an order up to its item size, or empty. -/
def contiguous (a : NdArray) (order : List Nat → List Int) : Bool :=
  0 ∈ a.shape || inOrder (a.shape.map fun n : Nat => (n : Int)) a.strides ((order a.shape).map (a.dtype.itemsize * ·))

def tobytes (a : NdArray) : List (BitVec 8) := (box a.shape).flatMap a.element

end NdArray

inductive LayoutKind where
  | c | f | a
  deriving DecidableEq

def mapLayout (val : NdArray) : LayoutKind :=
  if val.contiguous cOrder then .c
  else if val.contiguous fOrder then .f
  else .a

/-- The strides and the shape that `np.ascontiguousarray` gives; an array
without dimensions gets one. -/
def contiguousShape (a : NdArray) : List Nat := if a.shape = [] then [1] else a.shape

def contiguousStrides (a : NdArray) : List Int :=
  if a.shape = [] then [(a.dtype.itemsize : Int)]
  else if a.contiguous cOrder then a.strides
  else (cOrder a.shape).map (a.dtype.itemsize * ·)

def contiguousElement (a : NdArray) : List Int → List (BitVec 8) := if a.shape = [] then fun _ => a.element [] else a.element

/-! ## Types -/

inductive StorageType where
  | integer (width : Nat)
  | float (width : Nat)
  | complex (width : Nat)
  deriving DecidableEq

def StorageType.bytes : StorageType → Nat
  | integer width | float width => width / 8
  | complex width => 2 * width / 8

/-- `get_storage_type(to_numba_type(dtype))`; None is the TypeError of a dtype
that `np_dtype_to_numba_dtype` does not have, such as a structured one. -/
def storageType : NpDType → Option StorageType
  | .numeric .bool .s1 => some (.integer 8)
  | .numeric .int .s1 | .numeric .uint .s1 => some (.integer 8)
  | .numeric .int .s2 | .numeric .uint .s2 => some (.integer 16)
  | .numeric .int .s4 | .numeric .uint .s4 => some (.integer 32)
  | .numeric .int .s8 | .numeric .uint .s8 => some (.integer 64)
  | .numeric .float .s2 => some (.integer 16)
  | .numeric .float .s4 => some (.float 32)
  | .numeric .float .s8 => some (.float 64)
  | .numeric .complex .s8 => some (.complex 32)
  | .numeric .complex .s16 => some (.complex 64)
  | .datetime64 _ | .timedelta64 _ => some (.integer 64)
  | .numeric .. | .void .. | .bytes _ | .str _ => none

def alignment : NpDType → Nat
  | .numeric .complex s => s.bytes / 2
  | .numeric _ s => s.bytes
  | .datetime64 _ | .timedelta64 _ => 8
  | .str _ => 4
  | .void .. | .bytes _ => 1

/-! ## Texts -/

def hexDigit (n : Nat) : Char := if n < 10 then Char.ofNat (48 + n) else Char.ofNat (55 + n)

/-- A backslash and `{byte:02X}`. -/
def escape (byte : BitVec 8) : List Char := ['\\', hexDigit (byte.toNat / 16), hexDigit (byte.toNat % 16)]

def hexValue (c : Char) : Option Nat :=
  if '0' ≤ c ∧ c ≤ '9' then some (c.toNat - 48)
  else if 'A' ≤ c ∧ c ≤ 'F' then some (c.toNat - 55)
  else if 'a' ≤ c ∧ c ≤ 'f' then some (c.toNat - 87)
  else none

def unescape (c : Char) : Option (BitVec 8) :=
  if c = '"' then some 34
  else if c = '\\' then some 92
  else if c = 'n' then some 10
  else if c = 't' then some 9
  else none

def parseString : List Char → Option (List (BitVec 8))
  | [] => some []
  | c :: cs =>
    if c = '"' then none
    else if c ≠ '\\' then (parseString cs).map (BitVec.ofNat 8 c.toNat :: ·)
    else
      match cs with
      | [] => none
      | d :: cs =>
        match unescape d, cs with
        | some byte, cs => (parseString cs).map (byte :: ·)
        | none, [] => none
        | none, e :: cs => do
          let hi ← hexValue d
          let lo ← hexValue e
          (parseString cs).map (BitVec.ofNat 8 (16 * hi + lo) :: ·)

/-! ## Lowering -/

structure Builder where
  constantArrayId : Nat
  constantArrayGlobals : Dict Nat String
  mlirGpuModule : Dict String Llvm70.GlobalOp

/-- A memref on a global. Its pointers count from the global; the type has
dynamic extents or those of the array, and the layout of C order. -/
structure ArrayMemref where
  global : String
  elementType : StorageType
  dims : List (Option Nat)
  descriptor : MemrefDescriptor

def constantName (id : Nat) : String := "constant_array_" ++ toString id

/-- The verifier wants a string with the length of the array type. -/
def constantGlobal (dtype : NpDType) (nbytes : Nat) (bytes : List (BitVec 8)) : Option Llvm70.GlobalOp := do
  let data := bytes.flatMap escape
  let value ← parseString data
  if value.length = nbytes then
    some {
      type := .array (.integer 8) nbytes
      addrSpace := 4
      linkage := .internal
      alignment := some (alignment dtype)
      constant := true
      value := some (.string value)
      initializerRegion := false }
  else none

def addConstant (b : Builder) (id : Nat) (value : NdArray) : Option (String × Builder) :=
  match b.constantArrayGlobals.get id with
  | some name => some (name, b)
  | none => do
    let name := constantName b.constantArrayId
    let op ← constantGlobal value.dtype (value.dtype.itemsize * (contiguousShape value).prod)
      ((box (contiguousShape value)).flatMap (contiguousElement value))
    return (name, {
      constantArrayId := b.constantArrayId + 1
      constantArrayGlobals := b.constantArrayGlobals.set id name
      mlirGpuModule := b.mlirGpuModule.set name op })

def lowerArrayLiteral (b : Builder) (id : Nat) (value : NdArray) (typed : Bool) : Option (ArrayMemref × Builder) := do
  let dtype ← storageType value.dtype
  let (name, b) ← addConstant b id value
  if value.dtype.itemsize = 0 then none
  else
    let strides := (contiguousStrides value).map (·.fdiv value.dtype.itemsize)
    let desc ← buildMemrefDescriptor 0 ((contiguousShape value).map fun n : Nat => (n : Int)) strides
    let dims := (contiguousShape value).map fun n => if typed then none else some n
    return (⟨name, dtype, dims, desc⟩, b)

/-- The loads of captured arrays in the order of the lowering. -/
def lowerLoads (b : Builder) : List (Nat × NdArray × Bool) → Option (List ArrayMemref × Builder)
  | [] => some ([], b)
  | (id, value, typed) :: loads => do
    let (r, b) ← lowerArrayLiteral b id value typed
    let (rs, b) ← lowerLoads b loads
    return (r :: rs, b)

/-! ## Reading -/

/-- The layout of C order has stride one in the last dimension, whatever the descriptor says. -/
def identityStrides : List Int → List Int
  | [] => []
  | [_] => [1]
  | s :: ss => s :: identityStrides ss

theorem identityStrides_length : ∀ ss : List Int, (identityStrides ss).length = ss.length
  | [] => rfl
  | [_] => rfl
  | _ :: t :: ss => congrArg (· + 1) (identityStrides_length (t :: ss))

def ArrayMemref.memref (r : ArrayMemref) : Option MemRef :=
  let d := r.descriptor
  if h : d.strides.length = d.shape.length ∧ ∀ n ∈ d.shape, 0 ≤ n ∧ n < 2 ^ 63 then
    some {
      offset := d.offset
      extents := d.shape.map Int.toNat
      strides := identityStrides d.strides
      rank := by rw [identityStrides_length, h.1, List.length_map]
      small := by
        intro n hn
        obtain ⟨x, hx, rfl⟩ := List.mem_map.mp hn
        have := h.2 x hx
        omega }
  else none

def constantBytes : Llvm70.Constant → Option (List (BitVec 8))
  | .array _ elems => elems.mapM fun
    | @Llvm70.Constant.int width bits => if width = 8 then some (bits.setWidth 8) else none
    | _ => none
  | _ => none

/-- The bytes of a global of the translated module. -/
def moduleBytes (gpuModule : Dict String Llvm70.GlobalOp) (name : String) : Option (List (BitVec 8)) := do
  let op ← gpuModule.get name
  let gv ← (Llvm70.translateGlobalOp op).toOption
  let init ← gv.initializer
  constantBytes init

/-- The bytes of an element. An index that is not inside the memref is undefined. -/
def readElement (gpuModule : Dict String Llvm70.GlobalOp) (r : ArrayMemref) (index : Index) : Option (List (BitVec 8)) := do
  let m ← r.memref
  let access ← lower m .getitem index
  match access with
  | .element coords =>
    if coords ∈ box m.extents then do
      let bytes ← moduleBytes gpuModule r.global
      return (bytes.drop (r.elementType.bytes * (m.address coords).toNat)).take r.elementType.bytes
    else none
  | .subview _ | .fill _ => none

end NumbaCudaMlir.ArrayLiteral

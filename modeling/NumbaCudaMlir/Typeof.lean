import NumbaCudaMlir.Extract

/-!
# Types of launch arguments

`typeof`, on the arguments a launch accepts; `none` where it raises.
-/

namespace NumbaCudaMlir

open CInt

def int64 : NumbaType := .scalar (.integer true .s8)

def uint64 : NumbaType := .scalar (.integer false .s8)

def float64 : NumbaType := .scalar (.float .s8)

/-- `_typeof_int`, where `bit_length` counts `-2 ** 63` as 63 bits. -/
def typeofInt (v : Int) : Option NumbaType :=
  if InInt64 v then some int64 else if InUInt64 v then some uint64 else none

/-! ## Enum classes -/

def EnumValue.dtype : EnumValue → Option EnumDType
  | int v => if InInt64 v then some .int64 else if InUInt64 v then some .uint64 else none
  | bool _ => some .boolean
  | float _ => some .float64
  | other _ => none

def EnumClass.dtype (cls : EnumClass) : Option EnumDType :=
  match cls.values.map EnumValue.dtype with
  | [] => none
  | d :: ds => if ∀ e ∈ ds, e = d then d else none

def EnumClass.memberType (cls : EnumClass) : Option NumbaType :=
  cls.dtype.map fun d => .scalar (.enumMember cls.isInt cls.id d)

/-! ## Arrays -/

def packedFrom : Int → List (Int × Int) → Bool
  | _, [] => true
  | sd, (size, stride) :: dims =>
    if size ≠ 1 then stride = sd && packedFrom (sd * size) dims else packedFrom sd dims

namespace DeviceNDArray

def layout (ary : DeviceNDArray) : Layout :=
  if ary.shape.prod = 0 then .C
  -- Broadcast arrays are never contiguous.
  else if 0 ∈ ary.strides then .A
  else if packedFrom ary.dtype.itemsize (ary.shape.reverse.zip ary.strides.reverse) then .C
  else if packedFrom ary.dtype.itemsize (ary.shape.zip ary.strides) then .F
  else .A

def numbaType (ary : DeviceNDArray) : Option NumbaType :=
  (fromDtype ary.dtype).map fun d => .array d ary.shape.length ary.layout false

end DeviceNDArray

/-- `strides_from_shape` for F order: each stride is the one before times its extent. -/
def stridesFromShape : Int → List Int → List Int
  | _, [] => []
  | itemsize, n :: ns => itemsize :: stridesFromShape (itemsize * n) ns

def ScalarType.bitwidth : ScalarType → Option Int
  | integer _ s | float s | complex s => some (8 * s.bytes)
  | record _ n => some (8 * n)
  | _ => none

/-- The layout in `_typeof_cuda_array_interface_cached`, which compares strides in bytes
with the width in bits. -/
def interfaceLayout (dtype : ScalarType) (shape : List Int) : Option (List Int) → Option Layout
  | none => some .C
  | some strides =>
    if shape = [] then some .C
    else
      dtype.bitwidth.map fun itemsize =>
        if strides.getLast? = some itemsize then
          if strides = (stridesFromShape itemsize shape.reverse).reverse then .C else .A
        else if strides.head? = some itemsize then
          if strides = stridesFromShape itemsize shape then .F else .A
        else .A

namespace ArrayObj

def ndim (ary : ArrayObj) : Nat := ary.shape.length

def numbaType (ary : ArrayObj) : Option NumbaType :=
  match fromDtype ary.dtype with
  | none => none
  | some d =>
    match ary.cls with
    | .torchTensor | .cupyNdarray => some (.array d ary.ndim .C false)
    | .managedNdarray => some (.array d ary.ndim ary.flags ary.readonly)
    | .foreign _ cai dlpack dtypeAttr =>
      if dlpack ∧ (dlpackDtype ary.dtype).isSome then some (.array d ary.ndim ary.flags ary.readonly)
      else if ¬ cai then none
      -- The type string of a record does not name its fields.
      else if ary.dtype.kindChar = 'V' ∧ ¬ dtypeAttr then none
      else (interfaceLayout d ary.shape ary.strides).map fun l => .array d ary.ndim l ary.readonly

end ArrayObj

/-! ## typeof -/

def typeof : PyObj → Option NumbaType
  | .long .bool _ => some (.scalar .boolean)
  | .long (.intEnum cls) _ => cls.memberType
  | .long _ v => typeofInt v
  | .float .. => some float64
  | .enum cls _ => cls.memberType
  | .npFloat16 _ => some (.scalar (.float .s2))
  | .npFloat32 _ => some (.scalar (.float .s4))
  | .npDatetime isTimedelta unit _ =>
    (fromDtype (if isTimedelta then .timedelta64 unit else .datetime64 unit)).map .scalar
  | .npInteger n => some (.scalar (.integer n.signed n.size.toItemSize))
  | .npComplex64 .. => some (.scalar (.complex .s8))
  | .complex .. => some (.scalar (.complex .s16))
  | .npVoid r => some (.scalar (.record r.fields r.itemsize))
  | .deviceArray ary => ary.numbaType
  | .array ary => ary.numbaType
  | .object o => o.numbaType

/-- A top-level argument; its tuples are flattened for the native call. -/
inductive LaunchValue where
  | leaf (obj : PyObj)
  | tuple (elems : List LaunchValue)

namespace LaunchValue

mutual

def flatten : LaunchValue → List PyObj
  | leaf obj => [obj]
  | tuple elems => flattenAll elems

def flattenAll : List LaunchValue → List PyObj
  | [] => []
  | v :: vs => v.flatten ++ flattenAll vs

end

mutual

def typeof : LaunchValue → Option NumbaType
  | leaf obj => NumbaCudaMlir.typeof obj
  | tuple elems => (typeofAll elems).map .tuple

def typeofAll : List LaunchValue → Option (List NumbaType)
  | [] => some []
  | v :: vs => v.typeof.bind fun t => (typeofAll vs).map (t :: ·)

end

mutual

theorem typeof_flatten : ∀ {v : LaunchValue} {t : NumbaType}, v.typeof = some t →
    ∀ arg ∈ v.flatten, ∃ t, NumbaCudaMlir.typeof arg = some t
  | leaf obj, t, h => by
    intro arg ha
    rw [flatten, List.mem_singleton] at ha
    rw [ha]
    exact ⟨t, h⟩
  | tuple elems, _, h => by
    obtain ⟨ts, hts, -⟩ := Option.map_eq_some_iff.mp h
    exact typeofAll_flatten hts

theorem typeofAll_flatten : ∀ {vs : List LaunchValue} {ts : List NumbaType}, typeofAll vs = some ts →
    ∀ arg ∈ flattenAll vs, ∃ t, NumbaCudaMlir.typeof arg = some t
  | [], _, _ => List.forall_mem_nil _
  | v :: vs, _, h => by
    rw [typeofAll, Option.bind_eq_some_iff] at h
    obtain ⟨t, ht, h⟩ := h
    obtain ⟨ts, hts, -⟩ := Option.map_eq_some_iff.mp h
    exact List.forall_mem_append.mpr ⟨typeof_flatten ht, typeofAll_flatten hts⟩

end

end LaunchValue

end NumbaCudaMlir

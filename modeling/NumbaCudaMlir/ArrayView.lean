import NumbaCudaMlir.KernelError
import NumbaCudaMlir.MachineInt
import NumbaCudaMlir.ItemView

/-!
# Views of arrays under another dtype

`a.view(dtype)` retypes the memref of an array. Where the item size changes, one
axis is counted in the new items, and the offset and the other strides, which
are counts of elements, are divided.
-/

namespace NumbaCudaMlir

namespace ArrayView

open MachineInt

/-! ## Types -/

inductive FloatKind where
  | f16 | f32 | f64
  deriving DecidableEq, Repr

def FloatKind.width : FloatKind → Nat
  | f16 => 16
  | f32 => 32
  | f64 => 64

inductive Dtype where
  | bool
  | integer (ty : IntType)
  | float (kind : FloatKind)
  | complex64
  | complex128
  | datetime64
  | timedelta64
  deriving DecidableEq, Repr

def Dtype.itemsize : Dtype → Nat
  | bool => 1
  | integer ty => ty.bits / 8
  | float kind => kind.width / 8
  | complex64 | datetime64 | timedelta64 => 8
  | complex128 => 16

inductive ElementType where
  | integer (width : Nat)
  | float (kind : FloatKind)
  | complex (kind : FloatKind)
  deriving DecidableEq, Repr

def toMlirType : Dtype → ElementType
  | .bool => .integer 1
  | .integer ty => .integer ty.bits
  | .float kind => .float kind
  | .complex64 => .complex .f32
  | .complex128 => .complex .f64
  | .datetime64 | .timedelta64 => .integer 64

/-- `get_data_type`, the element type of an array. -/
def getDataType : Dtype → ElementType
  | .bool => .integer 8
  | .float .f16 => .integer 16
  | dtype => toMlirType dtype

def getTypeWidth : ElementType → Nat
  | .integer width => width
  | .float kind => kind.width
  | .complex kind => 2 * kind.width

/-! ## Memrefs -/

inductive Layout where
  | C | F | A
  deriving DecidableEq, Repr

/-- A memref with its strided metadata, counted in elements. -/
structure MemRef where
  elementType : ElementType
  offset : BitVec 64
  sizes : List (BitVec 64)
  strides : List (BitVec 64)
  deriving DecidableEq

def idxC (value : Nat) : BitVec 64 := BitVec.ofNat 64 value

/-- `_view_transform_axis`; dividing the old size by zero bytes raises. -/
def viewTransformAxis (sizes strides : List (BitVec 64)) (axis oldSize newSize : Nat) :
    Except ExcClass (List (BitVec 64) × List (BitVec 64)) := do
  let newSize' ←
    if newSize < oldSize then
      if newSize = 0 then throw .zeroDivisionError
      pure (sizes.getD axis 0 * idxC (oldSize / newSize))
    else
      pure ((sizes.getD axis 0 * idxC oldSize).sdiv (idxC newSize))
  let newStrides := strides.mapIdx fun j s => if j = axis then idxC 1 else (s * idxC oldSize).sdiv (idxC newSize)
  return (sizes.set axis newSize', newStrides)

/-- The metadata that `reinterpret_cast` gives the retyped memref. -/
def reinterpret (retyped : MemRef) (oldSize newSize axis : Nat) : Except ExcClass MemRef := do
  let newOffset := (retyped.offset * idxC oldSize).sdiv (idxC newSize)
  let (newSizes, newStrides) ← viewTransformAxis retyped.sizes retyped.strides axis oldSize newSize
  return { retyped with offset := newOffset, sizes := newSizes, strides := newStrides }

/-- `_dispatch` on the axes below `n`: both branches are built, the one of the
last contiguous axis runs. Without one the kernel reports an error and the
metadata stays. -/
def dispatch (errorCode : Nat) (retyped : MemRef) (oldSize newSize : Nat) : Nat → Except ExcClass (Nat × MemRef)
  | 0 => return (setErrorCode ((kernelErrorCodes .valueError).get valueError_isSome) errorCode, retyped)
  | axis + 1 => do
    let taken ← reinterpret retyped oldSize newSize axis
    let otherwise ← dispatch errorCode retyped oldSize newSize axis
    return if retyped.strides.getD axis 0 = idxC 1 then (errorCode, taken) else otherwise

/-- `lower_array_view_cg`: the exception that lowering raises, or what the view
does when it runs. -/
def lowerArrayView (errorCode : Nat) (layout : Layout) (self : MemRef) (dtype : Dtype) : Except ExcClass (Nat × MemRef) := do
  let newDtype := toMlirType dtype
  let oldDtype := self.elementType
  if oldDtype = newDtype then
    return (errorCode, self)
  let newDtypeBytes := getTypeWidth newDtype / 8
  let oldDtypeBytes := getTypeWidth oldDtype / 8
  let rank := self.sizes.length
  if rank = 0 then throw .valueError
  let retyped := { self with elementType := getDataType dtype }
  if oldDtypeBytes = newDtypeBytes then
    return (errorCode, retyped)
  if layout = .C ∨ layout = .F ∨ rank = 1 then
    let axis := if layout = .C ∨ rank = 1 then rank - 1 else 0
    return (errorCode, ← reinterpret retyped oldDtypeBytes newDtypeBytes axis)
  dispatch errorCode retyped oldDtypeBytes newDtypeBytes rank

end ArrayView

end NumbaCudaMlir

/-!
## Views against NumPy's

NumPy cuts the last axis. The lowering cuts the first one of a Fortran array and
the last one of stride one of any other array; along that axis its view has the
same bytes wherever its divisions leave nothing.
-/

namespace NumbaCudaMlir

namespace ArrayView

open MachineInt ItemView Strided

/-! ## Arrays -/

def MemRef.itemsize (r : MemRef) : Nat := getTypeWidth r.elementType / 8

/-- The bytes of a memref, from its aligned pointer on. -/
def MemRef.view (r : MemRef) : View :=
  ⟨r.itemsize, r.offset.toInt * r.itemsize, r.sizes.map BitVec.toInt, r.strides.map fun s => s.toInt * r.itemsize⟩

/-- Strides that a layout allows: an axis of one index may have any. -/
def Layout.Allows (shape strides : List Int) : Layout → Prop
  | .C => (∃ n ∈ shape, n = 0) ∨ AgreeWide shape strides (rowMajor shape)
  | .F => (∃ n ∈ shape, n = 0) ∨ AgreeWide shape.reverse strides.reverse (rowMajor shape.reverse)
  | .A => True

/-- An array of a kernel. Its bytes are addressed in 64 bits. -/
structure TypedArray where
  dtype : Dtype
  layout : Layout
  ref : MemRef
  elementType_eq : ref.elementType = getDataType dtype
  rank_pos : 0 < ref.sizes.length
  strides_length : ref.strides.length = ref.sizes.length
  allowed : layout.Allows (ref.sizes.map BitVec.toInt) (ref.strides.map BitVec.toInt)
  sizes_fit : ∀ n ∈ ref.sizes, 0 ≤ n.toInt ∧ n.toInt * dtype.itemsize < 2 ^ 63
  strides_fit : ∀ s ∈ ref.strides, InRange true 64 (s.toInt * dtype.itemsize)
  offset_fits : InRange true 64 (ref.offset.toInt * dtype.itemsize)

/-- `a.view(dtype)` is NumPy's view, and reports where NumPy raises. -/
def ViewsLikeNumpy (a : TypedArray) (dtype : Dtype) : Prop :=
  ∀ errorCode, match lastAxis a.ref.view dtype.itemsize with
    | some v => ∃ r, lowerArrayView errorCode a.layout a.ref dtype = .ok (errorCode, r) ∧ Same r.view v
    | none =>
      (∃ e, lowerArrayView errorCode a.layout a.ref dtype = .error e) ∨
        ∃ r, lowerArrayView errorCode a.layout a.ref dtype = .ok (setErrorCode 3 errorCode, r)

/-! ## Item sizes -/

theorem getTypeWidth_getDataType (dtype : Dtype) : getTypeWidth (getDataType dtype) / 8 = dtype.itemsize := by
  cases dtype with
  | integer | bool | complex64 | complex128 | datetime64 | timedelta64 => rfl
  | float kind => cases kind <;> rfl

theorem getTypeWidth_toMlirType {dtype : Dtype} (h : dtype ≠ .bool) : getTypeWidth (toMlirType dtype) / 8 = dtype.itemsize := by
  cases dtype with
  | bool => exact absurd rfl h
  | integer | complex64 | complex128 | datetime64 | timedelta64 => rfl
  | float kind => cases kind <;> rfl

theorem itemsize_bounds (dtype : Dtype) : 0 < dtype.itemsize ∧ dtype.itemsize ≤ 16 := by
  cases dtype with
  | bool | complex64 | complex128 | datetime64 | timedelta64 => decide
  | integer ty =>
    cases h : ty.width <;> simp [Dtype.itemsize, IntType.bits, h, Width.bits]
  | float kind => cases kind <;> decide

/-! ## Index arithmetic -/

theorem toInt_idxC {c : Nat} (h : c < 2 ^ 63) : (idxC c).toInt = c := by
  rw [idxC, ← BitVec.ofInt_natCast]
  exact (value_ofInt_iff (by decide) true c).mpr (inRange_signed.mpr ⟨by omega, by omega⟩)

theorem toInt_muli {x : BitVec 64} {c : Nat} (hc : c < 2 ^ 63) (h : InRange true 64 (x.toInt * c)) :
    (x * idxC c).toInt = x.toInt * c := by
  rw [BitVec.toInt_mul, toInt_idxC hc]
  have := inRange_signed.mp h
  exact Int.bmod_eq_of_le_mul_two (by push_cast; omega) (by push_cast; omega)

theorem toInt_divsi {x : BitVec 64} {c : Nat} (hc : c < 2 ^ 63) : (x.sdiv (idxC c)).toInt = x.toInt.tdiv c := by
  rw [BitVec.toInt_sdiv_of_ne_or_ne, toInt_idxC hc]
  refine .inr fun h => ?_
  have := congrArg BitVec.toInt h
  rw [toInt_idxC hc] at this
  simp at this

theorem rescale {x : BitVec 64} {old new : Nat} (hold : old < 2 ^ 63) (hnew : new < 2 ^ 63) (hx : InRange true 64 (x.toInt * old))
    (hd : (new : Int) ∣ x.toInt * old) : ((x * idxC old).sdiv (idxC new)).toInt * new = x.toInt * old := by
  rw [toInt_divsi hnew, toInt_muli hold hx, Int.tdiv_mul_cancel hd]

/-! ## The reinterpreted memref -/

def reinterpreted (m : MemRef) (old new axis : Nat) : MemRef :=
  { m with
    offset := (m.offset * idxC old).sdiv (idxC new)
    sizes := m.sizes.set axis
      (if new < old then m.sizes.getD axis 0 * idxC (old / new) else (m.sizes.getD axis 0 * idxC old).sdiv (idxC new))
    strides := m.strides.mapIdx fun j s => if j = axis then idxC 1 else (s * idxC old).sdiv (idxC new) }

theorem reinterpret_eq {new : Nat} (h : 0 < new) (m : MemRef) (old axis : Nat) :
    reinterpret m old new axis = .ok (reinterpreted m old new axis) := by
  have hne : ¬ new = 0 := by omega
  unfold reinterpret viewTransformAxis reinterpreted
  by_cases hlt : new < old
  · simp only [if_pos hlt, if_neg hne]
    rfl
  · simp only [if_neg hlt]
    rfl

section
variable {a : TypedArray} {dtype : Dtype} {axis : Nat}

theorem view_itemsize (a : TypedArray) : a.ref.itemsize = a.dtype.itemsize := by
  rw [MemRef.itemsize, a.elementType_eq, getTypeWidth_getDataType]

theorem toInt_extent (hlt : axis < a.ref.sizes.length) (hcut : CutsWhole a.ref.view axis dtype.itemsize) :
    (if dtype.itemsize < a.dtype.itemsize then a.ref.sizes.getD axis 0 * idxC (a.dtype.itemsize / dtype.itemsize)
      else (a.ref.sizes.getD axis 0 * idxC a.dtype.itemsize).sdiv (idxC dtype.itemsize)).toInt =
    a.ref.view.shape.getD axis 0 * a.dtype.itemsize / dtype.itemsize := by
  have hold := itemsize_bounds a.dtype
  have hnew := itemsize_bounds dtype
  have hx : a.ref.view.shape.getD axis 0 = (a.ref.sizes.getD axis 0).toInt := by
    simp [MemRef.view, List.getD_eq_getElem?_getD, hlt]
  obtain ⟨h0, hfit⟩ := a.sizes_fit (a.ref.sizes.getD axis 0) (by simp [List.getD_eq_getElem?_getD, hlt])
  rw [CutsWhole, hx, show a.ref.view.itemsize = a.dtype.itemsize from view_itemsize a] at hcut
  rw [hx]
  generalize a.ref.sizes.getD axis 0 = x at *
  by_cases hs : dtype.itemsize < a.dtype.itemsize
  · rw [if_pos hs] at hcut ⊢
    obtain ⟨k, hk⟩ := hcut
    have hdiv : a.dtype.itemsize / dtype.itemsize = k := by rw [hk, Nat.mul_div_cancel_left _ hnew.1]
    have hle : x.toInt * k ≤ x.toInt * a.dtype.itemsize :=
      Int.mul_le_mul_of_nonneg_left (by rw [hk]; exact_mod_cast Nat.le_mul_of_pos_left k hnew.1) h0
    have hpos : 0 ≤ x.toInt * k := Int.mul_nonneg h0 (Int.natCast_nonneg k)
    have hk' : k ≤ a.dtype.itemsize := by rw [hk]; exact Nat.le_mul_of_pos_left k hnew.1
    rw [hdiv, toInt_muli (by omega) (inRange_signed.mpr ⟨by omega, by omega⟩)]
    refine (Int.ediv_eq_of_eq_mul_left (by omega) ?_).symm
    rw [hk]
    push_cast
    ring
  · have hpos : 0 ≤ x.toInt * a.dtype.itemsize := Int.mul_nonneg h0 (Int.natCast_nonneg _)
    rw [if_neg hs, toInt_divsi (by omega), toInt_muli (by omega) (inRange_signed.mpr ⟨by omega, by omega⟩),
      Int.tdiv_eq_ediv_of_nonneg hpos]

theorem reinterpreted_same {v : View} (hne : dtype.itemsize ≠ a.dtype.itemsize)
    (hv : alongAxis a.ref.view axis dtype.itemsize = some v)
    (hw : (∃ n ∈ v.shape, n ≤ 0) ∨ (dtype.itemsize : Int) ∣ a.ref.view.offset ∧ ∀ (j : Nat) (n s : Int), j ≠ axis →
      a.ref.view.shape[j]? = some n → 2 ≤ n → a.ref.view.strides[j]? = some s → (dtype.itemsize : Int) ∣ s) :
    Same (reinterpreted { a.ref with elementType := getDataType dtype } a.dtype.itemsize dtype.itemsize axis).view v := by
  have hold := itemsize_bounds a.dtype
  have hnew := itemsize_bounds dtype
  have hitem : a.ref.view.itemsize = a.dtype.itemsize := view_itemsize a
  obtain ⟨hlt, hcut, rfl⟩ := alongAxis_eq_some (by rwa [hitem]) hv
  have hlen : a.ref.view.shape.length = a.ref.sizes.length := List.length_map _
  rw [hitem] at hw ⊢
  have hr : (reinterpreted { a.ref with elementType := getDataType dtype } a.dtype.itemsize dtype.itemsize axis).itemsize =
      dtype.itemsize := getTypeWidth_getDataType dtype
  refine (same_iff hr ?_ ?_ ?_).mpr ?_
  · simp only [MemRef.view, reinterpreted, List.map_set]
    congr 1
    exact toInt_extent (by omega) hcut
  · simp [MemRef.view, reinterpreted, a.strides_length]
  · simp [MemRef.view, a.strides_length]
  · refine hw.imp_right fun ⟨hoff, hstr⟩ => ⟨?_, agreeWide_iff_get.mpr fun j n x y hn hx hy h2 => ?_⟩
    · simp only [MemRef.view, hr, view_itemsize] at hoff ⊢
      exact rescale (by omega) (by omega) a.offset_fits hoff
    · simp only [MemRef.view, hr] at hx
      simp only [reinterpreted, List.getElem?_map, List.getElem?_mapIdx, Option.map_map, Option.map_eq_some_iff] at hx
      obtain ⟨s, hs, rfl⟩ := hx
      have hbytes : a.ref.view.strides[j]? = some (s.toInt * a.dtype.itemsize) := by simp [MemRef.view, hs, view_itemsize]
      have hj : j < a.ref.view.strides.length := (List.getElem?_eq_some_iff.mp hbytes).1
      by_cases hja : j = axis
      · subst hja
        rw [List.getElem?_set_self hj, Option.some.injEq] at hy
        rw [← hy, Function.comp_apply, if_pos rfl, toInt_idxC (by omega)]
        simp
      · rw [List.getElem?_set_ne (Ne.symm hja), hbytes, Option.some.injEq] at hy
        rw [List.getElem?_set_ne (Ne.symm hja)] at hn
        rw [← hy, Function.comp_apply, if_neg hja]
        exact rescale (by omega) (by omega) (a.strides_fit s (List.mem_of_getElem? hs)) (hstr j n _ hja hn h2 hbytes)

end

/-! ## Strides of contiguous arrays -/

section
variable {shape strides : List Int} {old new : Int}

theorem allows_C_dvd {axis : Nat} (h : Layout.C.Allows shape strides) (hne : ∀ n ∈ shape, n ≠ 0)
    (haxis : axis + 1 = shape.length) (hcut : new ∣ shape.getD axis 0 * old) {j : Nat} {n s : Int} (hj : j ≠ axis)
    (hn : shape[j]? = some n) (h2 : 2 ≤ n) (hs : strides[j]? = some s) : new ∣ s * old := by
  have hag := h.resolve_left fun ⟨n, hn, h0⟩ => hne n hn h0
  have hjlt := (List.getElem?_eq_some_iff.mp hn).1
  obtain ⟨r, hr⟩ : ∃ r, (rowMajor shape)[j]? = some r := ⟨_, List.getElem?_eq_getElem (by rwa [rowMajor_length])⟩
  obtain rfl := agreeWide_iff_get.mp hag j n s r hn hs hr h2
  have hlast : shape.getLast? = some (shape.getD axis 0) := by
    rw [List.getLast?_eq_getElem?, show shape.length - 1 = axis by omega, List.getD_eq_getElem?_getD,
      List.getElem?_eq_getElem (by omega), Option.getD_some]
  exact Int.dvd_trans hcut (Int.mul_dvd_mul_right old (last_dvd_rowMajor hlast (by omega) hr))

theorem allows_F_dvd (h : Layout.F.Allows shape strides) (hlen : strides.length = shape.length) (hne : ∀ n ∈ shape, n ≠ 0)
    (hpos : 0 < shape.length) (hcut : new ∣ shape.getD 0 0 * old) {j : Nat} {n s : Int} (hj : j ≠ 0)
    (hn : shape[j]? = some n) (h2 : 2 ≤ n) (hs : strides[j]? = some s) : new ∣ s * old := by
  have hjlt := (List.getElem?_eq_some_iff.mp hn).1
  have hC : Layout.C.Allows shape.reverse strides.reverse :=
    h.imp_left fun ⟨n, hn, h0⟩ => ⟨n, List.mem_reverse.mpr hn, h0⟩
  have haxis : shape.length - 1 + 1 = shape.reverse.length := by
    rw [List.length_reverse]
    omega
  have hother : shape.length - 1 - j ≠ shape.length - 1 := by omega
  refine allows_C_dvd hC (fun n hn => hne n (List.mem_reverse.mp hn)) haxis ?_ hother ?_ h2 ?_
  · rwa [List.getD_eq_getElem?_getD, List.getElem?_reverse (by omega), Nat.sub_self, ← List.getD_eq_getElem?_getD]
  · rw [List.getElem?_reverse (by omega), ← hn]
    congr 1
    omega
  · rw [List.getElem?_reverse (by omega), ← hs]
    congr 1
    omega

end

/-! ## The axis -/

/-- The last axis of a C array and of one dimension, the first of a Fortran
array, and otherwise the last axis of stride one. -/
def TypedArray.chosenAxis (a : TypedArray) : Option Nat :=
  let rank := a.ref.sizes.length
  match a.layout with
  | .C => some (rank - 1)
  | .F => some 0
  | .A => if rank = 1 then some 0 else (List.range rank).reverse.find? fun j => a.ref.strides.getD j 0 = idxC 1

theorem dispatch_eq {new : Nat} (h : 0 < new) (errorCode : Nat) (m : MemRef) (old : Nat) : ∀ n, dispatch errorCode m old new n =
    .ok (match (List.range n).reverse.find? fun j => m.strides.getD j 0 = idxC 1 with
      | some axis => (errorCode, reinterpreted m old new axis)
      | none => (setErrorCode 3 errorCode, m))
  | 0 => rfl
  | n + 1 => by
    rw [dispatch, reinterpret_eq h, dispatch_eq h errorCode m old n, List.range_succ, List.reverse_append]
    by_cases hs : m.strides.getD n 0 = idxC 1
    · rw [List.reverse_singleton, List.singleton_append, List.find?_cons_of_pos (by simpa using hs)]
      exact congrArg Except.ok (if_pos hs)
    · rw [List.reverse_singleton, List.singleton_append, List.find?_cons_of_neg (by simpa using hs)]
      exact congrArg Except.ok (if_neg hs)

section
variable (a : TypedArray) (dtype : Dtype)

def TypedArray.retyped : MemRef := { a.ref with elementType := getDataType dtype }

theorem lowerArrayView_of_itemsize_eq (hbool : dtype ≠ .bool) (h : dtype.itemsize = a.dtype.itemsize) (errorCode : Nat) :
    ∃ r, lowerArrayView errorCode a.layout a.ref dtype = .ok (errorCode, r) ∧ Same r.view a.ref.view := by
  have hself : getTypeWidth a.ref.elementType / 8 = a.dtype.itemsize := view_itemsize a
  have hrank : ¬ a.ref.sizes.length = 0 := by have := a.rank_pos; omega
  by_cases hty : a.ref.elementType = toMlirType dtype
  · exact ⟨a.ref, by simp only [lowerArrayView, if_pos hty]; rfl, same_refl _⟩
  · have hview : (a.retyped dtype).view = a.ref.view := by
      have : (a.retyped dtype).itemsize = a.ref.itemsize := (getTypeWidth_getDataType dtype).trans (h.trans (view_itemsize a).symm)
      rw [MemRef.view, this]
      rfl
    refine ⟨a.retyped dtype, ?_, hview ▸ same_refl _⟩
    have heq : getTypeWidth a.ref.elementType / 8 = getTypeWidth (toMlirType dtype) / 8 := by
      rw [hself, getTypeWidth_toMlirType hbool, h]
    simp only [lowerArrayView, if_neg hty, if_neg hrank, if_pos heq]
    rfl

theorem lowerArrayView_of_itemsize_ne (hbool : dtype ≠ .bool) (h : dtype.itemsize ≠ a.dtype.itemsize) (errorCode : Nat) :
    lowerArrayView errorCode a.layout a.ref dtype = .ok (match a.chosenAxis with
      | some axis => (errorCode, reinterpreted (a.retyped dtype) a.dtype.itemsize dtype.itemsize axis)
      | none => (setErrorCode 3 errorCode, a.retyped dtype)) := by
  have hself : getTypeWidth a.ref.elementType / 8 = a.dtype.itemsize := view_itemsize a
  have hnew := getTypeWidth_toMlirType hbool
  have hpos := (itemsize_bounds dtype).1
  have hty : ¬ a.ref.elementType = toMlirType dtype := fun hty => h (by rw [← hself, ← hnew, hty])
  have hrank : ¬ a.ref.sizes.length = 0 := by have := a.rank_pos; omega
  have hne : ¬ a.dtype.itemsize = dtype.itemsize := fun he => h he.symm
  simp only [lowerArrayView, if_neg hty, if_neg hrank, hself, hnew, if_neg hne, reinterpret_eq hpos, dispatch_eq hpos,
    TypedArray.chosenAxis]
  cases hl : a.layout with
  | C => rfl
  | F =>
    by_cases h1 : a.ref.sizes.length = 1
    · simp only [h1]
      rfl
    · simp only [h1]
      rfl
  | A =>
    by_cases h1 : a.ref.sizes.length = 1
    · simp only [h1]
      rfl
    · simp only [h1]
      rfl

end

/-! ## Views -/

/-- Neither the offset nor, in an array that need not be contiguous, a stride of
another axis with two indices cuts a new item, unless the view has none. -/
def Aligned (a : TypedArray) (axis : Nat) (v : View) : Prop :=
  (∃ n ∈ v.shape, n ≤ 0) ∨
    (v.itemsize : Int) ∣ a.ref.view.offset ∧
      (a.layout = .A → ∀ (j : Nat) (n s : Int), j ≠ axis → a.ref.view.shape[j]? = some n → 2 ≤ n →
        a.ref.view.strides[j]? = some s → (v.itemsize : Int) ∣ s)

theorem empty_set {shape : List Int} {axis : Nat} {f : Int → Int} (h0 : f 0 = 0) (haxis : axis < shape.length)
    (h : ∃ n ∈ shape, n = 0) : ∃ n ∈ shape.set axis (f (shape.getD axis 0)), n ≤ 0 := by
  obtain ⟨n, hn, rfl⟩ := h
  obtain ⟨j, hj, hget⟩ := List.getElem_of_mem hn
  by_cases hja : j = axis
  · subst hja
    refine ⟨_, List.mem_set haxis _, ?_⟩
    rw [List.getD_eq_getElem?_getD, List.getElem?_eq_getElem haxis, Option.getD_some, hget, h0]
  · exact ⟨0, List.mem_of_getElem? (i := j) (by rw [List.getElem?_set_ne (Ne.symm hja), List.getElem?_eq_getElem hj, hget]), by omega⟩

theorem strides_aligned {a : TypedArray} {axis : Nat} {v : View} {new : Nat} (hne : new ≠ a.dtype.itemsize)
    (hchosen : a.chosenAxis = some axis) (hv : alongAxis a.ref.view axis new = some v) (h : Aligned a axis v) :
    (∃ n ∈ v.shape, n ≤ 0) ∨ (new : Int) ∣ a.ref.view.offset ∧ ∀ (j : Nat) (n s : Int), j ≠ axis →
      a.ref.view.shape[j]? = some n → 2 ≤ n → a.ref.view.strides[j]? = some s → (new : Int) ∣ s := by
  have hitem : a.ref.view.itemsize = a.dtype.itemsize := view_itemsize a
  obtain ⟨hlt, hcut, rfl⟩ := alongAxis_eq_some (by rwa [hitem]) hv
  rcases h with he | ⟨hoff, hA⟩
  · exact .inl he
  · by_cases hempty : ∃ n ∈ a.ref.view.shape, n = 0
    · exact .inl (empty_set (f := fun n => n * a.ref.view.itemsize / new) (by simp) hlt hempty)
    · refine .inr ⟨hoff, fun j n s hj hn h2 hs => ?_⟩
      have hnz : ∀ n ∈ a.ref.sizes.map BitVec.toInt, n ≠ 0 := fun n hn h0 => hempty ⟨n, hn, h0⟩
      have hlen : a.ref.view.shape.length = a.ref.sizes.length := List.length_map _
      have hcut' : (new : Int) ∣ (a.ref.sizes.map BitVec.toInt).getD axis 0 * a.dtype.itemsize := by
        rw [← hitem]
        unfold CutsWhole at hcut
        split at hcut
        · exact Int.dvd_mul_of_dvd_right (by exact_mod_cast hcut)
        · exact hcut
      simp only [MemRef.view, List.getElem?_map, Option.map_eq_some_iff] at hs
      obtain ⟨x, hx, rfl⟩ := hs
      have hx' : (a.ref.strides.map BitVec.toInt)[j]? = some x.toInt := by rw [List.getElem?_map, hx]; rfl
      rw [view_itemsize]
      have hallowed := a.allowed
      cases hl : a.layout with
      | C =>
        rw [hl] at hallowed
        simp only [TypedArray.chosenAxis, hl, Option.some.injEq] at hchosen
        have := a.rank_pos
        exact allows_C_dvd hallowed hnz (by rw [List.length_map]; omega) hcut' hj hn h2 hx'
      | F =>
        rw [hl] at hallowed
        simp only [TypedArray.chosenAxis, hl, Option.some.injEq] at hchosen
        subst hchosen
        exact allows_F_dvd hallowed (by simp [a.strides_length]) hnz (by simpa using a.rank_pos) hcut' hj hn h2 hx'
      | A =>
        have := hA hl j n _ hj hn h2 (by rw [MemRef.view, List.getElem?_map, hx]; rfl)
        rwa [view_itemsize] at this

/-- **Views of arrays**: a dtype of the same size keeps every element in its
place. Another size cuts the chosen axis, and the elements are at NumPy's bytes
wherever its rule for that axis applies and nothing is cut apart; an array
without such an axis reports it. -/
theorem view_cuts_chosen_axis (a : TypedArray) (dtype : Dtype) (hbool : dtype ≠ .bool) (errorCode : Nat) :
    (dtype.itemsize = a.dtype.itemsize →
      ∃ r, lowerArrayView errorCode a.layout a.ref dtype = .ok (errorCode, r) ∧ Same r.view a.ref.view) ∧
    (dtype.itemsize ≠ a.dtype.itemsize → a.chosenAxis = none →
      ∃ r, lowerArrayView errorCode a.layout a.ref dtype = .ok (setErrorCode 3 errorCode, r)) ∧
    (dtype.itemsize ≠ a.dtype.itemsize → ∀ axis v, a.chosenAxis = some axis →
      alongAxis a.ref.view axis dtype.itemsize = some v → Aligned a axis v →
      ∃ r, lowerArrayView errorCode a.layout a.ref dtype = .ok (errorCode, r) ∧ Same r.view v) := by
  refine ⟨fun h => lowerArrayView_of_itemsize_eq a dtype hbool h errorCode, fun h hnone => ?_, fun h axis v hchosen hv hal => ?_⟩
  · exact ⟨_, by rw [lowerArrayView_of_itemsize_ne a dtype hbool h, hnone]⟩
  · refine ⟨_, by rw [lowerArrayView_of_itemsize_ne a dtype hbool h, hchosen], ?_⟩
    exact reinterpreted_same h hv (strides_aligned h hchosen hv hal)

def square : TypedArray where
  dtype := .integer ⟨true, .w64⟩
  layout := .F
  ref := ⟨.integer 64, 0, [2, 2], [1, 2]⟩
  elementType_eq := rfl
  rank_pos := by decide
  strides_length := rfl
  allowed := .inr ⟨fun _ => rfl, fun _ => rfl, trivial⟩
  sizes_fit := by simp [Dtype.itemsize, IntType.bits, Width.bits]
  strides_fit := by simp [Dtype.itemsize, IntType.bits, Width.bits, MachineInt.InRange]
  offset_fits := by simp [MachineInt.InRange]

/-- NumPy refuses to cut the last axis of a Fortran array, and the lowering cuts
the first one. -/
theorem fortran_array_cut : ¬ ViewsLikeNumpy square (.integer ⟨true, .w32⟩) := by
  intro h
  have hnone : lastAxis square.ref.view (Dtype.itemsize (.integer ⟨true, .w32⟩)) = none := by decide
  have hlower : lowerArrayView 0 square.layout square.ref (.integer ⟨true, .w32⟩) = .ok (0, ⟨.integer 32, 0, [4, 2], [1, 4]⟩) := by decide
  have := h 0
  rw [hnone] at this
  rcases this with ⟨e, he⟩ | ⟨r, hr⟩
  · rw [hlower] at he
    cases he
  · rw [hlower] at hr
    have hcode : 0 = setErrorCode 3 0 := congrArg Prod.fst (Except.ok.inj hr)
    exact absurd hcode (by decide)

/-- Cut along its first axis, its eight halves stay where they are. -/
theorem fortran_array_halves :
    ∃ r, lowerArrayView 0 square.layout square.ref (.integer ⟨true, .w32⟩) = .ok (0, r) ∧ Same r.view ⟨4, 0, [4, 2], [4, 16]⟩ :=
  (view_cuts_chosen_axis square (.integer ⟨true, .w32⟩) (by decide) 0).2.2 (by decide) 0 _ rfl (by decide)
    (.inr ⟨by decide, fun h => absurd h (by decide)⟩)

end ArrayView

end NumbaCudaMlir

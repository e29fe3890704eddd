import NumbaCudaMlir.DeviceArray
import NumbaCudaMlir.DescriptorSound

/-!
# Addresses of device arrays

When the descriptor built from a `DeviceNDArray`'s interface addresses the
array's own elements. The compact strides of a contiguous array do when none of
the dimensions `is_contiguous` skips has two indices.
-/

namespace NumbaCudaMlir

open CInt Strided

/-! ## The contiguity test -/

def countedExtents : List (Int × Int) → Int
  | [] => 1
  | (n, s) :: dims => (if 1 < n ∧ s ≠ 0 then n else 1) * countedExtents dims

/-- Every counted dimension steps over the counted extents after it. -/
def PackedDims (size : Int) : List (Int × Int) → Prop
  | [] => True
  | (n, s) :: dims => (1 < n ∧ s ≠ 0 → s = size * countedExtents dims) ∧ PackedDims size dims

theorem countedExtents_append : ∀ l m : List (Int × Int),
    countedExtents (l ++ m) = countedExtents l * countedExtents m
  | [], m => by simp [countedExtents]
  | (n, s) :: l, m => by
    rw [List.cons_append, countedExtents, countedExtents, countedExtents_append l m, Int.mul_assoc]

theorem countedExtents_reverse : ∀ l : List (Int × Int), countedExtents l.reverse = countedExtents l
  | [] => rfl
  | (n, s) :: l => by
    rw [List.reverse_cons, countedExtents_append, countedExtents_reverse l, Int.mul_comm]
    simp [countedExtents]

theorem countedExtents_pos : ∀ l : List (Int × Int), 0 < countedExtents l
  | [] => by decide
  | (n, s) :: l => by
    have := countedExtents_pos l
    rw [countedExtents]
    split
    · next h => exact Int.mul_pos (by omega) this
    · simpa using this

theorem contiguousFrom_append : ∀ (size : Int) (l m : List (Int × Int)),
    DeviceNDArray.contiguousFrom size (l ++ m) = true ↔
      DeviceNDArray.contiguousFrom size l = true ∧
        DeviceNDArray.contiguousFrom (size * countedExtents l) m = true
  | size, [], m => by simp [DeviceNDArray.contiguousFrom, countedExtents]
  | size, (n, s) :: l, m => by
    rw [List.cons_append, DeviceNDArray.contiguousFrom, DeviceNDArray.contiguousFrom, countedExtents]
    by_cases h : 1 < n ∧ s ≠ 0
    · by_cases hs : size = s
      · simp only [h, hs, ne_eq, not_true_eq_false, if_true, if_false, not_false_eq_true, and_self]
        rw [contiguousFrom_append (s * n) l m, Int.mul_assoc]
      · simp [h, hs]
    · simp only [h, if_false, one_mul]
      exact contiguousFrom_append size l m

theorem contiguousFrom_reverse (size : Int) : ∀ dims : List (Int × Int),
    DeviceNDArray.contiguousFrom size dims.reverse = true ↔ PackedDims size dims
  | [] => by simp [DeviceNDArray.contiguousFrom, PackedDims]
  | (n, s) :: dims => by
    rw [List.reverse_cons, contiguousFrom_append, contiguousFrom_reverse size dims, countedExtents_reverse,
      PackedDims, and_comm]
    refine and_congr_left fun _ => ?_
    by_cases h : 1 < n ∧ s ≠ 0
    · by_cases hs : size * countedExtents dims = s
      · simp [DeviceNDArray.contiguousFrom, h, hs]
      · simp [DeviceNDArray.contiguousFrom, h, hs, Ne.symm hs]
    · simp [DeviceNDArray.contiguousFrom, h]

theorem isContiguous_iff (ary : DeviceNDArray) :
    ary.isContiguous = true ↔ PackedDims ary.dtype.itemsize (ary.shape.zip ary.strides) := by
  rw [DeviceNDArray.isContiguous, List.zip, ← List.reverse_zipWith ary.ndim_eq.symm, contiguousFrom_reverse]

/-! ## Compact strides of a contiguous array -/

/-- On every dimension with two indices or more: a stride that is not zero, with later extents
whose product fits in 64 bits, or a zero stride with later extents whose product wraps to zero. -/
def CompactExact : List Int → List Int → Prop
  | n :: ns, s :: ss =>
    (2 ≤ n → (s ≠ 0 ∧ InInt64 ns.prod) ∨ (s = 0 ∧ 2 ^ 64 ∣ ns.prod)) ∧ CompactExact ns ss
  | _, _ => True

theorem prod_pos {ns : List Int} (h : ∀ n ∈ ns, 0 < n) : 0 < ns.prod := by
  induction ns with
  | nil => decide
  | cons n ns ih =>
    rw [List.prod_cons]
    exact Int.mul_pos (h n (by simp)) (ih fun m hm => h m (by simp [hm]))

theorem not_inInt64_of_dvd {x : Int} (hx : 0 < x) (hd : 2 ^ 64 ∣ x) : ¬ InInt64 x := by
  have := Int.le_of_dvd hx hd
  unfold InInt64
  omega

theorem prod_eq_countedExtents : ∀ {ns ss : List Int}, (∀ n ∈ ns, 0 < n) → ss.length = ns.length →
    CompactExact ns ss → ns.prod = countedExtents (ns.zip ss) ∨ 2 ^ 64 ∣ ns.prod
  | [], [], _, _, _ => .inl rfl
  | n :: ns, s :: ss, hp, hl, hc => by
    have hpos : ∀ m ∈ ns, 0 < m := fun m hm => hp m (by simp [hm])
    have ih := prod_eq_countedExtents hpos (by simpa using hl) hc.2
    have hn := hp n (by simp)
    rw [List.zip_cons_cons, countedExtents, List.prod_cons]
    rcases ih with ih | ih
    · by_cases hw : 2 ≤ n
      · rcases hc.1 hw with ⟨hs, -⟩ | ⟨-, hd⟩
        · rw [if_pos ⟨by omega, hs⟩, ih]; exact .inl rfl
        · exact .inr (Dvd.dvd.mul_left hd n)
      · rw [if_neg (by omega), ih, show n = 1 by omega]; exact .inl rfl
    · exact .inr (Dvd.dvd.mul_left ih n)

theorem wrap64_eq_zero_iff {x : Int} : wrap64 x = 0 ↔ 2 ^ 64 ∣ x := by
  rw [wrap64, ← Int.dvd_iff_bmod_eq_zero]
  rfl

theorem compact_agree_iff {b : Int} (hb : 0 < b) : ∀ {ns ss : List Int}, (∀ n ∈ ns, 0 < n) →
    ss.length = ns.length → PackedDims b (ns.zip ss) →
    (AgreeWide ns ((rowMajor ns).map fun r => b * wrap64 r) ss ↔ CompactExact ns ss)
  | [], [], _, _, _ => by simp [AgreeWide, CompactExact]
  | n :: ns, s :: ss, hp, hl, hk => by
    have hpos : ∀ m ∈ ns, 0 < m := fun m hm => hp m (by simp [hm])
    have hl' : ss.length = ns.length := by simpa using hl
    rw [List.zip_cons_cons, PackedDims] at hk
    rw [rowMajor, List.map_cons, AgreeWide, compact_agree_iff hb hpos hl' hk.2, CompactExact]
    refine and_congr_left fun hc => imp_congr_right fun hn => ?_
    by_cases hs : s = 0
    · simp [hs, hb.ne', wrap64_eq_zero_iff]
    · rw [hk.1 ⟨by omega, hs⟩, Int.mul_eq_mul_left_iff hb.ne']
      have hcounted := countedExtents_pos (ns.zip ss)
      have hne : b * countedExtents (ns.zip ss) ≠ 0 := (Int.mul_pos hb hcounted).ne'
      simp only [hne, ne_eq, not_false_eq_true, true_and, false_and, or_false]
      rcases prod_eq_countedExtents hpos hl' hc with he | hd
      · rw [← he, wrap64_eq_iff]
      · -- Skipped extents wrap the compact stride to zero.
        rw [wrap64_eq_zero_iff.mpr hd]
        exact iff_of_false hcounted.ne (not_inInt64_of_dvd (prod_pos hpos) hd)

theorem compact_agree_unit {u b : Int} (hu : 0 < u) : ∀ {ns ss : List Int}, (∀ n ∈ ns, 0 < n) →
    ss.length = ns.length → PackedDims b (ns.zip ss) →
    AgreeWide ns ((rowMajor ns).map fun r => u * wrap64 r) ss →
    u = b ∨ (OnWide (fun _ => False) ns ss ∧ ns.prod = 1 ∧ countedExtents (ns.zip ss) = 1)
  | [], [], _, _, _, _ => .inr ⟨by simp [OnWide], rfl, rfl⟩
  | n :: ns, s :: ss, hp, hl, hk, ha => by
    rw [List.zip_cons_cons, PackedDims] at hk
    rw [rowMajor, List.map_cons, AgreeWide] at ha
    have hn := hp n (by simp)
    rcases compact_agree_unit hu (fun m hm => hp m (by simp [hm])) (by simpa using hl) hk.2 ha.2 with
      h | ⟨hw, hprod, hcount⟩
    · exact .inl h
    · by_cases hwide : 2 ≤ n
      · have hs := ha.1 hwide
        rw [hprod, show wrap64 1 = 1 by decide, mul_one] at hs
        have := hk.1 ⟨by omega, by omega⟩
        rw [hcount, mul_one] at this
        exact .inl (hs.trans this)
      · refine .inr ⟨⟨fun h => absurd h hwide, hw⟩, ?_, ?_⟩
        · rw [List.prod_cons, hprod, show n = 1 by omega]; rfl
        · rw [List.zip_cons_cons, countedExtents, if_neg (by omega), hcount]; rfl

theorem agreeWide_of_no_wide : ∀ {ns ts ss : List Int}, OnWide (fun _ => False) ns ss → AgreeWide ns ts ss
  | [], _, _, _ => by simp [AgreeWide]
  | _ :: _, [], _, _ => by simp [AgreeWide]
  | _ :: _, _ :: _, [], _ => by simp [AgreeWide]
  | n :: ns, t :: ts, s :: ss, h => ⟨fun hn => (h.1 hn).elim, agreeWide_of_no_wide h.2⟩

theorem compactExact_of_no_wide : ∀ {ns ss : List Int}, OnWide (fun _ => False) ns ss → CompactExact ns ss
  | [], _, _ => by simp [CompactExact]
  | _ :: _, [], _ => by simp [CompactExact]
  | n :: ns, s :: ss, h => ⟨fun hn => (h.1 hn).elim, compactExact_of_no_wide h.2⟩

/-! ## The descriptor -/

def DeviceNDArray.DescriptorExact (ary : DeviceNDArray) : Prop :=
  if ary.isContiguous then
    (memrefElementSize ary.dtype = ary.dtype.itemsize ∨ OnWide (fun _ => False) ary.shape ary.strides) ∧
      CompactExact ary.shape ary.strides
  else
    OnWide (fun s => s = 0 ∨
      (ary.dtype.isOpaque = true ∨ ary.dtype.isComplex = false ∧ (ary.dtype.itemsize : Int) ∣ s) ∧ InInt64 s)
      ary.shape ary.strides

def DeviceNDArray.interfaceStrides (ary : DeviceNDArray) : Option (List Int) :=
  if ary.isContiguous then none else some ary.strides

theorem isIntTuple_map_int (ns : List Int) : (PyVal.tuple (ns.map .int)).IsIntTuple ns :=
  ⟨_, rfl, by rw [List.map_map]; rfl⟩

theorem isProducerStrides_interface (ary : DeviceNDArray) :
    IsProducerStrides ary.cudaArrayInterface.strides ary.shape ary.interfaceStrides := by
  rw [DeviceNDArray.cudaArrayInterface, DeviceNDArray.interfaceStrides]
  by_cases h : ary.isContiguous = true
  · simp only [h, if_true]; exact .inr rfl
  · simp only [h]; exact ⟨⟨_, rfl, isIntTuple_map_int _⟩, ary.ndim_eq⟩

theorem device_stride_eq_iff {d : NpDType} {dl : DLDataType} {s : Int} (hp : parseTypestr d.typestr = .ok dl)
    (hw : dtypeBytewidth dl ≠ 0) (hs : InInt64 s ∨ InUInt64 s) :
    memrefElementSize d * (wrap64 s).tdiv (dtypeBytewidth dl) = s ↔
      s = 0 ∨ (d.isOpaque = true ∨ d.isComplex = false ∧ (d.itemsize : Int) ∣ s) ∧ InInt64 s := by
  by_cases ho : d.isOpaque = true
  · have hcode := (code_eq_opaque_iff hp).mpr ho
    rw [memrefElementSize, if_pos ho, dtypeBytewidth, if_pos hcode, Int.tdiv_one, one_mul, wrap64_eq_iff]
    simp only [ho, true_or, true_and]
    refine ⟨.inr, ?_⟩
    rintro (rfl | h)
    · decide
    · exact h
  · have hcode : dl.code ≠ kDLOpaqueHandle := fun h => ho ((code_eq_opaque_iff hp).mp h)
    rw [dtypeBytewidth, if_neg hcode] at hw ⊢
    have ho' : d.isOpaque = false := by simpa using ho
    have hstride := rescaled_stride_eq_iff hp hcode hw hs
    rw [byteCount_typestr ho', ne_eq, code_eq_complex_iff hp] at hstride
    rw [memrefElementSize, if_neg ho, hstride]
    simp [ho', itemsize_lt_of_numeric hp ho', and_assoc]

/-- **Addresses of a device array's descriptor.** -/
theorem deviceArray_addresses_iff {driver : Driver} {ary : DeviceNDArray} {dtypeRepr : Option (List Char)}
    {helper helper' : LaunchHelper}
    (h : extractCudaArray driver (.dict ary.cudaArrayInterface) dtypeRepr helper = .ok helper') :
    (∀ is, InRange ary.shape is → memrefElementSize ary.dtype *
        dot is (helper'.descriptorStrides ⟨.array, helper.cuargs.length, ary.shape.length⟩)
      = dot is ary.strides) ↔
    (∃ n ∈ ary.shape, n ≤ 0) ∨ ary.DescriptorExact := by
  obtain ⟨dl, hp⟩ := extractCudaArray_typestr rfl h
  obtain ⟨-, hread, hconv⟩ := extractCudaArray_ok rfl hp rfl (isIntTuple_map_int _)
    (isProducerStrides_interface ary) h
  have hb := itemsize_pos hp
  simp only [hread, ← dot_map_mul]
  rw [dot_eq_iff (by rw [List.length_map, storedStrides_length (isProducerStrides_interface ary)]) ary.ndim_eq]
  by_cases hempty : ∃ n ∈ ary.shape, n ≤ 0
  · simp [hempty]
  have hpos : ∀ n ∈ ary.shape, 0 < n := fun n hn => by
    by_contra hc
    exact hempty ⟨n, hn, by omega⟩
  refine or_congr_right ?_
  have hu : 0 < memrefElementSize ary.dtype := by unfold memrefElementSize; split <;> omega
  by_cases hc : ary.isContiguous = true
  · have hk := (isContiguous_iff ary).mp hc
    have hso : ary.interfaceStrides = none := if_pos hc
    rw [hso, DeviceNDArray.DescriptorExact, if_pos hc, storedStrides, List.map_map]
    constructor
    · intro ha
      rcases compact_agree_unit hu hpos ary.ndim_eq hk ha with he | ⟨hw, -⟩
      · refine ⟨.inl he, (compact_agree_iff (by omega) hpos ary.ndim_eq hk).mp ?_⟩
        rwa [he] at ha
      · exact ⟨.inr hw, compactExact_of_no_wide hw⟩
    · rintro ⟨he | hw, hcx⟩
      · rw [he]; exact (compact_agree_iff (by omega) hpos ary.ndim_eq hk).mpr hcx
      · exact agreeWide_of_no_wide hw
  · have hso : ary.interfaceStrides = some ary.strides := if_neg hc
    rw [hso, DeviceNDArray.DescriptorExact, if_neg hc, storedStrides, List.map_map]
    have hmap := agreeWide_map_iff ((memrefElementSize ary.dtype * ·) ∘
      fun s => (wrap64 s).tdiv (dtypeBytewidth dl)) id ary.shape ary.strides
    rw [List.map_id] at hmap
    refine hmap.trans (onWide_congr fun s hs => ?_)
    exact device_stride_eq_iff hp (hconv _ hso s hs).1 (hconv _ hso s hs).2

def matrixArray (rowStride columnStride : Int) : DeviceNDArray :=
  ⟨.numeric .float .s8, [2, 3], [rowStride, columnStride], rfl, 4096⟩

/-- The second row of a matrix with broadcast rows is read past its only row. -/
theorem broadcast_rows_misaddressed : ∃ helper',
    extractCudaArray .idle (.dict (matrixArray 0 8).cudaArrayInterface) none .empty = .ok helper' ∧
    InRange [2, 3] [1, 0] ∧
    memrefElementSize (matrixArray 0 8).dtype * dot [1, 0] (helper'.descriptorStrides ⟨.array, 0, 2⟩)
      ≠ dot [1, 0] [0, 8] :=
  ⟨_, rfl, .cons (by decide) (.cons (by decide) .nil), by decide⟩

theorem fortran_matrix_addressed : ∃ helper',
    extractCudaArray .idle (.dict (matrixArray 8 16).cudaArrayInterface) none .empty = .ok helper' ∧
    ∀ is, InRange [2, 3] is →
      memrefElementSize (matrixArray 8 16).dtype * dot is (helper'.descriptorStrides ⟨.array, 0, 2⟩)
        = dot is [8, 16] := by
  refine ⟨_, rfl, (@deviceArray_addresses_iff .idle (matrixArray 8 16) none .empty _ rfl).mpr (.inr ?_)⟩
  rw [DeviceNDArray.DescriptorExact, if_neg (by decide)]
  exact ⟨fun _ => .inr ⟨.inr ⟨rfl, by decide⟩, by decide⟩, fun _ => .inr ⟨.inr ⟨rfl, by decide⟩, by decide⟩, trivial⟩

end NumbaCudaMlir

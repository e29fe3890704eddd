import NumbaCudaMlir.Descriptor
import NumbaCudaMlir.Strided

/-!
# Addresses of array descriptors

When the element strides of a descriptor, scaled by the item size, address the
bytes the producer's strides address.
-/

namespace NumbaCudaMlir

open CInt Strided

/-! ## Compact strides -/

theorem wrap64_prod_map_wrap64 (ns : List Int) : wrap64 (ns.map wrap64).prod = wrap64 ns.prod := by
  induction ns with
  | nil => rfl
  | cons n ns ih =>
    rw [List.map_cons, List.prod_cons, List.prod_cons, wrap64_wrap64_mul, ← wrap64_mul_wrap64, ih,
      wrap64_mul_wrap64]

theorem computeCompactRowMajorStrides_eq : ∀ ns : List Int,
    computeCompactRowMajorStrides ns = .ok ((rowMajor ns).map wrap64)
  | [] => rfl
  | [_] => rfl
  | m :: n :: ns => by
    have ih := computeCompactRowMajorStrides_eq (n :: ns)
    unfold computeCompactRowMajorStrides
    rw [ih]
    have hs : wrap64 (wrap64 ns.prod * n) = wrap64 (n :: ns).prod := by
      rw [wrap64_wrap64_mul, List.prod_cons, Int.mul_comm]
    simp only [rowMajor, List.map_cons, List.headD_cons, bind, Except.bind, hs]
    rw [if_neg (not_not.mpr (wrap64_mem _))]
    rfl

theorem rowMajor_map_wrap64 (ns : List Int) :
    (rowMajor (ns.map wrap64)).map wrap64 = (rowMajor ns).map wrap64 := by
  induction ns with
  | nil => rfl
  | cons n ns ih => simp only [List.map_cons, rowMajor, ih, wrap64_prod_map_wrap64]

/-! ## Integer tuples -/

theorem mapM_pylongAs_ok : ∀ {items : List PyVal} {ns xs : List Int}, items.map PyVal.asInt = ns.map some →
    items.mapM pylongAs = .ok xs → xs = ns.map wrap64
  | [], [], xs, _, h => by
    simp only [List.mapM_nil, pure, Except.pure] at h
    cases h; rfl
  | item :: items, n :: ns, xs, hi, h => by
    simp only [List.map_cons, List.cons.injEq] at hi
    rw [List.mapM_cons, bind_eq_ok] at h
    obtain ⟨x, hx, h⟩ := h
    rw [bind_eq_ok] at h
    obtain ⟨ys, hys, h⟩ := h
    cases h
    obtain ⟨v, hv, -, rfl⟩ := pylongAs_ok hx
    rw [hi.1] at hv
    cases hv
    rw [mapM_pylongAs_ok hi.2 hys, List.map_cons]

theorem elementStrides_ok {w : Int} : ∀ {items : List PyVal} {ss ts : List Int},
    items.map PyVal.asInt = ss.map some → elementStrides w ss.length items = .ok ts →
    ts = ss.map (fun s => (wrap64 s).tdiv w) ∧ ∀ s ∈ ss, w ≠ 0 ∧ (InInt64 s ∨ InUInt64 s)
  | [], [], ts, _, h => by cases h; simp
  | item :: items, s :: ss, ts, hi, h => by
    simp only [List.map_cons, List.cons.injEq] at hi
    rw [List.length_cons, elementStrides, bind_eq_ok] at h
    obtain ⟨x, hx, h⟩ := h
    obtain ⟨v, hv, hr, rfl⟩ := pylongAs_ok hx
    rw [hi.1] at hv
    cases hv
    by_cases hw : w = 0
    · rw [if_pos hw] at h; cases h
    · rw [if_neg hw, bind_eq_ok] at h
      obtain ⟨ts', hts, h⟩ := h
      cases h
      obtain ⟨rfl, hss⟩ := elementStrides_ok hi.2 hts
      refine ⟨by rw [List.map_cons], fun x hx => ?_⟩
      rcases List.mem_cons.mp hx with rfl | hx
      · exact ⟨hw, hr⟩
      · exact hss x hx

/-! ## The stored descriptor -/

theorem toInt_cudaArgI64 {t : Int} (h : InInt64 t) : (cudaArgI64 t).toInt = t := by
  rw [cudaArgI64, BitVec.toInt_ofInt]
  exact wrap64_eq h

theorem tdiv_inInt64 {s w : Int} (h : InInt64 s) (hw : 0 ≤ w) : InInt64 (s.tdiv w) := by
  have habs : (s.tdiv w).natAbs ≤ s.natAbs := by
    rw [Int.natAbs_tdiv]; exact Nat.div_le_self _ _
  have hneg : 0 ≤ s → 0 ≤ s.tdiv w := fun hs => Int.tdiv_nonneg hs hw
  have hpos : s ≤ 0 → s.tdiv w ≤ 0 := fun hs => by
    have := Int.tdiv_nonneg (a := -s) (by omega) hw
    rw [Int.neg_tdiv] at this
    omega
  unfold InInt64 at *
  omega

theorem descriptorStrides_pushArray (helper : LaunchHelper) (p : Int) (shapes strides : List Int)
    (cs : List ConstantArg) (ctx : Option Nat) (hl : strides.length = shapes.length)
    (hr : ∀ t ∈ strides, InInt64 t) :
    (helper.pushArray p shapes strides cs ctx).descriptorStrides
      ⟨.array, helper.cuargs.length, shapes.length⟩ = strides := by
  have hdrop : (helper.pushArray p shapes strides cs ctx).cuargs.drop (helper.cuargs.length + 3 + shapes.length)
      = strides.map cudaArgI64 := by
    rw [LaunchHelper.pushArray]
    exact List.drop_left' (by simp; omega)
  rw [LaunchHelper.descriptorStrides, hdrop, List.take_of_length_le (by simp [hl]), List.map_map]
  exact (List.map_congr_left fun t ht => toInt_cudaArgI64 (hr t ht)).trans (List.map_id' strides)

/-! ## What a successful extraction stores -/

/-- `v` is the strides entry of an array of the shape `ns`: `None` or one integer for each dimension. -/
def IsProducerStrides (v : Option PyVal) (ns : List Int) : Option (List Int) → Prop
  | none => v = none ∨ v = some .none
  | some ss => (∃ p, v = some p ∧ p.IsIntTuple ss) ∧ ss.length = ns.length

def storedStrides (w : Int) (ns : List Int) : Option (List Int) → List Int
  | none => (rowMajor ns).map wrap64
  | some ss => ss.map fun s => (wrap64 s).tdiv w

theorem interfaceStrides_ok {dl : DLDataType} {v : Option PyVal} {ns ts : List Int} {so : Option (List Int)}
    (hv : IsProducerStrides v ns so) (h : interfaceStrides dl (ns.map wrap64) v = .ok ts) :
    ts = storedStrides (dtypeBytewidth dl) ns so ∧
      ∀ ss, so = some ss → ∀ s ∈ ss, dtypeBytewidth dl ≠ 0 ∧ (InInt64 s ∨ InUInt64 s) := by
  cases so with
  | none =>
    have hc : computeCompactRowMajorStrides (ns.map wrap64) = .ok ts := by
      rcases hv with rfl | rfl <;> exact h
    rw [computeCompactRowMajorStrides_eq, rowMajor_map_wrap64] at hc
    cases hc
    exact ⟨rfl, nofun⟩
  | some ss =>
    obtain ⟨⟨p, rfl, items, rfl, hi⟩, hl⟩ := hv
    rw [interfaceStrides, List.length_map, ← hl] at h
    obtain ⟨hts, hw⟩ := elementStrides_ok hi h
    exact ⟨hts, fun ss' he => Option.some.inj he ▸ hw⟩

theorem storedStrides_length {w : Int} {v : Option PyVal} {ns : List Int} {so : Option (List Int)}
    (hv : IsProducerStrides v ns so) : (storedStrides w ns so).length = ns.length := by
  cases so with
  | none => simp [storedStrides]
  | some ss => simpa [storedStrides] using hv.2

theorem storedStrides_inInt64 {w : Int} (hw : 0 ≤ w) (ns : List Int) (so : Option (List Int)) :
    ∀ t ∈ storedStrides w ns so, InInt64 t := by
  intro t ht
  cases so with
  | none =>
    obtain ⟨r, -, rfl⟩ := List.mem_map.mp ht
    exact wrap64_mem r
  | some ss =>
    obtain ⟨s, -, rfl⟩ := List.mem_map.mp ht
    exact tdiv_inInt64 (wrap64_mem s) hw

theorem dtypeBytewidth_nonneg (dl : DLDataType) : 0 ≤ dtypeBytewidth dl := by
  unfold dtypeBytewidth bytewidth
  split <;> omega

theorem extractCudaArray_inv {driver : Driver} {d : ArrayInterface} {dtypeRepr : Option (List Char)}
    {helper helper' : LaunchHelper} (h : extractCudaArray driver (.dict d) dtypeRepr helper = .ok helper') :
    ∃ str dl items ptr shapes strides, d.typestr = some (.str str) ∧ parseTypestr str = .ok dl ∧
      d.shape = some (.tuple items) ∧ items.length ≤ 2 ^ 32 - 1 ∧ items.mapM pylongAs = .ok shapes ∧
      interfaceStrides dl shapes d.strides = .ok strides ∧ (∃ data, d.data = some data ∧ dataPointer data = .ok ptr) ∧
      helper' = helper.pushArray ptr shapes strides
        (arrayConstants dl shapes.length (arrayDtypeIdentityConstant dtypeRepr str)) (driver.pointerContext ptr) := by
  have hunpack {item : Option PyVal} {key : String} {v : PyVal} (h : unpackArrayInterface item key = .ok v) :
      item = some v := by
    cases item with
    | none => cases h
    | some w => cases h; rfl
  simp only [extractCudaArray, bind_eq_ok] at h
  obtain ⟨t, ht, sh, hsh, data, hdata, str, hstr, dl, hd, ptr, hptr, items, hit, shapes, hshapes, strides, hst, h⟩ := h
  cases h
  cases t with
  | str bytes =>
    cases hstr
    cases sh with
    | tuple items' =>
      rw [shapeItems] at hit
      split at hit
      · cases hit
      · next hle =>
        cases hit
        exact ⟨_, dl, items, ptr, shapes, strides, hunpack ht, hd, hunpack hsh, Nat.le_of_not_gt hle, hshapes, hst,
          ⟨data, hunpack hdata, hptr⟩, rfl⟩
    | _ => cases hit
  | _ => cases hstr

/-- **The descriptor of an accepted array**: its metadata, its shape modulo `2 ^ 64`, its
stored strides and its constants. -/
theorem extractCudaArray_ok {driver : Driver} {d : ArrayInterface} {dtypeRepr : Option (List Char)}
    {helper helper' : LaunchHelper} {str : List Char} {dl : DLDataType} {p : PyVal} {ns : List Int}
    {so : Option (List Int)} (hts : d.typestr = some (.str str)) (hp : parseTypestr str = .ok dl)
    (hshape : d.shape = some p) (hns : p.IsIntTuple ns) (hso : IsProducerStrides d.strides ns so)
    (h : extractCudaArray driver (.dict d) dtypeRepr helper = .ok helper') :
    helper'.argMetadata = helper.argMetadata ++ [⟨.array, helper.cuargs.length, ns.length⟩] ∧
    helper'.descriptorStrides ⟨.array, helper.cuargs.length, ns.length⟩
      = storedStrides (dtypeBytewidth dl) ns so ∧
    ∀ ss, so = some ss → ∀ s ∈ ss, dtypeBytewidth dl ≠ 0 ∧ (InInt64 s ∨ InUInt64 s) := by
  obtain ⟨items, rfl, hi⟩ := hns
  obtain ⟨_, _, _, ptr, shapes, strides, hts', hp', hshape', -, hshapes, hst, -, rfl⟩ := extractCudaArray_inv h
  rw [hts] at hts'; cases hts'
  rw [hp] at hp'; cases hp'
  rw [hshape] at hshape'; cases hshape'
  obtain rfl := mapM_pylongAs_ok hi hshapes
  obtain ⟨rfl, hw⟩ := interfaceStrides_ok hso hst
  have hread := descriptorStrides_pushArray helper ptr (ns.map wrap64) (storedStrides (dtypeBytewidth dl) ns so)
    (arrayConstants dl (ns.map wrap64).length (arrayDtypeIdentityConstant dtypeRepr str))
    (driver.pointerContext ptr) (by rw [storedStrides_length hso, List.length_map])
    (storedStrides_inInt64 (dtypeBytewidth_nonneg dl) ns so)
  rw [List.length_map] at hread
  refine ⟨?_, ?_, hw⟩
  · simp [LaunchHelper.pushArray]
  · simpa using hread

theorem extractCudaArray_constants {driver : Driver} {d : ArrayInterface} {dtypeRepr : Option (List Char)}
    {helper helper' : LaunchHelper} {str : List Char} {ns : List Int} (hts : d.typestr = some (.str str))
    (hshape : d.shape = some (.tuple (ns.map .int)))
    (h : extractCudaArray driver (.dict d) dtypeRepr helper = .ok helper') :
    ns.length < 2 ^ 32 ∧ ∃ dl, parseTypestr str = .ok dl ∧ helper'.constants = helper.constants ++
      arrayConstants dl ns.length (arrayDtypeIdentityConstant dtypeRepr str) := by
  obtain ⟨_, dl, _, _, shapes, _, hts', hp, hshape', hle, hshapes, -, -, rfl⟩ := extractCudaArray_inv h
  rw [hts] at hts'; cases hts'
  rw [hshape] at hshape'; cases hshape'
  have hl : shapes.length = ns.length := by
    have hints : (ns.map PyVal.int).map PyVal.asInt = ns.map some := by rw [List.map_map]; rfl
    rw [mapM_pylongAs_ok hints hshapes, List.length_map]
  rw [List.length_map] at hle
  exact ⟨by omega, dl, hp, by rw [← hl]; rfl⟩

theorem extractCudaArray_typestr {driver : Driver} {d : ArrayInterface} {dtypeRepr : Option (List Char)}
    {helper helper' : LaunchHelper} {str : List Char} (hts : d.typestr = some (.str str))
    (h : extractCudaArray driver (.dict d) dtypeRepr helper = .ok helper') : ∃ dl, parseTypestr str = .ok dl := by
  obtain ⟨_, dl, _, _, _, _, hts', hp, -⟩ := extractCudaArray_inv h
  rw [hts] at hts'; cases hts'
  exact ⟨dl, hp⟩

/-! ## Addresses -/

def byteStrides (b : Int) (ns : List Int) : Option (List Int) → List Int
  | none => (rowMajor ns).map (b * ·)
  | some ss => ss

/-- The strides a descriptor represents: on every dimension with two indices or more,
a compact stride that fits in 64 bits, or a reported stride that is zero or, for the kinds that
are not complex and below 32 bytes, a multiple of the item size. -/
def StridesExact (dl : DLDataType) (b : Int) (ns : List Int) : Option (List Int) → Prop
  | none => OnWide InInt64 ns (rowMajor ns)
  | some ss => OnWide (fun s => s = 0 ∨ dl.code ≠ kDLComplex ∧ b < 32 ∧ b ∣ s ∧ InInt64 s) ns ss

theorem mul_tdiv_inInt64 {b x : Int} (hb : 0 < b) (h : InInt64 x) : InInt64 (b * x.tdiv b) := by
  have hr := Int.mul_tdiv_add_tmod x b
  have hpos : 0 ≤ x → 0 ≤ x.tmod b ∧ 0 ≤ x.tdiv b := fun hx =>
    ⟨Int.tmod_nonneg _ hx, Int.tdiv_nonneg hx hb.le⟩
  have hneg : x ≤ 0 → x.tmod b ≤ 0 ∧ x.tdiv b ≤ 0 := fun hx => by
    have h1 := Int.tmod_nonneg (a := -x) b (by omega)
    have h2 := Int.tdiv_nonneg (a := -x) (b := b) (by omega) hb.le
    rw [Int.neg_tmod] at h1
    rw [Int.neg_tdiv] at h2
    omega
  unfold InInt64 at *
  rcases le_total 0 x with hx | hx
  · have := mul_nonneg hb.le (hpos hx).2
    have := (hpos hx).1
    omega
  · have := mul_nonpos_of_nonneg_of_nonpos hb.le (hneg hx).2
    have := (hneg hx).1
    omega

theorem rescaled_stride_eq_iff {str : List Char} {dl : DLDataType} {s : Int} (hp : parseTypestr str = .ok dl)
    (ho : dl.code ≠ kDLOpaqueHandle) (hw : bytewidth dl ≠ 0) (hs : InInt64 s ∨ InUInt64 s) :
    byteCount str * (wrap64 s).tdiv (bytewidth dl) = s ↔
      s = 0 ∨ dl.code ≠ kDLComplex ∧ byteCount str < 32 ∧ byteCount str ∣ s ∧ InInt64 s := by
  obtain ⟨hb, ⟨hwb, hc, h32⟩ | ⟨hwb, hc⟩⟩ := bytewidth_spec hp ho
  · rw [hwb]
    constructor
    · intro h
      have hr := h ▸ mul_tdiv_inInt64 hb (wrap64_mem s)
      rw [wrap64_eq hr] at h
      exact .inr ⟨hc, h32, mul_tdiv_self_iff.mp h, hr⟩
    · rintro (rfl | ⟨-, -, hd, hr⟩)
      · simp [wrap64]
      · rw [wrap64_eq hr]; exact mul_tdiv_self_iff.mpr hd
  · have hw0 : 0 < bytewidth dl := lt_of_le_of_ne (by unfold bytewidth; omega) (Ne.symm hw)
    have hcases : (s = 0 ∨ dl.code ≠ kDLComplex ∧ byteCount str < 32 ∧ byteCount str ∣ s ∧ InInt64 s) ↔ s = 0 := by
      constructor
      · rintro (h | ⟨hc', h32, -⟩)
        · exact h
        · rcases hc with hc | hc
          · exact absurd hc hc'
          · omega
      · exact .inl
    rw [hcases]
    by_cases hr : InInt64 s
    · rw [wrap64_eq hr]
      exact mul_tdiv_eq_iff_zero hw0 hwb
    · have hu : 2 ^ 63 ≤ s ∧ s < 2 ^ 64 := by
        unfold InInt64 InUInt64 at *
        omega
      have hneg := wrap64_neg hu.1 hu.2
      have hq : (wrap64 s).tdiv (bytewidth dl) ≤ 0 := by
        have := Int.tdiv_nonneg (a := -wrap64 s) (b := bytewidth dl) (by omega) hw0.le
        rw [Int.neg_tdiv] at this
        omega
      have hprod := mul_nonpos_of_nonneg_of_nonpos hb.le hq
      constructor <;> intro h <;> omega

/-- **Addresses of an array descriptor.** The memref of an accepted array addresses the
producer's bytes exactly when the array is empty or the strides of its wide dimensions are
representable. -/
theorem extractCudaArray_addresses_iff {driver : Driver} {d : ArrayInterface}
    {dtypeRepr : Option (List Char)} {helper helper' : LaunchHelper} {str : List Char} {dl : DLDataType}
    {p : PyVal} {ns : List Int} {so : Option (List Int)} (hts : d.typestr = some (.str str))
    (hp : parseTypestr str = .ok dl) (ho : dl.code ≠ kDLOpaqueHandle) (hshape : d.shape = some p)
    (hns : p.IsIntTuple ns) (hso : IsProducerStrides d.strides ns so)
    (h : extractCudaArray driver (.dict d) dtypeRepr helper = .ok helper') :
    (∀ is, InRange ns is →
      byteCount str * dot is (helper'.descriptorStrides ⟨.array, helper.cuargs.length, ns.length⟩)
        = dot is (byteStrides (byteCount str) ns so)) ↔
    (∃ n ∈ ns, n ≤ 0) ∨ StridesExact dl (byteCount str) ns so := by
  obtain ⟨-, hread, hconv⟩ := extractCudaArray_ok hts hp hshape hns hso h
  have hw : dtypeBytewidth dl = bytewidth dl := by rw [dtypeBytewidth, if_neg ho]
  rw [hw] at hread hconv
  simp only [hread, ← dot_map_mul]
  rw [dot_eq_iff (by rw [List.length_map, storedStrides_length hso]) ?_]
  · refine or_congr_right ?_
    cases so with
    | none =>
      rw [storedStrides, List.map_map, byteStrides, agreeWide_map_iff, StridesExact]
      refine onWide_congr fun r _ => ?_
      have hb := (bytewidth_spec hp ho).1
      rw [Function.comp_apply, Int.mul_eq_mul_left_iff hb.ne', wrap64_eq_iff]
    | some ss =>
      have hmap := agreeWide_map_iff ((byteCount str * ·) ∘ fun s => (wrap64 s).tdiv (bytewidth dl)) id ns ss
      rw [List.map_id] at hmap
      rw [storedStrides, List.map_map, byteStrides, StridesExact]
      refine hmap.trans (onWide_congr fun s hs => ?_)
      exact rescaled_stride_eq_iff hp ho (hconv ss rfl s hs).1 (hconv ss rfl s hs).2
  · cases so with
    | none => simp [byteStrides]
    | some ss => exact hso.2

def vectorInterface (typestr : String) (stride : Int) : ArrayInterface :=
  ⟨some (.str typestr.toList), some (.tuple [.int 2]), some (.tuple [.int 4096, .other]), some (.tuple [.int stride])⟩

/-- The second element of a `complex64` vector is read two items away. -/
theorem complex_vector_misaddressed : ∃ helper',
    extractCudaArray .idle (.dict (vectorInterface "<c8" 8)) none .empty = .ok helper' ∧ InRange [2] [1] ∧
    byteCount "<c8".toList * dot [1] (helper'.descriptorStrides ⟨.array, 0, 1⟩) ≠ dot [1] [8] :=
  ⟨_, rfl, .cons (by decide) .nil, by decide⟩

theorem double_vector_addressed : ∃ helper',
    extractCudaArray .idle (.dict (vectorInterface "<f8" 16)) none .empty = .ok helper' ∧
    ∀ is, InRange [2] is →
      byteCount "<f8".toList * dot is (helper'.descriptorStrides ⟨.array, 0, 1⟩) = dot is [16] := by
  have hts : (vectorInterface "<f8" 16).typestr = some (.str "<f8".toList) := rfl
  have hp : parseTypestr "<f8".toList = .ok ⟨kDLFloat, 64, 1⟩ := by decide
  have hns : (PyVal.tuple [.int 2]).IsIntTuple [2] := ⟨_, rfl, rfl⟩
  have hso : IsProducerStrides (vectorInterface "<f8" 16).strides [2] (some [16]) := ⟨⟨_, rfl, _, rfl, rfl⟩, rfl⟩
  have ho : kDLFloat ≠ kDLOpaqueHandle := by decide
  refine ⟨_, rfl, (extractCudaArray_addresses_iff hts hp ho rfl hns hso rfl).mpr (.inr ?_)⟩
  exact ⟨fun _ => .inr ⟨by decide, by decide, by decide, by decide⟩, trivial⟩

end NumbaCudaMlir

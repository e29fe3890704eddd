import NumbaCudaMlir.CapturedArray
import NumbaCudaMlir.DeviceArraySound
import NumbaCudaMlir.PyRange

/-!
# Captured and passed arrays

Both encoders take over the address and the extents and make the same compact
strides. Reported strides are divided with two different item sizes and two
roundings: the descriptors are the same, and exact, where both divisions are.
-/

namespace NumbaCudaMlir

open CInt Strided

/-! ## The captured descriptor -/

theorem mapM_i64c : ∀ {xs ys : List Int}, xs.mapM i64c = some ys → ys = xs ∧ ∀ x ∈ xs, InInt64 x
  | [], ys, h => by
    cases h
    simp
  | x :: xs, ys, h => by
    simp only [List.mapM_cons, Option.bind_eq_bind, Option.pure_def, Option.bind_eq_some_iff, Option.some.injEq] at h
    obtain ⟨y, hy, zs, hzs, rfl⟩ := h
    simp only [i64c, Option.ite_none_right_eq_some, Option.some.injEq] at hy
    obtain ⟨hx, rfl⟩ := hy
    obtain ⟨rfl, hall⟩ := mapM_i64c hzs
    simpa [hx] using hall

theorem compactLoop_eq : ∀ ns : List Int, compactLoop ns = (rowMajor ns, ns.prod)
  | [] => rfl
  | n :: ns => by
    rw [compactLoop, compactLoop_eq ns, rowMajor, List.prod_cons, Int.mul_comm]

theorem lowerCapturedArrayToMemref_eq_some {a : InterfaceArray} {c : MemrefDescriptor} (h : lowerCapturedArrayToMemref a = some c) :
    InInt64 a.data ∧ (∀ n ∈ a.shape, InInt64 n) ∧
      ∃ strides, capturedStrides a.dtype.itemsize a.shape a.strides = some strides ∧ (∀ s ∈ strides, InInt64 s) ∧
        c = ⟨a.data, a.data, 0, a.shape, strides⟩ := by
  simp only [lowerCapturedArrayToMemref, buildMemrefDescriptor, Option.bind_eq_bind, Option.pure_def, Option.bind_eq_some_iff,
    Option.some.injEq] at h
  obtain ⟨strides, hst, ptr, hptr, shape, hsh, strides', hst', rfl⟩ := h
  simp only [i64c, Option.ite_none_right_eq_some, Option.some.injEq] at hptr
  obtain ⟨hdata, rfl⟩ := hptr
  obtain ⟨rfl, hns⟩ := mapM_i64c hsh
  obtain ⟨rfl, hss⟩ := mapM_i64c hst'
  exact ⟨hdata, hns, strides', hst, hss, rfl⟩

/-! ## The passed descriptor -/

theorem map_int_isIntTuple (ns : List Int) : (PyVal.tuple (ns.map .int)).IsIntTuple ns :=
  ⟨_, rfl, by simp [Function.comp_def, PyVal.asInt]⟩

theorem InterfaceArray.isProducerStrides (a : InterfaceArray) : IsProducerStrides a.interface.strides a.shape a.strides := by
  unfold interface
  cases h : a.strides with
  | none => exact .inl rfl
  | some ss => exact ⟨⟨_, rfl, map_int_isIntTuple ss⟩, a.strides_length ss h⟩

theorem descriptor_pushArray (helper : LaunchHelper) (p : Int) (shapes strides : List Int) (cs : List ConstantArg) (ctx : Option Nat)
    (hl : strides.length = shapes.length) (hn : ∀ n ∈ shapes, InInt64 n) (hr : ∀ t ∈ strides, InInt64 t) :
    (helper.pushArray p shapes strides cs ctx).descriptor ⟨.array, helper.cuargs.length, shapes.length⟩ =
      ⟨wrap64 p, wrap64 p, 0, shapes, strides⟩ := by
  have hslot : ∀ k, k < 3 → (helper.pushArray p shapes strides cs ctx).cuargs.getD (helper.cuargs.length + k) 0 =
      [cudaArgDevicePtr p, cudaArgDevicePtr p, cudaArgI64 0].getD k 0 := by
    intro k hk
    rw [LaunchHelper.pushArray, List.getD_eq_getElem?_getD, List.getD_eq_getElem?_getD, List.append_assoc, List.append_assoc,
      List.getElem?_append_right (by omega), Nat.add_sub_cancel_left, List.getElem?_append_left (by simpa using hk)]
  have hdrop : (helper.pushArray p shapes strides cs ctx).cuargs.drop (helper.cuargs.length + 3) =
      shapes.map cudaArgI64 ++ strides.map cudaArgI64 := by
    rw [LaunchHelper.pushArray, List.append_assoc]
    exact List.drop_left' (by simp)
  have h0 := hslot 0 (by decide)
  rw [Nat.add_zero] at h0
  have hptr : (cudaArgDevicePtr p).toInt = wrap64 p := BitVec.toInt_ofInt p
  unfold LaunchHelper.descriptor
  rw [descriptorStrides_pushArray helper p shapes strides cs ctx hl hr, hdrop, List.take_left' (by simp), List.map_map,
    h0, hslot 1 (by decide), hslot 2 (by decide)]
  simp only [List.getD_cons_zero, List.getD_cons_succ, hptr]
  congr 1
  exact (List.map_congr_left fun n hs => toInt_cudaArgI64 (hn n hs)).trans (List.map_id' shapes)

theorem extractCudaArray_descriptor {driver : Driver} {a : InterfaceArray} {dtypeRepr : Option (List Char)} {helper helper' : LaunchHelper}
    (h : extractCudaArray driver (.dict a.interface) dtypeRepr helper = .ok helper') :
    ∃ dl, parseTypestr a.dtype.typestr = .ok dl ∧
      helper'.descriptor ⟨.array, helper.cuargs.length, a.shape.length⟩ =
        ⟨wrap64 a.data, wrap64 a.data, 0, a.shape.map wrap64, storedStrides (dtypeBytewidth dl) a.shape a.strides⟩ ∧
      ∀ ss, a.strides = some ss → ∀ s ∈ ss, dtypeBytewidth dl ≠ 0 ∧ (InInt64 s ∨ InUInt64 s) := by
  obtain ⟨str, dl, items, ptr, shapes, strides, hts, hp, hshape, -, hshapes, hst, ⟨data, hdata, hptr⟩, rfl⟩ := extractCudaArray_inv h
  cases hts; cases hshape; cases hdata
  have hints : (a.shape.map PyVal.int).map PyVal.asInt = a.shape.map some := by rw [List.map_map]; rfl
  obtain rfl := mapM_pylongAs_ok hints hshapes
  obtain ⟨rfl, hw⟩ := interfaceStrides_ok a.isProducerStrides hst
  obtain rfl := (pylongAsInt_ok.mp hptr).2
  have hread := descriptor_pushArray helper (wrap64 a.data) (a.shape.map wrap64) _
    (arrayConstants dl (a.shape.map wrap64).length (arrayDtypeIdentityConstant dtypeRepr a.dtype.typestr))
    (driver.pointerContext (wrap64 a.data)) (by rw [storedStrides_length a.isProducerStrides, List.length_map])
    (fun n hn => by obtain ⟨m, _, rfl⟩ := List.mem_map.mp hn; exact wrap64_mem m)
    (storedStrides_inInt64 (dtypeBytewidth_nonneg dl) a.shape a.strides)
  rw [List.length_map, wrap64_eq (wrap64_mem a.data)] at hread
  exact ⟨dl, hp, by simpa using hread, hw⟩

/-! ## What each route accepts -/

/-- The range of the conversion to a 64-bit integer, which takes the unsigned ones too. -/
def Converts (n : Int) : Prop := InInt64 n ∨ InUInt64 n

def InterfaceArray.CaptureAccepts (a : InterfaceArray) : Prop :=
  InInt64 a.data ∧ (∀ n ∈ a.shape, InInt64 n) ∧
    match a.strides with
    | none => ∀ t ∈ rowMajor a.shape, InInt64 t
    | some ss => ∀ s ∈ ss, a.dtype.itemsize ≠ 0 ∧ InInt64 (s.fdiv a.dtype.itemsize)

def InterfaceArray.LaunchAccepts (a : InterfaceArray) : Prop :=
  Converts a.data ∧ a.shape.length ≤ 2 ^ 32 - 1 ∧ (∀ n ∈ a.shape, Converts n) ∧
    ∃ dl, parseTypestr a.dtype.typestr = .ok dl ∧
      ∀ ss, a.strides = some ss → ∀ s ∈ ss, dtypeBytewidth dl ≠ 0 ∧ Converts s

theorem mapM_i64c_accepts : ∀ {xs : List Int}, (∀ x ∈ xs, InInt64 x) → xs.mapM i64c = some xs
  | [], _ => rfl
  | x :: xs, h => by
    have hx : i64c x = some x := if_pos (h x (by simp))
    rw [List.mapM_cons, hx, mapM_i64c_accepts fun y hy => h y (by simp [hy])]
    rfl

theorem lowerCapturedArrayToMemref_accepts {a : InterfaceArray} (h : a.CaptureAccepts) :
    ∃ c, lowerCapturedArrayToMemref a = some c := by
  obtain ⟨hdata, hshape, hst⟩ := h
  have hptr : i64c a.data = some a.data := if_pos hdata
  have hstrides : ∃ ts, capturedStrides a.dtype.itemsize a.shape a.strides = some ts ∧ ∀ t ∈ ts, InInt64 t := by
    cases hs : a.strides with
    | none =>
      rw [hs] at hst
      exact ⟨_, rfl, by rw [compactLoop_eq]; exact hst⟩
    | some ss =>
      rw [hs] at hst
      cases ss with
      | nil =>
        have hnil := List.eq_nil_of_length_eq_zero (a.strides_length [] hs).symm
        exact ⟨_, rfl, by simp [hnil, compactLoop]⟩
      | cons s ss =>
        have hi : (a.dtype.itemsize : Int) ≠ 0 := by exact_mod_cast (hst s (by simp)).1
        refine ⟨_, if_neg hi, fun t ht => ?_⟩
        obtain ⟨u, hu, rfl⟩ := List.mem_map.mp ht
        exact (hst u hu).2
  obtain ⟨ts, hts, hin⟩ := hstrides
  refine ⟨⟨a.data, a.data, 0, a.shape, ts⟩, ?_⟩
  simp [lowerCapturedArrayToMemref, buildMemrefDescriptor, hts, hptr, mapM_i64c_accepts hshape, mapM_i64c_accepts hin]

theorem pylongAs_int_accepts {n : Int} (h : Converts n) : pylongAs (.int n) = .ok (wrap64 n) :=
  pylongAsInt_ok.mpr ⟨h, rfl⟩

theorem mapM_pylongAs_accepts : ∀ {ns : List Int}, (∀ n ∈ ns, Converts n) → (ns.map PyVal.int).mapM pylongAs = .ok (ns.map wrap64)
  | [], _ => rfl
  | n :: ns, h => by
    rw [List.map_cons, List.mapM_cons, pylongAs_int_accepts (h n (by simp)), mapM_pylongAs_accepts fun m hm => h m (by simp [hm])]
    rfl

theorem mapM_pylongAs_converts : ∀ {ns xs : List Int}, (ns.map PyVal.int).mapM pylongAs = .ok xs → ∀ n ∈ ns, Converts n
  | [], _, _ => nofun
  | n :: ns, xs, h => by
    rw [List.map_cons, List.mapM_cons, bind_eq_ok] at h
    obtain ⟨x, hx, h⟩ := h
    rw [bind_eq_ok] at h
    obtain ⟨ys, hys, -⟩ := h
    intro m hm
    cases hm with
    | head => exact (pylongAsInt_ok.mp hx).1
    | tail _ hm => exact mapM_pylongAs_converts hys m hm

theorem elementStrides_accepts {w : Int} : ∀ {ss : List Int}, (∀ s ∈ ss, w ≠ 0 ∧ Converts s) →
    ∃ ts, elementStrides w ss.length (ss.map .int) = .ok ts
  | [], _ => ⟨_, rfl⟩
  | s :: ss, h => by
    obtain ⟨ts, hts⟩ := elementStrides_accepts fun t ht => h t (List.mem_cons_of_mem s ht)
    obtain ⟨hw, hs⟩ := h s (by simp)
    refine ⟨(wrap64 s).tdiv w :: ts, ?_⟩
    rw [List.length_cons, List.map_cons, elementStrides, pylongAs_int_accepts hs]
    simp only [bind, Except.bind]
    rw [if_neg hw, hts]
    rfl

theorem extractCudaArray_accepts {a : InterfaceArray} (h : a.LaunchAccepts) (driver : Driver) (dtypeRepr : Option (List Char))
    (helper : LaunchHelper) : ∃ helper', extractCudaArray driver (.dict a.interface) dtypeRepr helper = .ok helper' := by
  obtain ⟨hdata, hlen, hshape, dl, hp, hst⟩ := h
  have hstrides : ∃ ts, interfaceStrides dl (a.shape.map wrap64) (a.strides.map fun ss => .tuple (ss.map .int)) = .ok ts := by
    cases hs : a.strides with
    | none => exact ⟨_, computeCompactRowMajorStrides_eq _⟩
    | some ss =>
      obtain ⟨ts, hts⟩ := elementStrides_accepts (hst ss hs)
      refine ⟨ts, ?_⟩
      rw [a.strides_length ss hs] at hts
      simpa [interfaceStrides] using hts
  obtain ⟨ts, hts⟩ := hstrides
  have hptr : dataPointer (.tuple [.int a.data, .other]) = .ok (wrap64 a.data) := pylongAs_int_accepts hdata
  have hitems : shapeItems (.tuple (a.shape.map PyVal.int)) = .ok (a.shape.map PyVal.int) :=
    if_neg (by rw [List.length_map]; omega)
  simp only [extractCudaArray, InterfaceArray.interface, unpackArrayInterface, typestrBytes, bind, Except.bind, hp, hptr, hitems,
    mapM_pylongAs_accepts hshape, hts]
  exact ⟨_, rfl⟩

/-! ## Strides -/

/-- The element strides stand for exactly the reported ones. -/
def Represents (w : Int) (ts ss : List Int) : Prop := ts.map (w * ·) = ss

theorem represents_map_iff (w : Int) (f : Int → Int) (ss : List Int) : Represents w (ss.map f) ss ↔ ∀ s ∈ ss, w * f s = s := by
  unfold Represents
  induction ss <;> simp_all

def CapturedExact (d : NpDType) (s : Int) : Prop :=
  if d.isOpaque then d.itemsize = 1 ∨ s = 0 ∨ s = -1 else (d.itemsize : Int) ∣ s

def PassedExact (d : NpDType) (s : Int) : Prop :=
  s = 0 ∨ (d.isOpaque = true ∨ d.isComplex = false ∧ (d.itemsize : Int) ∣ s) ∧ InInt64 s

theorem fdiv_eq_self_iff {s n : Int} (hn : 0 < n) : s.fdiv n = s ↔ n = 1 ∨ s = 0 ∨ s = -1 := by
  rw [PyRange.fdiv_eq_iff hn]
  constructor
  · intro ⟨hle, hlt⟩
    by_contra hc
    have hn2 : 2 ≤ n := by omega
    rcases lt_or_ge s 0 with hneg | hpos
    · have := Int.mul_le_mul_of_nonpos_left (show s + 1 ≤ 0 by omega) hn2
      omega
    · have := Int.mul_le_mul_of_nonneg_left hn2 hpos
      omega
  · rintro (rfl | rfl | rfl) <;> omega

theorem capturedExact_iff {d : NpDType} (hi : (d.itemsize : Int) ≠ 0) (s : Int) :
    memrefElementSize d * s.fdiv d.itemsize = s ↔ CapturedExact d s := by
  have hpos : (0 : Int) < d.itemsize := by omega
  unfold memrefElementSize CapturedExact
  by_cases ho : d.isOpaque = true
  · rw [if_pos ho, if_pos ho, Int.one_mul, fdiv_eq_self_iff hpos]
    omega
  · rw [if_neg ho, if_neg ho, Int.fdiv_eq_ediv_of_nonneg _ hpos.le]
    exact ⟨fun h => ⟨_, h.symm⟩, Int.mul_ediv_cancel'⟩

/-- Where a route takes reported strides, its own division is exact on them. -/
def InterfaceArray.StridesCarried (a : InterfaceArray) : Prop :=
  ∀ ss, a.strides = some ss → ∀ s ∈ ss,
    (a.CaptureAccepts → CapturedExact a.dtype s) ∧ (a.LaunchAccepts → PassedExact a.dtype s)

/-! ## The same array -/

structure SameArray (c e : MemrefDescriptor) : Prop where
  allocated : c.allocated = e.allocated
  aligned : c.aligned = e.aligned
  offset : c.offset = e.offset
  shape : c.shape = e.shape
  elements : ∀ is, InRange c.shape is → dot is c.strides = dot is e.strides

/-- The captured and the passed descriptor are of one array, and each of the
routes takes reported strides only where its element strides stand for them. -/
def InterfaceArray.CapturedAsPassed (a : InterfaceArray) (driver : Driver) (dtypeRepr : Option (List Char)) (helper : LaunchHelper) :
    Prop :=
  let passed h' := LaunchHelper.descriptor h' ⟨.array, helper.cuargs.length, a.shape.length⟩
  (∀ c h', lowerCapturedArrayToMemref a = some c → extractCudaArray driver (.dict a.interface) dtypeRepr helper = .ok h' →
    SameArray c (passed h')) ∧
  ∀ ss, a.strides = some ss →
    (∀ c, lowerCapturedArrayToMemref a = some c → Represents (memrefElementSize a.dtype) c.strides ss) ∧
    ∀ h', extractCudaArray driver (.dict a.interface) dtypeRepr helper = .ok h' →
      Represents (memrefElementSize a.dtype) (passed h').strides ss

theorem captureAccepts_of_eq_some {a : InterfaceArray} {c : MemrefDescriptor} (h : lowerCapturedArrayToMemref a = some c) :
    a.CaptureAccepts := by
  obtain ⟨hdata, hshape, ts, hts, hin, -⟩ := lowerCapturedArrayToMemref_eq_some h
  refine ⟨hdata, hshape, ?_⟩
  cases hs : a.strides with
  | none =>
    rw [hs, capturedStrides, compactLoop_eq] at hts
    cases hts
    exact hin
  | some ss =>
    rw [hs] at hts
    cases ss with
    | nil => simp
    | cons s ss =>
      simp only [capturedStrides, Option.ite_none_left_eq_some, Option.some.injEq] at hts
      obtain ⟨hi, rfl⟩ := hts
      exact fun t ht => ⟨by exact_mod_cast hi, hin _ (List.mem_map_of_mem ht)⟩

theorem launchAccepts_of_eq_ok {a : InterfaceArray} {driver : Driver} {dtypeRepr : Option (List Char)} {helper helper' : LaunchHelper}
    (h : extractCudaArray driver (.dict a.interface) dtypeRepr helper = .ok helper') : a.LaunchAccepts := by
  obtain ⟨dl, hp, -, hw⟩ := extractCudaArray_descriptor h
  obtain ⟨str, dl', items, ptr, shapes, strides, -, -, hshape, hle, hshapes, -, ⟨data, hdata, hptr⟩, -⟩ := extractCudaArray_inv h
  cases hshape; cases hdata
  rw [List.length_map] at hle
  exact ⟨(pylongAsInt_ok.mp hptr).1, hle, mapM_pylongAs_converts hshapes, dl, hp, hw⟩

theorem captured_represents_iff {a : InterfaceArray} {c : MemrefDescriptor} {ss : List Int} (h : lowerCapturedArrayToMemref a = some c)
    (hs : a.strides = some ss) : Represents (memrefElementSize a.dtype) c.strides ss ↔ ∀ s ∈ ss, CapturedExact a.dtype s := by
  obtain ⟨-, -, ts, hts, -, rfl⟩ := lowerCapturedArrayToMemref_eq_some h
  rw [hs] at hts
  cases ss with
  | nil =>
    have hnil := List.eq_nil_of_length_eq_zero (a.strides_length [] hs).symm
    rw [hnil] at hts
    cases hts
    simp [Represents, compactLoop]
  | cons s ss =>
    simp only [capturedStrides, Option.ite_none_left_eq_some, Option.some.injEq] at hts
    obtain ⟨hi, rfl⟩ := hts
    rw [represents_map_iff]
    exact forall₂_congr fun t _ => capturedExact_iff hi t

theorem passed_represents_iff {a : InterfaceArray} {driver : Driver} {dtypeRepr : Option (List Char)} {helper helper' : LaunchHelper}
    {ss : List Int} (h : extractCudaArray driver (.dict a.interface) dtypeRepr helper = .ok helper') (hs : a.strides = some ss) :
    Represents (memrefElementSize a.dtype) (helper'.descriptor ⟨.array, helper.cuargs.length, a.shape.length⟩).strides ss ↔
      ∀ s ∈ ss, PassedExact a.dtype s := by
  obtain ⟨dl, hp, hd, hw⟩ := extractCudaArray_descriptor h
  rw [hd, hs, storedStrides, represents_map_iff]
  exact forall₂_congr fun s hmem => device_stride_eq_iff hp (hw ss hs s hmem).1 (hw ss hs s hmem).2

theorem memrefElementSize_ne_zero {d : NpDType} {dl : DLDataType} (h : parseTypestr d.typestr = .ok dl) : memrefElementSize d ≠ 0 := by
  have := itemsize_pos h
  unfold memrefElementSize
  split <;> omega

theorem Represents.unique {w : Int} (hw : w ≠ 0) {ts us ss : List Int} (ht : Represents w ts ss) (hu : Represents w us ss) : ts = us :=
  List.map_injective_iff.mpr (fun _ _ h => Int.eq_of_mul_eq_mul_left hw h) (ht.trans hu.symm)

theorem sameArray_of_strides {a : InterfaceArray} {driver : Driver} {dtypeRepr : Option (List Char)} {helper helper' : LaunchHelper}
    {c : MemrefDescriptor} (hc : lowerCapturedArrayToMemref a = some c)
    (h : extractCudaArray driver (.dict a.interface) dtypeRepr helper = .ok helper')
    (hst : c.strides = (helper'.descriptor ⟨.array, helper.cuargs.length, a.shape.length⟩).strides) :
    SameArray c (helper'.descriptor ⟨.array, helper.cuargs.length, a.shape.length⟩) := by
  obtain ⟨hdata, hshape, ts, -, -, rfl⟩ := lowerCapturedArrayToMemref_eq_some hc
  obtain ⟨dl, -, hd, -⟩ := extractCudaArray_descriptor h
  rw [hd] at hst ⊢
  have hns : a.shape.map wrap64 = a.shape := (List.map_congr_left fun n hn => wrap64_eq (hshape n hn)).trans (List.map_id' _)
  exact ⟨(wrap64_eq hdata).symm, (wrap64_eq hdata).symm, rfl, hns.symm, fun is _ => by rw [hst]⟩

theorem compact_strides_agree {a : InterfaceArray} {driver : Driver} {dtypeRepr : Option (List Char)} {helper helper' : LaunchHelper}
    {c : MemrefDescriptor} (hs : a.strides = none) (hc : lowerCapturedArrayToMemref a = some c)
    (h : extractCudaArray driver (.dict a.interface) dtypeRepr helper = .ok helper') :
    c.strides = (helper'.descriptor ⟨.array, helper.cuargs.length, a.shape.length⟩).strides := by
  obtain ⟨-, -, ts, hts, hin, rfl⟩ := lowerCapturedArrayToMemref_eq_some hc
  obtain ⟨dl, -, hd, -⟩ := extractCudaArray_descriptor h
  rw [hs, capturedStrides, compactLoop_eq] at hts
  cases hts
  rw [hd, hs, storedStrides]
  exact ((List.map_congr_left fun t ht => wrap64_eq (hin t ht)).trans (List.map_id' _)).symm

/-- **Captured and passed arrays.** A captured array is the passed one, with its
reported strides exact, where each route's division of them is exact. -/
theorem capturedAsPassed_iff (a : InterfaceArray) (driver : Driver) (dtypeRepr : Option (List Char)) (helper : LaunchHelper) :
    a.CapturedAsPassed driver dtypeRepr helper ↔ a.StridesCarried := by
  constructor
  · intro ⟨_, hrep⟩ ss hs s hmem
    obtain ⟨hcap, hpass⟩ := hrep ss hs
    constructor
    · intro hacc
      obtain ⟨c, hc⟩ := lowerCapturedArrayToMemref_accepts hacc
      exact (captured_represents_iff hc hs).mp (hcap c hc) s hmem
    · intro hacc
      obtain ⟨h', h⟩ := extractCudaArray_accepts hacc driver dtypeRepr helper
      exact (passed_represents_iff h hs).mp (hpass h' h) s hmem
  · intro hcond
    have hcap : ∀ ss, a.strides = some ss → ∀ c, lowerCapturedArrayToMemref a = some c →
        Represents (memrefElementSize a.dtype) c.strides ss := fun ss hs c hc =>
      (captured_represents_iff hc hs).mpr fun s hmem => (hcond ss hs s hmem).1 (captureAccepts_of_eq_some hc)
    have hpass : ∀ ss, a.strides = some ss → ∀ h', extractCudaArray driver (.dict a.interface) dtypeRepr helper = .ok h' →
        Represents (memrefElementSize a.dtype) (h'.descriptor ⟨.array, helper.cuargs.length, a.shape.length⟩).strides ss :=
      fun ss hs h' h => (passed_represents_iff h hs).mpr fun s hmem => (hcond ss hs s hmem).2 (launchAccepts_of_eq_ok h)
    refine ⟨fun c h' hc h => sameArray_of_strides hc h ?_, fun ss hs => ⟨hcap ss hs, hpass ss hs⟩⟩
    cases hs : a.strides with
    | none => exact compact_strides_agree hs hc h
    | some ss =>
      obtain ⟨dl, hp, -⟩ := extractCudaArray_descriptor h
      exact (hcap ss hs c hc).unique (memrefElementSize_ne_zero hp) (hpass ss hs h' h)

def vectorArray (dtype : NpDType) (stride : Int) : InterfaceArray :=
  ⟨dtype, [2], 4096, some [stride], fun _ h => by cases h; rfl⟩

/-- The second record of a vector of records is two bytes away in a captured
array and 24 bytes away in a passed one. -/
theorem captured_records_elsewhere :
    ¬ (vectorArray (.void "" 12) 24).CapturedAsPassed .idle none .empty := by
  intro ⟨hsame, _⟩
  have hc : lowerCapturedArrayToMemref (vectorArray (.void "" 12) 24) = some ⟨4096, 4096, 0, [2], [2]⟩ := by decide
  have hpassed : ∃ h', extractCudaArray .idle (.dict (vectorArray (.void "" 12) 24).interface) none .empty = .ok h' ∧
      dot [1] (h'.descriptor ⟨.array, 0, 1⟩).strides = 24 := ⟨_, rfl, by decide⟩
  obtain ⟨h', h, hdot⟩ := hpassed
  have he := (hsame _ h' hc h).elements [1] (.cons (by decide) .nil)
  rw [show LaunchHelper.empty.cuargs.length = 0 from rfl] at he
  exact absurd (he.trans hdot) (by decide)

theorem captured_doubles_as_passed : (vectorArray (.numeric .float .s8) 16).CapturedAsPassed .idle none .empty := by
  refine (capturedAsPassed_iff (vectorArray (.numeric .float .s8) 16) .idle none .empty).mpr ?_
  intro ss hs s hmem
  cases hs
  obtain rfl := List.mem_singleton.mp hmem
  exact ⟨fun _ => show (8 : Int) ∣ 16 by decide, fun _ => .inr ⟨.inr ⟨rfl, by decide⟩, by decide⟩⟩

end NumbaCudaMlir

import NumbaCudaMlir.FastPath

/-!
# Where the arguments of a launch lie

Each extractor adds to the helper what it writes to an empty one. So every argument
has a range of the flat storage of its own, and a launch points into it.
-/

namespace NumbaCudaMlir

/-! ## Helpers of the free list -/

/-- A helper as it comes from the free list, with the pointers of its last launch. -/
structure PooledHelper where
  helper : LaunchHelper
  cuargPointers : List KernelParam

/-- What `extract_cuda_args` clears before the first argument. -/
def LaunchHelper.clear (helper : LaunchHelper) : LaunchHelper :=
  { helper with
    cuargs := []
    argMetadata := []
    constants := []
    alignedTmaDescriptors := []
    recordCopies := []
    cudaContext := none }

/-- The arguments from position `i` on; the driver answers each of them anew. -/
def extractFrom (driver : Nat → Driver) : Nat → List PyObj → List PythonArgKind → List Bool → LaunchHelper → Result LaunchHelper
  | _, [], _, _, helper => .ok helper
  | _, _ :: _, [], _, _ => .error .undefined
  | i, arg :: args, kind :: kinds, flags, helper => do
    let helper ← extractCudaArg (driver i) kind arg (flags.headD false) helper
    extractFrom driver (i + 1) args kinds flags.tail helper

def PooledHelper.extractCudaArgs (driver : Nat → Driver) (pyargs : List PyObj) (argKinds : List PythonArgKind)
    (constantArgFlags : List Bool) (pooled : PooledHelper) : Result PooledHelper := do
  let helper ← extractFrom driver 0 pyargs argKinds constantArgFlags pooled.helper.clear
  pure { pooled with helper := helper }

def PooledHelper.buildPointers (pooled : PooledHelper) : PooledHelper :=
  { pooled with cuargPointers := pooled.helper.argMetadata.foldl (fun pointers m => pointers ++ m.pointers pooled.helper.cuargs) [] }

/-! ## Extractors add to the helper -/

namespace LaunchHelper

def shift (n : Nat) (m : ArgMetadata) : ArgMetadata := { m with startIdx := n + m.startIdx }

/-- The helper with what was written to another one after its own contents. -/
def append (helper own : LaunchHelper) : LaunchHelper where
  cuargs := helper.cuargs ++ own.cuargs
  argMetadata := helper.argMetadata ++ own.argMetadata.map (shift helper.cuargs.length)
  constants := helper.constants ++ own.constants
  cudaContext := helper.cudaContext.or own.cudaContext
  alignedTmaDescriptors := helper.alignedTmaDescriptors ++ own.alignedTmaDescriptors
  recordCopies := helper.recordCopies ++ own.recordCopies

theorem pushScalar_append (helper : LaunchHelper) (slots : List CudaArg) (ndim : Nat) (cs : List ConstantArg) :
    helper.pushScalar slots ndim cs = helper.append (empty.pushScalar slots ndim cs) := by
  simp [pushScalar, append, empty, shift]

theorem pushArray_append (helper : LaunchHelper) (p : Int) (shapes strides : List Int) (cs : List ConstantArg) (ctx : Option Nat) :
    helper.pushArray p shapes strides cs ctx = helper.append (empty.pushArray p shapes strides cs ctx) := by
  simp [pushArray, append, empty, shift]

end LaunchHelper

open LaunchHelper (append pushScalar_append pushArray_append)

theorem bind_append {α : Type} {x : Result α} {f g : α → Result LaunchHelper} {helper : LaunchHelper}
    (h : ∀ a, f a = (g a).map helper.append) : (x >>= f) = (x >>= g).map helper.append := by
  cases x with
  | error e => rfl
  | ok a => exact h a

section
variable (arg : PyObj) (flag : Bool) (helper : LaunchHelper)

theorem ok_pushScalar (slots : List CudaArg) (ndim : Nat) (cs : List ConstantArg) :
    (.ok (helper.pushScalar slots ndim cs) : Result LaunchHelper) = (Except.ok (LaunchHelper.empty.pushScalar slots ndim cs)).map helper.append :=
  congrArg Except.ok (pushScalar_append helper slots ndim cs)

theorem extractPyLong_append : extractPyLong arg flag helper = (extractPyLong arg flag .empty).map helper.append := by
  cases arg with
  | long cls v =>
    simp only [extractPyLong]
    cases asLongLong v with
    | ok value => exact ok_pushScalar helper ..
    | error e => exact bind_append fun value => ok_pushScalar helper ..
  | _ => rfl

theorem extractNpInteger_append : extractNpInteger arg flag helper = (extractNpInteger arg flag .empty).map helper.append := by
  cases arg with
  | npInteger n => exact bind_append fun value => ok_pushScalar helper ..
  | _ => rfl

theorem extractPyEnum_append : extractPyEnum arg flag helper = (extractPyEnum arg flag .empty).map helper.append := by
  cases arg with
  | enum cls value =>
    cases value with
    | int v => exact bind_append fun value => ok_pushScalar helper ..
    | bool b => exact ok_pushScalar helper ..
    | float bits => exact ok_pushScalar helper ..
    | other tpName => rfl
  | _ => rfl

theorem extractNpDatetime_append : extractNpDatetime arg flag helper = (extractNpDatetime arg flag .empty).map helper.append := by
  cases arg with
  | npDatetime isTimedelta unit ticks => exact bind_append fun value => ok_pushScalar helper ..
  | _ => rfl

theorem extractPyFloat_append : extractPyFloat arg flag helper = (extractPyFloat arg flag .empty).map helper.append := by
  cases arg with
  | float cls bits => exact ok_pushScalar helper ..
  | _ => rfl

theorem extractNpFloat16_append : extractNpFloat16 arg flag helper = (extractNpFloat16 arg flag .empty).map helper.append := by
  cases arg with
  | npFloat16 single => exact ok_pushScalar helper ..
  | _ => rfl

theorem extractNpFloat32_append : extractNpFloat32 arg flag helper = (extractNpFloat32 arg flag .empty).map helper.append := by
  cases arg with
  | npFloat32 bits => exact ok_pushScalar helper ..
  | _ => rfl

theorem extractPyComplex_append : extractPyComplex arg helper = (extractPyComplex arg .empty).map helper.append := by
  cases arg with
  | complex cls re im => exact ok_pushScalar helper ..
  | _ => rfl

theorem extractNpComplex64_append : extractNpComplex64 arg helper = (extractNpComplex64 arg .empty).map helper.append := by
  cases arg with
  | npComplex64 re im => exact ok_pushScalar helper ..
  | _ => rfl

variable (driver : Driver)

theorem extractTmaDescriptor_append : extractTmaDescriptor driver arg helper = (extractTmaDescriptor driver arg .empty).map helper.append := by
  cases arg with
  | object o =>
    unfold extractTmaDescriptor
    by_cases hm : o.cls.tmaDescriptorCApi ∨ o.cls.getPtr
    · simp only [if_pos hm]
      refine bind_append fun value => ?_
      cases value with
      | int p =>
        simp only
        cases driver.allocateAlignedStorage with
        | none => rfl
        | some ptr =>
          refine congrArg Except.ok ?_
          simp [append, LaunchHelper.empty, LaunchHelper.shift]
      | _ => rfl
    · simp only [if_neg hm]
      rfl
  | _ => rfl

theorem extractNumpyVoid_append : extractNumpyVoid driver arg helper = (extractNumpyVoid driver arg .empty).map helper.append := by
  cases arg with
  | npVoid r =>
    refine bind_append fun hostPtr => bind_append fun recordSize => ?_
    by_cases hpos : recordSize ≤ 0
    · simp only [if_pos hpos]
      rfl
    · simp only [if_neg hpos]
      cases driver.memAlloc recordSize with
      | error name => rfl
      | ok devicePtr =>
        simp only
        cases driver.memcpyHtoD devicePtr hostPtr recordSize with
        | error name => rfl
        | ok u =>
          refine congrArg Except.ok ?_
          simp [append, LaunchHelper.empty, LaunchHelper.shift, LaunchHelper.pushScalar]
  | _ => rfl

theorem extractDeviceRecord_append : extractDeviceRecord driver arg helper = (extractDeviceRecord driver arg .empty).map helper.append := by
  unfold extractDeviceRecord
  cases arg.cudaArrayInterface with
  | dict d =>
    refine bind_append fun data => bind_append fun devicePtr => congrArg Except.ok ?_
    simp [append, LaunchHelper.empty, LaunchHelper.shift, LaunchHelper.pushScalar]
  | _ => rfl

theorem extractCudaArray_append (attr : DictAttr) (dtypeRepr : Option (List Char)) :
    extractCudaArray driver attr dtypeRepr helper = (extractCudaArray driver attr dtypeRepr .empty).map helper.append := by
  cases attr with
  | dict d =>
    exact bind_append fun typestr => bind_append fun shape => bind_append fun data => bind_append fun chars => bind_append fun dtype =>
      bind_append fun dataPtr => bind_append fun items => bind_append fun shapes => bind_append fun strides =>
      congrArg Except.ok (pushArray_append helper ..)
  | _ => rfl

theorem extractDlpack_append : extractDlpack driver arg helper = (extractDlpack driver arg .empty).map helper.append := by
  cases arg with
  | array ary =>
    unfold extractDlpack
    by_cases hd : ¬ ary.cls.hasDlpack
    · simp only [if_pos hd]
      rfl
    · simp only [if_neg hd]
      cases dlpackDtype ary.dtype with
      | none => rfl
      | some dtype =>
        by_cases hc : ¬ ary.onCuda
        · simp only [if_pos hc]
          rfl
        · simp only [if_neg hc]
          exact bind_append fun strides => congrArg Except.ok (pushArray_append helper ..)
  | _ => rfl

theorem extractCudaArg_append (kind : PythonArgKind) :
    extractCudaArg driver kind arg flag helper = (extractCudaArg driver kind arg flag .empty).map helper.append := by
  cases kind with
  | torchTensorDlpack | dlpackArray => exact extractDlpack_append arg helper driver
  | cudaArray => exact extractCudaArray_append helper driver arg.cudaArrayInterface arg.dtypeRepr
  | tmaDescriptor => exact extractTmaDescriptor_append arg helper driver
  | pyLong => exact extractPyLong_append arg flag helper
  | npInteger => exact extractNpInteger_append arg flag helper
  | pyEnum => exact extractPyEnum_append arg flag helper
  | pyFloat => exact extractPyFloat_append arg flag helper
  | npFloat16 => exact extractNpFloat16_append arg flag helper
  | npFloat32 => exact extractNpFloat32_append arg flag helper
  | pyComplex => exact extractPyComplex_append arg helper
  | npComplex64 => exact extractNpComplex64_append arg helper
  | numpyVoid => exact extractNumpyVoid_append arg helper driver
  | deviceRecord => exact extractDeviceRecord_append arg helper driver
  | npDatetime => exact extractNpDatetime_append arg flag helper

end

/-! ## The layout -/

def interfaceRank : DictAttr → Nat
  | .dict d =>
    match d.shape with
    | some (.tuple items) => items.length
    | _ => 0
  | _ => 0

/-- The number of dimensions that the extractor finds. -/
def arrayRank (kind : PythonArgKind) (arg : PyObj) : Nat :=
  if kind = .cudaArray then interfaceRank arg.cudaArrayInterface
  else
    match arg with
    | .array ary => ary.shape.length
    | _ => 0

def argEntries (kind : PythonArgKind) (arg : PyObj) : Nat :=
  if kind.isArray then 3 + 2 * arrayRank kind arg else if kind = .pyComplex then 2 else 1

def argRecord (kind : PythonArgKind) (arg : PyObj) (startIdx : Nat) : ArgMetadata where
  kind := if kind.isArray then .array else if kind = .tmaDescriptor then .tmaDescriptor else .scalar
  startIdx := startIdx
  ndim :=
    if kind.isArray then arrayRank kind arg
    else if kind = .pyComplex then 2 else if kind = .npComplex64 then 1 else if kind = .npFloat32 then 3 else 0

/-- The parameters of an argument whose entries begin at `startIdx`; `own` is what its extractor wrote. -/
def argPointers (kind : PythonArgKind) (arg : PyObj) (own : LaunchHelper) (startIdx : Nat) : List KernelParam :=
  if kind.isArray then (List.range (3 + 2 * arrayRank kind arg)).map fun i => .slot (startIdx + i)
  else if kind = .tmaDescriptor then own.alignedTmaDescriptors.map fun ptr => .descriptor (cudaArgDevicePtr ptr)
  else [.slot startIdx]

/-- What one extractor writes to an empty helper. -/
structure Extracted (driver : Driver) (kind : PythonArgKind) (arg : PyObj) (flag : Bool) (own : LaunchHelper) : Prop where
  ok : extractCudaArg driver kind arg flag .empty = .ok own
  entries : own.cuargs.length = argEntries kind arg
  record : own.argMetadata = [argRecord kind arg 0]
  descriptor : kind = .tmaDescriptor → ∃ ptr, own.alignedTmaDescriptors = [ptr] ∧ own.cuargs = [cudaArgDevicePtr ptr]
  buffer : kind = .numpyVoid → ∃ info, own.recordCopies = [info] ∧ own.cuargs = [cudaArgDevicePtr info.devicePtr]
  copies : kind ≠ .numpyVoid → own.recordCopies = []

/-- Records, entries and pointers of the arguments from position `i`, laid one after the other from `startIdx`. -/
inductive Laid (driver : Nat → Driver) : Nat → Nat → List PyObj → List PythonArgKind → List Bool → List ArgMetadata → List CudaArg →
    List KernelParam → Prop
  | nil {i startIdx : Nat} {kinds : List PythonArgKind} {flags : List Bool} : Laid driver i startIdx [] kinds flags [] [] []
  | cons {i startIdx : Nat} {arg : PyObj} {args : List PyObj} {kind : PythonArgKind} {kinds : List PythonArgKind} {flags : List Bool}
      {own : LaunchHelper} {metas : List ArgMetadata} {cuargs : List CudaArg} {pointers : List KernelParam}
      (extracted : Extracted (driver i) kind arg (flags.headD false) own)
      (rest : Laid driver (i + 1) (startIdx + argEntries kind arg) args kinds flags.tail metas cuargs pointers) :
      Laid driver i startIdx (arg :: args) (kind :: kinds) flags (argRecord kind arg startIdx :: metas) (own.cuargs ++ cuargs)
        (argPointers kind arg own startIdx ++ pointers)

theorem computeCompactRowMajorStrides_length : ∀ {shapes strides : List Int}, computeCompactRowMajorStrides shapes = .ok strides →
    strides.length = shapes.length
  | [], _, h => by cases h; rfl
  | [_], _, h => by cases h; rfl
  | _ :: n :: shapes, strides, h => by
    rw [computeCompactRowMajorStrides, bind_eq_ok] at h
    obtain ⟨inner, hi, h⟩ := h
    have hlen := computeCompactRowMajorStrides_length hi
    simp only at h
    split at h
    · cases h
    · cases h
      rw [List.length_cons, hlen]
      rfl

theorem mapM_length {α β : Type} {f : α → Result β} : ∀ {xs : List α} {ys : List β}, xs.mapM f = .ok ys → ys.length = xs.length
  | [], _, h => by cases h; rfl
  | x :: xs, ys, h => by
    rw [List.mapM_cons, bind_eq_ok] at h
    obtain ⟨y, -, h⟩ := h
    obtain ⟨zs, hzs, h⟩ := bind_eq_ok.mp h
    cases h
    rw [List.length_cons, mapM_length hzs, List.length_cons]

theorem elementStrides_length {w : Int} : ∀ {n : Nat} {items : List PyVal} {strides : List Int}, elementStrides w n items = .ok strides →
    strides.length = n
  | 0, _, _, h => by cases h; rfl
  | _ + 1, [], _, h => by cases h
  | n + 1, item :: items, strides, h => by
    rw [elementStrides, bind_eq_ok] at h
    obtain ⟨x, -, h⟩ := h
    split at h
    · cases h
    · obtain ⟨inner, hi, h⟩ := bind_eq_ok.mp h
      cases h
      rw [List.length_cons, elementStrides_length hi]

theorem interfaceStrides_length {dtype : DLDataType} {shapes strides : List Int} {v : Option PyVal}
    (h : interfaceStrides dtype shapes v = .ok strides) : strides.length = shapes.length := by
  unfold interfaceStrides at h
  split at h
  · exact computeCompactRowMajorStrides_length h
  · exact computeCompactRowMajorStrides_length h
  · exact elementStrides_length h
  · cases h

theorem dlpackStrides_length {ary : ArrayObj} {strides : List Int} (h : dlpackStrides ary = .ok strides) :
    strides.length = ary.shape.length := by
  unfold dlpackStrides at h
  split at h
  · exact computeCompactRowMajorStrides_length h
  · split at h
    · cases h
    · next hlen =>
      cases h
      rw [List.length_map, List.length_take]
      omega

theorem pushArray_entries {shapes strides : List Int} (hl : strides.length = shapes.length) (p : Int) (cs : List ConstantArg) (ctx : Option Nat) :
    (LaunchHelper.empty.pushArray p shapes strides cs ctx).cuargs.length = 3 + 2 * shapes.length := by
  simp only [LaunchHelper.pushArray, LaunchHelper.empty, List.length_append, List.length_map, List.nil_append, hl, List.length_cons, List.length_nil]
  omega

section
variable {driver : Driver} {kind : PythonArgKind} {arg : PyObj} {flag : Bool} {own : LaunchHelper}

theorem pushScalar_extracted {slots : List CudaArg} {cs : List ConstantArg} (hk : kind.isArray = false) (ht : kind ≠ .tmaDescriptor)
    (hv : kind ≠ .numpyVoid) (hlen : slots.length = argEntries kind arg)
    (h : extractCudaArg driver kind arg flag .empty = .ok (LaunchHelper.empty.pushScalar slots (argRecord kind arg 0).ndim cs)) :
    Extracted driver kind arg flag (LaunchHelper.empty.pushScalar slots (argRecord kind arg 0).ndim cs) := by
  refine ⟨h, hlen, ?_, fun hkind => absurd hkind ht, fun hkind => absurd hkind hv, fun _ => rfl⟩
  simp [LaunchHelper.pushScalar, LaunchHelper.empty, argRecord, hk, ht]

theorem pushArray_extracted {p : Int} {shapes strides : List Int} {cs : List ConstantArg} {ctx : Option Nat} (hk : kind.isArray = true)
    (hrank : arrayRank kind arg = shapes.length) (hlen : strides.length = shapes.length)
    (h : extractCudaArg driver kind arg flag .empty = .ok (LaunchHelper.empty.pushArray p shapes strides cs ctx)) :
    Extracted driver kind arg flag (LaunchHelper.empty.pushArray p shapes strides cs ctx) := by
  refine ⟨h, ?_, ?_, fun hkind => ?_, fun hkind => ?_, fun _ => rfl⟩
  · rw [pushArray_entries hlen, argEntries, if_pos hk, hrank]
  · simp [LaunchHelper.pushArray, LaunchHelper.empty, argRecord, hk, hrank]
  · rw [hkind] at hk
    cases hk
  · rw [hkind] at hk
    cases hk

theorem interfaceRank_eq {d : ArrayInterface} {shape : PyVal} {items : List PyVal} (hshape : unpackArrayInterface d.shape "shape" = .ok shape)
    (hitems : shapeItems shape = .ok items) : interfaceRank (.dict d) = items.length := by
  cases hs : d.shape with
  | none => rw [hs] at hshape; cases hshape
  | some v =>
    rw [hs] at hshape
    cases hshape
    unfold shapeItems at hitems
    split at hitems
    · split at hitems
      · cases hitems
      · cases hitems
        simp only [interfaceRank, hs]
    · cases hitems

theorem cudaArray_extracted (h : extractCudaArg driver .cudaArray arg flag .empty = .ok own) : Extracted driver .cudaArray arg flag own := by
  have hrun := h
  change extractCudaArray driver arg.cudaArrayInterface arg.dtypeRepr .empty = .ok own at hrun
  have hrank : arrayRank .cudaArray arg = interfaceRank arg.cudaArrayInterface := if_pos rfl
  cases hattr : arg.cudaArrayInterface with
  | missing => rw [hattr] at hrun; cases hrun
  | nonDict => rw [hattr] at hrun; cases hrun
  | dict d =>
    rw [hattr] at hrun hrank
    simp only [extractCudaArray, bind_eq_ok] at hrun
    obtain ⟨typestr, -, shape, hshape, data, -, chars, -, dtype, -, dataPtr, -, items, hitems, shapes, hshapes, strides, hstrides, hrun⟩ := hrun
    have hitems' := interfaceRank_eq hshape hitems
    cases hrun
    exact pushArray_extracted rfl (by rw [hrank, hitems', mapM_length hshapes]) (interfaceStrides_length hstrides) h

theorem dlpack_extracted (hk : kind = .torchTensorDlpack ∨ kind = .dlpackArray) (h : extractCudaArg driver kind arg flag .empty = .ok own) :
    Extracted driver kind arg flag own := by
  have hrun : extractDlpack driver arg .empty = .ok own := by rcases hk with rfl | rfl <;> exact h
  have harray : kind.isArray = true := by rcases hk with rfl | rfl <;> rfl
  cases arg with
  | array ary =>
    have hrank : arrayRank kind (.array ary) = ary.shape.length := by rcases hk with rfl | rfl <;> rfl
    unfold extractDlpack at hrun
    simp only at hrun
    split at hrun
    · cases hrun
    · split at hrun
      · cases hrun
      · split at hrun
        · cases hrun
        · obtain ⟨strides, hstrides, hrun⟩ := bind_eq_ok.mp hrun
          cases hrun
          exact pushArray_extracted harray hrank (dlpackStrides_length hstrides) h
  | _ => cases hrun

theorem tmaDescriptor_extracted (h : extractCudaArg driver .tmaDescriptor arg flag .empty = .ok own) :
    Extracted driver .tmaDescriptor arg flag own := by
  have hrun : extractTmaDescriptor driver arg .empty = .ok own := h
  cases arg with
  | object o =>
    unfold extractTmaDescriptor at hrun
    simp only at hrun
    split at hrun
    · obtain ⟨value, -, hrun⟩ := bind_eq_ok.mp hrun
      cases value with
      | int p =>
        simp only at hrun
        split at hrun
        · cases hrun
        · next ptr hptr =>
          cases hrun
          exact ⟨h, rfl, rfl, fun _ => ⟨ptr, rfl, rfl⟩, nofun, fun _ => rfl⟩
      | _ => cases hrun
    · cases hrun
  | _ => cases hrun

theorem numpyVoid_extracted (h : extractCudaArg driver .numpyVoid arg flag .empty = .ok own) : Extracted driver .numpyVoid arg flag own := by
  have hrun : extractNumpyVoid driver arg .empty = .ok own := h
  cases arg with
  | npVoid r =>
    unfold extractNumpyVoid at hrun
    simp only [bind_eq_ok] at hrun
    obtain ⟨hostPtr, -, recordSize, -, hrun⟩ := hrun
    split at hrun
    · cases hrun
    · split at hrun
      · cases hrun
      · split at hrun
        · cases hrun
        · cases hrun
          exact ⟨h, rfl, rfl, nofun, fun _ => ⟨_, rfl, rfl⟩, fun hkind => absurd rfl hkind⟩
  | _ => cases hrun

theorem deviceRecord_extracted (h : extractCudaArg driver .deviceRecord arg flag .empty = .ok own) :
    Extracted driver .deviceRecord arg flag own := by
  have hrun : extractDeviceRecord driver arg .empty = .ok own := h
  unfold extractDeviceRecord at hrun
  split at hrun
  · simp only [bind_eq_ok] at hrun
    obtain ⟨data, -, devicePtr, -, hrun⟩ := hrun
    cases hrun
    exact ⟨h, rfl, rfl, nofun, nofun, fun _ => rfl⟩
  · cases hrun

theorem pyLong_extracted (h : extractCudaArg driver .pyLong arg flag .empty = .ok own) : Extracted driver .pyLong arg flag own := by
  have hrun : extractPyLong arg flag .empty = .ok own := h
  cases arg with
  | long cls v =>
    simp only [extractPyLong] at hrun
    split at hrun
    · cases hrun
      exact pushScalar_extracted rfl nofun nofun rfl h
    · obtain ⟨value, -, hrun⟩ := bind_eq_ok.mp hrun
      cases hrun
      exact pushScalar_extracted rfl nofun nofun rfl h
  | _ => cases hrun

theorem npInteger_extracted (h : extractCudaArg driver .npInteger arg flag .empty = .ok own) : Extracted driver .npInteger arg flag own := by
  have hrun : extractNpInteger arg flag .empty = .ok own := h
  cases arg with
  | npInteger n =>
    obtain ⟨value, -, hrun⟩ := bind_eq_ok.mp hrun
    cases hrun
    exact pushScalar_extracted rfl nofun nofun rfl h
  | _ => cases hrun

theorem pyEnum_extracted (h : extractCudaArg driver .pyEnum arg flag .empty = .ok own) : Extracted driver .pyEnum arg flag own := by
  have hrun : extractPyEnum arg flag .empty = .ok own := h
  cases arg with
  | enum cls value =>
    cases value with
    | int v =>
      obtain ⟨value, -, hrun⟩ := bind_eq_ok.mp hrun
      cases hrun
      exact pushScalar_extracted rfl nofun nofun rfl h
    | other tpName => cases hrun
    | _ =>
      cases hrun
      exact pushScalar_extracted rfl nofun nofun rfl h
  | _ => cases hrun

theorem npDatetime_extracted (h : extractCudaArg driver .npDatetime arg flag .empty = .ok own) : Extracted driver .npDatetime arg flag own := by
  have hrun : extractNpDatetime arg flag .empty = .ok own := h
  cases arg with
  | npDatetime isTimedelta unit ticks =>
    obtain ⟨value, -, hrun⟩ := bind_eq_ok.mp hrun
    cases hrun
    exact pushScalar_extracted rfl nofun nofun rfl h
  | _ => cases hrun

theorem plain_extracted (hk : kind ∈ [.pyFloat, .npFloat16, .npFloat32, .pyComplex, .npComplex64])
    (h : extractCudaArg driver kind arg flag .empty = .ok own) : Extracted driver kind arg flag own := by
  simp only [List.mem_cons, List.not_mem_nil, or_false] at hk
  rcases hk with rfl | rfl | rfl | rfl | rfl <;> cases arg <;> first
    | cases h; done
    | cases id h
      exact pushScalar_extracted rfl nofun nofun rfl h

theorem extractCudaArg_extracted (h : extractCudaArg driver kind arg flag .empty = .ok own) : Extracted driver kind arg flag own := by
  cases kind with
  | torchTensorDlpack => exact dlpack_extracted (.inl rfl) h
  | dlpackArray => exact dlpack_extracted (.inr rfl) h
  | cudaArray => exact cudaArray_extracted h
  | tmaDescriptor => exact tmaDescriptor_extracted h
  | numpyVoid => exact numpyVoid_extracted h
  | deviceRecord => exact deviceRecord_extracted h
  | pyLong => exact pyLong_extracted h
  | npInteger => exact npInteger_extracted h
  | pyEnum => exact pyEnum_extracted h
  | npDatetime => exact npDatetime_extracted h
  | pyFloat | npFloat16 | npFloat32 | pyComplex | npComplex64 => exact plain_extracted (by decide) h

theorem argRecord_pointers (hx : Extracted driver kind arg flag own) (before after : List CudaArg) :
    (argRecord kind arg before.length).pointers (before ++ own.cuargs ++ after) = argPointers kind arg own before.length := by
  unfold ArgMetadata.pointers argRecord argPointers
  by_cases hk : kind.isArray = true
  · simp only [if_pos hk]
  by_cases ht : kind = .tmaDescriptor
  · obtain ⟨ptr, hptr, hentry⟩ := hx.descriptor ht
    have hget : (before ++ own.cuargs ++ after).getD before.length 0 = cudaArgDevicePtr ptr := by
      rw [hentry, List.append_assoc, List.getD_eq_getElem?_getD, List.getElem?_append_right (Nat.le_refl _), Nat.sub_self]
      rfl
    simp only [if_neg hk, if_pos ht, hptr, hget, List.map_cons, List.map_nil]
  · simp only [if_neg hk, if_neg ht]

end

section
variable {driver : Nat → Driver}

theorem extractFrom_laid : ∀ {args : List PyObj} {i : Nat} {kinds : List PythonArgKind} {flags : List Bool} {helper helper' : LaunchHelper},
    extractFrom driver i args kinds flags helper = .ok helper' → ∃ metas cuargs,
      helper'.argMetadata = helper.argMetadata ++ metas ∧ helper'.cuargs = helper.cuargs ++ cuargs ∧
      ∀ after, Laid driver i helper.cuargs.length args kinds flags metas cuargs (metas.flatMap (·.pointers (helper'.cuargs ++ after)))
  | [], _, _, _, helper, helper', h => by
    cases h
    exact ⟨[], [], (List.append_nil _).symm, (List.append_nil _).symm, fun _ => .nil⟩
  | _ :: _, _, [], _, _, _, h => by cases h
  | arg :: args, i, kind :: kinds, flags, helper, helper', h => by
    obtain ⟨mid, hmid, h⟩ := bind_eq_ok.mp h
    rw [extractCudaArg_append] at hmid
    cases hown : extractCudaArg (driver i) kind arg (flags.headD false) .empty with
    | error e => rw [hown] at hmid; cases hmid
    | ok own =>
      rw [hown] at hmid
      cases hmid
      have hx := extractCudaArg_extracted hown
      obtain ⟨metas, cuargs, hmetas, hcuargs, hlaid⟩ := extractFrom_laid h
      have hrecord : (helper.append own).argMetadata = helper.argMetadata ++ [argRecord kind arg helper.cuargs.length] := by
        rw [append, hx.record]
        rfl
      have hentries : (helper.append own).cuargs = helper.cuargs ++ own.cuargs := rfl
      have hlength : (helper.append own).cuargs.length = helper.cuargs.length + argEntries kind arg := by
        rw [hentries, List.length_append, hx.entries]
      refine ⟨argRecord kind arg helper.cuargs.length :: metas, own.cuargs ++ cuargs, ?_, ?_, fun after => ?_⟩
      · rw [hmetas, hrecord, List.append_assoc, List.singleton_append]
      · rw [hcuargs, hentries, List.append_assoc]
      · have hall : helper'.cuargs ++ after = helper.cuargs ++ own.cuargs ++ (cuargs ++ after) := by
          rw [hcuargs, hentries, List.append_assoc]
        rw [List.flatMap_cons, hall, argRecord_pointers hx, ← hall]
        exact .cons hx (hlength ▸ hlaid after)

/-- Arguments of any kinds, in a helper with any contents. -/
theorem launch_arguments_laid {pyargs : List PyObj} {argKinds : List PythonArgKind} {flags : List Bool} {pooled extracted : PooledHelper}
    (h : pooled.extractCudaArgs driver pyargs argKinds flags = .ok extracted) :
    Laid driver 0 0 pyargs argKinds flags extracted.buildPointers.helper.argMetadata extracted.buildPointers.helper.cuargs
        extracted.buildPointers.cuargPointers ∧
      ∀ other : PooledHelper, ∃ extracted', other.extractCudaArgs driver pyargs argKinds flags = .ok extracted' ∧
        extracted'.buildPointers = extracted.buildPointers := by
  have hclear (pooled : PooledHelper) : pooled.helper.clear = .empty := rfl
  obtain ⟨helper, hrun, hdone⟩ := bind_eq_ok.mp h
  cases hdone
  rw [hclear] at hrun
  obtain ⟨metas, cuargs, hmetas, hcuargs, hlaid⟩ := extractFrom_laid hrun
  constructor
  · have hpointers : (PooledHelper.buildPointers { pooled with helper := helper }).cuargPointers = metas.flatMap (·.pointers (helper.cuargs ++ [])) := by
      rw [PooledHelper.buildPointers, List.flatMap_eq_foldl, List.append_nil, hmetas]
      rfl
    have hstored : helper.cuargs = cuargs := hcuargs
    have hrecords : helper.argMetadata = metas := hmetas
    rw [hpointers]
    change Laid driver 0 0 pyargs argKinds flags helper.argMetadata helper.cuargs _
    rw [hrecords]
    nth_rewrite 1 [hstored]
    exact hlaid []
  · intro other
    refine ⟨{ other with helper := helper }, ?_, rfl⟩
    rw [PooledHelper.extractCudaArgs, hclear, hrun]
    rfl

/-- A vector and a complex number, in a helper that a launch of a scalar left behind. -/
theorem vector_and_complex_laid : ∃ extracted : PooledHelper,
    extracted.buildPointers.cuargPointers = [.slot 0, .slot 1, .slot 2, .slot 3, .slot 4, .slot 5] ∧
    Laid (fun _ => .idle) 0 0 [.deviceArray ⟨.numeric .float .s4, [7], [4], rfl, 64⟩, .complex .complex 1 2] [.cudaArray, .pyComplex] []
      extracted.buildPointers.helper.argMetadata extracted.buildPointers.helper.cuargs extracted.buildPointers.cuargPointers :=
  ⟨_, rfl, (@launch_arguments_laid _ _ _ _
    ⟨LaunchHelper.empty.pushScalar [9] 0 [], [.slot 0]⟩ _ rfl).1⟩

end

end NumbaCudaMlir

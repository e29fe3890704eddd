import NumbaCudaMlir.DescriptorSound
import NumbaCudaMlir.Typeof

/-!
# What the constants of an array determine

An array enters the kernel key by its `DLDataType` and rank, and by an identity
string where that type says too little. They determine dtype and rank, except
that a complex128 array read through `__cuda_array_interface__` has the
constants of a complex64 array read through DLPack.
-/

namespace NumbaCudaMlir

open CInt

/-! ## The packed dtype -/

theorem wrap64_natCast_inj {a b : Nat} (ha : a < 2 ^ 64) (hb : b < 2 ^ 64) (h : wrap64 a = wrap64 b) : a = b := by
  have hmod := congrArg (fun x : Int => x % (2 ^ 64 : Nat)) h
  simp only [wrap64, Int.bmod_emod] at hmod
  omega

theorem dtypeAsUint_eq (dl : DLDataType) :
    dtypeAsUint dl = dl.lanes.toNat * 2 ^ 16 + (dl.bits.toNat * 2 ^ 8 + dl.code.toNat) := by
  have hc := dl.code.toNat_lt
  have hb := dl.bits.toNat_lt
  have h8 : dl.bits.toNat <<< 8 + dl.code.toNat = dl.bits.toNat <<< 8 ||| dl.code.toNat :=
    Nat.shiftLeft_add_eq_or_of_lt hc _
  have hlow : dl.bits.toNat <<< 8 ||| dl.code.toNat < 2 ^ 16 := by
    rw [← h8, Nat.shiftLeft_eq]; omega
  rw [dtypeAsUint, Nat.or_comm dl.code.toNat, Nat.or_comm _ (dl.lanes.toNat <<< 16),
    ← Nat.shiftLeft_add_eq_or_of_lt hlow, ← h8, Nat.shiftLeft_eq, Nat.shiftLeft_eq]

theorem packDtypeAndNdim_inj {dl dl' : DLDataType} {n m : Nat} (hn : n < 2 ^ 32) (hm : m < 2 ^ 32)
    (h : packDtypeAndNdim dl n = packDtypeAndNdim dl' m) : dl = dl' ∧ n = m := by
  have hlt (dl : DLDataType) : dtypeAsUint dl < 2 ^ 32 := by
    have hc := dl.code.toNat_lt
    have hb := dl.bits.toNat_lt
    have hl := dl.lanes.toNat_lt
    rw [dtypeAsUint_eq]; omega
  have hpack {dl : DLDataType} {n : Nat} : dtypeAsUint dl ||| n <<< 32 = n * 2 ^ 32 + dtypeAsUint dl := by
    rw [Nat.or_comm, ← Nat.shiftLeft_add_eq_or_of_lt (hlt dl), Nat.shiftLeft_eq]
  have hd := hlt dl
  have hd' := hlt dl'
  rw [packDtypeAndNdim, packDtypeAndNdim, hpack, hpack] at h
  have h := wrap64_natCast_inj (by omega) (by omega) h
  have hu : dtypeAsUint dl = dtypeAsUint dl' := by omega
  refine ⟨?_, by omega⟩
  rw [dtypeAsUint_eq, dtypeAsUint_eq] at hu
  have hc := dl.code.toNat_lt
  have hc' := dl'.code.toNat_lt
  have hb := dl.bits.toNat_lt
  have hb' := dl'.bits.toNat_lt
  obtain ⟨c, b, l⟩ := dl
  obtain ⟨c', b', l'⟩ := dl'
  simp only [DLDataType.mk.injEq, ← UInt8.toNat_inj, ← UInt16.toNat_inj] at hu hc hc' hb hb' ⊢
  omega

/-! ## Array arguments -/

namespace PyObj

def arrayType : PyObj → Option (NpDType × Nat)
  | deviceArray ary => some (ary.dtype, ary.shape.length)
  | array ary => some (ary.dtype, ary.ndim)
  | _ => none

def viaDlpack : PyObj → Bool
  | array ary => ary.cls = .torchTensor ∨ ary.cls.hasCudaArrayInterface = false
  | _ => false

def launchDtype (arg : PyObj) (d : NpDType) : Option DLDataType :=
  if arg.viaDlpack then dlpackDtype d else (parseTypestr d.typestr).toOption

def identity (arg : PyObj) (d : NpDType) : List Char :=
  if arg.viaDlpack then [] else arrayDtypeIdentityConstant arg.dtypeRepr d.typestr

end PyObj

theorem extractCudaArg_array {driver : Driver} {kind : PythonArgKind} {arg : PyObj} {p : ParameterKind}
    {isConstant : Bool} {helper helper' : LaunchHelper} {d : NpDType} {n : Nat}
    (hc : classifyArg arg = .ok (kind, p)) (ht : arg.arrayType = some (d, n))
    (h : extractCudaArg driver kind arg isConstant helper = .ok helper') :
    n < 2 ^ 32 ∧ ∃ dl, arg.launchDtype d = some dl ∧
      helper'.constants = helper.constants ++ arrayConstants dl n (arg.identity d) := by
  cases arg with
  | deviceArray ary =>
    cases ht; cases hc
    obtain ⟨hn, dl, hp, hk⟩ := extractCudaArray_constants rfl rfl h
    exact ⟨hn, dl, by rw [PyObj.launchDtype, hp]; rfl, hk⟩
  | array ary =>
    cases ht
    obtain ⟨-, rfl⟩ := classifyArg_array hc
    have hdl (h : extractDlpack driver (.array ary) helper = .ok helper') : ary.ndim < 2 ^ 32 ∧
        ∃ dl, dlpackDtype ary.dtype = some dl ∧
          helper'.constants = helper.constants ++ arrayConstants dl ary.ndim [] := by
      have hn := ary.ndim_lt
      refine ⟨by unfold ArrayObj.ndim; omega, ?_⟩
      rw [extractDlpack] at h
      split at h
      · cases h
      cases hd : dlpackDtype ary.dtype with
      | none => rw [hd] at h; cases h
      | some dl =>
        rw [hd] at h
        simp only at h
        split at h
        · cases h
        · obtain ⟨strides, -, h⟩ := bind_eq_ok.mp h
          cases h
          exact ⟨dl, rfl, rfl⟩
    by_cases htorch : ary.cls = .torchTensor
    · rw [if_pos htorch] at h
      simpa [PyObj.launchDtype, PyObj.identity, PyObj.viaDlpack, htorch] using hdl h
    · rw [if_neg htorch] at h
      cases hcai : ary.cls.hasCudaArrayInterface with
      | false =>
        rw [hcai] at h
        simpa [PyObj.launchDtype, PyObj.identity, PyObj.viaDlpack, hcai] using hdl h
      | true =>
        rw [hcai] at h
        have hi : (PyObj.array ary).cudaArrayInterface = .dict ary.cudaArrayInterface := by
          rw [PyObj.cudaArrayInterface, hcai]; rfl
        rw [if_pos rfl, extractCudaArg, hi] at h
        obtain ⟨hn, dl, hp, hk⟩ := extractCudaArray_constants rfl rfl h
        refine ⟨hn, dl, ?_, ?_⟩
        · simp [PyObj.launchDtype, PyObj.viaDlpack, htorch, hcai, hp, Except.toOption]
        · simpa [PyObj.identity, PyObj.viaDlpack, htorch, hcai, ArrayObj.ndim] using hk
  | _ => cases ht

/-! ## Numeric dtypes -/

/-- A complex64 array read through DLPack and a complex128 array read through the CUDA interface. -/
def ComplexClash (a b : PyObj) (d e : NpDType) : Prop :=
  a.viaDlpack = true ∧ b.viaDlpack = false ∧ d = .numeric .complex .s8 ∧ e = .numeric .complex .s16

def NumKind.code : NumKind → UInt8
  | .bool => kDLBool
  | .int => kDLInt
  | .uint => kDLUInt
  | .float => kDLFloat
  | .complex => kDLComplex

theorem launchDtype_numeric {arg : PyObj} {k : NumKind} {s : ItemSize} {dl : DLDataType}
    (hf : fromDtype (.numeric k s) ≠ none) (h : arg.launchDtype (.numeric k s) = some dl) :
    dl.code = k.code ∧
      dl.bits.toNat = if k = .complex ∧ arg.viaDlpack = false then 4 * s.bytes else 8 * s.bytes := by
  unfold PyObj.launchDtype at h
  by_cases hv : arg.viaDlpack = true
  · rw [if_pos hv] at h
    rw [hv]
    cases k <;> cases s <;> first | exact absurd rfl hf | (cases h; decide)
  · rw [if_neg hv] at h
    rw [Bool.not_eq_true] at hv
    rw [hv]
    cases k <;> cases s <;> first | exact absurd rfl hf | (cases h; decide)

theorem numeric_launchDtype_inj {a b : PyObj} {k k' : NumKind} {s s' : ItemSize} {dl : DLDataType}
    (hf : fromDtype (.numeric k s) ≠ none) (hf' : fromDtype (.numeric k' s') ≠ none)
    (h : a.launchDtype (.numeric k s) = some dl) (h' : b.launchDtype (.numeric k' s') = some dl) :
    NpDType.numeric k s = .numeric k' s' ∨ ComplexClash a b (.numeric k s) (.numeric k' s') ∨
      ComplexClash b a (.numeric k' s') (.numeric k s) := by
  obtain ⟨hc, hb⟩ := launchDtype_numeric hf h
  obtain ⟨hc', hb'⟩ := launchDtype_numeric hf' h'
  have hk : k = k' := by
    rw [hc] at hc'
    cases k <;> cases k' <;> first | rfl | exact absurd hc' (by decide)
  subst hk
  have hinj {s s' : ItemSize} (h : s.bytes = s'.bytes) : s = s' := by
    cases s <;> cases s' <;> first | rfl | exact absurd h (by decide)
  have hclash {s s' : ItemSize} (hf : fromDtype (.numeric .complex s) ≠ none)
      (hf' : fromDtype (.numeric .complex s') ≠ none) (h : 8 * s.bytes = 4 * s'.bytes) : s = .s8 ∧ s' = .s16 := by
    cases s <;> cases s' <;> first
      | exact ⟨rfl, rfl⟩
      | exact absurd h (by decide)
      | exact absurd rfl hf
      | exact absurd rfl hf'
  rw [hb] at hb'
  by_cases hcomplex : k = .complex
  · subst hcomplex
    simp only [true_and] at hb'
    cases ha : a.viaDlpack <;> cases hw : b.viaDlpack <;>
      simp only [ha, hw, if_true, Bool.true_eq_false, if_false] at hb'
    · left
      have hs : s = s' := hinj (by omega)
      rw [hs]
    · obtain ⟨rfl, rfl⟩ := hclash hf' hf hb'.symm
      exact .inr (.inr ⟨hw, ha, rfl, rfl⟩)
    · obtain ⟨rfl, rfl⟩ := hclash hf hf' hb'
      exact .inr (.inl ⟨ha, hw, rfl, rfl⟩)
    · left
      have hs : s = s' := hinj (by omega)
      rw [hs]
  · simp only [hcomplex, false_and, if_false] at hb'
    have hs : s = s' := hinj (by omega)
    left
    rw [hs]

/-! ## The identity string -/

theorem typestr_length (d : NpDType) : 2 ≤ d.typestr.length := by
  cases d with
  | numeric k s => cases k <;> cases s <;> decide
  | _ => simp [NpDType.typestr]

theorem identity_eq_nil {arg : PyObj} {d : NpDType} (h : d.hasIdentity = false) : arg.identity d = [] := by
  rw [PyObj.identity]
  split
  · rfl
  · rw [arrayDtypeIdentityConstant, charAt_typestr_one]
    rw [NpDType.hasIdentity, decide_eq_false_iff_not] at h
    rw [if_neg (Nat.not_lt.mpr (typestr_length d)), if_neg h]

theorem identity_of_interface {arg : PyObj} {d : NpDType} (hv : arg.viaDlpack = false) (h : d.hasIdentity = true) :
    arg.identity d = arg.dtypeRepr.getD d.typestr := by
  rw [NpDType.hasIdentity, decide_eq_true_iff] at h
  rw [PyObj.identity, if_neg (by simp [hv]), arrayDtypeIdentityConstant, charAt_typestr_one,
    if_neg (Nat.not_lt.mpr (typestr_length d)), if_pos h]

theorem eq_numeric {d : NpDType} (h : d.hasIdentity = false) : ∃ k s, d = .numeric k s := by
  cases d with
  | numeric k s => exact ⟨k, s, rfl⟩
  | _ => cases h

theorem viaDlpack_of_identity {arg : PyObj} {d : NpDType} {dl : DLDataType} (h : d.hasIdentity = true)
    (hl : arg.launchDtype d = some dl) : arg.viaDlpack = false := by
  cases hv : arg.viaDlpack with
  | false => rfl
  | true =>
    rw [PyObj.launchDtype, if_pos hv] at hl
    cases d with
    | numeric k s => cases k <;> cases h
    | _ => cases hl

theorem typeof_array {arg : PyObj} {d : NpDType} {n : Nat} {t : NumbaType} (ha : arg.arrayType = some (d, n))
    (ht : typeof arg = some t) : ∃ s l r, fromDtype d = some s ∧ t = .array s n l r := by
  cases arg with
  | deviceArray ary =>
    cases ha
    obtain ⟨s, hs, rfl⟩ := Option.map_eq_some_iff.mp ht
    exact ⟨s, _, _, hs, rfl⟩
  | array ary =>
    cases ha
    rw [typeof, ArrayObj.numbaType] at ht
    cases hs : fromDtype ary.dtype with
    | none => rw [hs] at ht; cases ht
    | some s =>
      rw [hs] at ht
      refine ⟨s, ?_⟩
      cases hc : ary.cls with
      | foreign id cai dlpack dt =>
        simp only [hc] at ht
        split at ht
        · cases ht; exact ⟨_, _, rfl, rfl⟩
        split at ht
        · cases ht
        split at ht
        · cases ht
        · obtain ⟨l, -, rfl⟩ := Option.map_eq_some_iff.mp ht
          exact ⟨l, _, rfl, rfl⟩
      | _ => simp only [hc] at ht; cases ht; exact ⟨_, _, rfl, rfl⟩
  | _ => cases ha

theorem dtypeRepr_of_typeof {arg : PyObj} {d : NpDType} {n : Nat} {t : NumbaType} (ha : arg.arrayType = some (d, n))
    (ht : typeof arg = some t) :
    arg.dtypeRepr = some d.repr ∨ arg.dtypeRepr = none ∧ (arg.viaDlpack = false → d.kindChar ≠ 'V') := by
  cases arg with
  | deviceArray ary => cases ha; exact .inl rfl
  | array ary =>
    cases ha
    rw [PyObj.dtypeRepr]
    cases hn : ary.cls.hasNpDtype with
    | true => exact .inl rfl
    | false =>
      refine .inr ⟨rfl, fun hv hV => ?_⟩
      obtain ⟨fs, k, hd⟩ := NpDType.eq_void hV
      cases hc : ary.cls with
      | torchTensor => simp [PyObj.viaDlpack, hc] at hv
      | foreign id cai dlpack dt =>
        rw [hc] at hn
        have hn : dt = false := hn
        simp [typeof, ArrayObj.numbaType, hc, hd, hn, fromDtype, dlpackDtype, NpDType.kindChar] at ht
      | _ => rw [hc] at hn; cases hn
  | _ => cases ha

theorem repr_head (d : NpDType) : d.repr.head? = some 'd' := by cases d <;> rfl

theorem repr_ne_typestr (d e : NpDType) : d.repr ≠ e.typestr := by
  intro h
  have hr := repr_head d
  rw [h] at hr
  cases e with
  | numeric k s => cases k <;> cases s <;> exact absurd hr (by decide)
  | _ => simp [NpDType.typestr] at hr

theorem identity_ne_nil {arg : PyObj} {d : NpDType} {n : Nat} {t : NumbaType} (ha : arg.arrayType = some (d, n))
    (ht : typeof arg = some t) (hv : arg.viaDlpack = false) (hd : d.hasIdentity = true) : arg.identity d ≠ [] := by
  rw [identity_of_interface hv hd]
  rcases dtypeRepr_of_typeof ha ht with hr | ⟨hr, -⟩
  · rw [hr]
    intro h
    have := repr_head d
    rw [show d.repr = [] from h] at this
    cases this
  · rw [hr]
    intro h
    have := typestr_length d
    rw [show d.typestr = [] from h] at this
    exact absurd this (by decide)

theorem identity_inj {a b : PyObj} {d e : NpDType} {n m : Nat} {s t : NumbaType} (ha : a.arrayType = some (d, n))
    (hb : b.arrayType = some (e, m)) (hs : typeof a = some s) (ht : typeof b = some t) (hva : a.viaDlpack = false)
    (hvb : b.viaDlpack = false) (hd : d.hasIdentity = true) (he : e.hasIdentity = true)
    (h : a.identity d = b.identity e) : d = e := by
  rw [identity_of_interface hva hd, identity_of_interface hvb he] at h
  rcases dtypeRepr_of_typeof ha hs with hra | ⟨hra, hV⟩ <;> rcases dtypeRepr_of_typeof hb ht with hrb | ⟨hrb, -⟩ <;>
    rw [hra, hrb] at h
  · exact NpDType.repr_inj hd he h
  · exact absurd h (repr_ne_typestr d e)
  · exact absurd h.symm (repr_ne_typestr e d)
  · exact NpDType.typestr_inj hd (hV hva) h

/-- **The constants of an array** determine its dtype and rank, up to the complex clash. -/
theorem arrayConstants_inj {a b : PyObj} {d e : NpDType} {n m : Nat} {s t : NumbaType} {dl dl' : DLDataType}
    (ha : a.arrayType = some (d, n)) (hb : b.arrayType = some (e, m)) (hs : typeof a = some s)
    (ht : typeof b = some t) (hn : n < 2 ^ 32) (hm : m < 2 ^ 32) (hdl : a.launchDtype d = some dl)
    (hdl' : b.launchDtype e = some dl')
    (h : arrayConstants dl n (a.identity d) = arrayConstants dl' m (b.identity e)) :
    n = m ∧ (d = e ∨ ComplexClash a b d e ∨ ComplexClash b a e d) := by
  rw [arrayConstants, arrayConstants, List.cons.injEq, ConstantArg.int64.injEq] at h
  obtain ⟨hp, hi⟩ := h
  obtain ⟨rfl, rfl⟩ := packDtypeAndNdim_inj hn hm hp
  refine ⟨rfl, ?_⟩
  have hi : a.identity d = b.identity e := by
    by_cases h₁ : a.identity d = [] <;> by_cases h₂ : b.identity e = [] <;> simp [h₁, h₂] at hi ⊢
    exact hi
  cases hd : d.hasIdentity with
  | true =>
    have hva := viaDlpack_of_identity hd hdl
    cases he : e.hasIdentity with
    | true => exact .inl (identity_inj ha hb hs ht hva (viaDlpack_of_identity he hdl') hd he hi)
    | false => exact absurd (hi.trans (identity_eq_nil he)) (identity_ne_nil ha hs hva hd)
  | false =>
    cases he : e.hasIdentity with
    | true =>
      exact absurd (hi.symm.trans (identity_eq_nil hd)) (identity_ne_nil hb ht (viaDlpack_of_identity he hdl') he)
    | false =>
      obtain ⟨k, s, rfl⟩ := eq_numeric hd
      obtain ⟨k', s', rfl⟩ := eq_numeric he
      obtain ⟨_, _, _, hf, -⟩ := typeof_array ha hs
      obtain ⟨_, _, _, hf', -⟩ := typeof_array hb ht
      exact numeric_launchDtype_inj (by rw [hf]; nofun) (by rw [hf']; nofun) hdl hdl'

end NumbaCudaMlir

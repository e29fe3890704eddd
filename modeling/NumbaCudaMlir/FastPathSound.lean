import NumbaCudaMlir.FastPath

/-!
# The fast path against the standard path

Both paths pass the same parameters, except that the fast path raises on a
Python integer above the signed 64-bit range, which the standard path passes as
an unsigned one.
-/

namespace NumbaCudaMlir

open CInt

inductive FastArgs : List PythonArgKind → List PyObj → Prop
  | nil : FastArgs [] []
  | long {cls v kinds args} : FastArgs kinds args → FastArgs (.pyLong :: kinds) (.long cls v :: args)
  | npInteger {n kinds args} : FastArgs kinds args → FastArgs (.npInteger :: kinds) (.npInteger n :: args)
  | float {cls bits kinds args} : FastArgs kinds args → FastArgs (.pyFloat :: kinds) (.float cls bits :: args)
  | npFloat32 {bits kinds args} : FastArgs kinds args → FastArgs (.npFloat32 :: kinds) (.npFloat32 bits :: args)

def Classified (kinds : List PythonArgKind) (args : List PyObj) : Prop :=
  List.Forall₂ (fun kind arg => ∃ p, classifyArg arg = .ok (kind, p)) kinds args

theorem npInteger_converts (n : NpInteger) : ∃ x, pylongAsInt n.value = .ok x := by
  refine ⟨wrap64 n.value, pylongAsInt_ok.mpr ⟨?_, rfl⟩⟩
  obtain ⟨signed, size, value, h⟩ := n
  unfold InInt64 InUInt64
  cases signed <;> cases size <;>
    simp only [IntSize.toItemSize, ItemSize.bytes, if_true, Bool.false_eq_true, if_false] at h ⊢ <;> omega

/-! ## The slots of the standard path -/

def standardSlot : PyObj → Result CudaArg
  | .long _ v => (pylongAsInt v).map cudaArgI64
  | .npInteger n => (pylongAsInt n.value).map cudaArgI64
  | .float _ bits => .ok bits
  | .npFloat32 bits => .ok (cudaArgF32 bits)
  | _ => .error .undefined

def standardSlots : List PyObj → Result (List CudaArg)
  | [] => .ok []
  | arg :: args => do
    let slot ← standardSlot arg
    let rest ← standardSlots args
    pure (slot :: rest)

def scalarMetadata : Nat → List PythonArgKind → List ArgMetadata
  | _, [] => []
  | start, kind :: kinds => ⟨.scalar, start, if kind = .npFloat32 then 3 else 0⟩ :: scalarMetadata (start + 1) kinds

theorem extractPyLong_eq (cls : LongClass) (v : Int) (helper : LaunchHelper) :
    extractPyLong (.long cls v) false helper =
      (standardSlot (.long cls v)).map fun s => helper.pushScalar [s] 0 [] := by
  simp only [extractPyLong, standardSlot, pylongAsInt]
  cases asLongLong v with
  | ok x => rfl
  | error e => cases asUnsignedLongLong v <;> rfl

theorem scalarExtractors_cons {kind : PythonArgKind} {kinds : List PythonArgKind} {flags : List Bool}
    {exs : List ScalarExtractor} (h : scalarExtractors (kind :: kinds) flags = some exs) :
    flags.headD false = false ∧ ∃ ex rest, getScalarExtractor kind = some ex ∧
      scalarExtractors kinds flags.tail = some rest ∧ exs = ex :: rest := by
  rw [scalarExtractors] at h
  by_cases hf : flags.headD false = true
  · rw [if_pos hf] at h; cases h
  · rw [if_neg hf] at h
    cases hex : getScalarExtractor kind with
    | none => rw [hex] at h; cases h
    | some ex =>
      rw [hex] at h
      obtain ⟨rest, hr, rfl⟩ := Option.map_eq_some_iff.mp h
      exact ⟨by simpa using hf, ex, rest, rfl, hr, rfl⟩

theorem scalarExtractors_of_fast {profile : PythonArgProfile} (h : profile.fastExtractors ≠ []) :
    ∃ exs, scalarExtractors profile.argKinds profile.constantArgFlags = some exs := by
  rw [PythonArgProfile.fastExtractors] at h
  cases hs : scalarExtractors profile.argKinds profile.constantArgFlags with
  | none => rw [hs] at h; exact absurd rfl h
  | some exs => exact ⟨exs, rfl⟩

theorem extractLoop_fastArgs {driver : Driver} {kinds : List PythonArgKind} {args : List PyObj}
    (h : FastArgs kinds args) : ∀ (flags : List Bool) (exs : List ScalarExtractor) (helper : LaunchHelper),
    scalarExtractors kinds flags = some exs →
    extractLoop driver args kinds flags helper =
      (standardSlots args).map fun slots =>
        { helper with
          cuargs := helper.cuargs ++ slots
          argMetadata := helper.argMetadata ++ scalarMetadata helper.cuargs.length kinds } := by
  -- One argument, then the rest of the loop on the helper it leaves.
  have step (kind : PythonArgKind) (arg : PyObj) {kinds : List PythonArgKind} {args : List PyObj}
      (hone : ∀ helper, extractCudaArg driver kind arg false helper =
        (standardSlot arg).map fun s => helper.pushScalar [s] (if kind = .npFloat32 then 3 else 0) [])
      (ih : ∀ (flags : List Bool) (exs : List ScalarExtractor) (helper : LaunchHelper),
        scalarExtractors kinds flags = some exs →
        extractLoop driver args kinds flags helper = (standardSlots args).map fun slots =>
          { helper with
            cuargs := helper.cuargs ++ slots
            argMetadata := helper.argMetadata ++ scalarMetadata helper.cuargs.length kinds })
      (flags : List Bool) (exs : List ScalarExtractor) (helper : LaunchHelper)
      (hx : scalarExtractors (kind :: kinds) flags = some exs) :
      extractLoop driver (arg :: args) (kind :: kinds) flags helper = (standardSlots (arg :: args)).map
        fun slots => { helper with
          cuargs := helper.cuargs ++ slots
          argMetadata := helper.argMetadata ++ scalarMetadata helper.cuargs.length (kind :: kinds) } := by
    obtain ⟨hf, _, rest, -, hr, -⟩ := scalarExtractors_cons hx
    rw [extractLoop, hf, hone, standardSlots]
    cases standardSlot arg with
    | error e => rfl
    | ok s =>
      simp only [Except.map, bind, Except.bind]
      rw [ih _ rest _ hr]
      cases standardSlots args with
      | error e => rfl
      | ok slots => simp [Except.map, pure, Except.pure, LaunchHelper.pushScalar, scalarMetadata]
  induction h with
  | nil => intro flags exs helper _; simp [extractLoop, standardSlots, scalarMetadata, Except.map]
  | long _ ih => exact step .pyLong (.long ..) (fun helper => extractPyLong_eq _ _ helper) ih
  | @npInteger n _ _ _ ih =>
    refine step .npInteger (.npInteger n) (fun helper => ?_) ih
    simp only [extractCudaArg, extractNpInteger, standardSlot]
    cases pylongAsInt n.value <;> rfl
  | float _ ih => exact step .pyFloat (.float ..) (fun _ => rfl) ih
  | npFloat32 _ ih => exact step .npFloat32 (.npFloat32 _) (fun _ => rfl) ih

theorem pointers_scalarMetadata (cuargs : List CudaArg) : ∀ (start : Nat) (kinds : List PythonArgKind),
    (scalarMetadata start kinds).flatMap (·.pointers cuargs) =
      (List.range' start kinds.length).map .slot
  | _, [] => rfl
  | start, kind :: kinds => by
    rw [scalarMetadata, List.flatMap_cons, pointers_scalarMetadata, List.length_cons, List.range'_succ]
    rfl

/-! ## Where each path raises -/

def OnLong (P : Int → Prop) : PyObj → Prop
  | .long _ v => P v
  | _ => True

def LongArgs (P : Int → Prop) (args : List PyObj) : Prop := ∀ arg ∈ args, OnLong P arg

theorem longArgs_cons {P : Int → Prop} {arg : PyObj} {args : List PyObj} :
    LongArgs P (arg :: args) ↔ OnLong P arg ∧ LongArgs P args := List.forall_mem_cons

theorem pylongAsInt_raises {v : Int} (h : ¬ (InInt64 v ∨ InUInt64 v)) :
    ∃ e, pylongAsInt v = .error (.raised e) := by
  rw [not_or] at h
  rw [pylongAsInt, asLongLong, if_neg h.1, asUnsignedLongLong]
  by_cases hn : v < 0
  · rw [if_pos hn]; exact ⟨_, rfl⟩
  · rw [if_neg hn, if_neg h.2]; exact ⟨_, rfl⟩

theorem asLongLong_raises {v : Int} (h : ¬ InInt64 v) : ∃ e, asLongLong v = .error (.raised e) := by
  rw [asLongLong, if_neg h]; exact ⟨_, rfl⟩

theorem standardSlots_spec {kinds : List PythonArgKind} {args : List PyObj} (h : FastArgs kinds args) :
    (LongArgs (fun v => InInt64 v ∨ InUInt64 v) args ∧ ∃ slots, standardSlots args = .ok slots) ∨
    (¬ LongArgs (fun v => InInt64 v ∨ InUInt64 v) args ∧ ∃ e, standardSlots args = .error (.raised e)) := by
  have step {arg : PyObj} {args : List PyObj} {s : CudaArg} (hs : standardSlot arg = .ok s)
      (hl : OnLong (fun v => InInt64 v ∨ InUInt64 v) arg)
      (ih : (LongArgs (fun v => InInt64 v ∨ InUInt64 v) args ∧ ∃ slots, standardSlots args = .ok slots) ∨
        (¬ LongArgs (fun v => InInt64 v ∨ InUInt64 v) args ∧ ∃ e, standardSlots args = .error (.raised e))) :
      (LongArgs (fun v => InInt64 v ∨ InUInt64 v) (arg :: args) ∧
        ∃ slots, standardSlots (arg :: args) = .ok slots) ∨
      (¬ LongArgs (fun v => InInt64 v ∨ InUInt64 v) (arg :: args) ∧
        ∃ e, standardSlots (arg :: args) = .error (.raised e)) := by
    rw [longArgs_cons]
    rcases ih with ⟨h, slots, hr⟩ | ⟨h, e, hr⟩
    · exact .inl ⟨⟨hl, h⟩, s :: slots, by rw [standardSlots, hs, hr]; rfl⟩
    · exact .inr ⟨fun hc => h hc.2, e, by rw [standardSlots, hs, hr]; rfl⟩
  induction h with
  | nil => exact .inl ⟨List.forall_mem_nil _, [], rfl⟩
  | @long cls v _ args _ ih =>
    by_cases hv : InInt64 v ∨ InUInt64 v
    · have hs : standardSlot (.long cls v) = .ok (cudaArgI64 (wrap64 v)) := by
        rw [standardSlot, pylongAsInt_ok.mpr ⟨hv, rfl⟩]; rfl
      exact step hs hv ih
    · obtain ⟨e, he⟩ := pylongAsInt_raises hv
      refine .inr ⟨fun hc => hv (longArgs_cons.mp hc).1, e, ?_⟩
      rw [standardSlots, standardSlot, he]; rfl
  | @npInteger n _ _ _ ih =>
    obtain ⟨x, hx⟩ := npInteger_converts n
    exact step (by rw [standardSlot, hx]; rfl) trivial ih
  | float _ ih => exact step rfl trivial ih
  | npFloat32 _ ih => exact step rfl trivial ih

theorem fastLoop_spec {kinds : List PythonArgKind} {args : List PyObj} (h : FastArgs kinds args) :
    ∀ {flags : List Bool} {exs : List ScalarExtractor} (stale : List CudaArg),
    scalarExtractors kinds flags = some exs →
    (LongArgs InInt64 args ∧ ∃ slots std, fastLoop exs args stale = .ok slots ∧ standardSlots args = .ok std ∧
      slots.length = kinds.length ∧ List.zipWith readParam kinds slots = List.zipWith readParam kinds std) ∨
    (¬ LongArgs InInt64 args ∧ ∃ e, fastLoop exs args stale = .error (.raised e)) := by
  have step {kind : PythonArgKind} {kinds : List PythonArgKind} {arg : PyObj} {args : List PyObj}
      {ex : ScalarExtractor} {rest : List ScalarExtractor} {stale : List CudaArg} {s t : CudaArg}
      (hf : ex arg (stale.headD 0) = .ok s) (hs : standardSlot arg = .ok t) (hl : OnLong InInt64 arg)
      (hr : readParam kind s = readParam kind t)
      (ih : (LongArgs InInt64 args ∧ ∃ slots std, fastLoop rest args stale.tail = .ok slots ∧
          standardSlots args = .ok std ∧ slots.length = kinds.length ∧
          List.zipWith readParam kinds slots = List.zipWith readParam kinds std) ∨
        (¬ LongArgs InInt64 args ∧ ∃ e, fastLoop rest args stale.tail = .error (.raised e))) :
      (LongArgs InInt64 (arg :: args) ∧ ∃ slots std, fastLoop (ex :: rest) (arg :: args) stale = .ok slots ∧
          standardSlots (arg :: args) = .ok std ∧ slots.length = (kind :: kinds).length ∧
          List.zipWith readParam (kind :: kinds) slots = List.zipWith readParam (kind :: kinds) std) ∨
        (¬ LongArgs InInt64 (arg :: args) ∧ ∃ e, fastLoop (ex :: rest) (arg :: args) stale = .error (.raised e)) := by
    rw [longArgs_cons]
    rcases ih with ⟨h, slots, std, h1, h2, h3, h4⟩ | ⟨h, e, he⟩
    · refine .inl ⟨⟨hl, h⟩, s :: slots, t :: std, ?_, ?_, ?_, ?_⟩
      · rw [fastLoop, hf, h1]; rfl
      · rw [standardSlots, hs, h2]; rfl
      · rw [List.length_cons, List.length_cons, h3]
      · rw [List.zipWith_cons_cons, List.zipWith_cons_cons, hr, h4]
    · exact .inr ⟨fun hc => h hc.2, e, by rw [fastLoop, hf, he]; rfl⟩
  induction h with
  | nil =>
    intro flags exs stale hx
    cases hx
    exact .inl ⟨List.forall_mem_nil _, [], [], rfl, rfl, rfl, rfl⟩
  | @long cls v _ args _ ih =>
    intro flags exs stale hx
    obtain ⟨-, ex, rest, hex, hr, rfl⟩ := scalarExtractors_cons hx
    cases hex
    by_cases hv : InInt64 v
    · have hf : fastExtractPyLong (.long cls v) (stale.headD 0) = .ok (cudaArgI64 v) := by
        rw [fastExtractPyLong, asLongLong, if_pos hv]; rfl
      have hs : standardSlot (.long cls v) = .ok (cudaArgI64 v) := by
        rw [standardSlot, pylongAsInt, asLongLong, if_pos hv]; rfl
      exact step hf hs hv rfl (ih _ hr)
    · obtain ⟨e, he⟩ := asLongLong_raises hv
      refine .inr ⟨fun hc => hv (longArgs_cons.mp hc).1, e, ?_⟩
      rw [fastLoop, fastExtractPyLong, he]; rfl
  | @npInteger n _ _ _ ih =>
    intro flags exs stale hx
    obtain ⟨-, ex, rest, hex, hr, rfl⟩ := scalarExtractors_cons hx
    cases hex
    obtain ⟨x, hn⟩ := npInteger_converts n
    have hf : fastExtractNpInteger (.npInteger n) (stale.headD 0) = .ok (cudaArgI64 x) := by
      rw [fastExtractNpInteger, hn]; rfl
    have hs : standardSlot (.npInteger n) = .ok (cudaArgI64 x) := by rw [standardSlot, hn]; rfl
    exact step hf hs trivial rfl (ih _ hr)
  | float _ ih =>
    intro flags exs stale hx
    obtain ⟨-, ex, rest, hex, hr, rfl⟩ := scalarExtractors_cons hx
    cases hex
    exact step rfl rfl trivial rfl (ih _ hr)
  | @npFloat32 bits _ _ _ ih =>
    intro flags exs stale hx
    obtain ⟨-, ex, rest, hex, hr, rfl⟩ := scalarExtractors_cons hx
    cases hex
    -- The upper half of the slot is stale; the kernel reads the lower half.
    refine step rfl rfl trivial ?_ (ih _ hr)
    have hb := bits.isLt
    simp only [readParam, if_true, cudaArgF32, BitVec.toNat_append, BitVec.toNat_setWidth]
    rw [← Nat.shiftLeft_add_eq_or_of_lt hb, Nat.shiftLeft_eq]
    omega

/-! ## Agreement -/

/-- The same parameters: the same pointers and key, and equal bytes where the kernel reads. -/
def SameParams (kinds : List PythonArgKind) (p q : LaunchParams) : Prop :=
  p.cuargPointers = q.cuargPointers ∧ p.constants = q.constants ∧
    List.zipWith readParam kinds p.cuargs = List.zipWith readParam kinds q.cuargs

/-- Both paths raise, or both return the same parameters. -/
def PathsAgree (kinds : List PythonArgKind) : Result LaunchParams → Result LaunchParams → Prop
  | .error (.raised _), .error (.raised _) => True
  | .ok p, .ok q => SameParams kinds p q
  | _, _ => False

theorem fastArgs_of_classified {kinds : List PythonArgKind} {args : List PyObj} (h : Classified kinds args) :
    ∀ {flags : List Bool} {exs : List ScalarExtractor}, scalarExtractors kinds flags = some exs →
    FastArgs kinds args := by
  induction h with
  | nil => exact fun _ => .nil
  | @cons kind arg kinds args hk _ ih =>
    intro flags exs hx
    obtain ⟨-, ex, rest, hex, hr, -⟩ := scalarExtractors_cons hx
    have ih := ih hr
    obtain ⟨p, hp⟩ := hk
    cases arg with
    | long => cases hp; exact .long ih
    | float => cases hp; exact .float ih
    | npFloat32 => cases hp; exact .npFloat32 ih
    | npInteger => cases hp; exact .npInteger ih
    | enum cls v => obtain ⟨rfl, -⟩ := classifyEnumValue_kind hp; cases hex
    | npDatetime t => cases t <;> cases hp <;> cases hex
    | npVoid r => rw [classifyArg_npVoid] at hp; cases hp; cases hex
    | array ary =>
      obtain ⟨-, rfl⟩ := classifyArg_array hp
      split at hex
      · cases hex
      · split at hex <;> cases hex
    | object o => rcases classifyArg_object hp with ⟨rfl, -⟩ | ⟨rfl, -⟩ <;> cases hex
    | npFloat16 | npComplex64 | complex | deviceArray => cases hp; cases hex

/-- **Fast and standard path.** For a profile with a fast table, whatever the reused helper holds,
the two paths agree exactly when some Python integer is out of both 64-bit ranges (both raise) or
every one is in the signed range. -/
theorem fastPath_agrees_iff {driver : Driver} {profile : PythonArgProfile} {pyargs : List PyObj}
    (hclass : Classified profile.argKinds pyargs) (hfast : profile.fastExtractors ≠ []) (stale : LaunchHelper) :
    PathsAgree profile.argKinds (fastPath profile pyargs stale) (standardPath driver profile pyargs stale) ↔
      ¬ LongArgs (fun v => InInt64 v ∨ InUInt64 v) pyargs ∨ LongArgs InInt64 pyargs := by
  obtain ⟨exs, hx⟩ := scalarExtractors_of_fast hfast
  have hexs : profile.fastExtractors = exs := by rw [PythonArgProfile.fastExtractors, hx]; rfl
  have hargs := fastArgs_of_classified hclass hx
  rw [fastPath, standardPath, extractCudaArgs, extractLoop_fastArgs hargs _ _ _ hx, hexs]
  rcases fastLoop_spec hargs stale.cuargs hx with ⟨hl, slots, std, hf, hs, hlen, hread⟩ | ⟨hl, e, hf⟩
  · refine iff_of_true ?_ (.inr hl)
    rw [hf, hs]
    refine ⟨?_, rfl, by simpa [LaunchHelper.empty] using hread⟩
    simp [LaunchHelper.cuargPointers, LaunchHelper.empty, pointers_scalarMetadata, hlen, List.range_eq_range']
  · rw [hf]
    rcases standardSlots_spec hargs with ⟨hc, slots, hs⟩ | ⟨hc, e', hs⟩
    · rw [hs]
      exact iff_of_false (fun h => h) (by rintro (h | h) <;> contradiction)
    · rw [hs]
      exact iff_of_true trivial (.inl hc)

def intProfile : PythonArgProfile := ⟨[.integer], [.pyLong], [false]⟩

/-- `2 ** 63` is passed by the standard path and raises on the fast one. -/
theorem unsigned_int_paths_differ :
    Classified intProfile.argKinds [.long .int (2 ^ 63)] ∧ intProfile.fastExtractors ≠ [] ∧
    ¬ PathsAgree intProfile.argKinds (fastPath intProfile [.long .int (2 ^ 63)] .empty)
      (standardPath .idle intProfile [.long .int (2 ^ 63)] .empty) :=
  ⟨.cons ⟨_, rfl⟩ .nil, nofun, fun h => h⟩

theorem signed_int_paths_agree : PathsAgree intProfile.argKinds
    (fastPath intProfile [.long .int (-7)] .empty) (standardPath .idle intProfile [.long .int (-7)] .empty) := by
  have hclass : Classified intProfile.argKinds [.long .int (-7)] := .cons ⟨_, rfl⟩ .nil
  have hfast : intProfile.fastExtractors ≠ [] := nofun
  refine (fastPath_agrees_iff hclass hfast .empty).mpr (.inr (longArgs_cons.mpr ⟨?_, List.forall_mem_nil _⟩))
  exact show InInt64 (-7) by decide

end NumbaCudaMlir

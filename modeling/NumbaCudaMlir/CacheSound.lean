import NumbaCudaMlir.KeySound

/-!
# Reuse of unspecialised kernels

Scalars leave nothing in the key of a kernel, so a family's kernel is found by
any scalars of its parameter kinds. Where a family holds kernels only for scalars
of the kinds that are launched on it, a kernel found in the cache accepts the
Numba types of the launch.
-/

namespace NumbaCudaMlir

open CInt LaunchState Runs

/-! ## Reuse -/

def Reusable (compiled launched : PyObj) : Prop :=
  ∃ s t, typeof compiled = some s ∧ typeof launched = some t ∧ canReuseOverload s t = true

/-- Every kernel found without compilation accepts the arguments of its launch. -/
def HitsReusable (log : List LogEntry) : Prop :=
  ∀ values profile kernel, .launched values profile kernel true ∈ log →
    List.Forall₂ Reusable (LaunchValue.flattenAll kernel.values) (LaunchValue.flattenAll values)

/-! ## Kinds of scalars -/

inductive ScalarKind where
  | integer | boolean
  | enumMember (cls : EnumClass)
  | datetime (isTimedelta : Bool) (unit : String)
  | float (size : ItemSize)
  | complex (size : ItemSize)
  | record (fields : String) (itemsize : Nat)
  /-- An object by its declared type, when that is no integer and no record. -/
  | declared (t : NumbaType)
  deriving DecidableEq

def declaredKind : NumbaType → ScalarKind
  | .scalar (.integer ..) => .integer
  | .scalar (.record fields n) => .record fields n
  | t => .declared t

/-- Python and NumPy integers of every width are one kind; floats and complex numbers keep their width. -/
def PyObj.scalarKind : PyObj → Option ScalarKind
  | long .bool _ => some .boolean
  | long (.intEnum cls) _ | enum cls _ => some (.enumMember cls)
  | long _ _ | npInteger _ => some .integer
  | float .. => some (.float .s8)
  | npFloat16 _ => some (.float .s2)
  | npFloat32 _ => some (.float .s4)
  | npDatetime isTimedelta unit _ => some (.datetime isTimedelta unit)
  | npComplex64 .. => some (.complex .s8)
  | complex .. => some (.complex .s16)
  | npVoid r => some (.record r.fields r.itemsize)
  | object o => o.numbaType.map declaredKind
  | deviceArray _ | array _ => none

def ScalarKind.numbaType : ScalarKind → Option NumbaType
  | integer => none
  | boolean => some (.scalar .boolean)
  | enumMember cls => cls.memberType
  | datetime isTimedelta unit =>
    (fromDtype (if isTimedelta then .timedelta64 unit else .datetime64 unit)).map .scalar
  | float s => some (.scalar (.float s))
  | complex s => some (.scalar (.complex s))
  | record fields n => some (.scalar (.record fields n))
  | declared t => some t

theorem declaredKind_numbaType (t : NumbaType) :
    (declaredKind t = .integer ∧ ∃ b z, t = .scalar (.integer b z)) ∨ (declaredKind t).numbaType = some t := by
  cases t with
  | scalar s => cases s with
    | integer b z => exact .inl ⟨rfl, b, z, rfl⟩
    | _ => exact .inr rfl
  | _ => exact .inr rfl

theorem scalarKind_typeof {arg : PyObj} {k : ScalarKind} {t : NumbaType} (hk : arg.scalarKind = some k)
    (ht : typeof arg = some t) : (k = .integer ∧ ∃ b z, t = .scalar (.integer b z)) ∨ k.numbaType = some t := by
  have hint {v : Int} (ht : typeofInt v = some t) : ∃ b z, t = .scalar (.integer b z) := by
    rw [typeofInt] at ht
    split at ht
    · cases ht; exact ⟨_, _, rfl⟩
    split at ht
    · cases ht; exact ⟨_, _, rfl⟩
    · cases ht
  cases arg with
  | long cls v =>
    cases cls with
    | int | sub => cases hk; exact .inl ⟨rfl, hint ht⟩
    | bool | intEnum => cases hk; exact .inr ht
  | npInteger n => cases hk; cases ht; exact .inl ⟨rfl, _, _, rfl⟩
  | object o =>
    obtain ⟨t', ht', rfl⟩ := Option.map_eq_some_iff.mp hk
    have ht : o.numbaType = some t := ht
    rw [ht'] at ht
    cases ht
    exact declaredKind_numbaType t
  | deviceArray | array => cases hk
  | _ => cases hk; exact .inr ht

/-! ## The condition -/

/-- Arrays of one dtype and rank, or scalars of one kind; an integer may also stand for a pointer. -/
def SameKind (compiled launched : PyObj) : Prop :=
  match compiled.arrayType, launched.arrayType with
  | some x, some y => x = y
  | none, none => ∃ k l, compiled.scalarKind = some k ∧ launched.scalarKind = some l ∧
      (k = l ∨ l = .integer ∧ ∃ d, k = .declared (.cpointer d))
  | _, _ => False

/-- Arrays whose dtypes and ranks the kernel key does not tell apart, or scalars. -/
def SameDtypes (a b : PyObj) : Prop :=
  ∀ d n e m, a.arrayType = some (d, n) → b.arrayType = some (e, m) →
    n = m ∧ (d = e ∨ ComplexClash a b d e ∨ ComplexClash b a e d)

/-- A launch looks up its kernel only if its arguments have Numba types, and every kernel of its
family with the same arrays was compiled for arguments of the same kinds. -/
def KindsAgree (s : LaunchState) : LaunchEvent → Prop
  | .lookup i true =>
    match s.threads i with
    | .looking values profile _ =>
      (∀ arg ∈ LaunchValue.flattenAll values, ∃ t, typeof arg = some t) ∧
      ∀ k ∈ s.kernels, k.1.1 = profile.family →
        List.Forall₂ SameDtypes (LaunchValue.flattenAll k.2.values) (LaunchValue.flattenAll values) →
        List.Forall₂ SameKind (LaunchValue.flattenAll k.2.values) (LaunchValue.flattenAll values)
    | _ => True
  | _ => True

theorem sameKind_reusable {a b : PyObj} {s t : NumbaType} (h : SameKind a b) (hs : typeof a = some s)
    (ht : typeof b = some t) : canReuseOverload s t = true := by
  rw [SameKind] at h
  cases ha : a.arrayType with
  | some x =>
    cases hb : b.arrayType with
    | some y =>
      rw [ha, hb] at h
      have h : x = y := h
      subst h
      obtain ⟨d, l, r, hd, rfl⟩ := typeof_array ha hs
      obtain ⟨e, k, q, he, rfl⟩ := typeof_array hb ht
      rw [hd, Option.some.injEq] at he
      rw [he]
      exact canReuseOverload_array l k r q
    | none => rw [ha, hb] at h; cases h
  | none =>
    cases hb : b.arrayType with
    | some y => rw [ha, hb] at h; cases h
    | none =>
      rw [ha, hb] at h
      obtain ⟨k, l, hk, hl, hkl⟩ := h
      rcases hkl with rfl | ⟨rfl, d, rfl⟩
      · rcases scalarKind_typeof hk hs with ⟨rfl, c, z, rfl⟩ | hks
        · rcases scalarKind_typeof hl ht with ⟨-, c', z', rfl⟩ | hkt
          · exact canReuseOverload_integer c c' z z'
          · cases hkt
        · rcases scalarKind_typeof hl ht with ⟨rfl, -⟩ | hkt
          · cases hks
          · rw [hks, Option.some.injEq] at hkt
            rw [hkt]
            exact canReuseOverload_refl t
      · rcases scalarKind_typeof hk hs with ⟨hf, -⟩ | hks
        · cases hf
        · rcases scalarKind_typeof hl ht with ⟨-, c, z, rfl⟩ | hkt
          · cases hks
            rfl
          · cases hkt

/-! ## Hits -/

theorem effective_unspecialised : ∀ {cs ls : List Bool} {types : List PyType}, (∀ c ∈ cs, c = false) →
    (∀ l ∈ ls, l = false) → ∀ f ∈ effectiveConstantArgFlags cs ls types, f = false
  | _, _, [], _, _ => by rw [effectiveConstantArgFlags]; exact List.forall_mem_nil _
  | [], _, _ :: types, hc, _ => by
    rw [effectiveConstantArgFlags]
    · exact List.forall_mem_cons.mpr ⟨rfl, effective_unspecialised hc (List.forall_mem_nil _)⟩
    · intro _ _ _ _ h; cases h
  | _ :: _, [], _ :: types, _, hl => by
    rw [effectiveConstantArgFlags]
    · exact List.forall_mem_cons.mpr ⟨rfl, effective_unspecialised (List.forall_mem_nil _) hl⟩
    · intro _ _ _ _ _ h; cases h
  | c :: cs, l :: ls, ty :: types, hc, hl => by
    obtain ⟨rfl, hcs⟩ := List.forall_mem_cons.mp hc
    obtain ⟨rfl, hls⟩ := List.forall_mem_cons.mp hl
    rw [effectiveConstantArgFlags]
    exact List.forall_mem_cons.mpr ⟨rfl, effective_unspecialised hcs hls⟩

theorem forall₂_and_mem {α β : Type} {R : α → β → Prop} {P : α → Prop} {Q : β → Prop} {xs : List α} {ys : List β}
    (h : List.Forall₂ R xs ys) (hP : ∀ x ∈ xs, P x) (hQ : ∀ y ∈ ys, Q y) :
    List.Forall₂ (fun x y => P x ∧ Q y ∧ R x y) xs ys := by
  induction h with
  | nil => exact .nil
  | cons hr _ ih =>
    obtain ⟨hp, hps⟩ := List.forall_mem_cons.mp hP
    obtain ⟨hq, hqs⟩ := List.forall_mem_cons.mp hQ
    exact .cons ⟨hp, hq, hr⟩ (ih hps hqs)

section
variable {cfg : DispatcherConfig}

theorem sameDtypes_of_blocks {a b : PyObj} {f : Bool} {c : List ConstantArg} {s t : NumbaType} (ha : ArgBlock a f c)
    (hb : ArgBlock b f c) (hs : typeof a = some s) (ht : typeof b = some t) : SameDtypes a b := by
  intro d n e m hda heb
  cases ha with
  | plain h => rw [h] at hda; cases hda
  | literal h => rw [arrayType_of_literal h] at hda; cases hda
  | @array d' n' dl h hn hdl =>
    rw [h] at hda
    cases hda
    generalize hc : arrayConstants dl n (a.identity d) = c at hb
    cases hb with
    | plain h => rw [h] at heb; cases heb
    | literal h => rw [arrayType_of_literal h] at heb; cases heb
    | array h' hm hdl' =>
      rw [h'] at heb
      cases heb
      exact arrayConstants_inj h h' hs ht hn hm hdl hdl' hc

theorem sameDtypes_of_key (hcst : ∀ c ∈ cfg.constantArgFlags, c = false)
    (hlit : ∀ l ∈ cfg.literalArgFlags, l = false) {values : List LaunchValue} {profile : PythonArgProfile}
    {constants : List ConstantArg} {kernel : CudaKernelHandle} (h : Keyed cfg values profile constants)
    (hk : CompiledFor cfg profile.family constants kernel)
    (ht : ∀ arg ∈ LaunchValue.flattenAll values, ∃ t, typeof arg = some t) :
    (∀ arg ∈ LaunchValue.flattenAll kernel.values, ∃ t, typeof arg = some t) ∧
    List.Forall₂ SameDtypes (LaunchValue.flattenAll kernel.values) (LaunchValue.flattenAll values) := by
  obtain ⟨⟨profile', hfam, hkey⟩, hargs⟩ := hk
  obtain ⟨ts, hts, -⟩ := Option.bind_eq_some_iff.mp hargs
  have ht' := LaunchValue.typeofAll_flatten hts
  have hfalse {values : List LaunchValue} {profile : PythonArgProfile} (h : Keyed cfg values profile constants) :
      profile.constantArgFlags = List.replicate (LaunchValue.flattenAll values).length false := by
    refine List.eq_replicate_iff.mpr ⟨h.flags_length hcst, ?_⟩
    rw [h.classified.2]
    exact effective_unspecialised hcst hlit
  have hlen := congrArg List.length (hkey.arrays_eq h hfam)
  rw [List.length_map, List.length_map] at hlen
  have hflags : profile'.constantArgFlags = profile.constantArgFlags := by
    rw [hfalse hkey, hfalse h, hlen]
  have hblocks := hkey.same_blocks hcst h hfam hflags
  rw [hflags] at hblocks
  have hone := Blocks.forall₂_unzip (hflags ▸ hkey.flags_length hcst) (h.flags_length hcst) hblocks
  refine ⟨ht', (forall₂_and_mem hone ht' ht).imp ?_⟩
  intro a b ⟨⟨s, hs⟩, ⟨t, ht⟩, f, c, ha, hb⟩
  exact sameDtypes_of_blocks ha hb hs ht

/-- **Reuse of unspecialised kernels.** In every run on a dispatcher without constant and literal
parameters whose lookups all meet `KindsAgree`, every kernel found without compilation accepts the
Numba types of the launch, position by position. -/
theorem hits_reusable (hcst : ∀ c ∈ cfg.constantArgFlags, c = false) (hlit : ∀ l ∈ cfg.literalArgFlags, l = false)
    {es : List LaunchEvent} {s : LaunchState} (hok : StepsOk (step cfg) KindsAgree .init es)
    (hr : run (step cfg) .init es = some s) : HitsReusable s.log := by
  refine hits_run ?_ hok hr
  intro s i values profile constants kernel hinv hok hi hl
  simp only [KindsAgree, hi] at hok
  obtain ⟨ht, hkinds⟩ := hok
  have hkeyed : PcOk cfg (s.threads i) := hinv.threads i
  rw [hi] at hkeyed
  have hmem := mem_of_lookup hl
  obtain ⟨ht', hd⟩ := sameDtypes_of_key hcst hlit hkeyed (hinv.kernels _ hmem) ht
  refine (forall₂_and_mem (hkinds _ hmem rfl hd) ht' ht).imp ?_
  intro a b ⟨⟨s, hs⟩, ⟨t, ht⟩, hk⟩
  exact ⟨s, t, hs, ht, sameKind_reusable hk hs ht⟩

end

def launchAfterFloat (arg : PyObj) (classified : List LaunchEvent) : List LaunchEvent :=
  [.begin 0 [.leaf (.float .float 0)], .extract 0 .idle .empty, .lookup 0 true, .compiled 0 (some false),
    .begin 1 [.leaf arg]] ++ classified ++ [.extract 1 .idle .empty, .lookup 1 true]

/-- The kernel of a Python float is found by a `numpy.float32`. -/
theorem float32_runs_float64_kernel : ∃ s,
    run (step (.unspecialised 1)) .init (launchAfterFloat (.npFloat32 0) [.classify 1]) = some s ∧
    ¬ HitsReusable s.log := by
  refine ⟨_, rfl, fun h => ?_⟩
  have hf := h _ _ _ List.mem_cons_self
  obtain ⟨⟨s, t, hs, ht, hr⟩, -⟩ := List.forall₂_cons.mp hf
  cases hs
  cases ht
  exact absurd hr (by decide)

theorem float_runs_float_kernel : ∃ s,
    run (step (.unspecialised 1)) .init (launchAfterFloat (.float .npFloat64 1) []) = some s ∧
    HitsReusable s.log := by
  have hok : StepsOk (step (.unspecialised 1)) KindsAgree .init (launchAfterFloat (.float .npFloat64 1) []) := by
    refine stepsOk_cons _ rfl trivial (stepsOk_cons _ rfl trivial (stepsOk_cons _ rfl ?_ (stepsOk_cons _ rfl trivial
      (stepsOk_cons _ rfl trivial (stepsOk_cons _ rfl trivial (stepsOk_cons _ rfl ?_ trivial))))))
    · refine ⟨List.forall_mem_singleton.mpr ⟨_, rfl⟩, ?_⟩
      intro k hk
      cases hk
    · refine ⟨List.forall_mem_singleton.mpr ⟨_, rfl⟩, ?_⟩
      intro k hk _ _
      cases hk with
      | head => exact .cons ⟨_, _, rfl, rfl, .inl rfl⟩ .nil
      | tail _ hk => cases hk
  have hflags : ∀ f ∈ (DispatcherConfig.unspecialised 1).constantArgFlags, f = false := by decide
  exact ⟨_, rfl, hits_reusable hflags hflags hok rfl⟩

end NumbaCudaMlir

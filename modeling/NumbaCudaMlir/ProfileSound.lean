import NumbaCudaMlir.LaunchSound

/-!
# First launches of a profile

Between the lookup of a profile and its insertion the arguments are classified,
which calls into Python. Two launches of the same argument types that both miss
insert the same key, and the second insertion aborts the process. Where a launch
misses only while no other launch classifies its types, no insertion fails, and
every type vector keeps its one profile.
-/

namespace NumbaCudaMlir

open LaunchState Runs

/-! ## Classification by type -/

theorem classifyArg_congr {a b : PyObj} (h : a.type = b.type) (hne : ∀ cls, a.type ≠ .enum cls) :
    classifyArg a = classifyArg b := by
  by_cases hl : a.type.pyLongCheck = true
  · simp only [classifyArg, ← h, hl, if_true]
  · have he : a.type.isEnum = false := by
      cases ht : a.type with
      | enum cls => exact absurd ht (hne cls)
      | long cls => rw [ht] at hl; exact absurd rfl hl
      | _ => rfl
    simp only [classifyArg, ← h, he, Bool.false_eq_true, if_false]

theorem eq_enum_of_type {b : PyObj} {cls : EnumClass} (h : b.type = .enum cls) : ∃ value, b = .enum cls value := by
  cases b with
  | enum cls' value => cases h; exact ⟨value, rfl⟩
  | npDatetime t => cases t <;> cases h
  | npVoid r => obtain ⟨isRecord, fs, n, p⟩ := r; cases isRecord <;> cases h
  | _ => cases h

theorem classifyArg_of_type {a b : PyObj} {c : PythonArgKind × ParameterKind} (h : b.type = a.type)
    (hc : classifyArg a = .ok c) :
    (∃ p, classifyArg b = .ok (c.1, p)) ∨ (c.1 = .pyEnum ∧ ∃ cls tpName, b = .enum cls (.other tpName)) := by
  by_cases he : ∃ cls, a.type = .enum cls
  · obtain ⟨cls, he⟩ := he
    obtain ⟨value, rfl⟩ := eq_enum_of_type he
    obtain ⟨value', rfl⟩ := eq_enum_of_type (h.trans he)
    obtain ⟨hk, -⟩ := classifyEnumValue_kind hc
    rw [hk]
    cases value' with
    | other tpName => exact .inr ⟨rfl, _, _, rfl⟩
    | _ => exact .inl ⟨_, rfl⟩
  · rw [not_exists] at he
    rw [← classifyArg_congr h.symm he, hc]
    exact .inl ⟨_, rfl⟩

theorem classified_of_extractLoop {driver : Driver} {done : List (PythonArgKind × ParameterKind)} {front : List PyObj}
    (hd : List.Forall₂ (fun c arg => classifyArg arg = .ok c) done front) :
    ∀ {args : List PyObj} {flags : List Bool} {helper helper' : LaunchHelper},
    args.map PyObj.type = front.map PyObj.type →
    extractLoop driver args (done.map (·.1)) flags helper = .ok helper' → Classified (done.map (·.1)) args := by
  induction hd with
  | nil =>
    intro args _ _ _ ht _
    rw [List.map_eq_nil_iff.mp ht]
    exact .nil
  | @cons c arg done front hc _ ih =>
    intro args flags helper helper' ht hx
    cases args with
    | nil => cases ht
    | cons b args =>
      rw [List.map_cons, List.map_cons, List.cons.injEq] at ht
      rw [List.map_cons, extractLoop, bind_eq_ok] at hx
      obtain ⟨mid, hm, hx⟩ := hx
      refine .cons ?_ (ih ht.2 hx)
      rcases classifyArg_of_type ht.1 hc with hk | ⟨hk, cls, tpName, rfl⟩
      · exact hk
      · rw [hk] at hm; cases hm

theorem classified_of_fast {done : List (PythonArgKind × ParameterKind)} {front : List PyObj}
    (hd : List.Forall₂ (fun c arg => classifyArg arg = .ok c) done front) :
    ∀ {args : List PyObj} {flags : List Bool} {exs : List ScalarExtractor},
    args.map PyObj.type = front.map PyObj.type → scalarExtractors (done.map (·.1)) flags = some exs →
    Classified (done.map (·.1)) args := by
  induction hd with
  | nil =>
    intro args _ _ ht _
    rw [List.map_eq_nil_iff.mp ht]
    exact .nil
  | @cons c arg done front hc _ ih =>
    intro args flags exs ht hx
    cases args with
    | nil => cases ht
    | cons b args =>
      rw [List.map_cons, List.map_cons, List.cons.injEq] at ht
      obtain ⟨-, ex, rest, hex, hr, -⟩ := scalarExtractors_cons hx
      have hex : getScalarExtractor c.1 = some ex := hex
      refine .cons ?_ (ih ht.2 hr)
      rcases classifyArg_of_type ht.1 hc with hk | ⟨hk, -⟩
      · exact hk
      · rw [hk] at hex; cases hex

section
variable {cfg : DispatcherConfig}

theorem Keyed.classified {values : List LaunchValue} {profile : PythonArgProfile} {constants : List ConstantArg}
    (h : Keyed cfg values profile constants) :
    Classified profile.argKinds (LaunchValue.flattenAll values) ∧ profile.constantArgFlags =
      effectiveConstantArgFlags cfg.constantArgFlags cfg.literalArgFlags (pyargTypes values) := by
  obtain ⟨⟨done, front, ht, hd, rfl⟩, driver, stale, params, hx, -⟩ := h
  refine ⟨?_, rfl⟩
  rw [prepareParams] at hx
  split at hx
  · rw [standardPath, extractCudaArgs, bind_eq_ok] at hx
    obtain ⟨helper, hx, -⟩ := hx
    exact classified_of_extractLoop hd ht.symm hx
  · next hne =>
    rw [List.isEmpty_iff] at hne
    obtain ⟨exs, he⟩ := scalarExtractors_of_fast hne
    exact classified_of_fast hd ht.symm he

end

/-! ## No insertion of a bound key -/

def Pc.classifyingTypes : Pc → Option (List PyType)
  | .classifying values _ _ => some (pyargTypes values)
  | _ => none

/-- A launch misses the profiles only while no other launch classifies the same types. -/
def FirstProfileAlone (s : LaunchState) : LaunchEvent → Prop
  | .begin _ values => s.argProfiles.lookup (pyargTypes values) = none →
      ∀ j, (s.threads j).classifyingTypes ≠ some (pyargTypes values)
  | _ => True

def Unbound (argProfiles : List (List PyType × PythonArgProfile)) (pc : Pc) : Prop :=
  ∀ types, pc.classifyingTypes = some types → argProfiles.lookup types = none

structure ProfilesInv (s : LaunchState) : Prop where
  alive : s.aborted = false
  nodup : (s.argProfiles.map Prod.fst).Nodup
  unbound : ∀ i, Unbound s.argProfiles (s.threads i)
  alone : KeysUnique Pc.classifyingTypes s.threads

theorem profilesInv_init : ProfilesInv .init where
  alive := rfl
  nodup := List.nodup_nil
  unbound _ _ h := by cases h
  alone _ _ _ h := by cases h

theorem ProfilesInv.setPc {s : LaunchState} (h : ProfilesInv s) (i : Nat) {pc : Pc}
    (hpc : pc.classifyingTypes = none) : ProfilesInv (s.setPc i pc) where
  alive := h.alive
  nodup := h.nodup
  unbound := setAt_forall (fun types ht => by rw [hpc] at ht; cases ht) h.unbound fun _ _ hp => hp
  alone := h.alone.setAt fun types ht => by rw [hpc] at ht; cases ht

theorem ProfilesInv.finish {s : LaunchState} (h : ProfilesInv s) (i : Nat) (values : List LaunchValue)
    (profile : PythonArgProfile) (kernel : CudaKernelHandle) (hit : Bool) :
    ProfilesInv (s.finish i values profile kernel hit) :=
  have hs : ProfilesInv (s.setPc i .launched) := h.setPc i rfl
  { hs with }

theorem nodup_keys_concat {α β : Type} [BEq α] [LawfulBEq α] {l : List (α × β)} {k : α} {b : β}
    (hl : (l.map Prod.fst).Nodup) (hk : l.lookup k = none) : ((l ++ [(k, b)]).map Prod.fst).Nodup := by
  rw [List.lookup_eq_none_iff] at hk
  rw [List.map_append, List.nodup_append]
  refine ⟨hl, by simp, ?_⟩
  intro a ha c hc
  rw [List.map_singleton, List.mem_singleton] at hc
  obtain ⟨p, hp, rfl⟩ := List.mem_map.mp ha
  intro hpk
  exact absurd (hk p hp) (by simp [hpk, hc])

theorem ProfilesInv.classifyNext {cfg : DispatcherConfig} {s : LaunchState} (h : ProfilesInv s) {i : Nat}
    {values : List LaunchValue} {done : List (PythonArgKind × ParameterKind)} {todo : List PyObj}
    (hc : ClassifiedPrefix (LaunchValue.flattenAll values) done todo)
    (hl : s.argProfiles.lookup (pyargTypes values) = none)
    (ho : ∀ j, j ≠ i → (s.threads j).classifyingTypes ≠ some (pyargTypes values)) :
    ProfilesInv (classifyNext cfg s i values done todo) := by
  rcases classifyNext_cases cfg s i hc with ⟨_, _, _, hp, he⟩ | ⟨profile, hp, -, he⟩ | ⟨hb, -⟩
  · rw [he]
    refine { alive := h.alive, nodup := h.nodup, unbound := ?_, alone := h.alone.setAt ?_ }
    · refine setAt_forall ?_ h.unbound fun _ _ hp => hp
      intro types ht
      cases ht
      exact hl
    · intro types ht
      cases ht
      exact ho
  · rw [he]
    refine { alive := h.alive, nodup := nodup_keys_concat h.nodup hl, unbound := ?_, alone := h.alone.setAt ?_ }
    swap
    · intro types ht
      cases ht
    refine setAt_forall (fun types ht => by cases ht) h.unbound ?_
    intro j hj hu types ht
    have hne : types ≠ pyargTypes values := fun e => ho j hj (e ▸ ht)
    show (s.argProfiles ++ _).lookup types = none
    rw [List.lookup_append, hu types ht, Option.none_or, List.lookup_cons, beq_false_of_ne hne]
    rfl
  · rw [hl] at hb; cases hb

theorem profilesInv_step {cfg : DispatcherConfig} {s s' : LaunchState} {e : LaunchEvent} (hinv : Inv cfg s)
    (h : ProfilesInv s) (hok : FirstProfileAlone s e) (hs : Step cfg s e s') : ProfilesInv s' := by
  cases hs with
  | missed hi hl => exact h.classifyNext ⟨[], rfl, .nil⟩ hl fun j _ => hok hl j
  | @classified i values _ _ _ _ hi hc =>
    have hti : (s.threads i).classifyingTypes = some (pyargTypes values) := by rw [hi]; rfl
    have hp : PcOk cfg (s.threads i) := hinv.threads i
    rw [hi] at hp
    refine h.classifyNext (ClassifiedPrefix.snoc hp hc) (h.unbound i _ hti) ?_
    intro j hj ht
    exact hj (h.alone j i _ ht hti)
  | lost => exact ProfilesInv.finish (s := s.drop) { h with } _ _ _ _ _
  | emplaced kernel => exact ProfilesInv.finish (s := s.emplace _ kernel) { h with } _ _ _ _ _
  | emplacedLoading kernel => exact ProfilesInv.setPc (s := s.emplace _ kernel) { h with } _ rfl
  | loaded => exact ProfilesInv.finish (s := s.logLoaded _) { h with } _ _ _ _ _
  | hit => exact h.finish _ _ _ _ _
  | _ => exact h.setPc _ rfl

theorem profilesInv_run {cfg : DispatcherConfig} {es : List LaunchEvent} {s : LaunchState}
    (hok : StepsOk (step cfg) FirstProfileAlone .init es) (hr : run (step cfg) .init es = some s) :
    ProfilesInv s := by
  have hstep : ∀ s e s', Inv cfg s ∧ ProfilesInv s → FirstProfileAlone s e → step cfg s e = some s' →
      Inv cfg s' ∧ ProfilesInv s' := by
    intro s e s' ⟨hi, hp⟩ hok hs
    obtain ⟨-, hs⟩ := step_cases cfg hs
    exact ⟨inv_step hi hs, profilesInv_step hi hp hok hs⟩
  exact (run_inv (step cfg) hstep ⟨inv_init cfg, profilesInv_init⟩ hok hr).2

theorem profiles_step {cfg : DispatcherConfig} {s s' : LaunchState} {e : LaunchEvent} (hi : Inv cfg s)
    (hs : Step cfg s e s') : ∀ p ∈ s.argProfiles, p ∈ s'.argProfiles := by
  have hnext {i : Nat} {values : List LaunchValue} {done : List (PythonArgKind × ParameterKind)} {todo : List PyObj}
      (hc : ClassifiedPrefix (LaunchValue.flattenAll values) done todo) :
      ∀ p ∈ s.argProfiles, p ∈ (classifyNext cfg s i values done todo).argProfiles := by
    intro p hp
    rcases classifyNext_cases cfg s i hc with ⟨_, _, _, -, he⟩ | ⟨_, -, -, he⟩ | ⟨-, he⟩
    · rw [he]; exact hp
    · rw [he]; exact List.mem_append_left _ hp
    · rw [he]; exact hp
  cases hs with
  | missed hm hl => exact hnext ⟨[], rfl, .nil⟩
  | @classified i values _ _ _ _ hm hc =>
    have hp : PcOk cfg (s.threads i) := hi.threads i
    rw [hm] at hp
    exact hnext (ClassifiedPrefix.snoc hp hc)
  | _ => exact fun p hp => hp

/-- **First launches.** In every run whose launches miss the profiles only while no other launch
classifies the same types, the process is not aborted, no key is bound twice, a bound profile stays
bound, and every launch has the kinds and flags of its own arguments. -/
theorem first_launches_safe {cfg : DispatcherConfig} {es₁ es₂ : List LaunchEvent} {s₁ s₂ : LaunchState}
    (hok : StepsOk (step cfg) FirstProfileAlone .init (es₁ ++ es₂)) (h₁ : run (step cfg) .init es₁ = some s₁)
    (h₂ : run (step cfg) s₁ es₂ = some s₂) :
    s₂.aborted = false ∧ (s₂.argProfiles.map Prod.fst).Nodup ∧ (∀ p ∈ s₁.argProfiles, p ∈ s₂.argProfiles) ∧
    ∀ values profile kernel hit, .launched values profile kernel hit ∈ s₂.log →
      Classified profile.argKinds (LaunchValue.flattenAll values) ∧ profile.constantArgFlags =
        effectiveConstantArgFlags cfg.constantArgFlags cfg.literalArgFlags (pyargTypes values) := by
  have hr : run (step cfg) .init (es₁ ++ es₂) = some s₂ := by rw [run_append, h₁]; exact h₂
  have hp := profilesInv_run hok hr
  have hi₁ := inv_run (inv_init cfg) h₁
  have hgrow : Inv cfg s₂ ∧ ∀ p ∈ s₁.argProfiles, p ∈ s₂.argProfiles := by
    have hstep : ∀ s e s', (Inv cfg s ∧ ∀ p ∈ s₁.argProfiles, p ∈ s.argProfiles) → step cfg s e = some s' →
        Inv cfg s' ∧ ∀ p ∈ s₁.argProfiles, p ∈ s'.argProfiles := by
      intro s e s' ⟨hi, hsub⟩ hs
      obtain ⟨-, hs⟩ := step_cases cfg hs
      exact ⟨inv_step hi hs, fun p hp => profiles_step hi hs p (hsub p hp)⟩
    exact run_inv_all (step cfg) hstep ⟨hi₁, fun _ hp => hp⟩ h₂
  refine ⟨hp.alive, hp.nodup, hgrow.2, ?_⟩
  intro values profile kernel hit hl
  obtain ⟨constants, hk, -⟩ := hgrow.1.log _ hl
  exact hk.classified

/-- An enum member: its classification reads `Enum.value`, which is Python code. -/
def enumMember (v : Int) : LaunchValue := .leaf (.enum ⟨7, false, [.int 1, .int 2]⟩ (.int v))

/-- Two threads launch for the first time; each reads `Enum.value` before the other inserts. -/
theorem concurrent_first_launches_abort : ∃ s, run (step (.unspecialised 1)) .init
    [.begin 0 [enumMember 1], .begin 1 [enumMember 2], .classify 0, .classify 1] = some s ∧ s.aborted = true :=
  ⟨_, rfl, rfl⟩

theorem successive_first_launches_safe : ∃ s₁ s₂,
    run (step (.unspecialised 1)) .init [.begin 0 [enumMember 1], .classify 0] = some s₁ ∧
    run (step (.unspecialised 1)) s₁ [.begin 1 [enumMember 2], .extract 1 .idle .empty] = some s₂ ∧
    s₂.aborted = false ∧ (s₂.argProfiles.map Prod.fst).Nodup ∧ (∀ p ∈ s₁.argProfiles, p ∈ s₂.argProfiles) := by
  have hok : StepsOk (step (.unspecialised 1)) FirstProfileAlone .init
      ([.begin 0 [enumMember 1], .classify 0] ++ [.begin 1 [enumMember 2], .extract 1 .idle .empty]) := by
    refine stepsOk_cons _ rfl ?_ (stepsOk_cons _ rfl trivial (stepsOk_cons _ rfl ?_ (stepsOk_cons _ rfl trivial trivial)))
    · intro _ j h
      cases h
    · intro h
      cases h
  obtain ⟨alive, nodup, grow, -⟩ := first_launches_safe hok rfl rfl
  exact ⟨_, _, rfl, rfl, alive, nodup, grow⟩

end NumbaCudaMlir

import NumbaCudaMlir.Launch
import NumbaCudaMlir.FastPathSound
import Mathlib.Data.List.Forall2

/-!
# What every run of launches keeps

The steps of the launch machine as a relation, and the invariant that needs no
condition: profiles hold what the classification of some arguments of their
types gave, every kernel is keyed by the constants of the launch it was compiled
for, and every kernel that was launched has the key of its launch.
-/

namespace NumbaCudaMlir

open LaunchState

section
variable (cfg : DispatcherConfig)

/-! ## The steps -/

inductive Step (s : LaunchState) : LaunchEvent → LaunchState → Prop
  | found {i values profile} : s.threads i = .idle → s.argProfiles.lookup (pyargTypes values) = some profile →
      Step s (.begin i values) (s.setPc i (.extracting values profile))
  | missed {i values} : s.threads i = .idle → s.argProfiles.lookup (pyargTypes values) = none →
      Step s (.begin i values) (classifyNext cfg s i values [] (LaunchValue.flattenAll values))
  | classified {i values done arg todo c} : s.threads i = .classifying values done (arg :: todo) →
      classifyArg arg = .ok c → Step s (.classify i) (classifyNext cfg s i values (done ++ [c]) todo)
  | classifyRaised {i values done arg todo e} : s.threads i = .classifying values done (arg :: todo) →
      classifyArg arg = .error e → Step s (.classify i) (s.setPc i .raised)
  | extracted {i values profile driver stale params} : s.threads i = .extracting values profile →
      prepareParams driver profile (LaunchValue.flattenAll values) stale = .ok params →
      Step s (.extract i driver stale) (s.setPc i (.looking values profile params.constants))
  | extractRaised {i values profile driver stale} : s.threads i = .extracting values profile →
      Step s (.extract i driver stale) (s.setPc i .raised)
  | contextRaised {i values profile constants} : s.threads i = .looking values profile constants →
      Step s (.lookup i false) (s.setPc i .raised)
  | hit {i values profile constants kernel} : s.threads i = .looking values profile constants →
      s.kernels.lookup (profile.family, constants) = some kernel →
      Step s (.lookup i true) (s.finish i values profile kernel true)
  | miss {i values profile constants} : s.threads i = .looking values profile constants →
      Step s (.lookup i true) (s.setPc i (.compiling values profile constants))
  | compileRaised {i values profile constants} : s.threads i = .compiling values profile constants →
      Step s (.compiled i none) (s.setPc i .raised)
  | lost {i values profile constants cb first} : s.threads i = .compiling values profile constants →
      s.kernels.lookup (profile.family, constants) = some first →
      Step s (.compiled i (some cb)) (s.drop.finish i values profile first false)
  | emplaced {i values profile constants argtypes} (kernel : CudaKernelHandle) :
      s.threads i = .compiling values profile constants →
      compileArgtypes cfg.literalArgFlags values = some argtypes →
      s.kernels.lookup (profile.family, constants) = none → kernel = ⟨s.nextLib, false, values, argtypes⟩ →
      Step s (.compiled i (some false))
        ((s.emplace (profile.family, constants) kernel).finish i values profile kernel false)
  | emplacedLoading {i values profile constants argtypes} (kernel : CudaKernelHandle) :
      s.threads i = .compiling values profile constants →
      compileArgtypes cfg.literalArgFlags values = some argtypes →
      s.kernels.lookup (profile.family, constants) = none → kernel = ⟨s.nextLib, true, values, argtypes⟩ →
      Step s (.compiled i (some true))
        ((s.emplace (profile.family, constants) kernel).setPc i (.loading values profile kernel))
  | loaded {i values profile kernel} : s.threads i = .loading values profile kernel →
      Step s (.callback i true) ((s.logLoaded kernel.lib).finish i values profile kernel false)
  | callbackRaised {i values profile kernel} : s.threads i = .loading values profile kernel →
      Step s (.callback i false) (s.setPc i (.callbackRaised kernel))

theorem step_cases {s s' : LaunchState} {e : LaunchEvent} (h : step cfg s e = some s') :
    s.aborted = false ∧ Step cfg s e s' := by
  unfold step at h
  by_cases ha : s.aborted = true
  · rw [if_pos ha] at h; cases h
  rw [if_neg ha] at h
  refine ⟨by simpa using ha, ?_⟩
  cases e with
  | begin i values =>
    cases hp : s.threads i with
    | idle =>
      simp only [hp] at h
      cases hl : s.argProfiles.lookup (pyargTypes values) with
      | some profile => rw [hl] at h; cases h; exact .found hp hl
      | none => rw [hl] at h; cases h; exact .missed hp hl
    | _ => simp only [hp] at h; cases h
  | classify i =>
    cases hp : s.threads i with
    | classifying values done todo =>
      cases todo with
      | nil => simp only [hp] at h; cases h
      | cons arg todo =>
        simp only [hp] at h
        cases hc : classifyArg arg with
        | ok c => rw [hc] at h; cases h; exact .classified hp hc
        | error e => rw [hc] at h; cases h; exact .classifyRaised hp hc
    | _ => simp only [hp] at h; cases h
  | extract i driver stale =>
    cases hp : s.threads i with
    | extracting values profile =>
      simp only [hp] at h
      cases hx : prepareParams driver profile (LaunchValue.flattenAll values) stale with
      | ok params => rw [hx] at h; cases h; exact .extracted hp hx
      | error e =>
        rw [hx] at h
        cases e with
        | raised e => cases h; exact .extractRaised hp
        | undefined => cases h
    | _ => simp only [hp] at h; cases h
  | lookup i contextOk =>
    cases hp : s.threads i with
    | looking values profile constants =>
      simp only [hp] at h
      cases contextOk with
      | false => cases h; exact .contextRaised hp
      | true =>
        rw [if_neg (by decide)] at h
        cases hl : s.kernels.lookup (profile.family, constants) with
        | some kernel => rw [hl] at h; cases h; exact .hit hp hl
        | none => rw [hl] at h; cases h; exact .miss hp
    | _ => simp only [hp] at h; cases h
  | compiled i result =>
    cases hp : s.threads i with
    | compiling values profile constants =>
      cases result with
      | none => simp only [hp] at h; cases h; exact .compileRaised hp
      | some cb =>
        simp only [hp, Option.map_eq_some_iff] at h
        obtain ⟨argtypes, ht, h⟩ := h
        cases hl : s.kernels.lookup (profile.family, constants) with
        | some first => rw [hl] at h; cases h; exact .lost hp hl
        | none =>
          rw [hl] at h
          cases cb with
          | false => cases h; exact .emplaced _ hp ht hl rfl
          | true => cases h; exact .emplacedLoading _ hp ht hl rfl
    | _ => cases result <;> simp only [hp] at h <;> cases h
  | callback i ok =>
    cases hp : s.threads i with
    | loading values profile kernel =>
      simp only [hp] at h
      cases ok with
      | true => cases h; exact .loaded hp
      | false => cases h; exact .callbackRaised hp
    | _ => simp only [hp] at h; cases h

/-! ## Classification -/

def ClassifiedPrefix (args : List PyObj) (done : List (PythonArgKind × ParameterKind)) (todo : List PyObj) : Prop :=
  ∃ front, args = front ++ todo ∧ List.Forall₂ (fun c arg => classifyArg arg = .ok c) done front

theorem ClassifiedPrefix.snoc {args : List PyObj} {done : List (PythonArgKind × ParameterKind)} {arg : PyObj}
    {todo : List PyObj} {c : PythonArgKind × ParameterKind} (h : ClassifiedPrefix args done (arg :: todo))
    (hc : classifyArg arg = .ok c) : ClassifiedPrefix args (done ++ [c]) todo := by
  obtain ⟨front, rfl, hf⟩ := h
  exact ⟨front ++ [arg], by simp, List.rel_append hf (.cons hc .nil)⟩

theorem classifyPlain_prefix {args : List PyObj} : ∀ {todo : List PyObj} {done : List (PythonArgKind × ParameterKind)},
    ClassifiedPrefix args done todo →
    ClassifiedPrefix args (classifyPlain done todo).1 (classifyPlain done todo).2 := by
  intro todo
  induction todo with
  | nil => intro done h; exact h
  | cons arg todo ih =>
    intro done h
    cases arg with
    | long cls v => exact ih (h.snoc rfl)
    | float cls bits => exact ih (h.snoc rfl)
    | _ => exact h

def ProfileOk (types : List PyType) (profile : PythonArgProfile) : Prop :=
  ∃ done args, args.map PyObj.type = types ∧ List.Forall₂ (fun c arg => classifyArg arg = .ok c) done args ∧
    profile = newProfile cfg types done

theorem classifyNext_cases (s : LaunchState) (i : Nat) {values : List LaunchValue}
    {done : List (PythonArgKind × ParameterKind)} {todo : List PyObj}
    (h : ClassifiedPrefix (LaunchValue.flattenAll values) done todo) :
    (∃ done' arg todo', ClassifiedPrefix (LaunchValue.flattenAll values) done' (arg :: todo') ∧
      classifyNext cfg s i values done todo = s.setPc i (.classifying values done' (arg :: todo'))) ∨
    (∃ profile, ProfileOk cfg (pyargTypes values) profile ∧ s.argProfiles.lookup (pyargTypes values) = none ∧
      classifyNext cfg s i values done todo =
        (s.bindProfile (pyargTypes values) profile).setPc i (.extracting values profile)) ∨
    ((s.argProfiles.lookup (pyargTypes values)).isSome ∧
      classifyNext cfg s i values done todo = { s with aborted := true }) := by
  have hp := classifyPlain_prefix h
  rw [classifyNext]
  cases hc : classifyPlain done todo with
  | mk done' todo' =>
    rw [hc] at hp
    cases todo' with
    | cons arg todo' => exact .inl ⟨_, _, _, hp, rfl⟩
    | nil =>
      obtain ⟨front, hf, hd⟩ := hp
      rw [List.append_nil] at hf
      simp only [insertProfile]
      cases hl : s.argProfiles.lookup (pyargTypes values) with
      | some profile => exact .inr (.inr ⟨rfl, rfl⟩)
      | none => exact .inr (.inl ⟨_, ⟨_, _, rfl, hf ▸ hd, rfl⟩, rfl, rfl⟩)

/-! ## The invariant -/

/-- The constants an argument list is keyed by, under the profile of its types. -/
structure Keyed (values : List LaunchValue) (profile : PythonArgProfile) (constants : List ConstantArg) : Prop where
  profile_ok : ProfileOk cfg (pyargTypes values) profile
  extracted : ∃ driver stale params,
    prepareParams driver profile (LaunchValue.flattenAll values) stale = .ok params ∧ params.constants = constants

structure CompiledFor (family : List ParameterKind) (constants : List ConstantArg) (kernel : CudaKernelHandle) :
    Prop where
  keyed : ∃ profile, profile.family = family ∧ Keyed cfg kernel.values profile constants
  argtypes : compileArgtypes cfg.literalArgFlags kernel.values = some kernel.argtypes

def SameKey (values : List LaunchValue) (profile : PythonArgProfile) (kernel : CudaKernelHandle) : Prop :=
  ∃ constants, Keyed cfg values profile constants ∧ CompiledFor cfg profile.family constants kernel

def PcOk : Pc → Prop
  | .classifying values done todo => ClassifiedPrefix (LaunchValue.flattenAll values) done todo
  | .extracting values profile => ProfileOk cfg (pyargTypes values) profile
  | .looking values profile constants | .compiling values profile constants => Keyed cfg values profile constants
  | .loading values profile kernel => SameKey cfg values profile kernel
  | _ => True

def LogOk : LogEntry → Prop
  | .loaded _ => True
  | .launched values profile kernel _ => SameKey cfg values profile kernel

structure Inv (s : LaunchState) : Prop where
  profiles : ∀ p ∈ s.argProfiles, ProfileOk cfg p.1 p.2
  kernels : ∀ k ∈ s.kernels, CompiledFor cfg k.1.1 k.1.2 k.2
  threads : ∀ i, PcOk cfg (s.threads i)
  log : ∀ e ∈ s.log, LogOk cfg e

theorem inv_init : Inv cfg .init where
  profiles := nofun
  kernels := nofun
  threads _ := trivial
  log := nofun

variable {cfg}

theorem Inv.setPc {s : LaunchState} (h : Inv cfg s) {i : Nat} {pc : Pc} (hpc : PcOk cfg pc) :
    Inv cfg (s.setPc i pc) :=
  { h with threads := Runs.setAt_forall hpc h.threads fun _ _ hp => hp }

theorem Inv.finish {s : LaunchState} (h : Inv cfg s) {i : Nat} {values : List LaunchValue}
    {profile : PythonArgProfile} {kernel : CudaKernelHandle} (hk : SameKey cfg values profile kernel) (hit : Bool) :
    Inv cfg (s.finish i values profile kernel hit) where
  profiles := h.profiles
  kernels := h.kernels
  threads := Runs.setAt_forall trivial h.threads fun _ _ hp => hp
  log := List.forall_mem_cons.mpr ⟨hk, h.log⟩

theorem Inv.bindProfile {s : LaunchState} (h : Inv cfg s) {types : List PyType} {profile : PythonArgProfile}
    (hp : ProfileOk cfg types profile) : Inv cfg (s.bindProfile types profile) :=
  { h with profiles := List.forall_mem_append.mpr ⟨h.profiles, List.forall_mem_singleton.mpr hp⟩ }

theorem Inv.emplace {s : LaunchState} (h : Inv cfg s) {family : List ParameterKind} {constants : List ConstantArg}
    {kernel : CudaKernelHandle} (hk : CompiledFor cfg family constants kernel) :
    Inv cfg (s.emplace (family, constants) kernel) :=
  { h with kernels := List.forall_mem_append.mpr ⟨h.kernels, List.forall_mem_singleton.mpr hk⟩ }

theorem mem_of_lookup {α β : Type} [BEq α] [LawfulBEq α] {l : List (α × β)} {k : α} {b : β}
    (h : l.lookup k = some b) : (k, b) ∈ l := by
  obtain ⟨l₁, l₂, rfl, -⟩ := List.lookup_eq_some_iff.mp h
  simp

theorem Inv.logLoaded {s : LaunchState} (h : Inv cfg s) (lib : Nat) : Inv cfg (s.logLoaded lib) :=
  { h with log := List.forall_mem_cons.mpr ⟨trivial, h.log⟩ }

theorem Inv.classifyNext {s : LaunchState} (h : Inv cfg s) {i : Nat} {values : List LaunchValue}
    {done : List (PythonArgKind × ParameterKind)} {todo : List PyObj}
    (hc : ClassifiedPrefix (LaunchValue.flattenAll values) done todo) :
    Inv cfg (classifyNext cfg s i values done todo) := by
  rcases classifyNext_cases cfg s i hc with ⟨_, _, _, hp, he⟩ | ⟨_, hp, -, he⟩ | ⟨-, he⟩
  · rw [he]; exact h.setPc hp
  · rw [he]; exact (h.bindProfile hp).setPc hp
  · rw [he]; exact { h with }

theorem inv_step {s s' : LaunchState} {e : LaunchEvent} (h : Inv cfg s) (hs : Step cfg s e s') : Inv cfg s' := by
  have hpc {i : Nat} {pc : Pc} (hi : s.threads i = pc) : PcOk cfg pc := hi ▸ h.threads i
  cases hs with
  | found hi hl => exact h.setPc (h.profiles _ (mem_of_lookup hl))
  | missed hi hl => exact h.classifyNext ⟨[], rfl, .nil⟩
  | classified hi hc => exact h.classifyNext (ClassifiedPrefix.snoc (hpc hi) hc)
  | extracted hi hx => exact h.setPc ⟨hpc hi, _, _, _, hx, rfl⟩
  | hit hi hl => exact h.finish ⟨_, hpc hi, h.kernels _ (mem_of_lookup hl)⟩ true
  | miss hi =>
    have hkeyed : Keyed cfg _ _ _ := hpc hi
    exact h.setPc hkeyed
  | lost hi hl =>
    have hd : Inv cfg s.drop := { h with }
    exact hd.finish ⟨_, hpc hi, h.kernels _ (mem_of_lookup hl)⟩ false
  | emplaced kernel hi ht hl hk =>
    subst hk
    have hkeyed : Keyed cfg _ _ _ := hpc hi
    exact (h.emplace ⟨⟨_, rfl, hkeyed⟩, ht⟩).finish ⟨_, hkeyed, ⟨_, rfl, hkeyed⟩, ht⟩ false
  | emplacedLoading kernel hi ht hl hk =>
    subst hk
    have hkeyed : Keyed cfg _ _ _ := hpc hi
    exact (h.emplace ⟨⟨_, rfl, hkeyed⟩, ht⟩).setPc ⟨_, hkeyed, ⟨_, rfl, hkeyed⟩, ht⟩
  | loaded hi => exact (h.logLoaded _).finish (hpc hi) false
  | classifyRaised | extractRaised | contextRaised | compileRaised | callbackRaised => exact h.setPc trivial

theorem inv_run {es : List LaunchEvent} {s s' : LaunchState} (h : Inv cfg s)
    (hr : Runs.run (step cfg) s es = some s') : Inv cfg s' :=
  Runs.run_inv_all (step cfg) (fun _ _ _ hi hs => inv_step hi (step_cases cfg hs).2) h hr

/-! ## Hits -/

theorem classifyNext_log (s : LaunchState) (i : Nat) (values : List LaunchValue)
    (done : List (PythonArgKind × ParameterKind)) (todo : List PyObj) :
    (classifyNext cfg s i values done todo).log = s.log := by
  rw [classifyNext]
  split
  · rw [insertProfile]
    split <;> rfl
  · rfl

/-- What every launch of a kernel it found has. -/
def OfHits (Q : List LaunchValue → CudaKernelHandle → Prop) (log : List LogEntry) : Prop :=
  ∀ values profile kernel, .launched values profile kernel true ∈ log → Q values kernel

theorem OfHits.step {Q : List LaunchValue → CudaKernelHandle → Prop} {s s' : LaunchState} {e : LaunchEvent}
    (h : OfHits Q s.log) (hs : Step cfg s e s')
    (hhit : ∀ i values profile constants kernel, e = .lookup i true → s.threads i = .looking values profile constants →
      s.kernels.lookup (profile.family, constants) = some kernel → Q values kernel) : OfHits Q s'.log := by
  have hmiss {entry : LogEntry} (he : ∀ values profile kernel, entry ≠ .launched values profile kernel true)
      {log : List LogEntry} (h : OfHits Q log) : OfHits Q (entry :: log) := by
    intro values profile kernel hm
    rcases List.mem_cons.mp hm with hm | hm
    · exact absurd hm.symm (he values profile kernel)
    · exact h values profile kernel hm
  cases hs with
  | hit hi hl =>
    intro values profile kernel hm
    rcases List.mem_cons.mp hm with hm | hm
    · cases hm; exact hhit _ _ _ _ _ rfl hi hl
    · exact h values profile kernel hm
  | missed | classified => rw [classifyNext_log]; exact h
  | lost | emplaced => exact hmiss (by intro _ _ _ he; cases he) h
  | loaded => exact hmiss (by intro _ _ _ he; cases he) (hmiss (by intro _ _ _ he; cases he) h)
  | _ => exact h

/-- **The rule for hits.** What holds of every hit whose lookup meets the condition holds of every
hit of a run whose lookups all meet it. -/
theorem hits_run {ok : LaunchState → LaunchEvent → Prop} {Q : List LaunchValue → CudaKernelHandle → Prop}
    (hhit : ∀ s i values profile constants kernel, Inv cfg s → ok s (.lookup i true) →
      s.threads i = .looking values profile constants →
      s.kernels.lookup (profile.family, constants) = some kernel → Q values kernel)
    {es : List LaunchEvent} {s : LaunchState} (hok : Runs.StepsOk (step cfg) ok .init es)
    (hr : Runs.run (step cfg) .init es = some s) : OfHits Q s.log := by
  have hstep : ∀ s e s', Inv cfg s ∧ OfHits Q s.log → ok s e → NumbaCudaMlir.step cfg s e = some s' →
      Inv cfg s' ∧ OfHits Q s'.log := by
    intro s e s' ⟨hi, h⟩ hok hs
    obtain ⟨-, hs⟩ := step_cases cfg hs
    refine ⟨inv_step hi hs, h.step hs ?_⟩
    intro i values profile constants kernel he hp hl
    subst he
    exact hhit s i values profile constants kernel hi hok hp hl
  exact (Runs.run_inv (NumbaCudaMlir.step cfg) hstep ⟨inv_init cfg, nofun⟩ hok hr).2

end

end NumbaCudaMlir

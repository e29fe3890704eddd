import NumbaCudaMlir.LaunchSpecializationTables

/-!
# Soundness of specialisation by launch config

A launch with active metadata is bound to a native dispatcher that was made for
its own key, and what is compiled on the way to it is compiled for that key.
The tables agree with each other as long as a result is kept under a registered
key and for types that the signature is reusable for.
-/

namespace NumbaCudaMlir.LaunchSpecialization

open Recompile (Ready bindLauncher rebinds rebind adjust)

/-! ## Invariant -/

section
variable (usesLaunchConfig : Nat → Bool) (normalize : List NumbaType → List NumbaType) (d : DispatcherState)

structure LaunchOk (l : Launch) (launcher : Launcher) : Prop where
  marshaller : ∃ m : Marshaller, d.marshallers[l.marshaller]? = some m ∧
    m.availableLaunchConfig = l.availableLaunchConfig ∧ m.extensions = l.extensions
  fits : Fits l.availableLaunchConfig launcher.config

def Active (l : Launch) (launchConfig : Option LaunchConfig) : Prop :=
  ∀ config, launchConfig = some config →
    config.key = l.availableLaunchConfig.key ∧ Shown usesLaunchConfig d l.extensions

structure ConfiguredOk (l : Launch) (m : Marshaller) : Prop where
  inv : MarshallerInv usesLaunchConfig d m
  available : m.availableLaunchConfig = l.availableLaunchConfig
  extensions : m.extensions = l.extensions

/-- The native dispatcher of a launch is made for the key of its active metadata. -/
def Bound (l : Launch) (kd : Nat) (launchConfig : Option LaunchConfig) : Prop :=
  Active usesLaunchConfig d l launchConfig ∧ MadeFor d kd (launchConfig.map LaunchConfig.key)

def GoalInv : Goal → Prop
  | .prepare l launcher m => LaunchOk d l launcher ∧ ConfiguredOk usesLaunchConfig d l m
  | .native l launcher config _ => LaunchOk d l launcher ∧ Bound usesLaunchConfig d l launcher.kernelDispatcher config
  | .rebuild .. => True

/-- Metadata that a native launch may be compiled with. -/
def Suits (shown : Option LaunchConfig) : Goal → Prop
  | .native _ _ launchConfig _ => ∀ config, launchConfig = some config → shown = some config.key
  | _ => True

def PhaseInv (goal : Goal) : CompilePhase → Prop
  | .start _ => True
  | .looking a | .compiling a => Suits a.launchConfig goal
  | .publishing a r => Suits a.launchConfig goal ∧ r.launchConfig = a.launchConfig ∧ r.signature = normalize a.argtypes

def PcInv : Pc → Prop
  | .idle => True
  | .configuring enabled extensions _ => enabled = true → Shown usesLaunchConfig d extensions
  | .entered l launcher => LaunchOk d l launcher
  | .preparing l launcher m | .prepared l launcher m => LaunchOk d l launcher ∧ ConfiguredOk usesLaunchConfig d l m
  | .compiling goal phase => GoalInv usesLaunchConfig d goal ∧ PhaseInv normalize goal phase
  | .selecting l launcher m config _ =>
    LaunchOk d l launcher ∧ ConfiguredOk usesLaunchConfig d l m ∧ Active usesLaunchConfig d l config ∧
      (config.isSome = true → m.launchConfig = none → d.requiresLaunchConfig = true)
  | .registering l launcher config _ => LaunchOk d l launcher ∧ Active usesLaunchConfig d l (some config)
  | .binding l launcher ready =>
    LaunchOk d l launcher ∧ Bound usesLaunchConfig d l ready.kernelDispatcher ready.launchConfig
  | .launching l launcher config => LaunchOk d l launcher ∧ Bound usesLaunchConfig d l launcher.kernelDispatcher config
  | .emplacing l launcher config key r =>
    GoalInv usesLaunchConfig d (.native l launcher config key) ∧ Suits r.launchConfig (.native l launcher config key)

end

/-- The kernel was compiled for the launch's own config, and is launched with it. -/
def RanOwn (x : Ran) : Prop :=
  ∀ config, x.launchConfig = some config → x.kernel.launchConfig = some x.own.key ∧ Fits x.own x.launcher.config

section
variable (usesLaunchConfig : Nat → Bool) (normalize : List NumbaType → List NumbaType)

structure Inv (s : State) : Prop where
  dispatcher : DispatcherInv usesLaunchConfig s.d
  threads : ∀ i, PcInv usesLaunchConfig normalize s.d (s.threads i)
  log : ∀ x ∈ s.log, RanOwn x

end

section
variable {usesLaunchConfig : Nat → Bool} {normalize : List NumbaType → List NumbaType} {d d' : DispatcherState}

theorem Active.later (hl : Later d d') {l : Launch} {config : Option LaunchConfig} (h : Active usesLaunchConfig d l config) :
    Active usesLaunchConfig d' l config :=
  fun c hc => ⟨(h c hc).1, (h c hc).2.later hl⟩

theorem LaunchOk.later (hl : Later d d') {l : Launch} {launcher : Launcher} (h : LaunchOk d l launcher) : LaunchOk d' l launcher := by
  obtain ⟨m, hm, ha, he⟩ := h.marshaller
  obtain ⟨m', hm', ha', he'⟩ := hl.marshallers _ m hm
  exact ⟨⟨m', hm', ha'.trans ha, he'.trans he⟩, h.fits⟩

theorem ConfiguredOk.later (hl : Later d d') {l : Launch} {m : Marshaller} (h : ConfiguredOk usesLaunchConfig d l m) :
    ConfiguredOk usesLaunchConfig d' l m :=
  ⟨h.inv.later hl, h.available, h.extensions⟩

theorem Bound.later (hl : Later d d') {l : Launch} {kd : Nat} {config : Option LaunchConfig}
    (h : Bound usesLaunchConfig d l kd config) : Bound usesLaunchConfig d' l kd config :=
  ⟨h.1.later hl, hl.made _ _ h.2⟩

theorem GoalInv.later (hl : Later d d') {goal : Goal} (h : GoalInv usesLaunchConfig d goal) : GoalInv usesLaunchConfig d' goal := by
  cases goal with
  | prepare => exact ⟨h.1.later hl, h.2.later hl⟩
  | native => exact ⟨h.1.later hl, h.2.later hl⟩
  | rebuild => trivial

theorem PcInv.later (hl : Later d d') {pc : Pc} (h : PcInv usesLaunchConfig normalize d pc) : PcInv usesLaunchConfig normalize d' pc := by
  cases pc with
  | idle => trivial
  | configuring => exact fun he => (h he).later hl
  | entered => exact LaunchOk.later hl h
  | preparing | prepared => exact ⟨h.1.later hl, h.2.later hl⟩
  | compiling => exact ⟨h.1.later hl, h.2⟩
  | selecting => exact ⟨h.1.later hl, h.2.1.later hl, h.2.2.1.later hl, fun hs hn => hl.requires (h.2.2.2 hs hn)⟩
  | registering => exact ⟨h.1.later hl, h.2.later hl⟩
  | binding | launching => exact ⟨h.1.later hl, h.2.later hl⟩
  | emplacing => exact ⟨h.1.later hl, h.2⟩

variable {s : State} {i : Nat}

theorem Inv.dispatch (hi : Inv usesLaunchConfig normalize s) (hd : Keeps usesLaunchConfig s.d d) :
    Inv usesLaunchConfig normalize (s.setD d) :=
  ⟨hd.inv hi.dispatcher, fun j => (hi.threads j).later hd.later, hi.log⟩

theorem Inv.move (hi : Inv usesLaunchConfig normalize s) {pc : Pc} (hpc : PcInv usesLaunchConfig normalize s.d pc) :
    Inv usesLaunchConfig normalize (s.setPc i pc) := by
  refine ⟨hi.dispatcher, ?_, hi.log⟩
  exact Runs.setAt_forall (P := fun _ => PcInv usesLaunchConfig normalize s.d)
    (Q := fun _ => PcInv usesLaunchConfig normalize s.d) hpc hi.threads fun _ _ h => h

theorem Inv.go (hi : Inv usesLaunchConfig normalize s) (hd : Keeps usesLaunchConfig s.d d) {pc : Pc}
    (hpc : PcInv usesLaunchConfig normalize d pc) : Inv usesLaunchConfig normalize ((s.setD d).setPc i pc) :=
  (hi.dispatch hd).move hpc

theorem Inv.ran (hi : Inv usesLaunchConfig normalize s) (hd : Keeps usesLaunchConfig s.d d) {l : Launch} {launcher : Launcher}
    {config : Option LaunchConfig} {kernel : CompileResult} (hl : LaunchOk s.d l launcher)
    (ha : Active usesLaunchConfig s.d l config) (hk : ∀ c, config = some c → kernel.launchConfig = some c.key) :
    Inv usesLaunchConfig normalize ((s.setD d).ran i l launcher config kernel) := by
  have hm : Inv usesLaunchConfig normalize ((s.setD d).setPc i .idle) := hi.go hd trivial
  refine ⟨hm.dispatcher, hm.threads, ?_⟩
  intro x hx
  rcases List.mem_cons.mp hx with rfl | hx
  · intro c hc
    exact ⟨by rw [hk c hc, (ha c hc).1], hl.fits⟩
  · exact hi.log x hx

/-! ## Ready launches -/

theorem active_of_configured {l : Launch} {m : Marshaller} (hm : ConfiguredOk usesLaunchConfig d l m) :
    Active usesLaunchConfig d l (d.activeLaunchConfig m) := by
  intro config hc
  unfold DispatcherState.activeLaunchConfig at hc
  split at hc
  · next hr =>
    cases hc
    rw [key_key, hm.available]
    exact ⟨rfl, .inl hr⟩
  · obtain ⟨hkey, hshown⟩ := hm.inv.own config hc
    rw [hm.available] at hkey
    rw [hm.extensions] at hshown
    exact ⟨hkey, hshown⟩

theorem requires_of_active {m : Marshaller} (h : (d.activeLaunchConfig m).isSome = true) (hn : m.launchConfig = none) :
    d.requiresLaunchConfig = true := by
  unfold DispatcherState.activeLaunchConfig at h
  split at h
  · next hr => exact hr
  · rw [hn] at h; cases h

theorem bound_of_ready (hi : DispatcherInv usesLaunchConfig d) {l : Launch} {m : Marshaller}
    (hm : ConfiguredOk usesLaunchConfig d l m) {argtypes : List NumbaType} {ready : Ready}
    (h : d.getReadyLaunch argtypes m = some ready) : Bound usesLaunchConfig d l ready.kernelDispatcher ready.launchConfig := by
  unfold DispatcherState.getReadyLaunch at h
  split at h
  · split at h
    · split at h
      · cases h
      · cases h; exact ⟨nofun, hi.c⟩
    · cases h
  · have ha := active_of_configured hm
    split at h
    · cases h
    · next config hconfig =>
      rw [hconfig] at ha
      split at h
      · split at h
        · cases h
        · next hcur =>
          cases h
          have htable := Decidable.not_not.mp fun h => hcur (.inr h)
          exact ⟨ha, hi.entries.table _ _ htable⟩
      · cases h

theorem Inv.prepare {l : Launch} {launcher : Launcher} {m : Marshaller} (hi : Inv usesLaunchConfig normalize s)
    (hl : LaunchOk s.d l launcher) (hm : ConfiguredOk usesLaunchConfig s.d l m) :
    Inv usesLaunchConfig normalize (prepare s i l launcher m) := by
  have ha := active_of_configured hm
  unfold LaunchSpecialization.prepare
  split
  · exact hi.move trivial
  split
  · next ready hready =>
    have hk : Keeps usesLaunchConfig s.d (s.d.touch ready) := keeps_touch ready
    exact hi.go hk ⟨hl.later hk.later, (bound_of_ready hi.dispatcher hm hready).later hk.later⟩
  dsimp only
  split
  · exact hi.move ⟨hl, hm, ha, requires_of_active⟩
  · have hk : Keeps usesLaunchConfig s.d (s.d.restore m (s.d.activeLaunchConfig m)) := by
      apply keeps_restore hm.inv
      intro key hkey
      rw [(ha key hkey).1, hm.available]
    exact hi.go hk ⟨⟨hl.later hk.later, hm.later hk.later⟩, trivial⟩

theorem Inv.lookAgain {l : Launch} {launcher : Launcher} {m : Marshaller} (hi : Inv usesLaunchConfig normalize s)
    (hl : LaunchOk s.d l launcher) (hm : ConfiguredOk usesLaunchConfig s.d l m) :
    Inv usesLaunchConfig normalize (lookAgain s i l launcher m) := by
  unfold LaunchSpecialization.lookAgain
  dsimp only
  split
  · exact hi.move ⟨hl, hm, active_of_configured hm, requires_of_active⟩
  · exact hi.move trivial

theorem Inv.select {l : Launch} {launcher : Launcher} {m : Marshaller} {config : Option LaunchConfig} {smem : Int}
    (hi : Inv usesLaunchConfig normalize s) (hpc : PcInv usesLaunchConfig normalize s.d (.selecting l launcher m config smem)) :
    Inv usesLaunchConfig normalize (select usesLaunchConfig s i l launcher m config smem) := by
  obtain ⟨hl, hm, ha, hreq⟩ := hpc
  unfold LaunchSpecialization.select
  split
  · exact hi.move ⟨hl, nofun, hi.dispatcher.c⟩
  · next config configured hconf =>
    split
    · exact hi.move ⟨hl, ha⟩
    split
    · next hreg =>
      have hreg : _ ∧ s.d.launchConfigDispatchers.get configured.key = some m.kernelDispatcher := of_decide_eq_true hreg
      refine hi.move ⟨hl, ?_, hi.dispatcher.entries.table _ _ hreg.2⟩
      intro c hc
      cases hc
      obtain ⟨hkey, hshown⟩ := hm.inv.own configured hconf
      rw [hm.available] at hkey
      rw [hm.extensions] at hshown
      exact ⟨hkey, hshown⟩
    · exact hi.move ⟨hl, ha⟩
  · next config hnone =>
    split
    · exact hi.move ⟨hl, ha⟩
    · next hdis =>
      exfalso
      apply hdis
      unfold DispatcherState.launchConfigEnabled
      rw [hreq rfl hnone]
      rfl

/-! ## Registration -/

theorem Inv.register {l : Launch} {launcher : Launcher} {config : LaunchConfig} {smem : Int}
    (hi : Inv usesLaunchConfig normalize s) (hl : LaunchOk s.d l launcher) (ha : Active usesLaunchConfig s.d l (some config)) :
    Inv usesLaunchConfig normalize (register s i l launcher config smem) := by
  have hk : Keeps usesLaunchConfig s.d (s.d.getLaunchConfigDispatcher config.key).1 := keeps_getLaunchConfigDispatcher _
  exact hi.go hk ⟨hl.later hk.later, ha.later hk.later, madeFor_getLaunchConfigDispatcher hi.dispatcher _⟩

theorem marshaller_inv {enabled : Bool} {extensions : List Nat} {config : LaunchConfig} {kd : Nat} {generation : Option Nat}
    (hshown : enabled = true → Shown usesLaunchConfig d extensions) (hplain : enabled = false → MadeFor d kd none)
    (hgen : ∀ g, generation = some g → MadeFor d kd (some config.key)) :
    MarshallerInv usesLaunchConfig d (marshaller enabled extensions config kd generation) where
  launcher := rfl
  fits := fits_of_key rfl
  plain hn := by
    cases enabled with
    | false => exact hplain rfl
    | true => cases hn
  own c hc := by
    cases enabled with
    | false => cases hc
    | true => cases hc; exact ⟨rfl, hshown rfl⟩
  generation c g hc hg := by
    cases enabled with
    | false => cases hc
    | true => cases hc; exact hgen g hg
  adjusted := nofun

theorem Inv.build {enabled : Bool} {extensions : List Nat} {config : LaunchConfig} (hi : Inv usesLaunchConfig normalize s)
    (hshown : enabled = true → Shown usesLaunchConfig s.d extensions) :
    Inv usesLaunchConfig normalize (build usesLaunchConfig s i enabled extensions config) := by
  unfold LaunchSpecialization.build
  split
  · next he =>
    have hk : Keeps usesLaunchConfig s.d (s.d.getLaunchConfigDispatcher config.key).1 := keeps_getLaunchConfigDispatcher _
    have hmade := madeFor_getLaunchConfigDispatcher hi.dispatcher config.key
    refine hi.go (hk.trans (keeps_addMarshaller (marshaller_inv ?_ ?_ fun _ _ => hmade))) trivial
    · exact fun h => (hshown h).later hk.later
    · intro hf
      rw [he.1] at hf
      cases hf
  · refine hi.go (keeps_addMarshaller (marshaller_inv hshown (fun _ => hi.dispatcher.c) ?_)) trivial
    intro g hg
    cases hg

/-! ## Binding -/

section
variable {l : Launch} {launcher : Launcher} {m : Marshaller} {ready : Ready}

theorem fits_ready (ha : Active usesLaunchConfig d l ready.launchConfig) :
    Fits l.availableLaunchConfig (ready.launchConfig.getD l.availableLaunchConfig) := by
  cases hc : ready.launchConfig with
  | none => exact fits_of_key rfl
  | some config => exact fits_of_key (ha config hc).1

theorem rebind_inv (hm : ConfiguredOk usesLaunchConfig d l m) (hb : Bound usesLaunchConfig d l ready.kernelDispatcher ready.launchConfig)
    (hfits : Fits l.availableLaunchConfig launcher.config)
    (hok : rebinds m ready = true ∨ launcher.kernelDispatcher = m.kernelDispatcher) :
    ConfiguredOk usesLaunchConfig d l (rebind m launcher ready).1 ∧
      (rebind m launcher ready).2.kernelDispatcher = ready.kernelDispatcher ∧
      Fits l.availableLaunchConfig (rebind m launcher ready).2.config := by
  have hready : Fits m.availableLaunchConfig (ready.launchConfig.getD m.availableLaunchConfig) := by
    rw [hm.available]; exact fits_ready hb.1
  unfold Recompile.rebind
  split
  · refine ⟨⟨⟨rfl, hready, ?_, ?_, ?_, hm.inv.adjusted⟩, hm.available, hm.extensions⟩, rfl, by rw [← hm.available]; exact hready⟩
    · intro hn
      have h := hb.2
      rw [show ready.launchConfig = none from hn] at h
      exact h
    · intro config hc
      rw [hm.available, hm.extensions]
      exact hb.1 config hc
    · intro config g hc _
      have h := hb.2
      rw [show ready.launchConfig = some config from hc] at h
      exact h
  · next hn =>
    have hsame : ready.kernelDispatcher = m.kernelDispatcher :=
      Decidable.not_not.mp fun h => hn (decide_eq_true (.inl h))
    exact ⟨hm, (hok.resolve_left hn).trans hsame.symm, hfits⟩

theorem adjust_inv (hm : ConfiguredOk usesLaunchConfig d l m) (ha : Active usesLaunchConfig d l ready.launchConfig)
    (hl : launcher.kernelDispatcher = ready.kernelDispatcher) (hfits : Fits l.availableLaunchConfig launcher.config) :
    ConfiguredOk usesLaunchConfig d l (adjust m launcher ready).1 ∧
      (adjust m launcher ready).2.kernelDispatcher = ready.kernelDispatcher ∧
      Fits l.availableLaunchConfig (adjust m launcher ready).2.config := by
  have hadd (key : Nat × Option Nat × Int) (adjusted : Launcher) (h : adjusted.kernelDispatcher = key.1)
      (hf : Fits l.availableLaunchConfig adjusted.config) :
      ConfiguredOk usesLaunchConfig d l { m with adjusted := some (key, adjusted) } := by
    refine ⟨⟨hm.inv.launcher, hm.inv.fits, hm.inv.plain, hm.inv.own, hm.inv.generation, ?_⟩, hm.available, hm.extensions⟩
    intro k l' e
    cases e
    exact ⟨h, by rw [hm.available]; exact hf⟩
  have hconfig := fits_ready ha
  rw [← hm.available] at hconfig
  have hlarger : Fits l.availableLaunchConfig
      { ready.launchConfig.getD m.availableLaunchConfig with
        sharedmem := some (max (normalizeLaunchSharedmem (ready.launchConfig.getD m.availableLaunchConfig).sharedmem)
          ready.requiredDynamicSharedMemory) } := by
    rw [hm.available] at hconfig ⊢
    exact ⟨hconfig.grid, hconfig.block, hconfig.cluster, hconfig.sharedmem.trans (Int.le_max_left _ _)⟩
  unfold Recompile.adjust
  dsimp only
  split
  · exact ⟨hm, hl, hfits⟩
  split
  · next k adjusted hk =>
    split
    · next he =>
      obtain ⟨hkd, hf⟩ := hm.inv.adjusted k adjusted hk
      rw [hm.available] at hf
      exact ⟨hm, by rw [hkd, he], hf⟩
    · exact ⟨hadd _ _ rfl hlarger, rfl, hlarger⟩
  · exact ⟨hadd _ _ rfl hlarger, rfl, hlarger⟩

theorem Inv.bind (hi : Inv usesLaunchConfig normalize s) (hl : LaunchOk s.d l launcher)
    (hb : Bound usesLaunchConfig s.d l ready.kernelDispatcher ready.launchConfig) (hm : s.d.marshallers[l.marshaller]? = some m)
    (hok : rebinds m ready = true ∨ launcher.kernelDispatcher = m.kernelDispatcher) :
    Inv usesLaunchConfig normalize ((s.setD (s.d.setMarshaller l.marshaller (bindLauncher m launcher ready).1)).setPc i
      (.launching l (bindLauncher m launcher ready).2 ready.launchConfig)) := by
  obtain ⟨m', hm', ha, he⟩ := hl.marshaller
  have hsame : m' = m := Option.some.inj (hm'.symm.trans hm)
  subst hsame
  have hconf : ConfiguredOk usesLaunchConfig s.d l m' := ⟨hi.dispatcher.marshallers m' (List.mem_of_getElem? hm), ha, he⟩
  obtain ⟨hconf', hkd', hfits'⟩ := rebind_inv hconf hb hl.fits hok
  obtain ⟨hconf'', hkd'', hfits''⟩ := adjust_inv hconf' hb.1 hkd' hfits'
  have hk : Keeps usesLaunchConfig s.d (s.d.setMarshaller l.marshaller (bindLauncher m' launcher ready).1) :=
    keeps_setMarshaller hm (hconf''.available.trans ha.symm) (hconf''.extensions.trans he.symm) hconf''.inv
  have hlaunch : LaunchOk s.d l (bindLauncher m' launcher ready).2 := ⟨hl.marshaller, hfits''⟩
  have hbound : Bound usesLaunchConfig s.d l (bindLauncher m' launcher ready).2.kernelDispatcher ready.launchConfig := by
    refine ⟨hb.1, ?_⟩
    rw [show (bindLauncher m' launcher ready).2.kernelDispatcher = ready.kernelDispatcher from hkd'']
    exact hb.2
  exact hi.go hk ⟨hlaunch.later hk.later, hbound.later hk.later⟩

end

/-! ## Compilation -/

section
variable {goal : Goal} {a : Attempt} {r : CompileResult}

theorem shown_of_attempt (hg : GoalInv usesLaunchConfig d goal) {retries : Nat}
    (h : attempt usesLaunchConfig d goal.compileArgTypes retries = some a) : Suits a.launchConfig goal := by
  obtain ⟨argtypes, -, h⟩ := Option.bind_eq_some_iff.mp h
  dsimp only at h
  split at h
  · cases h
  cases h
  cases goal with
  | prepare => trivial
  | rebuild => trivial
  | native l launcher config key =>
    intro c hc
    obtain ⟨-, hshown⟩ := hg.2.1 c hc
    unfold compileLaunchConfig
    rw [if_pos]
    · rw [hc]; rfl
    · rcases hshown with hr | hu
      · rw [hr]; rfl
      · simp [Goal.compileArgTypes, hu]

theorem suits_of_result (hs : Suits a.launchConfig goal) (hr : ∀ key, a.launchConfig = some key → r.launchConfig = some key) :
    Suits r.launchConfig goal := by
  cases goal with
  | prepare => trivial
  | rebuild => trivial
  | native => exact fun config hc => hr _ (hs config hc)

theorem launchConfig_of_find (he : EntriesInv d) {argtypes : List NumbaType} {key : LaunchConfig}
    (h : findLaunchConfigOverload d.launchConfigOverloads argtypes key = some r) : r.launchConfig = some key := by
  obtain ⟨sig, hs⟩ := mem_of_findLaunchConfigOverload h
  exact (he.overloads sig key r hs).2.1

theorem launchConfig_of_reusable (he : EntriesInv d) (h : reusable d a = some r) {key : LaunchConfig}
    (hk : a.launchConfig = some key) : r.launchConfig = some key := by
  unfold reusable at h
  rw [hk] at h
  exact launchConfig_of_find he h

theorem launchConfig_of_resolve (he : EntriesInv d) (h : resolve d a = some r) {key : LaunchConfig}
    (hk : a.launchConfig = some key) : r.launchConfig = some key := by
  unfold resolve at h
  rw [hk] at h
  obtain ⟨sig, hs⟩ := mem_of_resolveLaunchConfigResult h
  exact (he.overloads sig key r hs).2.1

theorem launchConfig_of_existing (he : EntriesInv d) {key : LaunchConfig} {signature : List NumbaType}
    (h : existing d a key signature = some r) : r.launchConfig = some key := by
  rcases Option.or_eq_some_iff.mp h with h | ⟨-, h⟩
  · exact launchConfig_of_find he h
  · split at h
    · exact launchConfig_of_find he h
    · cases h

theorem launchConfig_of_lookup (hi : DispatcherInv usesLaunchConfig d) {kd : Nat} {config : Option LaunchConfig}
    (hm : MadeFor d kd (config.map LaunchConfig.key)) {key : NativeKey} (h : (d.kernelsOf kd).lookup key = some r)
    (c : LaunchConfig) (hc : config = some c) : r.launchConfig = some c.key := by
  subst hc
  obtain ⟨before, after, heq, -⟩ := List.lookup_eq_some_iff.mp h
  apply hi.kernels kd c.key (key, r) hm
  rw [heq]
  exact List.mem_append_right _ (List.mem_cons_self ..)

theorem pcInv_resume (hg : GoalInv usesLaunchConfig d goal) (hs : Suits r.launchConfig goal) :
    PcInv usesLaunchConfig normalize d (resume r goal) := by
  cases goal with
  | prepare => exact hg
  | native => exact ⟨hg, hs⟩
  | rebuild => trivial

theorem Inv.resume (hi : Inv usesLaunchConfig normalize s) (hk : Keeps usesLaunchConfig s.d d)
    (hg : GoalInv usesLaunchConfig s.d goal) (hs : Suits r.launchConfig goal) :
    Inv usesLaunchConfig normalize ((s.setD d).setPc i (resume r goal)) :=
  hi.go hk (pcInv_resume (hg.later hk.later) hs)

/-- The result is kept under a registered key, and for types that its signature is reusable for. -/
def Kept (normalize : List NumbaType → List NumbaType) (d : DispatcherState) (a : Attempt) : Prop :=
  ∀ key, a.launchConfig = some key → a.generation = d.launchConfigGeneration →
    existing d a key (normalize a.argtypes) = none →
    (d.launchConfigDispatchers.get key).isSome = true ∧ canReuseOverloads (normalize a.argtypes) a.argtypes = true

theorem Inv.publish (hi : Inv usesLaunchConfig normalize s) (hg : GoalInv usesLaunchConfig s.d goal)
    (hp : PhaseInv normalize goal (.publishing a r)) (hok : Kept normalize s.d a) :
    Inv usesLaunchConfig normalize (publish s i goal a r) := by
  obtain ⟨hs, hconfig, hsig⟩ := hp
  have hr : Suits r.launchConfig goal := by rw [hconfig]; exact hs
  unfold LaunchSpecialization.publish
  split
  · next key hkey =>
    split
    · split
      · exact hi.move trivial
      · exact hi.move ⟨hg, trivial⟩
    · next hgen =>
      split
      · next first hfirst =>
        have hf : first.launchConfig = some key := launchConfig_of_existing hi.dispatcher.entries hfirst
        exact hi.move (pcInv_resume hg (suits_of_result hs fun k hk => by rw [hf, ← hkey, hk]))
      · next hnone =>
        rw [hsig] at hnone
        obtain ⟨hreg, hreuse⟩ := hok key hkey (Decidable.not_not.mp hgen) hnone
        rw [← hsig] at hreuse
        exact hi.resume (keeps_storeLaunchConfigOverload hreg (hconfig.trans hkey) hreuse) hg hr
  · exact hi.resume (SameNative.keeps ⟨rfl, rfl, rfl, id⟩ rfl rfl) hg hr

theorem keeps_require : Keeps usesLaunchConfig d { d with requiresLaunchConfig := true } :=
  SameNative.keeps ⟨rfl, rfl, rfl, fun _ => rfl⟩ rfl rfl

theorem Inv.compile {outcome : CompileOutcome} {s' : State} (hi : Inv usesLaunchConfig normalize s)
    (hg : GoalInv usesLaunchConfig s.d goal) (hs : Suits a.launchConfig goal) (h : compile normalize s i goal a outcome = some s') :
    Inv usesLaunchConfig normalize s' := by
  cases outcome with
  | raise => cases h; exact hi.move trivial
  | forceLiteral positions required =>
    have hk (c : Prop) [Decidable c] : Keeps usesLaunchConfig s.d
        (if c then { s.d.recordLiteralArgPositions positions with requiresLaunchConfig := true }
          else s.d.recordLiteralArgPositions positions) := by
      split
      · exact (keeps_recordLiteralArgPositions positions).trans keeps_require
      · exact keeps_recordLiteralArgPositions positions
    unfold LaunchSpecialization.compile at h
    dsimp only at h
    split at h
    · cases h; exact hi.go (hk _) ⟨hg.later (hk _).later, trivial⟩
    · cases h; exact hi.go (hk _) trivial
  | ok smem required =>
    unfold LaunchSpecialization.compile at h
    dsimp only at h
    split at h
    · next available hnone _ =>
      cases h
      have hk : Keeps usesLaunchConfig s.d { s.d with requiresLaunchConfig := true } := keeps_require
      refine hi.go hk ⟨hg.later hk.later, ?_, rfl, rfl⟩
      rw [hnone] at hs
      cases goal with
      | prepare => trivial
      | rebuild => trivial
      | native => exact fun config hc => nomatch hs config hc
    · cases h
      exact hi.move ⟨hg, hs, rfl, rfl⟩
  | cached signature =>
    unfold LaunchSpecialization.compile at h
    dsimp only at h
    split at h
    · next hnone =>
      cases h
      refine hi.resume (SameNative.keeps ⟨rfl, rfl, rfl, id⟩ rfl rfl) hg (suits_of_result hs ?_)
      intro key hk
      rw [hnone] at hk
      cases hk
    · cases h

end

/-! ## Steps -/

def ThreadSpecialised (normalize : List NumbaType → List NumbaType) (s : State) (i : Nat) (e : Event) : Prop :=
  match e, s.threads i with
  | .publish _, .compiling _ (.publishing a _) => Kept normalize s.d a
  | .bind _, .binding l launcher ready =>
    ∀ m, s.d.marshallers[l.marshaller]? = some m →
      rebinds m ready = true ∨ launcher.kernelDispatcher = m.kernelDispatcher
  | _, _ => True

/-- A result is kept under a registered key and for types that its signature is reusable for, and a
launch that keeps the launcher it read is bound to the native dispatcher that the marshaller still has. -/
def StepSpecialised (normalize : List NumbaType → List NumbaType) (s : State) : Event → Prop
  | .publish i => ThreadSpecialised normalize s i (.publish i)
  | .bind i => ThreadSpecialised normalize s i (.bind i)
  | _ => True

theorem stepThread_inv {e : Event} {s' : State} (hi : Inv usesLaunchConfig normalize s) (hok : ThreadSpecialised normalize s i e)
    (h : stepThread usesLaunchConfig normalize s i e = some s') : Inv usesLaunchConfig normalize s' := by
  have hpc := hi.threads i
  unfold stepThread at h
  split at h
  -- configure
  · cases h
    refine hi.move fun he => ?_
    unfold DispatcherState.launchConfigEnabled at he
    exact (Bool.or_eq_true _ _).mp he
  -- build
  · next hl =>
    rw [hl] at hpc
    cases h
    exact hi.build hpc
  -- rebuild
  · split at h
    · cases h; exact hi
    · cases h; exact hi.move ⟨trivial, trivial⟩
  -- launch
  · next m values argtypes abiArgCount hasPlanners outer hl =>
    obtain ⟨marshaller, hm, rfl⟩ := Option.map_eq_some_iff.mp h
    have hmi := hi.dispatcher.marshallers marshaller (List.mem_of_getElem? hm)
    have hlaunch : LaunchOk s.d ⟨m, values, argtypes, abiArgCount, marshaller.extensions, marshaller.availableLaunchConfig, outer⟩
        marshaller.launcher := ⟨⟨marshaller, hm, rfl, rfl⟩, hmi.fits⟩
    dsimp only
    split
    · exact hi.move hlaunch
    · next hplain =>
      have hnone : marshaller.launchConfig = none := by
        by_contra hne
        apply hplain
        unfold DispatcherState.isPrepared
        rw [Option.isSome_iff_ne_none.mpr hne, Bool.or_true, Bool.true_or]
      refine hi.move ⟨hlaunch, ?_, ?_⟩
      · rw [hnone]; exact nofun
      · rw [hmi.launcher, hnone]; exact hmi.plain hnone
  -- ready
  · next l launcher hl =>
    rw [hl] at hpc
    obtain ⟨m, hm, rfl⟩ := Option.map_eq_some_iff.mp h
    obtain ⟨m', hm', ha, he⟩ := hpc.marshaller
    have hsame : m' = m := Option.some.inj (hm'.symm.trans hm)
    subst hsame
    have hconf : ConfiguredOk usesLaunchConfig s.d l m' := ⟨hi.dispatcher.marshallers m' (List.mem_of_getElem? hm), ha, he⟩
    split
    · exact hi.move trivial
    split
    · next ready hready =>
      have hk : Keeps usesLaunchConfig s.d (s.d.touch ready) := keeps_touch ready
      exact hi.go hk ⟨LaunchOk.later hk.later hpc, (bound_of_ready hi.dispatcher hconf hready).later hk.later⟩
    · exact hi.move ⟨hpc, hconf⟩
  -- prepare
  · next hl =>
    rw [hl] at hpc
    cases h
    exact hi.prepare hpc.1 hpc.2
  -- start
  · next goal retries hl =>
    rw [hl] at hpc
    split at h
    · next a ha => cases h; exact hi.move ⟨hpc.1, shown_of_attempt hpc.1 ha⟩
    · cases h; exact hi.move trivial
  -- look
  · next goal a hl =>
    rw [hl] at hpc
    obtain ⟨hg, hs⟩ := hpc
    split at h
    · next r hr =>
      cases h
      exact hi.move (pcInv_resume hg (suits_of_result hs fun _ => launchConfig_of_reusable hi.dispatcher.entries hr))
    split at h
    · cases h; exact hi.move ⟨hg, hs⟩
    split at h
    · next r hr =>
      cases h
      exact hi.move (pcInv_resume hg (suits_of_result hs fun _ => launchConfig_of_resolve hi.dispatcher.entries hr))
    · cases h; exact hi.move trivial
  -- compile
  · next hl =>
    rw [hl] at hpc
    exact hi.compile hpc.1 hpc.2 h
  -- publish
  · next hl =>
    rw [hl] at hpc
    simp only [ThreadSpecialised, hl] at hok
    cases h
    exact hi.publish hpc.1 hpc.2 hok
  -- lookAgain
  · next hl =>
    rw [hl] at hpc
    cases h
    exact hi.lookAgain hpc.1 hpc.2
  -- select
  · next hl =>
    rw [hl] at hpc
    cases h
    exact hi.select hpc
  -- register
  · next hl =>
    rw [hl] at hpc
    cases h
    exact hi.register hpc.1 hpc.2
  -- bind
  · next l launcher ready hl =>
    rw [hl] at hpc
    simp only [ThreadSpecialised, hl] at hok
    obtain ⟨m, hm, rfl⟩ := Option.map_eq_some_iff.mp h
    exact hi.bind hpc.1 hpc.2 hm (hok m hm)
  -- lookup
  · next key l launcher config hl =>
    rw [hl] at hpc
    obtain ⟨hlaunch, hb⟩ := hpc
    split at h
    · next kernel hk =>
      cases h
      exact hi.ran (.refl _) hlaunch hb.1 (launchConfig_of_lookup hi.dispatcher hb.2 hk)
    · cases h; exact hi.move ⟨⟨hlaunch, hb⟩, trivial⟩
  -- emplace
  · next l launcher config key r hl =>
    rw [hl] at hpc
    obtain ⟨⟨hlaunch, hb⟩, hs⟩ := hpc
    split at h
    · next first hk =>
      cases h
      exact hi.ran (.refl _) hlaunch hb.1 (launchConfig_of_lookup hi.dispatcher hb.2 hk)
    · cases h
      refine hi.ran (keeps_addKernel hb.2 ?_) hlaunch hb.1 hs
      intro c hc
      obtain ⟨config, rfl, rfl⟩ := Option.map_eq_some_iff.mp hc
      exact hs config rfl
  · cases h

theorem step_inv {e : Event} {s' : State} (hi : Inv usesLaunchConfig normalize s) (hok : StepSpecialised normalize s e)
    (h : step usesLaunchConfig normalize s e = some s') : Inv usesLaunchConfig normalize s' := by
  cases e with
  | setExtensions | disableCompile | compileSignature | recompileClear =>
    cases h
    exact hi.dispatch (SameNative.keeps ⟨rfl, rfl, rfl, id⟩ rfl rfl)
  | recompileReplace => cases h; exact hi.dispatch keeps_newGeneration
  | publish | bind => exact stepThread_inv hi hok h
  | _ =>
    refine stepThread_inv hi ?_ h
    trivial

theorem inv_init (literalArgFlags : List Bool) (requires : Bool) (extensions : List Nat) :
    Inv usesLaunchConfig normalize (.init (.init literalArgFlags requires extensions)) where
  dispatcher :=
    { bounded := Nat.zero_le _
      entries := ⟨(fun _ _ h => nomatch h), (fun _ _ _ h => nomatch h)⟩
      c := rfl
      kernels := by
        intro kd key e h
        cases kd with
        | zero => cases h
        | succ n => cases h
      marshallers := fun _ h => nomatch h }
  threads _ := trivial
  log _ h := nomatch h

end

/-- What a state owes to the launch configs that its results and kernels are specialised for. -/
structure Specialised (s : State) : Prop where
  bounded : s.d.launchConfigDispatchers.length ≤ launchConfigCacheSize
  registered : ∀ argtypes key r, s.d.launchConfigOverloads.get (argtypes, key) = some r →
    (s.d.launchConfigDispatchers.get key).isSome = true
  compiledFor : ∀ argtypes key r, s.d.launchConfigOverloads.get (argtypes, key) = some r →
    r.launchConfig = some key ∧ canReuseOverloads r.signature argtypes = true
  ran : ∀ x ∈ s.log, RanOwn x

/-- **Specialised kernels run under their own launch config** in every run whose steps meet
`StepSpecialised`, of a new dispatcher or of one that is being rebuilt. -/
theorem specialised_runs {usesLaunchConfig : Nat → Bool} {normalize : List NumbaType → List NumbaType}
    {literalArgFlags : List Bool} {requires : Bool} {extensions : List Nat} {es : List Event} {s : State}
    (hok : Runs.StepsOk (step usesLaunchConfig normalize) (StepSpecialised normalize)
      (.init (.init literalArgFlags requires extensions)) es)
    (h : Runs.run (step usesLaunchConfig normalize) (.init (.init literalArgFlags requires extensions)) es = some s) :
    Specialised s := by
  have hi : Inv usesLaunchConfig normalize s :=
    Runs.run_inv _ (fun _ _ _ hi hok h => step_inv hi hok h) (inv_init literalArgFlags requires extensions) hok h
  have he := hi.dispatcher.entries.overloads
  exact ⟨hi.dispatcher.bounded, fun argtypes key r hr => (he argtypes key r hr).1,
    fun argtypes key r hr => (he argtypes key r hr).2, hi.log⟩

/-! ## A rebuilt dispatcher -/

def launchConfig : LaunchConfig := ⟨(1, 1, 1), (32, 1, 1), some 0, none⟩

def int64 : NumbaType := .scalar (.integer true .s8)

def rebuilt : List Event :=
  [.rebuild 0 [int64] launchConfig, .start 0, .look 0, .compile 0 (.ok 0 false), .publish 0]

/-- A signature that a rebuild compiles is kept under a key that no native dispatcher is registered for. -/
theorem rebuilt_unregistered : ∃ s,
    Runs.run (step (fun _ => true) id) (.init (.init [false] false [0])) rebuilt = some s ∧ ¬ Specialised s := by
  refine ⟨_, rfl, fun h => ?_⟩
  have hreg := h.registered [int64] launchConfig ⟨[int64], some launchConfig, 0⟩ rfl
  cases hreg

def float64 : NumbaType := .scalar (.float .s8)

def specialisedLaunch : List Event :=
  [.configure 0 launchConfig, .build 0, .launch 1 0 [.leaf (.long .int 1)] [int64] 1 false none, .ready 1, .prepare 1,
    .start 1, .look 1, .compile 1 (.ok 64 false), .publish 1, .lookAgain 1, .select 1, .bind 1, .lookup 1 ([.integer], []),
    .start 1, .look 1, .emplace 1]

/-- A launch of a new marshaller, whose kernel needs more shared memory than was configured. -/
theorem specialised_runs_launch : ∃ s,
    Runs.run (step (fun _ => true) id) (.init (.init [false] false [0])) specialisedLaunch = some s ∧ Specialised s := by
  refine ⟨_, rfl, ?_⟩
  apply @specialised_runs (fun _ => true) id [false] false [0] specialisedLaunch
  · apply Runs.stepsOk_cons _ rfl trivial
    apply Runs.stepsOk_cons _ rfl trivial
    apply Runs.stepsOk_cons _ rfl trivial
    apply Runs.stepsOk_cons _ rfl trivial
    apply Runs.stepsOk_cons _ rfl trivial
    apply Runs.stepsOk_cons _ rfl trivial
    apply Runs.stepsOk_cons _ rfl trivial
    apply Runs.stepsOk_cons _ rfl trivial
    apply Runs.stepsOk_cons _ rfl
    · intro key hkey _ _
      cases hkey
      exact ⟨rfl, canReuseOverloads_refl _⟩
    apply Runs.stepsOk_cons _ rfl trivial
    apply Runs.stepsOk_cons _ rfl trivial
    apply Runs.stepsOk_cons _ rfl
    · intro m hm
      cases hm
      exact .inr rfl
    apply Runs.stepsOk_cons _ rfl trivial
    apply Runs.stepsOk_cons _ rfl trivial
    apply Runs.stepsOk_cons _ rfl trivial
    apply Runs.stepsOk_cons _ rfl trivial
    trivial
  · rfl

end NumbaCudaMlir.LaunchSpecialization

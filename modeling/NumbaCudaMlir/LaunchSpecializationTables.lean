import NumbaCudaMlir.LaunchSpecialization
import NumbaCudaMlir.OverloadSound

/-!
# The tables under specialisation

What the tables and the native dispatchers say of the launch config they are
kept for, and how the operations of the dispatcher keep that.
-/

namespace NumbaCudaMlir.LaunchSpecialization

open Recompile (Ready)

/-- A launcher for the geometry of a launch config, with no less dynamic shared memory. -/
structure Fits (own config : LaunchConfig) : Prop where
  grid : config.grid = own.grid
  block : config.block = own.block
  cluster : config.cluster = own.cluster
  sharedmem : normalizeLaunchSharedmem own.sharedmem ≤ normalizeLaunchSharedmem config.sharedmem

theorem fits_of_key {own config : LaunchConfig} (h : config.key = own.key) : Fits own config := by
  obtain ⟨g, b, s, c⟩ := own
  obtain ⟨g', b', s', c'⟩ := config
  simp only [LaunchConfig.key, LaunchConfig.mk.injEq, Option.some.injEq] at h
  obtain ⟨rfl, rfl, hs, rfl⟩ := h
  exact ⟨rfl, rfl, rfl, hs.ge⟩

@[simp] theorem key_key (config : LaunchConfig) : config.key.key = config.key := rfl

/-! ## Invariants -/

def MadeFor (d : DispatcherState) (kd : Nat) (o : Option LaunchConfig) : Prop :=
  (d.kernelDispatchers[kd]?).map (·.madeFor) = some o

theorem MadeFor.unique {d : DispatcherState} {kd : Nat} {o o' : Option LaunchConfig} (h : MadeFor d kd o)
    (h' : MadeFor d kd o') : o = o' :=
  Option.some.inj (Eq.trans h.symm h')

theorem MadeFor.lt {d : DispatcherState} {kd : Nat} {o : Option LaunchConfig} (h : MadeFor d kd o) :
    kd < d.kernelDispatchers.length := by
  by_contra hlt
  rw [MadeFor, List.getElem?_eq_none (by omega)] at h
  cases h

/-- What the entries of the two launch-config tables say of each other. -/
structure EntriesInv (d : DispatcherState) : Prop where
  table : ∀ key kd, d.launchConfigDispatchers.get key = some kd → MadeFor d kd (some key)
  overloads : ∀ argtypes key r, d.launchConfigOverloads.get (argtypes, key) = some r →
    (d.launchConfigDispatchers.get key).isSome = true ∧ r.launchConfig = some key ∧
      canReuseOverloads r.signature argtypes = true

section
variable (usesLaunchConfig : Nat → Bool)

/-- A launch of these extensions is compiled with launch metadata. -/
def Shown (d : DispatcherState) (extensions : List Nat) : Prop :=
  d.requiresLaunchConfig = true ∨ extensions.any usesLaunchConfig = true

structure MarshallerInv (d : DispatcherState) (m : Marshaller) : Prop where
  launcher : m.launcher.kernelDispatcher = m.kernelDispatcher
  fits : Fits m.availableLaunchConfig m.launcher.config
  plain : m.launchConfig = none → MadeFor d m.kernelDispatcher none
  own : ∀ config, m.launchConfig = some config →
    config.key = m.availableLaunchConfig.key ∧ Shown usesLaunchConfig d m.extensions
  generation : ∀ config g, m.launchConfig = some config → m.launchConfigGeneration = some g →
    MadeFor d m.kernelDispatcher (some config.key)
  adjusted : ∀ k l, m.adjusted = some (k, l) → l.kernelDispatcher = k.1 ∧ Fits m.availableLaunchConfig l.config

structure DispatcherInv (d : DispatcherState) : Prop where
  bounded : d.launchConfigDispatchers.length ≤ launchConfigCacheSize
  entries : EntriesInv d
  c : MadeFor d d.c none
  kernels : ∀ kd key e, MadeFor d kd (some key) → e ∈ d.kernelsOf kd → e.2.launchConfig = some key
  marshallers : ∀ m ∈ d.marshallers, MarshallerInv usesLaunchConfig d m

end

structure Later (d d' : DispatcherState) : Prop where
  made : ∀ kd o, MadeFor d kd o → MadeFor d' kd o
  requires : d.requiresLaunchConfig = true → d'.requiresLaunchConfig = true
  marshallers : ∀ (i : Nat) (m : Marshaller), d.marshallers[i]? = some m → ∃ m' : Marshaller, d'.marshallers[i]? = some m' ∧
    m'.availableLaunchConfig = m.availableLaunchConfig ∧ m'.extensions = m.extensions

theorem Later.refl (d : DispatcherState) : Later d d := ⟨fun _ _ => id, id, fun _ m h => ⟨m, h, rfl, rfl⟩⟩

theorem Later.trans {d d' d'' : DispatcherState} (h : Later d d') (h' : Later d' d'') : Later d d'' := by
  refine ⟨fun kd o hm => h'.made kd o (h.made kd o hm), fun hr => h'.requires (h.requires hr), ?_⟩
  intro i m hm
  obtain ⟨m', hm', ha, he⟩ := h.marshallers i m hm
  obtain ⟨m'', hm'', ha', he'⟩ := h'.marshallers i m' hm'
  exact ⟨m'', hm'', ha'.trans ha, he'.trans he⟩

section
variable {usesLaunchConfig : Nat → Bool} {d d' : DispatcherState} (hl : Later d d')
include hl

theorem Shown.later {extensions : List Nat} (h : Shown usesLaunchConfig d extensions) : Shown usesLaunchConfig d' extensions :=
  h.imp_left hl.requires

theorem MarshallerInv.later {m : Marshaller} (h : MarshallerInv usesLaunchConfig d m) : MarshallerInv usesLaunchConfig d' m where
  launcher := h.launcher
  fits := h.fits
  plain hn := hl.made _ _ (h.plain hn)
  own config hc := ⟨(h.own config hc).1, (h.own config hc).2.later hl⟩
  generation config g hc hg := hl.made _ _ (h.generation config g hc hg)
  adjusted := h.adjusted

end

/-! ## Operations -/

section
variable (usesLaunchConfig : Nat → Bool)

structure Keeps (d d' : DispatcherState) : Prop where
  inv : DispatcherInv usesLaunchConfig d → DispatcherInv usesLaunchConfig d'
  later : Later d d'

end

/-- The native dispatchers and the marshallers are the same. -/
structure SameNative (d d' : DispatcherState) : Prop where
  kernelDispatchers : d'.kernelDispatchers = d.kernelDispatchers
  c : d'.c = d.c
  marshallers : d'.marshallers = d.marshallers
  requires : d.requiresLaunchConfig = true → d'.requiresLaunchConfig = true

theorem SameNative.refl (d : DispatcherState) : SameNative d d := ⟨rfl, rfl, rfl, id⟩

theorem SameNative.trans {d d' d'' : DispatcherState} (h : SameNative d d') (h' : SameNative d' d'') : SameNative d d'' :=
  ⟨h'.kernelDispatchers.trans h.kernelDispatchers, h'.c.trans h.c, h'.marshallers.trans h.marshallers,
    fun hr => h'.requires (h.requires hr)⟩

theorem SameNative.madeFor {d d' : DispatcherState} (h : SameNative d d') {kd : Nat} {o : Option LaunchConfig} :
    MadeFor d' kd o ↔ MadeFor d kd o := by
  rw [MadeFor, MadeFor, h.kernelDispatchers]

theorem SameNative.later {d d' : DispatcherState} (h : SameNative d d') : Later d d' :=
  ⟨fun _ _ => h.madeFor.mpr, h.requires, fun _ m hm => ⟨m, by rw [h.marshallers]; exact hm, rfl, rfl⟩⟩

section
variable {usesLaunchConfig : Nat → Bool} {d d' : DispatcherState}

theorem Keeps.refl (d : DispatcherState) : Keeps usesLaunchConfig d d := ⟨id, .refl d⟩

theorem Keeps.trans {d'' : DispatcherState} (h : Keeps usesLaunchConfig d d') (h' : Keeps usesLaunchConfig d' d'') :
    Keeps usesLaunchConfig d d'' :=
  ⟨fun hi => h'.inv (h.inv hi), h.later.trans h'.later⟩

theorem SameNative.inv (h : SameNative d d') (hi : DispatcherInv usesLaunchConfig d)
    (hb : d'.launchConfigDispatchers.length ≤ launchConfigCacheSize) (he : EntriesInv d') :
    DispatcherInv usesLaunchConfig d' where
  bounded := hb
  entries := he
  c := by rw [h.c]; exact h.madeFor.mpr hi.c
  kernels kd key e hm hmem := by
    rw [DispatcherState.kernelsOf, h.kernelDispatchers] at hmem
    exact hi.kernels kd key e (h.madeFor.mp hm) hmem
  marshallers m hm := by
    rw [h.marshallers] at hm
    exact (hi.marshallers m hm).later h.later

theorem SameNative.keeps (h : SameNative d d') (ht : d'.launchConfigDispatchers = d.launchConfigDispatchers)
    (ho : d'.launchConfigOverloads = d.launchConfigOverloads) : Keeps usesLaunchConfig d d' := by
  refine ⟨fun hi => h.inv hi (by rw [ht]; exact hi.bounded) ⟨?_, ?_⟩, h.later⟩
  · intro key kd hk
    rw [ht] at hk
    exact h.madeFor.mpr (hi.entries.table key kd hk)
  · intro argtypes key r hr
    rw [ho] at hr
    rw [ht]
    exact hi.entries.overloads argtypes key r hr

theorem keeps_moveToEnd (key : LaunchConfig) :
    Keeps usesLaunchConfig d { d with launchConfigDispatchers := d.launchConfigDispatchers.moveToEnd key } := by
  have hs : SameNative d { d with launchConfigDispatchers := d.launchConfigDispatchers.moveToEnd key } := ⟨rfl, rfl, rfl, id⟩
  refine ⟨fun hi => hs.inv hi ?_ ⟨?_, ?_⟩, hs.later⟩
  · rw [Dict.length_moveToEnd]; exact hi.bounded
  · intro k kd hk
    rw [Dict.get_moveToEnd] at hk
    exact hi.entries.table k kd hk
  · intro argtypes k r hr
    rw [Dict.get_moveToEnd]
    exact hi.entries.overloads argtypes k r hr

theorem keeps_touch (ready : Ready) : Keeps usesLaunchConfig d (d.touch ready) := by
  unfold DispatcherState.touch
  split
  · exact keeps_moveToEnd _
  · exact .refl d

/-! ### Eviction -/

theorem sameNative_evict (d : DispatcherState) : SameNative d d.evictLaunchConfig := by
  unfold DispatcherState.evictLaunchConfig
  split
  · exact .refl d
  · exact ⟨rfl, rfl, rfl, id⟩

theorem entriesInv_evict (h : EntriesInv d) : EntriesInv d.evictLaunchConfig := by
  unfold DispatcherState.evictLaunchConfig
  split
  · exact h
  · next evicted kd es he =>
    refine ⟨fun key kd hk => h.table key kd (Dict.get_of_popFirst hk), ?_⟩
    intro argtypes key r hr
    obtain ⟨hreg, hrest⟩ := h.overloads argtypes key r (Dict.get_of_filter hr)
    have hne : key ≠ evicted := by
      have hmem := List.of_mem_filter (Dict.mem_of_get hr)
      simpa using hmem
    refine ⟨?_, hrest⟩
    rw [Dict.get_popFirst_ne he hne]
    exact hreg

theorem length_evict (d : DispatcherState) :
    d.evictLaunchConfig.launchConfigDispatchers.length = d.launchConfigDispatchers.length - 1 := by
  unfold DispatcherState.evictLaunchConfig
  split
  · next h => rw [Dict.length, h]; rfl
  · exact Dict.length_popFirst _

theorem iterate_evict (h : EntriesInv d) (n : Nat) :
    SameNative d (DispatcherState.evictLaunchConfig^[n] d) ∧ EntriesInv (DispatcherState.evictLaunchConfig^[n] d) ∧
      (DispatcherState.evictLaunchConfig^[n] d).launchConfigDispatchers.length = d.launchConfigDispatchers.length - n := by
  induction n generalizing d with
  | zero => exact ⟨.refl d, h, rfl⟩
  | succ n ih =>
    obtain ⟨hs, he, hlen⟩ := ih (entriesInv_evict h)
    refine ⟨(sameNative_evict d).trans hs, he, ?_⟩
    rw [Function.iterate_succ_apply, hlen, length_evict]
    omega

/-! ### Registration -/

theorem entriesInv_set (h : EntriesInv d) {key : LaunchConfig} {kd : Nat} (hkd : MadeFor d kd (some key)) :
    EntriesInv { d with launchConfigDispatchers := d.launchConfigDispatchers.set key kd } := by
  refine ⟨?_, ?_⟩
  · intro k kd' hk
    rcases Dict.get_of_set hk with ⟨rfl, rfl⟩ | hk
    · exact hkd
    · exact h.table k kd' hk
  · intro argtypes k r hr
    obtain ⟨hreg, hrest⟩ := h.overloads argtypes k r hr
    refine ⟨?_, hrest⟩
    rw [Dict.get_set]
    split
    · rfl
    · exact hreg

theorem keeps_remember {key : LaunchConfig} {kd : Nat} (hkd : MadeFor d kd (some key)) (replaceExisting : Bool) :
    Keeps usesLaunchConfig d (d.rememberKernelDispatcherLocked key kd replaceExisting) := by
  have hset : SameNative d { d with launchConfigDispatchers := d.launchConfigDispatchers.set key kd } := ⟨rfl, rfl, rfl, id⟩
  unfold DispatcherState.rememberKernelDispatcherLocked
  split
  · next existing hex =>
    split
    · exact .refl d
    · have hkeep : Keeps usesLaunchConfig d { d with launchConfigDispatchers := d.launchConfigDispatchers.set key kd } := by
        refine ⟨fun hi => hset.inv hi ?_ (entriesInv_set hi.entries hkd), hset.later⟩
        rw [Dict.length_set_bound hex]
        exact hi.bounded
      exact hkeep.trans (keeps_moveToEnd key)
  · have hlater : ∀ n, SameNative d (DispatcherState.evictLaunchConfig^[n]
        { d with launchConfigDispatchers := d.launchConfigDispatchers.set key kd }) := by
      intro n
      apply hset.trans
      generalize { d with launchConfigDispatchers := d.launchConfigDispatchers.set key kd } = d'
      induction n generalizing d' with
      | zero => exact .refl d'
      | succ n ih => exact (sameNative_evict d').trans (ih _)
    refine ⟨fun hi => ?_, (hlater _).later⟩
    obtain ⟨-, hentries, hlen⟩ := iterate_evict (entriesInv_set hi.entries hkd) _
    apply (hlater _).inv hi _ hentries
    rw [hlen]
    omega

theorem later_newKernelDispatcher (o : Option LaunchConfig) : Later d (d.newKernelDispatcher o) := by
  refine ⟨?_, id, fun _ m hm => ⟨m, hm, rfl, rfl⟩⟩
  intro kd o' h
  unfold MadeFor DispatcherState.newKernelDispatcher
  rw [List.getElem?_append_left h.lt]
  exact h

theorem madeFor_new (o : Option LaunchConfig) : MadeFor (d.newKernelDispatcher o) d.kernelDispatchers.length o := by
  unfold MadeFor DispatcherState.newKernelDispatcher
  rw [List.getElem?_concat_length]
  rfl

theorem kernelsOf_new (o : Option LaunchConfig) (kd : Nat) : (d.newKernelDispatcher o).kernelsOf kd = d.kernelsOf kd := by
  unfold DispatcherState.kernelsOf DispatcherState.newKernelDispatcher
  by_cases hlt : kd < d.kernelDispatchers.length
  · rw [List.getElem?_append_left hlt]
  · have hle : d.kernelDispatchers.length ≤ kd := Nat.le_of_not_lt hlt
    rw [List.getElem?_append_right hle, List.getElem?_eq_none hle]
    cases kd - d.kernelDispatchers.length with
    | zero => rfl
    | succ n => rfl

theorem madeFor_of_kernel (o : Option LaunchConfig) {kd : Nat} {o' : Option LaunchConfig} {e : NativeKey × CompileResult}
    (h : MadeFor (d.newKernelDispatcher o) kd o') (he : e ∈ d.kernelsOf kd) : MadeFor d kd o' := by
  have hlt : kd < d.kernelDispatchers.length := by
    by_contra hlt
    rw [DispatcherState.kernelsOf, List.getElem?_eq_none (by omega)] at he
    cases he
  unfold MadeFor DispatcherState.newKernelDispatcher at h
  rw [List.getElem?_append_left hlt] at h
  exact h

theorem keeps_newKernelDispatcher (o : Option LaunchConfig) : Keeps usesLaunchConfig d (d.newKernelDispatcher o) := by
  have hl : Later d (d.newKernelDispatcher o) := later_newKernelDispatcher o
  refine ⟨fun hi => ⟨hi.bounded, ⟨?_, hi.entries.overloads⟩, hl.made _ _ hi.c, ?_, fun m hm => (hi.marshallers m hm).later hl⟩, hl⟩
  · intro key kd hk
    exact hl.made _ _ (hi.entries.table key kd hk)
  · intro kd key e hm he
    rw [kernelsOf_new] at he
    exact hi.kernels kd key e (madeFor_of_kernel o hm he) he

theorem keeps_getLaunchConfigDispatcher (key : LaunchConfig) : Keeps usesLaunchConfig d (d.getLaunchConfigDispatcher key).1 := by
  unfold DispatcherState.getLaunchConfigDispatcher
  split
  · exact keeps_moveToEnd key
  · exact (keeps_newKernelDispatcher _).trans (keeps_remember (madeFor_new _) true)

theorem madeFor_getLaunchConfigDispatcher (hi : DispatcherInv usesLaunchConfig d) (key : LaunchConfig) :
    MadeFor (d.getLaunchConfigDispatcher key).1 (d.getLaunchConfigDispatcher key).2 (some key) := by
  unfold DispatcherState.getLaunchConfigDispatcher
  split
  · next kd h => exact hi.entries.table key kd h
  · have hk : Keeps usesLaunchConfig (d.newKernelDispatcher (some key))
        ((d.newKernelDispatcher (some key)).rememberKernelDispatcherLocked key d.kernelDispatchers.length true) :=
      keeps_remember (madeFor_new _) true
    exact hk.later.made _ _ (madeFor_new _)

theorem keeps_newGeneration : Keeps usesLaunchConfig d d.newGeneration := by
  have hnewl : Later d (d.newKernelDispatcher none) := later_newKernelDispatcher none
  have hl : Later d d.newGeneration := ⟨hnewl.made, hnewl.requires, hnewl.marshallers⟩
  refine ⟨fun hi => ?_, hl⟩
  have hnew : DispatcherInv usesLaunchConfig (d.newKernelDispatcher none) := (keeps_newKernelDispatcher none).inv hi
  exact ⟨Nat.zero_le _, ⟨(fun _ _ h => nomatch h), (fun _ _ _ h => nomatch h)⟩, madeFor_new none, hnew.kernels,
    fun m hm => (hi.marshallers m hm).later hl⟩

theorem keeps_recordLiteralArgPositions (positions : List Bool) : Keeps usesLaunchConfig d (d.recordLiteralArgPositions positions) := by
  unfold DispatcherState.recordLiteralArgPositions
  dsimp only
  split
  · exact .refl d
  · exact keeps_newGeneration.trans (SameNative.keeps ⟨rfl, rfl, rfl, id⟩ rfl rfl)

theorem keeps_restore {m : Marshaller} (hm : MarshallerInv usesLaunchConfig d m) {config : Option LaunchConfig}
    (hc : ∀ key, config = some key → key.key = m.availableLaunchConfig.key) : Keeps usesLaunchConfig d (d.restore m config) := by
  unfold DispatcherState.restore
  split
  · next key configured generation hconf hgen =>
    split
    · exact .refl d
    · have hkey : key.key = configured.key := (hc key rfl).trans (hm.own configured hconf).1.symm
      rw [hkey]
      exact keeps_remember (hm.generation configured generation hconf hgen) false
  · exact .refl d

/-! ### Marshallers and kernels -/

theorem keeps_addMarshaller {m : Marshaller} (hm : MarshallerInv usesLaunchConfig d m) :
    Keeps usesLaunchConfig d { d with marshallers := d.marshallers ++ [m] } := by
  have hl : Later d { d with marshallers := d.marshallers ++ [m] } := by
    refine ⟨fun _ _ => id, id, fun i m' hm' => ⟨m', ?_, rfl, rfl⟩⟩
    have hlt : i < d.marshallers.length := (List.getElem?_eq_some_iff.mp hm').1
    rw [List.getElem?_append_left hlt, hm']
  refine ⟨fun hi => ⟨hi.bounded, ⟨hi.entries.table, hi.entries.overloads⟩, hi.c, hi.kernels, ?_⟩, hl⟩
  intro m' hm'
  rcases List.mem_append.mp hm' with hm' | hm'
  · exact (hi.marshallers m' hm').later hl
  · rw [List.mem_singleton.mp hm']
    exact hm.later hl

theorem keeps_setMarshaller {i : Nat} {m m' : Marshaller} (hi : d.marshallers[i]? = some m)
    (ha : m'.availableLaunchConfig = m.availableLaunchConfig) (he : m'.extensions = m.extensions)
    (hm' : MarshallerInv usesLaunchConfig d m') : Keeps usesLaunchConfig d (d.setMarshaller i m') := by
  have hl : Later d (d.setMarshaller i m') := by
    refine ⟨fun _ _ => id, id, ?_⟩
    intro j mj hj
    unfold DispatcherState.setMarshaller
    by_cases hji : j = i
    · subst hji
      have hlt : j < d.marshallers.length := (List.getElem?_eq_some_iff.mp hj).1
      rw [Option.some.inj (hj.symm.trans hi)]
      exact ⟨m', List.getElem?_set_self hlt, ha, he⟩
    · exact ⟨mj, by rw [List.getElem?_set_ne (Ne.symm hji), hj], rfl, rfl⟩
  refine ⟨fun hd => ⟨hd.bounded, ⟨hd.entries.table, hd.entries.overloads⟩, hd.c, hd.kernels, ?_⟩, hl⟩
  intro mj hj
  rcases List.mem_or_eq_of_mem_set hj with hj | rfl
  · exact (hd.marshallers mj hj).later hl
  · exact hm'.later hl

theorem madeFor_addKernel {kd : Nat} {key : NativeKey} {r : CompileResult} {kd' : Nat} {o : Option LaunchConfig} :
    MadeFor (d.addKernel kd key r) kd' o ↔ MadeFor d kd' o := by
  unfold MadeFor DispatcherState.addKernel
  rw [List.getElem?_modify]
  by_cases h : kd = kd'
  · subst h
    cases d.kernelDispatchers[kd]? with
    | none => rfl
    | some k => simp
  · simp [h]

theorem mem_kernelsOf_addKernel {kd : Nat} {key : NativeKey} {r : CompileResult} {kd' : Nat} {e : NativeKey × CompileResult}
    (h : e ∈ (d.addKernel kd key r).kernelsOf kd') : e ∈ d.kernelsOf kd' ∨ kd' = kd ∧ e = (key, r) := by
  unfold DispatcherState.kernelsOf DispatcherState.addKernel at h
  rw [List.getElem?_modify] at h
  unfold DispatcherState.kernelsOf
  by_cases hkd : kd = kd'
  · subst hkd
    cases hk : d.kernelDispatchers[kd]? with
    | none => rw [hk] at h; cases h
    | some k =>
      rw [hk] at h
      have hmem : e ∈ k.kernels ++ [(key, r)] := by simpa using h
      rcases List.mem_append.mp hmem with he | he
      · left; exact he
      · right; exact ⟨rfl, List.mem_singleton.mp he⟩
  · left
    simpa [hkd] using h

theorem keeps_addKernel {kd : Nat} {key : NativeKey} {r : CompileResult} {o : Option LaunchConfig} (hkd : MadeFor d kd o)
    (hr : ∀ config, o = some config → r.launchConfig = some config) : Keeps usesLaunchConfig d (d.addKernel kd key r) := by
  have hl : Later d (d.addKernel kd key r) := ⟨fun _ _ => madeFor_addKernel.mpr, id, fun _ m hm => ⟨m, hm, rfl, rfl⟩⟩
  refine ⟨fun hi => ⟨hi.bounded, ⟨fun k kd' hk => hl.made _ _ (hi.entries.table k kd' hk), hi.entries.overloads⟩,
    hl.made _ _ hi.c, ?_, fun m hm => (hi.marshallers m hm).later hl⟩, hl⟩
  intro kd' config e hm he
  have hm' : MadeFor d kd' (some config) := madeFor_addKernel.mp hm
  rcases mem_kernelsOf_addKernel he with he | ⟨rfl, rfl⟩
  · exact hi.kernels kd' config e hm' he
  · exact hr config (hkd.unique hm')

theorem keeps_storeLaunchConfigOverload {argtypes : List NumbaType} {key : LaunchConfig} {r : CompileResult}
    (hreg : (d.launchConfigDispatchers.get key).isSome = true) (hkey : r.launchConfig = some key)
    (hreuse : canReuseOverloads r.signature argtypes = true) :
    Keeps usesLaunchConfig d (storeLaunchConfigOverload d argtypes key r) := by
  have hs : SameNative d (storeLaunchConfigOverload d argtypes key r) := ⟨rfl, rfl, rfl, id⟩
  refine ⟨fun hi => hs.inv hi hi.bounded ⟨hi.entries.table, ?_⟩, hs.later⟩
  intro types k r' h
  rcases Dict.get_of_setDefault h with ⟨hk, rfl⟩ | h
  · cases hk
    exact ⟨hreg, hkey, canReuseOverloads_refl _⟩
  · rcases Dict.get_of_setDefault h with ⟨hk, rfl⟩ | h
    · cases hk
      exact ⟨hreg, hkey, hreuse⟩
    · exact hi.entries.overloads types k r' h

end

end NumbaCudaMlir.LaunchSpecialization

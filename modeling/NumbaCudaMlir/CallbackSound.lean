import NumbaCudaMlir.LaunchSound

/-!
# Post-load callbacks

A kernel is published before its post-load callback runs and stays published
when the callback raises, so another launch may run it too early. Where a launch
takes a published kernel only once no launch is inside that kernel's callback and
none raised in it, every kernel is launched after its callback.
-/

namespace NumbaCudaMlir

open LaunchState Runs

def Pc.pendingLib : Pc → Option Nat
  | .loading _ _ kernel | .callbackRaised kernel => some kernel.lib
  | _ => none

/-- Every launch of a kernel with a callback comes after that callback returned. -/
def CallbacksFirst : List LogEntry → Prop
  | [] => True
  | .loaded _ :: log => CallbacksFirst log
  | .launched _ _ kernel _ :: log =>
    (kernel.postLoadCallback = true → .loaded kernel.lib ∈ log) ∧ CallbacksFirst log

def loadedLibs : List LogEntry → List Nat
  | [] => []
  | .loaded lib :: log => lib :: loadedLibs log
  | .launched .. :: log => loadedLibs log

theorem mem_loadedLibs {lib : Nat} {log : List LogEntry} : lib ∈ loadedLibs log ↔ .loaded lib ∈ log := by
  induction log with
  | nil => simp [loadedLibs]
  | cons e log ih => cases e <;> simp [loadedLibs, ih]

/-! ## The condition -/

/-- The published kernel under a key, if any, has no callback that is running or has raised. -/
def NotPending (s : LaunchState) (profile : PythonArgProfile) (constants : List ConstantArg) : Prop :=
  ∀ kernel, s.kernels.lookup (profile.family, constants) = some kernel →
    ∀ j, (s.threads j).pendingLib ≠ some kernel.lib

/-- A launch looks up a kernel, or returns from its own compilation, only then. -/
def KernelReady (s : LaunchState) : LaunchEvent → Prop
  | .lookup i true | .compiled i (some _) =>
    match s.threads i with
    | .looking _ profile constants | .compiling _ profile constants => NotPending s profile constants
    | _ => True
  | _ => True

/-! ## The invariant -/

structure CallbackInv (s : LaunchState) : Prop where
  lib_lt : ∀ k ∈ s.kernels, k.2.lib < s.nextLib
  loaded_lt : ∀ lib ∈ loadedLibs s.log, lib < s.nextLib
  loaded_once : (loadedLibs s.log).Nodup
  pending_new : ∀ i lib, (s.threads i).pendingLib = some lib → lib < s.nextLib ∧ lib ∉ loadedLibs s.log
  pending_unique : KeysUnique Pc.pendingLib s.threads
  ready : ∀ k ∈ s.kernels, k.2.postLoadCallback = true →
    k.2.lib ∈ loadedLibs s.log ∨ ∃ j, (s.threads j).pendingLib = some k.2.lib
  first : CallbacksFirst s.log

theorem callbackInv_init : CallbackInv .init where
  lib_lt := nofun
  loaded_lt := nofun
  loaded_once := List.nodup_nil
  pending_new _ _ h := by cases h
  pending_unique _ _ _ h := by cases h
  ready := nofun
  first := trivial

theorem CallbackInv.setPc {s : LaunchState} (h : CallbackInv s) {i : Nat} {pc : Pc}
    (hpc : pc.pendingLib = (s.threads i).pendingLib) : CallbackInv (s.setPc i pc) := by
  have hpend : ∀ j, ((s.setPc i pc).threads j).pendingLib = (s.threads j).pendingLib := by
    intro j
    by_cases hj : j = i
    · rw [hj, ← hpc]; exact congrArg Pc.pendingLib (setAt_self s.threads i pc)
    · exact congrArg Pc.pendingLib (setAt_ne s.threads pc hj)
  refine { h with pending_new := ?_, pending_unique := ?_, ready := ?_ }
  · intro j lib hj
    rw [hpend] at hj
    exact h.pending_new j lib hj
  · intro j l lib hj hl
    rw [hpend] at hj hl
    exact h.pending_unique j l lib hj hl
  · intro k hk hcb
    obtain hl | ⟨j, hj⟩ := h.ready k hk hcb
    · exact .inl hl
    · exact .inr ⟨j, (hpend j).trans hj⟩

theorem CallbackInv.finish {s : LaunchState} (h : CallbackInv s) {i : Nat} (values : List LaunchValue)
    (profile : PythonArgProfile) {kernel : CudaKernelHandle} (hit : Bool) (hi : (s.threads i).pendingLib = none)
    (hk : kernel.postLoadCallback = true → kernel.lib ∈ loadedLibs s.log) :
    CallbackInv (s.finish i values profile kernel hit) := by
  have hs : CallbackInv (s.setPc i .launched) := h.setPc hi.symm
  exact { hs with first := ⟨fun hcb => mem_loadedLibs.mp (hk hcb), h.first⟩ }

theorem CallbackInv.loaded_of_lookup {s : LaunchState} (h : CallbackInv s) {profile : PythonArgProfile}
    {constants : List ConstantArg} {kernel : CudaKernelHandle} (hp : NotPending s profile constants)
    (hl : s.kernels.lookup (profile.family, constants) = some kernel) (hcb : kernel.postLoadCallback = true) :
    kernel.lib ∈ loadedLibs s.log := by
  obtain hd | ⟨j, hj⟩ := h.ready _ (mem_of_lookup hl) hcb
  · exact hd
  · exact absurd hj (hp kernel hl j)

theorem CallbackInv.drop {s : LaunchState} (h : CallbackInv s) : CallbackInv s.drop :=
  { h with
    lib_lt := fun k hk => Nat.lt_succ_of_lt (h.lib_lt k hk)
    loaded_lt := fun lib hl => Nat.lt_succ_of_lt (h.loaded_lt lib hl)
    pending_new := fun i lib hi => ⟨Nat.lt_succ_of_lt (h.pending_new i lib hi).1, (h.pending_new i lib hi).2⟩ }

theorem CallbackInv.emplace {s : LaunchState} (h : CallbackInv s) {key : List ParameterKind × List ConstantArg}
    {kernel : CudaKernelHandle} (hlib : kernel.lib = s.nextLib) (hcb : kernel.postLoadCallback = false) :
    CallbackInv (s.emplace key kernel) :=
  { h.drop with
    lib_lt := List.forall_mem_append.mpr ⟨h.drop.lib_lt, List.forall_mem_singleton.mpr (hlib ▸ Nat.lt_succ_self _)⟩
    ready := List.forall_mem_append.mpr ⟨h.ready, List.forall_mem_singleton.mpr fun ht => by rw [hcb] at ht; cases ht⟩ }

theorem CallbackInv.emplaceLoading {s : LaunchState} (h : CallbackInv s) {i : Nat} {values : List LaunchValue}
    {profile : PythonArgProfile} {key : List ParameterKind × List ConstantArg} {kernel : CudaKernelHandle}
    (hi : (s.threads i).pendingLib = none) (hlib : kernel.lib = s.nextLib) :
    CallbackInv ((s.emplace key kernel).setPc i (.loading values profile kernel)) := by
  have hfresh : ∀ j lib, (s.threads j).pendingLib = some lib → lib ≠ kernel.lib := by
    intro j lib hj
    rw [hlib]
    exact Nat.ne_of_lt (h.pending_new j lib hj).1
  refine { h.drop with lib_lt := ?_, pending_new := ?_, pending_unique := ?_, ready := ?_ }
  · exact List.forall_mem_append.mpr ⟨h.drop.lib_lt, List.forall_mem_singleton.mpr (hlib ▸ Nat.lt_succ_self _)⟩
  · intro j lib hj
    by_cases hji : j = i
    · rw [hji] at hj
      have hj : (setAt s.threads i (.loading values profile kernel) i).pendingLib = some lib := hj
      rw [setAt_self] at hj
      cases hj
      exact ⟨hlib ▸ Nat.lt_succ_self _, fun hl => absurd (h.loaded_lt _ hl) (hlib ▸ Nat.lt_irrefl _)⟩
    · have hj : (setAt s.threads i (.loading values profile kernel) j).pendingLib = some lib := hj
      rw [setAt_ne _ _ hji] at hj
      exact h.drop.pending_new j lib hj
  · refine h.pending_unique.setAt ?_
    intro lib hl j _ hj
    cases hl
    exact hfresh j _ hj rfl
  · have hself : ((s.emplace key kernel).setPc i (.loading values profile kernel)).threads i =
        .loading values profile kernel := setAt_self s.threads i _
    refine List.forall_mem_append.mpr ⟨?_, List.forall_mem_singleton.mpr fun _ => .inr ⟨i, by rw [hself]; rfl⟩⟩
    intro k hk hcb
    obtain hl | ⟨j, hj⟩ := h.ready k hk hcb
    · exact .inl hl
    · have hji : j ≠ i := fun e => by rw [e, hi] at hj; cases hj
      exact .inr ⟨j, (congrArg Pc.pendingLib (setAt_ne s.threads _ hji)).trans hj⟩

theorem CallbackInv.returned {s : LaunchState} (h : CallbackInv s) {i : Nat} {values : List LaunchValue}
    {profile : PythonArgProfile} {kernel : CudaKernelHandle} (hi : s.threads i = .loading values profile kernel) :
    CallbackInv ((s.logLoaded kernel.lib).finish i values profile kernel false) := by
  have hpend : (s.threads i).pendingLib = some kernel.lib := by rw [hi]; rfl
  obtain ⟨hlt, hnew⟩ := h.pending_new i _ hpend
  have hother : ∀ j lib, (setAt s.threads i .launched j).pendingLib = some lib →
      (s.threads j).pendingLib = some lib ∧ lib ≠ kernel.lib := by
    intro j lib hj
    by_cases hji : j = i
    · rw [hji, setAt_self] at hj; cases hj
    · rw [setAt_ne _ _ hji] at hj
      refine ⟨hj, fun e => hji (h.pending_unique j i _ (e ▸ hj) hpend)⟩
  refine { lib_lt := h.lib_lt, loaded_lt := ?_, loaded_once := ?_, pending_new := ?_, pending_unique := ?_,
           ready := ?_, first := ?_ }
  · exact List.forall_mem_cons.mpr ⟨hlt, h.loaded_lt⟩
  · exact List.nodup_cons.mpr ⟨hnew, h.loaded_once⟩
  · intro j lib hj
    obtain ⟨hj, hne⟩ := hother j lib hj
    obtain ⟨hl, hn⟩ := h.pending_new j lib hj
    exact ⟨hl, fun hm => (List.mem_cons.mp hm).elim hne hn⟩
  · intro j l lib hj hl
    exact h.pending_unique j l lib (hother j lib hj).1 (hother l lib hl).1
  · intro k hk hcb
    obtain hl | ⟨j, hj⟩ := h.ready k hk hcb
    · exact .inl (List.mem_cons_of_mem _ hl)
    · by_cases hji : j = i
      · rw [hji, hpend, Option.some.injEq] at hj
        exact .inl (List.mem_cons.mpr (.inl hj.symm))
      · exact .inr ⟨j, (congrArg Pc.pendingLib (setAt_ne s.threads _ hji)).trans hj⟩
  · exact ⟨fun _ => List.mem_cons_self, h.first⟩

theorem callbackInv_step {cfg : DispatcherConfig} {s s' : LaunchState} {e : LaunchEvent} (hinv : Inv cfg s)
    (h : CallbackInv s) (hok : KernelReady s e) (hs : Step cfg s e s') : CallbackInv s' := by
  have hnext {i : Nat} {values : List LaunchValue} {done : List (PythonArgKind × ParameterKind)} {todo : List PyObj}
      (hi : (s.threads i).pendingLib = none) (hc : ClassifiedPrefix (LaunchValue.flattenAll values) done todo) :
      CallbackInv (classifyNext cfg s i values done todo) := by
    rcases classifyNext_cases cfg s i hc with ⟨_, _, _, -, he⟩ | ⟨profile, -, -, he⟩ | ⟨-, he⟩
    · rw [he]; exact h.setPc hi.symm
    · have hb : CallbackInv (s.bindProfile (pyargTypes values) profile) := { h with }
      rw [he]; exact hb.setPc hi.symm
    · rw [he]; exact { h with }
  cases hs with
  | missed hi => exact hnext (by rw [hi]; rfl) ⟨[], rfl, .nil⟩
  | @classified i _ _ _ _ _ hi hc =>
    have hp : PcOk cfg (s.threads i) := hinv.threads i
    rw [hi] at hp
    exact hnext (by rw [hi]; rfl) (ClassifiedPrefix.snoc hp hc)
  | hit hi hl =>
    simp only [KernelReady, hi] at hok
    exact h.finish _ _ true (by rw [hi]; rfl) (h.loaded_of_lookup hok hl)
  | lost hi hl =>
    simp only [KernelReady, hi] at hok
    have hi : (s.drop.threads _).pendingLib = none := congrArg Pc.pendingLib hi
    exact h.drop.finish _ _ false hi (h.loaded_of_lookup hok hl)
  | @emplaced i _ profile constants _ kernel hi _ _ hk =>
    have he : CallbackInv (s.emplace (profile.family, constants) kernel) := h.emplace (by rw [hk]) (by rw [hk])
    have hi : (s.threads i).pendingLib = none := congrArg Pc.pendingLib hi
    exact he.finish _ _ false hi fun hcb => by rw [hk] at hcb; cases hcb
  | emplacedLoading kernel hi _ _ hk => exact h.emplaceLoading (by rw [hi]; rfl) (by rw [hk])
  | loaded hi => exact h.returned hi
  | found hi | classifyRaised hi | extracted hi | extractRaised hi | contextRaised hi | miss hi
  | compileRaised hi | callbackRaised hi => exact h.setPc (by rw [hi]; rfl)

/-- **Post-load callbacks.** In every run whose launches take a published kernel only while its
callback is neither running nor has raised, no kernel with a callback is launched before that callback
returned, and each library's callback returns at most once. -/
theorem callbacks_before_launches {cfg : DispatcherConfig} {es : List LaunchEvent} {s : LaunchState}
    (hok : StepsOk (step cfg) KernelReady .init es) (hr : run (step cfg) .init es = some s) :
    CallbacksFirst s.log ∧ (loadedLibs s.log).Nodup := by
  have hstep : ∀ s e s', Inv cfg s ∧ CallbackInv s → KernelReady s e → step cfg s e = some s' →
      Inv cfg s' ∧ CallbackInv s' := by
    intro s e s' ⟨hi, hc⟩ hok hs
    obtain ⟨-, hs⟩ := step_cases cfg hs
    exact ⟨inv_step hi hs, callbackInv_step hi hc hok hs⟩
  obtain ⟨-, hc⟩ := run_inv (step cfg) hstep ⟨inv_init cfg, callbackInv_init⟩ hok hr
  exact ⟨hc.first, hc.loaded_once⟩

def floatArg : List LaunchValue := [.leaf (.float .float 0)]

def twoLaunches (callbackOk : Bool) : List LaunchEvent :=
  [.begin 0 floatArg, .extract 0 .idle .empty, .lookup 0 true, .compiled 0 (some true), .callback 0 callbackOk,
    .begin 1 floatArg, .extract 1 .idle .empty, .lookup 1 true]

/-- The callback of the first launch raises; the second launch finds the kernel and runs it. -/
theorem failed_callback_kernel_launched :
    ∃ s, run (step (.unspecialised 1)) .init (twoLaunches false) = some s ∧ ¬ CallbacksFirst s.log := by
  refine ⟨_, rfl, fun h => ?_⟩
  exact absurd (h.1 rfl) List.not_mem_nil

theorem loaded_kernel_launched : ∃ s, run (step (.unspecialised 1)) .init (twoLaunches true) = some s ∧
    CallbacksFirst s.log ∧ (loadedLibs s.log).Nodup := by
  have hok : StepsOk (step (.unspecialised 1)) KernelReady .init (twoLaunches true) := by
    refine stepsOk_cons _ rfl trivial (stepsOk_cons _ rfl trivial (stepsOk_cons _ rfl ?_ (stepsOk_cons _ rfl ?_
      (stepsOk_cons _ rfl trivial (stepsOk_cons _ rfl trivial (stepsOk_cons _ rfl trivial
        (stepsOk_cons _ rfl ?_ trivial)))))))
    · intro kernel hl
      cases hl
    · intro kernel hl
      cases hl
    · intro kernel _ j hj
      match j with
      | 0 => cases hj
      | 1 => cases hj
      | j + 2 => cases hj
  exact ⟨_, rfl, callbacks_before_launches hok rfl⟩

end NumbaCudaMlir

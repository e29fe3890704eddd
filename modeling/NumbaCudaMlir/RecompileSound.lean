import NumbaCudaMlir.ConfigureSound
import NumbaCudaMlir.OverloadSound
import NumbaCudaMlir.RecompileAge

/-!
# Soundness of recompilation

A launch that prepares itself takes a native dispatcher as new as the last call
of `recompile` that returned; one that does not may find a kernel that an older
one kept. The runs in which the latter does not happen run new kernels only.
-/

namespace NumbaCudaMlir.Recompile

open Configure (ConfigureState ConfigureEvent ConfigurePc BuildPhase findPhase insertPhase)

/-! ## Invariant -/

structure Inv (s : RecompileState) : Prop where
  dispatcher : DispatcherInv s.d s.returned s.cleared
  returned : s.returned ≤ s.cleared
  cleared : s.cleared ≤ s.begun
  launches : ∀ i, LaunchInv s.d s.returned (s.launches i)
  builders : ∀ i, BuilderInv s.d s.returned (s.conf.threads i)
  recompiles : ∀ j, RecompileInv s.begun s.cleared (s.recompiles j)
  log : ∀ x ∈ s.log, x.startedAt ≤ x.kernel.compiledAt

theorem dispatcherInv_init (numParams : Nat) (extensions : List Nat) :
    DispatcherInv (.init numParams extensions) 0 0 where
  c := ⟨Nat.zero_lt_one, Nat.zero_le _⟩
  table key kd h := by cases h
  bound kd := by cases kd <;> exact Nat.le_refl 0
  marshallers m hm := by cases hm
  kernels kd key r _ := by cases kd <;> exact Nat.zero_le _
  overloads key r h := by cases h
  configs key r h := by cases h

theorem inv_init (numParams : Nat) (extensions : List Nat) (disk : Dict (List NumbaType) CompileResult) :
    Inv (.init (.init numParams extensions) disk) where
  dispatcher := dispatcherInv_init numParams extensions
  returned := Nat.le_refl 0
  cleared := Nat.le_refl 0
  launches _ := trivial
  builders _ := trivial
  recompiles _ := trivial
  log x hx := by cases hx

theorem Inv.launch {s : RecompileState} (hi : Inv s) {d : Dispatcher} (hd : Keeps s.d s.returned s.cleared d) {i : Nat}
    {pc : LaunchPc} (hpc : LaunchInv d s.returned pc) : Inv ((s.setD d).setPc i pc) where
  dispatcher := hd.inv hi.dispatcher
  returned := hi.returned
  cleared := hi.cleared
  launches := Runs.setAt_forall (P := fun _ => LaunchInv s.d s.returned) (Q := fun _ => LaunchInv d s.returned) hpc
    hi.launches fun _ _ h => h.later hd.later
  builders j := (hi.builders j).later hd.later
  recompiles := hi.recompiles
  log := hi.log

theorem Inv.move {s : RecompileState} (hi : Inv s) {i : Nat} {pc : LaunchPc} (hpc : LaunchInv s.d s.returned pc) :
    Inv (s.setPc i pc) :=
  hi.launch (.refl _ _ _) hpc

theorem Inv.ran {s : RecompileState} (hi : Inv s) {d : Dispatcher} (hd : Keeps s.d s.returned s.cleared d) {i : Nat}
    {c : Call} {kernel : CompileResult} (hk : c.startedAt ≤ kernel.compiledAt) : Inv ((s.setD d).ran i c kernel) := by
  have hm : Inv ((s.setD d).setPc i .launched) := hi.launch hd trivial
  refine ⟨hm.dispatcher, hm.returned, hm.cleared, hm.launches, hm.builders, hm.recompiles, ?_⟩
  intro x hx
  rcases List.mem_cons.mp hx with rfl | hx
  · exact hk
  · exact hi.log x hx

/-! ## Results -/

section
variable {d : Dispatcher} {n k : Nat}

theorem fresh_of_returned (hi : DispatcherInv d n k) {c : Call} (hc : c.startedAt ≤ n) {r : CompileResult}
    (hr : n ≤ r.compiledAt) (goal : Goal) : Fresh d c r goal := by
  cases goal with
  | prepare l m => trivial
  | native kd key plain => exact ⟨hc.trans hr, (hi.bound kd).trans hr⟩

theorem launchInv_resume {c : Call} {goal : Goal} {r : CompileResult} (hc : c.startedAt ≤ n) (hg : GoalInv d n c goal)
    (hf : Fresh d c r goal) : LaunchInv d n (resume c r goal) := by
  cases goal with
  | prepare l m => exact ⟨hc, hg⟩
  | native kd key plain => exact ⟨hc, hg, hf⟩

theorem reusable_new (hi : DispatcherInv d n k) (hn : n ≤ k) {a : Attempt} {r : CompileResult}
    (h : reusable d a = some r) : n ≤ r.compiledAt := by
  unfold reusable at h
  split at h
  · obtain ⟨sig, hk⟩ := mem_of_findLaunchConfigOverload h
    exact hi.configs _ r hk
  · obtain ⟨sig, hs⟩ := mem_of_firstReusable h
    exact hn.trans (hi.overloads sig r hs)

theorem resolve_new (hi : DispatcherInv d n k) (hn : n ≤ k) {a : Attempt} {r : CompileResult}
    (h : resolve d a = some r) : n ≤ r.compiledAt := by
  unfold resolve at h
  split at h
  · obtain ⟨sig, hk⟩ := mem_of_resolveLaunchConfigResult h
    exact hi.configs _ r hk
  · obtain ⟨sig, hs⟩ := mem_of_resolveResult h
    exact hn.trans (hi.overloads sig r hs)

theorem existing_new (hi : DispatcherInv d n k) {a : Attempt} {config : LaunchConfig} {sig : List NumbaType}
    {r : CompileResult} (h : existing d a config sig = some r) : n ≤ r.compiledAt := by
  have hfind {argtypes : List NumbaType} (h : findLaunchConfigOverload d.launchConfigOverloads argtypes config = some r) :
      n ≤ r.compiledAt := by
    obtain ⟨sig, hk⟩ := mem_of_findLaunchConfigOverload h
    exact hi.configs _ r hk
  rcases Option.or_eq_some_iff.mp h with h | ⟨-, h⟩
  · exact hfind h
  · split at h
    · exact hfind h
    · cases h

theorem ready_new (hi : DispatcherInv d n k) {argtypes : List NumbaType} {m : Marshaller} {ready : Ready}
    (hm : MarshallerInv d n m) (h : getReadyLaunch d argtypes m = some ready) :
    Made d ready.kernelDispatcher n ∧ GenOk d n ready.kernelDispatcher ready.generation := by
  unfold getReadyLaunch at h
  split at h
  · split at h
    · split at h
      · cases h
      · cases h; exact ⟨hi.c, nofun⟩
    · cases h
  · split at h
    · cases h
    · split at h
      · split at h
        · cases h
        · next hcur =>
          cases h
          have hgen : m.launchConfigGeneration = some d.launchConfigGeneration :=
            Decidable.not_not.mp fun h => hcur (.inl h)
          exact ⟨(hm.generation _ hgen).2 rfl, hm.generation⟩
      · cases h

end

/-! ## Steps of a launch -/

section
variable {s : RecompileState} {i : Nat} {c : Call} {launcher : Launcher} {m : Marshaller}

theorem Inv.prepare (hi : Inv s) (hc : c.startedAt ≤ s.returned) (hl : Made s.d launcher.kernelDispatcher 0)
    (hm : MarshallerInv s.d s.returned m) : Inv (prepare s i c launcher m) := by
  unfold Recompile.prepare
  split
  · exact hi.move trivial
  split
  · next ready hready =>
    obtain ⟨hmade, hgen⟩ := ready_new hi.dispatcher hm hready
    have hk := (shrinks_touch s.d ready).keeps s.returned s.cleared
    exact hi.launch hk ⟨hc, hl.later hk.later, (hmade.mono hc).later hk.later, hgen.later hk.later⟩
  simp only
  split
  · exact hi.move ⟨hc, hl, hm⟩
  · have hk : Keeps s.d s.returned s.cleared (restore s.d m (activeLaunchConfig s.d m)) := keeps_restore hm _
    exact hi.launch hk ⟨hc, ⟨hl.later hk.later, hm.later hk.later⟩, trivial⟩

theorem Inv.lookAgain (hi : Inv s) (hc : c.startedAt ≤ s.returned) (hl : Made s.d launcher.kernelDispatcher 0)
    (hm : MarshallerInv s.d s.returned m) : Inv (lookAgain s i c launcher m) := by
  unfold Recompile.lookAgain
  simp only
  split
  · exact hi.move ⟨hc, hl, hm⟩
  · exact hi.move trivial

theorem Inv.select {usesLaunchConfig : Nat → Bool} {config : Option LaunchConfig} {smem : Int} (hi : Inv s)
    (hc : c.startedAt ≤ s.returned) (hl : Made s.d launcher.kernelDispatcher 0)
    (hm : MarshallerInv s.d s.returned m) : Inv (select usesLaunchConfig s i c launcher m config smem) := by
  have hcur : Made s.d s.d.c c.startedAt := hi.dispatcher.c.mono hc
  unfold Recompile.select
  split
  · exact hi.move ⟨hc, hl, hcur, nofun⟩
  · split
    · exact hi.move ⟨hc, hl⟩
    split
    · next hreg =>
      -- The table has the marshaller's native dispatcher, so it is as new as the table.
      have htable := hi.dispatcher.table _ _ (of_decide_eq_true hreg).2
      exact hi.move ⟨hc, hl, htable.mono hc, hm.generation⟩
    · exact hi.move ⟨hc, hl⟩
  · split
    · exact hi.move ⟨hc, hl⟩
    · exact hi.move ⟨hc, hl, hcur, nofun⟩

theorem Inv.registered {config : LaunchConfig} {smem : Int} {p : Dispatcher × BuildPhase} (hi : Inv s)
    (hc : c.startedAt ≤ s.returned) (hl : Made s.d launcher.kernelDispatcher 0)
    (hk : Keeps s.d s.returned s.cleared p.1) (hb : BuiltPhase p.1 s.returned p.2) :
    Inv (registered s i c launcher config smem p) := by
  obtain ⟨d, phase⟩ := p
  cases phase with
  | making kd g => exact hi.launch hk ⟨hc, hl.later hk.later, hb.1.mono hc, hb.2⟩
  | _ => exact hi.launch hk ⟨hc, hl.later hk.later⟩

theorem rebind_inv {d : Dispatcher} {n : Nat} {ready : Ready} (hm : MarshallerInv d n m)
    (hr : Made d ready.kernelDispatcher 0) (hg : GenOk d n ready.kernelDispatcher ready.generation)
    (hok : rebinds m ready = true ∨ launcher.kernelDispatcher = m.kernelDispatcher) :
    MarshallerInv d n (rebind m launcher ready).1 ∧
      (rebind m launcher ready).2.kernelDispatcher = ready.kernelDispatcher := by
  unfold rebind
  split
  · exact ⟨⟨hr, rfl, hg, hm.adjusted⟩, rfl⟩
  · next hn =>
    have hsame : ready.kernelDispatcher = m.kernelDispatcher :=
      Decidable.not_not.mp fun h => hn (decide_eq_true (.inl h))
    exact ⟨hm, (hok.resolve_left hn).trans hsame.symm⟩

theorem adjust_inv {d : Dispatcher} {n : Nat} {ready : Ready} (hm : MarshallerInv d n m)
    (hl : launcher.kernelDispatcher = ready.kernelDispatcher) :
    MarshallerInv d n (adjust m launcher ready).1 ∧
      (adjust m launcher ready).2.kernelDispatcher = ready.kernelDispatcher := by
  have hadd (key : Nat × Option Nat × Int) (l : Launcher) (h : l.kernelDispatcher = key.1) :
      MarshallerInv d n { m with adjusted := some (key, l) } :=
    ⟨hm.made, hm.launcher, hm.generation, by intro k l' e; cases e; exact h⟩
  unfold adjust
  simp only
  split
  · exact ⟨hm, hl⟩
  split
  · next k adjusted hk =>
    split
    · next he => exact ⟨hm, by rw [hm.adjusted k adjusted hk, he]⟩
    · exact ⟨hadd _ _ rfl, rfl⟩
  · exact ⟨hadd _ _ rfl, rfl⟩

theorem bindLauncher_inv {d : Dispatcher} {n : Nat} {ready : Ready} (hm : MarshallerInv d n m)
    (hr : Made d ready.kernelDispatcher 0) (hg : GenOk d n ready.kernelDispatcher ready.generation)
    (hok : rebinds m ready = true ∨ launcher.kernelDispatcher = m.kernelDispatcher) :
    MarshallerInv d n (bindLauncher m launcher ready).1 ∧
      (bindLauncher m launcher ready).2.kernelDispatcher = ready.kernelDispatcher := by
  obtain ⟨hm', hl'⟩ := rebind_inv hm hr hg hok
  exact adjust_inv hm' hl'

theorem Inv.bind {ready : Ready} (hi : Inv s) (hpc : LaunchInv s.d s.returned (.binding c launcher ready))
    (hm : MarshallerInv s.d s.returned m)
    (hok : rebinds m ready = true ∨ launcher.kernelDispatcher = m.kernelDispatcher) :
    Inv ((s.setD (setMarshaller s.d c.marshaller (bindLauncher m launcher ready).1)).setPc i
      (.launching c (bindLauncher m launcher ready).2 false)) := by
  obtain ⟨hc, -, hready, hgen⟩ := hpc
  obtain ⟨hm', hl'⟩ := bindLauncher_inv hm (hready.mono (Nat.zero_le _)) hgen hok
  have hk : Keeps s.d s.returned s.cleared (setMarshaller s.d c.marshaller (bindLauncher m launcher ready).1) :=
    keeps_setMarshaller hm'
  have hmade : Made s.d (bindLauncher m launcher ready).2.kernelDispatcher c.startedAt := by
    rw [hl']; exact hready
  exact hi.launch hk ⟨hc, (hmade.mono (Nat.zero_le _)).later hk.later, fun _ => hmade.later hk.later⟩

/-! ## Steps of a compilation -/

variable {goal : Goal} {a : Attempt} {r : CompileResult}

theorem Inv.resume (hi : Inv s) {d : Dispatcher} (hd : Keeps s.d s.returned s.cleared d)
    (hc : c.startedAt ≤ s.returned) (hg : GoalInv s.d s.returned c goal) (hf : Fresh s.d c r goal) :
    Inv ((s.setD d).setPc i (resume c r goal)) :=
  hi.launch hd (launchInv_resume hc (hg.later hd.later) (hf.later hd.later hg))

theorem Inv.publish {sig : List NumbaType} (hi : Inv s) (hc : c.startedAt ≤ s.returned)
    (hg : GoalInv s.d s.returned c goal) (hp : PhaseInv s.d s.returned c goal (.publishing a sig r))
    (hok : a.launchConfig = none → s.cleared ≤ r.compiledAt) : Inv (publish s i c goal a sig r) := by
  obtain ⟨-, hnew, hf⟩ := hp
  unfold Recompile.publish
  split
  · next config hconfig =>
    split
    · split
      · exact hi.move trivial
      · exact hi.move ⟨hc, hg, trivial⟩
    · next hgen =>
      have hr : s.returned ≤ r.compiledAt := hnew (Decidable.not_not.mp hgen)
      split
      · next first hfirst =>
        have hnew := existing_new hi.dispatcher hfirst
        exact hi.resume (.refl _ _ _) hc hg (fresh_of_returned hi.dispatcher hc hnew goal)
      · exact hi.resume ((keeps_setLaunchConfigOverload hr).trans (keeps_setLaunchConfigOverload hr)) hc hg hf
  · next hconfig =>
    have hk : Keeps s.d s.returned s.cleared { s.d with overloads := s.d.overloads.set sig r } :=
      keeps_setOverload (hok hconfig)
    exact hi.launch hk ⟨hc, hg.later hk.later, hf.later hk.later hg⟩

theorem Inv.compile {outcome : CompileOutcome} (hi : Inv s) (hc : c.startedAt ≤ s.returned)
    (hg : GoalInv s.d s.returned c goal) (ha : a.generation ≤ s.d.launchConfigGeneration) :
    Inv (compile s i c goal a outcome) := by
  have shrinksRequire (d : Dispatcher) : Shrinks d { d with requiresLaunchConfig := true } :=
    ⟨rfl, rfl, rfl, rfl, fun _ _ h => h, fun _ _ h => h, fun _ _ h => h⟩
  unfold Recompile.compile
  split
  · exact hi.move trivial
  · next positions tracker =>
    have hr : Keeps s.d s.returned s.cleared (s.d.recordLiteralArgPositions positions s.returned) :=
      ⟨fun h => (keeps_recordLiteral h positions).1, (keeps_recordLiteral hi.dispatcher positions).2⟩
    have hk : Keeps s.d s.returned s.cleared
        (if (s.d.recordLiteralArgPositions positions s.returned).literalArgFlags ≠ a.literalArgFlags ∧
            a.launchConfig = none ∧ tracker then
          { s.d.recordLiteralArgPositions positions s.returned with requiresLaunchConfig := true }
        else s.d.recordLiteralArgPositions positions s.returned) := by
      split
      · exact hr.trans ((shrinksRequire _).keeps _ _)
      · exact hr
    simp only
    split
    · exact hi.launch hk ⟨hc, hg.later hk.later, trivial⟩
    · exact hi.launch hk trivial
  · next sig smem tracker =>
    -- The result is newer than every call of `recompile` that has returned.
    have hnew : s.returned ≤ s.begun := hi.returned.trans hi.cleared
    have hf : Fresh s.d c ⟨s.begun, smem⟩ goal := fresh_of_returned hi.dispatcher hc hnew goal
    simp only
    split
    · split
      · have hk := (shrinksRequire s.d).keeps s.returned s.cleared
        exact hi.launch hk ⟨hc, hg.later hk.later, ha, fun _ => hnew, hf.later hk.later hg⟩
      · exact hi.move trivial
    · exact hi.move ⟨hc, hg, ha, fun _ => hnew, hf⟩

end

/-! ## Configures -/

theorem BuilderInv.of_built {d : Dispatcher} {n : Nat} {phase : BuildPhase} (h : BuiltPhase d n phase)
    (key : ConfigureKey) (retries event : Nat) : BuilderInv d n (.building key retries event phase) := by
  cases phase with
  | making kd g => exact ⟨h.1.mono (Nat.zero_le _), h.2⟩
  | _ => trivial

theorem shrinks_of_tables {d : Dispatcher} (cache : Dict ConfigureKey Nat) (inflight : Dict ConfigureKey Nat)
    (events : List Bool) :
    Shrinks d { d with configureCache := cache, configureCacheInflight := inflight, events := events } :=
  ⟨rfl, rfl, rfl, rfl, fun _ _ h => h, fun _ _ h => h, fun _ _ h => h⟩

structure ConfigureKeeps (conf : ConfigureState) (n k : Nat) (conf' : ConfigureState) : Prop where
  dispatcher : Keeps conf.d n k conf'.d
  builders : (∀ i, BuilderInv conf.d n (conf.threads i)) → ∀ i, BuilderInv conf'.d n (conf'.threads i)

section
variable {conf : ConfigureState} {n k : Nat}

theorem configureKeeps_d {d : Dispatcher} (hd : Keeps conf.d n k d) : ConfigureKeeps conf n k { conf with d := d } :=
  ⟨hd, fun hb i => (hb i).later hd.later⟩

theorem configureKeeps_setPc {d : Dispatcher} (hd : Keeps conf.d n k d) {i : Nat} {pc : ConfigurePc}
    (hpc : BuilderInv d n pc) : ConfigureKeeps conf n k ({ conf with d := d }.setPc i pc) := by
  refine ⟨hd, fun hb j => ?_⟩
  by_cases h : j = i
  · subst h; rw [ConfigureState.setPc_self]; exact hpc
  · rw [ConfigureState.setPc_ne _ _ h]; exact (hb j).later hd.later

theorem configureKeeps_move {i : Nat} {pc : ConfigurePc} (hpc : BuilderInv conf.d n pc) :
    ConfigureKeeps conf n k (conf.setPc i pc) :=
  configureKeeps_setPc (.refl conf.d n k) hpc

theorem ConfigureKeeps.trans {conf' conf'' : ConfigureState} (h : ConfigureKeeps conf n k conf')
    (h' : ConfigureKeeps conf' n k conf'') : ConfigureKeeps conf n k conf'' :=
  ⟨h.dispatcher.trans h'.dispatcher, fun hb => h'.builders (h.builders hb)⟩

theorem configureKeeps_release {key : ConfigureKey} {event i : Nat} {pc : ConfigurePc} (hpc : BuilderInv conf.d n pc) :
    ConfigureKeeps conf n k ((conf.release key event).setPc i pc) := by
  have hs := (shrinks_of_tables (d := conf.d) conf.d.configureCache
    (if conf.d.configureCacheInflight.get key = some event then conf.d.configureCacheInflight.erase key
      else conf.d.configureCacheInflight) (conf.d.events.set event true)).keeps n k
  exact configureKeeps_setPc hs (hpc.later hs.later)

theorem configureKeeps_store (key : ConfigureKey) (m : Nat) : ConfigureKeeps conf n k (conf.store key m) := by
  simp only [ConfigureState.store]
  generalize Dict.popFirst^[_] _ = cache
  exact configureKeeps_d ((shrinks_of_tables cache conf.d.configureCacheInflight conf.d.events).keeps n k)

theorem configureKeeps_look (i : Nat) (key : ConfigureKey) (retries : Nat) :
    ConfigureKeeps conf n k (Configure.look conf i key retries) := by
  unfold Configure.look
  split
  · exact configureKeeps_setPc ((shrinks_of_tables _ _ _).keeps n k) trivial
  split
  · exact configureKeeps_setPc ((shrinks_of_tables _ _ _).keeps n k) trivial
  · exact configureKeeps_move trivial

theorem configureKeeps_finish (i : Nat) (key : ConfigureKey) (retries event m : Nat) :
    ConfigureKeeps conf n k (Configure.finish conf i key retries event m) := by
  unfold Configure.finish
  split
  · exact configureKeeps_setPc ((shrinks_of_tables _ _ _).keeps n k) trivial
  split
  · split <;> exact configureKeeps_setPc ((shrinks_of_tables _ _ _).keeps n k) trivial
  · exact (configureKeeps_store key m).trans (configureKeeps_release trivial)

theorem configureStep_keeps {usesLaunchConfig : Nat → Bool} {conf' : ConfigureState} {e : ConfigureEvent}
    (hd : DispatcherInv conf.d n k) (hb : ∀ i, BuilderInv conf.d n (conf.threads i)) (he : e ≠ .recompile)
    (h : Configure.step usesLaunchConfig n conf e = some conf') : ConfigureKeeps conf n k conf' := by
  cases Configure.step_cases h with
  | begin hpc | wake hpc => exact configureKeeps_move trivial
  | look hpc => exact configureKeeps_look ..
  | read hpc =>
    apply configureKeeps_move
    unfold Configure.readPhase
    split
    · trivial
    · exact ⟨hd.c.mono (Nat.zero_le _), by intro _ h; cases h⟩
  | find hpc => exact configureKeeps_setPc (keeps_find _) (.of_built (built_find hd _) _ _ _)
  | insert hpc => exact configureKeeps_setPc (keeps_insert _ _) (.of_built (built_insert hd _ _) _ _ _)
  | @make i key retries event kd g hpc =>
    have hbuilt := hb i
    rw [hpc] at hbuilt
    have hm : MarshallerInv conf.d n (Configure.marshaller key kd g) :=
      ⟨hbuilt.1, rfl, hbuilt.2, by intro _ _ h; cases h⟩
    exact configureKeeps_setPc (keeps_newMarshaller hm) trivial
  | fail hpc => exact configureKeeps_setPc ((shrinks_of_tables _ _ _).keeps n k) trivial
  | finish hpc => exact configureKeeps_finish ..
  | clearConfigureCache => exact configureKeeps_d ((shrinks_of_tables _ _ _).keeps n k)
  | recordLiteralArgPositions positions =>
    exact configureKeeps_d ⟨fun h => (keeps_recordLiteral h positions).1, (keeps_recordLiteral hd positions).2⟩
  | recompile => exact absurd rfl he
  | markRequiresLaunchConfig | setExtensions =>
    apply configureKeeps_d
    apply Shrinks.keeps
    exact ⟨rfl, rfl, rfl, rfl, fun _ _ h => h, fun _ _ h => h, fun _ _ h => h⟩

end

/-! ## Where recompilation is effective -/

/-- The native dispatcher is as new as the launch needs, or has no kernel for its arguments. -/
def NoOldKernel (d : Dispatcher) (c : Call) (kd : Nat) (key : NativeKey) : Prop :=
  c.startedAt ≤ bornAt d kd ∨ (kernelsOf d kd).lookup key = none

/-- A launch that was not prepared finds no kernel of a native dispatcher older than a call of
`recompile` that had returned; the launcher that a launch has read is still the marshaller's when it
is used; and what enters `overloads` was compiled after the calls of `recompile` that cleared them. -/
def LaunchFresh (persistentCache : Bool) (s : RecompileState) (i : Nat) (e : Event) : Prop :=
  match e, s.launches i with
  | .lookup _ key, .launching c launcher true => NoOldKernel s.d c launcher.kernelDispatcher key
  | .emplace _, .emplacing c kd key true _ => NoOldKernel s.d c kd key
  | .bind _, .binding c launcher ready =>
    ∀ m, s.d.marshallers[c.marshaller]? = some m →
      rebinds m ready = true ∨ launcher.kernelDispatcher = m.kernelDispatcher
  | .compileLoad _, .compiling _ _ (.loading a) =>
    a.launchConfig = none → s.hasPlanners = false → persistentCache = true →
      ∀ r, s.disk.get a.argtypes = some r → s.cleared ≤ r.compiledAt
  | .compilePublish _, .compiling _ _ (.publishing a _ r) => a.launchConfig = none → s.cleared ≤ r.compiledAt
  | _, _ => True

def StepFresh (persistentCache : Bool) (s : RecompileState) (e : Event) : Prop :=
  match e with
  | .lookup i _ | .emplace i | .bind i | .compileLoad i | .compilePublish i => LaunchFresh persistentCache s i e
  | _ => True

/-! ## Steps -/

theorem lookup_mem {l : List (NativeKey × CompileResult)} {key : NativeKey} {r : CompileResult}
    (h : l.lookup key = some r) : (key, r) ∈ l := by
  obtain ⟨l₁, l₂, hl, -⟩ := List.lookup_eq_some_iff.mp h
  rw [hl]; simp

theorem found_new {d : Dispatcher} {n k : Nat} (hi : DispatcherInv d n k) {c : Call} {kd : Nat} {key : NativeKey}
    {plain : Bool} {r : CompileResult} (hmade : plain = false → Made d kd c.startedAt)
    (hok : plain = true → NoOldKernel d c kd key) (h : (kernelsOf d kd).lookup key = some r) :
    c.startedAt ≤ r.compiledAt := by
  have hborn : c.startedAt ≤ bornAt d kd := by
    cases plain with
    | false => exact (hmade rfl).2
    | true =>
      rcases hok rfl with hb | hn
      · exact hb
      · rw [hn] at h; cases h
  exact hborn.trans (hi.kernels kd key r (lookup_mem h))

section
variable {usesLaunchConfig : Nat → Bool} {canCompile persistentCache : Bool}

theorem stepLaunch_inv {s s' : RecompileState} {i : Nat} {e : Event} (hi : Inv s)
    (hok : LaunchFresh persistentCache s i e)
    (h : stepLaunch usesLaunchConfig canCompile persistentCache s i e = some s') : Inv s' := by
  have hpc := hi.launches i
  unfold stepLaunch at h
  split at h
  -- launch
  · obtain ⟨m, hm, rfl⟩ := Option.map_eq_some_iff.mp h
    have hmi := hi.dispatcher.marshallers m (List.mem_of_getElem? hm)
    have hl : Made s.d m.launcher.kernelDispatcher 0 := by rw [hmi.launcher]; exact hmi.made
    simp only
    split
    · exact hi.move ⟨Nat.le_refl _, hl⟩
    · exact hi.move ⟨Nat.le_refl _, hl, nofun⟩
  -- ready
  · next c launcher hl =>
    rw [hl] at hpc
    obtain ⟨m, hm, rfl⟩ := Option.map_eq_some_iff.mp h
    have hmi := hi.dispatcher.marshallers m (List.mem_of_getElem? hm)
    split
    · exact hi.move trivial
    split
    · next ready hready =>
      obtain ⟨hmade, hgen⟩ := ready_new hi.dispatcher hmi hready
      have hk := (shrinks_touch s.d ready).keeps s.returned s.cleared
      exact hi.launch hk ⟨hpc.1, hpc.2.later hk.later, (hmade.mono hpc.1).later hk.later, hgen.later hk.later⟩
    · exact hi.move ⟨hpc.1, hpc.2, hmi⟩
  -- prepare
  · next hl =>
    rw [hl] at hpc
    cases h
    exact hi.prepare hpc.1 hpc.2.1 hpc.2.2
  -- compileStart
  · next hl =>
    rw [hl] at hpc
    split at h
    · next a ha =>
      cases h
      obtain ⟨_, -, ha⟩ := Option.bind_eq_some_iff.mp ha
      obtain ⟨_, -, rfl⟩ := Option.map_eq_some_iff.mp ha
      exact hi.move ⟨hpc.1, hpc.2.1, Nat.le_refl _⟩
    · cases h; exact hi.move trivial
  -- compileLook
  · next c goal a hl =>
    rw [hl] at hpc
    obtain ⟨hc, hg, ha⟩ := hpc
    split at h
    · next r hr =>
      cases h
      have hnew := reusable_new hi.dispatcher hi.returned hr
      exact hi.move (launchInv_resume hc hg (fresh_of_returned hi.dispatcher hc hnew goal))
    split at h
    · split at h
      · next r hr =>
        cases h
        have hnew := resolve_new hi.dispatcher hi.returned hr
        exact hi.move (launchInv_resume hc hg (fresh_of_returned hi.dispatcher hc hnew goal))
      · cases h; exact hi.move trivial
    · cases h; exact hi.move ⟨hc, hg, ha⟩
  -- compileLoad
  · next c goal a hl =>
    rw [hl] at hpc
    obtain ⟨hc, hg, ha⟩ := hpc
    split at h
    · cases h; exact hi.move ⟨hc, hg, ha⟩
    next hcond =>
    split at h
    · next r hr =>
      cases h
      simp only [LaunchFresh, hl] at hok
      have hnew : s.cleared ≤ r.compiledAt := by
        apply hok _ _ _ r hr
        · exact Decidable.not_not.mp fun h => hcond (.inl h)
        · exact Bool.eq_false_iff.mpr fun h => hcond (.inr (.inl h))
        · exact Decidable.not_not.mp fun h => hcond (.inr (.inr h))
      exact hi.resume (keeps_setOverload hnew) hc hg
        (fresh_of_returned hi.dispatcher hc (hi.returned.trans hnew) goal)
    · cases h; exact hi.move ⟨hc, hg, ha⟩
  -- compile
  · next hl =>
    rw [hl] at hpc
    cases h
    exact hi.compile hpc.1 hpc.2.1 hpc.2.2
  -- compilePublish
  · next hl =>
    rw [hl] at hpc
    simp only [LaunchFresh, hl] at hok
    cases h
    exact hi.publish hpc.1 hpc.2.1 hpc.2.2 hok
  -- compileSave
  · next hl =>
    rw [hl] at hpc
    obtain ⟨hc, hg, hf⟩ := hpc
    cases h
    have hm := hi.move (i := i) (launchInv_resume hc hg hf)
    exact ⟨hm.dispatcher, hm.returned, hm.cleared, hm.launches, hm.builders, hm.recompiles, hm.log⟩
  -- lookAgain
  · next hl =>
    rw [hl] at hpc
    cases h
    exact hi.lookAgain hpc.1 hpc.2.1 hpc.2.2
  -- select
  · next hl =>
    rw [hl] at hpc
    cases h
    exact hi.select hpc.1 hpc.2.1 hpc.2.2
  -- find
  · next config _ hl =>
    rw [hl] at hpc
    cases h
    exact hi.registered hpc.1 hpc.2 (keeps_find _) (built_find hi.dispatcher _)
  -- insert
  · next hl =>
    rw [hl] at hpc
    cases h
    exact hi.registered hpc.1 hpc.2 (keeps_insert _ _) (built_insert hi.dispatcher _ _)
  -- bind
  · next c launcher ready hl =>
    rw [hl] at hpc
    simp only [LaunchFresh, hl] at hok
    obtain ⟨m, hm, rfl⟩ := Option.map_eq_some_iff.mp h
    exact hi.bind hpc (hi.dispatcher.marshallers m (List.mem_of_getElem? hm)) (hok m hm)
  -- lookup
  · next key c launcher plain hl =>
    rw [hl] at hpc
    obtain ⟨hc, hmade, hnew⟩ := hpc
    split at h
    · next kernel hk =>
      cases h
      refine hi.ran (.refl _ _ _) (found_new hi.dispatcher hnew ?_ hk)
      rintro rfl
      simpa only [LaunchFresh, hl] using hok
    · cases h; exact hi.move ⟨hc, ⟨hmade, hnew⟩, trivial⟩
  -- emplace
  · next c kd key plain r hl =>
    rw [hl] at hpc
    obtain ⟨hc, hg, hf⟩ := hpc
    split at h
    · next first hk =>
      cases h
      refine hi.ran (.refl _ _ _) (found_new hi.dispatcher hg.2 ?_ hk)
      rintro rfl
      simpa only [LaunchFresh, hl] using hok
    · cases h; exact hi.ran (keeps_addKernel hf.2) hf.1
  · cases h

theorem RecompileInv.mono {b b' k k' : Nat} (hb : b ≤ b') (hk : k ≤ k') {pc : RecompilePc}
    (h : RecompileInv b k pc) : RecompileInv b' k' pc := by
  cases pc with
  | begun n => exact Nat.le_trans h hb
  | cleared n | flushed n => exact Nat.le_trans h hk
  | _ => trivial

theorem recompiles_setAt {f : Nat → RecompilePc} {j b b' k k' : Nat} {pc : RecompilePc}
    (hs : ∀ j, RecompileInv b k (f j)) (hb : b ≤ b') (hk : k ≤ k') (hpc : RecompileInv b' k' pc) (l : Nat) :
    RecompileInv b' k' (Runs.setAt f j pc l) := by
  by_cases h : l = j
  · subst h; rw [Runs.setAt_self]; exact hpc
  · rw [Runs.setAt_ne _ _ h]; exact (hs l).mono hb hk

theorem stepRecompile_inv {s s' : RecompileState} {j : Nat} {e : Event} (hi : Inv s)
    (h : stepRecompile s j e = some s') : Inv s' := by
  have hpc := hi.recompiles j
  unfold stepRecompile at h
  split at h
  -- recompileBegin
  · cases h
    refine ⟨hi.dispatcher, hi.returned, hi.cleared.trans (Nat.le_succ _), hi.launches, hi.builders, ?_, hi.log⟩
    exact recompiles_setAt hi.recompiles (Nat.le_succ _) (Nat.le_refl _) (Nat.le_refl (s.begun + 1))
  -- recompileClear
  · next n hl =>
    rw [hl] at hpc
    cases h
    have hs : Shrinks s.d { s.d with overloads := .empty } :=
      ⟨rfl, rfl, rfl, rfl, fun _ _ h => h, fun _ _ h => (by cases h), fun _ _ h => h⟩
    have hd := hi.dispatcher.shrink hs
    refine ⟨⟨hd.c, hd.table, hd.bound, hd.marshallers, hd.kernels, fun _ _ h => (by cases h), hd.configs⟩,
      hi.returned.trans (Nat.le_max_left _ _), Nat.max_le.mpr ⟨hi.cleared, hpc⟩,
      fun i => (hi.launches i).later (hs.later _), fun i => (hi.builders i).later (hs.later _), ?_, hi.log⟩
    exact recompiles_setAt hi.recompiles (Nat.le_refl _) (Nat.le_max_left _ _) (Nat.le_max_right s.cleared n)
  -- recompileFlush
  · next n hl =>
    rw [hl] at hpc
    cases h
    refine ⟨hi.dispatcher, hi.returned, hi.cleared, hi.launches, hi.builders, ?_, hi.log⟩
    exact recompiles_setAt hi.recompiles (Nat.le_refl _) (Nat.le_refl _) hpc
  -- recompileReplace
  · next n hl =>
    rw [hl] at hpc
    cases h
    obtain ⟨hd, hlater⟩ := newGeneration_inv hi.dispatcher (Nat.le_max_left s.returned n)
    refine ⟨hd, Nat.max_le.mpr ⟨hi.returned, hpc⟩, hi.cleared, fun i => (hi.launches i).later hlater,
      fun i => (hi.builders i).later hlater, ?_, hi.log⟩
    exact recompiles_setAt hi.recompiles (Nat.le_refl _) (Nat.le_refl _) trivial
  · cases h

theorem step_inv {s s' : RecompileState} {e : Event} (hi : Inv s) (hok : StepFresh persistentCache s e)
    (h : step usesLaunchConfig canCompile persistentCache s e = some s') : Inv s' := by
  cases e with
  | configure e =>
    have hne : e ≠ .recompile := by rintro rfl; cases h
    have hstep : ∃ conf, Configure.step usesLaunchConfig s.returned s.conf e = some conf ∧
        { s with conf := conf } = s' := by
      cases e with
      | recompile => exact absurd rfl hne
      | _ => exact Option.map_eq_some_iff.mp h
    obtain ⟨conf, hc, rfl⟩ := hstep
    have hk := configureStep_keeps hi.dispatcher hi.builders hne hc
    exact ⟨hk.dispatcher.inv hi.dispatcher, hi.returned, hi.cleared,
      fun i => (hi.launches i).later hk.dispatcher.later, hk.builders hi.builders, hi.recompiles, hi.log⟩
  | setPlanners b =>
    cases h
    exact ⟨hi.dispatcher, hi.returned, hi.cleared, hi.launches, hi.builders, hi.recompiles, hi.log⟩
  | recompileBegin | recompileClear | recompileFlush | recompileReplace => exact stepRecompile_inv hi h
  | lookup | emplace | bind | compileLoad | compilePublish => exact stepLaunch_inv hi hok h
  | _ =>
    refine stepLaunch_inv hi ?_ h
    trivial

/-- **Recompilation is effective** in every run whose steps meet `StepFresh`: a launch runs only
kernels compiled after every call of `recompile` that had returned when it started. -/
theorem ran_new {numParams : Nat} {extensions : List Nat} {disk : Dict (List NumbaType) CompileResult}
    {es : List Event} {s : RecompileState}
    (hok : Runs.StepsOk (step usesLaunchConfig canCompile persistentCache) (StepFresh persistentCache)
      (.init (.init numParams extensions) disk) es)
    (h : Runs.run (step usesLaunchConfig canCompile persistentCache) (.init (.init numParams extensions) disk) es = some s) :
    ∀ x ∈ s.log, x.startedAt ≤ x.kernel.compiledAt :=
  (Runs.run_inv _ (fun _ _ _ hi hok h => step_inv hi hok h) (inv_init numParams extensions disk) hok h).log

end

/-! ## A retained marshaller -/

def launchConfig : LaunchConfig := ⟨(1, 1, 1), (32, 1, 1), none, none⟩

def configure (i : Nat) : List Event :=
  [.configure (.begin i launchConfig 0), .configure (.look i), .configure (.read i), .configure (.make i),
    .configure (.finish i)]

def recompile (j : Nat) : List Event := [.recompileBegin j, .recompileClear j, .recompileFlush j, .recompileReplace j]

def firstLaunch (i m : Nat) : List Event :=
  [.launch i m [.leaf (.long .int 1)] [.scalar (.integer true .s8)] 1, .lookup i ([.integer], []), .compileStart i,
    .compileLook i, .compileLoad i, .compile i (.ok [.scalar (.integer true .s8)] 0 false), .compilePublish i,
    .compileSave i, .emplace i]

def nextLaunch (i m : Nat) : List Event :=
  [.launch i m [.leaf (.long .int 1)] [.scalar (.integer true .s8)] 1, .lookup i ([.integer], [])]

/-- A marshaller that has launched once runs its old kernel after a recompile. -/
theorem retained_runs_old : ∃ s,
    Runs.run (step (fun _ => false) true false) (.init (.init 1 []) .empty)
      (configure 0 ++ firstLaunch 0 0 ++ recompile 0 ++ nextLaunch 1 0) = some s ∧
    ∃ x ∈ s.log, x.kernel.compiledAt < x.startedAt :=
  ⟨_, rfl, _, List.mem_cons_self .., Nat.zero_lt_one⟩

/-- A marshaller that has not launched compiles anew. -/
theorem ran_new_retained : ∃ s,
    Runs.run (step (fun _ => false) true false) (.init (.init 1 []) .empty)
      (configure 0 ++ recompile 0 ++ firstLaunch 0 0) = some s ∧
    ∀ x ∈ s.log, x.startedAt ≤ x.kernel.compiledAt := by
  refine ⟨_, rfl, ?_⟩
  apply @ran_new (fun _ => false) true false 1 [] .empty (configure 0 ++ recompile 0 ++ firstLaunch 0 0)
  · apply Runs.stepsOk_cons _ rfl trivial
    apply Runs.stepsOk_cons _ rfl trivial
    apply Runs.stepsOk_cons _ rfl trivial
    apply Runs.stepsOk_cons _ rfl trivial
    apply Runs.stepsOk_cons _ rfl trivial
    apply Runs.stepsOk_cons _ rfl trivial
    apply Runs.stepsOk_cons _ rfl trivial
    apply Runs.stepsOk_cons _ rfl trivial
    apply Runs.stepsOk_cons _ rfl trivial
    apply Runs.stepsOk_cons _ rfl trivial
    apply Runs.stepsOk_cons _ rfl (.inr rfl)
    apply Runs.stepsOk_cons _ rfl trivial
    apply Runs.stepsOk_cons _ rfl trivial
    apply Runs.stepsOk_cons _ rfl (fun _ _ h => nomatch h)
    apply Runs.stepsOk_cons _ rfl trivial
    apply Runs.stepsOk_cons _ rfl (fun _ => Nat.le_refl _)
    apply Runs.stepsOk_cons _ rfl trivial
    apply Runs.stepsOk_cons _ rfl (.inr rfl)
    trivial
  · rfl

end NumbaCudaMlir.Recompile

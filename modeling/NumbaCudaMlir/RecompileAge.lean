import NumbaCudaMlir.Recompile

/-!
# Ages

Native dispatchers, marshallers and compile results, by the calls of `recompile`
they are newer than, and how the operations of the dispatcher keep these ages.
-/

namespace NumbaCudaMlir.Recompile

open Configure (ConfigureState ConfigureEvent ConfigurePc BuildPhase findPhase insertPhase)

/-! ## Ages -/

def bornAt (d : Dispatcher) (kd : Nat) : Nat := ((d.kernelDispatchers[kd]?).map (·.bornAt)).getD 0

def Made (d : Dispatcher) (kd n : Nat) : Prop := kd < d.kernelDispatchers.length ∧ n ≤ bornAt d kd

/-- The native dispatcher of a current generation is as new as the last call that returned. -/
def GenOk (d : Dispatcher) (returned kd : Nat) (generation : Option Nat) : Prop :=
  ∀ g, generation = some g → g ≤ d.launchConfigGeneration ∧ (g = d.launchConfigGeneration → Made d kd returned)

structure MarshallerInv (d : Dispatcher) (returned : Nat) (m : Marshaller) : Prop where
  made : Made d m.kernelDispatcher 0
  launcher : m.launcher.kernelDispatcher = m.kernelDispatcher
  generation : GenOk d returned m.kernelDispatcher m.launchConfigGeneration
  adjusted : ∀ k l, m.adjusted = some (k, l) → l.kernelDispatcher = k.1

/-- The part of a dispatcher that says how old its parts are. -/
structure DispatcherInv (d : Dispatcher) (returned cleared : Nat) : Prop where
  c : Made d d.c returned
  table : ∀ key kd, d.launchConfigDispatchers.get key = some kd → Made d kd returned
  bound : ∀ kd, bornAt d kd ≤ returned
  marshallers : ∀ m ∈ d.marshallers, MarshallerInv d returned m
  kernels : ∀ kd key r, (key, r) ∈ kernelsOf d kd → bornAt d kd ≤ r.compiledAt
  overloads : ∀ k r, d.overloads.get k = some r → cleared ≤ r.compiledAt
  configs : ∀ k r, d.launchConfigOverloads.get k = some r → returned ≤ r.compiledAt

structure Later (d : Dispatcher) (n : Nat) (d' : Dispatcher) (n' : Nat) : Prop where
  size : d.kernelDispatchers.length ≤ d'.kernelDispatchers.length
  born : ∀ kd < d.kernelDispatchers.length, bornAt d' kd = bornAt d kd
  generation : d.launchConfigGeneration ≤ d'.launchConfigGeneration
  returned : n ≤ n'
  same : d'.launchConfigGeneration = d.launchConfigGeneration → n' = n

theorem Later.refl (d : Dispatcher) (n : Nat) : Later d n d n :=
  ⟨Nat.le_refl _, fun _ _ => rfl, Nat.le_refl _, Nat.le_refl _, fun _ => rfl⟩

theorem Later.trans {d d' d'' : Dispatcher} {n n' n'' : Nat} (h : Later d n d' n') (h' : Later d' n' d'' n'') :
    Later d n d'' n'' := by
  refine ⟨h.size.trans h'.size, ?_, h.generation.trans h'.generation, h.returned.trans h'.returned, ?_⟩
  · intro kd hkd
    rw [h'.born kd (Nat.lt_of_lt_of_le hkd h.size), h.born kd hkd]
  · intro e
    have hg := h.generation
    have hg' := h'.generation
    rw [h'.same (by omega), h.same (by omega)]

section
variable {d d' : Dispatcher} {n n' : Nat} (hl : Later d n d' n')
include hl

theorem Made.later {kd k : Nat} (h : Made d kd k) : Made d' kd k :=
  ⟨Nat.lt_of_lt_of_le h.1 hl.size, by rw [hl.born kd h.1]; exact h.2⟩

theorem GenOk.later {kd : Nat} {g : Option Nat} (h : GenOk d n kd g) : GenOk d' n' kd g := by
  intro g' hg
  obtain ⟨hle, hmade⟩ := h g' hg
  refine ⟨hle.trans hl.generation, fun e => ?_⟩
  have hgen := hl.generation
  rw [hl.same (by omega)]
  exact (hmade (by omega)).later hl

theorem MarshallerInv.later {m : Marshaller} (h : MarshallerInv d n m) : MarshallerInv d' n' m :=
  ⟨h.made.later hl, h.launcher, h.generation.later hl, h.adjusted⟩

end

theorem Made.mono {d : Dispatcher} {kd n k : Nat} (h : Made d kd n) (hk : k ≤ n) : Made d kd k := ⟨h.1, hk.trans h.2⟩

/-! ## Threads -/

def Fresh (d : Dispatcher) (c : Call) (r : CompileResult) : Goal → Prop
  | .prepare .. => True
  | .native kd _ _ => c.startedAt ≤ r.compiledAt ∧ bornAt d kd ≤ r.compiledAt

def GoalInv (d : Dispatcher) (returned : Nat) (c : Call) : Goal → Prop
  | .prepare l m => Made d l.kernelDispatcher 0 ∧ MarshallerInv d returned m
  | .native kd _ plain => Made d kd 0 ∧ (plain = false → Made d kd c.startedAt)

def PhaseInv (d : Dispatcher) (returned : Nat) (c : Call) (goal : Goal) : CompilePhase → Prop
  | .start _ => True
  | .looking a | .loading a | .compiling a => a.generation ≤ d.launchConfigGeneration
  | .publishing a _ r =>
    a.generation ≤ d.launchConfigGeneration ∧ (a.generation = d.launchConfigGeneration → returned ≤ r.compiledAt) ∧
      Fresh d c r goal
  | .saving _ r => Fresh d c r goal

def LaunchInv (d : Dispatcher) (returned : Nat) : LaunchPc → Prop
  | .idle | .launched | .raised => True
  | .entered c l => c.startedAt ≤ returned ∧ Made d l.kernelDispatcher 0
  | .preparing c l m | .prepared c l m | .selecting c l m _ _ =>
    c.startedAt ≤ returned ∧ Made d l.kernelDispatcher 0 ∧ MarshallerInv d returned m
  | .compiling c goal phase =>
    c.startedAt ≤ returned ∧ GoalInv d returned c goal ∧ PhaseInv d returned c goal phase
  | .registering c l _ _ _ => c.startedAt ≤ returned ∧ Made d l.kernelDispatcher 0
  | .binding c l ready =>
    c.startedAt ≤ returned ∧ Made d l.kernelDispatcher 0 ∧ Made d ready.kernelDispatcher c.startedAt ∧
      GenOk d returned ready.kernelDispatcher ready.generation
  | .launching c l plain =>
    c.startedAt ≤ returned ∧ Made d l.kernelDispatcher 0 ∧ (plain = false → Made d l.kernelDispatcher c.startedAt)
  | .emplacing c kd key plain r =>
    c.startedAt ≤ returned ∧ GoalInv d returned c (.native kd key plain) ∧ Fresh d c r (.native kd key plain)

def BuilderInv (d : Dispatcher) (returned : Nat) : ConfigurePc → Prop
  | .building _ _ _ (.making kd generation) => Made d kd 0 ∧ GenOk d returned kd generation
  | _ => True

def RecompileInv (begun cleared : Nat) : RecompilePc → Prop
  | .begun n => n ≤ begun
  | .cleared n | .flushed n => n ≤ cleared
  | _ => True

section
variable {d d' : Dispatcher} {n n' : Nat} (hl : Later d n d' n')
include hl

theorem GoalInv.later {c : Call} {goal : Goal} (h : GoalInv d n c goal) : GoalInv d' n' c goal := by
  cases goal with
  | prepare l m => exact ⟨h.1.later hl, h.2.later hl⟩
  | native kd key plain => exact ⟨h.1.later hl, fun hp => (h.2 hp).later hl⟩

theorem Fresh.later {c : Call} {goal : Goal} {r : CompileResult} (hg : GoalInv d n c goal) (h : Fresh d c r goal) :
    Fresh d' c r goal := by
  cases goal with
  | prepare l m => trivial
  | native kd key plain => exact ⟨h.1, by rw [hl.born kd hg.1.1]; exact h.2⟩

theorem PhaseInv.later {c : Call} {goal : Goal} {phase : CompilePhase} (hg : GoalInv d n c goal)
    (h : PhaseInv d n c goal phase) : PhaseInv d' n' c goal phase := by
  cases phase with
  | start => trivial
  | looking a | loading a | compiling a => exact Nat.le_trans h hl.generation
  | publishing a sig r =>
    obtain ⟨hle, hnew, hf⟩ := h
    refine ⟨hle.trans hl.generation, fun e => ?_, hf.later hl hg⟩
    have hgen := hl.generation
    rw [hl.same (by omega)]
    exact hnew (by omega)
  | saving a r => exact Fresh.later hl hg h

theorem LaunchInv.later {pc : LaunchPc} (h : LaunchInv d n pc) : LaunchInv d' n' pc := by
  have hr := hl.returned
  cases pc with
  | idle | launched | raised => trivial
  | entered c l => exact ⟨h.1.trans hr, h.2.later hl⟩
  | preparing c l m | prepared c l m | selecting c l m => exact ⟨h.1.trans hr, h.2.1.later hl, h.2.2.later hl⟩
  | compiling c goal phase => exact ⟨h.1.trans hr, h.2.1.later hl, h.2.2.later hl h.2.1⟩
  | registering c l => exact ⟨h.1.trans hr, h.2.later hl⟩
  | binding c l ready => exact ⟨h.1.trans hr, h.2.1.later hl, h.2.2.1.later hl, h.2.2.2.later hl⟩
  | launching c l plain => exact ⟨h.1.trans hr, h.2.1.later hl, fun hp => (h.2.2 hp).later hl⟩
  | emplacing c kd key plain r => exact ⟨h.1.trans hr, h.2.1.later hl, h.2.2.later hl h.2.1⟩

theorem BuilderInv.later {pc : ConfigurePc} (h : BuilderInv d n pc) : BuilderInv d' n' pc := by
  unfold BuilderInv at h ⊢
  split
  · exact ⟨h.1.later hl, h.2.later hl⟩
  · trivial

end

/-! ## Changes of the dispatcher -/

structure Shrinks (d d' : Dispatcher) : Prop where
  c : d'.c = d.c
  kernelDispatchers : d'.kernelDispatchers = d.kernelDispatchers
  generation : d'.launchConfigGeneration = d.launchConfigGeneration
  marshallers : d'.marshallers = d.marshallers
  table : ∀ key kd, d'.launchConfigDispatchers.get key = some kd → d.launchConfigDispatchers.get key = some kd
  overloads : ∀ k r, d'.overloads.get k = some r → d.overloads.get k = some r
  configs : ∀ k r, d'.launchConfigOverloads.get k = some r → d.launchConfigOverloads.get k = some r

theorem Shrinks.refl (d : Dispatcher) : Shrinks d d :=
  ⟨rfl, rfl, rfl, rfl, fun _ _ h => h, fun _ _ h => h, fun _ _ h => h⟩

theorem Shrinks.trans {d d' d'' : Dispatcher} (h : Shrinks d d') (h' : Shrinks d' d'') : Shrinks d d'' :=
  ⟨h'.c.trans h.c, h'.kernelDispatchers.trans h.kernelDispatchers, h'.generation.trans h.generation,
    h'.marshallers.trans h.marshallers, fun k v hk => h.table k v (h'.table k v hk),
    fun k v hk => h.overloads k v (h'.overloads k v hk), fun k v hk => h.configs k v (h'.configs k v hk)⟩

theorem bornAt_congr {d d' : Dispatcher} (h : d'.kernelDispatchers = d.kernelDispatchers) (kd : Nat) :
    bornAt d' kd = bornAt d kd := by
  unfold bornAt; rw [h]

theorem later_of_kernelDispatchers {d d' : Dispatcher} (n : Nat) (h : d'.kernelDispatchers = d.kernelDispatchers)
    (hg : d'.launchConfigGeneration = d.launchConfigGeneration) : Later d n d' n :=
  ⟨by rw [h], fun kd _ => bornAt_congr h kd, by rw [hg], Nat.le_refl _, fun _ => rfl⟩

theorem Shrinks.later {d d' : Dispatcher} (h : Shrinks d d') (n : Nat) : Later d n d' n :=
  later_of_kernelDispatchers n h.kernelDispatchers h.generation

theorem kernelsOf_congr {d d' : Dispatcher} (h : d'.kernelDispatchers = d.kernelDispatchers) (kd : Nat) :
    kernelsOf d' kd = kernelsOf d kd := by
  unfold kernelsOf; rw [h]

theorem DispatcherInv.shrink {d d' : Dispatcher} {n k : Nat} (hi : DispatcherInv d n k) (h : Shrinks d d') :
    DispatcherInv d' n k := by
  have hl := h.later n
  constructor
  · rw [h.c]; exact hi.c.later hl
  · intro key kd hk; exact (hi.table key kd (h.table key kd hk)).later hl
  · intro kd; rw [bornAt_congr h.kernelDispatchers]; exact hi.bound kd
  · intro m hm
    rw [h.marshallers] at hm
    exact (hi.marshallers m hm).later hl
  · intro kd key r hr
    rw [kernelsOf_congr h.kernelDispatchers] at hr
    rw [bornAt_congr h.kernelDispatchers]
    exact hi.kernels kd key r hr
  · intro k r hk; exact hi.overloads k r (h.overloads k r hk)
  · intro k r hk; exact hi.configs k r (h.configs k r hk)

structure Keeps (d : Dispatcher) (n k : Nat) (d' : Dispatcher) : Prop where
  inv : DispatcherInv d n k → DispatcherInv d' n k
  later : Later d n d' n

theorem Keeps.refl (d : Dispatcher) (n k : Nat) : Keeps d n k d := ⟨id, .refl d n⟩

theorem Keeps.trans {d d' d'' : Dispatcher} {n k : Nat} (h : Keeps d n k d') (h' : Keeps d' n k d'') : Keeps d n k d'' :=
  ⟨fun hi => h'.inv (h.inv hi), h.later.trans h'.later⟩

theorem Shrinks.keeps {d d' : Dispatcher} (h : Shrinks d d') (n k : Nat) : Keeps d n k d' :=
  ⟨fun hi => hi.shrink h, h.later n⟩

theorem shrinks_touch (d : Dispatcher) (ready : Ready) : Shrinks d (touch d ready) := by
  unfold touch
  split
  · refine { Shrinks.refl d with table := ?_, c := rfl, kernelDispatchers := rfl, generation := rfl, marshallers := rfl }
    intro key kd h
    rwa [Dict.get_moveToEnd] at h
  · exact .refl d

theorem shrinks_evict (d : Dispatcher) : Shrinks d d.evictLaunchConfig := by
  unfold Dispatcher.evictLaunchConfig
  split
  · exact .refl d
  · exact ⟨rfl, rfl, rfl, rfl, fun _ _ h => Dict.get_of_popFirst h, fun _ _ h => h, fun _ _ h => Dict.get_of_filter h⟩

theorem shrinks_iterate_evict : ∀ (m : Nat) (d : Dispatcher), Shrinks d (Dispatcher.evictLaunchConfig^[m] d)
  | 0, d => .refl d
  | m + 1, d => (shrinks_evict d).trans (shrinks_iterate_evict m _)

section
variable {d : Dispatcher} {n k : Nat}

theorem keeps_setTable {key : LaunchConfig} {kd : Nat} (hkd : Made d kd n) :
    Keeps d n k { d with launchConfigDispatchers := d.launchConfigDispatchers.set key kd } := by
  have hl : Later d n { d with launchConfigDispatchers := d.launchConfigDispatchers.set key kd } n :=
    later_of_kernelDispatchers n rfl rfl
  refine ⟨fun hi => ⟨hi.c, ?_, hi.bound, fun m hm => (hi.marshallers m hm).later hl, hi.kernels, hi.overloads,
    hi.configs⟩, hl⟩
  intro key' kd' h
  rcases Dict.get_of_set h with ⟨-, rfl⟩ | h
  · exact hkd
  · exact hi.table key' kd' h

theorem keeps_remember {key : LaunchConfig} {kd : Nat} (hkd : Made d kd n) (replaceExisting : Bool) :
    Keeps d n k (d.rememberKernelDispatcherLocked key kd replaceExisting) := by
  unfold Dispatcher.rememberKernelDispatcherLocked
  split
  · split
    · exact .refl d n k
    · apply (keeps_setTable hkd).trans
      apply Shrinks.keeps
      refine ⟨rfl, rfl, rfl, rfl, ?_, fun _ _ h => h, fun _ _ h => h⟩
      intro key' kd' h
      rwa [Dict.get_moveToEnd] at h
  · exact (keeps_setTable hkd).trans ((shrinks_iterate_evict _ _).keeps n k)

theorem bornAt_new (b kd : Nat) :
    bornAt (d.newKernelDispatcher b) kd = if kd = d.kernelDispatchers.length then b else bornAt d kd := by
  unfold bornAt Dispatcher.newKernelDispatcher
  simp only [List.getElem?_append]
  split
  · next h => rw [if_neg (by omega)]
  · next h =>
    by_cases he : kd = d.kernelDispatchers.length
    · rw [if_pos he]; simp [he]
    · have h1 : (d.kernelDispatchers[kd]?) = none := List.getElem?_eq_none (by omega)
      have h2 : ([⟨b, []⟩] : List KernelDispatcher)[kd - d.kernelDispatchers.length]? = none :=
        List.getElem?_eq_none (by simp; omega)
      rw [if_neg he, h1, h2]

theorem later_new (b : Nat) : Later d n (d.newKernelDispatcher b) n := by
  refine ⟨by simp [Dispatcher.newKernelDispatcher], ?_, Nat.le_refl _, Nat.le_refl _, fun _ => rfl⟩
  intro kd hkd
  rw [bornAt_new, if_neg (by omega)]

theorem made_new (b : Nat) : Made (d.newKernelDispatcher b) d.kernelDispatchers.length b :=
  ⟨by simp [Dispatcher.newKernelDispatcher], by rw [bornAt_new, if_pos rfl]⟩

theorem kernelsOf_new (b kd : Nat) : kernelsOf (d.newKernelDispatcher b) kd = kernelsOf d kd := by
  unfold kernelsOf Dispatcher.newKernelDispatcher
  simp only [List.getElem?_append]
  split
  · rfl
  · next h =>
    rw [List.getElem?_eq_none (Nat.le_of_not_lt h)]
    cases h : ([⟨b, []⟩] : List KernelDispatcher)[kd - d.kernelDispatchers.length]? with
    | none => rfl
    | some k =>
      have := List.mem_of_getElem? h
      rw [List.mem_singleton] at this
      subst this; rfl

theorem keeps_new : Keeps d n k (d.newKernelDispatcher n) := by
  refine ⟨fun hi => ?_, later_new n⟩
  have hl : Later d n (d.newKernelDispatcher n) n := later_new n
  refine ⟨hi.c.later hl, fun key kd h => (hi.table key kd h).later hl, ?_,
    fun m hm => (hi.marshallers m hm).later hl, ?_, hi.overloads, hi.configs⟩
  · intro kd
    rw [bornAt_new]
    split
    · exact Nat.le_refl n
    · exact hi.bound kd
  · intro kd key r hr
    rw [kernelsOf_new] at hr
    rw [bornAt_new]
    split
    · next he =>
      subst he
      unfold kernelsOf at hr
      rw [List.getElem?_eq_none (Nat.le_refl _)] at hr
      cases hr
    · exact hi.kernels kd key r hr

def BuiltPhase (d : Dispatcher) (n : Nat) : BuildPhase → Prop
  | .making kd generation => Made d kd n ∧ GenOk d n kd generation
  | _ => True

theorem genOk_of_made {kd : Nat} {g : Nat} (hg : g ≤ d.launchConfigGeneration) (h : Made d kd n) :
    GenOk d n kd (some g) := by
  intro g' he
  cases he
  exact ⟨hg, fun _ => h⟩

theorem shrinks_moveToEnd (key : LaunchConfig) :
    Shrinks d { d with launchConfigDispatchers := d.launchConfigDispatchers.moveToEnd key } := by
  refine ⟨rfl, rfl, rfl, rfl, ?_, fun _ _ h => h, fun _ _ h => h⟩
  intro key' kd' h
  rwa [Dict.get_moveToEnd] at h

theorem keeps_find (key : LaunchConfig) : Keeps d n k (findPhase d key).1 := by
  unfold findPhase
  split
  · exact (shrinks_moveToEnd key).keeps n k
  · exact .refl d n k

theorem built_find (hi : DispatcherInv d n k) (key : LaunchConfig) :
    BuiltPhase (findPhase d key).1 n (findPhase d key).2 := by
  unfold findPhase
  split
  · next kd hkd => exact ⟨hi.table key kd hkd, genOk_of_made (Nat.le_refl _) (hi.table key kd hkd)⟩
  · trivial

theorem keeps_insert (key : LaunchConfig) (g : Nat) : Keeps d n k (insertPhase (d.newKernelDispatcher n) key g).1 := by
  have hnew : Keeps d n k (d.newKernelDispatcher n) := keeps_new
  have hlast : (d.newKernelDispatcher n).kernelDispatchers.length - 1 = d.kernelDispatchers.length := by
    simp [Dispatcher.newKernelDispatcher]
  unfold insertPhase
  split
  · exact hnew
  split
  · exact hnew.trans ((shrinks_moveToEnd key).keeps n k)
  · refine hnew.trans (keeps_remember ?_ true)
    rw [hlast]
    exact made_new n

theorem built_insert (hi : DispatcherInv d n k) (key : LaunchConfig) (g : Nat) :
    BuiltPhase (insertPhase (d.newKernelDispatcher n) key g).1 n (insertPhase (d.newKernelDispatcher n) key g).2 := by
  have hinv : DispatcherInv (d.newKernelDispatcher n) n k := keeps_new.inv hi
  have hlast : (d.newKernelDispatcher n).kernelDispatchers.length - 1 = d.kernelDispatchers.length := by
    simp [Dispatcher.newKernelDispatcher]
  unfold insertPhase
  split
  · trivial
  next hg =>
  have hle : g ≤ (d.newKernelDispatcher n).launchConfigGeneration := by
    rw [Decidable.not_not.mp hg]
  split
  · next kd hkd => exact ⟨hinv.table key kd hkd, genOk_of_made hle (hinv.table key kd hkd)⟩
  · have hm : Made (d.newKernelDispatcher n) d.kernelDispatchers.length n := made_new n
    have hl : Later (d.newKernelDispatcher n) n
        ((d.newKernelDispatcher n).rememberKernelDispatcherLocked key d.kernelDispatchers.length true) n :=
      (keeps_remember (k := k) hm true).later
    simp only [hlast]
    exact ⟨hm.later hl, (genOk_of_made hle hm).later hl⟩

theorem keeps_restore {m : Marshaller} (hm : MarshallerInv d n m) (config : Option LaunchConfig) :
    Keeps d n k (restore d m config) := by
  unfold restore
  split
  · next g _ hg =>
    split
    · exact .refl d n k
    · next hcur =>
      have hcur : g = d.launchConfigGeneration := Decidable.not_not.mp fun h => hcur (.inr h)
      exact keeps_remember ((hm.generation g hg).2 hcur) false
  · exact .refl d n k

theorem keeps_setOverload {argtypes : List NumbaType} {r : CompileResult} (hr : k ≤ r.compiledAt) :
    Keeps d n k { d with overloads := d.overloads.set argtypes r } := by
  have hl : Later d n { d with overloads := d.overloads.set argtypes r } n := later_of_kernelDispatchers n rfl rfl
  refine ⟨fun hi => ⟨hi.c, hi.table, hi.bound, fun m hm => (hi.marshallers m hm).later hl, hi.kernels, ?_,
    hi.configs⟩, hl⟩
  intro key r' h
  rcases Dict.get_of_set h with ⟨-, rfl⟩ | h
  · exact hr
  · exact hi.overloads key r' h

theorem keeps_setLaunchConfigOverload {argtypes : List NumbaType} {config : LaunchConfig} {r : CompileResult}
    (hr : n ≤ r.compiledAt) : Keeps d n k (setLaunchConfigOverload d argtypes config r) := by
  have hl : Later d n (setLaunchConfigOverload d argtypes config r) n := later_of_kernelDispatchers n rfl rfl
  refine ⟨fun hi => ⟨hi.c, hi.table, hi.bound, fun m hm => (hi.marshallers m hm).later hl, hi.kernels, hi.overloads, ?_⟩,
    hl⟩
  intro key r' h
  rcases Dict.get_of_setDefault h with ⟨-, rfl⟩ | h
  · exact hr
  · exact hi.configs key r' h

theorem keeps_setMarshaller {i : Nat} {m : Marshaller} (hm : MarshallerInv d n m) : Keeps d n k (setMarshaller d i m) := by
  have hl : Later d n (setMarshaller d i m) n := later_of_kernelDispatchers n rfl rfl
  refine ⟨fun hi => ⟨hi.c, hi.table, hi.bound, ?_, hi.kernels, hi.overloads, hi.configs⟩, hl⟩
  intro m' h
  rcases List.mem_or_eq_of_mem_set h with h | rfl
  · exact (hi.marshallers m' h).later hl
  · exact hm.later hl

theorem keeps_newMarshaller {m : Marshaller} (hm : MarshallerInv d n m) : Keeps d n k (d.newMarshaller m) := by
  have hl : Later d n (d.newMarshaller m) n := later_of_kernelDispatchers n rfl rfl
  refine ⟨fun hi => ⟨hi.c, hi.table, hi.bound, ?_, hi.kernels, hi.overloads, hi.configs⟩, hl⟩
  intro m' h
  rcases List.mem_append.mp h with h | h
  · exact (hi.marshallers m' h).later hl
  · rw [List.mem_singleton] at h
    subst h
    exact hm.later hl

theorem bornAt_addKernel (kd kd' : Nat) (key : NativeKey) (r : CompileResult) :
    bornAt (addKernel d kd key r) kd' = bornAt d kd' := by
  unfold bornAt addKernel
  simp only [List.getElem?_modify]
  cases d.kernelDispatchers[kd']? with
  | none => rfl
  | some kernelDispatcher =>
    by_cases h : kd = kd' <;> simp [h]

theorem mem_kernelsOf_addKernel {kd kd' : Nat} {key key' : NativeKey} {r r' : CompileResult}
    (h : (key', r') ∈ kernelsOf (addKernel d kd key r) kd') :
    (key', r') ∈ kernelsOf d kd' ∨ kd' = kd ∧ r' = r := by
  unfold kernelsOf addKernel at h
  simp only [List.getElem?_modify] at h
  unfold kernelsOf
  cases hk : d.kernelDispatchers[kd']? with
  | none => rw [hk] at h; cases h
  | some kernelDispatcher =>
    rw [hk] at h
    by_cases he : kd = kd'
    · have h' : (key', r') ∈ kernelDispatcher.kernels ∨ key' = key ∧ r' = r := by simpa [he] using h
      rcases h' with h | ⟨-, rfl⟩
      · exact .inl h
      · exact .inr ⟨he.symm, rfl⟩
    · exact .inl (by simpa [he] using h)

theorem keeps_addKernel {kd : Nat} {key : NativeKey} {r : CompileResult} (hr : bornAt d kd ≤ r.compiledAt) :
    Keeps d n k (addKernel d kd key r) := by
  have hl : Later d n (addKernel d kd key r) n :=
    ⟨by simp [addKernel], fun kd' _ => bornAt_addKernel .., Nat.le_refl _, Nat.le_refl _, fun _ => rfl⟩
  refine ⟨fun hi => ⟨hi.c.later hl, fun key kd h => (hi.table key kd h).later hl, ?_,
    fun m hm => (hi.marshallers m hm).later hl, ?_, hi.overloads, hi.configs⟩, hl⟩
  · intro kd'
    rw [bornAt_addKernel]
    exact hi.bound kd'
  · intro kd' key' r' h
    rw [bornAt_addKernel]
    rcases mem_kernelsOf_addKernel h with h | ⟨rfl, rfl⟩
    · exact hi.kernels kd' key' r' h
    · exact hr

theorem newGeneration_inv {n' : Nat} (hi : DispatcherInv d n k) (hn : n ≤ n') :
    DispatcherInv (d.newGeneration n') n' k ∧ Later d n (d.newGeneration n') n' := by
  have hnew : Later d n (d.newKernelDispatcher n') n := later_new n'
  have hlast : (d.newKernelDispatcher n').kernelDispatchers.length - 1 = d.kernelDispatchers.length := by
    simp [Dispatcher.newKernelDispatcher]
  have hl : Later d n (d.newGeneration n') n' := by
    refine ⟨hnew.size, hnew.born, Nat.le_succ _, hn, ?_⟩
    intro e
    exact absurd e (Nat.succ_ne_self _)
  refine ⟨⟨?_, ?_, ?_, fun m hm => (hi.marshallers m hm).later hl, ?_, hi.overloads, ?_⟩, hl⟩
  · change Made (d.newKernelDispatcher n') ((d.newKernelDispatcher n').kernelDispatchers.length - 1) n'
    rw [hlast]
    exact made_new n'
  · intro key kd h; cases h
  · intro kd
    change bornAt (d.newKernelDispatcher n') kd ≤ n'
    rw [bornAt_new]
    split
    · exact Nat.le_refl n'
    · exact (hi.bound kd).trans hn
  · intro kd key r h
    change (key, r) ∈ kernelsOf (d.newKernelDispatcher n') kd at h
    rw [kernelsOf_new] at h
    change bornAt (d.newKernelDispatcher n') kd ≤ r.compiledAt
    rw [bornAt_new]
    split
    · next he =>
      subst he
      unfold kernelsOf at h
      rw [List.getElem?_eq_none (Nat.le_refl _)] at h
      cases h
    · exact hi.kernels kd key r h
  · intro key r h; cases h

theorem keeps_recordLiteral (hi : DispatcherInv d n k) (positions : List Bool) :
    DispatcherInv (d.recordLiteralArgPositions positions n) n k ∧
      Later d n (d.recordLiteralArgPositions positions n) n := by
  unfold Dispatcher.recordLiteralArgPositions
  simp only
  split
  · exact ⟨hi, .refl d n⟩
  · obtain ⟨hg, hl⟩ := newGeneration_inv hi (Nat.le_refl n)
    have hs : Shrinks (d.newGeneration n)
        { d.newGeneration n with
          literalArgFlags := List.zipWith (· || ·) d.literalArgFlags positions, overloads := .empty } :=
      ⟨rfl, rfl, rfl, rfl, fun _ _ h => h, fun _ _ h => (by cases h), fun _ _ h => h⟩
    exact ⟨hg.shrink hs, hl.trans (hs.later n)⟩

end

end NumbaCudaMlir.Recompile

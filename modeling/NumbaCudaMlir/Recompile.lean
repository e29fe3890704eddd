import NumbaCudaMlir.Configure
import NumbaCudaMlir.Overload

/-!
# Recompilation

`recompile` beside the configures and launches of one dispatcher. A launch is
`_ArgMarshaller._launch`, with `_prepare_for_launch` where its route has it, the
native launch and the compilation that either of them starts. The steps lie
between the points at which a lock is taken or released, or native code calls
back; the other threads take theirs in between.
-/

namespace NumbaCudaMlir.Recompile

open Configure (ConfigureState ConfigureEvent BuildPhase findPhase insertPhase)

/-! ## State -/

/-- A call of a marshaller, with the last call of `recompile` that had returned when it started. -/
structure Call where
  marshaller : Nat
  values : List LaunchValue
  argtypes : List NumbaType
  abiArgCount : Nat
  startedAt : Nat

structure Attempt where
  literalArgFlags : List Bool
  argtypes : List NumbaType
  launchConfig : Option LaunchConfig
  generation : Nat
  retries : Nat

inductive CompilePhase where
  | start (retries : Nat)
  | looking (a : Attempt)
  /-- Before the disk cache. -/
  | loading (a : Attempt)
  | compiling (a : Attempt)
  | publishing (a : Attempt) (signatureArgs : List NumbaType) (r : CompileResult)
  /-- Published in `overloads`, before the disk cache. -/
  | saving (a : Attempt) (r : CompileResult)

structure Ready where
  kernelDispatcher : Nat
  generation : Option Nat
  launchConfig : Option LaunchConfig
  requiredDynamicSharedMemory : Int

inductive Goal where
  /-- `_prepare_for_launch`, with the launcher that the launch had read, for a marshaller as it was. -/
  | prepare (launcher : Launcher) (configured : Marshaller)
  /-- The native launch, whose key missed; `plain` when it was not prepared. -/
  | native (kernelDispatcher : Nat) (key : NativeKey) (plain : Bool)

inductive LaunchPc where
  | idle
  /-- On the prepared route, before `_get_ready_launch`. -/
  | entered (c : Call) (launcher : Launcher)
  | preparing (c : Call) (launcher : Launcher) (configured : Marshaller)
  | compiling (c : Call) (goal : Goal) (phase : CompilePhase)
  /-- Before the lookup after a compilation. -/
  | prepared (c : Call) (launcher : Launcher) (configured : Marshaller)
  | selecting (c : Call) (launcher : Launcher) (configured : Marshaller) (launchConfig : Option LaunchConfig)
      (requiredDynamicSharedMemory : Int)
  /-- In `_get_launch_config_dispatcher_and_generation`. -/
  | registering (c : Call) (launcher : Launcher) (launchConfig : LaunchConfig) (requiredDynamicSharedMemory : Int)
      (phase : BuildPhase)
  | binding (c : Call) (launcher : Launcher) (ready : Ready)
  /-- Before the native lookup. -/
  | launching (c : Call) (launcher : Launcher) (plain : Bool)
  | emplacing (c : Call) (kernelDispatcher : Nat) (key : NativeKey) (plain : Bool) (r : CompileResult)
  | launched
  | raised

/-- Where a call of `recompile` stands; calls are numbered from one as they begin. -/
inductive RecompilePc where
  | idle
  | begun (n : Nat)
  | cleared (n : Nat)
  | flushed (n : Nat)
  | returned

structure Ran where
  startedAt : Nat
  kernel : CompileResult

structure RecompileState where
  conf : ConfigureState
  hasPlanners : Bool
  disk : Dict (List NumbaType) CompileResult
  launches : Nat → LaunchPc
  recompiles : Nat → RecompilePc
  /-- How many calls have begun, and the last ones that have cleared `overloads` and have returned. -/
  begun : Nat
  cleared : Nat
  returned : Nat
  log : List Ran

inductive CompileOutcome where
  | raise
  | forceLiteral (positions : List Bool) (trackerRequired : Bool)
  | ok (signatureArgs : List NumbaType) (requiredDynamicSharedMemory : Int) (trackerRequired : Bool)

inductive Event where
  | configure (e : ConfigureEvent)
  | setPlanners (hasPlanners : Bool)
  | recompileBegin (j : Nat)
  | recompileClear (j : Nat)
  | recompileFlush (j : Nat)
  /-- The locked section, with which the call returns. -/
  | recompileReplace (j : Nat)
  | launch (i m : Nat) (values : List LaunchValue) (argtypes : List NumbaType) (abiArgCount : Nat)
  | ready (i : Nat)
  | prepare (i : Nat)
  | compileStart (i : Nat)
  | compileLook (i : Nat)
  | compileLoad (i : Nat)
  | compile (i : Nat) (outcome : CompileOutcome)
  | compilePublish (i : Nat)
  | compileSave (i : Nat)
  | lookAgain (i : Nat)
  | select (i : Nat)
  | find (i : Nat)
  | insert (i : Nat)
  | bind (i : Nat)
  | lookup (i : Nat) (key : NativeKey)
  | emplace (i : Nat)

namespace RecompileState

def init (d : Dispatcher) (disk : Dict (List NumbaType) CompileResult) : RecompileState :=
  ⟨.init d, false, disk, fun _ => .idle, fun _ => .idle, 0, 0, 0, []⟩

def d (s : RecompileState) : Dispatcher := s.conf.d

def setD (s : RecompileState) (d : Dispatcher) : RecompileState := { s with conf := { s.conf with d := d } }

def setPc (s : RecompileState) (i : Nat) (pc : LaunchPc) : RecompileState :=
  { s with launches := Runs.setAt s.launches i pc }

def setRecompile (s : RecompileState) (j : Nat) (pc : RecompilePc) : RecompileState :=
  { s with recompiles := Runs.setAt s.recompiles j pc }

def ran (s : RecompileState) (i : Nat) (c : Call) (kernel : CompileResult) : RecompileState :=
  { s.setPc i .launched with log := ⟨c.startedAt, kernel⟩ :: s.log }

end RecompileState

/-! ## Launching -/

def isKernelDispatcherRegistered (d : Dispatcher) (launchConfig : LaunchConfig) (kernelDispatcher : Nat)
    (generation : Option Nat) : Bool :=
  generation.all (· = d.launchConfigGeneration) ∧
    d.launchConfigDispatchers.get launchConfig.key = some kernelDispatcher

def literalDispatcherNeedsPrelaunch (d : Dispatcher) (m : Marshaller) : Bool :=
  d.literalArgFlags.any id &&
    match m.launchConfig with
    | none => m.kernelDispatcher ≠ d.c
    | some config => !isKernelDispatcherRegistered d config m.kernelDispatcher m.launchConfigGeneration

def isPrepared (d : Dispatcher) (hasPlanners : Bool) (m : Marshaller) : Bool :=
  hasPlanners || d.requiresLaunchConfig || m.launchConfig.isSome || literalDispatcherNeedsPrelaunch d m

/-- `_literalize_argtypes`; `none` where it raises. -/
def effectiveArgtypes (d : Dispatcher) (c : Call) : Option (List NumbaType) :=
  literalizeArgtypes d.literalArgFlags c.argtypes c.values c.abiArgCount

def activeLaunchConfig (d : Dispatcher) (m : Marshaller) : Option LaunchConfig :=
  if d.requiresLaunchConfig then some m.availableLaunchConfig.key else m.launchConfig

def getReadyLaunch (d : Dispatcher) (argtypes : List NumbaType) (m : Marshaller) : Option Ready :=
  if m.launchConfig = none ∧ ¬ d.requiresLaunchConfig then
    match d.overloads.get argtypes with
    | some r =>
      if m.kernelDispatcher ≠ d.c ∨ m.launchConfigGeneration ≠ none then none
      else some ⟨d.c, none, none, r.requiredDynamicSharedMemory⟩
    | none => none
  else
    match activeLaunchConfig d m with
    | none => none
    | some config =>
      match findLaunchConfigOverload d.launchConfigOverloads argtypes config.key with
      | some r =>
        if m.launchConfigGeneration ≠ some d.launchConfigGeneration ∨
            d.launchConfigDispatchers.get config.key ≠ some m.kernelDispatcher then none
        else some ⟨m.kernelDispatcher, m.launchConfigGeneration, some config, r.requiredDynamicSharedMemory⟩
      | none => none

def touch (d : Dispatcher) (ready : Ready) : Dispatcher :=
  match ready.launchConfig with
  | some config => { d with launchConfigDispatchers := d.launchConfigDispatchers.moveToEnd config.key }
  | none => d

def compileResultForConfig (d : Dispatcher) (argtypes : List NumbaType) : Option LaunchConfig → Option CompileResult
  | some config => findLaunchConfigOverload d.launchConfigOverloads argtypes config.key
  | none => compileResultFor d.overloads argtypes

/-- A retained native dispatcher is put back into the table while its generation is current. -/
def restore (d : Dispatcher) (m : Marshaller) (launchConfig : Option LaunchConfig) : Dispatcher :=
  match launchConfig, m.launchConfig, m.launchConfigGeneration with
  | some config, some _, some generation =>
    if d.requiresLaunchConfig ∨ generation ≠ d.launchConfigGeneration then d
    else d.rememberKernelDispatcherLocked config.key m.kernelDispatcher false
  | _, _, _ => d

/-- `_prepare_for_launch`, up to the compilation or the choice of a native dispatcher. -/
def prepare (s : RecompileState) (i : Nat) (c : Call) (launcher : Launcher) (m : Marshaller) : RecompileState :=
  match effectiveArgtypes s.d c with
  | none => s.setPc i .raised
  | some argtypes =>
    match getReadyLaunch s.d argtypes m with
    | some ready => (s.setD (touch s.d ready)).setPc i (.binding c launcher ready)
    | none =>
      let config := activeLaunchConfig s.d m
      match compileResultForConfig s.d argtypes config with
      | some r => s.setPc i (.selecting c launcher m config r.requiredDynamicSharedMemory)
      | none =>
        (s.setD (restore s.d m config)).setPc i
          (.compiling c (.prepare launcher m) (.start configureCacheStaleRetryLimit))

def lookAgain (s : RecompileState) (i : Nat) (c : Call) (launcher : Launcher) (m : Marshaller) : RecompileState :=
  let config := activeLaunchConfig s.d m
  match (effectiveArgtypes s.d c).bind fun argtypes => compileResultForConfig s.d argtypes config with
  | some r => s.setPc i (.selecting c launcher m config r.requiredDynamicSharedMemory)
  | none => s.setPc i .raised

section
variable (usesLaunchConfig : Nat → Bool)

def select (s : RecompileState) (i : Nat) (c : Call) (launcher : Launcher) (m : Marshaller)
    (launchConfig : Option LaunchConfig) (smem : Int) : RecompileState :=
  match launchConfig, m.launchConfig with
  | none, _ => s.setPc i (.binding c launcher ⟨s.d.c, none, none, smem⟩)
  | some config, some configured =>
    if s.d.requiresLaunchConfig then s.setPc i (.registering c launcher config smem .finding)
    else if isKernelDispatcherRegistered s.d configured m.kernelDispatcher m.launchConfigGeneration then
      s.setPc i (.binding c launcher ⟨m.kernelDispatcher, m.launchConfigGeneration, some configured, smem⟩)
    else s.setPc i (.registering c launcher config smem .finding)
  | some config, none =>
    if s.d.launchConfigEnabled usesLaunchConfig then s.setPc i (.registering c launcher config smem .finding)
    else s.setPc i (.binding c launcher ⟨s.d.c, none, some config, smem⟩)

/-- After a step of `_get_launch_config_dispatcher_and_generation`. -/
def registered (s : RecompileState) (i : Nat) (c : Call) (launcher : Launcher) (config : LaunchConfig) (smem : Int) :
    Dispatcher × BuildPhase → RecompileState
  | (d, .making kd generation) => (s.setD d).setPc i (.binding c launcher ⟨kd, generation, some config, smem⟩)
  | (d, phase) => (s.setD d).setPc i (.registering c launcher config smem phase)

def rebinds (m : Marshaller) (ready : Ready) : Bool :=
  ready.kernelDispatcher ≠ m.kernelDispatcher ∨ ready.launchConfig ≠ m.launchConfig

def rebind (m : Marshaller) (launcher : Launcher) (ready : Ready) : Marshaller × Launcher :=
  if rebinds m ready then
    let launcher : Launcher := ⟨ready.kernelDispatcher, ready.launchConfig.getD m.availableLaunchConfig⟩
    ({ m with
      launcher := launcher
      launchConfig := ready.launchConfig
      kernelDispatcher := ready.kernelDispatcher
      launchConfigGeneration := ready.generation }, launcher)
  else (m, launcher)

/-- A launcher with more shared memory is made, or taken from the marshaller. -/
def adjust (m : Marshaller) (launcher : Launcher) (ready : Ready) : Marshaller × Launcher :=
  let config := ready.launchConfig.getD m.availableLaunchConfig
  let configured := normalizeLaunchSharedmem config.sharedmem
  let effective := max configured ready.requiredDynamicSharedMemory
  if ready.requiredDynamicSharedMemory = 0 ∨ effective ≤ configured then (m, launcher)
  else
    let key := (ready.kernelDispatcher, ready.generation, effective)
    match m.adjusted with
    | some (k, adjusted) =>
      if k = key then (m, adjusted)
      else
        let adjusted : Launcher := ⟨ready.kernelDispatcher, { config with sharedmem := some effective }⟩
        ({ m with adjusted := some (key, adjusted) }, adjusted)
    | none =>
      let adjusted : Launcher := ⟨ready.kernelDispatcher, { config with sharedmem := some effective }⟩
      ({ m with adjusted := some (key, adjusted) }, adjusted)

/-- `_launch`, from its ready launch to the native call. -/
def bindLauncher (m : Marshaller) (launcher : Launcher) (ready : Ready) : Marshaller × Launcher :=
  adjust (rebind m launcher ready).1 (rebind m launcher ready).2 ready

/-! ## Compiling -/

def compileLaunchConfig (d : Dispatcher) (m : Marshaller) : Option LaunchConfig :=
  if d.requiresLaunchConfig ∨ m.extensions.any usesLaunchConfig then some m.availableLaunchConfig.key else none

end

/-- The start of `_compile_impl`; `none` where it raises. -/
def attempt (usesLaunchConfig : Nat → Bool) (d : Dispatcher) (c : Call) (retries : Nat) : Option Attempt :=
  (effectiveArgtypes d c).bind fun argtypes =>
    (d.marshallers[c.marshaller]?).map fun m =>
      ⟨d.literalArgFlags, argtypes, compileLaunchConfig usesLaunchConfig d m, d.launchConfigGeneration, retries⟩

def reusable (d : Dispatcher) (a : Attempt) : Option CompileResult :=
  match a.launchConfig with
  | some config => findLaunchConfigOverload d.launchConfigOverloads a.argtypes config
  | none => firstReusable d.overloads a.argtypes

/-- Its choice among the overloads when it cannot compile. -/
def resolve (d : Dispatcher) (a : Attempt) : Option CompileResult :=
  match a.launchConfig with
  | some config => resolveLaunchConfigResult d.launchConfigOverloads a.argtypes config
  | none => resolveResult d.overloads a.argtypes

def resume (c : Call) (r : CompileResult) : Goal → LaunchPc
  | .prepare launcher m => .prepared c launcher m
  | .native kd key plain => .emplacing c kd key plain r

def setLaunchConfigOverload (d : Dispatcher) (argtypes : List NumbaType) (config : LaunchConfig) (r : CompileResult) :
    Dispatcher :=
  { d with launchConfigOverloads := d.launchConfigOverloads.setDefault (argtypes, config) r }

def existing (d : Dispatcher) (a : Attempt) (config : LaunchConfig) (signatureArgs : List NumbaType) :
    Option CompileResult :=
  (findLaunchConfigOverload d.launchConfigOverloads a.argtypes config).or
    (if signatureArgs ≠ a.argtypes then findLaunchConfigOverload d.launchConfigOverloads signatureArgs config else none)

def publish (s : RecompileState) (i : Nat) (c : Call) (goal : Goal) (a : Attempt) (signatureArgs : List NumbaType)
    (r : CompileResult) : RecompileState :=
  match a.launchConfig with
  | some config =>
    if a.generation ≠ s.d.launchConfigGeneration then
      match a.retries with
      | 0 => s.setPc i .raised
      | retries + 1 => s.setPc i (.compiling c goal (.start retries))
    else
      match existing s.d a config signatureArgs with
      | some first => s.setPc i (resume c first goal)
      | none =>
        let d := setLaunchConfigOverload s.d a.argtypes config r
        (s.setD (setLaunchConfigOverload d signatureArgs config r)).setPc i (resume c r goal)
  | none =>
    (s.setD { s.d with overloads := s.d.overloads.set signatureArgs r }).setPc i (.compiling c goal (.saving a r))

/-- The compilation itself, which reads the values of the globals. -/
def compile (s : RecompileState) (i : Nat) (c : Call) (goal : Goal) (a : Attempt) : CompileOutcome → RecompileState
  | .raise => s.setPc i .raised
  | .forceLiteral positions trackerRequired =>
    let d := s.d.recordLiteralArgPositions positions s.returned
    let progress := d.literalArgFlags ≠ a.literalArgFlags
    let d := if progress ∧ a.launchConfig = none ∧ trackerRequired then { d with requiresLaunchConfig := true } else d
    if progress then (s.setD d).setPc i (.compiling c goal (.start a.retries))
    else (s.setD d).setPc i .raised
  | .ok signatureArgs smem trackerRequired =>
    let r : CompileResult := ⟨s.begun, smem⟩
    if a.launchConfig = none ∧ trackerRequired then
      match s.d.marshallers[c.marshaller]? with
      | some m =>
        let a := { a with launchConfig := some m.availableLaunchConfig.key }
        (s.setD { s.d with requiresLaunchConfig := true }).setPc i (.compiling c goal (.publishing a signatureArgs r))
      | none => s.setPc i .raised
    else s.setPc i (.compiling c goal (.publishing a signatureArgs r))

/-! ## Steps -/

def kernelsOf (d : Dispatcher) (kd : Nat) : List (NativeKey × CompileResult) :=
  ((d.kernelDispatchers[kd]?).map (·.kernels)).getD []

def addKernel (d : Dispatcher) (kd : Nat) (key : NativeKey) (r : CompileResult) : Dispatcher :=
  { d with
    kernelDispatchers := d.kernelDispatchers.modify kd fun k => { k with kernels := k.kernels ++ [(key, r)] } }

def setMarshaller (d : Dispatcher) (i : Nat) (m : Marshaller) : Dispatcher :=
  { d with marshallers := d.marshallers.set i m }

section
variable (usesLaunchConfig : Nat → Bool) (canCompile persistentCache : Bool)

def stepRecompile (s : RecompileState) (j : Nat) (e : Event) : Option RecompileState :=
  match e, s.recompiles j with
  | .recompileBegin _, .idle => some ({ s with begun := s.begun + 1 }.setRecompile j (.begun (s.begun + 1)))
  | .recompileClear _, .begun n =>
    some (({ s with cleared := max s.cleared n }.setD { s.d with overloads := .empty }).setRecompile j (.cleared n))
  | .recompileFlush _, .cleared n => some ({ s with disk := .empty }.setRecompile j (.flushed n))
  | .recompileReplace _, .flushed n =>
    let returned := max s.returned n
    some (({ s with returned := returned }.setD (s.d.recompileLocked returned)).setRecompile j .returned)
  | _, _ => none

def stepLaunch (s : RecompileState) (i : Nat) (e : Event) : Option RecompileState :=
  match e, s.launches i with
  | .launch _ m values argtypes abiArgCount, .idle =>
    (s.d.marshallers[m]?).map fun marshaller =>
      let c : Call := ⟨m, values, argtypes, abiArgCount, s.returned⟩
      if isPrepared s.d s.hasPlanners marshaller then s.setPc i (.entered c marshaller.launcher)
      else s.setPc i (.launching c marshaller.launcher true)
  | .ready _, .entered c launcher =>
    (s.d.marshallers[c.marshaller]?).map fun m =>
      match effectiveArgtypes s.d c with
      | none => s.setPc i .raised
      | some argtypes =>
        match getReadyLaunch s.d argtypes m with
        | some ready => (s.setD (touch s.d ready)).setPc i (.binding c launcher ready)
        | none => s.setPc i (.preparing c launcher m)
  | .prepare _, .preparing c launcher m => some (prepare s i c launcher m)
  | .compileStart _, .compiling c goal (.start retries) =>
    match attempt usesLaunchConfig s.d c retries with
    | some a => some (s.setPc i (.compiling c goal (.looking a)))
    | none => some (s.setPc i .raised)
  | .compileLook _, .compiling c goal (.looking a) =>
    match reusable s.d a with
    | some r => some (s.setPc i (resume c r goal))
    | none =>
      if ¬ canCompile then
        match resolve s.d a with
        | some r => some (s.setPc i (resume c r goal))
        | none => some (s.setPc i .raised)
      else some (s.setPc i (.compiling c goal (.loading a)))
  | .compileLoad _, .compiling c goal (.loading a) =>
    -- Launch-config compilations and those with planners do not read the disk cache.
    if a.launchConfig ≠ none ∨ s.hasPlanners ∨ ¬ persistentCache then some (s.setPc i (.compiling c goal (.compiling a)))
    else
      match s.disk.get a.argtypes with
      | some r =>
        -- The cache does not keep the required shared memory.
        let r := { r with requiredDynamicSharedMemory := 0 }
        some ((s.setD { s.d with overloads := s.d.overloads.set a.argtypes r }).setPc i (resume c r goal))
      | none => some (s.setPc i (.compiling c goal (.compiling a)))
  | .compile _ outcome, .compiling c goal (.compiling a) => some (compile s i c goal a outcome)
  | .compilePublish _, .compiling c goal (.publishing a signatureArgs r) =>
    some (publish s i c goal a signatureArgs r)
  | .compileSave _, .compiling c goal (.saving a r) =>
    let disk := if s.hasPlanners ∨ ¬ persistentCache then s.disk else s.disk.set a.argtypes r
    some ({ s with disk := disk }.setPc i (resume c r goal))
  | .lookAgain _, .prepared c launcher m => some (lookAgain s i c launcher m)
  | .select _, .selecting c launcher m config smem => some (select usesLaunchConfig s i c launcher m config smem)
  | .find _, .registering c launcher config smem .finding =>
    some (registered s i c launcher config smem (findPhase s.d config.key))
  | .insert _, .registering c launcher config smem (.inserting generation) =>
    some (registered s i c launcher config smem
      (insertPhase (s.d.newKernelDispatcher s.returned) config.key generation))
  | .bind _, .binding c launcher ready =>
    (s.d.marshallers[c.marshaller]?).map fun m =>
      let (m, launcher) := bindLauncher m launcher ready
      (s.setD (setMarshaller s.d c.marshaller m)).setPc i (.launching c launcher false)
  | .lookup _ key, .launching c launcher plain =>
    match (kernelsOf s.d launcher.kernelDispatcher).lookup key with
    | some kernel => some (s.ran i c kernel)
    | none =>
      let goal := .native launcher.kernelDispatcher key plain
      some (s.setPc i (.compiling c goal (.start configureCacheStaleRetryLimit)))
  | .emplace _, .emplacing c kd key _ r =>
    match (kernelsOf s.d kd).lookup key with
    -- Another launch emplaced this key first; its kernel is used.
    | some first => some (s.ran i c first)
    | none => some ((s.setD (addKernel s.d kd key r)).ran i c r)
  | _, _ => none

def step (s : RecompileState) (e : Event) : Option RecompileState :=
  match e with
  | .configure .recompile => none
  | .configure e => (Configure.step usesLaunchConfig s.returned s.conf e).map fun conf => { s with conf := conf }
  | .setPlanners b => some { s with hasPlanners := b }
  | .recompileBegin j | .recompileClear j | .recompileFlush j | .recompileReplace j => stepRecompile s j e
  | .launch i .. | .ready i | .prepare i | .compileStart i | .compileLook i | .compileLoad i | .compile i _
  | .compilePublish i | .compileSave i | .lookAgain i | .select i | .find i | .insert i | .bind i | .lookup i _
  | .emplace i => stepLaunch usesLaunchConfig canCompile persistentCache s i e

end

end NumbaCudaMlir.Recompile

import NumbaCudaMlir.Recompile

/-!
# Specialisation by launch config

Where launch metadata is active, an `MLIRDispatcher` keeps its overloads and its
native dispatchers by launch config. The steps are the sections of its methods
that hold `_launch_config_lock` and what lies between them; configures,
launches, rebuilds and the calls that invalidate the tables take theirs in any
order. A marshaller that is found stale is kept here like a retained one.
-/

namespace NumbaCudaMlir.LaunchSpecialization

open Recompile (Ready bindLauncher rebinds)

/-! ## State -/

/-- A compile result, by its signature and the launch metadata that the compiler was shown. -/
structure CompileResult where
  signature : List NumbaType
  launchConfig : Option LaunchConfig
  requiredDynamicSharedMemory : Int
  deriving DecidableEq

/-- `_cext.KernelDispatcher`, with the key it was made for; `_c` is made for none. -/
structure KernelDispatcher where
  madeFor : Option LaunchConfig
  kernels : List (NativeKey × CompileResult)

structure DispatcherState where
  c : Nat
  kernelDispatchers : List KernelDispatcher
  canCompile : Bool
  extensions : List Nat
  requiresLaunchConfig : Bool
  literalArgFlags : List Bool
  overloads : Dict (List NumbaType) CompileResult
  launchConfigGeneration : Nat
  launchConfigOverloads : Dict (List NumbaType × LaunchConfig) CompileResult
  launchConfigDispatchers : Dict LaunchConfig Nat
  marshallers : List Marshaller

/-- A call of a marshaller, with what an enclosing launch left in `_compile_arg_types.launch_config`. -/
structure Launch where
  marshaller : Nat
  values : List LaunchValue
  argtypes : List NumbaType
  abiArgCount : Nat
  extensions : List Nat
  availableLaunchConfig : LaunchConfig
  outerLaunchConfig : Option LaunchConfig

inductive Goal where
  /-- `_prepare_for_launch`, for a marshaller as it was. -/
  | prepare (l : Launch) (launcher : Launcher) (configured : Marshaller)
  /-- The native launch, whose key missed. -/
  | native (l : Launch) (launcher : Launcher) (launchConfig : Option LaunchConfig) (key : NativeKey)
  /-- `_compile_launch_config_signature` -/
  | rebuild (argtypes : List NumbaType) (key : LaunchConfig) (extensions : List Nat)

structure Attempt where
  literalArgFlags : List Bool
  argtypes : List NumbaType
  launchConfig : Option LaunchConfig
  generation : Nat
  retries : Nat

inductive CompilePhase where
  | start (retries : Nat)
  | looking (a : Attempt)
  | compiling (a : Attempt)
  | publishing (a : Attempt) (r : CompileResult)

inductive Pc where
  | idle
  | configuring (launchConfigEnabled : Bool) (extensions : List Nat) (config : LaunchConfig)
  /-- On the prepared route, with the launcher that was read. -/
  | entered (l : Launch) (launcher : Launcher)
  | preparing (l : Launch) (launcher : Launcher) (configured : Marshaller)
  | compiling (goal : Goal) (phase : CompilePhase)
  /-- Before the lookup after a compilation. -/
  | prepared (l : Launch) (launcher : Launcher) (configured : Marshaller)
  | selecting (l : Launch) (launcher : Launcher) (configured : Marshaller) (launchConfig : Option LaunchConfig)
      (requiredDynamicSharedMemory : Int)
  | registering (l : Launch) (launcher : Launcher) (launchConfig : LaunchConfig) (requiredDynamicSharedMemory : Int)
  | binding (l : Launch) (launcher : Launcher) (ready : Ready)
  /-- Before the native lookup. -/
  | launching (l : Launch) (launcher : Launcher) (launchConfig : Option LaunchConfig)
  | emplacing (l : Launch) (launcher : Launcher) (launchConfig : Option LaunchConfig) (key : NativeKey) (r : CompileResult)

/-- A kernel that a launch ran, with the launch's own config and its active launch metadata. -/
structure Ran where
  own : LaunchConfig
  launchConfig : Option LaunchConfig
  launcher : Launcher
  kernel : CompileResult

structure State where
  d : DispatcherState
  threads : Nat → Pc
  log : List Ran

inductive CompileOutcome where
  | raise
  | forceLiteral (positions : List Bool) (required : Bool)
  | ok (requiredDynamicSharedMemory : Int) (required : Bool)
  /-- The disk cache has a result. -/
  | cached (signature : List NumbaType)

inductive Event where
  | setExtensions (extensions : List Nat)
  | disableCompile
  /-- `compile`, for a signature that has no overload. -/
  | compileSignature (argtypes : List NumbaType) (requiredDynamicSharedMemory : Int)
  | recompileClear
  /-- The locked section of `_recompile_impl`. -/
  | recompileReplace
  | configure (i : Nat) (config : LaunchConfig)
  | build (i : Nat)
  | rebuild (i : Nat) (argtypes : List NumbaType) (key : LaunchConfig)
  | launch (i m : Nat) (values : List LaunchValue) (argtypes : List NumbaType) (abiArgCount : Nat) (hasPlanners : Bool)
      (outerLaunchConfig : Option LaunchConfig)
  | ready (i : Nat)
  | prepare (i : Nat)
  | start (i : Nat)
  | look (i : Nat)
  | compile (i : Nat) (outcome : CompileOutcome)
  | publish (i : Nat)
  | lookAgain (i : Nat)
  | select (i : Nat)
  | register (i : Nat)
  | bind (i : Nat)
  | lookup (i : Nat) (key : NativeKey)
  | emplace (i : Nat)

/-! ## The tables -/

namespace DispatcherState

/-- A new dispatcher, or one that `_rebuild` starts from. -/
def init (literalArgFlags : List Bool) (requiresLaunchConfig : Bool) (extensions : List Nat) : DispatcherState where
  c := 0
  kernelDispatchers := [⟨none, []⟩]
  canCompile := true
  extensions := extensions
  requiresLaunchConfig := requiresLaunchConfig
  literalArgFlags := literalArgFlags
  overloads := .empty
  launchConfigGeneration := 0
  launchConfigOverloads := .empty
  launchConfigDispatchers := .empty
  marshallers := []

def newKernelDispatcher (d : DispatcherState) (madeFor : Option LaunchConfig) : DispatcherState :=
  { d with kernelDispatchers := d.kernelDispatchers ++ [⟨madeFor, []⟩] }

def kernelsOf (d : DispatcherState) (kd : Nat) : List (NativeKey × CompileResult) :=
  ((d.kernelDispatchers[kd]?).map (·.kernels)).getD []

def addKernel (d : DispatcherState) (kd : Nat) (key : NativeKey) (r : CompileResult) : DispatcherState :=
  { d with
    kernelDispatchers := d.kernelDispatchers.modify kd fun k => { k with kernels := k.kernels ++ [(key, r)] } }

def setMarshaller (d : DispatcherState) (i : Nat) (m : Marshaller) : DispatcherState :=
  { d with marshallers := d.marshallers.set i m }

def newGeneration (d : DispatcherState) : DispatcherState :=
  { d.newKernelDispatcher none with
    c := d.kernelDispatchers.length
    launchConfigGeneration := d.launchConfigGeneration + 1
    launchConfigOverloads := .empty
    launchConfigDispatchers := .empty }

/-- The locked section of `_record_literal_arg_positions`. -/
def recordLiteralArgPositions (d : DispatcherState) (positions : List Bool) : DispatcherState :=
  let updated := List.zipWith (· || ·) d.literalArgFlags positions
  if updated = d.literalArgFlags then d
  else { d.newGeneration with literalArgFlags := updated, overloads := .empty }

def evictLaunchConfig (d : DispatcherState) : DispatcherState :=
  match d.launchConfigDispatchers.entries with
  | [] => d
  | (evicted, _) :: _ =>
    { d with
      launchConfigDispatchers := d.launchConfigDispatchers.popFirst
      launchConfigOverloads := d.launchConfigOverloads.filter fun k _ => k.2 ≠ evicted }

def rememberKernelDispatcherLocked (d : DispatcherState) (key : LaunchConfig) (kernelDispatcher : Nat)
    (replaceExisting : Bool) : DispatcherState :=
  match d.launchConfigDispatchers.get key with
  | some existing =>
    if existing ≠ kernelDispatcher ∧ ¬ replaceExisting then d
    else
      { d with launchConfigDispatchers := (d.launchConfigDispatchers.set key kernelDispatcher).moveToEnd key }
  | none =>
    let d := { d with launchConfigDispatchers := d.launchConfigDispatchers.set key kernelDispatcher }
    evictLaunchConfig^[d.launchConfigDispatchers.length - launchConfigCacheSize] d

/-- `_get_launch_config_dispatcher_and_generation`, at the section that ends its loop. A native
dispatcher whose key another thread inserted first is never launched. -/
def getLaunchConfigDispatcher (d : DispatcherState) (key : LaunchConfig) : DispatcherState × Nat :=
  match d.launchConfigDispatchers.get key with
  | some kd => ({ d with launchConfigDispatchers := d.launchConfigDispatchers.moveToEnd key }, kd)
  | none =>
    let kd := d.kernelDispatchers.length
    ((d.newKernelDispatcher (some key)).rememberKernelDispatcherLocked key kd true, kd)

def isKernelDispatcherRegistered (d : DispatcherState) (launchConfig : LaunchConfig) (kernelDispatcher : Nat)
    (generation : Option Nat) : Bool :=
  generation.all (· = d.launchConfigGeneration) ∧
    d.launchConfigDispatchers.get launchConfig.key = some kernelDispatcher

def literalDispatcherNeedsPrelaunch (d : DispatcherState) (m : Marshaller) : Bool :=
  d.literalArgFlags.any id &&
    match m.launchConfig with
    | none => m.kernelDispatcher ≠ d.c
    | some config => !d.isKernelDispatcherRegistered config m.kernelDispatcher m.launchConfigGeneration

def isPrepared (d : DispatcherState) (hasPlanners : Bool) (m : Marshaller) : Bool :=
  hasPlanners || d.requiresLaunchConfig || m.launchConfig.isSome || d.literalDispatcherNeedsPrelaunch m

/-! ## Launching -/

/-- `_literalize_argtypes`; `none` where it raises. -/
def effectiveArgtypes (d : DispatcherState) (l : Launch) : Option (List NumbaType) :=
  literalizeArgtypes d.literalArgFlags l.argtypes l.values l.abiArgCount

def activeLaunchConfig (d : DispatcherState) (m : Marshaller) : Option LaunchConfig :=
  if d.requiresLaunchConfig then some m.availableLaunchConfig.key else m.launchConfig

def getReadyLaunch (d : DispatcherState) (argtypes : List NumbaType) (m : Marshaller) : Option Ready :=
  if m.launchConfig = none ∧ ¬ d.requiresLaunchConfig then
    match d.overloads.get argtypes with
    | some r =>
      if m.kernelDispatcher ≠ d.c ∨ m.launchConfigGeneration ≠ none then none
      else some ⟨d.c, none, none, r.requiredDynamicSharedMemory⟩
    | none => none
  else
    match d.activeLaunchConfig m with
    | none => none
    | some config =>
      match findLaunchConfigOverload d.launchConfigOverloads argtypes config.key with
      | some r =>
        if m.launchConfigGeneration ≠ some d.launchConfigGeneration ∨
            d.launchConfigDispatchers.get config.key ≠ some m.kernelDispatcher then none
        else some ⟨m.kernelDispatcher, m.launchConfigGeneration, some config, r.requiredDynamicSharedMemory⟩
      | none => none

def touch (d : DispatcherState) (ready : Ready) : DispatcherState :=
  match ready.launchConfig with
  | some config => { d with launchConfigDispatchers := d.launchConfigDispatchers.moveToEnd config.key }
  | none => d

def compileResultForConfig (d : DispatcherState) (argtypes : List NumbaType) : Option LaunchConfig → Option CompileResult
  | some config => findLaunchConfigOverload d.launchConfigOverloads argtypes config.key
  | none => compileResultFor d.overloads argtypes

/-- A retained native dispatcher is put back into the table while its generation is current. -/
def restore (d : DispatcherState) (m : Marshaller) (launchConfig : Option LaunchConfig) : DispatcherState :=
  match launchConfig, m.launchConfig, m.launchConfigGeneration with
  | some config, some _, some generation =>
    if d.requiresLaunchConfig ∨ generation ≠ d.launchConfigGeneration then d
    else d.rememberKernelDispatcherLocked config.key m.kernelDispatcher false
  | _, _, _ => d

end DispatcherState

namespace State

def init (d : DispatcherState) : State := ⟨d, fun _ => .idle, []⟩

def setD (s : State) (d : DispatcherState) : State := { s with d := d }

def setPc (s : State) (i : Nat) (pc : Pc) : State := { s with threads := Runs.setAt s.threads i pc }

def ran (s : State) (i : Nat) (l : Launch) (launcher : Launcher) (launchConfig : Option LaunchConfig)
    (kernel : CompileResult) : State :=
  { s.setPc i .idle with log := ⟨l.availableLaunchConfig, launchConfig, launcher, kernel⟩ :: s.log }

end State

/-- `_configure_cached`, whose native dispatcher is `_c` when launch configs were enabled at its start only. -/
def marshaller (launchConfigEnabled : Bool) (extensions : List Nat) (config : LaunchConfig) (kernelDispatcher : Nat)
    (generation : Option Nat) : Marshaller where
  launcher := ⟨kernelDispatcher, config⟩
  extensions := extensions
  launchConfig := if launchConfigEnabled then some config else none
  availableLaunchConfig := config
  kernelDispatcher := kernelDispatcher
  launchConfigGeneration := generation
  adjusted := none

/-- `_prepare_for_launch`, up to the compilation or the choice of a native dispatcher. -/
def prepare (s : State) (i : Nat) (l : Launch) (launcher : Launcher) (m : Marshaller) : State :=
  match s.d.effectiveArgtypes l with
  | none => s.setPc i .idle
  | some argtypes =>
    match s.d.getReadyLaunch argtypes m with
    | some ready => (s.setD (s.d.touch ready)).setPc i (.binding l launcher ready)
    | none =>
      let config := s.d.activeLaunchConfig m
      match s.d.compileResultForConfig argtypes config with
      | some r => s.setPc i (.selecting l launcher m config r.requiredDynamicSharedMemory)
      | none =>
        (s.setD (s.d.restore m config)).setPc i
          (.compiling (.prepare l launcher m) (.start configureCacheStaleRetryLimit))

def lookAgain (s : State) (i : Nat) (l : Launch) (launcher : Launcher) (m : Marshaller) : State :=
  let config := s.d.activeLaunchConfig m
  match (s.d.effectiveArgtypes l).bind fun argtypes => s.d.compileResultForConfig argtypes config with
  | some r => s.setPc i (.selecting l launcher m config r.requiredDynamicSharedMemory)
  | none => s.setPc i .idle

section
variable (usesLaunchConfig : Nat → Bool) (normalize : List NumbaType → List NumbaType)

def DispatcherState.launchConfigEnabled (d : DispatcherState) : Bool :=
  d.requiresLaunchConfig || d.extensions.any usesLaunchConfig

def build (s : State) (i : Nat) (enabled : Bool) (extensions : List Nat) (config : LaunchConfig) : State :=
  if enabled ∧ s.d.launchConfigEnabled usesLaunchConfig then
    let (d, kd) := s.d.getLaunchConfigDispatcher config.key
    let m := marshaller enabled extensions config kd (some s.d.launchConfigGeneration)
    (s.setD { d with marshallers := d.marshallers ++ [m] }).setPc i .idle
  else
    let m := marshaller enabled extensions config s.d.c none
    (s.setD { s.d with marshallers := s.d.marshallers ++ [m] }).setPc i .idle

def select (s : State) (i : Nat) (l : Launch) (launcher : Launcher) (m : Marshaller) (launchConfig : Option LaunchConfig)
    (smem : Int) : State :=
  match launchConfig, m.launchConfig with
  | none, _ => s.setPc i (.binding l launcher ⟨s.d.c, none, none, smem⟩)
  | some config, some configured =>
    if s.d.requiresLaunchConfig then s.setPc i (.registering l launcher config smem)
    else if s.d.isKernelDispatcherRegistered configured m.kernelDispatcher m.launchConfigGeneration then
      s.setPc i (.binding l launcher ⟨m.kernelDispatcher, m.launchConfigGeneration, some configured, smem⟩)
    else s.setPc i (.registering l launcher config smem)
  | some config, none =>
    if s.d.launchConfigEnabled usesLaunchConfig then s.setPc i (.registering l launcher config smem)
    else s.setPc i (.binding l launcher ⟨s.d.c, none, some config, smem⟩)

def register (s : State) (i : Nat) (l : Launch) (launcher : Launcher) (config : LaunchConfig) (smem : Int) : State :=
  let (d, kd) := s.d.getLaunchConfigDispatcher config.key
  (s.setD d).setPc i (.binding l launcher ⟨kd, some s.d.launchConfigGeneration, some config, smem⟩)

/-! ## Compiling -/

/-- `_compile_arg_types`, with the number of native arguments. -/
structure CompileArgTypes where
  types : List NumbaType
  values : List LaunchValue
  abiArgCount : Nat
  extensions : List Nat
  launchConfig : Option LaunchConfig
  availableLaunchConfig : Option LaunchConfig
  forceLaunchConfig : Bool

/-- What stands for the value of a literal type; every other placeholder is `None`. -/
def placeholder : NumbaType → LaunchValue
  | .literal (.int v) => .leaf (.long .int v)
  | .literal (.bool b) => .leaf (.long .bool (if b then 1 else 0))
  | _ => .tuple []

def Goal.compileArgTypes : Goal → CompileArgTypes
  | .prepare l _ _ =>
    ⟨l.argtypes, l.values, l.abiArgCount, l.extensions, l.outerLaunchConfig, some l.availableLaunchConfig, false⟩
  | .native l _ launchConfig _ =>
    ⟨l.argtypes, l.values, l.abiArgCount, l.extensions, launchConfig, some l.availableLaunchConfig, false⟩
  | .rebuild argtypes key extensions =>
    ⟨argtypes, argtypes.map placeholder, argtypes.length, extensions, some key, none, true⟩

def compileLaunchConfig (d : DispatcherState) (t : CompileArgTypes) : Option LaunchConfig :=
  if t.forceLaunchConfig || d.requiresLaunchConfig || t.extensions.any usesLaunchConfig then
    (t.launchConfig.or t.availableLaunchConfig).map LaunchConfig.key
  else none

/-- The start of `_compile_impl`; `none` where it raises. -/
def attempt (d : DispatcherState) (t : CompileArgTypes) (retries : Nat) : Option Attempt :=
  (literalizeArgtypes d.literalArgFlags t.types t.values t.abiArgCount).bind fun argtypes =>
    let config := compileLaunchConfig usesLaunchConfig d t
    if d.requiresLaunchConfig ∧ config = none then none
    else some ⟨d.literalArgFlags, argtypes, config, d.launchConfigGeneration, retries⟩

def reusable (d : DispatcherState) (a : Attempt) : Option CompileResult :=
  match a.launchConfig with
  | some key => findLaunchConfigOverload d.launchConfigOverloads a.argtypes key
  | none => firstReusable d.overloads a.argtypes

/-- Its choice among the overloads when it cannot compile. -/
def resolve (d : DispatcherState) (a : Attempt) : Option CompileResult :=
  match a.launchConfig with
  | some key => resolveLaunchConfigResult d.launchConfigOverloads a.argtypes key
  | none => resolveResult d.overloads a.argtypes

def resume (r : CompileResult) : Goal → Pc
  | .prepare l launcher m => .prepared l launcher m
  | .native l launcher launchConfig key => .emplacing l launcher launchConfig key r
  | .rebuild .. => .idle

def existing (d : DispatcherState) (a : Attempt) (key : LaunchConfig) (signature : List NumbaType) : Option CompileResult :=
  (findLaunchConfigOverload d.launchConfigOverloads a.argtypes key).or
    (if signature ≠ a.argtypes then findLaunchConfigOverload d.launchConfigOverloads signature key else none)

/-- The result is kept under the types of the launch and those of its signature. -/
def storeLaunchConfigOverload (d : DispatcherState) (argtypes : List NumbaType) (key : LaunchConfig) (r : CompileResult) :
    DispatcherState :=
  { d with
    launchConfigOverloads := (d.launchConfigOverloads.setDefault (argtypes, key) r).setDefault (r.signature, key) r }

def publish (s : State) (i : Nat) (goal : Goal) (a : Attempt) (r : CompileResult) : State :=
  match a.launchConfig with
  | some key =>
    if a.generation ≠ s.d.launchConfigGeneration then
      match a.retries with
      | 0 => s.setPc i .idle
      | retries + 1 => s.setPc i (.compiling goal (.start retries))
    else
      match existing s.d a key r.signature with
      | some first => s.setPc i (resume first goal)
      | none => (s.setD (storeLaunchConfigOverload s.d a.argtypes key r)).setPc i (resume r goal)
  | none => (s.setD { s.d with overloads := s.d.overloads.set r.signature r }).setPc i (resume r goal)

/-- The compilation itself, whose signature has the function's annotations in it. -/
def compile (s : State) (i : Nat) (goal : Goal) (a : Attempt) : CompileOutcome → Option State
  | .raise => some (s.setPc i .idle)
  | .forceLiteral positions required =>
    let d := s.d.recordLiteralArgPositions positions
    let progress := d.literalArgFlags ≠ a.literalArgFlags
    let d := if progress ∧ a.launchConfig = none ∧ required then { d with requiresLaunchConfig := true } else d
    if progress then some ((s.setD d).setPc i (.compiling goal (.start a.retries)))
    else some ((s.setD d).setPc i .idle)
  | .ok smem required =>
    match a.launchConfig, goal.compileArgTypes.availableLaunchConfig, required with
    -- The compilation asked its tracker for the launch config, which was not active.
    | none, some available, true =>
      let a := { a with launchConfig := some available.key }
      let r : CompileResult := ⟨normalize a.argtypes, some available.key, smem⟩
      some ((s.setD { s.d with requiresLaunchConfig := true }).setPc i (.compiling goal (.publishing a r)))
    | config, _, _ => some (s.setPc i (.compiling goal (.publishing a ⟨normalize a.argtypes, config, smem⟩)))
  | .cached signature =>
    if a.launchConfig = none then
      let r : CompileResult := ⟨signature, none, 0⟩
      some ((s.setD { s.d with overloads := s.d.overloads.set a.argtypes r }).setPc i (resume r goal))
    else none

/-! ## Steps -/

def stepThread (s : State) (i : Nat) (e : Event) : Option State :=
  match e, s.threads i with
  | .configure _ config, .idle =>
    let enabled := s.d.launchConfigEnabled usesLaunchConfig
    some (s.setPc i (.configuring enabled s.d.extensions (if enabled then config.key else config)))
  | .build _, .configuring enabled extensions config => some (build usesLaunchConfig s i enabled extensions config)
  | .rebuild _ argtypes key, .idle =>
    if (s.d.launchConfigOverloads.get (argtypes, key.key)).isSome then some s
    else
      some (s.setPc i
        (.compiling (.rebuild argtypes key.key s.d.extensions) (.start configureCacheStaleRetryLimit)))
  | .launch _ m values argtypes abiArgCount hasPlanners outer, .idle =>
    (s.d.marshallers[m]?).map fun marshaller =>
      let l : Launch :=
        ⟨m, values, argtypes, abiArgCount, marshaller.extensions, marshaller.availableLaunchConfig, outer⟩
      if s.d.isPrepared hasPlanners marshaller then s.setPc i (.entered l marshaller.launcher)
      else s.setPc i (.launching l marshaller.launcher marshaller.launchConfig)
  | .ready _, .entered l launcher =>
    (s.d.marshallers[l.marshaller]?).map fun m =>
      match s.d.effectiveArgtypes l with
      | none => s.setPc i .idle
      | some argtypes =>
        match s.d.getReadyLaunch argtypes m with
        | some ready => (s.setD (s.d.touch ready)).setPc i (.binding l launcher ready)
        | none => s.setPc i (.preparing l launcher m)
  | .prepare _, .preparing l launcher m => some (prepare s i l launcher m)
  | .start _, .compiling goal (.start retries) =>
    match attempt usesLaunchConfig s.d goal.compileArgTypes retries with
    | some a => some (s.setPc i (.compiling goal (.looking a)))
    | none => some (s.setPc i .idle)
  | .look _, .compiling goal (.looking a) =>
    match reusable s.d a with
    | some r => some (s.setPc i (resume r goal))
    | none =>
      if s.d.canCompile then some (s.setPc i (.compiling goal (.compiling a)))
      else
        match resolve s.d a with
        | some r => some (s.setPc i (resume r goal))
        | none => some (s.setPc i .idle)
  | .compile _ outcome, .compiling goal (.compiling a) => compile normalize s i goal a outcome
  | .publish _, .compiling goal (.publishing a r) => some (publish s i goal a r)
  | .lookAgain _, .prepared l launcher m => some (lookAgain s i l launcher m)
  | .select _, .selecting l launcher m config smem => some (select usesLaunchConfig s i l launcher m config smem)
  | .register _, .registering l launcher config smem => some (register s i l launcher config smem)
  | .bind _, .binding l launcher ready =>
    (s.d.marshallers[l.marshaller]?).map fun m =>
      let (m, launcher) := bindLauncher m launcher ready
      (s.setD (s.d.setMarshaller l.marshaller m)).setPc i (.launching l launcher ready.launchConfig)
  | .lookup _ key, .launching l launcher config =>
    match (s.d.kernelsOf launcher.kernelDispatcher).lookup key with
    | some kernel => some (s.ran i l launcher config kernel)
    | none =>
      some (s.setPc i (.compiling (.native l launcher config key) (.start configureCacheStaleRetryLimit)))
  | .emplace _, .emplacing l launcher config key r =>
    match (s.d.kernelsOf launcher.kernelDispatcher).lookup key with
    -- Another launch emplaced this key first; its kernel is used.
    | some first => some (s.ran i l launcher config first)
    | none => some ((s.setD (s.d.addKernel launcher.kernelDispatcher key r)).ran i l launcher config r)
  | _, _ => none

def step (s : State) (e : Event) : Option State :=
  match e with
  | .setExtensions extensions => some (s.setD { s.d with extensions := extensions })
  | .disableCompile => some (s.setD { s.d with canCompile := false })
  | .compileSignature argtypes smem =>
    some (s.setD { s.d with overloads := s.d.overloads.setDefault argtypes ⟨argtypes, none, smem⟩ })
  | .recompileClear => some (s.setD { s.d with overloads := .empty })
  | .recompileReplace => some (s.setD s.d.newGeneration)
  | .configure i _ | .build i | .rebuild i .. | .launch i .. | .ready i | .prepare i | .start i | .look i
  | .compile i _ | .publish i | .lookAgain i | .select i | .register i | .bind i | .lookup i _ | .emplace i =>
    stepThread usesLaunchConfig normalize s i e

end

end NumbaCudaMlir.LaunchSpecialization

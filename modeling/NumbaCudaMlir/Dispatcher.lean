import NumbaCudaMlir.Dict
import NumbaCudaMlir.Launch

/-!
# The state of a dispatcher

What an `MLIRDispatcher` keeps between calls, and the sections of its methods
that hold `_launch_config_lock`. Native dispatchers, marshallers and events are
objects; their identities are the positions at which they were made.
-/

namespace NumbaCudaMlir

abbrev Dim3 := Nat × Nat × Nat

structure LaunchConfig where
  grid : Dim3
  block : Dim3
  sharedmem : Option Int
  cluster : Option Dim3
  deriving DecidableEq, Repr

def normalizeLaunchSharedmem (sharedmem : Option Int) : Int := sharedmem.getD 0

/-- `_launch_config_key`, and the dict that `_normalize_available_launch_config` makes of it. -/
def LaunchConfig.key (config : LaunchConfig) : LaunchConfig :=
  { config with sharedmem := some (normalizeLaunchSharedmem config.sharedmem) }

/-- A compile result, with the number of calls of `recompile` that had begun when it was compiled. -/
structure CompileResult where
  compiledAt : Nat
  requiredDynamicSharedMemory : Int
  deriving DecidableEq, Repr

/-- The family and the constants under which a native dispatcher keeps a kernel. -/
abbrev NativeKey := List ParameterKind × List ConstantArg

/-- `_cext.KernelDispatcher`, with the last call of `recompile` that had replaced `_c` when it was made. -/
structure KernelDispatcher where
  bornAt : Nat
  kernels : List (NativeKey × CompileResult)

structure Launcher where
  kernelDispatcher : Nat
  config : LaunchConfig
  deriving DecidableEq, Repr

/-- `_ArgMarshaller`, by the fields that `configure` and `_launch` read. -/
structure Marshaller where
  launcher : Launcher
  extensions : List Nat
  launchConfig : Option LaunchConfig
  availableLaunchConfig : LaunchConfig
  kernelDispatcher : Nat
  launchConfigGeneration : Option Nat
  /-- `_adjusted_launcher_key` and `_adjusted_launcher`. -/
  adjusted : Option ((Nat × Option Nat × Int) × Launcher)

structure ConfigureKey where
  launchConfigEnabled : Bool
  extensionKey : List Nat
  config : LaunchConfig
  stream : Nat
  deriving DecidableEq, Repr

structure Dispatcher where
  c : Nat
  kernelDispatchers : List KernelDispatcher
  extensions : List Nat
  requiresLaunchConfig : Bool
  literalArgFlags : List Bool
  overloads : Dict (List NumbaType) CompileResult
  launchConfigGeneration : Nat
  launchConfigOverloads : Dict (List NumbaType × LaunchConfig) CompileResult
  launchConfigDispatchers : Dict LaunchConfig Nat
  marshallers : List Marshaller
  configureCache : Dict ConfigureKey Nat
  configureCacheInflight : Dict ConfigureKey Nat
  /-- Whether each event is set. -/
  events : List Bool

def configureCacheSize : Nat := 128

def launchConfigCacheSize : Nat := configureCacheSize * 2

def configureCacheStaleRetryLimit : Nat := 8

namespace Dispatcher

def init (numParams : Nat) (extensions : List Nat) : Dispatcher :=
  ⟨0, [⟨0, []⟩], extensions, false, List.replicate numParams false, .empty, 0, .empty, .empty, [], .empty, .empty, []⟩

def newKernelDispatcher (d : Dispatcher) (bornAt : Nat) : Dispatcher :=
  { d with kernelDispatchers := d.kernelDispatchers ++ [⟨bornAt, []⟩] }

def newMarshaller (d : Dispatcher) (m : Marshaller) : Dispatcher := { d with marshallers := d.marshallers ++ [m] }

def setEvent (d : Dispatcher) (e : Nat) : Dispatcher := { d with events := d.events.set e true }

def isSet (d : Dispatcher) (e : Nat) : Bool := d.events[e]? = some true

def clearConfigureCache (d : Dispatcher) : Dispatcher :=
  { d with
    configureCache := .empty
    configureCacheInflight := .empty
    events := d.configureCacheInflight.values.foldl (fun es e => es.set e true) d.events }

def newGeneration (d : Dispatcher) (bornAt : Nat) : Dispatcher :=
  let d := d.newKernelDispatcher bornAt
  { d.clearConfigureCache with
    c := d.kernelDispatchers.length - 1
    launchConfigGeneration := d.launchConfigGeneration + 1
    launchConfigOverloads := .empty
    launchConfigDispatchers := .empty }

def recompileLocked (d : Dispatcher) (bornAt : Nat) : Dispatcher := d.newGeneration bornAt

/-- The locked section of `_record_literal_arg_positions`. -/
def recordLiteralArgPositions (d : Dispatcher) (positions : List Bool) (bornAt : Nat) : Dispatcher :=
  let updated := List.zipWith (· || ·) d.literalArgFlags positions
  if updated = d.literalArgFlags then d
  else { d.newGeneration bornAt with literalArgFlags := updated, overloads := .empty }

def evictLaunchConfig (d : Dispatcher) : Dispatcher :=
  match d.launchConfigDispatchers.entries with
  | [] => d
  | (evicted, _) :: _ =>
    { d with
      launchConfigDispatchers := d.launchConfigDispatchers.popFirst
      launchConfigOverloads := d.launchConfigOverloads.filter fun k _ => k.2 ≠ evicted }

def rememberKernelDispatcherLocked (d : Dispatcher) (key : LaunchConfig) (kernelDispatcher : Nat)
    (replaceExisting : Bool) : Dispatcher :=
  match d.launchConfigDispatchers.get key with
  | some existing =>
    if existing ≠ kernelDispatcher ∧ ¬ replaceExisting then d
    else
      { d with launchConfigDispatchers := (d.launchConfigDispatchers.set key kernelDispatcher).moveToEnd key }
  | none =>
    let d := { d with launchConfigDispatchers := d.launchConfigDispatchers.set key kernelDispatcher }
    evictLaunchConfig^[d.launchConfigDispatchers.length - launchConfigCacheSize] d

end Dispatcher

section
variable (usesLaunchConfig : Nat → Bool)

def Dispatcher.launchConfigEnabled (d : Dispatcher) : Bool :=
  d.requiresLaunchConfig || d.extensions.any usesLaunchConfig

end

def Dispatcher.marshallerStale (d : Dispatcher) (launchConfigEnabled : Bool) (m : Marshaller) : Bool :=
  if launchConfigEnabled then m.launchConfigGeneration ≠ some d.launchConfigGeneration
  else m.kernelDispatcher ≠ d.c

end NumbaCudaMlir

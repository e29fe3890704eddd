import NumbaCudaMlir.FastPath
import NumbaCudaMlir.Typeof
import NumbaCudaMlir.Runs

/-!
# Launches on a kernel dispatcher

`launch`, as the steps between its calls into Python. Other launches on the same
dispatcher, of other threads or nested in the calls, take their own steps in
between: while an argument is classified, in `ensure_context`, in `compile` and
in the post-load callback of a new library.
-/

namespace NumbaCudaMlir

/-! ## Compilation -/

/-- The Numba literal an argument can stand for: exact `int` and `bool` values only. -/
def literalFor : LaunchValue → Option LiteralValue
  | .leaf (.long .int v) => some (.int v)
  | .leaf (.long .bool v) => some (.bool (v ≠ 0))
  | _ => none

def literalize : (literalArgFlags : List Bool) → List LaunchValue → List NumbaType → List NumbaType
  | l :: ls, v :: vs, t :: ts =>
    (if l then ((literalFor v).map .literal).getD t else t) :: literalize ls vs ts
  | _, _, ts => ts

/-- `_literalize_argtypes`; it raises on flattened arguments and on a position past the arguments. -/
def literalizeArgtypes (literalArgFlags : List Bool) (argtypes : List NumbaType) (values : List LaunchValue)
    (abiArgCount : Nat) : Option (List NumbaType) :=
  if true ∉ literalArgFlags then some argtypes
  else if values.length ≠ argtypes.length then none
  else if abiArgCount ≠ values.length then none
  else if true ∈ literalArgFlags.drop argtypes.length then none
  else some (literalize literalArgFlags values argtypes)

def compileArgtypes (literalArgFlags : List Bool) (values : List LaunchValue) : Option (List NumbaType) :=
  (LaunchValue.typeofAll values).bind fun argtypes =>
    literalizeArgtypes literalArgFlags argtypes values (LaunchValue.flattenAll values).length

/-! ## State -/

structure CudaKernelHandle where
  lib : Nat
  postLoadCallback : Bool
  values : List LaunchValue
  argtypes : List NumbaType

structure DispatcherConfig where
  constantArgFlags : List Bool
  literalArgFlags : List Bool

def DispatcherConfig.unspecialised (numParams : Nat) : DispatcherConfig :=
  ⟨List.replicate numParams false, List.replicate numParams false⟩

inductive Pc where
  | idle
  /-- The head of `todo` is being classified. -/
  | classifying (values : List LaunchValue) (done : List (PythonArgKind × ParameterKind)) (todo : List PyObj)
  | extracting (values : List LaunchValue) (profile : PythonArgProfile)
  | looking (values : List LaunchValue) (profile : PythonArgProfile) (constants : List ConstantArg)
  | compiling (values : List LaunchValue) (profile : PythonArgProfile) (constants : List ConstantArg)
  /-- Inside the post-load callback of the kernel it inserted. -/
  | loading (values : List LaunchValue) (profile : PythonArgProfile) (kernel : CudaKernelHandle)
  | launched
  | raised
  | callbackRaised (kernel : CudaKernelHandle)

inductive LogEntry where
  | loaded (lib : Nat)
  /-- `cuLaunchKernel`; `hit` when the kernel was found without a call of `compile`. -/
  | launched (values : List LaunchValue) (profile : PythonArgProfile) (kernel : CudaKernelHandle) (hit : Bool)

/-- A dispatcher and the launches on it; `log` has the newest entry first. -/
structure LaunchState where
  argProfiles : List (List PyType × PythonArgProfile)
  /-- `kernels_by_constants` of every family. -/
  kernels : List ((List ParameterKind × List ConstantArg) × CudaKernelHandle)
  nextLib : Nat
  threads : Nat → Pc
  /-- Whether a `CHECK` failed. -/
  aborted : Bool
  log : List LogEntry

def LaunchState.init : LaunchState := ⟨[], [], 0, fun _ => .idle, false, []⟩

inductive LaunchEvent where
  | begin (i : Nat) (values : List LaunchValue)
  | classify (i : Nat)
  | extract (i : Nat) (driver : Driver) (stale : LaunchHelper)
  /-- `ensure_context` returned, or raised, and the kernel is looked up. -/
  | lookup (i : Nat) (contextOk : Bool)
  /-- `compile` raised, or returned a kernel with or without a callback. -/
  | compiled (i : Nat) (result : Option Bool)
  | callback (i : Nat) (ok : Bool)

/-! ## Steps -/

namespace LaunchState

def setPc (s : LaunchState) (i : Nat) (pc : Pc) : LaunchState :=
  { s with threads := Runs.setAt s.threads i pc }

def finish (s : LaunchState) (i : Nat) (values : List LaunchValue) (profile : PythonArgProfile)
    (kernel : CudaKernelHandle) (hit : Bool) : LaunchState :=
  { s.setPc i .launched with log := .launched values profile kernel hit :: s.log }

def emplace (s : LaunchState) (key : List ParameterKind × List ConstantArg) (kernel : CudaKernelHandle) :
    LaunchState :=
  { s with nextLib := s.nextLib + 1, kernels := s.kernels ++ [(key, kernel)] }

def bindProfile (s : LaunchState) (types : List PyType) (profile : PythonArgProfile) : LaunchState :=
  { s with argProfiles := s.argProfiles ++ [(types, profile)] }

def drop (s : LaunchState) : LaunchState := { s with nextLib := s.nextLib + 1 }

def logLoaded (s : LaunchState) (lib : Nat) : LaunchState := { s with log := .loaded lib :: s.log }

end LaunchState

def pyargTypes (values : List LaunchValue) : List PyType := (LaunchValue.flattenAll values).map PyObj.type

/-- The arguments up to the next one whose classification calls into Python. -/
def classifyPlain : List (PythonArgKind × ParameterKind) → List PyObj →
    List (PythonArgKind × ParameterKind) × List PyObj
  | done, [] => (done, [])
  | done, .long _ _ :: args => classifyPlain (done ++ [(.pyLong, .integer)]) args
  | done, .float _ _ :: args => classifyPlain (done ++ [(.pyFloat, .float)]) args
  | done, arg :: args => (done, arg :: args)

def newProfile (cfg : DispatcherConfig) (types : List PyType) (done : List (PythonArgKind × ParameterKind)) :
    PythonArgProfile :=
  ⟨done.map (·.2), done.map (·.1), effectiveConstantArgFlags cfg.constantArgFlags cfg.literalArgFlags types⟩

/-- `ProfileMap.insert`, whose `CHECK` aborts the process when the key is bound. -/
def insertProfile (cfg : DispatcherConfig) (s : LaunchState) (i : Nat) (values : List LaunchValue)
    (done : List (PythonArgKind × ParameterKind)) : LaunchState :=
  let types := pyargTypes values
  if (s.argProfiles.lookup types).isSome then { s with aborted := true }
  else
    let profile := newProfile cfg types done
    (s.bindProfile types profile).setPc i (.extracting values profile)

/-- The classification goes on to the next call into Python, or to its end. -/
def classifyNext (cfg : DispatcherConfig) (s : LaunchState) (i : Nat) (values : List LaunchValue)
    (done : List (PythonArgKind × ParameterKind)) (todo : List PyObj) : LaunchState :=
  match classifyPlain done todo with
  | (done, []) => insertProfile cfg s i values done
  | (done, arg :: todo) => s.setPc i (.classifying values done (arg :: todo))

def prepareParams (driver : Driver) (profile : PythonArgProfile) (pyargs : List PyObj) (stale : LaunchHelper) :
    Result LaunchParams :=
  if profile.fastExtractors.isEmpty then standardPath driver profile pyargs stale
  else fastPath profile pyargs stale

def step (cfg : DispatcherConfig) (s : LaunchState) (e : LaunchEvent) : Option LaunchState :=
  if s.aborted then none
  else
    match e with
    | .begin i values =>
      match s.threads i with
      | .idle =>
        match s.argProfiles.lookup (pyargTypes values) with
        | some profile => some (s.setPc i (.extracting values profile))
        | none => some (classifyNext cfg s i values [] (LaunchValue.flattenAll values))
      | _ => none
    | .classify i =>
      match s.threads i with
      | .classifying values done (arg :: todo) =>
        match classifyArg arg with
        | .ok c => some (classifyNext cfg s i values (done ++ [c]) todo)
        | .error _ => some (s.setPc i .raised)
      | _ => none
    | .extract i driver stale =>
      match s.threads i with
      | .extracting values profile =>
        match prepareParams driver profile (LaunchValue.flattenAll values) stale with
        | .ok params => some (s.setPc i (.looking values profile params.constants))
        | .error (.raised _) => some (s.setPc i .raised)
        | .error .undefined => none
      | _ => none
    | .lookup i contextOk =>
      match s.threads i with
      | .looking values profile constants =>
        if ¬ contextOk then some (s.setPc i .raised)
        else
          match s.kernels.lookup (profile.family, constants) with
          | some kernel => some (s.finish i values profile kernel true)
          | none => some (s.setPc i (.compiling values profile constants))
      | _ => none
    | .compiled i result =>
      match s.threads i, result with
      | .compiling _ _ _, none => some (s.setPc i .raised)
      | .compiling values profile constants, some postLoadCallback =>
        (compileArgtypes cfg.literalArgFlags values).map fun argtypes =>
          let kernel : CudaKernelHandle := ⟨s.nextLib, postLoadCallback, values, argtypes⟩
          match s.kernels.lookup (profile.family, constants) with
          -- Another launch emplaced this key first; its kernel is used.
          | some first => s.drop.finish i values profile first false
          | none =>
            let s := s.emplace (profile.family, constants) kernel
            if postLoadCallback then s.setPc i (.loading values profile kernel)
            else s.finish i values profile kernel false
      | _, _ => none
    | .callback i ok =>
      match s.threads i with
      | .loading values profile kernel =>
        if ok then some ((s.logLoaded kernel.lib).finish i values profile kernel false)
        else some (s.setPc i (.callbackRaised kernel))
      | _ => none

end NumbaCudaMlir

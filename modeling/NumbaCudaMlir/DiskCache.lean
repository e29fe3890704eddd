import NumbaCudaMlir.CacheCrash
import NumbaCudaMlir.NumbaType

/-!
# The disk cache of compile results

A compile result is saved as the fields that `reduce` lists and restored from
them. The index key has the signature, the target, the function's hashes and
four of the target options.
-/

namespace NumbaCudaMlir.DiskCache

open CacheFile

/-! ## Target options -/

inductive OptionValue where
  | none
  | bool (b : Bool)
  | int (v : Int)
  | str (s : String)
  | tuple (vs : List Int)
  | list (items : List String)
  | other (id : Nat)
deriving DecidableEq

namespace OptionValue

def truthy : OptionValue → Bool
  | none => false
  | bool b => b
  | int v => v ≠ 0
  | str s => s ≠ ""
  | tuple vs => vs ≠ []
  | list items => items ≠ []
  | other _ => true

/-- Python's `True == 1` and `False == 0`: values are equal where these are the same. -/
def norm : OptionValue → OptionValue
  | bool b => int (if b then 1 else 0)
  | v => v

end OptionValue

abbrev TargetOptions := Dict String OptionValue

def TargetOptions.getD (o : TargetOptions) (name : String) (dflt : OptionValue) : OptionValue :=
  (Dict.get o name).getD dflt

/-- The chip that `resolve_gpu_target` takes: the host's where the options name none. -/
def resolveChip (hostArch : String) (o : TargetOptions) : OptionValue :=
  if (o.getD "chip" .none).truthy then o.getD "chip" .none else .str hostArch

def resolveTargetOptions (hostArch : String) (o : TargetOptions) : TargetOptions :=
  Dict.set o "chip" (resolveChip hostArch o)

/-- How the compiler reads an option: its truth, or its value with a default. -/
inductive Reading where
  | truth
  | value (dflt : OptionValue)

def TargetOptions.consult (o : TargetOptions) (name : String) : Reading → OptionValue
  | .truth => .bool (o.getD name .none).truthy
  | .value dflt => (o.getD name dflt).norm

/-- The options that `compile_mlir`, `apply_ast_transforms` and `optimize` read and
that have a place in the index key. -/
def keyedOptions : List (String × Reading) :=
  [("_lto_explicit", .truth), ("lto", .truth), ("chip", .value .none), ("launch_bounds", .value .none)]

def unkeyedOptions : List (String × Reading) :=
  [("debug", .truth), ("lineinfo", .truth), ("link", .value (.list [])), ("opt_level", .value .none),
   ("opt", .value .none), ("ptxas_options", .value .none), ("max_registers", .value .none),
   ("capi", .value (.bool false)), ("fastmath", .truth), ("features", .value (.str "")), ("device", .truth),
   ("_compile_output", .value .none), ("abi_info", .value .none), ("inline", .value (.str "always")),
   ("parallel", .value (.bool false)), ("experimental_ast_transforms", .truth)]

/-! ## Compile results -/

inductive Callback where
  | nrtMemsysSetup
  | linked (id : Nat)
deriving DecidableEq

inductive MetadataValue where
  | none
  | bool (b : Bool)
  | int (v : Int)
  | str (s : String)
  | bytes (bs : List UInt8)
  | callbacks (cbs : List Callback)
  | options (o : TargetOptions)
  | other (id : Nat)

namespace MetadataValue

def truthy : MetadataValue → Bool
  | none => false
  | bool b => b
  | int v => v ≠ 0
  | str s => s ≠ ""
  | bytes bs => bs ≠ []
  | callbacks cbs => cbs ≠ []
  | options o => o.length ≠ 0
  | other _ => true

def callbackList : MetadataValue → List Callback
  | callbacks cbs => cbs
  | _ => []

end MetadataValue

abbrev Metadata := Dict String MetadataValue

def Metadata.getD (m : Metadata) (name : String) (dflt : MetadataValue) : MetadataValue :=
  (Dict.get m name).getD dflt

structure Signature where
  args : List NumbaType
  returnType : NumbaType
deriving DecidableEq

/-- A result that `compile_mlir` and `optimize` have made: it has code, a name
and the options it was compiled with. -/
structure CompileResult where
  signature : Signature
  metadata : Metadata
  cubin : ∃ code, metadata.get "cubin" = some (.bytes code)
  funcName : ∃ name, metadata.get "func_name" = some (.str name)
  targetoptions : ∃ o, metadata.get "targetoptions" = some (.options o)

structure Codegen where
  isLto : Bool
  mlir : String
  ltoir : List UInt8
  ptx : String
  cubin : List UInt8
  funcName : String

/-- What `compile_mlir` adds to the metadata of a lowered function. -/
def compileMlir (lowered : Metadata) (o : TargetOptions) (gpuTarget transformedSource : MetadataValue) : Metadata :=
  (((Dict.erase lowered "launch_config_tracker").set "targetoptions" (.options o)).set "gpu_target" gpuTarget).set
    "transformed_source" transformedSource

/-- A function that needs the run-time memory system sets it up when its module is loaded. -/
def addNrtCallback (m : Metadata) : Metadata :=
  if (m.getD "needs_nrt" .none).truthy then
    let cbs := (m.getD "setup_callbacks" (.callbacks [])).callbackList
    Dict.set m "setup_callbacks"
      (.callbacks (if Callback.nrtMemsysSetup ∈ cbs then cbs else cbs ++ [.nrtMemsysSetup]))
  else m

def optimize (m : Metadata) (g : Codegen) : Metadata :=
  let m := Dict.set m "mlir_module_optimized" (.str g.mlir)
  let m := if g.isLto then (Dict.set m "ltoir" (.bytes g.ltoir)).set "ptx" (.str "") else Dict.set m "ptx" (.str g.ptx)
  Dict.set (addNrtCallback (Dict.set m "cubin" (.bytes g.cubin))) "func_name" (.str g.funcName)

theorem addNrtCallback_get (m : Metadata) {k : String} (h : k ≠ "setup_callbacks") :
    (addNrtCallback m).get k = Dict.get m k := by
  unfold addNrtCallback
  split
  · exact Dict.get_set_ne _ _ h
  · rfl

theorem optimize_targetoptions (m : Metadata) (g : Codegen) :
    (optimize m g).get "targetoptions" = Dict.get m "targetoptions" := by
  unfold optimize
  simp only
  rw [Dict.get_set_ne _ _ (by decide), addNrtCallback_get _ (by decide), Dict.get_set_ne _ _ (by decide)]
  split
  · rw [Dict.get_set_ne _ _ (by decide), Dict.get_set_ne _ _ (by decide), Dict.get_set_ne _ _ (by decide)]
  · rw [Dict.get_set_ne _ _ (by decide), Dict.get_set_ne _ _ (by decide)]

def compile (sig : Signature) (lowered : Metadata) (o : TargetOptions) (gpuTarget transformedSource : MetadataValue)
    (g : Codegen) : CompileResult where
  signature := sig
  metadata := optimize (compileMlir lowered o gpuTarget transformedSource) g
  cubin := ⟨g.cubin, by
    unfold optimize
    simp only
    rw [Dict.get_set_ne _ _ (by decide), addNrtCallback_get _ (by decide), Dict.get_set_self]⟩
  funcName := ⟨g.funcName, by
    unfold optimize
    simp only
    rw [Dict.get_set_self]⟩
  targetoptions := ⟨o, by
    rw [optimize_targetoptions]
    unfold compileMlir
    rw [Dict.get_set_ne _ _ (by decide), Dict.get_set_ne _ _ (by decide), Dict.get_set_self]⟩

/-! ## `MLIRCacheImpl` -/

structure Payload where
  signatureArgs : List NumbaType
  signatureReturnType : NumbaType
  cubin : MetadataValue
  ptx : MetadataValue
  ltoir : MetadataValue
  funcName : MetadataValue
  mlirModuleOptimized : MetadataValue
  needsNrt : MetadataValue
  nrtInline : MetadataValue
  targetoptions : MetadataValue
  gpuTarget : MetadataValue

def reduce (cres : CompileResult) : Payload where
  signatureArgs := cres.signature.args
  signatureReturnType := cres.signature.returnType
  cubin := cres.metadata.getD "cubin" .none
  ptx := cres.metadata.getD "ptx" .none
  ltoir := cres.metadata.getD "ltoir" .none
  funcName := cres.metadata.getD "func_name" .none
  mlirModuleOptimized := cres.metadata.getD "mlir_module_optimized" .none
  needsNrt := cres.metadata.getD "needs_nrt" .none
  nrtInline := cres.metadata.getD "nrt_inline" .none
  targetoptions := cres.metadata.getD "targetoptions" (.options .empty)
  gpuTarget := cres.metadata.getD "gpu_target" .none

structure CachedCompileResult where
  signature : Signature
  metadata : Metadata

def rebuild (payload : Payload) : CachedCompileResult where
  signature := ⟨payload.signatureArgs, payload.signatureReturnType⟩
  metadata :=
    ((((((((Dict.empty.set "cubin" payload.cubin).set "ptx" payload.ptx).set "ltoir" payload.ltoir).set
      "func_name" payload.funcName).set "mlir_module_optimized" payload.mlirModuleOptimized).set
      "needs_nrt" payload.needsNrt).set "nrt_inline" payload.nrtInline).set
      "targetoptions" payload.targetoptions).set "gpu_target" payload.gpuTarget

def linksFiles (o : TargetOptions) : Bool := (o.getD "link" (.list [])).truthy

def checkCachable (cres : CompileResult) : Except String Bool :=
  match cres.metadata.getD "targetoptions" (.options .empty) with
  | .options o => if linksFiles o then .error "Cannot pickle CUDACodeLibrary with linking files" else .ok true
  | _ => .error "AttributeError"

/-! ## What the dispatcher reads -/

/-- `_compile_impl`'s `_result`; none is a `KeyError`. -/
def result (m : Metadata) : Option (MetadataValue × MetadataValue × MetadataValue) :=
  (Dict.get m "cubin").bind fun cubin =>
    (Dict.get m "func_name").map fun funcName => (cubin, funcName, m.getD "use_cooperative" (.bool false))

def requiredDynamicSharedMemory (m : Metadata) : MetadataValue := m.getD "required_dynamic_shared_memory" (.int 0)

def setupCallbacks (m : Metadata) : MetadataValue := m.getD "setup_callbacks" (.callbacks [])

def teardownCallbacks (m : Metadata) : MetadataValue := m.getD "teardown_callbacks" (.callbacks [])

structure ModuleCallbacks where
  setup : List Callback
  teardown : List Callback
deriving DecidableEq

def appendNew (cbs : List Callback) : List Callback → List Callback
  | [] => cbs
  | cb :: new => appendNew (if cb ∈ cbs then cbs else cbs ++ [cb]) new

def propagateCompileCallbacks (m : Metadata) (c : ModuleCallbacks) : ModuleCallbacks :=
  ⟨appendNew c.setup (setupCallbacks m).callbackList, appendNew c.teardown (teardownCallbacks m).callbackList⟩

/-- What a kernel is launched with: the result, the callbacks of the post-load
hook when there are any, and its dynamic shared memory. -/
structure LaunchAttributes where
  result : Option (MetadataValue × MetadataValue × MetadataValue)
  hook : Option ModuleCallbacks
  requiredDynamicSharedMemory : MetadataValue

/-- `_compile`, with the callbacks registered so far. -/
def launchAttributes (m : Metadata) (c : ModuleCallbacks) : LaunchAttributes where
  result := result m
  hook := if c.setup ≠ [] ∨ c.teardown ≠ [] then some c else none
  requiredDynamicSharedMemory := requiredDynamicSharedMemory m

def afterCompile (c : ModuleCallbacks) (m : Metadata) : LaunchAttributes :=
  launchAttributes m (propagateCompileCallbacks m c)

def afterHit (c : ModuleCallbacks) (m : Metadata) : LaunchAttributes := launchAttributes m c

/-! ## `MLIRCache` -/

structure Host where
  runtimeVersion : String
  arch : String
deriving DecidableEq

structure IndexKey where
  sig : Signature
  magicTuple : String × String
  hashes : String × String
  ltoExplicit : OptionValue
  lto : OptionValue
  chip : OptionValue
  launchBounds : OptionValue
deriving DecidableEq

/-- `_index_key`, of values that are equal in Python. -/
def indexKey (host : Host) (hashes : String × String) (o : TargetOptions) (sig : Signature) : IndexKey where
  sig := sig
  magicTuple := (host.runtimeVersion, host.arch)
  hashes := hashes
  ltoExplicit := (o.getD "_lto_explicit" (.bool false)).norm
  lto := (o.getD "lto" .none).norm
  chip := (resolveChip host.arch o).norm
  launchBounds := (o.getD "launch_bounds" .none).norm

/-- A dispatcher's cache: the files, the function and the options. -/
structure MLIRCache (τ : Type) where
  file : IndexDataCacheFile τ
  host : Host
  hashes : String × String
  targetoptions : TargetOptions

section
variable {τ : Type} [DecidableEq τ]

def saveOverload (cache : MLIRCache τ) (sig : Signature) (cres : CompileResult) (disk : Files τ IndexKey Payload) :
    Except String (Files τ IndexKey Payload) :=
  (checkCachable cres).map fun _ =>
    save cache.file (indexKey cache.host cache.hashes cache.targetoptions sig) (reduce cres) disk

def loadOverload (cache : MLIRCache τ) (sig : Signature) (disk : Files τ IndexKey Payload) :
    Option CachedCompileResult :=
  (load cache.file (indexKey cache.host cache.hashes cache.targetoptions sig) disk).map rebuild

end

end NumbaCudaMlir.DiskCache

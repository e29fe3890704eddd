import NumbaCudaMlir.Overload

/-!
# Roles of compile results

A dispatcher keeps kernels, device functions and results of `compile` with other
options in one table of overloads, by their argument types. A dispatcher without
`device` compiles the device function on a second dispatcher, its
`_device_dispatcher`.
-/

namespace NumbaCudaMlir

namespace CompileRoles

/-! ## Compilation -/

inductive OutputKind where
  | ptx | ltoir
  deriving DecidableEq, Repr

/-- The dict `abi_info`, with the `abi_name` that it may have. -/
abbrev AbiInfo := Option String

structure TargetOptions where
  device : Bool
  lto : Bool
  /-- `_compile_output` -/
  output : Option OutputKind
  abiInfo : Option AbiInfo
  chip : Option String
  deriving DecidableEq, Repr

inductive ReturnType where
  | none
  | value (ty : NumbaType)
  deriving DecidableEq, Repr

/-- A bare tuple of argument types has no return type. -/
structure Signature where
  args : List NumbaType
  returnType : Option ReturnType
  deriving DecidableEq, Repr

structure CompileResult where
  args : List NumbaType
  device : Bool
  /-- The function is lowered to a `gpu.func` with `kernel` set. -/
  kernel : Bool
  abiInfo : Option AbiInfo
  output : Option OutputKind
  deviceCalleeAbiName : Option String
  /-- The metadata have a `cubin`. -/
  linked : Bool
  deriving DecidableEq, Repr

section
variable (returnsVoid : Signature → Bool) (fails : TargetOptions → Signature → Bool)

/-- `compile_mlir`. A kernel that returns a value is refused, unless an output kind is set. -/
def compileMlir (o : TargetOptions) (sig : Signature) : Option CompileResult :=
  if fails o sig then none
  else if !o.device && !returnsVoid sig && o.output.isNone then none
  else
    some
      { args := sig.args
        device := o.device
        kernel := !o.device && returnsVoid sig
        abiInfo := o.abiInfo
        output := o.output
        deviceCalleeAbiName := none
        linked := false }

end

def optimize (cres : CompileResult) : CompileResult := { cres with linked := true }

/-! ## Tables -/

/-- What `compile` and the device-callee path use of a dispatcher. The disk cache
is keyed by the signature and the option `lto`; it is absent where it is not
enabled. -/
structure CompileTable where
  options : TargetOptions
  overloads : Dict (List NumbaType) CompileResult
  cache : Option (Dict (Signature × Bool) CompileResult)

namespace CompileTable

def init (o : TargetOptions) (cached : Bool) : CompileTable := ⟨o, .empty, if cached then some .empty else none⟩

def load (t : CompileTable) (sig : Signature) : Option CompileResult := t.cache.bind fun c => c.get (sig, t.options.lto)

/-- `reduce` does not keep the name of a callee. -/
def save (t : CompileTable) (sig : Signature) (cres : CompileResult) : CompileTable :=
  { t with cache := t.cache.map fun c => c.set (sig, t.options.lto) { cres with deviceCalleeAbiName := none } }

def store (t : CompileTable) (argtypes : List NumbaType) (cres : CompileResult) : CompileTable :=
  { t with overloads := t.overloads.set argtypes cres }

def setOutput (t : CompileTable) : Option OutputKind → CompileTable
  | some k => { t with options := { t.options with output := some k, lto := k = .ltoir } }
  | none => t

def setAbiInfo (t : CompileTable) : Option AbiInfo → CompileTable
  | some a => { t with options := { t.options with abiInfo := some a } }
  | none => t

end CompileTable

section
variable (returnsVoid : Signature → Bool) (fails : TargetOptions → Signature → Bool) (resolveChip : Option String → String)

def CompileTable.resolveTargetOptions (t : CompileTable) : CompileTable :=
  { t with options := { t.options with chip := some (resolveChip t.options.chip) } }

def compilePublic (t : CompileTable) (sig : Signature) (abiInfo : Option AbiInfo) (output : Option OutputKind) :
    CompileTable × Option CompileResult :=
  let t := t.setOutput output
  match t.overloads.get sig.args with
  | some cres => (t, some cres)
  | none =>
    let t := t.resolveTargetOptions resolveChip
    match t.load sig with
    | some cres => (t.store sig.args cres, some cres)
    | none =>
      let t := t.setAbiInfo abiInfo
      match compileMlir returnsVoid fails t.options sig with
      | none => (t, none)
      | some cres => ((t.save sig (optimize cres)).store sig.args (optimize cres), some (optimize cres))

def compileDeviceCallee (t : CompileTable) (sig : Signature) (abiName : Option String) : CompileTable × Option CompileResult :=
  let cached := (t.overloads.get sig.args).filter fun cres => abiName.isNone || cres.deviceCalleeAbiName = abiName
  match cached with
  | some cres => (t, some cres)
  | none =>
    let t := t.resolveTargetOptions resolveChip
    let targetoptions := match abiName with
      | some name => { t.options with abiInfo := some (some name) }
      | none => t.options
    match compileMlir returnsVoid fails targetoptions sig with
    | none => (t, none)
    | some cres =>
      let cres := { cres with deviceCalleeAbiName := abiName }
      (t.store sig.args cres, some cres)

end

/-! ## Dispatchers -/

structure DispatcherState extends CompileTable where
  deviceDispatcher : Option CompileTable
  launchConfigOverloads : Dict (List NumbaType × LaunchConfig) CompileResult
  /-- The results that native dispatchers have loaded. -/
  bound : List CompileResult
  canCompile : Bool
  specialized : Bool
  specializations : Dict (List NumbaType) CompileResult

def DispatcherState.init (o : TargetOptions) (cached : Bool) : DispatcherState :=
  { CompileTable.init o cached with
    deviceDispatcher := none
    launchConfigOverloads := .empty
    bound := []
    canCompile := true
    specialized := false
    specializations := .empty }

def asDevice (o : TargetOptions) : TargetOptions := { o with device := true, lto := false }

/-- The `_device_dispatcher` of these options, made anew where the one there is has others. -/
def DispatcherState.deviceTable (d : DispatcherState) : CompileTable :=
  match d.deviceDispatcher with
  | some t => if t.options = asDevice d.options then t else .init (asDevice d.options) false
  | none => .init (asDevice d.options) false

/-- A compilation as a device function. Its result goes into the overloads of a
kernel's dispatcher too, where they have none for these types. -/
def DispatcherState.compileAsDevice (d : DispatcherState) (argtypes : List NumbaType)
    (compile : CompileTable → CompileTable × Option CompileResult) : DispatcherState × Option CompileResult :=
  if d.options.device then
    let (t, cres) := compile { d.toCompileTable with options := asDevice d.options }
    ({ d with toCompileTable := t }, cres)
  else
    let (t, cres) := compile d.deviceTable
    let d := { d with deviceDispatcher := some t }
    match cres with
    | some cres => ({ d with overloads := d.overloads.setDefault argtypes cres }, some cres)
    | none => (d, none)

/-- The argument types of a launch, its active launch config, and the available
one, which a compilation may turn out to require. -/
structure Launch where
  argtypes : List NumbaType
  config : Option LaunchConfig
  available : Option LaunchConfig
  required : Bool

inductive Request where
  | launch (l : Launch)
  /-- A launch that finds its kernel in a native dispatcher. -/
  | launchBound (kernel : Nat)
  | compile (sig : Signature) (abiInfo : Option AbiInfo) (output : Option OutputKind)
  | compileDevice (sig : Signature)
  | compileAsDeviceCallee (sig : Signature) (abiName : Option String)
  | getCallTemplate (args : List NumbaType)
  /-- `build_user_defined_function_call` -/
  | call (args : List NumbaType) (funcName : String)
  | specialize (args : List NumbaType)
  | disableCompile
  | recordLiteralArgPositions
  | evictLaunchConfig (key : LaunchConfig)
  | recompile

section
variable (returnsVoid : Signature → Bool) (fails : TargetOptions → Signature → Bool) (resolveChip : Option String → String)
  (normalize : List NumbaType → List NumbaType)

/-- The rest of `_compile_impl`, with annotated types in place of the arguments'. -/
def DispatcherState.compileLaunch (d : DispatcherState) (l : Launch) : DispatcherState × Option CompileResult :=
  let d := { d with toCompileTable := d.toCompileTable.resolveTargetOptions resolveChip }
  let sig : Signature := ⟨l.argtypes, some .none⟩
  match if l.config.isNone then d.load sig else none with
  | some cres => ({ d with toCompileTable := d.store l.argtypes cres }, some cres)
  | none =>
    match (compileMlir returnsVoid fails d.options ⟨normalize l.argtypes, none⟩).map optimize with
    | none => (d, none)
    | some cres =>
      match l.config.or (if l.required then l.available else none) with
      | some key =>
        let existing := (findLaunchConfigOverload d.launchConfigOverloads l.argtypes key).or
          (findLaunchConfigOverload d.launchConfigOverloads cres.args key)
        match existing with
        | some existing => (d, some existing)
        | none =>
          let table := (d.launchConfigOverloads.setDefault (l.argtypes, key) cres).setDefault (cres.args, key) cres
          ({ d with launchConfigOverloads := table }, some cres)
      | none => ({ d with toCompileTable := (d.store cres.args cres).save sig cres }, some cres)

def DispatcherState.compileImpl (d : DispatcherState) (l : Launch) : DispatcherState × Option CompileResult :=
  let reusable := match l.config with
    | some key => findLaunchConfigOverload d.launchConfigOverloads l.argtypes key
    | none => firstReusable d.overloads l.argtypes
  match reusable with
  | some cres => (d, some cres)
  | none =>
    if d.canCompile then d.compileLaunch returnsVoid fails resolveChip normalize l
    else
      (d, match l.config with
        | some key => resolveLaunchConfigResult d.launchConfigOverloads l.argtypes key
        | none => resolveResult d.overloads l.argtypes)

/-- The kernel is loaded from the `cubin`; without one the launch raises. -/
def DispatcherState.launch (d : DispatcherState) (l : Launch) : DispatcherState × Option CompileResult :=
  match d.compileImpl returnsVoid fails resolveChip normalize l with
  | (d, some cres) => ({ d with bound := if cres.linked then d.bound ++ [cres] else d.bound }, some cres)
  | (d, none) => (d, none)

/-- The caller's side of a call: the callee is compiled again, under the name
that the caller calls. -/
def DispatcherState.call (d : DispatcherState) (sig : Signature) (funcName : String) : DispatcherState × Option CompileResult :=
  if d.options.device then
    d.compileAsDevice sig.args fun t => compileDeviceCallee returnsVoid fails resolveChip t sig (some funcName)
  else
    let t := d.deviceDispatcher.getD (.init { d.options with device := true } false)
    let (t, cres) := compileDeviceCallee returnsVoid fails resolveChip { t with options := asDevice t.options } sig (some funcName)
    ({ d with deviceDispatcher := some t }, cres)

/-- The specialization is a dispatcher with the same option dict. -/
def DispatcherState.specialize (d : DispatcherState) (args : List NumbaType) : DispatcherState × Option CompileResult :=
  if d.specialized then (d, none)
  else
    match d.specializations.get args with
    | some cres => (d, some cres)
    | none =>
      let (t, cres) := compilePublic returnsVoid fails resolveChip (.init d.options false) ⟨args, some .none⟩ none none
      let d := { d with options := t.options }
      match cres with
      | some cres => ({ d with specializations := d.specializations.set args cres }, some cres)
      | none => (d, none)

/-- A request, and the compile result that it returns or launches. -/
def DispatcherState.perform (d : DispatcherState) : Request → DispatcherState × Option CompileResult
  | .launch l => d.launch returnsVoid fails resolveChip normalize l
  | .launchBound kernel => (d, d.bound[kernel]?)
  | .compile sig abiInfo output =>
    let (t, cres) := compilePublic returnsVoid fails resolveChip d.toCompileTable sig abiInfo output
    ({ d with toCompileTable := t }, cres)
  | .compileDevice sig => d.compileAsDevice sig.args fun t => compilePublic returnsVoid fails resolveChip t sig none none
  | .compileAsDeviceCallee sig abiName =>
    d.compileAsDevice sig.args fun t => compileDeviceCallee returnsVoid fails resolveChip t sig abiName
  | .getCallTemplate args =>
    if d.canCompile then
      d.compileAsDevice args fun t => compileDeviceCallee returnsVoid fails resolveChip t ⟨args, none⟩ none
    else (d, none)
  | .call args funcName => d.call returnsVoid fails resolveChip ⟨args, none⟩ funcName
  | .specialize args => d.specialize returnsVoid fails resolveChip args
  | .disableCompile => (if d.overloads.length = 0 then d else { d with canCompile := false }, none)
  | .recordLiteralArgPositions => ({ d with overloads := .empty, launchConfigOverloads := .empty }, none)
  | .evictLaunchConfig key => ({ d with launchConfigOverloads := d.launchConfigOverloads.filter fun k _ => k.2 ≠ key }, none)
  | .recompile => ({ d with overloads := .empty, launchConfigOverloads := .empty, cache := d.cache.map fun _ => .empty }, none)

def step (d : DispatcherState) (r : Request) : Option DispatcherState :=
  some (d.perform returnsVoid fails resolveChip normalize r).1

end

end CompileRoles

end NumbaCudaMlir

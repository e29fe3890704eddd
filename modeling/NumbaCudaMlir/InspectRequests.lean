import NumbaCudaMlir.CompileRoles

/-!
# Requests for inspection

`compile`, `compile_ptx`, `compile_for` and their like compile a function without
launching it. Given a dispatcher they merge their options into its own, and keep
what they compile in its tables.
-/

namespace NumbaCudaMlir.InspectRequests

open CompileRoles (OutputKind AbiInfo Signature)

/-! ## Options -/

section
variable {υ : Type}

/-- The dict `targetoptions`: the options that the requests themselves read or set, and all the others. -/
structure Options (υ : Type) where
  device : Bool
  lto : Bool
  /-- `_compile_output` -/
  output : Option OutputKind
  abiInfo : Option AbiInfo
  chip : Option String
  other : Dict String υ

/-- The options of a request; those that are none are not given. -/
structure Given (υ : Type) where
  device : Option Bool
  lto : Option Bool
  output : Option OutputKind
  abiInfo : Option (Option AbiInfo)
  chip : Option (Option String)
  other : Dict String υ

/-- `targetoptions.update`, which leaves out the kind of the output. -/
def Options.update (o : Options υ) (g : Given υ) : Options υ where
  device := g.device.getD o.device
  lto := g.lto.getD o.lto
  output := o.output
  abiInfo := g.abiInfo.getD o.abiInfo
  chip := g.chip.getD o.chip
  other := o.other.update g.other

def Options.asDevice (o : Options υ) : Options υ := { o with device := true, lto := false }

/-- Dicts are equal whatever the order of their items. -/
def sameItems [DecidableEq υ] (a b : Dict String υ) : Bool := a.length = b.length && a.entries.all fun e => b.get e.1 = some e.2

def Options.same [DecidableEq υ] (a b : Options υ) : Bool :=
  a.device = b.device && a.lto = b.lto && a.output = b.output && a.abiInfo = b.abiInfo && a.chip = b.chip && sameItems a.other b.other

/-- A result, with the options that it was compiled with. -/
structure Compiled (υ : Type) where
  args : List NumbaType
  options : Options υ
  deviceCalleeAbiName : Option String
  /-- The metadata have a `cubin`. -/
  linked : Bool

def optimize (cres : Compiled υ) : Compiled υ := { cres with linked := true }

/-! ## Tables -/

/-- The disk cache is absent where it is not enabled. -/
structure Table (υ : Type) where
  options : Options υ
  overloads : Dict (List NumbaType) (Compiled υ)
  cache : Option (Dict (Signature × Bool) (Compiled υ))

namespace Table

def init (o : Options υ) (cached : Bool) : Table υ := ⟨o, .empty, if cached then some .empty else none⟩

def load (t : Table υ) (sig : Signature) : Option (Compiled υ) := t.cache.bind fun c => c.get (sig, t.options.lto)

def save (t : Table υ) (sig : Signature) (cres : Compiled υ) : Table υ :=
  { t with cache := t.cache.map fun c => c.set (sig, t.options.lto) { cres with deviceCalleeAbiName := none } }

def store (t : Table υ) (argtypes : List NumbaType) (cres : Compiled υ) : Table υ := { t with overloads := t.overloads.set argtypes cres }

def withOptions (t : Table υ) (o : Options υ) : Table υ := { t with options := o }

def setOutput (t : Table υ) : Option OutputKind → Table υ
  | some k => t.withOptions { t.options with output := some k, lto := k = .ltoir }
  | none => t

def setAbiInfo (t : Table υ) : Option AbiInfo → Table υ
  | some a => t.withOptions { t.options with abiInfo := some a }
  | none => t

end Table

/-! ## Compilation -/

/-- `resolve_gpu_target`: a chip that is given is kept, if it names an architecture; the device has to be there either way. -/
def resolveChip (host : Option String) (parses : String → Bool) : Option String → Option String
  | some chip => if chip = "" then host else if parses chip && host.isSome then some chip else none
  | none => host

variable (fails : Options υ → Signature → Bool) (host : Option String) (parses : String → Bool)

def compileMlir (o : Options υ) (sig : Signature) : Option (Compiled υ) := if fails o sig then none else some ⟨sig.args, o, none, false⟩

/-- The chip is set once it is resolved. -/
def resolveTargetOptions (t : Table υ) : Option (Table υ) :=
  (resolveChip host parses t.options.chip).map fun chip => t.withOptions { t.options with chip := some chip }

def compilePublic (t : Table υ) (sig : Signature) (abiInfo : Option AbiInfo) (output : Option OutputKind) : Table υ × Option (Compiled υ) :=
  let t := t.setOutput output
  match t.overloads.get sig.args with
  | some cres => (t, some cres)
  | none =>
    match resolveTargetOptions host parses t with
    | none => (t, none)
    | some t =>
      match t.load sig with
      | some cres => (t.store sig.args cres, some cres)
      | none =>
        let t := t.setAbiInfo abiInfo
        match compileMlir fails t.options sig with
        | none => (t, none)
        | some cres => ((t.save sig (optimize cres)).store sig.args (optimize cres), some (optimize cres))

def compileDeviceCallee (t : Table υ) (sig : Signature) (abiName : Option String) : Table υ × Option (Compiled υ) :=
  match (t.overloads.get sig.args).filter fun cres => abiName.isNone || cres.deviceCalleeAbiName = abiName with
  | some cres => (t, some cres)
  | none =>
    match resolveTargetOptions host parses t with
    | none => (t, none)
    | some t =>
      let targetoptions := match abiName with
        | some name => { t.options with abiInfo := some (some name) }
        | none => t.options
      match compileMlir fails targetoptions sig with
      | none => (t, none)
      | some cres =>
        let cres := { cres with deviceCalleeAbiName := abiName }
        (t.store sig.args cres, some cres)

/-! ## Dispatchers -/

structure Dispatcher (υ : Type) extends Table υ where
  deviceDispatcher : Option (Table υ)
  launchConfigOverloads : Dict (List NumbaType × LaunchConfig) (Compiled υ)
  /-- The results that native dispatchers have loaded. -/
  bound : List (Compiled υ)

def Dispatcher.init (o : Options υ) (cached : Bool) : Dispatcher υ :=
  { Table.init o cached with
    deviceDispatcher := none
    launchConfigOverloads := .empty
    bound := [] }

def Dispatcher.withTable (d : Dispatcher υ) (t : Table υ) : Dispatcher υ := { d with toTable := t }

/-- Another `_device_dispatcher` is made where the one there is has other options. -/
def Dispatcher.deviceTable [DecidableEq υ] (d : Dispatcher υ) : Table υ :=
  match d.deviceDispatcher with
  | some t => if t.options.same d.options.asDevice then t else .init d.options.asDevice false
  | none => .init d.options.asDevice false

/-- The table that a device function is compiled in. -/
def Dispatcher.calleeTable [DecidableEq υ] (d : Dispatcher υ) : Table υ :=
  if d.options.device then d.toTable else d.deviceTable

/-- A compilation as a device function, of which a kernel's dispatcher keeps the result. -/
def Dispatcher.compileAsDevice [DecidableEq υ] (d : Dispatcher υ) (argtypes : List NumbaType)
    (compile : Table υ → Table υ × Option (Compiled υ)) : Dispatcher υ × Option (Compiled υ) :=
  if d.options.device then
    let (t, cres) := compile (d.toTable.withOptions d.options.asDevice)
    (d.withTable t, cres)
  else
    let (t, cres) := compile d.deviceTable
    let d := { d with deviceDispatcher := some t }
    match cres with
    | some cres => (d.withTable { d.toTable with overloads := d.overloads.setDefault argtypes cres }, some cres)
    | none => (d, none)

/-- The argument types of a launch, and the launch config that it is specialized for. -/
structure Launch where
  argtypes : List NumbaType
  config : Option LaunchConfig

/-- A signature that is none cannot be normalized. -/
inductive Request (υ : Type) where
  | launch (l : Launch)
  /-- A launch that finds its kernel in a native dispatcher. -/
  | launchBound (kernel : Nat)
  /-- `dispatcher.compile` -/
  | compile (sig : Option Signature) (abiInfo : Option AbiInfo) (output : Option OutputKind)
  /-- `compile`, `compile_ptx`, `compile_cubin`, `compile_for` and `compile_mlir(optimized=True)` -/
  | compileWith (sig : Option Signature) (given : Given υ)
  /-- `compile_mlir` -/
  | compileOnly (sig : Option Signature)
  | compileDevice (sig : Signature)
  | compileAsDeviceCallee (sig : Signature) (abiName : Option String)
  /-- A call in another kernel: the callee is compiled under the name that is called. -/
  | call (args : List NumbaType) (funcName : String)

variable (normalize : List NumbaType → List NumbaType)

/-- The rest of `_compile_impl`, with annotated types in place of the arguments'. -/
def Dispatcher.compileLaunch (d : Dispatcher υ) (l : Launch) : Dispatcher υ × Option (Compiled υ) :=
  match resolveTargetOptions host parses d.toTable with
  | none => (d, none)
  | some t =>
    let sig : Signature := ⟨l.argtypes, some .none⟩
    match if l.config.isNone then t.load sig else none with
    | some cres => (d.withTable (t.store l.argtypes cres), some cres)
    | none =>
      match compileMlir fails t.options ⟨normalize l.argtypes, none⟩ with
      | none => (d.withTable t, none)
      | some cres =>
        match l.config with
        | some key =>
          let table := (d.launchConfigOverloads.setDefault (l.argtypes, key) (optimize cres)).setDefault (cres.args, key) (optimize cres)
          ({ d.withTable t with launchConfigOverloads := table }, some (optimize cres))
        | none => (d.withTable ((t.store cres.args (optimize cres)).save sig (optimize cres)), some (optimize cres))

def Dispatcher.compileImpl (d : Dispatcher υ) (l : Launch) : Dispatcher υ × Option (Compiled υ) :=
  let reusable := match l.config with
    | some key => findLaunchConfigOverload d.launchConfigOverloads l.argtypes key
    | none => firstReusable d.overloads l.argtypes
  match reusable with
  | some cres => (d, some cres)
  | none => d.compileLaunch fails host parses normalize l

def Dispatcher.launch (d : Dispatcher υ) (l : Launch) : Dispatcher υ × Option (Compiled υ) :=
  match d.compileImpl fails host parses normalize l with
  | (d, some cres) => ({ d with bound := if cres.linked then d.bound ++ [cres] else d.bound }, some cres)
  | (d, none) => (d, none)

def Dispatcher.compile (d : Dispatcher υ) (sig : Option Signature) (abiInfo : Option AbiInfo) (output : Option OutputKind) :
    Dispatcher υ × Option (Compiled υ) :=
  match sig with
  | none => (d, none)
  | some sig =>
    let (t, cres) := compilePublic fails host parses d.toTable sig abiInfo output
    (d.withTable t, cres)

/-- `_compile`: the options are merged before anything can fail. -/
def Dispatcher.compileWith (d : Dispatcher υ) (sig : Option Signature) (given : Given υ) : Dispatcher υ × Option (Compiled υ) :=
  (d.withTable (d.toTable.withOptions (d.options.update given))).compile fails host parses sig given.abiInfo.join given.output

/-- `_compile_only`: the chip is resolved in the options of the dispatcher. -/
def Dispatcher.compileOnly (d : Dispatcher υ) (sig : Option Signature) : Dispatcher υ × Option (Compiled υ) :=
  match sig with
  | none => (d, none)
  | some sig =>
    match resolveTargetOptions host parses d.toTable with
    | none => (d, none)
    | some t => (d.withTable t, compileMlir fails t.options sig)

def Dispatcher.call [DecidableEq υ] (d : Dispatcher υ) (sig : Signature) (funcName : String) : Dispatcher υ × Option (Compiled υ) :=
  if d.options.device then
    d.compileAsDevice sig.args fun t => compileDeviceCallee fails host parses t sig (some funcName)
  else
    let t := d.deviceDispatcher.getD (.init { d.options with device := true } false)
    let (t, cres) := compileDeviceCallee fails host parses (t.withOptions t.options.asDevice) sig (some funcName)
    ({ d with deviceDispatcher := some t }, cres)

/-- A request, and the result that it returns or launches. -/
def Dispatcher.perform [DecidableEq υ] (d : Dispatcher υ) : Request υ → Dispatcher υ × Option (Compiled υ)
  | .launch l => d.launch fails host parses normalize l
  | .launchBound kernel => (d, d.bound[kernel]?)
  | .compile sig abiInfo output => d.compile fails host parses sig abiInfo output
  | .compileWith sig given => d.compileWith fails host parses sig given
  | .compileOnly sig => d.compileOnly fails host parses sig
  | .compileDevice sig => d.compileAsDevice sig.args fun t => compilePublic fails host parses t sig none none
  | .compileAsDeviceCallee sig abiName => d.compileAsDevice sig.args fun t => compileDeviceCallee fails host parses t sig abiName
  | .call args funcName => d.call fails host parses ⟨args, none⟩ funcName

def step [DecidableEq υ] (d : Dispatcher υ) (r : Request υ) : Option (Dispatcher υ) :=
  some (d.perform fails host parses normalize r).1

end

end NumbaCudaMlir.InspectRequests

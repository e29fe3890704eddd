import NumbaCudaMlir.Dict
import NumbaCudaMlir.FirstOccurrence
import NumbaCudaMlir.ItaniumMangler
import NumbaCudaMlir.Runs

/-!
# The object linker

`Linker` collects what a kernel is linked from: object codes, CUDA sources that
are compiled when their code is first needed, and a table of the LTO-IRs it was
given. `recreate_with_lto` copies a linker object by object.
-/

namespace NumbaCudaMlir.ObjectLinker

open Mangler

abbrev Bytes := List UInt8

inductive CodeType where
  | ptx | cubin | ltoir | fatbin | object | library
  deriving DecidableEq, Repr

structure ObjectCode where
  codeType : CodeType
  code : Bytes
  deriving DecidableEq, Repr

def ObjectCode.isLtoir (o : ObjectCode) : Bool := o.codeType == .ltoir

/-- The values of `FILE_EXTENSION_MAP`, and the `"cu"` of a `CUSource`. -/
inductive FileKind where
  | object | ptx | library | cubin | fatbin | nvvm | cu
  deriving DecidableEq, Repr

def fileExtensionMap (ext : String) : Option FileKind :=
  match ext with
  | "o" => some .object
  | "ptx" => some .ptx
  | "a" | "lib" => some .library
  | "cubin" => some .cubin
  | "fatbin" => some .fatbin
  | "ltoir" => some .nvvm
  | _ => none

/-- A `LinkableCode`; the name of its class is what `_link_item_is_cuda_source` reads. -/
structure LinkableCode where
  typeName : String
  kind : FileKind
  data : Bytes
  cuSource_kind : typeName = "CUSource" → kind = .cu

inductive LinkItem where
  | path (path : Text)
  | code (code : LinkableCode)
  | other

/-- `pathlib.PurePath.name`, from the end of the path: empty parts and parts that are a dot do not count. -/
def reversedName : Text → Text
  | '/' :: r => reversedName r
  | '.' :: '/' :: r => reversedName r
  | ['.'] => []
  | r => r.takeWhile (· ≠ '/')

/-- `pathlib.PurePath.suffix`, without its dot; `none` where there is none. -/
def pathSuffix (path : Text) : Option String :=
  let name := reversedName path.reverse
  let ext := name.takeWhile (· ≠ '.')
  if ext ≠ [] ∧ ext.length + 1 < name.length then some (String.ofList ext.reverse) else none

def linkItemIsCudaSource : LinkItem → Bool
  | .path path => ['.', 'c', 'u'].isSuffixOf path
  | .code code => code.typeName == "CUSource"
  | .other => false

inductive LinkError where
  | noExtension
  | unknownExtension (ext : String)
  | notFound (path : Text)
  | notLinkable
  | inspection

def LinkError.message : LinkError → String
  | noExtension => "Don't know how to link file with no extension"
  | unknownExtension ext => "Don't know how to link file with extension ." ++ ext
  | notFound path => String.ofList path ++ " not found"
  | notLinkable => "Expected path to file or a LinkableCode object"
  | inspection => "cuobjdump has not been found."

/-- What lies outside: the compiler, Python's `hash`, the file system and `cuobjdump`. -/
structure Env (Config : Type) where
  nvrtcCompile : Config → Bytes → Bool → Bytes
  hash : Bytes → Int
  hash_injective : Function.Injective hash
  cachedFileRead : Text → Option Bytes
  inspectObjContent : Bytes → Option (List String)

/-- A CUDA source with the mode it is compiled in: LTO-IR or PTX. -/
abbrev CuSource := Bytes × Bool

/-- `Linker`. `compiled` records the calls of `nvrtc.compile` made for it. -/
structure Linker (Config : Type) where
  config : Config
  lto : Bool
  hasLtoir : Bool
  objectCodes : List ObjectCode
  pendingCu : List CuSource
  ltoirs : Dict Int Bytes
  compiled : List CuSource

variable {Config : Type} (env : Env Config)

def Env.objectOf (config : Config) (s : CuSource) : ObjectCode :=
  ⟨if s.2 then .ltoir else .ptx, env.nvrtcCompile config s.1 s.2⟩

namespace Linker

def new (config : Config) (lto : Bool) : Linker Config := ⟨config, lto, false, [], [], Dict.empty, []⟩

/-- The base class's `add_ptx`, `add_cubin`, `add_fatbin`, `add_object` and `add_library`, by the code type. -/
def addObject (l : Linker Config) (o : ObjectCode) : Linker Config := { l with objectCodes := l.objectCodes ++ [o] }

@[simp] theorem addObject_lto (l : Linker Config) (o : ObjectCode) : (l.addObject o).lto = l.lto := rfl

@[simp] theorem addObject_hasLtoir (l : Linker Config) (o : ObjectCode) : (l.addObject o).hasLtoir = l.hasLtoir := rfl

def addPtx (l : Linker Config) (ptx : Bytes) : Linker Config := l.addObject ⟨.ptx, ptx⟩

def addCubin (l : Linker Config) (cubin : Bytes) : Linker Config := l.addObject ⟨.cubin, cubin⟩

def addCu (l : Linker Config) (cu : Bytes) : Linker Config := { l with pendingCu := l.pendingCu ++ [(cu, l.lto)] }

def materializePendingCu (l : Linker Config) : Linker Config :=
  { l with
    pendingCu := []
    objectCodes := l.objectCodes ++ l.pendingCu.map (env.objectOf l.config)
    hasLtoir := l.hasLtoir || l.pendingCu.any (·.2)
    compiled := l.compiled ++ l.pendingCu }

/-- `_Linker.add_ltoir` and the entry in `_ltoirs`. -/
def appendLtoir (l : Linker Config) (ltoir : Bytes) : Linker Config :=
  { l with
    objectCodes := l.objectCodes ++ [⟨.ltoir, ltoir⟩]
    hasLtoir := true
    ltoirs := l.ltoirs.set (env.hash ltoir) ltoir }

/-- `recreate_with_lto`, given what `add_ltoir` does on the new linker. -/
def recreate (addLtoir : Linker Config → Bytes → Linker Config) (l : Linker Config) (lto ltoirOnly : Bool)
    (kernelLtoir : Option Bytes) : Linker Config :=
  let existing := (l.materializePendingCu env).objectCodes
  let fresh := kernelLtoir.elim (new l.config lto) (addLtoir (new l.config lto))
  let copied := (existing.filter fun o => !ltoirOnly || o.isLtoir).foldl
    (fun n o => if o.isLtoir then addLtoir n o.code else n.addObject o) fresh
  { copied with ltoirs := l.ltoirs.entries.foldl (fun d e => d.setDefault e.1 e.2) copied.ltoirs }

/-- `add_ltoir` on a linker whose LTO flag is on: it is never recreated. -/
def addLtoirOn (l : Linker Config) (ltoir : Bytes) : Linker Config :=
  if (l.ltoirs.get (env.hash ltoir)).isSome then l else l.appendLtoir env ltoir

/-- `self.__dict__.update(new_linker.__dict__)`, after the sources of `self` were compiled. -/
def becomeLto (l : Linker Config) : Linker Config :=
  { recreate env (addLtoirOn env) l true false none with compiled := (l.materializePendingCu env).compiled }

def addLtoir (l : Linker Config) (ltoir : Bytes) : Linker Config :=
  if (l.ltoirs.get (env.hash ltoir)).isSome then l
  else (if l.lto then l else l.becomeLto env).appendLtoir env ltoir

/-- `Linker.recreate_with_lto`: the new linker. The old one is `materializePendingCu`. -/
def recreateWithLto (l : Linker Config) (lto ltoirOnly : Bool) (kernelLtoir : Option Bytes) : Linker Config :=
  recreate env (addLtoir env) l lto ltoirOnly kernelLtoir

def mergeLtoirsFrom (l other : Linker Config) : Linker Config := other.ltoirs.values.foldl (addLtoir env) l

def addData (l : Linker Config) (data : Bytes) : FileKind → Linker Config
  | .ptx => l.addPtx data
  | .cubin => l.addCubin data
  | .cu => l.addCu data
  | .library => l.addObject ⟨.library, data⟩
  | .fatbin => l.addObject ⟨.fatbin, data⟩
  | .object => l.addObject ⟨.object, data⟩
  | .nvvm => l.addLtoir env data

/-- The test behind `ignore_nonlto`: is this code left out, with a warning? -/
def warnAndReturn (data : Bytes) : FileKind → Except LinkError Bool
  | .fatbin | .object =>
    match env.inspectObjContent data with
    | none => .error .inspection
    | some entryTypes => .ok (!entryTypes.contains "nvvm")
  | .nvvm => .ok false
  | _ => .ok true

/-- `_Linker.add_file_guess_ext`: the data and kind to add; `none` where the item is left out. -/
def resolveItem (ignoreNonlto : Bool) : LinkItem → Except LinkError (Option (Bytes × FileKind))
  | .path path =>
    match pathSuffix path with
    | none => .error .noExtension
    | some "cu" =>
      match env.cachedFileRead path with
      | none => .error (.notFound path)
      | some data => .ok (some (data, .cu))
    | some ext =>
      match fileExtensionMap ext with
      | none => .error (.unknownExtension ext)
      | some kind =>
        match env.cachedFileRead path with
        | none => .error (.notFound path)
        | some data => do
          let skip ← if ignoreNonlto then warnAndReturn env data kind else .ok false
          .ok (if skip then none else some (data, kind))
  | .code code =>
    if code.kind = .cu then .ok (some (code.data, .cu))
    else do
      let skip ← if ignoreNonlto then warnAndReturn env code.data code.kind else .ok false
      .ok (if skip then none else some (code.data, code.kind))
  | .other => .error .notLinkable

def addFile (l : Linker Config) (item : LinkItem) (ignoreNonlto : Bool) : Except LinkError (Linker Config) := do
  match ← resolveItem env ignoreNonlto item with
  | none => .ok l
  | some (data, kind) => .ok (l.addData env data kind)

/-- `Linker.add_file_guess_ext`; the linker's own LTO flag comes back in every case. -/
def addFileGuessExt (l : Linker Config) (item : LinkItem) (ignoreNonlto : Bool) (compileCuAsLtoir : Option Bool) :
    Except LinkError (Linker Config) :=
  match compileCuAsLtoir, linkItemIsCudaSource item with
  | some mode, true => (addFile env { l with lto := mode } item ignoreNonlto).map fun n => { n with lto := l.lto }
  | _, _ => l.addFile env item ignoreNonlto

/-- `_get_linker_options`: `link_time_optimization` and `ptx`. -/
def getLinkerOptions (l : Linker Config) (ptx : Bool) : Option Bool × Option Bool :=
  (if l.hasLtoir then some true else none, if l.hasLtoir && ptx then some true else none)

/-- `complete` and `get_linked_ptx`: the objects and the options given to the link. -/
def link (l : Linker Config) (ptx : Bool) : List ObjectCode × (Option Bool × Option Bool) :=
  ((l.materializePendingCu env).objectCodes, (l.materializePendingCu env).getLinkerOptions ptx)

end Linker

/-! ## Runs over several linkers -/

inductive Event (Config : Type) where
  | create (config : Config) (lto : Bool)
  | addPtx (i : Nat) (ptx : Bytes)
  | addCubin (i : Nat) (cubin : Bytes)
  | addLtoir (i : Nat) (ltoir : Bytes)
  | addFileGuessExt (i : Nat) (item : LinkItem) (ignoreNonlto : Bool) (compileCuAsLtoir : Option Bool)
  | mergeLtoirsFrom (i j : Nat)
  | recreateWithLto (i : Nat) (lto ltoirOnly : Bool) (kernelLtoir : Option Bytes)
  | link (i : Nat)

/-- Linkers are named by their place in the list; an item that raises leaves its linker as it was. -/
def step (ls : List (Linker Config)) : Event Config → Option (List (Linker Config))
  | .create config lto => some (ls ++ [Linker.new config lto])
  | .addPtx i ptx => ls[i]?.map fun l => ls.set i (l.addPtx ptx)
  | .addCubin i cubin => ls[i]?.map fun l => ls.set i (l.addCubin cubin)
  | .addLtoir i ltoir => ls[i]?.map fun l => ls.set i (l.addLtoir env ltoir)
  | .addFileGuessExt i item ignoreNonlto compileCuAsLtoir =>
    ls[i]?.map fun l => ls.set i ((l.addFileGuessExt env item ignoreNonlto compileCuAsLtoir).toOption.getD l)
  | .mergeLtoirsFrom i j => ls[i]?.bind fun l => ls[j]?.map fun other => ls.set i (l.mergeLtoirsFrom env other)
  | .recreateWithLto i lto ltoirOnly kernelLtoir =>
    ls[i]?.map fun l => ls.set i (l.materializePendingCu env) ++ [l.recreateWithLto env lto ltoirOnly kernelLtoir]
  | .link i => ls[i]?.map fun l => ls.set i (l.materializePendingCu env)

/-! ## What was added -/

/-- An input of a linker: an object, or a CUDA source with the mode chosen for it. -/
inductive Input where
  | object (o : ObjectCode)
  | source (s : CuSource)

def Input.code (config : Config) : Input → ObjectCode
  | object o => o
  | source s => env.objectOf config s

/-- The record of what a linker was given: the inputs that have their place, the sources that have yet to be compiled, and the LTO-IRs
that merging passes on. -/
structure Manifest (Config : Type) where
  config : Config
  lto : Bool
  inputs : List Input
  deferred : List CuSource
  known : List Bytes
  sources : List CuSource
  kernel : Option Bytes

def ltoirsOf (os : List ObjectCode) : List Bytes := (os.filter ObjectCode.isLtoir).map (·.code)

namespace Manifest

def new (config : Config) (lto : Bool) : Manifest Config := ⟨config, lto, [], [], [], [], none⟩

/-- The inputs as they are linked: a source takes its place when it is compiled. -/
def order (m : Manifest Config) : List Input := m.inputs ++ m.deferred.map .source

def objects (m : Manifest Config) : List ObjectCode := m.order.map (Input.code env m.config)

def place (m : Manifest Config) (o : ObjectCode) : Manifest Config := { m with inputs := m.inputs ++ [.object o] }

def defer (m : Manifest Config) (s : CuSource) : Manifest Config :=
  { m with deferred := m.deferred ++ [s], sources := m.sources ++ [s] }

def compile (m : Manifest Config) : Manifest Config := { m with inputs := m.order, deferred := [] }

/-- A linker that turns to LTO is copied: it knows all its LTO-IRs from there on. -/
def turnLto (m : Manifest Config) : Manifest Config :=
  { m.compile with lto := true, known := ltoirsOf (m.objects env) }

def addLtoir (m : Manifest Config) (ltoir : Bytes) : Manifest Config :=
  let m := if m.lto then m else m.turnLto env
  { m.place ⟨.ltoir, ltoir⟩ with known := m.known ++ [ltoir] }

def ltoirs (m : Manifest Config) : List Bytes := FirstOccurrence.keepFirst (fun _ => true) m.known

def addData (m : Manifest Config) (data : Bytes) (mode : Bool) : FileKind → Manifest Config
  | .cu => m.defer (data, mode)
  | .nvvm => m.addLtoir env data
  | .ptx => m.place ⟨.ptx, data⟩
  | .cubin => m.place ⟨.cubin, data⟩
  | .library => m.place ⟨.library, data⟩
  | .fatbin => m.place ⟨.fatbin, data⟩
  | .object => m.place ⟨.object, data⟩

/-- The mode asked for an item counts where the item is seen to be a CUDA source; else the linker's own does. -/
def mode (m : Manifest Config) (item : LinkItem) (compileCuAsLtoir : Option Bool) : Bool :=
  if linkItemIsCudaSource item then compileCuAsLtoir.getD m.lto else m.lto

def addItem (m : Manifest Config) (item : LinkItem) (ignoreNonlto : Bool) (compileCuAsLtoir : Option Bool) : Manifest Config :=
  match Linker.resolveItem env ignoreNonlto item with
  | .ok (some (data, kind)) => m.addData env data (m.mode item compileCuAsLtoir) kind
  | _ => m

def copied (m : Manifest Config) (ltoirOnly : Bool) (kernelLtoir : Option Bytes) : List ObjectCode :=
  kernelLtoir.toList.map (⟨.ltoir, ·⟩) ++ (m.objects env).filter fun o => !ltoirOnly || o.isLtoir

def recreate (m : Manifest Config) (lto ltoirOnly : Bool) (kernelLtoir : Option Bytes) : Manifest Config :=
  { config := m.config
    lto := lto || (m.copied env ltoirOnly kernelLtoir).any ObjectCode.isLtoir
    inputs := (m.copied env ltoirOnly kernelLtoir).map .object
    deferred := []
    known := ltoirsOf (m.copied env ltoirOnly kernelLtoir)
    sources := []
    kernel := kernelLtoir }

def given (m : Manifest Config) (o : ObjectCode) : Bool :=
  m.order.all fun
    | .object _ => true
    | .source s => !(s.2 && env.objectOf m.config s == o)

end Manifest

def record (ms : List (Manifest Config)) : Event Config → Option (List (Manifest Config))
  | .create config lto => some (ms ++ [Manifest.new config lto])
  | .addPtx i ptx => ms[i]?.map fun m => ms.set i (m.place ⟨.ptx, ptx⟩)
  | .addCubin i cubin => ms[i]?.map fun m => ms.set i (m.place ⟨.cubin, cubin⟩)
  | .addLtoir i ltoir => ms[i]?.map fun m => ms.set i (m.addLtoir env ltoir)
  | .addFileGuessExt i item ignoreNonlto compileCuAsLtoir =>
    ms[i]?.map fun m => ms.set i (m.addItem env item ignoreNonlto compileCuAsLtoir)
  | .mergeLtoirsFrom i j => ms[i]?.bind fun m => ms[j]?.map fun other => ms.set i (other.ltoirs.foldl (Manifest.addLtoir env) m)
  | .recreateWithLto i lto ltoirOnly kernelLtoir =>
    ms[i]?.map fun m => ms.set i m.compile ++ [m.recreate env lto ltoirOnly kernelLtoir]
  | .link i => ms[i]?.map fun m => ms.set i m.compile

/-- What the link of a linker passes on, given what was added to it. -/
structure Links (m : Manifest Config) (l : Linker Config) (ptx : Bool) : Prop where
  inOrder : (l.link env ptx).1.Sublist (m.objects env)
  present : ∀ o ∈ m.objects env, o ∈ (l.link env ptx).1
  once : (l.link env ptx).1.filter (m.given env) =
    FirstOccurrence.keepFirst ObjectCode.isLtoir ((m.objects env).filter (m.given env))
  kernelFirst : ∀ k, m.kernel = some k → (l.link env ptx).1.head? = some ⟨.ltoir, k⟩
  compiledOnce : (l.materializePendingCu env).compiled = m.sources
  ltoFlag : (l.link env ptx).2.1 = some true ↔ ∃ o ∈ (l.link env ptx).1, o.isLtoir = true
  ptxFlag : (l.link env ptx).2.2 = some true ↔ ptx = true ∧ ∃ o ∈ (l.link env ptx).1, o.isLtoir = true

end NumbaCudaMlir.ObjectLinker

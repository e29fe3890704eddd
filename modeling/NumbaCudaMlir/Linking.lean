import NumbaCudaMlir.Dict
import NumbaCudaMlir.ItaniumMangler
import NumbaCudaMlir.SymbolTable

/-!
# Assembling a kernel's module

The lowering of a function compiles what it calls and clones the result into its
own GPU module: `build_user_defined_function_call`, `build_recursive_call`,
`lower_overload_call` and the calls into external MLIR libraries, with the globals
a body brings with it.
-/

namespace NumbaCudaMlir.Linking

open Mangler SymbolTable

/-- A function's dispatcher, by its object id, and the folded types it is compiled for. -/
structure Spec where
  dispatcher : Nat
  argtypes : List MangledType
  deriving DecidableEq, Repr

/-- One run of the compiler: a kernel, or a function compiled for its callers. -/
inductive Unit where
  | kernel (s : Spec)
  | callee (s : Spec)
  deriving DecidableEq, Repr

def Unit.argtypes : Unit → List MangledType
  | kernel s | callee s => s.argtypes

/-- A linkable operation of an external library; `funcType` is `none` for a global. -/
structure LibraryOp where
  name : Text
  funcType : Option Text
  body : Text
  refs : List Text
  deriving DecidableEq, Repr

/-- A library's operations; what they use is there. -/
structure Library where
  ops : List LibraryOp
  resolved : ∀ op ∈ ops, ∀ r ∈ op.refs, ∃ e ∈ ops, e.name = r

instance : DecidableEq Library := fun a b =>
  decidable_of_iff (a.ops = b.ops) ⟨fun h => by cases a; cases b; cases h; rfl, fun h => h ▸ rfl⟩

structure LibraryFunction where
  library : Library
  op : LibraryOp
  mem : op ∈ library.ops

/-- What a lowered body does that touches its module's symbols, in the order it does it. -/
inductive Item where
  | call (fn : Nat) (args : List MangledType) (kws : List (Text × MangledType))
  | recursive (fn : Nat) (args : List MangledType) (kws : List (Text × MangledType))
  | overload (fn : Nat) (args : List MangledType) (kws : List (Text × MangledType))
  | library (fn : LibraryFunction)
  | constantArray (value : Nat)
  | string (text : Text)
  | setErrorCode

/-- The functions of a process, by dispatcher, and what typing makes of each of their bodies. -/
structure Program where
  qualname : Nat → Text
  /-- `fndesc.qualname`. -/
  kernelQualname : Nat → Text
  signature : Nat → List Parameter
  /-- The dispatcher a function is compiled through when it is called. -/
  deviceDispatcher : Nat → Nat
  body : Unit → List Item
  functionType : Unit → Text

inductive Origin where
  | unit (u : Unit)
  | library (op : LibraryOp)
  | constantArray (value : Nat)
  | string (text : Text)
  | errorCode
  deriving DecidableEq, Repr

abbrev Op := Definition Text Origin

def constantArrayName (n : Nat) : Text := "constant_array_".toList ++ Nat.toDigits 10 n

def stringName (n : Nat) : Text := "__numba_cuda_mlir_str_".toList ++ Nat.toDigits 10 n

def errorCodeName : Text := "__numba_cuda_mlir_error_code".toList

def errorCodeOp : Op := ⟨errorCodeName, .errorCode, []⟩

def LibraryOp.definition (library : Library) (op : LibraryOp) : Op :=
  ⟨op.name, .library op,
    op.refs.filterMap fun r => (library.ops.find? fun e => e.name = r).map fun e => (r, .library e)⟩

def Library.linkableOps (library : Library) : List Op := library.ops.map (LibraryOp.definition library)

/-- The GPU module a compilation ends with, and the operations skipped on the way:
what stood under the name, and what was skipped. -/
structure Assembled where
  ops : List Op
  skips : List (Origin × Origin)
  deriving DecidableEq, Repr

/-- What outlives a compilation. `overloads` has the results compiled under the name
callers ask for; `strings` and `constantArrays` are what has been given a number so far. -/
structure Process where
  overloads : Dict Spec Assembled
  constantArrays : List Nat
  strings : List Text

def Process.init : Process := ⟨.empty, [], []⟩

structure Lowering where
  process : Process
  own : Op
  ops : List Op
  /-- `_constant_array_globals`. -/
  constantArrayGlobals : List (Nat × Text)
  /-- `_seen_mlir_libraries`. -/
  seenLibraries : List Library
  skips : List (Origin × Origin)

namespace Lowering

def module (L : Lowering) : List Op := L.own :: L.ops

/-- Emit an operation that uses the symbol `name` for `origin`. -/
def use (L : Lowering) (name : Text) (origin : Origin) : Lowering :=
  { L with own := { L.own with refs := L.own.refs ++ [(name, origin)] } }

/-- `link_inplace`, and the loop of `build_user_defined_function_call` over a callee's operations. -/
def link (L : Lowering) (linkableOps : List Op) : Lowering :=
  { L with
    ops := L.ops ++ (linkInto L.module linkableOps).1
    skips := L.skips ++ (linkInto L.module linkableOps).2 }

/-- Clone a compiled callee into the module and call it. -/
def linkCallee (L : Lowering) (process : Process) (m : Assembled) (name : Text) (origin : Origin) : Lowering :=
  ({ L with process := process, skips := L.skips ++ m.skips }.link m.ops).use name origin

def lowerArrayLiteral (L : Lowering) (value : Nat) : Lowering :=
  match L.constantArrayGlobals.lookup value with
  | some name => L.use name (.constantArray value)
  | none =>
    let name := constantArrayName L.process.constantArrays.length
    { L with
      process := { L.process with constantArrays := L.process.constantArrays ++ [value] }
      constantArrayGlobals := (value, name) :: L.constantArrayGlobals
      ops := ⟨name, .constantArray value, []⟩ :: L.ops }.use name (.constantArray value)

/-- `materialize_string_constant`; the counter starts at 1. -/
def materializeString (L : Lowering) (text : Text) : Lowering :=
  let name := stringName (L.process.strings.length + 1)
  { L with
    process := { L.process with strings := L.process.strings ++ [text] }
    ops := ⟨name, .string text, []⟩ :: L.ops }.use name (.string text)

end Lowering

namespace Program

variable (p : Program)

/-- The name a function is compiled under: its callers' `abi_name`, or a kernel's own. -/
def symbol : Unit → Text
  | .kernel s => generateMangledName (p.kernelQualname s.dispatcher) (callArgtypes s.argtypes)
  | .callee s => generateMangledName (p.qualname s.dispatcher ++ idSuffix s.dispatcher) (callArgtypes s.argtypes)

def foldArgs (fn : Nat) (args : List MangledType) (kws : List (Text × MangledType)) : Option (List MangledType) :=
  foldArguments (p.signature fn) args kws

def funcType : Origin → Option Text
  | .unit u => some (p.functionType u)
  | .library op => op.funcType
  | _ => none

def lookupCallee (L : Lowering) (op : LibraryOp) : Option Op :=
  L.module.find? fun d => d.name = op.name ∧ (p.funcType d.origin).isSome ∧ p.funcType d.origin = op.funcType

abbrev Compile := Process → Unit → Option (Process × Assembled)

/-- `_compile_device_callee`, under the name its callers use. -/
def compileDeviceCallee (compile : Compile) (process : Process) (s : Spec) : Option (Process × Assembled) :=
  match process.overloads.get s with
  | some m => some (process, m)
  | none => do
    let (process, m) ← compile process (.callee s)
    return ({ process with overloads := process.overloads.set s m }, m)

def buildUserDefinedFunctionCall (compile : Compile) (L : Lowering) (fn : Nat) (args : List MangledType)
    (kws : List (Text × MangledType)) : Option Lowering := do
  let foldedArgtypes ← p.foldArgs (p.deviceDispatcher fn) args kws
  let s : Spec := ⟨p.deviceDispatcher fn, foldedArgtypes⟩
  let (process, m) ← compileDeviceCallee compile L.process s
  return L.linkCallee process m (p.symbol (.callee s)) (.unit (.callee s))

/-- The call is meant for the dispatcher typing found; with the function's own types it goes to the function itself. -/
def buildRecursiveCall (compile : Compile) (u : Unit) (L : Lowering) (fn : Nat) (args : List MangledType)
    (kws : List (Text × MangledType)) : Option Lowering := do
  let argtypes ← p.foldArgs fn args kws
  if argtypes ≠ u.argtypes then p.buildUserDefinedFunctionCall compile L fn args kws
  else return L.use L.own.name (.unit (.callee ⟨p.deviceDispatcher fn, argtypes⟩))

/-- The implementation is compiled anew for each call. -/
def lowerOverloadCall (compile : Compile) (L : Lowering) (fn : Nat) (args : List MangledType)
    (kws : List (Text × MangledType)) : Option Lowering := do
  let foldedArgtypes ← p.foldArgs fn args kws
  let s : Spec := ⟨fn, foldedArgtypes⟩
  let (process, m) ← compile L.process (.callee s)
  return L.linkCallee process m (p.symbol (.callee s)) (.unit (.callee s))

def linkExternalMlirLibrary (L : Lowering) (library : Library) : Lowering :=
  if library ∈ L.seenLibraries then L
  else { L with seenLibraries := library :: L.seenLibraries }.link library.linkableOps

def lowerLibraryCall (L : Lowering) (fn : LibraryFunction) : Option Lowering := do
  let L := linkExternalMlirLibrary L fn.library
  let callee ← p.lookupCallee L fn.op
  return L.use callee.name (.library fn.op)

def lowerItem (compile : Compile) (u : Unit) (L : Lowering) : Item → Option Lowering
  | .call fn args kws => p.buildUserDefinedFunctionCall compile L fn args kws
  | .recursive fn args kws => p.buildRecursiveCall compile u L fn args kws
  | .overload fn args kws => p.lowerOverloadCall compile L fn args kws
  | .library fn => p.lowerLibraryCall L fn
  | .constantArray value => some (L.lowerArrayLiteral value)
  | .string text => some (L.materializeString text)
  | .setErrorCode => some (L.use errorCodeName .errorCode)

def startLowering (process : Process) (u : Unit) : Lowering :=
  { process, own := ⟨p.symbol u, .unit u, []⟩, ops := [errorCodeOp], constantArrayGlobals := [], seenLibraries := [],
    skips := [] }

def lowerFunction (compile : Compile) (process : Process) (u : Unit) : Option (Process × Assembled) := do
  let L ← (p.body u).foldlM (p.lowerItem compile u) (p.startLowering process u)
  return (L.process, ⟨L.module, L.skips⟩)

/-- `none` where a call does not bind, a library's function is not found, or the functions called go deeper than `fuel`. -/
def compile : (fuel : Nat) → Compile
  | 0 => fun _ _ => none
  | fuel + 1 => p.lowerFunction (compile fuel)

/-- The states a process comes to: compilations for any reason, complete or given up in
the middle, and results dropped or replaced by some compiled under another name. -/
inductive Reachable : Process → Prop
  | init : Reachable .init
  | compile {process process' : Process} {fuel : Nat} {u : Unit} {m : Assembled} :
    Reachable process → p.compile fuel process u = some (process', m) → Reachable process'
  | callee {process process' : Process} {fuel : Nat} {s : Spec} {m : Assembled} :
    Reachable process → compileDeviceCallee (p.compile fuel) process s = some (process', m) → Reachable process'
  | numbers {process : Process} (arrays : List Nat) (texts : List Text) : Reachable process →
    Reachable { process with constantArrays := process.constantArrays ++ arrays, strings := process.strings ++ texts }
  | drop {process : Process} (s : Spec) : Reachable process →
    Reachable { process with overloads := process.overloads.erase s }

end Program

end NumbaCudaMlir.Linking

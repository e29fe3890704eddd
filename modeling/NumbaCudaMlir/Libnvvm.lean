import NumbaCudaMlir.Dict

/-!
# Compatibility passes for libNVVM

An LLVM module as far as the passes read and change it, and the passes in the
order both implementations share: the launcher's over the LLVM C API and the
bridge's over the C++ classes.
-/

namespace NumbaCudaMlir.Libnvvm

/-! ## Modules -/

inductive LlvmType where
  | void
  | int (width : Nat)
  | half
  | bfloat
  | float
  | double
  | pointer (addrspace : Nat)
  | array (elem : LlvmType) (count : Nat)
  | other (text : String)
  deriving DecidableEq

structure FunctionType where
  ret : LlvmType
  params : List LlvmType

/-- The instruction of the module, or the `k`-th one a pass put before it. -/
inductive ValueId where
  | inst (n : Nat)
  | before (id : ValueId) (k : Nat)
  deriving DecidableEq

structure InlineAsm where
  text : String
  constraints : String
  hasSideEffects : Bool
  deriving DecidableEq

inductive Value where
  | result (id : ValueId) (ty : LlvmType)
  | argument (n : Nat) (ty : LlvmType)
  | constantInt (ty : LlvmType) (n : Nat)
  | function (name : String)
  | inlineAsm (asm : InlineAsm)
  | other (ty : LlvmType) (text : String)
  deriving DecidableEq

def Value.type : Value → LlvmType
  | .result _ ty | .argument _ ty | .constantInt ty _ | .other ty _ => ty
  | .function _ | .inlineAsm _ => .pointer 0

/-- An integer attribute such as `captures` is an enum attribute with a value. -/
inductive Attribute where
  | enum (kind value : Nat)
  | type (kind : String) (ty : LlvmType)
  | string (key value : String)

structure AttributeList where
  fn : List Attribute := []
  ret : List Attribute := []
  params : List (List Attribute) := []

def AttributeList.all (a : AttributeList) : List Attribute := a.fn ++ a.ret ++ a.params.flatten

structure CallBase where
  callInst : Bool
  fnTy : FunctionType
  callee : Value
  args : List Value
  bundles : List (String × List Value)
  attrs : AttributeList

def CallBase.bundleOperands (c : CallBase) : List Value := c.bundles.flatMap (·.2)

def CallBase.getOperand (c : CallBase) (k : Nat) : Value := c.args.getD k (.other .void "poison")

inductive AtomicBinOp where
  | fadd
  | fmax
  | fmin
  | fmaximum
  | fminimum
  | other (name : String)

inductive Op where
  | call (c : CallBase)
  | atomicrmw (binop : AtomicBinOp) (ptr val : Value) (ordering : String)
  | zext (v : Value)
  | trunc (v : Value)
  | fpext (v : Value)
  | fptrunc (v : Value)
  | other (opcode : String) (operands : List Value)

def Op.operands : Op → List Value
  | .call c => c.args ++ c.bundleOperands
  | .atomicrmw _ ptr val _ => [ptr, val]
  | .zext v | .trunc v | .fpext v | .fptrunc v => [v]
  | .other _ operands => operands

/-- The callee of a call is an operand as well. -/
def Op.uses : Op → List Value
  | .call c => c.callee :: (c.args ++ c.bundleOperands)
  | op => op.operands

structure Instruction where
  id : ValueId
  ty : LlvmType
  op : Op

structure Param where
  ty : LlvmType
  attrs : List Attribute

structure Function where
  callingConv : Nat
  ret : Param
  params : List Param
  attrs : List Attribute
  blocks : List (List Instruction)

structure GlobalVariable where
  ty : LlvmType
  linkage : String
  sectionName : Option String
  initializer : List Value

inductive Metadata where
  | value (v : Value)
  | string (s : String)
  | node (ops : List Metadata)

abbrev MDNode := List Metadata

structure Module where
  functions : Dict String Function
  globals : Dict String GlobalVariable
  namedMetadata : Dict String (List MDNode)
  lastUnique : Nat

namespace Module

def instructions (m : Module) : List Instruction := m.functions.values.flatMap fun f => f.blocks.flatten

def mapFunctions (m : Module) (g : Function → Function) : Module :=
  { m with functions := m.functions.mapValues fun _ f => g f }

def mapInstructions (m : Module) (g : Instruction → List Instruction) : Module :=
  m.mapFunctions fun f => { f with blocks := f.blocks.map (·.flatMap g) }

/-- `makeUniqueName`: the symbol table counts up to a free name. -/
def uniqueName (m : Module) (name : String) : String :=
  let taken := m.functions.keys ++ m.globals.keys
  let names := (List.range (taken.length + 1)).map fun k => name ++ "." ++ toString (m.lastUnique + 1 + k)
  if name ∈ taken then (names.find? (· ∉ taken)).getD (name ++ "." ++ toString m.lastUnique) else name

def addGlobal (m : Module) (name : String) (g : GlobalVariable) : Module :=
  { m with globals := m.globals.set (m.uniqueName name) g }

def namedOperands (m : Module) (name : String) : List MDNode := (m.namedMetadata.get name).getD []

def addNamedMetadataOperand (m : Module) (name : String) (node : MDNode) : Module :=
  { m with namedMetadata := m.namedMetadata.set name (m.namedOperands name ++ [node]) }

def useEmpty (m : Module) (name : String) : Bool :=
  m.instructions.all (fun i => Value.function name ∉ i.op.uses) &&
    m.globals.values.all fun g => Value.function name ∉ g.initializer

end Module

/-! ## The two implementations -/

/-- The LLVM library that an implementation loads or is linked with. -/
structure Llvm where
  enumAttributeKind : String → Nat
  intrinsicAttributes : String → List (Nat × Nat)

def hasKind (kind : Nat) : Attribute → Bool
  | .enum kind' _ => kind' = kind
  | _ => false

def removeKind (kind : Nat) (attrs : List Attribute) : List Attribute := attrs.filter (!hasKind kind ·)

/-- What the two implementations write in their own words. -/
structure Api where
  isCallUser : CallBase → Bool
  asmArgs : CallBase → List Value
  deleteFunction : Module → String → Module
  process : (nocupKind capturesKind : Nat) → (downgradeCaptures : Bool) → List Attribute → List Attribute
  annotations : Module → Module

namespace Launcher

/-- `LLVMIsACallInst` takes no invoke. -/
def isCallUser (c : CallBase) : Bool := c.callInst

/-- Every operand but the last, those of the operand bundles too. -/
def asmArgs (c : CallBase) : List Value := c.args ++ c.bundleOperands

def deleteFunction (m : Module) (name : String) : Module := { m with functions := m.functions.erase name }

def processAttr (nocupKind capturesKind : Nat) (downgradeCaptures : Bool) (acc : List Attribute) :
    Attribute → List Attribute
  | .enum kind _ =>
    if kind = nocupKind ∧ nocupKind ≠ 0 then removeKind kind acc
    else if downgradeCaptures ∧ kind = capturesKind ∧ capturesKind ≠ 0 then removeKind kind acc
    else acc
  | _ => acc

def process (nocupKind capturesKind : Nat) (downgradeCaptures : Bool) (attrs : List Attribute) : List Attribute :=
  attrs.foldl (processAttr nocupKind capturesKind downgradeCaptures) attrs

def api : Api := ⟨isCallUser, asmArgs, deleteFunction, process, id⟩

end Launcher

namespace ModernBridge

/-- Any `CallBase` with the function as its callee. -/
def isCallUser (_ : CallBase) : Bool := true

def asmArgs (c : CallBase) : List Value := c.args

def deleteFunction (m : Module) (name : String) : Module :=
  if m.useEmpty name then { m with functions := m.functions.erase name } else m

def process (nocupKind capturesKind : Nat) (downgradeCaptures : Bool) (attrs : List Attribute) : List Attribute :=
  let attrs := if nocupKind ≠ 0 ∧ attrs.any (hasKind nocupKind) then removeKind nocupKind attrs else attrs
  if downgradeCaptures ∧ capturesKind ≠ 0 ∧ attrs.any (hasKind capturesKind) then removeKind capturesKind attrs else attrs

def annotations (m : Module) : Module :=
  { m with namedMetadata := m.namedMetadata.setDefault "nvvm.annotations" [] }

def api : Api := ⟨isCallUser, asmArgs, deleteFunction, process, annotations⟩

end ModernBridge

/-! ## Adapting -/

section
variable (llvm : Llvm) (api : Api)

def getOrAddFunction (m : Module) (name : String) (ty : FunctionType) : Module :=
  { m with functions := m.functions.setDefault name {
      callingConv := 0, ret := ⟨ty.ret, []⟩, params := ty.params.map (⟨·, []⟩),
      attrs := (llvm.intrinsicAttributes name).map fun a => .enum a.1 a.2, blocks := [] } }

/-- The calls that `collect_call_users` finds, each replaced. -/
def replaceCalls (m : Module) (name : String) (g : Instruction → CallBase → List Instruction) : Module :=
  m.mapInstructions fun i =>
    match i.op with
    | .call c => if c.callee = .function name ∧ api.isCallUser c then g i c else [i]
    | _ => [i]

def buildCall (fnTy : FunctionType) (callee : Value) (args : List Value) : Op :=
  .call { callInst := true, fnTy, callee, args, bundles := [], attrs := {} }

def i1 : LlvmType := .int 1

def i32 : LlvmType := .int 32

def barrier0Ty : FunctionType := ⟨.void, []⟩

def barSyncTy : FunctionType := ⟨.void, [i32]⟩

def isZero : Value → Bool
  | .constantInt _ n => n = 0
  | _ => false

def adaptBarrierSync (m : Module) : Module :=
  match m.functions.get "llvm.nvvm.barrier.cta.sync.aligned.all" with
  | none => m
  | some _ =>
    let m := getOrAddFunction llvm m "llvm.nvvm.barrier0" barrier0Ty
    let m := getOrAddFunction llvm m "llvm.nvvm.bar.sync" barSyncTy
    replaceCalls api m "llvm.nvvm.barrier.cta.sync.aligned.all" fun i c =>
      let arg := c.getOperand 0
      if isZero arg then [⟨i.id, .void, buildCall barrier0Ty (.function "llvm.nvvm.barrier0") []⟩]
      else [⟨i.id, .void, buildCall barSyncTy (.function "llvm.nvvm.bar.sync") [arg]⟩]

inductive BarrierReduction where
  | and
  | or
  | popc
  deriving DecidableEq

def BarrierReduction.oldName : BarrierReduction → String
  | and => "llvm.nvvm.barrier.cta.red.and.aligned.all"
  | or => "llvm.nvvm.barrier.cta.red.or.aligned.all"
  | popc => "llvm.nvvm.barrier.cta.red.popc.aligned.all"

def BarrierReduction.newName : BarrierReduction → String
  | and => "llvm.nvvm.barrier0.and"
  | or => "llvm.nvvm.barrier0.or"
  | popc => "llvm.nvvm.barrier0.popc"

def BarrierReduction.returnsI1 : BarrierReduction → Bool
  | and | or => true
  | popc => false

def redTy : FunctionType := ⟨i32, [i32]⟩

def adaptReduction (m : Module) (op : BarrierReduction) : Module :=
  match m.functions.get op.oldName with
  | none => m
  | some _ =>
    let m := getOrAddFunction llvm m op.newName redTy
    replaceCalls api m op.oldName fun i c =>
      let predId := ValueId.before i.id 0
      let callId := if op.returnsI1 then ValueId.before i.id 1 else i.id
      [⟨predId, i32, .zext (c.getOperand 1)⟩,
        ⟨callId, i32, buildCall redTy (.function op.newName) [.result predId i32]⟩] ++
        if op.returnsI1 then [⟨i.id, i1, .trunc (.result callId i32)⟩] else []

def reductions : List BarrierReduction := [.and, .or, .popc]

def adaptBarrierReduction (m : Module) : Module := reductions.foldl (adaptReduction llvm api) m

structure AsmIntrinsic where
  name : String
  fnTy : FunctionType
  asm : InlineAsm

def asmIntrinsics : List AsmIntrinsic :=
  [⟨"llvm.nvvm.nanosleep", ⟨.void, [i32]⟩, ⟨"nanosleep.u32 $0;", "r", true⟩⟩,
    ⟨"llvm.stacksave.p0", ⟨.pointer 0, []⟩, ⟨"stacksave.u64 $0;", "=l", true⟩⟩,
    ⟨"llvm.stackrestore.p0", ⟨.void, [.pointer 0]⟩, ⟨"stackrestore.u64 $0;", "l", true⟩⟩,
    ⟨"llvm.nvvm.mapa", ⟨.pointer 0, [.pointer 0, i32]⟩, ⟨"mapa.u64 $0, $1, $2;", "=l,l,r", false⟩⟩]

def replaceIntrinsicWithAsm (m : Module) (a : AsmIntrinsic) : Module :=
  match m.functions.get a.name with
  | none => m
  | some _ =>
    replaceCalls api m a.name fun i c => [⟨i.id, a.fnTy.ret, buildCall a.fnTy (.inlineAsm a.asm) (api.asmArgs c)⟩]

def adaptInlineAsmIntrinsics (m : Module) : Module := asmIntrinsics.foldl (replaceIntrinsicWithAsm api) m

/-- The text and the constraints of `lower_fadd`. -/
def faddAsm (isF32 : Bool) (ptrTy : LlvmType) : InlineAsm :=
  let space := if ptrTy = .pointer 3 then "shared." else if ptrTy = .pointer 1 then "global." else ""
  ⟨"atom." ++ space ++ "add." ++ (if isF32 then "f32" else "f64") ++ " $0, [$1], $2;",
    if isF32 then "=f,l,f" else "=d,l,d", true⟩

def lowerFadd (i : Instruction) (ptr val : Value) : Instruction :=
  if i.ty ≠ .float ∧ i.ty ≠ .double then i
  else { i with op := buildCall ⟨i.ty, [ptr.type, i.ty]⟩ (.inlineAsm (faddAsm (i.ty = .float) ptr.type)) [ptr, val] }

def adaptAtomicrmwAt (i : Instruction) : Instruction :=
  match i.op with
  | .atomicrmw .fminimum ptr val ordering => { i with op := .atomicrmw .fmin ptr val ordering }
  | .atomicrmw .fmaximum ptr val ordering => { i with op := .atomicrmw .fmax ptr val ordering }
  | .atomicrmw .fadd ptr val _ => lowerFadd i ptr val
  | _ => i

def adaptAtomicrmw (m : Module) : Module := m.mapInstructions fun i => [adaptAtomicrmwAt i]

structure TruncMapping where
  intrinsic : String
  libdevice : String
  ty : LlvmType

def truncMappings : List TruncMapping :=
  [⟨"llvm.trunc.f64", "__nv_trunc", .double⟩,
    ⟨"llvm.trunc.f32", "__nv_truncf", .float⟩,
    ⟨"llvm.trunc.f16", "__nv_truncf", .half⟩,
    ⟨"llvm.trunc.bf16", "__nv_truncf", .bfloat⟩]

def TruncMapping.promote (t : TruncMapping) : Bool := t.ty ≠ .float ∧ t.ty ≠ .double

def TruncMapping.libFnTy (t : TruncMapping) : FunctionType :=
  if t.ty = .double then ⟨.double, [.double]⟩ else ⟨.float, [.float]⟩

def adaptTruncMapping (m : Module) (t : TruncMapping) : Module :=
  match m.functions.get t.intrinsic with
  | none => m
  | some _ =>
    let m := getOrAddFunction llvm m t.libdevice t.libFnTy
    replaceCalls api m t.intrinsic fun i c =>
      let call := buildCall t.libFnTy (.function t.libdevice)
      if t.promote then
        let argId := ValueId.before i.id 0
        let callId := ValueId.before i.id 1
        [⟨argId, .float, .fpext (c.getOperand 0)⟩, ⟨callId, .float, call [.result argId .float]⟩,
          ⟨i.id, t.ty, .fptrunc (.result callId .float)⟩]
      else [⟨i.id, t.libFnTy.ret, call [c.getOperand 0]⟩]

def adaptTrunc (m : Module) : Module := truncMappings.foldl (adaptTruncMapping llvm api) m

def ptxKernel : Nat := 71

def kernelFns (m : Module) : List String :=
  (m.functions.entries.filter fun e => e.2.callingConv = ptxKernel).map (·.1)

def kernelNode (fn : String) : MDNode := [.value (.function fn), .string "kernel", .value (.constantInt i32 1)]

def adaptNvvmAnnotations (m : Module) : Module :=
  if (m.namedOperands "nvvm.annotations").length > 0 then m
  else
    let fns := kernelFns m
    if fns = [] then m
    else
      let m := fns.foldl (fun m fn => m.addNamedMetadataOperand "nvvm.annotations" (kernelNode fn)) m
      m.addGlobal "llvm.used" {
        ty := .array (.pointer 0) fns.length, linkage := "appending", sectionName := some "llvm.metadata",
        initializer := fns.map .function }

structure NvvmIrVersion where
  irMajor : Nat := 2
  irMinor : Nat := 0
  debugMajor : Nat := 0
  debugMinor : Nat := 0

def adaptNvvmirVersion (v : NvvmIrVersion) (m : Module) : Module :=
  if (m.namedOperands "nvvmir.version").length > 0 then m
  else m.addNamedMetadataOperand "nvvmir.version"
    ([v.irMajor, v.irMinor, v.debugMajor, v.debugMinor].map fun n => .value (.constantInt i32 n))

def flagBehaviorWarning : Nat := 2

/-- Behavior `Warning` of the flag becomes `Error`. -/
def adaptFlag (flag : MDNode) : MDNode :=
  match flag with
  | .value (.constantInt ty behavior) :: .string key :: value :: rest =>
    if key = "Debug Info Version" ∧ behavior = flagBehaviorWarning then
      .value (.constantInt i32 1) :: .string key :: value :: rest
    else .value (.constantInt ty behavior) :: .string key :: value :: rest
  | _ => flag

def adaptDebugInfoVersion (m : Module) : Module :=
  match m.namedMetadata.get "llvm.module.flags" with
  | none => m
  | some flags => { m with namedMetadata := m.namedMetadata.set "llvm.module.flags" (flags.map adaptFlag) }

def adaptForLibnvvm (v : NvvmIrVersion) (m : Module) : Module :=
  let m := adaptBarrierSync llvm api m
  let m := adaptBarrierReduction llvm api m
  let m := adaptInlineAsmIntrinsics api m
  let m := adaptAtomicrmw m
  let m := adaptTrunc llvm api m
  let m := adaptNvvmAnnotations m
  let m := adaptNvvmirVersion v m
  adaptDebugInfoVersion m

/-! ## Downgrading -/

def lifetimeNames : List String := ["llvm.lifetime.start.p0", "llvm.lifetime.end.p0"]

/-- The calls of an intrinsic with two parameters stay. -/
def downgradeLifetimeOf (m : Module) (name : String) : Module :=
  match m.functions.get name with
  | none => m
  | some f => if f.params.length = 2 then m else api.deleteFunction (replaceCalls api m name fun _ _ => []) name

def downgradeLifetime (m : Module) : Module := lifetimeNames.foldl (downgradeLifetimeOf api) m

def downgradeAttributes (ctkMajor : Int) (m : Module) : Module :=
  let process := api.process (llvm.enumAttributeKind "nocreateundeforpoison") (llvm.enumAttributeKind "captures")
    (ctkMajor < 13)
  m.mapFunctions fun f => { f with
    ret := { f.ret with attrs := process f.ret.attrs }
    params := f.params.map fun p => { p with attrs := process p.attrs }
    attrs := process f.attrs }

def isGridConstant : Attribute → Bool
  | .string key _ => key = "nvvm.grid_constant"
  | _ => false

/-- One-based, as `!nvvm.annotations` counts parameters. -/
def gridIndices (f : Function) : List Nat :=
  (List.range f.params.length).filterMap fun i =>
    match f.params[i]? with
    | some p => if p.attrs.any isGridConstant then some (i + 1) else none
    | none => none

def gridNode (fn : String) (indices : List Nat) : MDNode :=
  [.value (.function fn), .string "grid_constant", .node (indices.map fun k => .value (.constantInt i32 k))]

def downgradeGridConstantOf (m : Module) (e : String × Function) : Module :=
  if e.2.callingConv ≠ ptxKernel then m
  else if gridIndices e.2 = [] then m
  else m.addNamedMetadataOperand "nvvm.annotations" (gridNode e.1 (gridIndices e.2))

def downgradeGridConstant (m : Module) : Module :=
  let m := api.annotations m
  m.functions.entries.foldl downgradeGridConstantOf m

def downgradeForLibnvvm (ctkMajor : Int) (m : Module) : Module :=
  let m := downgradeLifetime api m
  let m := downgradeAttributes llvm api ctkMajor m
  downgradeGridConstant api m

end

def Launcher.run (llvm : Llvm) (v : NvvmIrVersion) (ctkMajor : Int) (m : Module) : Module :=
  downgradeForLibnvvm llvm api ctkMajor (adaptForLibnvvm llvm api v m)

def ModernBridge.run (llvm : Llvm) (v : NvvmIrVersion) (ctkMajor : Int) (m : Module) : Module :=
  downgradeForLibnvvm llvm api ctkMajor (adaptForLibnvvm llvm api v m)

end NumbaCudaMlir.Libnvvm

import NumbaCudaMlir.FloatFormats
import NumbaCudaMlir.Overload

/-!
# Launches of explicit signatures

The launch of a dispatcher that no longer compiles: the marshaller coerces the
arguments to the best overload (`_coerce_to_overload`), the launcher writes them
to its slots, and the kernel is one that the native dispatcher has for their
family, or the overload that `_compile_impl` finds for their types.
-/

namespace NumbaCudaMlir.ExplicitLaunch

open BinaryFloat (Format Value binary16 binary32 binary64 decode)

/-! ## Numbers -/

inductive Number where
  | int (n : Int)
  | float (x : Value)

def number : PyObj → Option Number
  | .long .int v | .long (.sub _) v => some (.int v)
  | .npInteger n => some (.int n.value)
  | .float _ bits => some (.float (decode binary64 bits.toNat))
  | .npFloat32 bits => some (.float (decode binary32 bits.toNat))
  | .npFloat16 single => some (.float (decode binary32 single.toNat))
  | _ => none

/-- The `float` that the launcher reads from a `float16`. -/
def halfToSingle (half : BitVec 16) : BitVec 32 := .ofNat 32 (BinaryFloat.widen binary16 binary32 half.toNat)

def IsNumber (arg : PyObj) : Prop :=
  (number arg).isSome = true ∧ ∀ single, arg = .npFloat16 single → ∃ half, single = halfToSingle half

/-- The conversions of numbers, and those that Python's `float` and NumPy's `float32` compute. -/
structure Conversions where
  toInt : Number → Int
  toFloat : Format → Number → Value
  pyFloat : PyObj → BitVec 64
  npFloat32 : PyObj → BitVec 32
  toInt_int : ∀ n, toInt (.int n) = n
  toInt_finite : ∀ n : Int, toInt (.float (.finite n)) = n
  toFloat_int : ∀ f n, BinaryFloat.Representable f n → toFloat f (.int n) = .finite n
  toFloat_overflow : ∀ f n, 2 ^ f.maxExponent ≤ n → toFloat f (.int n) = .infinity false
  toFloat_float : ∀ f n, toFloat f (.float (decode f n)) = decode f n
  pyFloat_spec : ∀ arg x, number arg = some x → decode binary64 (pyFloat arg).toNat = toFloat binary64 x
  npFloat32_spec : ∀ arg x, number arg = some x → decode binary32 (npFloat32 arg).toNat = toFloat binary32 x

/-! ## Overloads -/

/-- A compiled overload, by its identity and the types its code declares. -/
structure Overload where
  id : Nat
  args : List NumbaType
  deriving DecidableEq

structure Overloads where
  literalArgFlags : List Bool
  overloads : Dict (List NumbaType) Overload
  launchConfigOverloads : Dict (List NumbaType × LaunchConfig) Overload

namespace Overloads

/-- The signatures that `_coerce_to_overload` rates. -/
def signatures (o : Overloads) : Option LaunchConfig → List (List NumbaType)
  | none => o.overloads.keys
  | some key => o.launchConfigOverloads.keys.filterMap fun k => if k.2 = key then some k.1 else none

def literalized (o : Overloads) (argtypes : List NumbaType) (values : List LaunchValue) : Option (List NumbaType) :=
  literalizeArgtypes o.literalArgFlags argtypes values (LaunchValue.flattenAll values).length

/-- `_compile_impl`; `none` where it raises. -/
def compileImpl (o : Overloads) (config : Option LaunchConfig) (argtypes : List NumbaType) (values : List LaunchValue) :
    Option Overload :=
  (o.literalized argtypes values).bind fun argtypes =>
    match config with
    | none => (firstReusable o.overloads argtypes).or (resolveResult o.overloads argtypes)
    | some key =>
      (findLaunchConfigOverload o.launchConfigOverloads argtypes key).or
        (resolveLaunchConfigResult o.launchConfigOverloads argtypes key)

/-- The result that `_prepare_for_launch` asks for; without one it raises. -/
def compileResult (o : Overloads) (config : Option LaunchConfig) (argtypes : List NumbaType) (values : List LaunchValue) :
    Option Overload :=
  (o.literalized argtypes values).bind fun argtypes =>
    match config with
    | none => compileResultFor o.overloads argtypes
    | some key => findLaunchConfigOverload o.launchConfigOverloads argtypes key

end Overloads

/-! ## Coercion -/

mutual

def toDeviceItem : LaunchValue → LaunchValue
  | .leaf (.float .npFloat64 bits) => .leaf (.float .float bits)
  | .leaf obj => .leaf obj
  | .tuple elems => .tuple (toDeviceItems elems)

def toDeviceItems : List LaunchValue → List LaunchValue
  | [] => []
  | v :: vs => toDeviceItem v :: toDeviceItems vs

end

def isNumeric : NumbaType → Bool
  | .scalar (.float _) | .scalar (.integer ..) => true
  | _ => false

section
variable (conv : Conversions)

def coerceArg (sigType : NumbaType) (arg : LaunchValue) (runtimeType : NumbaType) : LaunchValue × NumbaType :=
  if sigType = runtimeType then (arg, runtimeType)
  else
    match sigType, arg with
    | .scalar (.float .s4), .leaf obj =>
      if isNumeric runtimeType then (.leaf (.npFloat32 (conv.npFloat32 obj)), sigType) else (arg, runtimeType)
    | .scalar (.float .s8), .leaf obj =>
      if isNumeric runtimeType then (.leaf (.float .float (conv.pyFloat obj)), sigType) else (arg, runtimeType)
    -- Other signature types keep the argument, and so do the elements of tuples.
    | _, _ => (arg, runtimeType)

def coerceArgs : List NumbaType → List LaunchValue → List NumbaType → List (LaunchValue × NumbaType)
  | s :: ss, v :: vs, t :: ts => coerceArg conv s v t :: coerceArgs ss vs ts
  | _, _, _ => []

/-- The only overload of the best rating, where none is reusable. -/
def coercionTarget (sigs : List (List NumbaType)) (argtypes : List NumbaType) : Option (List NumbaType) :=
  if sigs.any fun sig => canReuseOverloads sig argtypes then none
  else
    match SigCache.resolveOverload sigs (argtypes.map some) with
    | [sig] => some sig
    | _ => none

def coerceToOverload (sigs : List (List NumbaType)) (args : List LaunchValue) (argtypes : List NumbaType) :
    List (LaunchValue × NumbaType) :=
  match coercionTarget sigs argtypes with
  | none => args.zip argtypes
  | some sig => coerceArgs conv sig args argtypes

end

/-! ## Launches -/

structure Context where
  /-- The launch config, of a dispatcher that specialises by it. -/
  launchConfig : Option LaunchConfig
  /-- Planners are registered, or the marshaller is older than the literal positions. -/
  prelaunch : Bool
  /-- The types in the signature cache, where the classes of the arguments have them. -/
  cachedTypes : Option (List NumbaType)
  driver : Driver
  helper : LaunchHelper

/-- The native dispatcher of a launch config; its kernels are results of `_compile_impl`. -/
structure NativeDispatcher (o : Overloads) (config : Option LaunchConfig) where
  kernels : List (NativeKey × Overload)
  chosen : ∀ e ∈ kernels, ∃ argtypes values, o.compileImpl config argtypes values = some e.2

def NativeDispatcher.emplace {o : Overloads} {config : Option LaunchConfig} (d : NativeDispatcher o config) (key : NativeKey)
    (kernel : Overload) (h : ∃ argtypes values, o.compileImpl config argtypes values = some kernel) :
    NativeDispatcher o config where
  kernels := d.kernels ++ [(key, kernel)]
  chosen := List.forall_mem_append.mpr ⟨d.chosen, List.forall_mem_singleton.mpr h⟩

def classifyAll : List PyObj → Option (List (PythonArgKind × ParameterKind))
  | [] => some []
  | arg :: args => (classifyArg arg).toOption.bind fun c => (classifyAll args).map (c :: ·)

structure Request where
  args : List LaunchValue
  argtypes : List NumbaType
  profile : PythonArgProfile

section
variable (conv : Conversions) (o : Overloads) (ctx : Context)

/-- The values that are launched, with their types. -/
def marshalled (args : List LaunchValue) : Option (List LaunchValue × List NumbaType) :=
  match ctx.cachedTypes with
  | some argtypes => some (args, argtypes)
  | none =>
    (LaunchValue.typeofAll (toDeviceItems args)).map fun argtypes =>
      (coerceToOverload conv (o.signatures ctx.launchConfig) (toDeviceItems args) argtypes).unzip

def request (args : List LaunchValue) : Option Request :=
  (marshalled conv o ctx args).bind fun (args, argtypes) =>
    if (ctx.prelaunch ∨ ctx.launchConfig.isSome) ∧ (o.compileResult ctx.launchConfig argtypes args).isNone then none
    else
      (classifyAll (LaunchValue.flattenAll args)).map fun classes =>
        ⟨args, argtypes, newProfile ⟨List.replicate o.literalArgFlags.length false, o.literalArgFlags⟩ (pyargTypes args) classes⟩

structure Launched where
  kernel : Overload
  params : LaunchParams
  dispatcher : NativeDispatcher o ctx.launchConfig

/-- The kernel of a launch, and the native dispatcher after it. -/
def select (d : NativeDispatcher o ctx.launchConfig) (req : Request) (constants : List ConstantArg) :
    Option (Overload × NativeDispatcher o ctx.launchConfig) :=
  match d.kernels.lookup (req.profile.family, constants) with
  | some kernel => some (kernel, d)
  | none =>
    match h : o.compileImpl ctx.launchConfig req.argtypes req.args with
    | some kernel => some (kernel, d.emplace (req.profile.family, constants) kernel ⟨_, _, h⟩)
    | none => none

def launch (d : NativeDispatcher o ctx.launchConfig) (args : List LaunchValue) : Option (Launched o ctx) :=
  (request conv o ctx args).bind fun req =>
    (prepareParams ctx.driver req.profile (LaunchValue.flattenAll req.args) ctx.helper).toOption.bind fun params =>
      (select o ctx d req params.constants).map fun (kernel, dispatcher) => ⟨kernel, params, dispatcher⟩

end

/-! ## What a kernel reads -/

mutual

def leaves : NumbaType → List NumbaType
  | .tuple elems => leavesAll elems
  | t => [t]

def leavesAll : List NumbaType → List NumbaType
  | [] => []
  | t :: ts => leaves t ++ leavesAll ts

end

def floatFormat : ItemSize → Option Format
  | .s2 => some binary16
  | .s4 => some binary32
  | .s8 => some binary64
  | _ => none

/-- The parameter, read with its declared width from the slot, is the number converted to its type. -/
def Holds (conv : Conversions) (declared : NumbaType) (x : Number) (slot : CudaArg) : Prop :=
  match declared, x with
  | .scalar (.integer _ s), x => s.bytes ≤ 8 ∧ (slot.toNat % 2 ^ (8 * s.bytes) : Int) = conv.toInt x % 2 ^ (8 * s.bytes)
  | .scalar (.float s), x => ∃ f, floatFormat s = some f ∧ decode f (slot.toNat % 2 ^ (8 * s.bytes)) = conv.toFloat f x
  | .cpointer _, .int n => slot = .ofInt 64 n
  -- The kernel has the value as a constant.
  | .literal (.int v), .int n => v = n
  | _, _ => False

end NumbaCudaMlir.ExplicitLaunch

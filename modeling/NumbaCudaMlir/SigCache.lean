import NumbaCudaMlir.Marshal

/-!
# Signature caches

The caches of `_ArgMarshaller._call_impl` for calls without extensions. They are
keyed by the classes of the arguments; the entries of the array cache also hold
the dtype, rank, layout and mutability of each array, which are compared before
an entry is used.
-/

namespace NumbaCudaMlir.SigCache

/-! ## Classes and types of arguments -/

inductive PyClass where
  | native (ty : PyType)
  | npBool | memoryView | ndarray
  | hint (kind : ArgHint)
  | seq (cls : SeqClass)
  | other (cls : Nat)
  deriving DecidableEq, Repr

def pyClass : HostValue → PyClass
  | .obj o => .native o.type
  | .npBool _ => .npBool
  | .memoryView _ => .memoryView
  | .hostArray _ => .ndarray
  | .hint kind _ => .hint kind
  | .seq cls _ => .seq cls
  | .other cls => .other cls

mutual

/-- `typeof` of a value that the copy to the device leaves; `none` where it raises. -/
def typeof : HostValue → Option NumbaType
  | .obj o => NumbaCudaMlir.typeof o
  | .seq .tuple elems => (typeofAll elems).map .tuple
  | .seq .list (elem :: _) => (typeof elem).map .list
  | _ => none

def typeofAll : List HostValue → Option (List NumbaType)
  | [] => some []
  | v :: vs => (typeof v).bind fun t => (typeofAll vs).map (t :: ·)

end

mutual

def flatCount : HostValue → Nat
  | .seq _ elems => flatCounts elems
  | _ => 1

def flatCounts : List HostValue → Nat
  | [] => 0
  | v :: vs => flatCount v + flatCounts vs

end

def arrayParts : NumbaType → Option (ScalarType × Nat × Layout × Bool)
  | .array d n l r => some (d, n, l, r)
  | _ => none

def isArray (ty : Option NumbaType) : Bool := (ty.bind arrayParts).isSome

/-! ## Array keys -/

structure ArrayCacheKey where
  dtype : NpDType
  ndim : Nat
  layout : Layout
  readonly : Bool
  deriving DecidableEq, Repr

/-- The attributes of foreign arrays and objects: which ones a class of arrays has, the `strides` of
an array, and the key of an object that declares an array type. -/
structure Attributes where
  ndim : ArrayClass → Bool
  shape : ArrayClass → Bool
  flags : ArrayClass → Bool
  strides : ArrayObj → Option (List Int)
  objectKey : Obj → NumbaType → Option ArrayCacheKey

def asDtype : ScalarType → Option NpDType
  | .boolean => some (.numeric .bool .s1)
  | .integer true s => some (.numeric .int s)
  | .integer false s => some (.numeric .uint s)
  | .float s => some (.numeric .float s)
  | .complex s => some (.numeric .complex s)
  | .npDatetime unit => some (.datetime64 unit)
  | .npTimedelta unit => some (.timedelta64 unit)
  | .charSeq n => some (.bytes n)
  | .unicodeCharSeq n => some (.str n)
  | .record fields n => some (.void fields n)
  | .enumMember _ _ .boolean => some (.numeric .bool .s1)
  | .enumMember _ _ .int64 => some (.numeric .int .s8)
  | .enumMember _ _ .uint64 => some (.numeric .uint .s8)
  | .enumMember _ _ .float64 => some (.numeric .float .s8)
  | .named _ => none

/-- The dtype by the type string, which does not name the fields of a record. -/
def typestrDtype : NpDType → NpDType
  | .void _ n => .void "" n
  | d => d

section
variable (attrs : Attributes)

/-- `_array_dtype`; without metadata it is that of the cached type. -/
def arrayDtype (ty : NumbaType) : PyObj → Option NpDType
  | .deviceArray ary => some ary.dtype
  | .array ary =>
    if ary.cls.hasNpDtype then some ary.dtype
    else if ary.cls.hasCudaArrayInterface then some (typestrDtype ary.dtype)
    else (arrayParts ty).bind fun (d, _) => asDtype d
  | _ => none

def arrayShape : PyObj → Option (List Int)
  | .deviceArray ary => some ary.shape
  | .array ary => if attrs.shape ary.cls ∨ ary.cls.hasCudaArrayInterface then some ary.shape else none
  | _ => none

/-- The rank by the `ndim` attribute, or else by the shape. -/
def arrayNdim : PyObj → Option Nat
  | .array ary => if attrs.ndim ary.cls then some ary.ndim else (arrayShape attrs (.array ary)).map (·.length)
  | arg => (arrayShape attrs arg).map (·.length)

def arrayStrides : PyObj → Option (List Int)
  | .deviceArray ary => some ary.strides
  | .array ary => (attrs.strides ary).or (if ary.cls.hasCudaArrayInterface then ary.strides else none)
  | _ => none

/-- Dimensions of one index count here. -/
def packedLayout (itemsize : Int) (shape strides : List Int) : Layout :=
  if strides = (stridesFromShape itemsize shape.reverse).reverse then .C
  else if strides = stridesFromShape itemsize shape then .F
  else .A

def arrayLayout (ty : NumbaType) (arg : PyObj) : Option Layout :=
  match arrayNdim attrs arg with
  | none => some (((arrayParts ty).map fun (_, _, l, _) => l).getD .C)
  | some 0 => some .C
  | some _ =>
    match arrayStrides attrs arg with
    | none => some .C
    | some strides =>
      (arrayShape attrs arg).bind fun shape =>
        (arrayDtype ty arg).map fun d => packedLayout d.itemsize shape strides

def arrayReadonly (ty : NumbaType) : PyObj → Bool
  | .deviceArray _ => false
  | .array ary =>
    if ary.cls.hasCudaArrayInterface ∨ attrs.flags ary.cls then ary.readonly
    else ((arrayParts ty).map fun (_, _, _, r) => r).getD false
  | _ => false

/-- `_array_cache_key`; `none` where it raises. -/
def arrayCacheKey (ty : NumbaType) : HostValue → Option ArrayCacheKey
  | .obj (.object o) => attrs.objectKey o ty
  | .obj arg => do
    let dtype ← arrayDtype ty arg
    let ndim ← (arrayNdim attrs arg).or ((arrayParts ty).map fun (_, n, _) => n)
    let layout ← arrayLayout attrs ty arg
    pure ⟨dtype, ndim, layout, arrayReadonly attrs ty arg⟩
  | _ => none

end

/-! ## Overloads -/

structure DispatcherView where
  canCompile : Bool
  overloads : List (List NumbaType)

/-- Numbers of lossy and of safe conversions, and of promotions. -/
abbrev Rating := Nat × Nat × Nat

def Rating.le (a b : Rating) : Bool :=
  a.1 < b.1 ∨ a.1 = b.1 ∧ (a.2.1 < b.2.1 ∨ a.2.1 = b.2.1 ∧ a.2.2 ≤ b.2.2)

mutual

def conversionCost (sigArg runtimeType : NumbaType) : Option Rating :=
  if sigArg = runtimeType then some (0, 0, 0)
  else
    match sigArg, runtimeType with
    | .scalar (.integer _ s), .scalar (.integer _ t) | .scalar (.float s), .scalar (.float t) =>
      some (if t.bytes ≤ s.bytes then (0, 0, 1) else (1, 0, 0))
    | .scalar (.float _), .scalar (.integer ..) => some (0, 1, 0)
    | .scalar (.integer ..), .scalar (.float _) => some (1, 0, 0)
    | .array d n _ _, .array e m _ _ => if n ≠ m ∨ d ≠ e then none else some (0, 0, 0)
    | .cpointer _, .scalar (.integer ..) => some (0, 1, 0)
    | .tuple sigs, .tuple runtimes => conversionCosts sigs runtimes
    | _, _ => none

def conversionCosts : (sigArgs runtimeTypes : List NumbaType) → Option Rating
  | [], [] => some (0, 0, 0)
  | s :: ss, t :: ts => (conversionCost s t).bind fun c => (conversionCosts ss ts).map (c + ·)
  | _, _ => none

end

def rateOverload : List NumbaType → List (Option NumbaType) → Option Rating
  | [], [] => some (0, 0, 0)
  | s :: ss, some t :: ts => (conversionCost s t).bind fun c => (rateOverload ss ts).map (c + ·)
  | _, _ => none

/-- `_resolve_overload`: the overloads of the best rating. -/
def resolveOverload (overloads : List (List NumbaType)) (argtypes : List (Option NumbaType)) :
    List (List NumbaType) :=
  let candidates := overloads.filterMap fun sig => (rateOverload sig argtypes).map fun r => (r, sig)
  (candidates.filter fun c => candidates.all fun d => Rating.le c.1 d.1).map (·.2)

def reusable : List NumbaType → List (Option NumbaType) → Bool
  | [], [] => true
  | s :: ss, some t :: ts => canReuseOverload s t && reusable ss ts
  | _, _ => false

def coerceType (sigType : NumbaType) (runtimeType : Option NumbaType) : Option NumbaType :=
  if some sigType = runtimeType then runtimeType
  else
    match sigType, runtimeType with
    | .scalar (.float .s4), some (.scalar (.float _)) | .scalar (.float .s4), some (.scalar (.integer ..)) =>
      some (.scalar (.float .s4))
    | .scalar (.float .s8), some (.scalar (.float _)) | .scalar (.float .s8), some (.scalar (.integer ..)) =>
      some (.scalar (.float .s8))
    | _, _ => runtimeType

/-- `_coerce_to_overload`, on the types; `none` where it returns its arguments themselves. -/
def coerceToOverload (disp : DispatcherView) (argtypes : List (Option NumbaType)) :
    Option (List (Option NumbaType)) :=
  if disp.canCompile then none
  else if disp.overloads.any fun sig => reusable sig argtypes then none
  else
    match resolveOverload disp.overloads argtypes with
    | [sig] => some (List.zipWith coerceType sig argtypes)
    | _ => none

def deviceTypes (args : List HostValue) : List (Option NumbaType) := args.map fun arg => typeof arg.toDeviceItem

def uncachedArgtypes (disp : DispatcherView) (args : List HostValue) : List (Option NumbaType) :=
  (coerceToOverload disp (deviceTypes args)).getD (deviceTypes args)

/-! ## Calls -/

structure SigEntry where
  argtypes : List (Option NumbaType)
  fastOk : Bool
  args : List HostValue

structure ArrayEntry where
  argtypes : List (Option NumbaType)
  arrayChecks : List (Nat × ArrayCacheKey)
  args : List HostValue

structure CachedLaunch where
  disp : DispatcherView
  args : List HostValue
  argtypes : List (Option NumbaType)

structure SigState where
  sigCache : List PyClass → Option SigEntry
  arraySigCache : List PyClass → List ArrayEntry
  log : List CachedLaunch

namespace SigState

def init : SigState := ⟨fun _ => none, fun _ => [], []⟩

def setSig (s : SigState) (key : List PyClass) (e : SigEntry) : SigState :=
  { s with sigCache := Runs.setAt s.sigCache key (some e) }

def addSig (s : SigState) (key : List PyClass) (e : SigEntry) : SigState :=
  if (s.sigCache key).isNone then s.setSig key e else s

def setArrays (s : SigState) (key : List PyClass) (entries : List ArrayEntry) : SigState :=
  { s with arraySigCache := Runs.setAt s.arraySigCache key entries }

end SigState

structure Call where
  disp : DispatcherView
  args : List HostValue
  launchOk : Bool

def typeKey (args : List HostValue) : List PyClass := args.map pyClass

section
variable (attrs : Attributes)

def passes (args : List HostValue) (argtypes : List (Option NumbaType)) : List (Nat × ArrayCacheKey) → Option Bool
  | [] => some true
  | (idx, arrayKey) :: checks => do
    let arg ← args[idx]?
    let ty ← argtypes[idx]?.join
    let key ← arrayCacheKey attrs ty arg
    if key ≠ arrayKey then some false else passes args argtypes checks

def findEntry (args : List HostValue) : List ArrayEntry → Option (Option ArrayEntry)
  | [] => some none
  | e :: es => do
    if ← passes attrs args e.argtypes e.arrayChecks then some (some e) else findEntry args es

def arrayChecksFrom : (idx : Nat) → List HostValue → List (Option NumbaType) → Option (List (Nat × ArrayCacheKey))
  | idx, arg :: args, ty :: types =>
    if isArray ty then do
      let key ← ty.bind fun ty => arrayCacheKey attrs ty arg
      let rest ← arrayChecksFrom (idx + 1) args types
      pure ((idx, key) :: rest)
    else arrayChecksFrom (idx + 1) args types
  | _, _, _ => some []

def store (s : SigState) (c : Call) : SigState :=
  let key := typeKey c.args
  let argtypes := uncachedArgtypes c.disp c.args
  let allPassThrough := c.args.all (·.passThrough) && (coerceToOverload c.disp (deviceTypes c.args)).isNone
  let hasArrays := argtypes.any isArray
  if allPassThrough ∧ flatCounts c.args = c.args.length ∧ ¬ hasArrays then
    s.setSig key ⟨argtypes, true, c.args⟩
  else
    let s := s.addSig key ⟨argtypes, false, c.args⟩
    if hasArrays ∧ allPassThrough then
      match arrayChecksFrom attrs 0 c.args argtypes with
      | none => s
      | some checks =>
        let entries := s.arraySigCache key
        if entries.any fun e => e.arrayChecks = checks then s
        else
          -- `del entries[:-8]`
          let entries := entries ++ [⟨argtypes, checks, c.args⟩]
          s.setArrays key (entries.drop (entries.length - 8))
    else s

def launchCached (s : SigState) (c : Call) (argtypes : List (Option NumbaType)) : SigState :=
  { s with log := ⟨c.disp, c.args, argtypes⟩ :: s.log }

def launchUncached (s : SigState) (c : Call) : SigState := if c.launchOk then store attrs s c else s

def callImpl (s : SigState) (c : Call) : SigState :=
  match s.sigCache (typeKey c.args) with
  | none => launchUncached attrs s c
  | some e =>
    if e.fastOk then launchCached s c e.argtypes
    else
      match findEntry attrs c.args (s.arraySigCache (typeKey c.args)) with
      | none => s
      | some none => launchUncached attrs s c
      | some (some e) => launchCached s c e.argtypes

/-- A call always completes, or raises and leaves the caches as they are. -/
def step (s : SigState) (c : Call) : Option SigState := some (callImpl attrs s c)

end

end NumbaCudaMlir.SigCache

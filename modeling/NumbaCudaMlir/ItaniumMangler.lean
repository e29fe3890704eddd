import NumbaCudaMlir.Dtype

/-!
# Mangled names

Symbols of compiled functions: the Itanium mangling of an identifier and of the
types of its arguments, and what `generate_mangled_name` makes of a signature.
-/

namespace NumbaCudaMlir.Mangler

abbrev Text := List Char

/-- The keys of `N2CODE` other than `void`, which is `none`. -/
inductive Builtin where
  | boolean | uint8 | int8 | uint16 | int16 | uint32 | int32 | uint64 | int64
  | float16 | float32 | float64
  deriving DecidableEq, Repr

def Builtin.code : Builtin → Text
  | boolean => ['b']
  | uint8 => ['h']
  | int8 => ['a']
  | uint16 => ['t']
  | int16 => ['s']
  | uint32 => ['j']
  | int32 => ['i']
  | uint64 => ['y']
  | int64 => ['x']
  | float16 => ['D', 'h']
  | float32 => ['f']
  | float64 => ['d']

def voidCode : Text := ['v']

mutual

/-- A Numba type as the mangler reads it: its class's name where `mangling_args` names the class. -/
inductive MangledType where
  | builtin (b : Builtin)
  | none
  | omitted (name : Text)
  | numberClass (name : Text) (instanceType : MangledType)
  | array (cls : Text) (dtype : MangledType) (ndim : Nat) (layout : Text) (isMutable aligned : Bool)
  | uniTuple (cls : Text) (dtype : MangledType) (count : Nat)
  | tuple (cls : Text) (types : MangledTypes)
  | record (cls : Text) (code : Nat)
  -- every other type: its name, with no parameters
  | named (name : Text)
  deriving DecidableEq, Repr

inductive MangledTypes where
  | nil
  | cons (type : MangledType) (types : MangledTypes)
  deriving DecidableEq, Repr

end

def MangledTypes.ofList : List MangledType → MangledTypes
  | [] => nil
  | t :: ts => cons t (ofList ts)

def MangledTypes.toList : MangledTypes → List MangledType
  | nil => []
  | cons t ts => t :: ts.toList

/-! ## Escapes -/

/-- The characters `_re_invalid_char` does not match; without regard to case, four
letters outside ASCII equal one of its range. -/
def isValidChar (c : Char) : Bool :=
  c.isAlphanum || c == '_' || c ∈ [Char.ofNat 0x130, Char.ofNat 0x131, Char.ofNat 0x17F, Char.ofNat 0x212A]

def hexByte (b : UInt8) : Text :=
  if b.toNat < 16 then '0' :: Nat.toDigits 16 b.toNat else Nat.toDigits 16 b.toNat

def escapeChar (c : Char) : Text :=
  if isValidChar c then [c] else (String.utf8EncodeChar c).flatMap fun b => '_' :: hexByte b

def escapeString (text : Text) : Text := text.flatMap escapeChar

def fixLeadDigit : Text → Text
  | [] => []
  | c :: cs => if c.isDigit then '_' :: c :: cs else c :: cs

def lenEncoded (string : Text) : Text :=
  Nat.toDigits 10 (fixLeadDigit string).length ++ fixLeadDigit string

/-! ## Mangling -/

def mangleIdentifier (ident templateParams : Text) : Text :=
  let parts := (ident.splitOn '.').map fun x => lenEncoded (escapeString x)
  match parts with
  | [part] => part ++ templateParams
  | parts => 'N' :: (parts.flatten ++ templateParams ++ ['E'])

/-- `mangle_templated_ident`, of parameters already mangled. -/
def mangleTemplatedIdent (identifier : Text) (parameters : List Text) : Text :=
  mangleIdentifier identifier (if parameters.isEmpty then [] else 'I' :: (parameters.flatten ++ ['E']))

def mangleInt (n : Nat) : Text := 'L' :: 'i' :: (Nat.toDigits 10 n ++ ['E'])

def mangleStr (s : Text) : Text := mangleIdentifier s []

def mutability (isMutable : Bool) : Text := (if isMutable then "mutable" else "readonly").toList

def alignedness (aligned : Bool) : Text := (if aligned then "aligned" else "unaligned").toList

mutual

def mangleType : MangledType → Text
  | .builtin b => b.code
  | .none => voidCode
  | .omitted name => mangleTemplatedIdent name []
  | .numberClass name _ => mangleTemplatedIdent name []
  | .array cls dtype ndim layout isMutable aligned =>
    mangleTemplatedIdent cls [mangleType dtype, mangleInt ndim, mangleStr layout, mangleStr (mutability isMutable),
      mangleStr (alignedness aligned)]
  | .uniTuple cls dtype count => mangleTemplatedIdent cls [mangleType dtype, mangleInt count]
  | .tuple cls types => mangleTemplatedIdent cls (mangleTypes types)
  | .record cls code => mangleTemplatedIdent cls [mangleInt code]
  | .named name => mangleTemplatedIdent name []

def mangleTypes : MangledTypes → List Text
  | .nil => []
  | .cons t ts => mangleType t :: mangleTypes ts

end

def mangle (ident : Text) (argtys : List MangledType) : Text :=
  '_' :: 'Z' :: (mangleIdentifier ident [] ++ argtys.flatMap mangleType)

/-! ## Names of specialisations -/

def argtypeNormalization : MangledType → MangledType
  | .numberClass _ instanceType => instanceType
  | t => t

def generateMangledName (funcName : Text) (argtypes : List MangledType) : Text :=
  mangle funcName (argtypes.map argtypeNormalization)

def idSuffix (n : Nat) : Text := '_' :: Nat.toDigits 10 n

def isOmittedArg : MangledType → Bool
  | .omitted _ | .none => true
  | _ => false

def callArgtypes (foldedArgtypes : List MangledType) : List MangledType :=
  foldedArgtypes.filter (!isOmittedArg ·)

/-! ## Folding a call's arguments -/

inductive ParameterKind where
  | positionalOrKeyword | varPositional | keywordOnly
  deriving DecidableEq, Repr

/-- A parameter of a Python signature; `default` is the name of the type its default folds to. -/
structure Parameter where
  name : Text
  kind : ParameterKind
  default : Option Text
  deriving DecidableEq, Repr

/-- `StarArgTuple(values)`, which is a `StarArgUniTuple` where the values have one type. -/
def starArgTuple : List MangledType → MangledType
  | [] => .tuple "StarArgTuple".toList .nil
  | t :: ts =>
    if ts.all (· = t) then .uniTuple "StarArgUniTuple".toList t (ts.length + 1)
    else .tuple "StarArgTuple".toList (.ofList (t :: ts))

/-- A bundle that is itself one star argument is not wrapped again. -/
def starArgValues : List MangledType → List MangledType
  | [.tuple cls types] => if cls = "StarArgTuple".toList then types.toList else [.tuple cls types]
  | [.uniTuple cls dtype count] =>
    if cls = "StarArgUniTuple".toList then List.replicate count dtype else [.uniTuple cls dtype count]
  | values => values

def removeKeyword (name : Text) (kws : List (Text × MangledType)) : List (Text × MangledType) :=
  kws.filter (·.1 ≠ name)

/-- `fold_arguments` over the types of a call; `none` where the arguments do not bind. -/
def foldArguments : List Parameter → List MangledType → List (Text × MangledType) → Option (List MangledType)
  | [], [], [] => some []
  | [], _, _ => none
  | p :: ps, a :: as, kws =>
    match p.kind with
    | .positionalOrKeyword => if (kws.lookup p.name).isSome then none else (a :: ·) <$> foldArguments ps as kws
    | .varPositional => (starArgTuple (starArgValues (a :: as)) :: ·) <$> foldArguments ps [] kws
    | .keywordOnly => none
  | p :: ps, [], kws =>
    match p.kind, kws.lookup p.name, p.default with
    | .varPositional, _, _ => (starArgTuple [] :: ·) <$> foldArguments ps [] kws
    | _, some t, _ => (t :: ·) <$> foldArguments ps [] (removeKeyword p.name kws)
    | _, none, some d => (.omitted d :: ·) <$> foldArguments ps [] kws
    | _, none, none => none

end NumbaCudaMlir.Mangler

import Mathlib.Data.Rat.Defs
import Mathlib.Algebra.Order.Field.Rat
import Mathlib.Algebra.Order.Group.Unbundled.Abs

/-!
# Values and their storage

A data model says which type the values of a Numba type have in a function, in
memory, as arguments and as results, and converts between them: scalars by
`value_to_storage` and `storage_to_value`, structs and tuples member by member.
-/

namespace NumbaCudaMlir.StorageConversion

/-! ## Types -/

inductive SpecialFloat where
  | f4E2M1FN | f6E2M3FN | f6E3M2FN | f8E3M4 | f8E4M3B11FNUZ | f8E4M3FN | f8E4M3FNUZ | f8E4M3 | f8E5M2FNUZ | f8E5M2 | f8E8M0FNU
  deriving DecidableEq

inductive FloatType where
  | f16 | bf16 | f32 | f64 | tf32
  | special (f : SpecialFloat)
  deriving DecidableEq

def FloatType.width : FloatType → Nat
  | f16 | bf16 => 16
  | f32 => 32
  | f64 => 64
  | tf32 => 19
  | special .f4E2M1FN => 4
  | special .f6E2M3FN | special .f6E3M2FN => 6
  | special _ => 8

inductive ScalarType where
  | int (width : Nat)
  | float (f : FloatType)
  deriving DecidableEq

def ScalarType.width : ScalarType → Nat
  | int width => width
  | float f => f.width

/-- An MLIR type, or a Python tuple of them. -/
inductive ReprType where
  | scalar (t : ScalarType)
  | struct (members : List ReprType)
  | tuple (members : List ReprType)

mutual

def ReprType.decEq : (a b : ReprType) → Decidable (a = b)
  | scalar t, scalar u => decidable_of_iff (t = u) ⟨fun h => by rw [h], fun h => ReprType.scalar.inj h⟩
  | struct ts, struct us => @decidable_of_iff _ (ts = us) ⟨fun h => by rw [h], fun h => ReprType.struct.inj h⟩ (ReprType.decEqs ts us)
  | tuple ts, tuple us => @decidable_of_iff _ (ts = us) ⟨fun h => by rw [h], fun h => ReprType.tuple.inj h⟩ (ReprType.decEqs ts us)
  | scalar _, struct _ | scalar _, tuple _ | struct _, scalar _ | struct _, tuple _ | tuple _, scalar _ | tuple _, struct _ =>
    isFalse nofun

def ReprType.decEqs : (as bs : List ReprType) → Decidable (as = bs)
  | [], [] => isTrue rfl
  | a :: as, b :: bs => @decidable_of_iff _ (a = b ∧ as = bs) (List.cons.injEq a as b bs ▸ Iff.rfl)
      (@instDecidableAnd _ _ (ReprType.decEq a b) (ReprType.decEqs as bs))
  | [], _ :: _ | _ :: _, [] => isFalse nofun

end

instance : DecidableEq ReprType := ReprType.decEq

inductive Fp8 where
  | e5m2 | e4m3 | e8m0
  deriving DecidableEq

def Fp8.mlir : Fp8 → FloatType
  | e5m2 => .special .f8E5M2
  | e4m3 => .special .f8E4M3FN
  | e8m0 => .special .f8E8M0FNU

/-- The scalars of Numba; the two types for bfloat16 are treated alike. -/
inductive Kind where
  | boolean
  | integer (bitwidth : Nat)
  | float16 | float32 | float64
  | bf16
  | special (f : SpecialFloat)
  | tf32
  | fp8 (f : Fp8)
  deriving DecidableEq

/-- A struct has a model that is a `StructModel`. -/
inductive Ty where
  | scalar (k : Kind)
  | struct (members : List Ty)
  | tuple (members : List Ty)

/-! ## Models -/

def Kind.valueType : Kind → ScalarType
  | boolean => .int 1
  | integer w => .int w
  | float16 => .float .f16
  | float32 => .float .f32
  | float64 => .float .f64
  | bf16 => .float .bf16
  | special f => .float (.special f)
  | tf32 => .float .tf32
  | fp8 f => .float f.mlir

def Kind.dataType : Kind → ScalarType
  | boolean => .int 8
  | integer w => .int w
  | float16 => .int 16
  | float32 => .float .f32
  | float64 => .float .f64
  | bf16 => .int 16
  | special _ => .int 8
  | tf32 => .int 32
  | fp8 _ => .int 8

def ReprType.isMlir : ReprType → Bool
  | tuple _ => false
  | _ => true

def getLiteral (members : List ReprType) : Option ReprType := if members.all ReprType.isMlir then some (.struct members) else none

mutual

/-- The type that a model puts together from those of its members. -/
def Ty.reprType (scalarType : Kind → ScalarType) : Ty → Option ReprType
  | scalar k => some (.scalar (scalarType k))
  | struct ms => (Ty.reprTypes scalarType ms).bind getLiteral
  | tuple ms => (Ty.reprTypes scalarType ms).map .tuple

def Ty.reprTypes (scalarType : Kind → ScalarType) : List Ty → Option (List ReprType)
  | [] => some []
  | m :: ms => (m.reprType scalarType).bind fun t => (Ty.reprTypes scalarType ms).map (t :: ·)

end

def Ty.getValueType : Ty → Option ReprType := Ty.reprType Kind.valueType

def Ty.getDataType : Ty → Option ReprType := Ty.reprType Kind.dataType

mutual

def Ty.getArgumentType : Ty → Option ReprType
  | scalar k => (scalar k).getValueType
  | struct ms => (struct ms).getDataType
  | tuple ms => (Ty.getArgumentTypes ms).map .tuple

def Ty.getArgumentTypes : List Ty → Option (List ReprType)
  | [] => some []
  | m :: ms => m.getArgumentType.bind fun t => (Ty.getArgumentTypes ms).map (t :: ·)

end

def Ty.getReturnType : Ty → Option ReprType := Ty.getDataType

/-! ## Values -/

inductive Value where
  | scalar (t : ScalarType) (bits : BitVec t.width)
  | struct (fields : List Value)
  | tuple (items : List Value)

mutual

def Value.type : Value → ReprType
  | scalar t _ => .scalar t
  | struct fields => .struct (Value.types fields)
  | tuple items => .tuple (Value.types items)

def Value.types : List Value → List ReprType
  | [] => []
  | v :: vs => v.type :: Value.types vs

end

def Value.mlirType (v : Value) : Option ReprType := if v.type.isMlir then some v.type else none

/-- The number of a pattern, in the formats of the CUDA headers. -/
def FloatType.number (f : FloatType) (b : Nat) : Option Rat :=
  let sign : Rat := if b / 128 = 1 then -1 else 1
  match f with
  | special .f8E5M2 =>
    let e := b / 4 % 32
    let m := b % 4
    if e = 31 then none else some (sign * if e = 0 then (m : Rat) / 2 ^ 16 else ((4 + m : Nat) : Rat) * 2 ^ e / 2 ^ 17)
  | special .f8E4M3FN =>
    let e := b / 8 % 16
    let m := b % 8
    if e = 15 ∧ m = 7 then none else some (sign * if e = 0 then (m : Rat) / 2 ^ 9 else ((8 + m : Nat) : Rat) * 2 ^ e / 2 ^ 10)
  | special .f8E8M0FNU => if b = 255 then none else some (2 ^ b / 2 ^ 127)
  | _ => none

/-- The conversions between numbers of `arith`. The one to an integer rounds towards zero. -/
structure Arith where
  fptosi : (f : FloatType) → (w : Nat) → BitVec f.width → BitVec w
  isNonzero : (f : FloatType) → BitVec f.width → Bool
  sitofp : (w : Nat) → (f : FloatType) → BitVec w → BitVec f.width
  uitofp : (w : Nat) → (f : FloatType) → BitVec w → BitVec f.width
  castFloat : (f g : FloatType) → BitVec f.width → BitVec g.width
  fptosi_small : ∀ f w b q, f.number b.toNat = some q → |q| < 1 → fptosi f w b = 0

/-! ## Operations -/

def bitcast (out : ScalarType) : Value → Option Value
  | .scalar t bits => if t.width = out.width then some (.scalar out (bits.setWidth out.width)) else none
  | _ => none

def extui (width : Nat) : Value → Option Value
  | .scalar (.int w) bits => if w < width then some (.scalar (.int width) (BitVec.setWidth width bits)) else none
  | _ => none

def trunci (width : Nat) : Value → Option Value
  | .scalar (.int w) bits => if width < w then some (.scalar (.int width) (BitVec.setWidth width bits)) else none
  | _ => none

def isTrue (b : Bool) : Value := .scalar (.int 1) (BitVec.ofBool b)

def cmpNe : Value → Option Value
  | .scalar (.int w) bits => some (isTrue ((bits : BitVec w) != 0))
  | _ => none

section
variable (ops : Arith)

/-- `convert` without a sign, which raises on a struct or a tuple of another type. -/
def convert (v : Value) (target : ReprType) : Option Value :=
  if v.mlirType = some target then some v
  else
    match v, target with
    | .scalar (.int w) bits, .scalar (.int w') =>
      if w' < w then if w' = 1 then cmpNe v else trunci w' v
      else if w < w' then extui w' v
      else some (.scalar (.int w) bits)
    | .scalar (.float f) bits, .scalar (.int w) =>
      if w = 1 then some (isTrue (ops.isNonzero f bits)) else some (.scalar (.int w) (ops.fptosi f w bits))
    | .scalar (.int w) bits, .scalar (.float f) =>
      some (.scalar (.float f) (if 1 < w then ops.sitofp w f bits else ops.uitofp w f bits))
    | .scalar (.float f) bits, .scalar (.float g) => some (.scalar (.float g) (ops.castFloat f g bits))
    | _, _ => none

def SpecialFloat.bitwidth : SpecialFloat → Nat
  | f4E2M1FN => 4
  | f6E2M3FN | f6E3M2FN => 6
  | _ => 8

def Kind.bitwidth : Kind → Nat
  | boolean => 1
  | integer w => w
  | float16 | bf16 => 16
  | float32 => 32
  | float64 => 64
  | special f => f.bitwidth
  | tf32 => 18
  | fp8 _ => 8

def Kind.isFloatStorage : Kind → Bool
  | float16 | float32 | float64 | bf16 | special _ | tf32 => true
  | _ => false

/-- The rest of `value_to_storage`, for a scalar whose storage is of another type. -/
def scalarToStorage (k : Kind) (value : Value) : Option Value :=
  match k.dataType with
  | .int width =>
    if k = .boolean then (convert ops value (.scalar (.int 1))).bind (extui width)
    else if k.isFloatStorage then
      (bitcast (.int k.bitwidth) value).bind fun bits =>
        if k.bitwidth = width then some bits
        else if k.bitwidth < width then extui width bits
        else trunci width bits
    else convert ops value (.scalar (.int width))
  | storageType => convert ops value (.scalar storageType)

def storageToScalar (k : Kind) (value : Value) : Option Value :=
  match k.dataType with
  | .int width =>
    if k = .boolean then cmpNe value
    else if k.isFloatStorage then
      let bits :=
        if k.bitwidth < width then trunci k.bitwidth value
        else if width < k.bitwidth then extui k.bitwidth value
        else some value
      bits.bind (bitcast k.valueType)
    else convert ops value (.scalar k.valueType)
  | _ => convert ops value (.scalar k.valueType)

def valueToStorage (ty : Ty) (value : Value) : Option Value := do
  let storageType ← ty.getDataType
  let valueType ← ty.getValueType
  if value.mlirType = some storageType ∧ valueType = storageType then return value
  let value ← if value.mlirType = some valueType then some value else convert ops value valueType
  if valueType = storageType then return value
  match ty with
  | .scalar k => scalarToStorage ops k value
  | _ => convert ops value storageType

def storageToValue (ty : Ty) (value : Value) : Option Value := do
  let storageType ← ty.getDataType
  let valueType ← ty.getValueType
  if value.mlirType = some valueType ∧ valueType = storageType then return value
  let value ← if value.mlirType = some storageType then some value else convert ops value storageType
  if valueType = storageType then return value
  match ty with
  | .scalar k => storageToScalar ops k value
  | _ => convert ops value valueType

end

/-! ## Members -/

mutual

def ReprType.compatible (takes : FloatType → Bool) : ReprType → Bool
  | scalar (.int _) => true
  | scalar (.float f) => takes f
  | struct members => ReprType.allCompatible takes members
  | tuple _ => false

def ReprType.allCompatible (takes : FloatType → Bool) : List ReprType → Bool
  | [] => true
  | t :: ts => t.compatible takes && ReprType.allCompatible takes ts

end

/-- `llvm.extractvalue` has the type that it is given, which the field has to have. -/
def extractvalue (takes : FloatType → Bool) (res : ReprType) (field : Value) : Option Value :=
  if field.type = res ∧ res.compatible takes then some field else none

/-- `llvm.insertvalue` takes the type of the member only. -/
def insertvalue (takes : FloatType → Bool) (member : ReprType) (value : Value) : Option Value :=
  if value.type = member ∧ member.compatible takes then some value else none

section
variable (takes : FloatType → Bool) (scalar : Kind → Value → Option Value) (source target : Kind → ScalarType)

mutual

/-- `_as` and `_from`: a model converts members with their own models. Every field
of the undefined struct is set once. -/
def Ty.convertMembers : Ty → Value → Option Value
  | .scalar k, value => scalar k value
  | .struct ms, .struct fields => do
    let out ← (Ty.struct ms).reprType target
    if out.compatible takes then
      let converted ← Ty.convertFields ms fields
      return .struct converted
    else none
  | .tuple ms, .tuple items => (Ty.convertItems ms items).map .tuple
  | _, _ => none

def Ty.convertFields : List Ty → List Value → Option (List Value)
  | [], _ => some []
  | m :: ms, v :: vs => do
    let res ← m.reprType source
    let member ← m.reprType target
    let field ← extractvalue takes res v
    let converted ← m.convertMembers field
    let converted ← insertvalue takes member converted
    let rest ← Ty.convertFields ms vs
    return converted :: rest
  | _ :: _, [] => none

/-- `zip` ends with the shorter list. -/
def Ty.convertItems : List Ty → List Value → Option (List Value)
  | m :: ms, v :: vs => do
    let converted ← m.convertMembers v
    let rest ← Ty.convertItems ms vs
    return converted :: rest
  | _, _ => some []

end

end

/-! ## Conversions -/

section
variable (ops : Arith) (takes : FloatType → Bool)

def asData : Ty → Value → Option Value :=
  Ty.convertMembers takes (fun k => valueToStorage ops (.scalar k)) Kind.valueType Kind.dataType

def fromData : Ty → Value → Option Value :=
  Ty.convertMembers takes (fun k => storageToValue ops (.scalar k)) Kind.dataType Kind.valueType

mutual

/-- Arguments: a tuple is taken apart, a struct is converted as a whole. -/
def Ty.convertArgument (struct : Ty → Value → Option Value) : Ty → Value → Option Value
  | .scalar k, value => convert ops value (.scalar k.valueType)
  | .struct ms, value => struct (.struct ms) value
  | .tuple ms, .tuple items => (Ty.convertArguments struct ms items).map .tuple
  | .tuple _, _ => none

def Ty.convertArguments (struct : Ty → Value → Option Value) : List Ty → List Value → Option (List Value)
  | m :: ms, v :: vs => do
    let converted ← m.convertArgument struct v
    let rest ← Ty.convertArguments struct ms vs
    return converted :: rest
  | _, _ => some []

end

def asArgument : Ty → Value → Option Value := Ty.convertArgument ops (asData ops takes)

def fromArgument : Ty → Value → Option Value := Ty.convertArgument ops (fromData ops takes)

def asReturn : Ty → Value → Option Value := asData ops takes

def fromReturn : Ty → Value → Option Value := fromData ops takes

end

end NumbaCudaMlir.StorageConversion

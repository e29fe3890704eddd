import NumbaCudaMlir.Convert

/-!
# Truth values

A number is tested for truth by several helpers: the conversion to `i1`, a comparison
with zero for `not`, and the element tests of the reductions and of the logical ufuncs.
-/

namespace NumbaCudaMlir.TruthValue

open MachineInt BinaryFloat

/-! ## Values -/

inductive FloatType where
  | float16 | bfloat16 | float32 | float64
  deriving DecidableEq, Repr

def FloatType.format : FloatType → Format
  | float16 => binary16
  | bfloat16 => BinaryFloat.bfloat16
  | float32 => binary32
  | float64 => binary64

def FloatType.width : FloatType → Nat
  | float16 | bfloat16 => 16
  | float32 => 32
  | float64 => 64

inductive ScalarType where
  | boolean
  | integer (t : IntType)
  | float (f : FloatType)
  | complex (f : FloatType)
  deriving DecidableEq, Repr

inductive Scalar where
  | boolean (x : BitVec 1)
  | integer (t : IntType) (x : BitVec t.bits)
  | float (f : FloatType) (x : BinaryFloat.Value)
  | complex (f : FloatType) (re im : BinaryFloat.Value)

inductive MlirType where
  | int (bits : Nat)
  | float (f : FloatType)
  | complex (f : FloatType)
  deriving DecidableEq, Repr

inductive MlirValue where
  | int (bits : Nat) (x : BitVec bits)
  | float (f : FloatType) (x : BinaryFloat.Value)
  | complex (f : FloatType) (re im : BinaryFloat.Value)

def ScalarType.toMlir : ScalarType → MlirType
  | boolean => .int 1
  | integer t => .int t.bits
  | float f => .float f
  | complex f => .complex f

def Scalar.load : Scalar → MlirValue
  | boolean x => .int 1 x
  | integer t x => .int t.bits x
  | float f x => .float f x
  | complex f re im => .complex f re im

/-- `get_conversion_signedness` to the boolean type. -/
def Scalar.signedness : Scalar → Option Bool
  | integer t _ => some t.signed
  | boolean _ | float .. | complex .. => some false

/-! ## Conversion -/

/-- `arith.extf`, which is exact, and `arith.truncf`; formats of one width meet in `f32`. -/
def convertFloat (f g : FloatType) (x : BinaryFloat.Value) : BinaryFloat.Value :=
  if f = g ∨ f.width < g.width then x
  else
    match x with
    | .finite q => ofRat g.format q
    | .infinity negative => .infinity negative
    | .nan => .nan

def convert (signed : Option Bool) : MlirValue → MlirType → Option MlirValue
  | .int _ x, .int v => some (.int v (convertInteger signed v x))
  | .int _ x, .float f => some (.float f (convertIntegerToFloat signed f.format x))
  | .int _ x, .complex f => some (.complex f (convertIntegerToFloat signed f.format x) (.finite 0))
  | .float _ x, .int v => (convertFloatToInteger signed v x).map (.int v)
  | .float f x, .float g => some (.float g (convertFloat f g x))
  | .float f x, .complex g => some (.complex g (convertFloat f g x) (.finite 0))
  | .complex f re im, .complex g => some (.complex g (convertFloat f g re) (convertFloat f g im))
  -- the real part keeps its own width
  | .complex f re _, .float _ => some (.float f re)
  | .complex .., .int _ => none

/-! ## Tests -/

inductive CmpFPredicate where
  | UEQ | UNE | ONE
  deriving DecidableEq, Repr

def cmpf (p : CmpFPredicate) (x y : BinaryFloat.Value) : Bool :=
  let unordered := x = .nan ∨ y = .nan
  match p with
  | .UEQ => unordered ∨ x = y
  | .UNE => unordered ∨ x ≠ y
  | .ONE => ¬unordered ∧ x ≠ y

def valueIsNonzero : MlirValue → Bool
  | .int _ x => x != 0
  | .float _ x => cmpf .UNE x (.finite 0)
  | .complex _ re im => cmpf .UNE re (.finite 0) || cmpf .UNE im (.finite 0)

/-- `_to_bool`; `complex.neq` is unordered. -/
def toBool : MlirValue → Bool
  | .int _ x => x != 0
  | .float _ x => cmpf .ONE x (.finite 0)
  | .complex _ re im => cmpf .UNE re (.finite 0) || cmpf .UNE im (.finite 0)

/-- `equal(operand, constant(0, operand.type))`, which has no case for complex numbers. -/
def lowerNot : MlirValue → Option Bool
  | .int _ x => some (x == 0)
  | .float _ x => some (cmpf .UEQ x (.finite 0))
  | .complex .. => none

/-- The bit of a value of type `i1`. -/
def MlirValue.bit : MlirValue → Option Bool
  | int 1 x => some (x != 0)
  | _ => none

/-- `type_convert` and `lower_cast` to the boolean type. -/
def convertToBoolean (x : Scalar) : Option Bool := (convert x.signedness x.load (.int 1)).bind MlirValue.bit

/-- The places that ask for the truth value of a number; an output array has a dtype. -/
inductive Route where
  | bool
  /-- `if`, `while`, `and` and `or` branch on `bool(x)`. -/
  | branch
  | not
  | any | all
  | logicalBinary | logicalBinaryOut (dtype : ScalarType) | logicalBinaryScalar
  | logicalNot | logicalNotOut (dtype : ScalarType) | logicalNotScalar
  | assign
  deriving DecidableEq, Repr

/-- The truth value that a place uses; none where the number has no lowering there, or no value. -/
def Route.truth (x : Scalar) : Route → Option Bool
  | bool | branch | assign => convertToBoolean x
  | not => (lowerNot x.load).map (!·)
  | any | all => some (valueIsNonzero x.load)
  -- without an output array the result is boolean, and the operands are converted to its type first
  | logicalBinary => (convert none x.load (.int 1)).map toBool
  | logicalBinaryOut dtype | logicalNotOut dtype => (convert none x.load dtype.toMlir).map toBool
  | logicalBinaryScalar | logicalNot | logicalNotScalar => some (toBool x.load)

/-! ## The truth value -/

/-- A number is false exactly where it is zero. -/
def Scalar.truth : Scalar → Bool
  | boolean x => x ≠ 0
  | integer _ x => x ≠ 0
  | float _ x => x ≠ .finite 0
  | complex _ re im => re ≠ .finite 0 ∨ im ≠ .finite 0

/-- The rounding to a format takes no number other than zero to zero. -/
def KeepsNonzero (f g : FloatType) (x : BinaryFloat.Value) : Prop :=
  x = .finite 0 ∨ convertFloat f g x ≠ .finite 0

instance (f g : FloatType) (x : BinaryFloat.Value) : Decidable (KeepsNonzero f g x) := inferInstanceAs (Decidable (_ ∨ _))

/-- The conversion to an output's dtype that comes before the test keeps the truth value. -/
def KeptBy : ScalarType → Scalar → Prop
  | .integer t, .integer _ x => x = 0 ∨ x.toNat % 2 ^ t.bits ≠ 0
  | .integer t, .float _ (.finite q) => q = 0 ∨ InRange true t.bits (q.num.tdiv q.den) ∧ 1 ≤ |q|
  | .integer _, .float _ (.infinity _) | .integer _, .float _ .nan => False
  | .float g, .float f x => x ≠ .nan ∧ KeepsNonzero f g x
  | .complex g, .float f x => KeepsNonzero f g x
  | .float _, .complex _ re im => re ≠ .nan ∧ (re = .finite 0 → im = .finite 0)
  | .complex g, .complex f re im =>
    (re = .finite 0 ∧ im = .finite 0) ∨ convertFloat f g re ≠ .finite 0 ∨ convertFloat f g im ≠ .finite 0
  | .boolean, .complex .. | .integer _, .complex .. => False
  | _, .boolean _ | .boolean, _ | .float _, .integer .. | .complex _, .integer .. => True

def IsNaN : Scalar → Prop
  | .float _ x => x = .nan
  | _ => False

def IsComplex : Scalar → Prop
  | .complex .. => True
  | _ => False

def Route.Agrees (x : Scalar) : Route → Prop
  | bool | branch | assign | logicalBinary => ¬IsComplex x
  | not => ¬IsComplex x ∧ ¬IsNaN x
  | any | all => True
  | logicalBinaryOut dtype | logicalNotOut dtype => KeptBy dtype x
  | logicalBinaryScalar | logicalNot | logicalNotScalar => ¬IsNaN x

end NumbaCudaMlir.TruthValue

import NumbaCudaMlir.MachineInt

/-!
# Types of operators on numbers

Numba picks the signature of an operator among those of its template: the one
whose arguments are reached by the fewest unsafe, then the fewest safe
conversions and promotions, and the first of those that tie.
-/

namespace NumbaCudaMlir

namespace NumberTyping

open MachineInt

inductive NumberType where
  | boolean
  | integer (ty : IntType)
  | float32 | float64
  | complex64 | complex128
  deriving DecidableEq, Repr

def signedDomain : List NumberType := [Width.w8, .w16, .w32, .w64].map fun w => .integer ⟨true, w⟩

def unsignedDomain : List NumberType := [Width.w8, .w16, .w32, .w64].map fun w => .integer ⟨false, w⟩

def realDomain : List NumberType := [.float32, .float64]

def complexDomain : List NumberType := [.complex64, .complex128]

abbrev int64 : IntType := ⟨true, .w64⟩

abbrev uint64 : IntType := ⟨false, .w64⟩

/-! ## Conversions -/

inductive Conversion where
  | exact | promote | safe | unsafeConvert
  deriving DecidableEq, Repr

def convertInteger (a b : IntType) : Conversion :=
  if a = b then .exact
  else if a.signed = b.signed ∧ a.bits < b.bits then .promote
  else if a.signed = false ∧ b.signed = true ∧ a.bits < b.bits then .safe
  else .unsafeConvert

/-- A boolean or an integer converted, by the best chain of the casting rules;
a chain is as good as its worst rule. -/
def canConvert : NumberType → NumberType → Option Conversion
  | .boolean, .boolean => some .exact
  | .boolean, _ => some .safe
  | .integer _, .boolean => some .unsafeConvert
  | .integer a, .integer b => some (convertInteger a b)
  | .integer _, .float64 | .integer _, .complex128 => some .safe
  | .integer a, .float32 | .integer a, .complex64 =>
    -- By way of `int16`.
    some (if a.bits ≤ 8 ∨ a = ⟨true, .w16⟩ then .safe else .unsafeConvert)
  | _, _ => none

/-! ## Overloads -/

structure Signature where
  returnType : NumberType
  args : NumberType × NumberType
  deriving DecidableEq

structure Rating where
  unsafeConverts : Nat
  safeConverts : Nat
  promotes : Nat
  deriving DecidableEq

def Rating.count (r : Rating) : Conversion → Rating
  | .exact => r
  | .promote => { r with promotes := r.promotes + 1 }
  | .safe => { r with safeConverts := r.safeConverts + 1 }
  | .unsafeConvert => { r with unsafeConverts := r.unsafeConverts + 1 }

def Rating.better (a b : Rating) : Bool :=
  a.unsafeConverts < b.unsafeConverts ∨ a.unsafeConverts = b.unsafeConverts ∧
    (a.safeConverts < b.safeConverts ∨ a.safeConverts = b.safeConverts ∧ a.promotes < b.promotes)

def rateArguments (unsafeCasting : Bool) (actual formal : NumberType × NumberType) : Option Rating := do
  let first ← canConvert actual.1 formal.1
  let second ← canConvert actual.2 formal.2
  if !unsafeCasting ∧ (first = .unsafeConvert ∨ second = .unsafeConvert) then none
  else some (((⟨0, 0, 0⟩ : Rating).count first).count second)

def best : List (Rating × Signature) → Option (Rating × Signature)
  | [] => none
  | c :: cs =>
    match best cs with
    | none => some c
    | some d => if d.1.better c.1 then some d else some c

def resolveOverload (unsafeCasting : Bool) (cases : List Signature) (args : NumberType × NumberType) : Option Signature :=
  (best (cases.filterMap fun case => (rateArguments unsafeCasting args case.args).map (·, case))).map (·.2)

/-! ## Templates -/

inductive BinOp where
  | add | sub | mul | floordiv | mod | pow | lshift | rshift | and_ | or_ | xor
  | eq | ne | lt | le | gt | ge
  deriving DecidableEq, Repr

def machineInts : List IntType := [int64, uint64]

def chooseResultInt (a b : IntType) : NumberType := .integer ⟨a.signed || b.signed, .w64⟩

def maxWidth (a b : IntType) : Width := if a.bits < b.bits then b.width else a.width

def chooseResultIntBitwise (a b : IntType) : NumberType := .integer ⟨a.signed || b.signed, maxWidth a b⟩

def allIntegerTypes : List IntType :=
  ([Width.w8, .w16, .w32, .w64].map fun w => ⟨true, w⟩) ++ [Width.w8, .w16, .w32, .w64].map fun w => ⟨false, w⟩

def integerBinopCases : List Signature :=
  machineInts.flatMap fun a => machineInts.map fun b => ⟨chooseResultInt a b, (.integer a, .integer b)⟩

def integerBitwiseCases : List Signature :=
  allIntegerTypes.flatMap fun a => allIntegerTypes.map fun b => ⟨chooseResultIntBitwise a b, (.integer a, .integer b)⟩

/-- The signatures of an operator on two values of one type. -/
def same (types : List NumberType) : List Signature := types.map fun ty => ⟨ty, (ty, ty)⟩

def comparing (types : List NumberType) : List Signature := types.map fun ty => ⟨.boolean, (ty, ty)⟩

def floatByInteger (ty : NumberType) : List Signature :=
  [(⟨true, .w32⟩ : IntType), int64, uint64].map fun e => ⟨ty, (ty, .integer e)⟩

def shiftCases : List Signature :=
  allIntegerTypes.flatMap fun a => [uint64, int64].map fun b => ⟨.integer ⟨a.signed, .w64⟩, (.integer a, .integer b)⟩

def orderedCmpCases : List Signature := comparing ([.boolean] ++ signedDomain ++ unsignedDomain ++ realDomain)

/-- The `cases` of the template of an operator. -/
def BinOp.templateCases : BinOp → List Signature
  | .add | .sub | .mul => integerBinopCases ++ same realDomain ++ same complexDomain
  | .mod | .floordiv => integerBinopCases ++ same realDomain
  | .pow => integerBinopCases ++ floatByInteger .float32 ++ floatByInteger .float64 ++ same realDomain ++ same complexDomain
  | .lshift | .rshift => shiftCases
  | .and_ | .or_ | .xor => comparing [.boolean] ++ integerBitwiseCases
  | .eq | .ne => orderedCmpCases ++ comparing complexDomain
  | .lt | .le | .gt | .ge => orderedCmpCases

def BinOp.unsafeCasting : BinOp → Bool
  | .lshift | .rshift | .and_ | .or_ | .xor => false
  | _ => true

def resolveFunctionType (op : BinOp) (lhs rhs : NumberType) : Option Signature :=
  resolveOverload op.unsafeCasting op.templateCases (lhs, rhs)

/-! ## What is resolved -/

inductive OperandType where
  | boolean
  | integer (ty : IntType)
  deriving DecidableEq, Repr

def OperandType.number : OperandType → NumberType
  | boolean => .boolean
  | integer ty => .integer ty

/-- The width of a value; a boolean is an `i1`. -/
def OperandType.width : OperandType → Nat
  | boolean => 1
  | integer ty => ty.bits

def OperandType.signed : OperandType → Bool
  | boolean => false
  | integer ty => ty.signed

def OperandType.isUnsigned : OperandType → Bool
  | boolean => true
  | integer ty => !ty.signed

end NumberTyping

end NumbaCudaMlir

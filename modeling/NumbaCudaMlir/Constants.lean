import NumbaCudaMlir.Convert

/-!
# Integer constants

An integer constant reaches a kernel as a literal, a global, a closure variable
or an argument that is fixed by its type or left to its default. Each route
makes its own `arith.constant` of it.
-/

namespace NumbaCudaMlir.Constants

open CInt MachineInt

/-- An integer that Python holds; a NumPy integer is given by its bits. -/
inductive PyConst where
  | int (v : Int)
  | bool (b : Bool)
  | npInteger (t : IntType) (x : BitVec t.bits)
  | npBool (b : Bool)

def PyConst.value : PyConst → Int
  | int v => v
  | bool b | npBool b => b.toInt
  | npInteger t x => MachineInt.value t.signed x

inductive ScalarType where
  | boolean
  | integer (t : IntType)
  deriving DecidableEq, Repr

def ScalarType.bits : ScalarType → Nat
  | boolean => 1
  | integer t => t.bits

def int64 : IntType := ⟨true, .w64⟩

def uint64 : IntType := ⟨false, .w64⟩

/-- `typeof`; a Python integer takes 64 bits or has no type. -/
def PyConst.typeof : PyConst → Option ScalarType
  | int v => if InInt64 v then some (.integer int64) else if InUInt64 v then some (.integer uint64) else none
  | bool _ | npBool _ => some .boolean
  | npInteger t _ => some (.integer t)

inductive Const where
  | scalar (c : PyConst)
  | tuple (items : List Const)

inductive ConstType where
  | scalar (t : ScalarType)
  | tuple (types : List ConstType)

mutual

def typeof : Const → Option ConstType
  | .scalar c => c.typeof.map .scalar
  | .tuple items => (typeofAll items).map .tuple

def typeofAll : List Const → Option (List ConstType)
  | [] => some []
  | c :: cs => do
    let t ← typeof c
    let ts ← typeofAll cs
    return t :: ts

end

/-! ## Lowered constants -/

/-- What a variable holds once its constant is lowered. -/
inductive Lowered where
  | value (bits : Nat) (x : BitVec bits)
  | tuple (items : List Lowered)

def arithConstant (bits : Nat) (v : Int) : Option Lowered := (integerAttr bits v).map (.value bits)

/-- The branch for scalars of `lower_const_assign`. -/
def constScalar (t : ScalarType) (c : PyConst) : Option Lowered :=
  let value := c.value
  match t with
  | .boolean => arithConstant t.bits value
  | .integer ty =>
    if ty.signed = false ∧ 2 ^ (ty.bits - 1) ≤ value then arithConstant t.bits (value - 2 ^ ty.bits)
    else arithConstant t.bits value

/-- An element of a constant tuple, which `arith.constant` takes as it is: it
has no use for a NumPy scalar or for a tuple. -/
def constElement : ConstType → Const → Option Lowered
  | .scalar t, .scalar (.int v) => arithConstant t.bits v
  | .scalar t, .scalar (.bool b) => arithConstant t.bits b.toInt
  | _, _ => none

def constElements : List ConstType → List Const → Option (List Lowered)
  | t :: ts, c :: cs => do
    let l ← constElement t c
    let ls ← constElements ts cs
    return l :: ls
  | _, _ => some []

def lowerConstAssign : ConstType → Const → Option Lowered
  | .scalar t, .scalar c => constScalar t c
  | .tuple ts, .tuple cs => (constElements ts cs).map .tuple
  | _, _ => none

/-- `lower_literal_if_needed` on a Python or NumPy scalar, whatever type the variable has. -/
def literalScalar : PyConst → Option Lowered
  | .int v => arithConstant 64 v
  | .bool b | .npBool b => arithConstant 1 b.toInt
  | .npInteger t x => arithConstant t.bits (MachineInt.value t.signed x)

mutual

def lowerLiteralIfNeeded : Const → Option Lowered
  | .scalar c => literalScalar c
  | .tuple cs => (lowerLiteralsIfNeeded cs).map .tuple

def lowerLiteralsIfNeeded : List Const → Option (List Lowered)
  | [] => some []
  | c :: cs => do
    let l ← lowerLiteralIfNeeded c
    let ls ← lowerLiteralsIfNeeded cs
    return l :: ls

end

/-- A tuple is stored as it is, and lowered when it is loaded. -/
def lowerGlobalAssign : ConstType → Const → Option Lowered
  | .scalar t, .scalar c => arithConstant t.bits c.value
  | _, c => lowerLiteralIfNeeded c

/-- The Python object itself is stored. -/
def lowerFreeVarAssign (_ : ConstType) (c : Const) : Option Lowered := lowerLiteralIfNeeded c

inductive Path where
  | literal | global | freeVar | literalArg | omittedArg
  deriving DecidableEq, Repr

/-- The lowering of the constant on its path, with the load that follows it. -/
def lower : Path → ConstType → Const → Option Lowered
  | .literal => lowerConstAssign
  | .global => lowerGlobalAssign
  | .freeVar => lowerFreeVarAssign
  | .literalArg => lowerConstAssign
  | .omittedArg => fun _ => lowerLiteralIfNeeded

end NumbaCudaMlir.Constants

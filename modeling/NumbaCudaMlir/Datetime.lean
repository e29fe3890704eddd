import NumbaCudaMlir.Convert
import NumbaCudaMlir.SignedDivision

/-!
# Dates and durations

`datetime64` and `timedelta64` are 64-bit integers. Operands of different units
are multiplied by the factor to the unit of the result, where there is one.
-/

namespace NumbaCudaMlir.Datetime

open MachineInt ArithOps

/-! ## Units -/

inductive DatetimeUnit where
  | year | month | week | day | hour | minute | second | milli | micro | nano | pico | femto | atto | generic
  deriving DecidableEq, Repr

def DatetimeUnit.code : DatetimeUnit → Nat
  | year => 0
  | month => 1
  | week => 2
  -- Yes, there's a gap here
  | day => 4
  | hour => 5
  | minute => 6
  | second => 7
  | milli => 8
  | micro => 9
  | nano => 10
  | pico => 11
  | femto => 12
  | atto => 13
  | generic => 14

def canCastTimedeltaUnits (src dest : DatetimeUnit) : Bool :=
  if src = dest then true
  else if src = .generic then true
  else if src.code > dest.code then false
  else if dest = .generic then false
  else if src.code ≤ 1 ∧ dest.code > 1 then false
  else true

/-- `_factors`: the next more precise unit, and how many of it. -/
def factors : Nat → Option (Nat × Nat)
  | 0 => some (1, 12)
  | 2 => some (4, 7)
  | 4 => some (5, 24)
  | 5 => some (6, 60)
  | 6 => some (7, 60)
  | 7 => some (8, 1000)
  | 8 => some (9, 1000)
  | 9 => some (10, 1000)
  | 10 => some (11, 1000)
  | 11 => some (12, 1000)
  | 12 => some (13, 1000)
  | _ => none

/-- The loop of `_get_conversion_multiplier`, of at most `small - c` turns. -/
def multiplierLoop (small : Nat) : Nat → Nat → Nat → Option Nat
  | 0, c, factor => if c = small then some factor else none
  | turns + 1, c, factor =>
    if c < small then
      match factors c with
      | none => none
      | some (c', mult) => multiplierLoop small turns c' (factor * mult)
    else if c = small then some factor
    else none

def getTimedeltaConversionFactor (src dest : DatetimeUnit) : Option Nat :=
  if src = .generic then some 1 else multiplierLoop dest.code (dest.code - src.code) src.code 1

def combineDatetimeTimedeltaUnits (datetimeUnit timedeltaUnit : DatetimeUnit) : Option DatetimeUnit :=
  if datetimeUnit = .generic then some timedeltaUnit
  else if timedeltaUnit = .generic then some datetimeUnit
  else if timedeltaUnit.code < 2 ∧ datetimeUnit.code ≥ 2 then none
  else if datetimeUnit.code > timedeltaUnit.code then some datetimeUnit
  else some timedeltaUnit

def getBestUnit (a b : DatetimeUnit) : DatetimeUnit :=
  if a = .generic then b
  else if b = .generic then a
  else if b.code > a.code then b
  else a

/-! ## Typing -/

inductive Kind where
  | datetime | timedelta
  deriving DecidableEq, Repr

structure TimeType where
  kind : Kind
  unit : DatetimeUnit
  deriving DecidableEq, Repr

inductive AddOp where
  | add | sub
  deriving DecidableEq, Repr

def timedeltaBinOp (left right : DatetimeUnit) : Option TimeType :=
  if canCastTimedeltaUnits left right then some ⟨.timedelta, right⟩
  else if canCastTimedeltaUnits right left then some ⟨.timedelta, left⟩
  else none

def AddOp.resolve (op : AddOp) (left right : TimeType) : Option TimeType :=
  match op, left.kind, right.kind with
  | _, .timedelta, .timedelta => timedeltaBinOp left.unit right.unit
  | _, .datetime, .timedelta => (combineDatetimeTimedeltaUnits left.unit right.unit).map (⟨.datetime, ·⟩)
  | .add, .timedelta, .datetime => (combineDatetimeTimedeltaUnits right.unit left.unit).map (⟨.datetime, ·⟩)
  | .sub, .datetime, .datetime => some ⟨.timedelta, getBestUnit left.unit right.unit⟩
  | .add, .datetime, .datetime | .sub, .timedelta, .datetime => none

inductive Comparison where
  | eq | ne | lt | le | gt | ge
  deriving DecidableEq, Repr

/-- The templates of the comparisons; before NumPy 1.25 durations of all units are compared for equality. -/
def Comparison.resolve (numpy125 : Bool) (op : Comparison) (left right : TimeType) : Bool :=
  match left.kind, right.kind with
  | .datetime, .datetime => true
  | .timedelta, .timedelta =>
    canCastTimedeltaUnits left.unit right.unit || canCastTimedeltaUnits right.unit left.unit ||
      !numpy125 && (op = .eq || op = .ne)
  | _, _ => false

/-! ## Values -/

structure Time where
  ty : TimeType
  value : BitVec 64

structure IntOperand where
  ty : IntType
  bits : BitVec ty.bits

/-! ## Lowering -/

/-- `_scale_to_unit`; a factor beyond 64 bits is no `arith.constant`. -/
def scaleToUnit (val : BitVec 64) (src dest : DatetimeUnit) : Option (BitVec 64) :=
  if src = dest ∨ src = .generic ∨ dest = .generic then some val
  else
    match getTimedeltaConversionFactor src dest with
    | none => some val
    | some factor => if factor = 1 then some val else (integerAttr 64 factor).map (val * ·)

def loadScaled (t : Time) (dest : DatetimeUnit) : Option (BitVec 64) := scaleToUnit t.value t.ty.unit dest

def datetimeAdd (op : AddOp) (target : TimeType) (left right : Time) : Option (BitVec 64) := do
  let lhs ← loadScaled left target.unit
  let rhs ← loadScaled right target.unit
  return match op with
    | .add => lhs + rhs
    | .sub => lhs - rhs

def cmpi (op : Comparison) (x y : BitVec 64) : Bool :=
  match op with
  | .eq => x = y
  | .ne => x ≠ y
  | .lt => x.slt y
  | .le => x.sle y
  | .gt => y.slt x
  | .ge => y.sle x

def datetimeCmp (op : Comparison) (left right : Time) : Option Bool := do
  let common := getBestUnit left.ty.unit right.ty.unit
  let lhs ← loadScaled left common
  let rhs ← loadScaled right common
  return cmpi op lhs rhs

/-- `convert(other, T.i64())`, which is not told the sign. -/
def IntOperand.toI64 (other : IntOperand) : BitVec 64 := convertInteger none 64 other.bits

def tdMul (td : Time) (other : IntOperand) : BitVec 64 := td.value * other.toI64

/-- `_td_div_scalar` of an integer, for `/` and `//`. -/
def tdDivScalar (td : Time) (other : IntOperand) : Option (BitVec 64) := divsi td.value other.toI64

/-- `timedelta_floordiv_timedelta`; `floorf` is the operation of this name in the dialect `arith`, if there is one. -/
def timedeltaFloordivTimedelta (floorf : Option (BinaryFloat.Value → BinaryFloat.Value)) (left right : Time) : Option (BitVec 64) := do
  let common := getBestUnit left.ty.unit right.ty.unit
  let lhs ← loadScaled left common
  let rhs ← loadScaled right common
  let toFloat := convertIntegerToFloat none BinaryFloat.binary64
  let quot := BinaryFloat.div BinaryFloat.binary64 (toFloat lhs) (toFloat rhs)
  let floorf ← floorf
  convertFloatToInteger none 64 (floorf quot)

def timedeltaNeg (td : Time) : BitVec 64 := 0 - td.value

/-- `math.absi`, which keeps the least value. -/
def timedeltaAbs (td : Time) : BitVec 64 := if td.value.slt 0#64 then -td.value else td.value

end NumbaCudaMlir.Datetime

import NumbaCudaMlir.BinaryFloat
import NumbaCudaMlir.CInt
import NumbaCudaMlir.MachineInt

/-!
# Conversions of scalars

`convert` between signless integers and floats. The caller says how an integer
is extended; without a word from it, integers are extended by zeros and read as
signed on their way to a float.
-/

namespace NumbaCudaMlir

open CInt MachineInt

/-- The attribute of an `arith.constant`: the bindings take a C `int64_t`, of
which the attribute keeps the low bits. -/
def integerAttr (bits : Nat) (n : Int) : Option (BitVec bits) := if InInt64 n then some (BitVec.ofInt bits n) else none

/-- `_convert_integer_to_integer`; to `i1` it asks whether the integer is zero. -/
def convertInteger (signed : Option Bool) {w : Nat} (v : Nat) (x : BitVec w) : BitVec v :=
  if v < w then
    if v = 1 then (BitVec.ofBool (x != 0)).setWidth v else x.setWidth v
  else if signed = some true then x.signExtend v
  else x.setWidth v

/-- `arith.fptosi` and `arith.fptoui`, which are poison out of range. -/
def fpToInt (signed : Bool) (v : Nat) : BinaryFloat.Value → Option (BitVec v)
  | .finite q =>
    let n := q.num.tdiv q.den
    if InRange signed v n then some (BitVec.ofInt v n) else none
  | .infinity _ | .nan => none

def intToFp (signed : Bool) {w : Nat} (f : BinaryFloat.Format) (x : BitVec w) : BinaryFloat.Value :=
  BinaryFloat.ofInt f (value signed x)

def useSignedConversion (signed : Option Bool) (default : Bool) : Bool := signed.getD default

def convertIntegerToFloat (signed : Option Bool) {w : Nat} (f : BinaryFloat.Format) (x : BitVec w) : BinaryFloat.Value :=
  intToFp (useSignedConversion signed (1 < w)) f x

/-- A float is true where it is not zero, and so is NaN. -/
def convertFloatToInteger (signed : Option Bool) (v : Nat) (x : BinaryFloat.Value) : Option (BitVec v) :=
  if v = 1 then some ((BitVec.ofBool (x ≠ .finite 0)).setWidth v)
  else fpToInt (useSignedConversion signed (1 < v)) v x

theorem convertInteger_eq {signed : Option Bool} {w v : Nat} (h : v ≠ 1 ∨ v = w) (x : BitVec w) :
    convertInteger signed v x = BitVec.ofInt v (value (signed = some true) x) := by
  rw [← extend_eq_ofInt]
  unfold convertInteger extend
  by_cases hlt : v < w
  · rw [if_pos hlt, if_neg (by omega)]
    by_cases hs : signed = some true
    · simp [hs, BitVec.signExtend_eq_setWidth_of_le x hlt.le]
    · simp [hs]
  · rw [if_neg hlt]
    by_cases hs : signed = some true <;> simp [hs]

theorem convertInteger_self (signed : Option Bool) {w : Nat} (x : BitVec w) : convertInteger signed w x = x := by
  rw [convertInteger_eq (.inr rfl), ofInt_value]

theorem convertInteger_bool {w : Nat} (h : 1 < w) (signed : Option Bool) (x : BitVec w) :
    convertInteger signed 1 x = BitVec.setWidth 1 (BitVec.ofBool (x != 0)) := by
  rw [convertInteger, if_pos h, if_pos rfl]

theorem fpToInt_eq_some {signed : Bool} {v : Nat} {x : BinaryFloat.Value} {y : BitVec v} (h : fpToInt signed v x = some y) :
    ∃ q, x = .finite q ∧ InRange signed v (q.num.tdiv q.den) ∧ y = BitVec.ofInt v (q.num.tdiv q.den) := by
  cases x with
  | finite q =>
    simp only [fpToInt, Option.ite_none_right_eq_some, Option.some.injEq] at h
    exact ⟨q, rfl, h.1, h.2.symm⟩
  | infinity | nan => cases h

end NumbaCudaMlir

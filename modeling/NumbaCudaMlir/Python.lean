import NumbaCudaMlir.CInt

/-!
# Python at the C boundary

Exceptions, and the Python values the launcher takes apart through the C API:
integers, strings and tuples in the array interface dictionaries.
-/

namespace NumbaCudaMlir

open CInt

inductive Exc where
  | typeError | valueError | overflowError | runtimeError | memoryError | attributeError | bufferError
  deriving DecidableEq, Repr

structure PyErr where
  exc : Exc
  msg : String
  deriving DecidableEq, Repr

/-- A native call either raises or leaves C: an out-of-range read, a division
by zero. -/
inductive Fail where
  | raised (e : PyErr)
  | undefined
  deriving DecidableEq, Repr

abbrev Result := Except Fail

def raise {α : Type} (exc : Exc) (msg : String) : Result α := .error (.raised ⟨exc, msg⟩)

@[simp] theorem raise_ne_ok {α : Type} {exc : Exc} {msg : String} {a : α} : raise exc msg ≠ .ok a := nofun

theorem bind_eq_ok {α β : Type} {x : Result α} {f : α → Result β} {b : β} :
    (x >>= f) = .ok b ↔ ∃ a, x = .ok a ∧ f a = .ok b := by
  cases x <;> simp [bind, Except.bind]

inductive PyVal where
  | none
  | int (v : Int)
  /-- An object with `__index__` that is no `int`, such as a NumPy integer. -/
  | index (v : Int)
  | str (bytes : List Char)
  | tuple (items : List PyVal)
  | other

namespace PyVal

def asInt : PyVal → Option Int
  | int v | index v => some v
  | _ => Option.none

def IsIntTuple (p : PyVal) (ns : List Int) : Prop :=
  ∃ items, p = tuple items ∧ items.map asInt = ns.map some

end PyVal

/-- An attribute that should hold a dictionary. -/
structure ArrayInterface where
  typestr : Option PyVal
  shape : Option PyVal
  data : Option PyVal
  strides : Option PyVal

inductive DictAttr where
  | missing
  | nonDict
  | dict (d : ArrayInterface)

/-! ## Integer conversions -/

def asLongLong (v : Int) : Result Int :=
  if InInt64 v then .ok v else raise .overflowError "Python int too large to convert to C long"

def asUnsignedLongLong (v : Int) : Result Int :=
  if v < 0 then raise .overflowError "can't convert negative int to unsigned"
  else if InUInt64 v then .ok v
  else raise .overflowError "int too big to convert"

/-- `pylong_as<int64_t>` on an integer: the value, or the bits of an unsigned one. -/
def pylongAsInt (v : Int) : Result Int :=
  match asLongLong v with
  | .ok v => .ok v
  | .error _ => (asUnsignedLongLong v).map wrap64

/-- `pylong_as<int64_t>`. Its unsigned retry takes a real `int` only. -/
def pylongAs : PyVal → Result Int
  | .int v => pylongAsInt v
  | .index v => if InInt64 v then .ok v else raise .typeError "an integer is required"
  | _ => raise .typeError "an integer is required"

theorem asLongLong_ok {v x : Int} : asLongLong v = .ok x ↔ InInt64 v ∧ x = v := by
  unfold asLongLong raise
  split <;> simp [*, eq_comm]

theorem pylongAsInt_ok {v x : Int} :
    pylongAsInt v = .ok x ↔ (InInt64 v ∨ InUInt64 v) ∧ x = wrap64 v := by
  unfold pylongAsInt asLongLong
  by_cases hs : InInt64 v
  · simp [hs, wrap64_eq hs, eq_comm]
  · simp only [hs, if_false, raise, false_or]
    by_cases hn : v < 0
    · have : ¬ InUInt64 v := fun h => by unfold InUInt64 at h; omega
      simp [asUnsignedLongLong, hn, this, raise, Except.map]
    · by_cases hu : InUInt64 v <;> simp [asUnsignedLongLong, hn, hu, raise, Except.map, eq_comm]

/-- Where an element converts, it is in the signed or the unsigned range, and
the result is its integer modulo `2 ^ 64`. -/
theorem pylongAs_ok {p : PyVal} {x : Int} (h : pylongAs p = .ok x) :
    ∃ v, p.asInt = some v ∧ (InInt64 v ∨ InUInt64 v) ∧ x = wrap64 v := by
  cases p with
  | int v => exact ⟨v, rfl, pylongAsInt_ok.mp h⟩
  | index v =>
    rw [pylongAs] at h
    by_cases hv : InInt64 v
    · rw [if_pos hv] at h; cases h; exact ⟨_, rfl, .inl hv, (wrap64_eq hv).symm⟩
    · rw [if_neg hv] at h; cases h
  | none | str _ | tuple _ | other => cases h

end NumbaCudaMlir

import NumbaCudaMlir.Dtype

/-!
# Numba types

The types of launch arguments and of compiled signatures, and the rule by which
the dispatcher reuses a compiled kernel (`_can_reuse_overload`).
-/

namespace NumbaCudaMlir

inductive EnumDType where
  | boolean | int64 | uint64 | float64
  deriving DecidableEq, Repr

inductive ScalarType where
  | boolean
  | integer (signed : Bool) (size : ItemSize)
  | float (size : ItemSize)
  | complex (size : ItemSize)
  | npDatetime (unit : String)
  | npTimedelta (unit : String)
  | charSeq (count : Nat)
  | unicodeCharSeq (count : Nat)
  | record (fields : String) (size : Nat)
  /-- `EnumMember`, or `IntEnumMember`, of an enum class. -/
  | enumMember (isInt : Bool) (cls : Nat) (dtype : EnumDType)
  | named (name : String)
  deriving DecidableEq, Repr

inductive Layout where
  | C | F | A
  deriving DecidableEq, Repr

inductive LiteralValue where
  | int (v : Int)
  | bool (b : Bool)
  deriving DecidableEq, Repr

inductive NumbaType where
  | scalar (s : ScalarType)
  | array (dtype : ScalarType) (ndim : Nat) (layout : Layout) (readonly : Bool)
  | cpointer (dtype : ScalarType)
  | literal (v : LiteralValue)
  | tuple (elems : List NumbaType)
  | list (dtype : NumbaType)
  deriving Repr

namespace NumbaType

mutual

def decEq : (a b : NumbaType) → Decidable (a = b)
  | scalar s, scalar t => decidable_of_iff (s = t) (by simp)
  | array d n l r, array e m k q => decidable_of_iff (d = e ∧ n = m ∧ l = k ∧ r = q) (by simp)
  | cpointer d, cpointer e => decidable_of_iff (d = e) (by simp)
  | literal v, literal w => decidable_of_iff (v = w) (by simp)
  | tuple as, tuple bs =>
    match decEqs as bs with
    | isTrue h => isTrue (by rw [h])
    | isFalse h => isFalse fun e => h (tuple.inj e)
  | list a, list b =>
    match decEq a b with
    | isTrue h => isTrue (by rw [h])
    | isFalse h => isFalse fun e => h (list.inj e)
  | scalar _, array .. | scalar _, cpointer _ | scalar _, literal _ | scalar _, tuple _ | scalar _, list _
  | array .., scalar _ | array .., cpointer _ | array .., literal _ | array .., tuple _ | array .., list _
  | cpointer _, scalar _ | cpointer _, array .. | cpointer _, literal _ | cpointer _, tuple _ | cpointer _, list _
  | literal _, scalar _ | literal _, array .. | literal _, cpointer _ | literal _, tuple _ | literal _, list _
  | tuple _, scalar _ | tuple _, array .. | tuple _, cpointer _ | tuple _, literal _ | tuple _, list _
  | list _, scalar _ | list _, array .. | list _, cpointer _ | list _, literal _ | list _, tuple _ => isFalse nofun

def decEqs : (as bs : List NumbaType) → Decidable (as = bs)
  | [], [] => isTrue rfl
  | a :: as, b :: bs =>
    match decEq a b, decEqs as bs with
    | isTrue h, isTrue h' => isTrue (by rw [h, h'])
    | isFalse h, _ => isFalse fun e => h (List.cons.inj e).1
    | _, isFalse h => isFalse fun e => h (List.cons.inj e).2
  | [], _ :: _ | _ :: _, [] => isFalse nofun

end

instance : DecidableEq NumbaType := decEq

end NumbaType

mutual

def canReuseOverload : (sigArg runtimeType : NumbaType) → Bool
  | sigArg, runtimeType =>
    if sigArg = runtimeType then true
    else
      match sigArg, runtimeType with
      | .literal _, _ => false
      | _, .literal _ => false
      | .cpointer _, .scalar (.integer ..) => true
      | .scalar (.integer ..), .scalar (.integer ..) => true
      | .array dtype ndim _ _, .array dtype' ndim' _ _ => dtype = dtype' ∧ ndim = ndim'
      | .tuple sigs, .tuple runtimes => canReuseOverloads sigs runtimes
      | _, _ => false

def canReuseOverloads : (sigArgs runtimeTypes : List NumbaType) → Bool
  | [], [] => true
  | sigArg :: sigArgs, runtimeType :: runtimeTypes =>
    canReuseOverload sigArg runtimeType && canReuseOverloads sigArgs runtimeTypes
  | _, _ => false

end

@[simp] theorem canReuseOverload_refl (t : NumbaType) : canReuseOverload t t = true := by
  unfold canReuseOverload
  rw [if_pos rfl]

theorem canReuseOverload_integer (b c : Bool) (s t : ItemSize) :
    canReuseOverload (.scalar (.integer b s)) (.scalar (.integer c t)) = true := by
  rw [canReuseOverload]
  split <;> rfl

theorem canReuseOverload_array {d : ScalarType} {n : Nat} (l k : Layout) (r q : Bool) :
    canReuseOverload (.array d n l r) (.array d n k q) = true := by
  rw [canReuseOverload]
  split
  · rfl
  · simp

def fromDtype : NpDType → Option ScalarType
  | .numeric .bool .s1 => some .boolean
  | .numeric .int s => if s ∈ [.s1, .s2, .s4, .s8] then some (.integer true s) else none
  | .numeric .uint s => if s ∈ [.s1, .s2, .s4, .s8] then some (.integer false s) else none
  | .numeric .float s => if s ∈ [.s2, .s4, .s8] then some (.float s) else none
  | .numeric .complex s => if s ∈ [.s8, .s16] then some (.complex s) else none
  | .numeric .bool _ => none
  | .datetime64 u => if u.toList.all Char.isAlpha then some (.npDatetime u) else none
  | .timedelta64 u => if u.toList.all Char.isAlpha then some (.npTimedelta u) else none
  | .void fields n => some (.record fields n)
  | .bytes n => some (.charSeq n)
  | .str n => some (.unicodeCharSeq n)

end NumbaCudaMlir

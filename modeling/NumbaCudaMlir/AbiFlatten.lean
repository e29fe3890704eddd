import Mathlib.Algebra.GroupWithZero.Nat
import Mathlib.Data.List.Basic

/-!
# Flattened argument lists

A function of tuples is lowered to one of their leaves. Signatures, call
operands, call results and the parameters of the callee are each flattened or
put together by a recursion of their own over the types.
-/

namespace NumbaCudaMlir.AbiFlatten

/-! ## Types and values -/

/-- `leaf` is a scalar or an array. -/
inductive AbiType (L : Type) where
  | leaf (ty : L)
  | noneType
  | uniTuple (dtype : AbiType L) (count : Nat)
  | tuple (types : List (AbiType L))

/-- An MLIR value has a number; `none` is the placeholder `ir.NoneType`. -/
inductive Value where
  | leaf (v : Nat)
  | none
  | tuple (items : List Value)

variable {L : Type}

def AbiType.tupleElementTypes : AbiType L → List (AbiType L)
  | uniTuple dtype count => List.replicate count dtype
  | tuple types => types
  | leaf _ | noneType => []

mutual

inductive HasType : AbiType L → Value → Prop where
  | leaf (ty : L) (v : Nat) : HasType (.leaf ty) (.leaf v)
  | none : HasType .noneType .none
  | uniTuple {dtype : AbiType L} {count : Nat} {vs : List Value} : HasTypes (List.replicate count dtype) vs →
      HasType (.uniTuple dtype count) (.tuple vs)
  | tuple {ts : List (AbiType L)} {vs : List Value} : HasTypes ts vs → HasType (.tuple ts) (.tuple vs)

inductive HasTypes : List (AbiType L) → List Value → Prop where
  | nil : HasTypes [] []
  | cons {t : AbiType L} {v : Value} {ts : List (AbiType L)} {vs : List Value} :
      HasType t v → HasTypes ts vs → HasTypes (t :: ts) (v :: vs)

end

/-! ## Flattening -/

mutual

def countFlatElements : AbiType L → Nat
  | .noneType => 0
  | .uniTuple dtype count => count * countFlatElements dtype
  | .tuple ts => countFlatAll ts
  | .leaf _ => 1

def countFlatAll : List (AbiType L) → Nat
  | [] => 0
  | t :: ts => countFlatElements t + countFlatAll ts

end

mutual

def flattenType : AbiType L → List L
  | .noneType => []
  | .uniTuple dtype count => (List.replicate count (flattenType dtype)).flatten
  | .tuple ts => flattenTypes ts
  | .leaf ty => [ty]

def flattenTypes : List (AbiType L) → List L
  | [] => []
  | t :: ts => flattenType t ++ flattenTypes ts

end

mutual

/-- `_flatten_abi_operands`, which follows the type. -/
def flattenAbiOperands : AbiType L → Value → List Value
  | .noneType, _ => []
  | .leaf _, v => [v]
  | .uniTuple dtype count, .tuple vs => flattenAbiOperandsAll (List.replicate count dtype) vs
  | .tuple ts, .tuple vs => flattenAbiOperandsAll ts vs
  | .uniTuple .., _ | .tuple _, _ => []

def flattenAbiOperandsAll : List (AbiType L) → List Value → List Value
  | t :: ts, v :: vs => flattenAbiOperands t v ++ flattenAbiOperandsAll ts vs
  | _, _ => []

end

mutual

/-- `_flatten_abi_value`, which follows the value. -/
def flattenAbiValue : Value → List Value
  | .tuple items => flattenAbiValues items
  | .leaf v => [.leaf v]
  | .none => [.none]

def flattenAbiValues : List Value → List Value
  | [] => []
  | v :: vs => flattenAbiValue v ++ flattenAbiValues vs

end

/-! ## Putting together -/

/-- `count` rounds of a loop that threads a state. -/
def times {α σ : Type} (f : σ → Option (α × σ)) : Nat → σ → Option (List α × σ)
  | 0, s => some ([], s)
  | n + 1, s => do
    let (a, s) ← f s
    let (as, s) ← times f n s
    return (a :: as, s)

mutual

/-- The value, and what is left of the iterator. -/
def unflattenAbiValue : AbiType L → List Value → Option (Value × List Value)
  | .noneType, it => some (.none, it)
  | .uniTuple dtype count, it => do
    let (vs, it) ← times (unflattenAbiValue dtype) count it
    return (.tuple vs, it)
  | .tuple ts, it => do
    let (vs, it) ← unflattenAbiValues ts it
    return (.tuple vs, it)
  | .leaf _, v :: it => some (v, it)
  | .leaf _, [] => none

def unflattenAbiValues : List (AbiType L) → List Value → Option (List Value × List Value)
  | [], it => some ([], it)
  | t :: ts, it => do
    let (v, it) ← unflattenAbiValue t it
    let (vs, it) ← unflattenAbiValues ts it
    return (v :: vs, it)

end

mutual

/-- One round of `_reassemble_tuple_from_block_args`: the element at an index
and the index of the next one. -/
def reassembleElement (arguments : List Value) : AbiType L → Nat → Option (Value × Nat)
  | .noneType, idx => some (.none, idx)
  | .uniTuple dtype count, idx => do
    let (vs, _) ← times (reassembleElement arguments dtype) count idx
    return (.tuple vs, idx + countFlatElements (.uniTuple dtype count))
  | .tuple ts, idx => do
    let (vs, _) ← reassembleElements arguments ts idx
    return (.tuple vs, idx + countFlatElements (.tuple ts))
  | .leaf _, idx => do
    let v ← arguments[idx]?
    return (v, idx + 1)

def reassembleElements (arguments : List Value) : List (AbiType L) → Nat → Option (List Value × Nat)
  | [], idx => some ([], idx)
  | t :: ts, idx => do
    let (v, idx) ← reassembleElement arguments t idx
    let (vs, idx) ← reassembleElements arguments ts idx
    return (v :: vs, idx)

end

/-! ## Functions -/

/-- The type of a parameter; the value of an omitted one is a constant that the
callee makes. -/
inductive ArgType (L : Type) where
  | omitted (value : Nat)
  | given (ty : AbiType L)

def ArgType.isOmitted : ArgType L → Bool
  | omitted _ => true
  | given .noneType => true
  | given _ => false

/-- The value that a parameter has, by its type. -/
inductive ArgType.Has : ArgType L → Value → Prop where
  | omitted (v : Nat) : Has (.omitted v) (.leaf v)
  | given {t : AbiType L} {v : Value} : HasType t v → Has (.given t) v

/-- The argument types that `setup_func_op` gives the function. -/
def setupFuncOp (argtypes : List (ArgType L)) : List L :=
  (argtypes.filter fun t => !t.isOmitted).flatMap fun
    | .given t => flattenType t
    | .omitted _ => []

def flatArgStartIndex (argtypes : List (ArgType L)) (argIndex : Nat) : Nat :=
  ((argtypes.take argIndex).map fun
    | .given t => if (ArgType.given t).isOmitted then 0 else countFlatElements t
    | .omitted _ => 0).sum

def lowerArgAssign (arguments : List Value) (argtypes : List (ArgType L)) (index : Nat) : Option Value := do
  match ← argtypes[index]? with
  | .omitted v => return .leaf v
  | .given .noneType => return .none
  | .given (.leaf _) => arguments[flatArgStartIndex argtypes index]?
  | .given t => return (← reassembleElement arguments t (flatArgStartIndex argtypes index)).1

/-! ## Calls -/

abbrev Arg (L : Type) := ArgType L × Value

/-- What `_fold_dispatcher_call_args` leaves of the parameters. -/
def callVars (args : List (Arg L)) : List (Arg L) := args.filter fun a => !a.1.isOmitted

def callOperandsFromVars (args : List (Arg L)) : List Value := args.flatMap fun a => flattenAbiValue a.2

def userDefinedOperands (args : List (Arg L)) : List Value := callOperandsFromVars (callVars args)

def overloadOperands (args : List (Arg L)) : List Value :=
  (callVars args).flatMap fun
    | (.given t, v) => flattenAbiOperands t v
    | (.omitted _, _) => []

def ArgType.isPassed : ArgType L → Bool
  | omitted _ => false
  | given _ => true

/-- The parameters that the call has an argument for. -/
def passedIndices (argtypes : List (ArgType L)) : List Nat :=
  (List.range argtypes.length).filter fun i => argtypes[i]?.any ArgType.isPassed

/-- A recursive call or one to a declared function: positional arguments for
the first parameters, keywords in the order they are written for the others. -/
structure DirectCall (argtypes : List (ArgType L)) where
  positional : Nat
  keywords : List Nat
  perm : (List.range positional ++ keywords).Perm (passedIndices argtypes)

def directOperands {argtypes : List (ArgType L)} (c : DirectCall argtypes) (args : List (Arg L)) : List Value :=
  callOperandsFromVars ((List.range c.positional ++ c.keywords).filterMap fun i => args[i]?)

end NumbaCudaMlir.AbiFlatten

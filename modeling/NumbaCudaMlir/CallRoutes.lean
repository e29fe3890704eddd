import NumbaCudaMlir.AbiFlatten
import NumbaCudaMlir.Dict
import NumbaCudaMlir.PythonCall

/-!
# The operands of a call

A call goes to a dispatcher, back to the function itself, to a declared function
or to one of an external MLIR library. Each route finds its operands on its own.
-/

namespace NumbaCudaMlir.CallRoutes

open AbiFlatten
open PythonCall (Bound bind)

abbrev Text := List Char

/-! ## Types -/

/-- `starArg` and `starKwarg` are the bundles that `*args` and `**kwargs` receive. -/
inductive TupleClass where
  | plain
  | named (cls : Text)
  | starArg
  | starKwarg (fields : List Text)
  deriving DecidableEq, Repr

mutual

/-- The type of a variable; a scalar or an array is one operand. -/
inductive VarType where
  | leaf (name : Text)
  | none
  | uniTuple (cls : TupleClass) (dtype : VarType) (count : Nat)
  | tuple (cls : TupleClass) (types : VarTypes)
  deriving DecidableEq, Repr

inductive VarTypes where
  | nil
  | cons (type : VarType) (types : VarTypes)
  deriving DecidableEq, Repr

end

def VarTypes.toList : VarTypes → List VarType
  | nil => []
  | cons t ts => t :: ts.toList

def VarTypes.ofList : List VarType → VarTypes
  | [] => nil
  | t :: ts => cons t (ofList ts)

def VarType.elementTypes : VarType → Option (List VarType)
  | uniTuple _ dtype count => some (List.replicate count dtype)
  | tuple _ types => some types.toList
  | leaf _ | none => .none

mutual

def VarType.abi : VarType → AbiType Text
  | .leaf name => .leaf name
  | .none => .noneType
  | .uniTuple _ dtype count => .uniTuple dtype.abi count
  | .tuple _ types => .tuple types.abi

def VarTypes.abi : VarTypes → List (AbiType Text)
  | .nil => []
  | .cons t ts => t.abi :: ts.abi

end

/-- The type of a parameter; the name of an omitted one is that of its default. -/
inductive FoldedType where
  | omitted (default : Text)
  | given (type : VarType)
  deriving DecidableEq, Repr

def FoldedType.isOmittedArg : FoldedType → Bool
  | omitted _ => true
  | given .none => true
  | given _ => false

/-! ## Calls -/

/-- A variable of the caller, by its type and the value it holds. -/
structure Arg where
  type : VarType
  value : Value

def Arg.Typed (a : Arg) : Prop := HasType a.type.abi a.value

/-- The variables that a `*args` of the call site expands to. -/
def Arg.elements (a : Arg) : Option (List Arg) :=
  match a.type.elementTypes, a.value with
  | some ts, .tuple vs => some (List.zipWith Arg.mk ts vs)
  | _, _ => none

structure Call (α : Type) where
  args : List α
  vararg : Option α
  kws : Dict Text α

namespace Call

def map {α β : Type} (f : α → β) (c : Call α) : Call β :=
  ⟨c.args.map f, c.vararg.map f, c.kws.mapValues fun _ => f⟩

def positionalTypes (c : Call VarType) : Option (List VarType) :=
  match c.vararg with
  | none => some c.args
  | some t => t.elementTypes.map (c.args ++ ·)

def positional (c : Call Arg) : Option (List Arg) :=
  match c.vararg with
  | none => some c.args
  | some a => a.elements.map (c.args ++ ·)

end Call

abbrev Parameter := PythonCall.Parameter Text Text

abbrev Signature := PythonCall.Signature Text Text

inductive ExternAbi where
  | numba | c
  deriving DecidableEq, Repr

/-- What is called; a declared function and a library's have the types of their parameters only. -/
inductive Callee where
  | dispatcher (signature : Signature)
  /-- The function being lowered, with the types it is lowered for. -/
  | recursive (signature : Signature) (argtypes : List FoldedType)
  | externFunction (abi : ExternAbi) (argtypes : List VarType)
  | externLibrary (argtypes : List VarType)

/-! ## Folding -/

/-- `fold_arguments`; `unwrap` is what it does to the values of a `*args`. -/
def foldArguments {α β : Type} (normal : α → β) (default : Text → β) (stararg : List α → β)
    (starkwarg : List (Text × α) → β) (unwrap : List α → List α) (signature : Signature) (args : List α)
    (kws : List (Text × α)) : Option (List β) :=
  (bind signature.parameters args kws).map fun bounds => bounds.map fun
    | .value a => normal a
    | .omitted d => default d
    | .starArg values => stararg (unwrap values)
    | .starKwarg values => starkwarg values

/-- `StarArgTuple(values)` and `star_kwarg_tuple(values)`, which are uniform where the values have one type. -/
def bundleType (cls : TupleClass) : List VarType → VarType
  | [] => .tuple cls .nil
  | t :: ts => if ts.all (· = t) then .uniTuple cls t (ts.length + 1) else .tuple cls (.ofList (t :: ts))

/-- A bundle that is itself the only star argument is not wrapped again. -/
def unwrapStarArg : List VarType → List VarType
  | [.tuple .starArg types] => types.toList
  | [.uniTuple .starArg dtype count] => List.replicate count dtype
  | values => values

def foldArgumentTypes (signature : Signature) (args : List VarType) (kws : List (Text × VarType)) : Option (List FoldedType) :=
  foldArguments .given .omitted (fun values => .given (bundleType .starArg values))
    (fun values => .given (bundleType (.starKwarg (values.map (·.1))) (values.map (·.2)))) unwrapStarArg signature args kws

/-- A concrete operand: a variable, or the Python tuple of them that a star parameter takes. -/
inductive CallVar where
  | var (a : Arg)
  | bundle (vars : List Arg)

def foldDispatcherCallArgs (signature : Signature) (args : List Arg) (kws : List (Text × Arg)) :
    Option (List FoldedType × List CallVar) := do
  let foldedArgtypes ← foldArgumentTypes signature (args.map (·.type)) (kws.map fun k => (k.1, k.2.type))
  let foldedVars ← foldArguments (fun a => some (CallVar.var a)) (fun _ => none) (fun vars => some (.bundle vars))
    (fun values => some (.bundle (values.map (·.2)))) id signature args kws
  return (foldedArgtypes, (foldedVars.zip foldedArgtypes).filterMap fun e => if e.2.isOmittedArg then none else e.1)

/-! ## Operands -/

/-- A tuple of variables has no `name` to load by. -/
def loadVar : CallVar → Option Value
  | .var a => some a.value
  | .bundle _ => none

/-- The types expected are those of the variables themselves. -/
def callOperandsFromVars (vars : List CallVar) : Option (List Value) := do
  let values ← vars.mapM loadVar
  return values.flatMap flattenAbiValue

/-- `func.call` takes MLIR values; the placeholder of a `None` is none. -/
def emitCall (operands : List Value) : Option (List Nat) :=
  operands.mapM fun
    | .leaf v => some v
    | _ => none

def buildUserDefinedFunctionCall (signature : Signature) (args : List Arg) (kws : List (Text × Arg)) : Option (List Nat) := do
  let (_, callVars) ← foldDispatcherCallArgs signature args kws
  emitCall (← callOperandsFromVars callVars)

def buildRecursiveCall (signature : Signature) (fndescArgtypes : List FoldedType) (args : List Arg)
    (kws : List (Text × Arg)) : Option (List Nat) := do
  let (argtypes, _) ← foldDispatcherCallArgs signature args kws
  if argtypes ≠ fndescArgtypes then buildUserDefinedFunctionCall signature args kws
  else emitCall (← callOperandsFromVars ((args ++ kws.map (·.2)).map .var))

section

variable (canConvert : VarType → VarType → Bool)

/-- `resolve_overload` of a declared function: it has one case, and takes no keyword. -/
def resolveOverload (argtypes args : List VarType) (kws : List (Text × VarType)) : Bool :=
  kws.isEmpty && args.length = argtypes.length && (List.zipWith canConvert args argtypes).all id

/-- One operand as the declared type's: `as_argument` and `convert` take an MLIR value to a leaf type. -/
def convertOperand (type : VarType) (value : Value) : Option Nat :=
  match type, value with
  | .leaf _, .leaf v => some v
  | _, _ => none

/-- `_lower_call_external_numba_abi` has the pointer to its result before these, `_lower_call_external_c_abi` does
not. A tuple's argument type is a Python tuple, which no function type takes. -/
def lowerCallExternalFunction (_abi : ExternAbi) (argtypes : List VarType) (args : List Arg) : Option (List Nat) :=
  (argtypes.zip args).mapM fun e => convertOperand e.1 e.2.value

/-- `convert` of each argument to the callee's input. -/
def lowerCallExternalMlirLibraryFunction (argtypes : List VarType) (args : List Arg) : Option (List Nat) :=
  (args.zip argtypes).mapM fun e => convertOperand e.2 e.1.value

/-- The operands of the call that is emitted; `none` where typing or the lowering rejects it. -/
def lowerCall (callee : Callee) (call : Call Arg) : Option (List Nat) := do
  let args ← call.positional
  match callee with
  | .dispatcher signature => buildUserDefinedFunctionCall signature args call.kws.entries
  | .recursive signature argtypes => buildRecursiveCall signature argtypes args call.kws.entries
  | .externFunction abi argtypes =>
    if resolveOverload canConvert argtypes (args.map (·.type)) (call.map (·.type)).kws.entries then
      lowerCallExternalFunction abi argtypes args
    else none
  | .externLibrary argtypes =>
    if resolveOverload canConvert argtypes (args.map (·.type)) (call.map (·.type)).kws.entries then
      lowerCallExternalMlirLibraryFunction argtypes args
    else none

/-! ## What Python binds -/

mutual

def leaves : Value → List Nat
  | .leaf v => [v]
  | .none => []
  | .tuple items => leavesAll items

def leavesAll : List Value → List Nat
  | [] => []
  | v :: vs => leaves v ++ leavesAll vs

end

/-- The leaves of the parameters, in their order, each holding what Python binds it to; `none` where
Python or typing rejects the call. -/
def pythonOperands (callee : Callee) (call : Call Arg) : Option (List Nat) := do
  let args ← call.positional
  match callee with
  | .dispatcher signature | .recursive signature _ =>
    let bounds ← bind signature.parameters args call.kws.entries
    return bounds.flatMap fun b => b.values.flatMap fun a => leaves a.value
  | .externFunction _ argtypes | .externLibrary argtypes =>
    if resolveOverload canConvert argtypes (args.map (·.type)) (call.map (·.type)).kws.entries then
      return args.flatMap fun a => leaves a.value
    else none

end

end NumbaCudaMlir.CallRoutes

import NumbaCudaMlir.Typeof
import NumbaCudaMlir.Runs

/-!
# Argument marshalling

`_ArgMarshaller`, which copies host arrays to the device before a launch and
back after it. The copy-backs wait in one list of the marshaller, and the calls
on it, in sequence or of several threads, take their steps on that list.
-/

namespace NumbaCudaMlir

/-! ## Arguments of a call -/

structure HostArray where
  id : Nat
  device : DeviceNDArray

inductive SeqClass where
  | tuple | list
  deriving DecidableEq, Repr

inductive ArgHint where
  | In | Out | InOut
  deriving DecidableEq, Repr

inductive HostValue where
  | obj (o : PyObj)
  | npBool (b : Bool)
  /-- A `StridedMemoryView`, by the device array over the same memory. -/
  | memoryView (ary : DeviceNDArray)
  | hint (kind : ArgHint) (host : HostArray)
  | hostArray (host : HostArray)
  | seq (cls : SeqClass) (elems : List HostValue)
  /-- An object of a class without a Numba type. -/
  | other (cls : Nat)

namespace HostValue

mutual

def toDeviceItem : HostValue → HostValue
  | obj (.float .npFloat64 bits) => obj (.float .float bits)
  | npBool b => obj (.long .bool (if b then 1 else 0))
  | memoryView ary => obj (.deviceArray ary)
  | hint _ host | hostArray host => obj (.deviceArray host.device)
  | seq cls elems => seq cls (toDeviceItems elems)
  | obj o => obj o
  | other cls => other cls

def toDeviceItems : List HostValue → List HostValue
  | [] => []
  | v :: vs => v.toDeviceItem :: toDeviceItems vs

end

mutual

def copyBacks : HostValue → List Nat
  | hint kind host => if kind = .In then [] else [host.id]
  | hostArray host => [host.id]
  | seq _ elems => copyBacksAll elems
  | _ => []

def copyBacksAll : List HostValue → List Nat
  | [] => []
  | v :: vs => v.copyBacks ++ copyBacksAll vs

end

/-- Whether the value is the argument itself; the empty tuple is a single object. -/
def passThrough : HostValue → Bool
  | obj (.float .npFloat64 _) => false
  | obj _ | other _ => true
  | seq .tuple elems => elems.isEmpty
  | _ => false

theorem copyBacks_of_passThrough {v : HostValue} (h : v.passThrough = true) : v.copyBacks = [] := by
  cases v with
  | seq cls elems =>
    cases cls with
    | list => cases h
    | tuple => cases elems with
      | nil => rfl
      | cons v vs => cases h
  | hint | hostArray => cases h
  | _ => rfl

end HostValue

/-- An extension: the value that its `prepare_args` returns, and how many callbacks it appends. -/
structure Extension where
  prepareArgs : HostValue → HostValue × Nat

namespace Marshal

/-! ## Callbacks of a call -/

inductive CallbackKind where
  | copyBack (host : Nat)
  /-- Appended by an extension. -/
  | cleanUp
  deriving DecidableEq, Repr

structure Callback where
  call : Nat
  index : Nat
  kind : CallbackKind
  deriving DecidableEq, Repr

/-- The extensions in reverse order, each on the value of the one before. -/
def prepareArg (exts : List Extension) (arg : HostValue) : HostValue × List CallbackKind :=
  exts.reverse.foldl (fun (val, cbs) ext =>
    ((ext.prepareArgs val).1, cbs ++ List.replicate (ext.prepareArgs val).2 .cleanUp)) (arg, [])

/-- What the loop over the arguments appends, in its order. -/
def registrations (exts : List Extension) (args : List HostValue) : List CallbackKind :=
  args.flatMap fun arg =>
    (prepareArg exts arg).2 ++ (prepareArg exts arg).1.copyBacks.map .copyBack

def ownCallbacks (exts : List Extension) (i : Nat) (args : List HostValue) : List Callback :=
  (registrations exts args).mapIdx fun k kind => ⟨i, k, kind⟩

/-! ## State -/

inductive CallPc where
  | idle
  /-- The first `n` callbacks of its arguments are appended. -/
  | preparing (args : List HostValue) (n : Nat)
  /-- On the route of a signature cache, which appends nothing. -/
  | cached (args : List HostValue)
  /-- After its launch, in the loop over the list. -/
  | copying (args : List HostValue) (pos : Nat)
  | clearing (args : List HostValue)
  | returned (args : List HostValue)
  | raised

inductive CallEntry where
  | launched (i : Nat)
  | ran (i : Nat) (cb : Callback)
  | returned (i : Nat) (args : List HostValue)

/-- A marshaller and the calls on it; `log` has the newest entry first. -/
structure MarshalState where
  callbacks : List Callback
  calls : Nat → CallPc
  log : List CallEntry

def MarshalState.init : MarshalState := ⟨[], fun _ => .idle, []⟩

inductive CallEvent where
  | begin (i : Nat) (args : List HostValue) (cached : Bool)
  | register (i : Nat)
  /-- `_launch` returned. -/
  | launch (i : Nat)
  | next (i : Nat)
  | clear (i : Nat)
  /-- Anything between the start and the return of the call raises. -/
  | raise (i : Nat)

/-! ## Steps -/

namespace MarshalState

def setPc (s : MarshalState) (i : Nat) (pc : CallPc) : MarshalState :=
  { s with calls := Runs.setAt s.calls i pc }

def logEntry (s : MarshalState) (e : CallEntry) : MarshalState := { s with log := e :: s.log }

def append (s : MarshalState) (cb : Callback) : MarshalState := { s with callbacks := s.callbacks ++ [cb] }

def clearAll (s : MarshalState) : MarshalState := { s with callbacks := [] }

end MarshalState

def step (exts : List Extension) (s : MarshalState) (e : CallEvent) : Option MarshalState :=
  match e with
  | .begin i args cached =>
    match s.calls i with
    | .idle =>
      if ¬ cached then some (s.setPc i (.preparing args 0))
      -- The caches hold only calls whose arguments all pass through, without extensions.
      else if exts.isEmpty ∧ args.all (·.passThrough) then some (s.setPc i (.cached args))
      else none
    | _ => none
  | .register i =>
    match s.calls i with
    | .preparing args n =>
      (ownCallbacks exts i args)[n]?.map fun cb => (s.append cb).setPc i (.preparing args (n + 1))
    | _ => none
  | .launch i =>
    match s.calls i with
    | .preparing args n =>
      if n = (ownCallbacks exts i args).length then some ((s.logEntry (.launched i)).setPc i (.copying args 0))
      else none
    | .cached args => some (((s.logEntry (.launched i)).logEntry (.returned i args)).setPc i (.returned args))
    | _ => none
  | .next i =>
    match s.calls i with
    | .copying args pos =>
      match s.callbacks[pos]? with
      | some cb => some ((s.logEntry (.ran i cb)).setPc i (.copying args (pos + 1)))
      | none => some (s.setPc i (.clearing args))
    | _ => none
  | .clear i =>
    match s.calls i with
    | .clearing args => some ((s.clearAll.logEntry (.returned i args)).setPc i (.returned args))
    | _ => none
  | .raise i =>
    match s.calls i with
    | .preparing .. | .cached _ | .copying .. | .clearing _ => some (s.setPc i .raised)
    | _ => none

end Marshal

end NumbaCudaMlir

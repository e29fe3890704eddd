import NumbaCudaMlir.LaunchLayout
import NumbaCudaMlir.Runs

/-!
# Device buffers of scalar records

`extract_numpy_void` allocates a buffer, the kernel writes to it, and `launch` copies it
back. The buffer stays in the helper until the next launch that draws this helper from
the free list. Launches take their steps in any order: they are nested in each other's
calls into Python, or run in other threads, and each of them may return early.
-/

namespace NumbaCudaMlir.RecordBuffers

/-! ## Events -/

inductive Event where
  | alloc (launch : Nat) (ptr : Int)
  | free (ptr : Int)
  /-- The parameter that the kernel takes for the buffer of a record. -/
  | kernelArg (launch : Nat) (param : CudaArg)
  | copyBack (launch : Nat) (ptr : Int)
  deriving DecidableEq, Repr

/-- The launch whose buffer lies at the address; the newest event is the first. -/
def owner : List Event → Int → Option Nat
  | [], _ => none
  | .alloc i ptr :: log, p => if p = ptr then some i else owner log p
  | .free ptr :: log, p => if p = ptr then none else owner log p
  | .kernelArg .. :: log, p => owner log p
  | .copyBack .. :: log, p => owner log p

/-- The driver calls of `extract_numpy_void`, the oldest first. -/
def numpyVoidCalls (i : Nat) (driver : Driver) : PyObj → List Event
  | .npVoid r =>
    match pylongAsInt r.hostPtr, pylongAsInt r.itemsize with
    | .ok hostPtr, .ok recordSize =>
      if recordSize ≤ 0 then []
      else
        match driver.memAlloc recordSize with
        | .error _ => []
        | .ok devicePtr =>
          match driver.memcpyHtoD devicePtr hostPtr recordSize with
          | .error _ => [.alloc i devicePtr, .free devicePtr]
          | .ok () => [.alloc i devicePtr]
    | _, _ => []
  | _ => []

def extractCalls (i : Nat) (driver : Driver) (kind : PythonArgKind) (arg : PyObj) : List Event :=
  if kind = .numpyVoid then numpyVoidCalls i driver arg else []

def freeRecords (copies : List RecordCopyInfo) : List Event :=
  (copies.filter (·.devicePtr ≠ 0)).map fun info => .free info.devicePtr

/-! ## Launches -/

inductive Phase where
  | idle
  /-- The helper is drawn; the arguments are classified and their profile is found. -/
  | started (h : Nat) (args : List PyObj)
  /-- In `extract_cuda_args`, after the arguments whose kinds are `done`. -/
  | extracting (h : Nat) (done : List PythonArgKind) (args : List PyObj) (kinds : List PythonArgKind) (flags : List Bool)
  /-- In the loop of the fast path, at slot `k`. -/
  | fast (h : Nat) (kinds : List PythonArgKind) (k : Nat) (args : List PyObj) (extractors : List ScalarExtractor)
  /-- The arguments are extracted; contexts, `compile` and the attributes of the kernel come next. -/
  | ready (h : Nat) (kinds : List PythonArgKind) (fast : Bool)
  | launched (h : Nat)
  | copying (h : Nat) (infos : List RecordCopyInfo)
  | returned

def Phase.helper : Phase → Option Nat
  | .started h _ | .extracting h .. | .fast h .. | .ready h .. | .launched h | .copying h _ => some h
  | .idle | .returned => none

structure State where
  helpers : Nat → PooledHelper
  /-- Helpers from this number on do not exist yet. -/
  created : Nat
  freelist : List Nat
  launches : Nat → Phase
  log : List Event

def State.init : State := ⟨fun _ => ⟨.empty, []⟩, 0, [], fun _ => .idle, []⟩

inductive Action where
  | begin (i : Nat) (args : List PyObj)
  | prepare (i : Nat) (profile : PythonArgProfile)
  | extract (i : Nat) (driver : Driver)
  | extractFast (i : Nat)
  | launch (i : Nat)
  | synchronize (i : Nat)
  | copyBack (i : Nat)
  | finish (i : Nat)
  /-- One of the early returns. -/
  | fail (i : Nat)

namespace State

def setPhase (s : State) (i : Nat) (phase : Phase) : State := { s with launches := Runs.setAt s.launches i phase }

def setHelper (s : State) (h : Nat) (pooled : PooledHelper) : State := { s with helpers := Runs.setAt s.helpers h pooled }

def logged (s : State) (events : List Event) : State := { s with log := events.reverse ++ s.log }

def getHelper (s : State) (i : Nat) (args : List PyObj) : State :=
  match s.freelist with
  | h :: freelist => { s with freelist := freelist }.setPhase i (.started h args)
  | [] => { s with created := s.created + 1 }.setPhase i (.started s.created args)

def putHelper (s : State) (i h : Nat) : State := { s with freelist := h :: s.freelist }.setPhase i .returned

end State

def resized {α : Type} (xs : List α) (n : Nat) (fill : α) : List α := xs.take n ++ List.replicate (n - xs.length) fill

/-- The records and the storage after the clean-up of the fast path; the other fields stay as they were. -/
def clearFast (pooled : PooledHelper) (n : Nat) : PooledHelper where
  helper := { pooled.helper with
    alignedTmaDescriptors := []
    recordCopies := []
    cuargs := resized pooled.helper.cuargs n 0 }
  cuargPointers := resized pooled.cuargPointers n (.slot 0)

def storeFast (pooled : PooledHelper) (k : Nat) (slot : CudaArg) : PooledHelper where
  helper := { pooled.helper with cuargs := pooled.helper.cuargs.set k slot }
  cuargPointers := pooled.cuargPointers.set k (.slot k)

def paramValue (cuargs : List CudaArg) : KernelParam → CudaArg
  | .slot idx => cuargs.getD idx 0
  | .descriptor ptr => ptr

/-- The parameters of the records among the arguments of the standard path. -/
def recordParams (kinds : List PythonArgKind) (helper : LaunchHelper) : List CudaArg :=
  (kinds.zip helper.argMetadata).flatMap fun (kind, m) =>
    if kind = .numpyVoid then (m.pointers helper.cuargs).map (paramValue helper.cuargs) else []

/-- On the fast path every argument has one parameter. -/
def recordParamsFast (kinds : List PythonArgKind) (pooled : PooledHelper) : List CudaArg :=
  (kinds.zip pooled.cuargPointers).flatMap fun (kind, param) =>
    if kind = .numpyVoid then [paramValue pooled.helper.cuargs param] else []

/-! ## Steps -/

/-- The path is chosen, and what an earlier launch left in the helper is released. -/
def prepare (s : State) (i h : Nat) (args : List PyObj) (profile : PythonArgProfile) : State :=
  let pooled := s.helpers h
  let s := s.logged (freeRecords pooled.helper.recordCopies)
  if profile.fastExtractors.isEmpty then
    (s.setHelper h { pooled with helper := pooled.helper.clear }).setPhase i (.extracting h [] args profile.argKinds profile.constantArgFlags)
  else
    (s.setHelper h (clearFast pooled args.length)).setPhase i (.fast h profile.argKinds 0 args profile.fastExtractors)

def extract (s : State) (i h : Nat) (done : List PythonArgKind) (driver : Driver) :
    List PyObj → List PythonArgKind → List Bool → Option State
  | [], _, _ => some (s.setPhase i (.ready h done false))
  | _ :: _, [], _ => none
  | arg :: args, kind :: kinds, flags =>
    let pooled := s.helpers h
    let s := s.logged (extractCalls i driver kind arg)
    match extractCudaArg driver kind arg (flags.headD false) pooled.helper with
    | .ok helper => some ((s.setHelper h { pooled with helper := helper }).setPhase i (.extracting h (done ++ [kind]) args kinds flags.tail))
    | .error (.raised _) => some (s.putHelper i h)
    | .error .undefined => none

def extractFast (s : State) (i h : Nat) (kinds : List PythonArgKind) (k : Nat) : List PyObj → List ScalarExtractor → Option State
  | _, [] =>
    let pooled := s.helpers h
    some ((s.setHelper h { pooled with helper := { pooled.helper with constants := [], cudaContext := none } }).setPhase i (.ready h kinds true))
  | [], _ :: _ => none
  | arg :: args, ex :: exs =>
    let pooled := s.helpers h
    match ex arg (pooled.helper.cuargs.getD k 0) with
    | .ok slot => some ((s.setHelper h (storeFast pooled k slot)).setPhase i (.fast h kinds (k + 1) args exs))
    | .error (.raised _) => some (s.putHelper i h)
    | .error .undefined => none

def launch (s : State) (i h : Nat) (kinds : List PythonArgKind) (fast : Bool) : State :=
  let pooled := if fast then s.helpers h else (s.helpers h).buildPointers
  let params := if fast then recordParamsFast kinds pooled else recordParams kinds pooled.helper
  ((s.setHelper h pooled).logged (params.map (.kernelArg i))).setPhase i (.launched h)

def step (s : State) : Action → Option State
  | .begin i args =>
    match s.launches i with
    | .idle => some (s.getHelper i args)
    | _ => none
  | .prepare i profile =>
    match s.launches i with
    | .started h args => some (prepare s i h args profile)
    | _ => none
  | .extract i driver =>
    match s.launches i with
    | .extracting h done args kinds flags => extract s i h done driver args kinds flags
    | _ => none
  | .extractFast i =>
    match s.launches i with
    | .fast h kinds k args exs => extractFast s i h kinds k args exs
    | _ => none
  | .launch i =>
    match s.launches i with
    | .ready h kinds fast => some (launch s i h kinds fast)
    | _ => none
  | .synchronize i =>
    match s.launches i with
    | .launched h => some (s.setPhase i (.copying h (s.helpers h).helper.recordCopies))
    | _ => none
  | .copyBack i =>
    match s.launches i with
    | .copying h (info :: infos) => some ((s.logged [.copyBack i info.devicePtr]).setPhase i (.copying h infos))
    | _ => none
  | .finish i =>
    match s.launches i with
    | .copying h [] => some (s.putHelper i h)
    | _ => none
  | .fail i => (s.launches i).helper.map fun h => s.putHelper i h

end NumbaCudaMlir.RecordBuffers

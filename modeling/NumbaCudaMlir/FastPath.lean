import NumbaCudaMlir.Extract

/-!
# Profiles and the fast path

What the dispatcher remembers for a vector of argument types, and the two ways
`launch` turns arguments into kernel parameters: the standard path through
`extract_cuda_args`, and the fast path for launches of plain scalars.
-/

namespace NumbaCudaMlir

open CInt

/-! ## Profiles -/

/-- Numba's literal types exist for exact `int` and `bool` values. -/
def literalEligible (ty : PyType) : Bool := ty = .long .int ∨ ty = .long .bool

/-- One flag for each native argument; arguments past the parameters are not constant. -/
def effectiveConstantArgFlags : (constantArgFlags literalArgFlags : List Bool) → List PyType → List Bool
  | _, _, [] => []
  | c :: cs, l :: ls, ty :: tys => (c || (l && literalEligible ty)) :: effectiveConstantArgFlags cs ls tys
  | _, _, _ :: tys => false :: effectiveConstantArgFlags [] [] tys

/-- The kernel family is named by its parameter kinds. -/
structure PythonArgProfile where
  family : List ParameterKind
  argKinds : List PythonArgKind
  constantArgFlags : List Bool
  deriving DecidableEq, Repr

abbrev ScalarExtractor := PyObj → CudaArg → Result CudaArg

def fastExtractNpFloat32 : ScalarExtractor
  | .npFloat32 bits, out => .ok (out.extractLsb' 32 32 ++ bits)
  | _, _ => .error .undefined

def fastExtractPyFloat : ScalarExtractor
  | .float _ bits, _ => .ok bits
  | _, _ => .error .undefined

def fastExtractPyLong : ScalarExtractor
  | .long _ v, _ => (asLongLong v).map cudaArgI64
  | _, _ => .error .undefined

def fastExtractNpInteger : ScalarExtractor
  | .npInteger n, _ => (pylongAsInt n.value).map cudaArgI64
  | _, _ => .error .undefined

def getScalarExtractor : PythonArgKind → Option ScalarExtractor
  | .npFloat32 => some fastExtractNpFloat32
  | .pyFloat => some fastExtractPyFloat
  | .pyLong => some fastExtractPyLong
  | .npInteger => some fastExtractNpInteger
  | _ => none

def scalarExtractors : List PythonArgKind → List Bool → Option (List ScalarExtractor)
  | [], _ => some []
  | kind :: kinds, flags =>
    if flags.headD false then none
    else
      match getScalarExtractor kind with
      | none => none
      | some ex => (scalarExtractors kinds flags.tail).map (ex :: ·)

/-- The table `maybe_init_fast_path` leaves; empty when some argument needs the standard path. -/
def PythonArgProfile.fastExtractors (profile : PythonArgProfile) : List ScalarExtractor :=
  (scalarExtractors profile.argKinds profile.constantArgFlags).getD []

/-! ## Kernel parameters -/

inductive KernelParam where
  | slot (idx : Nat)
  | descriptor (ptr : CudaArg)
  deriving DecidableEq, Repr

structure LaunchParams where
  cuargs : List CudaArg
  cuargPointers : List KernelParam
  constants : List ConstantArg
  deriving DecidableEq, Repr

def ArgMetadata.pointers (cuargs : List CudaArg) (m : ArgMetadata) : List KernelParam :=
  match m.kind with
  | .array => (List.range (3 + 2 * m.ndim)).map fun i => .slot (m.startIdx + i)
  | .tmaDescriptor => [.descriptor (cuargs.getD m.startIdx 0)]
  | .scalar => [.slot m.startIdx]

def LaunchHelper.cuargPointers (helper : LaunchHelper) : List KernelParam :=
  helper.argMetadata.flatMap (·.pointers helper.cuargs)

def standardPath (driver : Driver) (profile : PythonArgProfile) (pyargs : List PyObj) (helper : LaunchHelper) :
    Result LaunchParams := do
  let helper ← extractCudaArgs driver pyargs profile.argKinds profile.constantArgFlags helper
  pure ⟨helper.cuargs, helper.cuargPointers, helper.constants⟩

def fastLoop : List ScalarExtractor → List PyObj → List CudaArg → Result (List CudaArg)
  | [], _, _ => .ok []
  | _ :: _, [], _ => .error .undefined
  | ex :: exs, arg :: args, slots => do
    let slot ← ex arg (slots.headD 0)
    let rest ← fastLoop exs args slots.tail
    pure (slot :: rest)

def fastPath (profile : PythonArgProfile) (pyargs : List PyObj) (helper : LaunchHelper) :
    Result LaunchParams := do
  let cuargs ← fastLoop profile.fastExtractors pyargs helper.cuargs
  pure ⟨cuargs, (List.range cuargs.length).map .slot, []⟩

/-- What a kernel reads of a scalar parameter: four bytes of a `float`, eight of the others. -/
def readParam (kind : PythonArgKind) (slot : CudaArg) : Nat :=
  if kind = .npFloat32 then slot.toNat % 2 ^ 32 else slot.toNat

end NumbaCudaMlir

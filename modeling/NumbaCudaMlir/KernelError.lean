/-!
# The error code of a kernel
-/

namespace NumbaCudaMlir

inductive ExcClass where
  | assertionError | indexError | valueError | runtimeError | zeroDivisionError
  | other (name : String)
  deriving DecidableEq, Repr

def kernelErrorCodes : ExcClass → Option Nat
  | .assertionError => some 1
  | .indexError => some 2
  | .valueError => some 3
  | .runtimeError => some 4
  | .zeroDivisionError => some 5
  | .other _ => none

theorem valueError_isSome : (kernelErrorCodes .valueError).isSome := rfl

/-- The compare-and-swap of `set_error_code` and `set_error_code_if_zero`: the
first error wins. -/
def setErrorCode (errorCode cell : Nat) : Nat := if cell = 0 then errorCode else cell

@[simp] theorem setErrorCode_zero (code : Nat) : setErrorCode code 0 = code := rfl

theorem setErrorCode_of_ne {cell : Nat} (h : cell ≠ 0) (code : Nat) : setErrorCode code cell = cell := if_neg h

end NumbaCudaMlir

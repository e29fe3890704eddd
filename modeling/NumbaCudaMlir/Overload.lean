import NumbaCudaMlir.Dispatcher
import NumbaCudaMlir.SigCache

/-!
# Overload lookup

How the dispatcher finds a compiled overload for the types of a call: in
`_compile_impl`, in `_compile_result_for` and in
`_find_launch_config_overload_locked`.
-/

namespace NumbaCudaMlir

section
variable {α : Type}

/-- The loop of the generic branch of `_compile_impl`. -/
def firstReusable (overloads : Dict (List NumbaType) α) (argtypes : List NumbaType) : Option α :=
  (overloads.entries.find? fun e => canReuseOverloads e.1 argtypes).map (·.2)

/-- `_compile_result_for`, without a launch config. -/
def compileResultFor (overloads : Dict (List NumbaType) α) (argtypes : List NumbaType) : Option α :=
  (overloads.get argtypes).or (firstReusable overloads argtypes)

def findLaunchConfigOverload (overloads : Dict (List NumbaType × LaunchConfig) α) (argtypes : List NumbaType)
    (key : LaunchConfig) : Option α :=
  (overloads.get (argtypes, key)).or
    ((overloads.entries.find? fun e => e.1.2 = key ∧ canReuseOverloads e.1.1 argtypes).map (·.2))

/-- The generic branch of `_compile_impl` when it cannot compile; `none` where it raises. -/
def resolveResult (overloads : Dict (List NumbaType) α) (argtypes : List NumbaType) : Option α :=
  match SigCache.resolveOverload overloads.keys (argtypes.map some) with
  | [sig] => overloads.get sig
  | _ => none

def resolveLaunchConfigResult [DecidableEq α] (overloads : Dict (List NumbaType × LaunchConfig) α)
    (argtypes : List NumbaType) (key : LaunchConfig) : Option α :=
  let candidates := overloads.keys.filterMap fun k => if k.2 = key then some k.1 else none
  match (SigCache.resolveOverload candidates (argtypes.map some)).map fun sig => overloads.get (sig, key) with
  | [] => none
  | r :: rs => if rs.all (· = r) then r else none

end

end NumbaCudaMlir

import NumbaCudaMlir.Convert
import NumbaCudaMlir.Printf
import NumbaCudaMlir.StringEq

/-!
# print

The calls of `printf` that `lower_print` emits: one for all arguments where each
has a format, and else one for every part of every argument.
-/

namespace NumbaCudaMlir.Print

open MachineInt StringEq Printf

/-! ## Loading -/

/-- An argument of `print`. Of booleans it makes no difference whether they are literals. -/
inductive PrintArg where
  | literalInteger (n : Int)
  | literalString (s : PyString) (compact : s.Compact)
  | integer (ty : IntType) (x : BitVec ty.bits)
  | boolean (b : Bool)
  | string (s : PyString) (compact : s.Compact)
  /-- `threadIdx`, `blockIdx`, `blockDim` or `gridDim` -/
  | dim3 (x y z : Fin (2 ^ 31))
  | tuple (items : List PrintArg)

/-- An argument that `load_var` has loaded: no literal is left. -/
inductive Value where
  | integer (ty : IntType) (x : BitVec ty.bits)
  | boolean (b : Bool)
  /-- A `unicode_type` struct, whose data is the string's -/
  | unicode (s : PyString) (compact : s.Compact)
  | dim3 (x y z : Fin (2 ^ 31))
  | tuple (items : List Value)

def int64 : IntType := ⟨true, .w64⟩

/-- `materialize_string_constant`: of bytes that are not ASCII the string attribute is longer than the global. -/
def materializes (s : PyString) : Bool := (materializeStringConstant 0 s).1.all fun b => b.toNat < 128

mutual

/-- `load_var`, with `lower_literal_if_needed`. -/
def loadVar : PrintArg → Option Value
  | .literalInteger n => (integerAttr 64 n).map (.integer int64)
  | .literalString s h => if materializes s then some (.unicode s h) else none
  | .integer ty x => some (.integer ty x)
  | .boolean b => some (.boolean b)
  | .string s h => some (.unicode s h)
  | .dim3 x y z => some (.dim3 x y z)
  | .tuple items => (loadVars items).map .tuple

def loadVars : List PrintArg → Option (List Value)
  | [] => some []
  | arg :: args => do
    let value ← loadVar arg
    let values ← loadVars args
    some (value :: values)

end

/-! ## One call -/

def text (s : String) : Piece := .text (encode s.toList)

/-- `gpu.thread_id` and its like, of the type `index`. -/
def index (n : Fin (2 ^ 31)) : Arg := .integer int64 (BitVec.ofNat 64 n)

def pointer (s : PyString) : Arg := .pointer (materializeStringConstant 0 s).1

/-- A single item is followed by a comma. -/
def closing (items : List Value) : List Piece := (if items.length = 1 then [text ","] else []) ++ [text ")"]

mutual

def getFormatAndValues : Value → Option (List Piece × List Arg)
  | .integer ty x => some ([.conversion .lld], [.integer ty x])
  | .boolean _ => none
  | .unicode s _ => some ([.conversion .s], [pointer s])
  | .dim3 x y z =>
    some ([text "(", .conversion .lld, text ", ", .conversion .lld, text ", ", .conversion .lld, text ")"], [index x, index y, index z])
  | .tuple items => do
    let (fmt, values) ← joinFormats (text ", ") true items
    some (text "(" :: fmt ++ closing items, values)

/-- The loop over the items of a tuple, and over the arguments of `print`. -/
def joinFormats (sep : Piece) (first : Bool) : List Value → Option (List Piece × List Arg)
  | [] => some ([], [])
  | value :: rest => do
    let (fmt, values) ← getFormatAndValues value
    let (fmts, more) ← joinFormats sep false rest
    some ((if first then [] else [sep]) ++ fmt ++ fmts, values ++ more)

end

/-! ## A call for each part -/

def printf (piece : Piece) (args : List Arg) : Call := ⟨[piece], args⟩

mutual

/-- `_lower_print_arg`; of a boolean the branch that is taken. -/
def lowerPrintArg : Value → List Call
  | .integer ty x => [printf (.conversion .d) [.integer ty x]]
  | .boolean b => [printf (text (if b then "True" else "False")) []]
  | .unicode s _ => [printf (.conversion .s) [pointer s]]
  | .dim3 x y z =>
    [printf (text "(") [], printf (.conversion .d) [index x], printf (text ", ") [], printf (.conversion .d) [index y],
      printf (text ", ") [], printf (.conversion .d) [index z], printf (text ")") []]
  | .tuple items => printf (text "(") [] :: joinCalls (text ", ") true items ++ (closing items).map (printf · [])

/-- The loop over the items of a tuple, and over the arguments of `print`. -/
def joinCalls (sep : Piece) (first : Bool) : List Value → List Call
  | [] => []
  | value :: rest => (if first then [] else [printf sep []]) ++ lowerPrintArg value ++ joinCalls sep false rest

end

def separateCalls (args : List Value) (sep ending : List Char) : List Call :=
  joinCalls (.text (encode sep)) true args ++ [printf (.text (encode ending)) []]

def combinedCall (args : List Value) (sep ending : List Char) : Option Call := do
  let (fmt, values) ← joinFormats (.text (encode sep)) true args
  some ⟨fmt ++ [.text (encode ending)], values⟩

def lowerPrint (args : List PrintArg) (sep ending : List Char) : Option (List Call) := do
  let args ← loadVars args
  match combinedCall args sep ending with
  | some call => some [call]
  | none => some (separateCalls args sep ending)

end NumbaCudaMlir.Print

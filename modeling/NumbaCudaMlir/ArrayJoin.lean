import NumbaCudaMlir.ArrayIndex
import NumbaCudaMlir.Convert
import NumbaCudaMlir.KernelError
import NumbaCudaMlir.Tensor
import NumbaCudaMlir.UnifyTypes

/-!
# Joining arrays

`np.concatenate` copies its arrays one after the other along an axis that is
chosen at run time, and `np.stack` copies each to its own index of a new axis.
The other functions of the family are one of the two, on axes of their own.
-/

namespace NumbaCudaMlir.ArrayJoin

open ArrayIndex (MemRef)
open MachineInt
open NumberTyping (OperandType UnifiedType unifyTypes)
open Tensor

/-! ## Arrays -/

/-- The width of an element in memory; a boolean is a byte. -/
def storageWidth : OperandType → Nat
  | .boolean => 8
  | .integer ty => ty.bits

inductive Scalar where
  | int (width : Nat) (bits : BitVec width)
  | float (x : BinaryFloat.Value)
  deriving DecidableEq

/-- An array of NumPy has at most 64 dimensions, and the byte of a boolean is 0 or 1. -/
structure Source where
  dtype : OperandType
  isF : Bool
  ref : MemRef
  memory : Int → BitVec (storageWidth dtype)
  rank_le : ref.extents.length ≤ 64
  boolean_byte : dtype = .boolean → ∀ a, (memory a).toNat ≤ 1

abbrev Source.sizes (a : Source) : List Nat := a.ref.extents

abbrev Source.rank (a : Source) : Nat := a.sizes.length

def Source.load (a : Source) (indices : List Nat) : BitVec (storageWidth a.dtype) :=
  a.memory (a.ref.address (indices.map fun i : Nat => (i : Int)))

/-- `mlir_convert` to the element type of the result. -/
def mlirConvert (target : UnifiedType) {w : Nat} (x : BitVec w) : Scalar :=
  match target with
  | .boolean => .int 8 (convertInteger none 8 x)
  | .integer ty => .int ty.bits (convertInteger none ty.bits x)
  | .float64 => .float (convertIntegerToFloat none BinaryFloat.binary64 x)

/-- What the lowered code does: the allocation, the stores to it in their order,
and the conditions under which it reports a `ValueError`. -/
structure Lowered where
  shape : List Nat
  transposed : Bool
  stores : List (List Nat × Scalar)
  errors : List Bool

/-- An allocation in Fortran order is the transposed one of the reversed shape. -/
def Lowered.address (r : Lowered) (indices : List Nat) : Nat :=
  if r.transposed then linear r.shape.reverse indices.reverse else linear r.shape indices

def Lowered.memory (r : Lowered) (m : Nat → Scalar) : Nat → Scalar := writeAll m (r.stores.map fun s => (r.address s.1, s.2))

def Lowered.errorCode (r : Lowered) (cell : Nat) : Nat :=
  r.errors.foldl (fun cell invalid => if invalid then setErrorCode ((kernelErrorCodes .valueError).get valueError_isSome) cell else cell) cell

/-! ## Helpers -/

def indexOf (n : Nat) : BitVec 64 := BitVec.ofNat 64 n

structure Axis where
  ty : IntType
  bits : BitVec ty.bits

def intrinsicAxis (axis : Axis) (rank : Nat) : BitVec 64 × Bool :=
  let index := axis.bits.signExtend 64
  let index := if index.slt 0 then index + indexOf rank else index
  (index, (indexOf rank).ule index)

def emit (target : UnifiedType) (source : Source) (mapIndex : List Nat → List Nat) : List Nat → List Nat → List (List Nat × Scalar)
  | [], sourceIndices => [(mapIndex sourceIndices, mlirConvert target (source.load sourceIndices))]
  | n :: sizes, sourceIndices => (List.range n).flatMap fun i => emit target source mapIndex sizes (sourceIndices ++ [i])

def intrinsicCopyArray (target : UnifiedType) (source : Source) (mapIndex : List Nat → List Nat) : List (List Nat × Scalar) :=
  emit target source mapIndex source.sizes []

def intrinsicSelectAxis {α : Type} (axis : BitVec 64) (last : Nat) (candidates : Nat → α) : α :=
  (List.range last).foldl (fun selected i => if axis = indexOf (i + 1) then candidates (i + 1) else selected) (candidates 0)

/-! ## Concatenation -/

def nextOffset (axis : BitVec 64) (rank offset : Nat) (member : List Nat) : Nat :=
  (List.range rank).foldl (fun offset dim => if axis = indexOf dim then offset + member.getD dim 0 else offset) offset

def concatStores (target : UnifiedType) (axis : BitVec 64) (rank : Nat) : Nat → List Source → List (List Nat × Scalar)
  | _, [] => []
  | offset, array :: arrays =>
    intrinsicCopyArray target array (fun indices => indices.mapIdx fun dim index => if axis = indexOf dim then index + offset else index) ++
      concatStores target axis rank (nextOffset axis rank offset array.sizes) arrays

def intrinsicConcat (target : UnifiedType) (isF : Bool) (first : Source) (rest : List Source) (axis : BitVec 64) : Lowered :=
  let rank := first.rank
  let shape := (List.range rank).map fun dim =>
    if axis = indexOf dim then ((first :: rest).map fun array => array.sizes.getD dim 0).sum else first.sizes.getD dim 0
  { shape
    transposed := isF && decide (2 ≤ shape.length)
    stores := concatStores target axis rank 0 (first :: rest)
    errors := (List.range rank).flatMap fun dim => rest.map fun member =>
      decide (member.sizes.getD dim 0 ≠ first.sizes.getD dim 0) && !decide (axis = indexOf dim) }

/-! ## Stacking -/

def stackIndex (axis : BitVec 64) (rank leadingUnits trailingUnits arrayNumber : Nat) (indices : List Nat) : List Nat :=
  let candidate (insertionAxis : Nat) :=
    List.replicate leadingUnits 0 ++ indices.insertIdx insertionAxis arrayNumber ++ List.replicate trailingUnits 0
  (List.range (leadingUnits + (rank + 1) + trailingUnits)).map fun dim =>
    intrinsicSelectAxis axis rank fun insertionAxis => (candidate insertionAxis).getD dim 0

def stackStores (target : UnifiedType) (axis : BitVec 64) (rank leadingUnits trailingUnits : Nat) :
    Nat → List Source → List (List Nat × Scalar)
  | _, [] => []
  | arrayNumber, array :: arrays =>
    intrinsicCopyArray target array (stackIndex axis rank leadingUnits trailingUnits arrayNumber) ++
      stackStores target axis rank leadingUnits trailingUnits (arrayNumber + 1) arrays

def intrinsicStack (target : UnifiedType) (isF : Bool) (first : Source) (rest : List Source) (axis : BitVec 64)
    (leadingUnits trailingUnits : Nat) : Lowered :=
  let rank := first.rank
  let arrays := first :: rest
  let shape := List.replicate leadingUnits 1 ++
    ((List.range (rank + 1)).map fun dim =>
      intrinsicSelectAxis axis rank fun insertionAxis => (first.sizes.insertIdx insertionAxis arrays.length).getD dim 0) ++
    List.replicate trailingUnits 1
  { shape
    transposed := isF && decide (2 ≤ shape.length)
    stores := stackStores target axis rank leadingUnits trailingUnits 0 arrays
    errors := rest.flatMap fun member => List.zipWith (fun left right => decide (left ≠ right)) first.sizes member.sizes }

/-! ## The functions -/

inductive Op where
  | concatenate (axis : Axis)
  | stack (axis : Axis)
  | hstack | vstack | dstack
  | columnStack

def Op.Accepts : Op → Nat → List Nat → Prop
  | .concatenate _, rank, ranks => 0 < rank ∧ ∀ r ∈ ranks, r = rank
  | .columnStack, rank, ranks => ∀ r ∈ rank :: ranks, r = 1 ∨ r = 2
  | _, rank, ranks => ∀ r ∈ ranks, r = rank

structure Call where
  op : Op
  first : Source
  rest : List Source
  accepted : op.Accepts first.rank (rest.map Source.rank)

def columnRef (r : MemRef) : MemRef where
  offset := r.offset
  extents := [r.extents.headD 0, 1]
  strides := [r.strides.headD 0, 1]
  rank := rfl
  small n hn := by
    rcases List.mem_pair.mp hn with rfl | rfl
    · cases h : r.extents with
      | nil => exact Nat.two_pow_pos 63
      | cons m ms => exact r.small m (by simp [h])
    · exact Nat.one_lt_two_pow (by decide)

theorem matrix_rank_le : (2 : Nat) ≤ 64 := by decide

def promoteColumn (array : Source) : Source :=
  if array.rank = 1 then { array with ref := columnRef array.ref, rank_le := matrix_rank_le } else array

def Call.arrays (c : Call) : List Source := c.first :: c.rest

def Call.target (c : Call) : UnifiedType := unifyTypes (c.arrays.map Source.dtype)

def Call.isF (c : Call) : Bool := c.arrays.all Source.isF

def lower (c : Call) : Lowered :=
  let concat := intrinsicConcat c.target c.isF
  let stack := intrinsicStack c.target c.isF
  match c.op with
  | .concatenate axis =>
    let (index, invalid) := intrinsicAxis axis c.first.rank
    let r := concat c.first c.rest index
    { r with errors := invalid :: r.errors }
  | .stack axis =>
    let (index, invalid) := intrinsicAxis axis (c.first.rank + 1)
    let r := stack c.first c.rest index 0 0
    { r with errors := invalid :: r.errors }
  | .hstack =>
    if c.first.rank = 0 then stack c.first c.rest (indexOf 0) 0 0
    else concat c.first c.rest (indexOf (if c.first.rank = 1 then 0 else 1))
  | .vstack =>
    if c.first.rank = 0 then stack c.first c.rest (indexOf 0) 0 1
    else if c.first.rank = 1 then stack c.first c.rest (indexOf 0) 0 0
    else concat c.first c.rest (indexOf 0)
  | .dstack =>
    if c.first.rank = 0 then stack c.first c.rest (indexOf 0) 2 0
    else if c.first.rank = 1 then stack c.first c.rest (indexOf 1) 1 0
    else if c.first.rank = 2 then stack c.first c.rest (indexOf 2) 0 0
    else concat c.first c.rest (indexOf 2)
  | .columnStack => concat (promoteColumn c.first) (c.rest.map promoteColumn) (indexOf 1)

/-! ## NumPy -/

/-- The element as a number of the result, read by its own sign. -/
def ownConvert (target : UnifiedType) (d : OperandType) (x : BitVec (storageWidth d)) : Scalar :=
  let n := value d.signed x
  match target with
  | .boolean => .int 8 (BitVec.ofInt 8 n)
  | .integer ty => .int ty.bits (BitVec.ofInt ty.bits n)
  | .float64 => .float (BinaryFloat.ofInt BinaryFloat.binary64 n)

def normalizeAxis (axis : Int) (rank : Nat) : Option Nat :=
  if 0 ≤ axis ∧ axis < rank then some axis.toNat
  else if axis < 0 ∧ 0 ≤ axis + rank then some (axis + rank).toNat
  else none

def Axis.value (axis : Axis) : Int := MachineInt.value axis.ty.signed axis.bits

section
variable {α : Type}

def expandDims (k : Nat) (v : View α) : View α := ⟨v.sizes.insertIdx k 1, fun is => v.elem (is.eraseIdx k)⟩

def atleast1d (v : View α) : View α :=
  match v.sizes with
  | [] => ⟨[1], fun _ => v.elem []⟩
  | _ => v

def atleast2d (v : View α) : View α :=
  match v.sizes with
  | [] => ⟨[1, 1], fun _ => v.elem []⟩
  | [m] => ⟨[1, m], fun is => v.elem [is.getD 1 0]⟩
  | _ => v

def atleast3d (v : View α) : View α :=
  match v.sizes with
  | [] => ⟨[1, 1, 1], fun _ => v.elem []⟩
  | [m] => ⟨[1, m, 1], fun is => v.elem [is.getD 1 0]⟩
  | [m, n] => ⟨[m, n, 1], fun is => v.elem [is.getD 0 0, is.getD 1 0]⟩
  | _ => v

def asColumn (v : View α) : View α :=
  match v.sizes with
  | [m] => ⟨[m, 1], fun is => v.elem [is.getD 0 0]⟩
  | _ => v

/-- The arrays that NumPy concatenates along axis `k`. -/
def Op.promote (op : Op) (k : Nat) (v : View α) : View α :=
  match op with
  | .concatenate _ => v
  | .stack _ => expandDims k v
  | .hstack => atleast1d v
  | .vstack => atleast2d v
  | .dstack => atleast3d v
  | .columnStack => asColumn v

end

/-- The axis that NumPy concatenates along, where an axis argument is read by `read`. -/
def Op.axis (read : Axis → Int) (op : Op) (rank : Nat) : Option Nat :=
  match op with
  | .concatenate axis => normalizeAxis (read axis) rank
  | .stack axis => normalizeAxis (read axis) (rank + 1)
  | .hstack => some (if rank ≤ 1 then 0 else 1)
  | .vstack => some 0
  | .dstack => some 2
  | .columnStack => some 1

def Source.view (convert : (d : OperandType) → BitVec (storageWidth d) → Scalar) (a : Source) : View Scalar :=
  ⟨a.sizes, fun is => convert a.dtype (a.load is)⟩

section
variable (convert : (d : OperandType) → BitVec (storageWidth d) → Scalar)

def Call.firstView (c : Call) (k : Nat) : View Scalar := c.op.promote k (c.first.view convert)

def Call.restViews (c : Call) (k : Nat) : List (View Scalar) := c.rest.map fun a => c.op.promote k (a.view convert)

end

/-- Axis `k` is the call's, and the shapes can be joined along it. -/
def Call.CompatibleAt (c : Call) (read : Axis → Int) (k : Nat) : Prop :=
  c.op.axis read c.first.rank = some k ∧
    Joinable k (c.firstView (ownConvert c.target) k) (c.restViews (ownConvert c.target) k)

def Call.Compatible (c : Call) (read : Axis → Int) : Prop := ∃ k, c.CompatibleAt read k

/-- NumPy's result where there is one, and otherwise an error and no store out of the allocation. -/
def Meets (c : Call) : Prop :=
  (∀ k, c.CompatibleAt Axis.value k →
    let first := c.firstView (ownConvert c.target) k
    let rest := c.restViews (ownConvert c.target) k
    (lower c).shape = concatSizes k first rest ∧
      ∀ m is, InShape is (concatSizes k first rest) → some ((lower c).memory m ((lower c).address is)) = concatElem k (first :: rest) is) ∧
  (¬c.Compatible Axis.value →
    (∀ cell, (lower c).errorCode cell ≠ 0) ∧ ∀ s ∈ (lower c).stores, (lower c).address s.1 < (lower c).shape.prod)

end NumbaCudaMlir.ArrayJoin

import NumbaCudaMlir.CInt
import NumbaCudaMlir.Strided

/-!
# Scalar indices of arrays

The four lowerings of `a[v]`, `a[v, w, ...]` and of assignments to them turn
each index into a 64-bit `index` value, add the extent to a negative signed one
and load, store or take a subview at the result.
-/

namespace NumbaCudaMlir.ArrayIndex

/-! ## Arrays -/

structure Layout where
  offset : Int
  extents : List Nat
  strides : List Int

def Layout.address (l : Layout) (coords : List Int) : Int := l.offset + Strided.dot coords l.strides

/-- An array: each extent is a non-negative 64-bit integer. -/
structure MemRef extends Layout where
  rank : strides.length = extents.length
  small : ∀ n ∈ extents, n < 2 ^ 63

def MemRef.dim (a : MemRef) (d : Nat) : BitVec 64 := BitVec.ofNat 64 (a.extents.getD d 0)

/-- The coordinates of a shape, in row-major order. -/
def box : List Nat → List (List Int)
  | [] => [[]]
  | n :: ns => (List.range n).flatMap fun (i : Nat) => (box ns).map fun j => (i : Int) :: j

/-! ## Indices -/

/-- An index: a Python integer, or a variable of an integer type with its bits. -/
inductive IndexArg where
  | const (v : Int)
  | var (signed : Bool) (width : Nat) (bits : BitVec width)

def IndexArg.value : IndexArg → Int
  | const v => v
  | var true _ bits => bits.toInt
  | var false _ bits => bits.toNat

/-- `index_of`: `arith.index_cast` extends the sign of every type. -/
def indexOf : IndexArg → BitVec 64
  | .const v => BitVec.ofInt 64 v
  | .var _ _ bits => bits.signExtend 64

def normalizeNegativeIndex (a : MemRef) (index : IndexArg) (dim : Nat) : BitVec 64 :=
  match index with
  | .var false _ _ => indexOf index
  | .const _ | .var true _ _ =>
    let i := indexOf index
    if i.slt 0 then i + a.dim dim else i

/-- The indices with their dimensions, from one dimension on. -/
def normalizeIndices (a : MemRef) : Nat → List IndexArg → List Int
  | _, [] => []
  | dim, x :: xs => (normalizeNegativeIndex a x dim).toInt :: normalizeIndices a (dim + 1) xs

/-! ## Accesses -/

structure Subview where
  offsets : List Int
  sizes : List Nat
  dimsToDrop : List Bool

def keep {α : Type} : List Bool → List α → List α
  | true :: ds, _ :: xs => keep ds xs
  | false :: ds, x :: xs => x :: keep ds xs
  | _, _ => []

/-- The coordinates in the source of an element of the collapsed subview. -/
def place : List Bool → List Int → List Int → List Int
  | true :: ds, o :: os, j => o :: place ds os j
  | false :: ds, o :: os, i :: j => (o + i) :: place ds os j
  | _, _, _ => []

def Subview.coords (v : Subview) : List (List Int) := (box (keep v.dimsToDrop v.sizes)).map (place v.dimsToDrop v.offsets)

/-- `_rank_reducing_subview`: dropped dimensions have one index and are collapsed
into the next dimension that is kept. -/
def Subview.layout (v : Subview) (a : Layout) : Layout where
  offset := a.offset + Strided.dot v.offsets a.strides
  extents := keep v.dimsToDrop v.sizes
  strides := keep v.dimsToDrop a.strides

inductive Access where
  | element (coords : List Int)
  | subview (v : Subview)
  | fill (coords : List (List Int))

def Access.coords : Access → List (List Int)
  | element c => [c]
  | subview v => v.coords
  | fill cs => cs

/-- The addresses it touches; a subview's are those of its own layout. -/
def Access.addresses (a : Layout) : Access → List Int
  | element c => [a.address c]
  | subview v => (box (v.layout a).extents).map (v.layout a).address
  | fill cs => cs.map a.address

def trailing (a : MemRef) (n : Nat) : List Nat := a.extents.drop n

def leadingSubview (a : MemRef) (indices : List Int) : Subview where
  offsets := indices ++ List.replicate (trailing a indices.length).length 0
  sizes := List.replicate indices.length 1 ++ trailing a indices.length
  dimsToDrop := List.replicate indices.length true ++ List.replicate (trailing a indices.length).length false

def lowerArrayGetitem (a : MemRef) (index : IndexArg) : Option Access :=
  let index := (normalizeNegativeIndex a index 0).toInt
  match a.extents.length with
  | 0 => none
  | 1 => some (.element [index])
  | _ => some (.subview (leadingSubview a [index]))

def lowerArraySetitem (a : MemRef) (index : IndexArg) : Option Access :=
  let index := (normalizeNegativeIndex a index 0).toInt
  match a.extents.length with
  | 0 => none
  | 1 => some (.element [index])
  | _ => some (.fill ((box (trailing a 1)).map fun j => index :: j))

/-- None is a tuple that is longer than the rank, which typing refuses. -/
def lowerArrayTupleGetitem (a : MemRef) (tupleIndices : List IndexArg) : Option Access :=
  let offsets := normalizeIndices a 0 tupleIndices
  if a.extents.length < tupleIndices.length then none
  else if a.extents.length - tupleIndices.length = 0 then some (.element offsets)
  else some (.subview (leadingSubview a offsets))

/-- A `memref.store` with fewer indices than the rank is rejected. -/
def lowerArraySetitemTuple (a : MemRef) (tup : List IndexArg) : Option Access :=
  let indices := normalizeIndices a 0 tup
  if indices.length = a.extents.length then some (.element indices) else none

inductive Index where
  | scalar (x : IndexArg)
  | tuple (xs : List IndexArg)

def Index.args : Index → List IndexArg
  | scalar x => [x]
  | tuple xs => xs

inductive Op where
  | getitem
  | setitem
deriving DecidableEq

def lower (a : MemRef) : Op → Index → Option Access
  | .getitem, .scalar x => lowerArrayGetitem a x
  | .getitem, .tuple xs => lowerArrayTupleGetitem a xs
  | .setitem, .scalar x => lowerArraySetitem a x
  | .setitem, .tuple xs => lowerArraySetitemTuple a xs

end NumbaCudaMlir.ArrayIndex

import NumbaCudaMlir.ByteMemory
import NumbaCudaMlir.IndexLoop

/-!
# String equality

`_unicode_eq_lower` folds the comparison of two known strings. Any other pair is
compared in memory, literals from a constant that `materialize_string_constant`
emits.
-/

namespace NumbaCudaMlir.StringEq

open ByteMemory IndexLoop

/-- `PY_UNICODE_1BYTE_KIND`, `PY_UNICODE_2BYTE_KIND` and `PY_UNICODE_4BYTE_KIND`. -/
inductive Kind where
  | oneByte | twoByte | fourByte
  deriving DecidableEq, Repr

/-- `_kind_to_byte_width`; also the kind's own number. -/
def Kind.width : Kind → Nat
  | oneByte => 1
  | twoByte => 2
  | fourByte => 4

/-- A string in the storage of a kind that its code points fit. -/
structure PyString where
  kind : Kind
  points : List Nat
  unicode : ∀ c ∈ points, c < 0x110000
  fits : ∀ c ∈ points, c < 256 ^ kind.width
  sized : (points.length + 1) * kind.width ≤ 2 ^ 63

/-- Length code points and a terminator. -/
def PyString.nbytes (s : PyString) : Nat := (s.points.length + 1) * s.kind.width

def PyString.byteAt (s : PyString) (i : Nat) : BitVec 8 :=
  BitVec.ofNat 8 (s.points.getD (i / s.kind.width) 0 / 256 ^ (i % s.kind.width))

def PyString.Compact (s : PyString) : Prop :=
  match s.kind with
  | .oneByte => True
  | .twoByte => ∃ c ∈ s.points, 2 ^ 8 ≤ c
  | .fourByte => ∃ c ∈ s.points, 2 ^ 16 ≤ c

structure UnicodeStruct where
  data : BitVec 64
  length : BitVec 64
  kind : BitVec 32
  isAscii : BitVec 32
  hash : BitVec 64
  meminfo : BitVec 64
  parent : BitVec 64

/-- `materialize_string_constant`: the bytes of the global at `data`, and the struct that points at it. -/
def materializeStringConstant (data : BitVec 64) (s : PyString) : List (BitVec 8) × UnicodeStruct :=
  ((List.range s.nbytes).map s.byteAt,
    { data := data
      length := BitVec.ofNat 64 s.points.length
      kind := BitVec.ofNat 32 s.kind.width
      isAscii := if s.points.all (· < 128) then 1 else 0
      hash := -1
      meminfo := 0
      parent := 0 })

inductive Operand where
  | literal (s : PyString) (compact : s.Compact)
  | value (u : UnicodeStruct)

def Operand.isLiteral : Operand → Bool
  | literal .. => true
  | value _ => false

def Operand.materialize (data : BitVec 64) : Operand → UnicodeStruct
  | literal s _ => (materializeStringConstant data s).2
  | value u => u

/-- `lhs_raw == rhs_raw` of two Python strings. -/
def foldEq (s t : PyString) : Bool := s.points == t.points

/-- One turn of the loop: the mismatches so far, and the two addresses read in each turn. -/
def compareByte (m : Memory) (lhs rhs : UnicodeStruct) (iv : BitVec 64) (st : BitVec 64 × List (BitVec 64 × BitVec 64)) :
    BitVec 64 × List (BitVec 64 × BitVec 64) :=
  let ne := m (lhs.data + iv) != m (rhs.data + iv)
  (st.1 + (BitVec.ofBool ne).setWidth 64, st.2 ++ [(lhs.data + iv, rhs.data + iv)])

def compare (m : Memory) (lhs rhs : UnicodeStruct) : Option (Bool × List (BitVec 64 × BitVec 64)) := do
  let lenEq := lhs.length == rhs.length
  let (mismatches, reads) ← forLoop (2 ^ 64) 0 lhs.length 1 (fun iv st => some (compareByte m lhs rhs iv st)) (0, [])
  some (lenEq && mismatches == 0, reads)

section
variable (m : Memory) (globals : BitVec 64 × BitVec 64)

/-- `_unicode_eq_lower`, with the addresses its loads read. -/
def unicodeEqLower : Operand → Operand → Option (Bool × List (BitVec 64 × BitVec 64))
  | .literal s _, .literal t _ => some (foldEq s t, [])
  | lhs, rhs => compare m (lhs.materialize globals.1) (rhs.materialize globals.2)

def lowerNe (lhs rhs : Operand) : Option Bool := (unicodeEqLower m globals lhs rhs).map fun r => r.1 ^^ true

end

/-! ## What the comparison is to say -/

structure Stored (m : Memory) (u : UnicodeStruct) (s : PyString) : Prop where
  length : u.length = BitVec.ofNat 64 s.points.length
  data : ∀ i < s.nbytes, m (u.data + BitVec.ofNat 64 i) = s.byteAt i

def Operand.Denotes (m : Memory) (data : BitVec 64) : Operand → PyString → Prop
  | literal t _, s => t = s ∧ ∀ i b, (materializeStringConstant data t).1[i]? = some b → m (data + BitVec.ofNat 64 i) = b
  | value u, s => Stored m u s

/-- The comparison of two strings is right and stays in their buffers. -/
def Compares (m : Memory) (globals : BitVec 64 × BitVec 64) (lhs rhs : Operand) (s t : PyString) : Prop :=
  ∃ r reads, unicodeEqLower m globals lhs rhs = some (r, reads) ∧ (r = true ↔ s.points = t.points) ∧
    lowerNe m globals lhs rhs = some (!r) ∧ r = foldEq s t ∧
    ∀ a ∈ reads, (a.1 - (lhs.materialize globals.1).data).toNat < s.nbytes ∧ (a.2 - (rhs.materialize globals.2).data).toNat < t.nbytes

/-- What is fixed of an operand before its characters are known. -/
structure Shape where
  literal : Bool
  kind : Kind
  length : Nat
  sized : (length + 1) * kind.width ≤ 2 ^ 63
  compact : literal = true → length = 0 → kind = .oneByte

structure HasShape (shape : Shape) (op : Operand) (s : PyString) : Prop where
  literal : op.isLiteral = shape.literal
  kind : s.kind = shape.kind
  length : s.points.length = shape.length

/-- Whatever characters the operands have, they are compared as they should. -/
def Meets (l r : Shape) : Prop :=
  ∀ m globals lhs rhs s t, lhs.Denotes m globals.1 s → rhs.Denotes m globals.2 t → HasShape l lhs s → HasShape r rhs t →
    Compares m globals lhs rhs s t

end NumbaCudaMlir.StringEq

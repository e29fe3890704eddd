import Mathlib.Data.BitVec
import NumbaCudaMlir.ArrayIndexSound
import NumbaCudaMlir.ByteMemory
import NumbaCudaMlir.Convert
import NumbaCudaMlir.Runs

/-!
# Atomic operations

The calls of `cuda.atomic` on arrays of integers, each one atomic step on the
memory. Integers have no sign in MLIR: the operators of Python compare them as
signed ones.
-/

namespace NumbaCudaMlir.Atomics

open ArrayIndex (IndexArg MemRef indexOf)
open ByteMemory (Memory load store)
open MachineInt

/-! ## Calls -/

structure Operand where
  type : IntType
  bits : BitVec type.bits

inductive Oper where
  | add | sub | or | and | xor | min | max | nanmin | nanmax
  deriving DecidableEq

inductive Operation where
  | rmw (oper : Oper) (val : Operand)
  | exch (val : Operand)
  | inc (val : Operand)
  | dec (val : Operand)
  | cas (old val : Operand)

structure Call where
  thread : Nat
  index : List IndexArg
  operation : Operation

def compareAndSwap (a : MemRef) (thread : Nat) (old val : Operand) : Call :=
  ⟨thread, .replicate a.extents.length (.const 0), .cas old val⟩

def unsignedIntNumbaTypes : List IntType := [⟨false, .w32⟩, ⟨false, .w64⟩]

def integerNumbaTypes : List IntType := [⟨true, .w32⟩, ⟨false, .w32⟩, ⟨true, .w64⟩, ⟨false, .w64⟩]

def Operation.supportedTypes : Operation → List IntType
  | inc _ | dec _ => unsignedIntNumbaTypes
  | rmw .. | exch _ | cas .. => integerNumbaTypes

/-! ## Operations -/

inductive ElementType where
  | integer
  | float

inductive AtomicBinOp where
  | fadd | add | or | and | xor | min | max | fminimum | fmaximum | fmin | fmax | xchg

def atomicBinopForOperator : Oper → ElementType → Option AtomicBinOp
  | .add, .float | .sub, .float => some .fadd
  | .add, .integer | .sub, .integer => some .add
  | .or, .integer => some .or
  | .and, .integer => some .and
  | .xor, .integer => some .xor
  | .min, .integer | .nanmin, .integer => some .min
  | .max, .integer | .nanmax, .integer => some .max
  | .min, .float => some .fminimum
  | .max, .float => some .fmaximum
  | .nanmin, .float => some .fmin
  | .nanmax, .float => some .fmax
  | .or, .float | .and, .float | .xor, .float => none

def AtomicBinOp.apply {w : Nat} (x v : BitVec w) : AtomicBinOp → Option (BitVec w)
  | add => some (x + v)
  | or => some (x ||| v)
  | and => some (x &&& v)
  | xor => some (x ^^^ v)
  | min => some (if x.slt v then x else v)
  | max => some (if v.slt x then x else v)
  | xchg => some v
  | fadd | fminimum | fmaximum | fmin | fmax => none

def cudaAtomicIncBody {w : Nat} (valueAtIndex argumentValue : BitVec w) : BitVec w :=
  if argumentValue.sle valueAtIndex then 0 else valueAtIndex + 1

def cudaAtomicDecBody {w : Nat} (valueAtIndex argumentValue : BitVec w) : BitVec w :=
  if valueAtIndex = 0 ∨ argumentValue.slt valueAtIndex then argumentValue else valueAtIndex - 1

section
variable (dtype : IntType)

def Operand.convert (v : Operand) : BitVec dtype.bits := convertInteger none dtype.bits v.bits

/-- `cuda_atomic_cg`, `cuda_atomic_exch_cg`, `cuda_generic_atomic_cg` and `cuda_atomic_cas_cg` on the element. -/
def Operation.apply (x : BitVec dtype.bits) : Operation → Option (BitVec dtype.bits)
  | rmw oper val => do
    let binop ← atomicBinopForOperator oper .integer
    let value := val.convert dtype
    binop.apply x (if oper = .sub then 0 - value else value)
  | exch val => AtomicBinOp.xchg.apply x (val.convert dtype)
  | inc val => some (cudaAtomicIncBody x (val.convert dtype))
  | dec val => some (cudaAtomicDecBody x (val.convert dtype))
  | cas old val =>
    -- `val` is not converted, and `arith.select` takes operands of one type
    if val.type.width = dtype.width then some (if x = old.convert dtype then val.bits.setWidth dtype.bits else x) else none

/-! ## Elements -/

def itemBytes : Nat := dtype.bits / 8

/-- The address of a memref's element at offset zero is `base`. -/
def memrefDataPointer (a : MemRef) (base : BitVec 64) : BitVec 64 := base + BitVec.ofInt 64 a.offset * BitVec.ofNat 64 (itemBytes dtype)

def linearIndex (indices : List (BitVec 64)) (strides : List Int) : BitVec 64 :=
  (indices.zip strides).foldl (fun linear (i, stride) => linear + i * BitVec.ofInt 64 stride) 0

def memrefIndexOffset (a : MemRef) (indices : List (BitVec 64)) : Option (BitVec 64) :=
  if indices.length = 1 ∧ a.extents.length ≠ 1 then indices[0]?
  else if indices.length ≠ a.extents.length then none
  else some (linearIndex indices a.strides)

def memrefToLlvmPtr (a : MemRef) (base : BitVec 64) (indices : List (BitVec 64)) : Option (BitVec 64) := do
  let offset ← memrefIndexOffset a indices
  some (memrefDataPointer dtype a base + offset * BitVec.ofNat 64 (itemBytes dtype))

/-- The element of a `memref.generic_atomic_rmw`, which takes one index for each dimension. -/
def memrefElementPtr (a : MemRef) (base : BitVec 64) (indices : List (BitVec 64)) : Option (BitVec 64) :=
  if indices.length = a.extents.length then some (memrefDataPointer dtype a base + linearIndex indices a.strides * BitVec.ofNat 64 (itemBytes dtype))
  else none

def Operation.pointer (a : MemRef) (base : BitVec 64) (indices : List (BitVec 64)) : Operation → Option (BitVec 64)
  | rmw .. | exch _ => memrefToLlvmPtr dtype a base indices
  | inc _ | dec _ | cas .. => memrefElementPtr dtype a base indices

/-! ## Runs -/

structure State where
  memory : Memory
  /-- The old values, each with the thread to which it was returned. -/
  returned : List (Nat × BitVec dtype.bits)

def element (m : Memory) (p : BitVec 64) : BitVec dtype.bits := BitVec.ofNat dtype.bits (load m p (itemBytes dtype))

def step (a : MemRef) (base : BitVec 64) (s : State dtype) (c : Call) : Option (State dtype) := do
  guard (dtype ∈ c.operation.supportedTypes)
  let p ← c.operation.pointer dtype a base (c.index.map indexOf)
  let x := element dtype s.memory p
  let y ← c.operation.apply dtype x
  some ⟨store s.memory p (itemBytes dtype) y.toNat, s.returned ++ [(c.thread, x)]⟩

end

end NumbaCudaMlir.Atomics

/-!
## Atomic operations in sequence

A run of atomic operations on an element gives what the documented operations
give one after another, where no index is negative or loses its value, no
negative operand is extended, and no unsigned comparison is between the halves
of the range.
-/

namespace NumbaCudaMlir.Atomics

open ArrayIndex (IndexArg KeepsValue MemRef coordinate coordinates indexOf)
open ByteMemory (Memory load store)
open CInt (wrap64)
open MachineInt
open Runs (StepsOk run)

/-! ## The documented operations -/

def Operand.value (v : Operand) : Int := MachineInt.value v.type.signed v.bits

section
variable (dtype : IntType)

/-- An operand in the element type, by its own sign. -/
def Operand.convertSigned (v : Operand) : BitVec dtype.bits := BitVec.ofInt dtype.bits v.value

def Oper.documented (x v : BitVec dtype.bits) : Oper → BitVec dtype.bits
  | add => x + v
  | sub => x - v
  | or => x ||| v
  | and => x &&& v
  | xor => x ^^^ v
  | min | nanmin => if value dtype.signed v < value dtype.signed x then v else x
  | max | nanmax => if value dtype.signed x < value dtype.signed v then v else x

/-- The element after an operation, compared in the array's own type. -/
def Operation.documented (x : BitVec dtype.bits) : Operation → BitVec dtype.bits
  | rmw oper val => oper.documented dtype x (val.convertSigned dtype)
  | exch val => val.convertSigned dtype
  | inc val => if value dtype.signed (val.convertSigned dtype) ≤ value dtype.signed x then 0 else x + 1
  | dec val =>
    if value dtype.signed x = 0 ∨ value dtype.signed (val.convertSigned dtype) < value dtype.signed x then val.convertSigned dtype else x - 1
  | cas old val => if x = old.convertSigned dtype then val.convertSigned dtype else x

/-- The element and the old values that calls one after another leave. -/
def documentedRun (x : BitVec dtype.bits) : List Call → BitVec dtype.bits × List (Nat × BitVec dtype.bits)
  | [] => (x, [])
  | c :: cs =>
    let (y, returned) := documentedRun (c.operation.documented dtype x) cs
    (y, (c.thread, x) :: returned)

/-! ## Conditions -/

/-- A negative operand is not extended. -/
def Operand.Extends (v : Operand) : Prop := v.value < 0 → dtype.bits ≤ v.type.bits

/-- Both are in the same half of the range of an unsigned type. -/
def SameHalf (x : BitVec dtype.bits) (v : Operand) : Prop := dtype.signed ∨ x.msb = (v.convertSigned dtype).msb

def Operation.Ok (x : BitVec dtype.bits) : Operation → Prop
  | rmw oper val => val.Extends dtype ∧ (oper ∈ [Oper.min, .max, .nanmin, .nanmax] → SameHalf dtype x val)
  | exch val => val.Extends dtype
  | inc val | dec val => val.Extends dtype ∧ SameHalf dtype x val
  | cas old val => old.Extends dtype ∧ val.type.width = dtype.width

def elementAddress (a : MemRef) (base : BitVec 64) (coords : List Int) : BitVec 64 :=
  base + BitVec.ofInt 64 (a.address coords) * BitVec.ofNat 64 (itemBytes dtype)

/-- A call on the element that its documentation supports. -/
structure Names (a : MemRef) (coords : List Int) (c : Call) : Prop where
  supported : dtype ∈ c.operation.supportedTypes
  inRange : ArrayIndex.InRange a.extents c.index
  rank : c.index.length = a.extents.length
  coords : coordinates a.extents c.index = coords

structure StepOk (a : MemRef) (base : BitVec 64) (coords : List Int) (s : State dtype) (c : Call) : Prop where
  names : Names dtype a coords c
  index : ∀ x ∈ c.index, 0 ≤ x.value ∧ KeepsValue x
  operation : c.operation.Ok dtype (element dtype s.memory (elementAddress dtype a base coords))

end

/-! ## Operations -/

section
variable {dtype : IntType}

theorem convert_eq {v : Operand} (h : v.Extends dtype) : v.convert dtype = v.convertSigned dtype := by
  have hwidth : dtype.bits ≠ 1 ∨ dtype.bits = v.type.bits := .inl dtype.width.one_lt_bits.ne'
  rw [Operand.convert, convertInteger_eq hwidth, Operand.convertSigned, Operand.value]
  by_cases hneg : v.value < 0
  · -- truncation keeps the bits of either reading
    rw [ofInt_eq_ofInt_iff]
    refine Int.dvd_trans (two_pow_dvd_iff.mpr (h hneg)) ?_
    rw [← ofInt_eq_ofInt_iff, ofInt_value, ofInt_value]
  · have hsame : value false v.bits = value v.type.signed v.bits := by
      rcases value_cases v.type.signed false v.bits with h0 | h0
      · exact h0.symm
      · exact absurd (h0.mpr (Int.natCast_nonneg _)) hneg
    exact congrArg (BitVec.ofInt dtype.bits) hsame

theorem slt_iff {x y : BitVec dtype.bits} (h : dtype.signed ∨ x.msb = y.msb) : x.slt y ↔ value dtype.signed x < value dtype.signed y := by
  cases hs : dtype.signed with
  | true => exact BitVec.slt_iff_toInt_lt
  | false =>
    have hmsb : x.msb = y.msb := h.resolve_left (by simp [hs])
    rw [BitVec.slt_eq_ult_of_msb_eq hmsb, BitVec.ult_iff_lt, BitVec.lt_def]
    exact Int.ofNat_lt.symm

theorem value_inj {x y : BitVec dtype.bits} (h : value dtype.signed x = value dtype.signed y) : x = y := by
  rw [← ofInt_value dtype.signed x, h, ofInt_value]

theorem value_eq_zero {x : BitVec dtype.bits} : value dtype.signed x = 0 ↔ x = 0 := by
  constructor
  · intro h
    rw [← ofInt_value dtype.signed x, h]
    rfl
  · rintro rfl
    cases dtype.signed <;> simp

theorem min_eq {x v : BitVec dtype.bits} (h : dtype.signed ∨ x.msb = v.msb) :
    (if x.slt v then x else v) = if value dtype.signed v < value dtype.signed x then v else x := by
  by_cases hlt : value dtype.signed v < value dtype.signed x
  · rw [if_pos hlt, if_neg]
    rw [slt_iff h]
    omega
  · rw [if_neg hlt]
    split
    · rfl
    · rename_i hn
      rw [slt_iff h] at hn
      exact value_inj (by omega)

theorem max_eq {x v : BitVec dtype.bits} (h : dtype.signed ∨ x.msb = v.msb) :
    (if v.slt x then x else v) = if value dtype.signed x < value dtype.signed v then v else x := by
  have hvx := slt_iff (h.imp_right Eq.symm)
  by_cases hlt : value dtype.signed x < value dtype.signed v
  · rw [if_pos hlt, if_neg]
    rw [hvx]
    omega
  · rw [if_neg hlt]
    split
    · rfl
    · rename_i hn
      rw [hvx] at hn
      exact value_inj (by omega)

theorem rmw_eq {oper : Oper} {val : Operand} {x : BitVec dtype.bits} (hext : val.Extends dtype)
    (hhalf : oper ∈ [Oper.min, .max, .nanmin, .nanmax] → SameHalf dtype x val) :
    Operation.apply dtype x (.rmw oper val) = some (oper.documented dtype x (val.convertSigned dtype)) := by
  simp only [Operation.apply, convert_eq hext]
  cases oper with
  | add | or | and | xor => rfl
  | sub =>
    have hneg : 0 - val.convertSigned dtype = -val.convertSigned dtype := BitVec.zero_sub _
    exact congrArg some ((congrArg (x + ·) hneg).trans (BitVec.sub_eq_add_neg ..).symm)
  | min | nanmin => exact congrArg some (min_eq (hhalf (by decide)))
  | max | nanmax => exact congrArg some (max_eq (hhalf (by decide)))

theorem inc_eq {val : Operand} {x : BitVec dtype.bits} (hext : val.Extends dtype) (hhalf : SameHalf dtype x val) :
    cudaAtomicIncBody x (val.convert dtype) = Operation.documented dtype x (.inc val) := by
  have hsle : (val.convertSigned dtype).sle x ↔ value dtype.signed (val.convertSigned dtype) ≤ value dtype.signed x := by
    rw [BitVec.sle_eq_not_slt, Bool.not_eq_true', ← Bool.not_eq_true, slt_iff hhalf]
    omega
  simp only [cudaAtomicIncBody, Operation.documented, convert_eq hext, hsle]

theorem dec_eq {val : Operand} {x : BitVec dtype.bits} (hext : val.Extends dtype) (hhalf : SameHalf dtype x val) :
    cudaAtomicDecBody x (val.convert dtype) = Operation.documented dtype x (.dec val) := by
  simp only [cudaAtomicDecBody, Operation.documented, convert_eq hext, slt_iff (hhalf.imp_right Eq.symm), value_eq_zero]

theorem setWidth_eq {val : Operand} (h : val.type.width = dtype.width) : val.bits.setWidth dtype.bits = val.convertSigned dtype := by
  obtain ⟨⟨signed, width⟩, bits⟩ := val
  obtain rfl : width = dtype.width := h
  exact (BitVec.setWidth_eq bits).trans (ofInt_value signed bits).symm

theorem apply_eq {op : Operation} {x : BitVec dtype.bits} (h : op.Ok dtype x) : op.apply dtype x = some (op.documented dtype x) := by
  cases op with
  | rmw oper val => exact rmw_eq h.1 h.2
  | exch val => exact congrArg some (convert_eq h)
  | inc val => exact congrArg some (inc_eq h.1 h.2)
  | dec val => exact congrArg some (dec_eq h.1 h.2)
  | cas old val => simp only [Operation.apply, Operation.documented, convert_eq h.1, if_pos h.2, setWidth_eq h.2]

/-! ## Elements -/

theorem bits_eq (dtype : IntType) : 8 * itemBytes dtype = dtype.bits ∧ itemBytes dtype ≤ 8 := by
  obtain ⟨signed, width⟩ := dtype
  cases signed <;> cases width <;> decide

theorem element_store (m : Memory) (p : BitVec 64) (x : BitVec dtype.bits) : element dtype (store m p (itemBytes dtype) x.toNat) p = x := by
  obtain ⟨hbits, hle⟩ := bits_eq dtype
  have hpow : 256 ^ itemBytes dtype = 2 ^ dtype.bits := by rw [← hbits, Nat.pow_mul]
  rw [element, ByteMemory.load_store_self m p (hle.trans (by decide)), hpow, Nat.mod_eq_of_lt x.isLt, BitVec.ofNat_toNat, BitVec.setWidth_eq]

theorem linearIndex_eq (indices : List (BitVec 64)) (strides : List Int) :
    linearIndex indices strides = BitVec.ofInt 64 (Strided.dot (indices.map BitVec.toInt) strides) := by
  have hfold : ∀ (indices : List (BitVec 64)) (strides : List Int) (acc : Int),
      (indices.zip strides).foldl (fun linear e => linear + e.1 * BitVec.ofInt 64 e.2) (BitVec.ofInt 64 acc) =
        BitVec.ofInt 64 (acc + Strided.dot (indices.map BitVec.toInt) strides) := by
    intro indices
    induction indices with
    | nil => intro strides acc; simp
    | cons i is ih =>
      intro strides acc
      cases strides with
      | nil => simp [Strided.dot]
      | cons s ss =>
        have hi : BitVec.ofInt 64 acc + i * BitVec.ofInt 64 s = BitVec.ofInt 64 (acc + i.toInt * s) := by
          rw [BitVec.ofInt_add, BitVec.ofInt_mul, BitVec.ofInt_toInt]
        rw [List.zip_cons_cons, List.foldl_cons]
        simp only [hi, ih, List.map_cons, Strided.dot_cons, Int.add_assoc]
  exact (hfold indices strides 0).trans (by rw [Int.zero_add])

theorem indexOf_coordinate {x : IndexArg} {n : Nat} (hn : n < 2 ^ 63) (hlt : x.value < n) (h0 : 0 ≤ x.value) (hkeep : KeepsValue x) :
    (indexOf x).toInt = coordinate n x.value := by
  have hcast : ArrayIndex.castValue x = x.value := by
    cases x with
    | const v => rfl
    | var signed width bits =>
      cases signed with
      | true => rfl
      | false =>
        refine ArrayIndex.toInt_of_lt ?_
        have hv : (bits.toNat : Int) < n := hlt
        rcases hkeep with hwide | hhalf
        · have := Nat.pow_le_pow_right (show 0 < 2 by decide) (show 63 ≤ width - 1 by omega)
          omega
        · exact hhalf
  rw [ArrayIndex.indexOf_toInt, hcast, CInt.wrap64_eq ⟨by omega, by omega⟩, coordinate, if_pos h0]

theorem map_indexOf : ∀ {ns : List Nat} {xs : List IndexArg}, (∀ n ∈ ns, n < 2 ^ 63) → ArrayIndex.InRange ns xs →
    (∀ x ∈ xs, 0 ≤ x.value ∧ KeepsValue x) → (xs.map indexOf).map BitVec.toInt = coordinates ns xs
  | _, [], _, _, _ => by simp [coordinates]
  | [], _ :: _, _, hr, _ => hr.elim
  | n :: ns, x :: xs, hsmall, hr, hx => by
    obtain ⟨hx0, hxs⟩ := List.forall_mem_cons.mp hx
    simp only [List.map_cons, coordinates]
    rw [indexOf_coordinate (hsmall n List.mem_cons_self) hr.1.2 hx0.1 hx0.2,
      map_indexOf (fun m hm => hsmall m (List.mem_cons_of_mem n hm)) hr.2 hxs]

theorem pointer_eq {a : MemRef} {base : BitVec 64} {coords : List Int} {c : Call} (hnames : Names dtype a coords c)
    (hindex : ∀ x ∈ c.index, 0 ≤ x.value ∧ KeepsValue x) :
    c.operation.pointer dtype a base (c.index.map indexOf) = some (elementAddress dtype a base coords) := by
  have hlength : (c.index.map indexOf).length = a.extents.length := (List.length_map _).trans hnames.rank
  have hlinear : linearIndex (c.index.map indexOf) a.strides = BitVec.ofInt 64 (Strided.dot coords a.strides) := by
    rw [linearIndex_eq, map_indexOf a.small hnames.inRange hindex, hnames.coords]
  have haddress : memrefDataPointer dtype a base + BitVec.ofInt 64 (Strided.dot coords a.strides) * BitVec.ofNat 64 (itemBytes dtype) =
      elementAddress dtype a base coords := by
    rw [memrefDataPointer, elementAddress, ArrayIndex.Layout.address, BitVec.ofInt_add, BitVec.add_assoc, ← BitVec.add_mul]
  have hmemref : memrefElementPtr dtype a base (c.index.map indexOf) = some (elementAddress dtype a base coords) := by
    rw [memrefElementPtr, if_pos hlength, hlinear, haddress]
  have hllvm : memrefToLlvmPtr dtype a base (c.index.map indexOf) = some (elementAddress dtype a base coords) := by
    rw [memrefToLlvmPtr, memrefIndexOffset, if_neg (by omega), if_neg (not_not_intro hlength), hlinear]
    exact congrArg some haddress
  cases h : c.operation with
  | rmw | exch => exact hllvm
  | inc | dec | cas => exact hmemref

/-! ## Runs -/

theorem step_eq {a : MemRef} {base : BitVec 64} {coords : List Int} {s : State dtype} {c : Call} (h : StepOk dtype a base coords s c) :
    step dtype a base s c = some
      ⟨store s.memory (elementAddress dtype a base coords) (itemBytes dtype)
          (c.operation.documented dtype (element dtype s.memory (elementAddress dtype a base coords))).toNat,
        s.returned ++ [(c.thread, element dtype s.memory (elementAddress dtype a base coords))]⟩ := by
  simp only [step, guard, if_pos h.names.supported, pointer_eq h.names h.index, Option.bind_eq_bind, Option.pure_def, Option.bind_some,
    apply_eq h.operation]

/-- Any calls on an element return what the documented operations return in the order of their steps. -/
theorem atomics_sequential {a : MemRef} {base : BitVec 64} {coords : List Int} {calls : List Call} : ∀ {s : State dtype},
    StepsOk (step dtype a base) (StepOk dtype a base coords) s calls →
      ∃ s', run (step dtype a base) s calls = some s' ∧
        (element dtype s'.memory (elementAddress dtype a base coords), s'.returned) =
          ((documentedRun dtype (element dtype s.memory (elementAddress dtype a base coords)) calls).1,
            s.returned ++ (documentedRun dtype (element dtype s.memory (elementAddress dtype a base coords)) calls).2) ∧
        ∀ b, itemBytes dtype ≤ (b - elementAddress dtype a base coords).toNat → s'.memory b = s.memory b := by
  induction calls with
  | nil =>
    intro s _
    exact ⟨s, rfl, by simp [documentedRun], fun _ _ => rfl⟩
  | cons c cs ih =>
    intro s hok
    have hstep := step_eq hok.1
    obtain ⟨s', hrun, hresult, hframe⟩ := ih (hok.2 _ hstep)
    rw [element_store] at hresult
    refine ⟨s', by rw [run, hstep]; exact hrun, ?_, fun b hb => ?_⟩
    · rw [hresult, documentedRun]
      simp
    · rw [hframe b hb]
      exact ByteMemory.store_of_le hb _

end

def counters : MemRef where
  offset := 0
  extents := [4]
  strides := [1]
  rank := rfl
  small := by decide

def uint32 (n : BitVec 32) : Operand := ⟨⟨false, .w32⟩, n⟩

theorem names_counter (t : Nat) {op : Operation} (h : ⟨false, .w32⟩ ∈ op.supportedTypes) :
    Names ⟨false, .w32⟩ counters [1] ⟨t, [.const 1], op⟩ :=
  ⟨h, ⟨by decide, trivial⟩, rfl, rfl⟩

theorem index_counter : ∀ x ∈ [IndexArg.const 1], 0 ≤ x.value ∧ KeepsValue x := by
  simp [IndexArg.value, KeepsValue]

theorem atomics_sequential_counter :
    ∃ s', run (step ⟨false, .w32⟩ counters 0) ⟨fun _ => 0, []⟩
        [⟨0, [.const 1], .rmw .add (uint32 5)⟩, ⟨1, [.const 1], .rmw .max (uint32 7)⟩, ⟨0, [.const 1], .dec (uint32 9)⟩] = some s' ∧
      (element ⟨false, .w32⟩ s'.memory (elementAddress ⟨false, .w32⟩ counters 0 [1]), s'.returned) = (6, [(0, 0), (1, 5), (0, 7)]) ∧
      ∀ b, itemBytes ⟨false, .w32⟩ ≤ (b - elementAddress ⟨false, .w32⟩ counters 0 [1]).toNat → s'.memory b = 0 := by
  have hext : ∀ n, (uint32 n).Extends ⟨false, .w32⟩ := fun n _ => le_refl 32
  refine @atomics_sequential ⟨false, .w32⟩ counters 0 [1] _ ⟨fun _ => 0, []⟩ ?_
  refine Runs.stepsOk_cons _ rfl ⟨names_counter 0 (by decide), index_counter, hext 5, fun h => absurd h (by decide)⟩ ?_
  refine Runs.stepsOk_cons _ rfl ⟨names_counter 1 (by decide), index_counter, hext 7, fun _ => .inr (by decide)⟩ ?_
  exact Runs.stepsOk_cons _ rfl ⟨names_counter 0 (by decide), index_counter, hext 9, .inr (by decide)⟩ trivial

/-- `cuda.atomic.max` with one on half of the range of an unsigned type leaves one. -/
theorem unsigned_max_takes_signed :
    element ⟨false, .w32⟩ (fun b => if b = 3 then 128 else 0) (elementAddress ⟨false, .w32⟩ counters 0 [0]) = 2 ^ 31 ∧
      (∃ s', run (step ⟨false, .w32⟩ counters 0) ⟨fun b => if b = 3 then 128 else 0, []⟩ [⟨0, [.const 0], .rmw .max (uint32 1)⟩] = some s' ∧
        element ⟨false, .w32⟩ s'.memory (elementAddress ⟨false, .w32⟩ counters 0 [0]) = 1) ∧
      documentedRun ⟨false, .w32⟩ (2 ^ 31) [⟨0, [.const 0], .rmw .max (uint32 1)⟩] = (2 ^ 31, [(0, 2 ^ 31)]) :=
  ⟨by decide, ⟨_, rfl, by decide⟩, by decide⟩

end NumbaCudaMlir.Atomics

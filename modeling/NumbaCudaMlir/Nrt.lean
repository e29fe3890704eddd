import NumbaCudaMlir.Runs
import Mathlib.Data.BitVec

/-!
# Reference-counted memory

The runtime functions for `MemInfo` blocks: their constructors, each with the
results of its calls to `malloc`, and `NRT_incref` and `NRT_decref` called by
any number of threads, one access to memory at a time. Every object carries the
history of the calls on it, which the code does not read.
-/

namespace NumbaCudaMlir.Nrt

open Runs

/-! ## Memory -/

/-- `NULL` is zero. -/
abbrev Ptr := BitVec 64

structure MemInfo where
  refct : BitVec 64
  dtor : Ptr
  dtorInfo : Ptr
  data : Ptr
  size : BitVec 64

def meminfoSizeof : BitVec 64 := 40

structure Heap where
  /-- The blocks that `malloc` gave and that were not freed. -/
  live : List Ptr
  info : Ptr → MemInfo

/-- `result` is no block in use. -/
def malloc (result : Ptr) (h : Heap) : Option (Ptr × Heap) :=
  if result = 0 then some (0, h)
  else if result ∈ h.live then none
  else some (result, { h with live := result :: h.live })

def Heap.free (h : Heap) (p : Ptr) : Heap := { h with live := h.live.erase p }

/-! ## Constructors -/

inductive Constructor where
  | new (data : Ptr) (size : BitVec 64) (dtor dtorInfo : Ptr)
  | newVarsize (size : BitVec 64)
  | newVarsizeDtor (size : BitVec 64) (dtor : Ptr)
  | allocAligned (size : BitVec 64) (align : BitVec 32)

def memInfoInit (mi data : Ptr) (size : BitVec 64) (dtor dtorInfo : Ptr) (h : Heap) : Heap :=
  { h with info := setAt h.info mi ⟨1, dtor, dtorInfo, data, size⟩ }

def memInfoNew (data : Ptr) (size : BitVec 64) (dtor dtorInfo result : Ptr) (h : Heap) : Option (Ptr × Heap) := do
  let (mi, h) ← malloc result h
  if mi ≠ 0 then some (mi, memInfoInit mi data size dtor dtorInfo h) else some (0, h)

def alignedData (base : Ptr) (align : BitVec 64) : Ptr :=
  let dataBase := base + meminfoSizeof
  let remainder := dataBase &&& (align - 1)
  if remainder = 0 then dataBase else dataBase + (align - remainder)

def memInfoAllocAligned (size : BitVec 64) (align : BitVec 32) (result : Ptr) (h : Heap) : Option (Ptr × Heap) := do
  let (base, h) ← malloc result h
  if base ≠ 0 then some (base, memInfoInit base (alignedData base (align.setWidth 64)) size 0 0 h) else some (0, h)

section
-- the address of `_nrt_varsize_dtor`
variable (varsizeDtor : Ptr)

def memInfoNewVarsize (size : BitVec 64) (dataResult miResult : Ptr) (h : Heap) : Option (Ptr × Heap) := do
  let (data, h) ← malloc dataResult h
  if data ≠ 0 then
    let (mi, h) ← malloc miResult h
    if mi ≠ 0 then some (mi, memInfoInit mi data size varsizeDtor 0 h) else some (0, h)
  else some (0, h)

def memInfoNewVarsizeDtor (size : BitVec 64) (dtor dataResult miResult : Ptr) (h : Heap) : Option (Ptr × Heap) := do
  let (mi, h) ← memInfoNewVarsize varsizeDtor size dataResult miResult h
  if mi ≠ 0 then some (mi, { h with info := setAt h.info mi { h.info mi with dtorInfo := dtor } }) else some (mi, h)

def construct (c : Constructor) (result₁ result₂ : Ptr) (h : Heap) : Option (Ptr × Heap) :=
  match c with
  | .new data size dtor dtorInfo => memInfoNew data size dtor dtorInfo result₁ h
  | .newVarsize size => memInfoNewVarsize varsizeDtor size result₁ result₂ h
  | .newVarsizeDtor size dtor => memInfoNewVarsizeDtor varsizeDtor size dtor result₁ result₂ h
  | .allocAligned size align => memInfoAllocAligned size align result₁ h

/-! ## Threads -/

inductive Event where
  | dtor (fn data : Ptr) (size : BitVec 64)
  | element (fn data : Ptr)
  | free (p : Ptr)
  deriving DecidableEq

inductive Pc where
  | idle
  | callDtor (mi : Ptr)
  | invoke (mi dtor : Ptr)
  | varsizeDtor (mi data info : Ptr)
  | varsizeFree (mi data : Ptr)
  | destroy (mi : Ptr)

structure Object where
  made : Constructor
  data : Ptr
  increfs : Nat
  decrefs : Nat
  destructions : Nat
  trace : List Event

structure State where
  heap : Heap
  threads : Nat → Pc
  objects : Ptr → Option Object

def initial : State := ⟨⟨[], fun _ => ⟨0, 0, 0, 0, 0⟩⟩, fun _ => .idle, fun _ => none⟩

inductive Action where
  | construct (c : Constructor) (result₁ result₂ : Ptr)
  | incref (t : Nat) (mi : Ptr)
  | decref (t : Nat) (mi : Ptr)
  | resume (t : Nat)

def State.setPc (s : State) (t : Nat) (pc : Pc) : State := { s with threads := setAt s.threads t pc }

def State.setRefct (s : State) (mi : Ptr) (n : BitVec 64) : State :=
  { s with heap := { s.heap with info := setAt s.heap.info mi { s.heap.info mi with refct := n } } }

def State.record (s : State) (mi : Ptr) (f : Object → Object) : State :=
  { s with objects := setAt s.objects mi ((s.objects mi).map f) }

def State.emit (s : State) (mi : Ptr) (e : Event) : State := s.record mi fun o => { o with trace := o.trace ++ [e] }

def State.free (s : State) (p : Ptr) : State := { s with heap := s.heap.free p }

def State.create (s : State) (c : Constructor) (result₁ result₂ : Ptr) : Option State := do
  let (mi, h) ← construct varsizeDtor c result₁ result₂ s.heap
  if mi = 0 then some { s with heap := h }
  else some { s with heap := h, objects := setAt s.objects mi (some ⟨c, (h.info mi).data, 0, 0, 0, []⟩) }

def incref (s : State) (t : Nat) (mi : Ptr) : Option State :=
  match s.threads t with
  | .idle =>
    if mi ≠ 0 then some ((s.setRefct mi ((s.heap.info mi).refct + 1)).record mi fun o => { o with increfs := o.increfs + 1 })
    else some s
  | _ => none

/-- `NRT_decref`, up to the call of `NRT_MemInfo_call_dtor`. -/
def decref (s : State) (t : Nat) (mi : Ptr) : Option State :=
  match s.threads t with
  | .idle =>
    if mi ≠ 0 then
      let refct := (s.heap.info mi).refct
      let s' := (s.setRefct mi (refct - 1)).record mi fun o => { o with decrefs := o.decrefs + 1 }
      if refct = 1 then some ((s'.record mi fun o => { o with destructions := o.destructions + 1 }).setPc t (.callDtor mi))
      else some s'
    else some s
  | _ => none

/-- `NRT_MemInfo_call_dtor`, `_nrt_varsize_dtor` and `NRT_MemInfo_destroy`. -/
def resume (s : State) (t : Nat) : Option State :=
  match s.threads t with
  | .idle => none
  | .callDtor mi =>
    let dtor := (s.heap.info mi).dtor
    if dtor ≠ 0 then some (s.setPc t (.invoke mi dtor)) else some (s.setPc t (.destroy mi))
  | .invoke mi dtor =>
    let data := (s.heap.info mi).data
    let s' := s.emit mi (.dtor dtor data (s.heap.info mi).size)
    if dtor = varsizeDtor then some (s'.setPc t (.varsizeDtor mi data 0)) else some (s'.setPc t (.destroy mi))
  | .varsizeDtor mi data info =>
    if info ≠ 0 then some ((s.emit mi (.element info data)).setPc t (.varsizeFree mi data)) else some (s.setPc t (.varsizeFree mi data))
  | .varsizeFree mi data => some (((s.free data).emit mi (.free data)).setPc t (.destroy mi))
  | .destroy mi => some (((s.free mi).emit mi (.free mi)).setPc t .idle)

def step (s : State) : Action → Option State
  | .construct c result₁ result₂ => s.create varsizeDtor c result₁ result₂
  | .incref t mi => incref s t mi
  | .decref t mi => decref s t mi
  | .resume t => resume varsizeDtor s t

end

end NumbaCudaMlir.Nrt

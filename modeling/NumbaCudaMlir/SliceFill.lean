import NumbaCudaMlir.IndexLoop
import NumbaCudaMlir.RecordItems
import NumbaCudaMlir.SlicingSound

/-!
# Scalars assigned to slices

`a[start:stop:step] = x` loops over the slice's bounds in the first dimension
and over all of the others. The bounds are not clamped, so the indices of the loop
have to be the array's own, and the value keeps its meaning only where conversion does.
-/

namespace NumbaCudaMlir.SliceFill

open ArrayIndex (MemRef)
open CInt (wrap64 InInt64)
open IndexLoop
open PyRange (len)
open Record (ItemType Value convert cast Castable ConvertsAs)
open Aggregate (FloatWidth)
open Slicing

abbrev Memory := Int → Value

def inBounds : List Nat → List (BitVec 64) → Bool
  | [], [] => true
  | n :: ns, i :: is => i.toNat < n && inBounds ns is
  | _, _ => false

def address (a : MemRef) (indices : List (BitVec 64)) : Int := a.address (indices.map fun i => (i.toNat : Int))

/-- `memref.store`, which is undefined out of bounds. -/
def memrefStore (v : Value) (a : MemRef) (indices : List (BitVec 64)) (m : Memory) : Option Memory :=
  if inBounds a.extents indices then some (Function.update m (address a indices) v) else none

section
variable (resize : (f g : FloatWidth) → BitVec f.bits → BitVec g.bits)

/-- The storage of a value is its bits. -/
def arrayElementValueStore (dtype : ItemType) (a : MemRef) (indices : List (BitVec 64)) (v : Value) (m : Memory) : Option Memory := do
  let stored ← convert resize v dtype.toMlir
  memrefStore stored a indices m

def bounds (a : MemRef) (slice : Slice) : List Bounds :=
  ⟨slice.start, slice.stop.getD (a.dim 0), slice.step⟩ :: (List.range (a.extents.length - 1)).map fun i => ⟨0, a.dim (i + 1), 1⟩

def lowerArraySliceSetitem (dtype : ItemType) (a : MemRef) (slice : Slice) (v : Value) (m : Memory) : Option Memory :=
  forall_ (bounds a slice) (fun indices => arrayElementValueStore resize dtype a indices v) m

def setitemSlice (dtype : ItemType) (a : MemRef) (args : SliceArgs) (v : Value) (m : Memory) : Option Memory := do
  lowerArraySliceSetitem resize dtype a (← lowerArraySlice args) v m

end

/-! ## Python's elements -/

/-- The index vectors in the array whose first index Python's range has. -/
def Selected (a : MemRef) (args : SliceArgs) (c : List Nat) : Prop :=
  List.Forall₂ (· < ·) c a.extents ∧ ∃ i is, c = i :: is ∧ ∃ j < args.pyLen (a.extents.getD 0 0),
    (i : Int) = args.pyFirst (a.extents.getD 0 0) + j * args.pyStep

section
variable (resize : (f g : FloatWidth) → BitVec f.bits → BitVec g.bits)

/-- Exactly the selected elements become the value, converted to the element type. -/
def FillsSelected (s dtype : ItemType) (a : MemRef) (args : SliceArgs) : Prop :=
  ∀ v x, v.type = s.toMlir → cast resize s dtype v = some x →
    Fills (setitemSlice resize dtype a args v) (fun p => ∃ c, Selected a args c ∧ a.address (c.map Nat.cast) = p) x

end

def FillOk (s dtype : ItemType) (a : MemRef) (args : SliceArgs) : Prop :=
  args.Accepted ∧ 0 < args.castStep ∧
    let n := a.extents.getD 0 0
    let start := args.castStart
    let stop := args.castStop n
    let turns := len start stop args.castStep
    if 0 ∈ a.extents.tail then ∃ k : Nat, stop ≤ wrap64 (start + k * args.castStep)
    else if stop ≤ start then args.pyLen n = 0
    else 0 ≤ start ∧ start + (turns - 1) * args.castStep < n ∧ start + turns * args.castStep < 2 ^ 63 ∧ Record.Converts s dtype

/-! ## Indices in bounds -/

theorem inBounds_iff : ∀ {ns : List Nat} {is : List (BitVec 64)}, inBounds ns is = true ↔ List.Forall₂ (· < ·) (is.map BitVec.toNat) ns
  | [], [] => by simp [inBounds]
  | [], _ :: _ => by simp [inBounds]
  | _ :: _, [] => by simp [inBounds]
  | n :: ns, i :: is => by
    rw [inBounds, Bool.and_eq_true, decide_eq_true_eq, inBounds_iff, List.map_cons, List.forall₂_cons]

theorem toNat_map_ofNat : ∀ {c ns : List Nat}, (∀ n ∈ ns, n < 2 ^ 63) → List.Forall₂ (· < ·) c ns →
    (c.map (BitVec.ofNat 64)).map BitVec.toNat = c
  | [], [], _, .nil => rfl
  | i :: c, n :: ns, hns, .cons hi hc => by
    have hn := hns n (by simp)
    have hmod : i % 2 ^ 64 = i := Nat.mod_eq_of_lt (by omega)
    rw [List.map_cons, List.map_cons, BitVec.toNat_ofNat, hmod, toNat_map_ofNat (fun m hm => hns m (by simp [hm])) hc]

theorem not_forall₂_lt {ns : List Nat} (hempty : 0 ∈ ns) {c : List Nat} : ¬ List.Forall₂ (· < ·) c ns := by
  intro h
  induction h with
  | nil => cases hempty
  | cons hi _ ih =>
    rcases List.mem_cons.mp hempty with rfl | hmem
    · omega
    · exact ih hmem

section
variable (resize : (f g : FloatWidth) → BitVec f.bits → BitVec g.bits)
variable {dtype : ItemType} {a : MemRef} {n : Nat} {ns : List Nat}

theorem store_fills (ha : a.extents = n :: ns) {v w : Value} (hw : convert resize v dtype.toMlir = some w) {i : BitVec 64} (hi : i.toNat < n)
    {c : List Nat} (hc : List.Forall₂ (· < ·) c ns) :
    Fills (arrayElementValueStore resize dtype a (i :: c.map (BitVec.ofNat 64)) v) (fun p => a.address ((i.toNat :: c).map Nat.cast) = p) w := by
  intro m
  have htail := toNat_map_ofNat (fun m hm => a.small m (by rw [ha]; exact List.mem_cons_of_mem n hm)) hc
  have hin : inBounds a.extents (i :: c.map (BitVec.ofNat 64)) = true := by
    rw [inBounds_iff, List.map_cons, htail, ha]
    exact .cons hi hc
  have haddr : address a (i :: c.map (BitVec.ofNat 64)) = a.address ((i.toNat :: c).map Nat.cast) := by
    rw [address, List.map_cons, List.map_cons]
    conv_rhs => rw [← htail]
    simp only [List.map_map, Function.comp_def]
  refine ⟨Function.update m (address a (i :: c.map (BitVec.ofNat 64))) w, ?_, fun p => ?_⟩
  · rw [arrayElementValueStore, hw, Option.bind_eq_bind, Option.bind_some, memrefStore, if_pos hin]
  · rw [haddr, Function.update_apply]
    by_cases he : p = a.address ((i.toNat :: c).map Nat.cast)
    · rw [if_pos he, if_pos he.symm]
    · rw [if_neg he, if_neg (Ne.symm he)]

theorem store_fails (ha : a.extents = n :: ns) (v : Value) {i : BitVec 64} (hi : n ≤ i.toNat) (is : List (BitVec 64)) (m : Memory) :
    arrayElementValueStore resize dtype a (i :: is) v m = none := by
  rw [arrayElementValueStore]
  cases convert resize v dtype.toMlir with
  | none => rfl
  | some w =>
    have hout : ¬ inBounds a.extents (i :: is) = true := by
      rw [ha, inBounds, Bool.and_eq_true, decide_eq_true_eq]
      omega
    rw [Option.bind_eq_bind, Option.bind_some, memrefStore, if_neg hout]

end

/-! ## The loops -/

theorem bounds_eq {a : MemRef} {n : Nat} {ns : List Nat} (ha : a.extents = n :: ns) (slice : Slice) :
    bounds a slice = ⟨slice.start, slice.stop.getD (a.dim 0), slice.step⟩ :: ns.map fun n => .full (BitVec.ofNat 64 n) := by
  rw [bounds, ha]
  refine congrArg _ (List.ext_getElem (by simp) fun i h₁ h₂ => ?_)
  rw [List.length_map] at h₂
  have hdim : a.dim (i + 1) = BitVec.ofNat 64 (ns.getD i 0) := by
    rw [MemRef.dim, ha]
    rfl
  simp [hdim, Bounds.full, List.getD_eq_getElem?_getD, h₂]

section
variable (resize : (f g : FloatWidth) → BitVec f.bits → BitVec g.bits)
variable {dtype : ItemType} {a : MemRef} {n : Nat} {ns : List Nat} (ha : a.extents = n :: ns) {args : SliceArgs} {slice : Slice}
variable (hlower : lowerArraySlice args = some slice)

def fillRow (dtype : ItemType) (a : MemRef) (ns : List Nat) (v : Value) (i : BitVec 64) : Memory → Option Memory :=
  forall_ (ns.map fun n => .full (BitVec.ofNat 64 n)) fun is => arrayElementValueStore resize dtype a (i :: is) v

include ha in
theorem fillRow_fills {v w : Value} (hw : convert resize v dtype.toMlir = some w) {i : BitVec 64} (hi : i.toNat < n) :
    Fills (fillRow resize dtype a ns v i) (fun p => ∃ c, List.Forall₂ (· < ·) c ns ∧ a.address ((i.toNat :: c).map Nat.cast) = p) w :=
  forall_full_fills (fun m hm => a.small m (by rw [ha]; exact List.mem_cons_of_mem n hm)) fun _ hc => store_fills resize ha hw hi hc

theorem fillRow_empty (hsmall : ∀ m ∈ ns, m < 2 ^ 63) (hempty : 0 ∈ ns) (v x : Value) (i : BitVec 64) :
    Fills (fillRow resize dtype a ns v i) (fun _ => False) x := by
  have hfills : Fills (fillRow resize dtype a ns v i) (fun _ => ∃ c, List.Forall₂ (· < ·) c ns ∧ False) x :=
    forall_full_fills hsmall fun c hc => absurd hc (not_forall₂_lt hempty)
  exact hfills.congr fun p => by simp

include ha in
theorem fillRow_fails (hpos : 0 ∉ ns) (v : Value) {i : BitVec 64} (hi : n ≤ i.toNat) (m : Memory) : fillRow resize dtype a ns v i m = none := by
  refine forall_full_fails (fun k hk => ⟨Nat.pos_of_ne_zero fun h => hpos (h ▸ hk), a.small k ?_⟩) (fun is => store_fails resize ha v hi is) m
  rw [ha]
  exact List.mem_cons_of_mem n hk

include ha hlower in
theorem setitemSlice_eq (v : Value) (m : Memory) : setitemSlice resize dtype a args v m =
    if args.castStep ≤ 0 then none
    else forLoop (2 ^ 64) slice.start (slice.stop.getD (a.dim 0)) slice.step (fillRow resize dtype a ns v) m := by
  rw [setitemSlice, hlower, Option.bind_eq_bind, Option.bind_some, lowerArraySliceSetitem, bounds_eq ha, forall_]
  have hstep : slice.step.sle 0 = true ↔ args.castStep ≤ 0 := by
    rw [BitVec.sle_iff_toInt_le, step_toInt hlower]
    rfl
  rw [if_congr hstep rfl rfl]
  rfl

include hlower in
theorem turn_toInt (k : Nat) : (turn slice.start slice.step k).toInt = wrap64 (args.castStart + k * args.castStep) := by
  have hval : turn slice.start slice.step k = BitVec.ofInt 64 (args.castStart + k * args.castStep) := by
    rw [turn, BitVec.ofInt_add, BitVec.ofInt_mul, ← start_toInt hlower, ← step_toInt hlower, BitVec.ofInt_toInt, BitVec.ofInt_toInt,
      BitVec.ofInt_natCast]
  rw [hval, BitVec.toInt_ofInt]
  rfl

include ha hlower in
theorem turn_slt_iff (k : Nat) : (turn slice.start slice.step k).slt (slice.stop.getD (a.dim 0)) = true ↔
    wrap64 (args.castStart + k * args.castStep) < args.castStop n := by
  rw [BitVec.slt_iff_toInt_lt, turn_toInt hlower, stop_toInt hlower (by rw [ha]; rfl) (a.small n (by rw [ha]; simp))]

end

/-! ## Filled elements -/

/-- The indices of a loop that ends without wrapping around. -/
structure LoopOk (args : SliceArgs) (n : Nat) : Prop where
  start : 0 ≤ args.castStart
  last : args.castStart + (len args.castStart (args.castStop n) args.castStep - 1) * args.castStep < n
  ends : args.castStart + len args.castStart (args.castStop n) args.castStep * args.castStep < 2 ^ 63

section
variable {args : SliceArgs} {n : Nat} (hstep : 0 < args.castStep)
include hstep

theorem index_bounds {j : Nat} (hj : j < len args.castStart (args.castStop n) args.castStep) :
    args.castStart ≤ args.castStart + j * args.castStep ∧ args.castStart + j * args.castStep < args.castStop n ∧
      args.castStart + j * args.castStep ≤
        args.castStart + (len args.castStart (args.castStop n) args.castStep - 1) * args.castStep := by
  have hlt := (PyRange.lt_len_iff hstep _ _ j).mp hj
  have hnonneg : 0 ≤ (j : Int) * args.castStep := Int.mul_nonneg (by omega) hstep.le
  have hle := Int.mul_le_mul_of_nonneg_right (show (j : Int) ≤ (len args.castStart (args.castStop n) args.castStep : Int) - 1 by omega) hstep.le
  exact ⟨by omega, hlt, by omega⟩

theorem stop_le : args.castStop n ≤ args.castStart + len args.castStart (args.castStop n) args.castStep * args.castStep := by
  have h := PyRange.lt_len_iff hstep args.castStart (args.castStop n) (len args.castStart (args.castStop n) args.castStep)
  have := h.not.mp (Nat.lt_irrefl _)
  omega

theorem selected_iff (ha : args.Accepted) (hok : LoopOk args n) (hrun : args.castStart < args.castStop n) (i : Nat) :
    (∃ j < args.pyLen n, (i : Int) = args.pyFirst n + j * args.pyStep) ↔
      ∃ j < len args.castStart (args.castStop n) args.castStep, (i : Int) = args.castStart + j * args.castStep := by
  have hpos : 0 < len args.castStart (args.castStop n) args.castStep := (PyRange.lt_len_iff hstep _ _ 0).mpr (by simpa using hrun)
  have hfirst := (index_bounds hstep hpos).2.2
  have hlast := hok.last
  simp only [Nat.cast_zero, Int.zero_mul, Int.add_zero] at hfirst
  have hpy := ha.pyStep_eq hstep
  have hstart : args.pyFirst n = args.castStart := by
    rw [ha.pyFirst_eq (by omega) hok.start]
    omega
  have hstop : args.pyLast n = min (args.castStop n) n := ha.pyLast_eq (by omega) (by have := hok.start; omega)
  refine exists_congr fun j => ?_
  rw [SliceArgs.pyLen, hpy, hstart, hstop, PyRange.lt_len_iff hstep, PyRange.lt_len_iff hstep]
  refine and_congr_left fun _ => ⟨fun h => by omega, fun h => ?_⟩
  have := (index_bounds (n := n) hstep ((PyRange.lt_len_iff hstep _ _ j).mpr h)).2.2
  omega

end

section
variable (resize : (f g : FloatWidth) → BitVec f.bits → BitVec g.bits)
variable {dtype : ItemType} {a : MemRef} {n : Nat} {ns : List Nat} (ha : a.extents = n :: ns) {args : SliceArgs} {slice : Slice}
variable (hlower : lowerArraySlice args = some slice) (hstep : 0 < args.castStep)
include ha hlower hstep

omit ha in
theorem turn_exact (hok : 0 ≤ args.castStart) {j : Nat} (hlt : args.castStart + j * args.castStep < 2 ^ 63) :
    (turn slice.start slice.step j).toInt = args.castStart + j * args.castStep := by
  have hnonneg : 0 ≤ (j : Int) * args.castStep := Int.mul_nonneg (by omega) hstep.le
  rw [turn_toInt hlower, CInt.wrap64_eq ⟨by omega, hlt⟩]

omit ha in
theorem turn_toNat (hok : LoopOk args n) (hn : n < 2 ^ 63) {j : Nat} (hj : j < len args.castStart (args.castStop n) args.castStep) :
    ((turn slice.start slice.step j).toNat : Int) = args.castStart + j * args.castStep ∧ (turn slice.start slice.step j).toNat < n := by
  have hbounds := index_bounds hstep hj
  have hlast := hok.last
  have hstart := hok.start
  have hexact := turn_exact hlower hstep hok.start (j := j) (by omega)
  have := MachineInt.toInt_cases (turn slice.start slice.step j)
  omega

theorem fills_rows (hok : LoopOk args n) (hrun : args.castStart < args.castStop n) {v w : Value} (hw : convert resize v dtype.toMlir = some w) :
    Fills (setitemSlice resize dtype a args v) (fun p => ∃ c, Selected a args c ∧ a.address (c.map Nat.cast) = p) w := by
  have hacc : args.Accepted := lowerArraySlice_accepted.mpr ⟨slice, hlower⟩
  have hn : n < 2 ^ 63 := a.small n (by rw [ha]; simp)
  have hhead : a.extents.getD 0 0 = n := by rw [ha]; rfl
  have hstop := SliceArgs.castStop_mem args hn
  have hstart := hok.start
  have hends := hok.ends
  obtain ⟨turns, hturns⟩ : ∃ k, k = len args.castStart (args.castStop n) args.castStep := ⟨_, rfl⟩
  have hcount : (turns : Int) ≤ turns * args.castStep := le_mul_of_one_le_right (by omega) hstep
  rw [← hturns] at hends
  have hbefore : ∀ k < turns, (turn slice.start slice.step k).slt (slice.stop.getD (a.dim 0)) = true := fun k hk => by
    have hlt := (index_bounds hstep (hturns ▸ hk)).2.1
    rw [turn_slt_iff ha hlower, ← turn_toInt hlower, turn_exact hlower hstep hstart (hlt.trans hstop.2)]
    exact hlt
  have hend : ¬ (turn slice.start slice.step turns).slt (slice.stop.getD (a.dim 0)) = true := by
    rw [turn_slt_iff ha hlower, ← turn_toInt hlower, turn_exact hlower hstep hstart hends, hturns]
    exact Int.not_lt.mpr (stop_le hstep)
  have hfills := forLoop_fills hbefore hend (show turns < 2 ^ 64 by omega)
    fun k hk => fillRow_fills resize ha hw (turn_toNat hlower hstep hok hn (hturns ▸ hk)).2
  have hunfold : setitemSlice resize dtype a args v =
      forLoop (2 ^ 64) slice.start (slice.stop.getD (a.dim 0)) slice.step (fillRow resize dtype a ns v) := funext fun m => by
    rw [setitemSlice_eq resize ha hlower, if_neg (by omega)]
  rw [hunfold]
  refine hfills.congr fun p => ⟨?_, ?_⟩
  · rintro ⟨k, hk, c, hc, rfl⟩
    obtain ⟨hval, hlt⟩ := turn_toNat hlower hstep hok hn (hturns ▸ hk)
    refine ⟨_ :: c, ⟨by rw [ha]; exact .cons hlt hc, _, c, rfl, ?_⟩, rfl⟩
    rw [hhead, selected_iff hstep hacc hok hrun]
    exact ⟨k, hturns ▸ hk, hval⟩
  · rintro ⟨_, ⟨hin, i, c, rfl, hsel⟩, rfl⟩
    rw [hhead, selected_iff hstep hacc hok hrun] at hsel
    obtain ⟨k, hk, hi⟩ := hsel
    obtain ⟨hval, -⟩ := turn_toNat hlower hstep hok hn hk
    have heq : (turn slice.start slice.step k).toNat = i := by omega
    rw [ha, List.forall₂_cons] at hin
    exact ⟨k, hturns ▸ hk, c, hin.2, by rw [heq]⟩

end

/-! ## Slice assignments -/

section
variable (resize : (f g : FloatWidth) → BitVec f.bits → BitVec g.bits)
variable {dtype : ItemType} {a : MemRef} {n : Nat} {ns : List Nat} (ha : a.extents = n :: ns) {args : SliceArgs} {slice : Slice}
variable (hlower : lowerArraySlice args = some slice) (hstep : 0 < args.castStep)
include ha hlower hstep

theorem forLoop_of_setitem {v : Value} {m m' : Memory} (h : setitemSlice resize dtype a args v m = some m') :
    forLoop (2 ^ 64) slice.start (slice.stop.getD (a.dim 0)) slice.step (fillRow resize dtype a ns v) m = some m' := by
  rwa [setitemSlice_eq resize ha hlower, if_neg (by omega)] at h

theorem setitem_fails (hpos : 0 ∉ ns) {v : Value} {k : Nat} (hbefore : ∀ j ≤ k, wrap64 (args.castStart + j * args.castStep) < args.castStop n)
    (hout : n ≤ (turn slice.start slice.step k).toNat) (m : Memory) : setitemSlice resize dtype a args v m = none := by
  rw [setitemSlice_eq resize ha hlower, if_neg (by omega)]
  exact forLoop_fails (fun j hj => (turn_slt_iff ha hlower j).mpr (hbefore j hj)) (fillRow_fails resize ha hpos v hout) m

theorem not_le_turn (hpos : 0 ∉ ns) {v x : Value} {P : Int → Prop} (h : Fills (setitemSlice resize dtype a args v) P x) {k : Nat}
    (hbefore : ∀ j ≤ k, wrap64 (args.castStart + j * args.castStep) < args.castStop n) : (turn slice.start slice.step k).toNat < n := by
  by_contra hout
  obtain ⟨m', hm', -⟩ := h fun _ => x
  rw [setitem_fails resize ha hlower hstep hpos hbefore (Nat.le_of_not_lt hout)] at hm'
  cases hm'

theorem loopOk_of_fills (hpos : 0 ∉ ns) (hrun : args.castStart < args.castStop n) {v x : Value} {P : Int → Prop}
    (h : Fills (setitemSlice resize dtype a args v) P x) : LoopOk args n := by
  have hn : n < 2 ^ 63 := a.small n (by rw [ha]; simp)
  obtain ⟨-, hstop⟩ := SliceArgs.castStop_mem args hn
  have hstep' : args.castStep < 2 ^ 63 := by
    rw [← step_toInt hlower]
    exact slice.step.toInt_lt
  obtain ⟨hlow, hhigh⟩ := SliceArgs.castStart_mem args
  have hfirst : wrap64 (args.castStart + (0 : Nat) * args.castStep) = args.castStart := by
    rw [Nat.cast_zero, Int.zero_mul, Int.add_zero, CInt.wrap64_eq ⟨hlow, hhigh⟩]
  have hzero := not_le_turn resize ha hlower hstep hpos h (k := 0) fun j hj => by
    rw [Nat.le_zero.mp hj, hfirst]
    exact hrun
  have h0 : 0 ≤ args.castStart := by
    have hcases := MachineInt.toInt_cases (turn slice.start slice.step 0)
    rw [turn_toInt hlower, hfirst] at hcases
    omega
  have hbefore : ∀ j < len args.castStart (args.castStop n) args.castStep,
      wrap64 (args.castStart + j * args.castStep) = args.castStart + j * args.castStep ∧
        args.castStart + j * args.castStep < args.castStop n := fun j hj => by
    obtain ⟨hge, hlt, -⟩ := index_bounds hstep hj
    exact ⟨CInt.wrap64_eq ⟨by omega, by omega⟩, hlt⟩
  obtain ⟨turns, hturns⟩ : ∃ k, k = len args.castStart (args.castStop n) args.castStep := ⟨_, rfl⟩
  have hcount : 0 < turns := hturns ▸ (PyRange.lt_len_iff hstep _ _ 0).mpr (by simpa using hrun)
  have hlast : args.castStart + (turns - 1 : Nat) * args.castStep < n := by
    have hlt := not_le_turn resize ha hlower hstep hpos h (k := turns - 1) fun j hj => by
      obtain ⟨heq, hlt⟩ := hbefore j (by omega)
      rwa [heq]
    obtain ⟨hge, hltStop, -⟩ := index_bounds hstep (j := turns - 1) (n := n) (by omega)
    have hcases := MachineInt.toInt_cases (turn slice.start slice.step (turns - 1))
    rw [turn_toInt hlower, (hbefore (turns - 1) (by omega)).1] at hcases
    omega
  refine ⟨h0, ?_, ?_⟩
  · rw [← hturns]
    rwa [Nat.cast_sub hcount, Nat.cast_one] at hlast
  · rw [← hturns]
    by_contra hwrap
    have hnext : args.castStart + (turns : Int) * args.castStep = args.castStart + (turns - 1 : Nat) * args.castStep + args.castStep := by
      rw [Nat.cast_sub hcount]
      push_cast
      ring
    have hneg := CInt.wrap64_neg (x := args.castStart + turns * args.castStep) (by omega) (by omega)
    have hlt := not_le_turn resize ha hlower hstep hpos h (k := turns) fun j hj => by
      rcases Nat.lt_or_eq_of_le hj with hlt | rfl
      · obtain ⟨heq, hlt⟩ := hbefore j (by omega)
        rwa [heq]
      · omega
    have hcases := MachineInt.toInt_cases (turn slice.start slice.step turns)
    obtain ⟨hmin, -⟩ := CInt.wrap64_mem (args.castStart + turns * args.castStep)
    rw [turn_toInt hlower] at hcases
    omega

end

theorem pointer_ne_cast {resize : (f g : FloatWidth) → BitVec f.bits → BitVec g.bits} {s dtype : ItemType} (ht : dtype.IsNumber)
    {v x : Value} (h : cast resize s dtype v = some x) : x ≠ .pointer 0 := by
  rintro rfl
  have := Record.cast_type resize h
  cases dtype with
  | record size => exact ht size rfl
  | integer | float | complex | boolean => cases this

theorem forall₂_zeros : ∀ {ns : List Nat}, 0 ∉ ns → List.Forall₂ (· < ·) (List.replicate ns.length 0) ns
  | [], _ => .nil
  | _ :: _, h => .cons (Nat.pos_of_ne_zero fun h0 => h (h0 ▸ List.mem_cons_self)) (forall₂_zeros fun h0 => h (List.mem_cons_of_mem _ h0))

section
variable (resize : (f g : FloatWidth) → BitVec f.bits → BitVec g.bits)
variable {s dtype : ItemType} {a : MemRef} {n : Nat} {ns : List Nat} (ha : a.extents = n :: ns) {args : SliceArgs}
include ha

theorem fillsSelected_of_ok (hok : FillOk s dtype a args) (hs : s.IsNumber) (ht : dtype.IsNumber) : FillsSelected resize s dtype a args := by
  obtain ⟨hacc, hstep, hcase⟩ := hok
  obtain ⟨slice, hlower⟩ := lowerArraySlice_accepted.mp hacc
  have hhead : a.extents.getD 0 0 = n := by rw [ha]; rfl
  have htail : a.extents.tail = ns := by rw [ha]; rfl
  have hsmall : ∀ m ∈ ns, m < 2 ^ 63 := fun m hm => a.small m (by rw [ha]; exact List.mem_cons_of_mem n hm)
  simp only [hhead, htail] at hcase
  intro v x hv hcast
  by_cases hempty : 0 ∈ ns
  · rw [if_pos hempty] at hcase
    obtain ⟨k, hk⟩ := hcase
    have hstop : ¬ (turn slice.start slice.step k).slt (slice.stop.getD (a.dim 0)) := by
      rw [turn_slt_iff ha hlower]
      omega
    obtain ⟨turns, hturns, hbefore, hend⟩ := exists_turns ⟨k, hstop⟩
    have hrow : ∀ i, Fills (fillRow resize dtype a ns v i) (fun _ => False) x := fillRow_empty resize hsmall hempty v x
    have hfills := forLoop_fills hbefore hend hturns fun k _ => hrow (turn slice.start slice.step k)
    intro m
    obtain ⟨m', hm', hp⟩ := hfills m
    refine ⟨m', by rw [setitemSlice_eq resize ha hlower, if_neg (by omega)]; exact hm', fun p => ?_⟩
    rw [hp, if_neg (by simp), if_neg]
    rintro ⟨c, ⟨hin, -⟩, -⟩
    rw [ha] at hin
    exact not_forall₂_lt (List.mem_cons_of_mem n hempty) hin
  · rw [if_neg hempty] at hcase
    by_cases hrun : args.castStop n ≤ args.castStart
    · rw [if_pos hrun] at hcase
      intro m
      have hstop : ¬ slice.start.slt (slice.stop.getD (a.dim 0)) = true := by
        have := turn_slt_iff ha hlower 0
        rw [turn_zero, Nat.cast_zero, Int.zero_mul, Int.add_zero, CInt.wrap64_eq (SliceArgs.castStart_mem args)] at this
        rw [this]
        omega
      refine ⟨m, ?_, fun p => ?_⟩
      · rw [setitemSlice_eq resize ha hlower, if_neg (by omega)]
        exact if_neg hstop
      · rw [if_neg]
        rintro ⟨c, ⟨-, i, is, -, j, hj, -⟩, -⟩
        rw [hhead, hcase] at hj
        exact absurd hj (Nat.not_lt_zero j)
    · rw [if_neg hrun] at hcase
      obtain ⟨hstart, hlast, hends, hconv⟩ := hcase
      exact fills_rows resize ha hlower hstep ⟨hstart, hlast, hends⟩ (by omega)
        ((Record.convertsAs_iff resize hs ht).mpr hconv v x hv hcast)

theorem ok_of_fillsSelected (h : FillsSelected resize s dtype a args) (hs : s.IsNumber) (ht : dtype.IsNumber) (hc : Castable s dtype)
    (hz : args.NonzeroStep) : FillOk s dtype a args := by
  have hhead : a.extents.getD 0 0 = n := by rw [ha]; rfl
  have htail : a.extents.tail = ns := by rw [ha]; rfl
  obtain ⟨v, x, hv, hcast⟩ := Record.exists_cast resize hs ht hc
  have hfills := h v x hv hcast
  obtain ⟨m', hm', hp⟩ := hfills fun _ => .pointer 0
  obtain ⟨slice, hlower, -⟩ := Option.bind_eq_some_iff.mp hm'
  have hacc : args.Accepted := lowerArraySlice_accepted.mpr ⟨slice, hlower⟩
  have hstep : 0 < args.castStep := by
    by_contra hle
    rw [setitemSlice_eq resize ha hlower, if_pos (by omega)] at hm'
    cases hm'
  refine ⟨hacc, hstep, ?_⟩
  simp only [hhead, htail]
  have hloop := forLoop_of_setitem resize ha hlower hstep hm'
  by_cases hempty : 0 ∈ ns
  · rw [if_pos hempty]
    by_contra hno
    push Not at hno
    rw [forLoop_endless _ fun k => (turn_slt_iff ha hlower k).mpr (hno k)] at hloop
    cases hloop
  · rw [if_neg hempty]
    by_cases hrun : args.castStop n ≤ args.castStart
    · rw [if_pos hrun]
      have hstop : ¬ slice.start.slt (slice.stop.getD (a.dim 0)) = true := by
        have := turn_slt_iff ha hlower 0
        rw [turn_zero, Nat.cast_zero, Int.zero_mul, Int.add_zero, CInt.wrap64_eq (SliceArgs.castStart_mem args)] at this
        rw [this]
        omega
      obtain rfl : (fun _ => Value.pointer 0) = m' := Option.some_inj.mp ((if_neg hstop).symm.trans hloop)
      by_contra hlen
      have hmem := PyRange.position_mem (n := n) hz.pyStep_ne_zero args.start.value args.stop.value (Nat.pos_of_ne_zero hlen)
      rw [Nat.cast_zero, Int.zero_mul, Int.add_zero] at hmem
      obtain ⟨i, hi⟩ := Int.eq_ofNat_of_zero_le hmem.1
      have hsel : Selected a args (i :: List.replicate ns.length 0) := by
        refine ⟨by rw [ha]; exact .cons (by omega) (forall₂_zeros hempty), i, _, rfl, 0, ?_, ?_⟩
        · rw [hhead]
          exact Nat.pos_of_ne_zero hlen
        · rw [hhead, Nat.cast_zero, Int.zero_mul, Int.add_zero]
          exact hi.symm
      have hx := hp (a.address ((i :: List.replicate ns.length 0).map Nat.cast))
      rw [if_pos ⟨_, hsel, rfl⟩] at hx
      exact pointer_ne_cast ht hcast hx.symm
    · rw [if_neg hrun]
      have hok := loopOk_of_fills resize ha hlower hstep hempty (by omega) hfills
      refine ⟨hok.start, hok.last, hok.ends, (Record.convertsAs_iff resize hs ht).mp fun v x hv hcast => ?_⟩
      obtain ⟨m', hm', hp⟩ := h v x hv hcast fun _ => .pointer 0
      -- the first row and, in it, the first element
      have hpos : 0 < len args.castStart (args.castStop n) args.castStep := (PyRange.lt_len_iff hstep _ _ 0).mpr (by simpa using hrun)
      obtain ⟨hval, hlt⟩ := turn_toNat hlower hstep hok (a.small n (by rw [ha]; simp)) hpos
      have hsel : Selected a args ((turn slice.start slice.step 0).toNat :: List.replicate ns.length 0) := by
        refine ⟨by rw [ha]; exact .cons hlt (forall₂_zeros hempty), _, _, rfl, ?_⟩
        rw [hhead, selected_iff hstep hacc hok (by omega)]
        exact ⟨0, hpos, hval⟩
      cases hw : convert resize v dtype.toMlir with
      | none =>
        have hnone : ∀ is m, arrayElementValueStore resize dtype a is v m = none := fun is m => by
          rw [arrayElementValueStore, hw]
          rfl
        rw [setitemSlice_eq resize ha hlower, if_neg (by omega)] at hm'
        rw [forLoop_fails (n := 0) (fun j hj => ?_) (fun m => ?_)] at hm'
        · cases hm'
        · rw [Nat.le_zero.mp hj, turn_slt_iff ha hlower, Nat.cast_zero, Int.zero_mul, Int.add_zero,
            CInt.wrap64_eq (SliceArgs.castStart_mem args)]
          omega
        · refine forall_full_fails (fun k hk => ⟨Nat.pos_of_ne_zero fun h => hempty (h ▸ hk), a.small k ?_⟩) (fun is m => hnone _ m) m
          rw [ha]
          exact List.mem_cons_of_mem n hk
      | some w =>
        obtain ⟨m'', hm'', hp'⟩ := fills_rows resize ha hlower hstep hok (by omega) hw fun _ => .pointer 0
        cases Option.some_inj.mp (hm'.symm.trans hm'')
        have hx := hp (a.address (((turn slice.start slice.step 0).toNat :: List.replicate ns.length 0).map Nat.cast))
        have hw' := hp' (a.address (((turn slice.start slice.step 0).toNat :: List.replicate ns.length 0).map Nat.cast))
        rw [if_pos ⟨_, hsel, rfl⟩] at hx hw'
        rw [← hx, hw']

end

/-- **Slice assignments** write Python's elements, converted, exactly where the
loop's indices are in bounds and the conversion keeps the value. -/
theorem slice_setitem_iff (resize : (f g : FloatWidth) → BitVec f.bits → BitVec g.bits) (a : MemRef) (hr : 0 < a.extents.length)
    {s dtype : ItemType} (hs : s.IsNumber) (ht : dtype.IsNumber) (hc : Castable s dtype) {args : SliceArgs} (hz : args.NonzeroStep) :
    FillsSelected resize s dtype a args ↔ FillOk s dtype a args := by
  obtain ⟨n, ns, ha⟩ := List.exists_cons_of_length_pos hr
  exact ⟨fun h => ok_of_fillsSelected resize ha h hs ht hc hz, fun h => fillsSelected_of_ok resize ha h hs ht⟩

/-- `a[1:4:2] = x` of five elements. -/
theorem slice_setitem_inner : FillsSelected (fun _ _ _ => 0) (.integer ⟨true, .w32⟩) (.integer ⟨true, .w32⟩) row5
    ⟨.literal 1, .literal 4, .literal 2⟩ := by
  have hnumber : (ItemType.integer ⟨true, .w32⟩).IsNumber := nofun
  have hstep : SliceArgs.NonzeroStep ⟨.literal 1, .literal 4, .literal 2⟩ := by simp [SliceArgs.NonzeroStep, Component.value]
  refine (slice_setitem_iff (fun _ _ _ => 0) row5 (by decide) hnumber hnumber trivial hstep).mpr
    ⟨⟨.inl (by decide), .inl (by decide), .inl (by decide)⟩, by decide, ?_⟩
  rw [if_neg (by decide), if_neg (by decide)]
  exact ⟨by decide, by decide, by decide, .inr (le_refl _)⟩

/-- `a[-2:] = x` stores before the array. -/
theorem negative_slice_stores_outside : (∀ m, setitemSlice (fun _ _ _ => 0) (.integer ⟨true, .w32⟩) row5 ⟨.literal (-2), .none, .none⟩
      (.int 32 7) m = none) ∧
    ¬ FillsSelected (fun _ _ _ => 0) (.integer ⟨true, .w32⟩) (.integer ⟨true, .w32⟩) row5 ⟨.literal (-2), .none, .none⟩ := by
  have hnone : ∀ m, setitemSlice (fun _ _ _ => 0) (.integer ⟨true, .w32⟩) row5 ⟨.literal (-2), .none, .none⟩ (.int 32 7) m = none :=
    fun _ => rfl
  refine ⟨hnone, fun h => ?_⟩
  obtain ⟨m', hm', -⟩ := h (.int 32 7) _ rfl rfl fun _ => .pointer 0
  rw [hnone] at hm'
  cases hm'

end NumbaCudaMlir.SliceFill

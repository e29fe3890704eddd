import Mathlib.Data.List.Pairwise
import NumbaCudaMlir.Convert
import NumbaCudaMlir.Dispatcher

/-!
# Shared arrays

`cuda.shared.array`: a constant shape gets a global of its own, any other shape
a view of the dynamic shared memory at a cursor that every request moves on at
run time.
-/

namespace NumbaCudaMlir.SharedMemory

open CInt

/-! ## Requests -/

inductive ElementType where
  | integer (width : Nat)
  | index
  | float (width : Nat)
  | complex (width : Nat)
  | vector (shape : List Nat) (elem : ElementType)

def getTypeWidth : ElementType → Nat
  | .integer width | .float width => width
  | .index => 64
  | .complex width => 2 * width
  | .vector shape elem => shape.prod * getTypeWidth elem

def getTypeSizeBytes (ty : ElementType) : Nat := max 1 ((getTypeWidth ty + 7) / 8)

/-- An extent: a Python integer, an `arith.constant`, or another value of a signless integer type. -/
inductive Extent where
  | int (n : Int)
  | const (n : Int)
  | value (width : Nat)

def Extent.static : Extent → Option Int
  | int n | const n => some n
  | value _ => none

structure Request where
  shape : List Extent
  dtype : ElementType
  alignment : Option Int

def Request.itemBytes (r : Request) : Nat := getTypeSizeBytes r.dtype

def validateAlignment (alignment : Int) : Bool :=
  0 < alignment && alignment.toNat &&& (alignment.toNat - 1) = 0 && alignment % 8 = 0

/-! ## Lowering -/

inductive Site where
  /-- `static_shared_memory_<id>` -/
  | global (id : Nat) (alignment : Int)
  | fixed (r : Request)
  | rest (r : Request)

def isDynamicSharedShape (staticShape : List (Option Int)) : Bool := staticShape = [some 0]

/-- `coerce_to_shape_tuple`, of values or of Python integers. -/
def coerceToShapeTuple (shape : List Extent) : Bool :=
  (shape.all fun e => e matches .const _ | .value _) || shape.all fun e => e matches .int _

/-- `cuda_shared_memory`, and the next `shmem_id`. -/
def cudaSharedMemory (shmemId : Nat) (r : Request) : Option (Site × Nat) := do
  guard (r.alignment.all validateAlignment)
  let staticShape := r.shape.map Extent.static
  let _ ← integerAttr 64 r.itemBytes
  if staticShape.all Option.isSome && !isDynamicSharedShape staticShape then
    guard (staticShape.all fun n => 0 ≤ n.getD 0)
    some (.global shmemId (r.alignment.getD 8), shmemId + 1)
  else
    guard (coerceToShapeTuple r.shape)
    some (if isDynamicSharedShape staticShape then .rest r else .fixed r, shmemId)

def lowerKernel (shmemId : Nat) : List Request → Option (List Site)
  | [] => some []
  | r :: rs => do
    let (site, next) ← cudaSharedMemory shmemId r
    let sites ← lowerKernel next rs
    some (site :: sites)

/-! ## Launches -/

def setRequiredDynamicSharedMemory (previous : Nat) (sizeInBytes : Int) : Option Nat :=
  if sizeInBytes < 0 then none else some (max previous sizeInBytes.toNat)

def required (calls : List Int) : Option Nat := calls.foldlM setRequiredDynamicSharedMemory 0

def effectiveSharedmem (configured : Option Int) (required : Nat) : Int :=
  if required ≠ 0 then max (normalizeLaunchSharedmem configured) required else normalizeLaunchSharedmem configured

/-- `LaunchConfiguration_init` takes the size as a C `int`. -/
def launchSharedmem (sharedmem : Int) : Option Nat :=
  if 0 ≤ sharedmem ∧ sharedmem < 2 ^ 31 then some sharedmem.toNat else none

/-! ## Execution -/

/-- `index_of`; `arith.index_cast` extends by the sign. -/
def Extent.size (e : Extent) (v : Int) : BitVec 64 :=
  match e with
  | int n | const n => BitVec.ofInt 64 n
  | value width => (BitVec.ofInt width v).signExtend 64

/-- A request carried out, with the values of its extents. -/
structure Call where
  site : Nat
  values : Nat → Int

def Request.sizes (r : Request) (values : Nat → Int) : List (BitVec 64) := r.shape.mapIdx fun i e => e.size (values i)

/-- A `memref.view` of the dynamic shared memory. -/
structure View where
  site : Nat
  request : Request
  byteShift : BitVec 64
  sizes : List (BitVec 64)

section
variable (dynamic : BitVec 64)

/-- `_request_shared_memory` and `_request_dynamic_shared_memory`: the view, and the cursor after it. -/
def Site.request (site : Nat) (values : Nat → Int) (total : BitVec 64) : Site → Option View × BitVec 64
  | global .. => (none, total)
  | fixed r =>
    let sizes := r.sizes values
    let bytes := sizes.foldl (· * ·) (BitVec.ofNat 64 r.itemBytes)
    (some ⟨site, r, total, sizes⟩, total + bytes)
  | rest r => (some ⟨site, r, total, [(dynamic - total) / BitVec.ofNat 64 r.itemBytes]⟩, dynamic)

/-- The control flow picks the calls; every thread has a cursor of its own. -/
def execute (sites : List Site) (total : BitVec 64) : List Call → List View
  | [] => []
  | c :: cs =>
    match sites[c.site]? with
    | none => execute sites total cs
    | some s =>
      let (view, total) := s.request dynamic c.site c.values total
      view.toList ++ execute sites total cs

end

end NumbaCudaMlir.SharedMemory

/-!
## Views of dynamic shared memory

The views of a run lie one behind the other. They are aligned where the bytes
taken before them are a multiple of what they need, and within the required
size where all the bytes together are.
-/

namespace NumbaCudaMlir.SharedMemory

/-! ## Laws -/

def View.start (v : View) : Nat := v.byteShift.toNat

def View.bytes (v : View) : Nat := v.request.itemBytes * (v.sizes.map BitVec.toNat).prod

def View.Covers (v : View) (b : Nat) : Prop := v.start ≤ b ∧ b < v.start + v.bytes

/-- The alignment that a request at an offset needs. -/
def Request.AlignedAt (r : Request) (offset : Nat) : Prop :=
  r.itemBytes ∣ offset ∧ ∀ a, r.alignment = some a → a ∣ (offset : Int)

def Site.globalId : Site → Option Nat
  | global id _ => some id
  | fixed _ | rest _ => none

structure Laws (requests : List Request) (sites : List Site) (planned : List Int) (configured : Option Int)
    (required dynamic : Nat) (views : List View) : Prop where
  disjoint : views.Pairwise fun v w => v.site ≠ w.site → ∀ b, ¬ (v.Covers b ∧ w.Covers b)
  aligned : ∀ v ∈ views, v.request.AlignedAt v.start
  bounded : ∀ v ∈ views, v.start + v.bytes ≤ required
  recorded : ∀ n ∈ planned, n ≤ required
  launched : (dynamic : Int) = max (normalizeLaunchSharedmem configured) required
  /-- A request of a constant shape has a global of its own. -/
  globals : (sites.filterMap Site.globalId).Nodup
  global_aligned : ∀ (i : Nat) r id a, requests[i]? = some r → sites[i]? = some (.global id a) → r.alignment.getD 8 = a

/-- The bytes of a request, with its extents cast to index. -/
def Request.bytes (r : Request) (values : Nat → Int) : Nat := r.itemBytes * ((r.sizes values).map BitVec.toNat).prod

/-- Every request of the run finds the bytes taken before it aligned, and room behind them. -/
def Fits (required dynamic : Nat) (sites : List Site) : Nat → List Call → Prop
  | _, [] => True
  | used, c :: cs =>
    match sites[c.site]? with
    | some (.fixed r) =>
      (r.AlignedAt used ∧ used + r.bytes c.values ≤ required) ∧ Fits required dynamic sites (used + r.bytes c.values) cs
    | some (.rest r) =>
      (r.AlignedAt used ∧ used + r.itemBytes * ((dynamic - used) / r.itemBytes) ≤ required) ∧ Fits required dynamic sites dynamic cs
    | some (.global ..) | none => Fits required dynamic sites used cs

/-! ## Lowering -/

theorem cudaSharedMemory_cases {id next : Nat} {r : Request} {s : Site} (h : cudaSharedMemory id r = some (s, next)) :
    r.itemBytes < 2 ^ 63 ∧ (s = .global id (r.alignment.getD 8) ∧ next = id + 1 ∨ (s = .rest r ∨ s = .fixed r) ∧ next = id) := by
  simp only [cudaSharedMemory, Option.bind_eq_bind, Option.bind_eq_some_iff] at h
  obtain ⟨-, -, n, hn, h⟩ := h
  have hbytes : CInt.InInt64 r.itemBytes := by
    by_contra hno
    simp [integerAttr, hno] at hn
  refine ⟨by have := hbytes.2; omega, ?_⟩
  split at h
  · obtain ⟨-, -, h⟩ := Option.bind_eq_some_iff.mp h
    cases h
    exact .inl ⟨rfl, rfl⟩
  · obtain ⟨-, -, h⟩ := Option.bind_eq_some_iff.mp h
    cases h
    refine .inr ⟨?_, rfl⟩
    split
    · exact .inl rfl
    · exact .inr rfl

theorem lowerKernel_cons {id : Nat} {r : Request} {rs : List Request} {sites : List Site} (h : lowerKernel id (r :: rs) = some sites) :
    ∃ s next ss, cudaSharedMemory id r = some (s, next) ∧ lowerKernel next rs = some ss ∧ sites = s :: ss := by
  rw [lowerKernel, Option.bind_eq_bind, Option.bind_eq_some_iff] at h
  obtain ⟨⟨s, next⟩, hs, h⟩ := h
  obtain ⟨ss, hss, h⟩ := Option.bind_eq_some_iff.mp h
  cases h
  exact ⟨s, next, ss, hs, hss, rfl⟩

theorem lowerKernel_bytes {requests : List Request} : ∀ {id : Nat} {sites : List Site}, lowerKernel id requests = some sites →
    ∀ r, .rest r ∈ sites → r.itemBytes < 2 ^ 63 := by
  induction requests with
  | nil =>
    intro id sites h
    cases h
    simp
  | cons q qs ih =>
    intro id sites h r hr
    obtain ⟨s, next, ss, hs, hss, rfl⟩ := lowerKernel_cons h
    obtain ⟨hlt, hcase⟩ := cudaSharedMemory_cases hs
    rcases List.mem_cons.mp hr with rfl | hr
    · rcases hcase with ⟨hs, -⟩ | ⟨hs | hs, -⟩
      · cases hs
      · cases hs
        exact hlt
      · cases hs
    · exact ih hss r hr

theorem lowerKernel_globals {requests : List Request} : ∀ {id : Nat} {sites : List Site}, lowerKernel id requests = some sites →
    (∀ k ∈ sites.filterMap Site.globalId, id ≤ k) ∧ (sites.filterMap Site.globalId).Nodup := by
  induction requests with
  | nil =>
    intro id sites h
    cases h
    simp
  | cons q qs ih =>
    intro id sites h
    obtain ⟨s, next, ss, hs, hss, rfl⟩ := lowerKernel_cons h
    obtain ⟨hle, hnodup⟩ := ih hss
    rcases (cudaSharedMemory_cases hs).2 with ⟨rfl, rfl⟩ | ⟨hview, rfl⟩
    · simp only [List.filterMap_cons, Site.globalId, List.mem_cons, List.nodup_cons]
      refine ⟨fun k hk => ?_, fun hmem => ?_, hnodup⟩
      · rcases hk with rfl | hk
        · exact le_refl _
        · exact (Nat.le_succ _).trans (hle k hk)
      · exact absurd (hle id hmem) (by omega)
    · have hnone : s.globalId = none := by rcases hview with rfl | rfl <;> rfl
      simp only [List.filterMap_cons, hnone]
      exact ⟨hle, hnodup⟩

theorem lowerKernel_alignment {requests : List Request} : ∀ {id : Nat} {sites : List Site}, lowerKernel id requests = some sites →
    ∀ (i : Nat) r k a, requests[i]? = some r → sites[i]? = some (.global k a) → r.alignment.getD 8 = a := by
  induction requests with
  | nil =>
    intro id sites h i r k a hr
    simp at hr
  | cons q qs ih =>
    intro id sites h i r k a hr hs'
    obtain ⟨s, next, ss, hs, hss, rfl⟩ := lowerKernel_cons h
    cases i with
    | zero =>
      simp only [List.getElem?_cons_zero, Option.some.injEq] at hr hs'
      subst hr hs'
      rcases (cudaSharedMemory_cases hs).2 with ⟨h, -⟩ | ⟨h | h, -⟩
      · cases h
        rfl
      · cases h
      · cases h
    | succ i => exact ih hss i r k a hr hs'

/-! ## Runs -/

theorem foldl_mul_ofNat (sizes : List (BitVec 64)) (n : Nat) :
    sizes.foldl (· * ·) (BitVec.ofNat 64 n) = BitVec.ofNat 64 (n * (sizes.map BitVec.toNat).prod) := by
  induction sizes generalizing n with
  | nil => simp
  | cons s ss ih =>
    have hs : BitVec.ofNat 64 n * s = BitVec.ofNat 64 (n * s.toNat) := by
      rw [BitVec.ofNat_mul, BitVec.ofNat_toNat, BitVec.setWidth_eq]
    rw [List.foldl_cons, hs, ih, List.map_cons, List.prod_cons, Nat.mul_assoc]

section
variable {sites : List Site} {required dynamic : Nat}

theorem fixed_view {used : Nat} (hused : used < 2 ^ 64) (i : Nat) (r : Request) (values : Nat → Int) :
    ∃ v, Site.request (BitVec.ofNat 64 dynamic) i values (BitVec.ofNat 64 used) (.fixed r) = (some v, BitVec.ofNat 64 (used + r.bytes values)) ∧
      v.site = i ∧ v.request = r ∧ v.start = used ∧ v.bytes = r.bytes values := by
  refine ⟨⟨i, r, BitVec.ofNat 64 used, r.sizes values⟩, ?_, rfl, rfl, ?_, rfl⟩
  · rw [Site.request]
    simp only [foldl_mul_ofNat, BitVec.ofNat_add]
    rfl
  · exact (BitVec.toNat_ofNat ..).trans (Nat.mod_eq_of_lt hused)

theorem rest_view {used : Nat} (hused : used ≤ dynamic) (hdynamic : dynamic < 2 ^ 64) (i : Nat) {r : Request} (hr : r.itemBytes < 2 ^ 63)
    (values : Nat → Int) :
    ∃ v, Site.request (BitVec.ofNat 64 dynamic) i values (BitVec.ofNat 64 used) (.rest r) = (some v, BitVec.ofNat 64 dynamic) ∧
      v.site = i ∧ v.request = r ∧ v.start = used ∧ v.bytes = r.itemBytes * ((dynamic - used) / r.itemBytes) := by
  refine ⟨⟨i, r, BitVec.ofNat 64 used, [(BitVec.ofNat 64 dynamic - BitVec.ofNat 64 used) / BitVec.ofNat 64 r.itemBytes]⟩, rfl, rfl, rfl, ?_, ?_⟩
  · exact (BitVec.toNat_ofNat ..).trans (Nat.mod_eq_of_lt (by omega))
  · have hsub : (BitVec.ofNat 64 dynamic - BitVec.ofNat 64 used).toNat = dynamic - used := by
      rw [BitVec.toNat_sub_of_le, BitVec.toNat_ofNat, BitVec.toNat_ofNat, Nat.mod_eq_of_lt hdynamic, Nat.mod_eq_of_lt (by omega)]
      rw [BitVec.le_def, BitVec.toNat_ofNat, BitVec.toNat_ofNat, Nat.mod_eq_of_lt hdynamic, Nat.mod_eq_of_lt (by omega)]
      exact hused
    simp only [View.bytes, List.map_cons, List.map_nil, List.prod_cons, List.prod_nil, Nat.mul_one]
    rw [BitVec.toNat_udiv, hsub, BitVec.toNat_ofNat, Nat.mod_eq_of_lt (by omega)]

theorem fits_ordered (hsites : ∀ r, .rest r ∈ sites → r.itemBytes < 2 ^ 63) (hrequired : required ≤ dynamic) (hdynamic : dynamic < 2 ^ 64) :
    ∀ {cs : List Call} {used : Nat}, used ≤ dynamic → Fits required dynamic sites used cs →
      (∀ v ∈ execute (BitVec.ofNat 64 dynamic) sites (BitVec.ofNat 64 used) cs, used ≤ v.start) ∧
        (execute (BitVec.ofNat 64 dynamic) sites (BitVec.ofNat 64 used) cs).Pairwise fun v w => v.start + v.bytes ≤ w.start := by
  intro cs
  induction cs with
  | nil => simp [execute]
  | cons c cs ih =>
    intro used hused hfits
    rw [Fits] at hfits
    rw [execute]
    cases hsite : sites[c.site]? with
    | none =>
      rw [hsite] at hfits
      exact ih hused hfits
    | some s =>
      rw [hsite] at hfits
      cases s with
      | global id a => exact ih hused hfits
      | fixed r =>
        obtain ⟨⟨-, hend⟩, hrest⟩ := hfits
        obtain ⟨v, hv, -, -, hstart, hbytes⟩ := @fixed_view dynamic used (by omega) c.site r c.values
        obtain ⟨hbehind, hpairs⟩ := ih (hend.trans hrequired) hrest
        simp only [hv, Option.toList_some, List.singleton_append, List.forall_mem_cons, List.pairwise_cons]
        refine ⟨⟨hstart.ge, fun w hw => (Nat.le_add_right ..).trans (hbehind w hw)⟩, fun w hw => ?_, hpairs⟩
        rw [hstart, hbytes]
        exact hbehind w hw
      | rest r =>
        obtain ⟨⟨-, hend⟩, hrest⟩ := hfits
        obtain ⟨v, hv, -, -, hstart, hbytes⟩ := rest_view hused hdynamic c.site (hsites r (List.mem_of_getElem? hsite)) c.values
        obtain ⟨hbehind, hpairs⟩ := ih (le_refl _) hrest
        have hmul : r.itemBytes * ((dynamic - used) / r.itemBytes) ≤ dynamic - used := Nat.mul_div_le _ _
        simp only [hv, Option.toList_some, List.singleton_append, List.forall_mem_cons, List.pairwise_cons]
        refine ⟨⟨hstart.ge, fun w hw => hused.trans (hbehind w hw)⟩, fun w hw => ?_, hpairs⟩
        rw [hstart, hbytes]
        exact le_trans (by omega) (hbehind w hw)

theorem execute_iff (hsites : ∀ r, .rest r ∈ sites → r.itemBytes < 2 ^ 63) (hrequired : required ≤ dynamic) (hdynamic : dynamic < 2 ^ 64) :
    ∀ {cs : List Call} {used : Nat}, used ≤ dynamic →
      ((∀ v ∈ execute (BitVec.ofNat 64 dynamic) sites (BitVec.ofNat 64 used) cs, v.request.AlignedAt v.start ∧ v.start + v.bytes ≤ required) ↔
        Fits required dynamic sites used cs) := by
  intro cs
  induction cs with
  | nil => simp [execute, Fits]
  | cons c cs ih =>
    intro used hused
    rw [Fits, execute]
    cases hsite : sites[c.site]? with
    | none => exact ih hused
    | some s =>
      cases s with
      | global id a => exact ih hused
      | fixed r =>
        obtain ⟨v, hv, -, hr, hstart, hbytes⟩ := @fixed_view dynamic used (lt_of_le_of_lt hused hdynamic) c.site r c.values
        simp only [hv, Option.toList_some, List.singleton_append, List.forall_mem_cons, hr, hstart, hbytes]
        refine and_congr_right fun hfirst => ?_
        exact ih (hfirst.2.trans hrequired)
      | rest r =>
        obtain ⟨v, hv, -, hr, hstart, hbytes⟩ := rest_view hused hdynamic c.site (hsites r (List.mem_of_getElem? hsite)) c.values
        simp only [hv, Option.toList_some, List.singleton_append, List.forall_mem_cons, hr, hstart, hbytes]
        refine and_congr_right fun _ => ?_
        exact ih (le_refl _)

end

theorem foldlM_required_le {calls : List Int} : ∀ {previous req : Nat}, calls.foldlM setRequiredDynamicSharedMemory previous = some req →
    previous ≤ req ∧ ∀ n ∈ calls, n ≤ req := by
  induction calls with
  | nil =>
    intro previous req h
    cases h
    simp
  | cons n ns ih =>
    intro previous req h
    rw [List.foldlM_cons, Option.bind_eq_bind, Option.bind_eq_some_iff] at h
    obtain ⟨m, hm, h⟩ := h
    obtain ⟨hle, hall⟩ := ih h
    rw [setRequiredDynamicSharedMemory, Option.ite_none_left_eq_some, Option.some.injEq] at hm
    refine ⟨by omega, fun k hk => ?_⟩
    rcases List.mem_cons.mp hk with rfl | hk
    · omega
    · exact hall k hk

theorem required_le {planned : List Int} {req : Nat} (h : required planned = some req) : ∀ n ∈ planned, n ≤ req := (foldlM_required_le h).2

theorem effectiveSharedmem_eq {configured : Option Int} {required dynamic : Nat}
    (h : launchSharedmem (effectiveSharedmem configured required) = some dynamic) :
    (dynamic : Int) = max (normalizeLaunchSharedmem configured) required ∧ dynamic < 2 ^ 31 := by
  simp only [launchSharedmem, Option.ite_none_right_eq_some, Option.some.injEq] at h
  obtain ⟨⟨hpos, hlt⟩, rfl⟩ := h
  unfold effectiveSharedmem at *
  by_cases h0 : required = 0
  · simp only [h0, ne_eq, not_true_eq_false, if_false] at *
    exact ⟨by omega, by omega⟩
  · simp only [ne_eq, h0, not_false_eq_true, if_true] at *
    exact ⟨by omega, by omega⟩

theorem shared_views_iff {shmemId : Nat} {requests : List Request} {sites : List Site} {planned : List Int} {configured : Option Int}
    {req dynamic : Nat} (hlower : lowerKernel shmemId requests = some sites) (hplanned : required planned = some req)
    (hlaunch : launchSharedmem (effectiveSharedmem configured req) = some dynamic) (run : List Call) :
    Laws requests sites planned configured req dynamic (execute (BitVec.ofNat 64 dynamic) sites 0 run) ↔ Fits req dynamic sites 0 run := by
  obtain ⟨hmax, hsmall⟩ := effectiveSharedmem_eq hlaunch
  have hrequired : req ≤ dynamic := by omega
  have hsites := lowerKernel_bytes hlower
  have hviews := @execute_iff sites req dynamic hsites hrequired (by omega) run 0 (Nat.zero_le _)
  constructor
  · intro h
    exact hviews.mp fun v hv => ⟨h.aligned v hv, h.bounded v hv⟩
  · intro hfits
    have hall := hviews.mpr hfits
    obtain ⟨-, hordered⟩ := fits_ordered hsites hrequired (by omega) (Nat.zero_le _) hfits
    refine ⟨hordered.imp fun hle _ b hb => ?_, fun v hv => (hall v hv).1, fun v hv => (hall v hv).2, required_le hplanned, hmax, (lowerKernel_globals hlower).2,
      lowerKernel_alignment hlower⟩
    have := hb.1.2
    have := hb.2.1
    omega

/-- Thirty-two integers, and floats on a boundary of 64 bytes behind them. -/
def tiles : List Request := [⟨[.value 32], .integer 32, none⟩, ⟨[.value 32], .float 64, some 64⟩]

def tileSites : List Site := tiles.map .fixed

theorem shared_views_tiles :
    Laws tiles tileSites [384] none 384 384 (execute 384 tileSites 0 [⟨0, fun _ => 32⟩, ⟨1, fun _ => 32⟩]) := by
  refine (@shared_views_iff 0 tiles tileSites [384] none 384 384 rfl rfl rfl _).mpr ?_
  refine ⟨⟨⟨by decide, ?_⟩, by decide⟩, ⟨⟨by decide, ?_⟩, by decide⟩, trivial⟩
  · rintro a ⟨⟩
  · rintro a ⟨⟩
    decide

def bytesAndFloats : List Request := [⟨[.value 32], .integer 8, none⟩, ⟨[.value 32], .float 64, some 64⟩]

theorem floats_misaligned :
    lowerKernel 0 bytesAndFloats = some (bytesAndFloats.map .fixed) ∧ launchSharedmem (effectiveSharedmem none 1024) = some 1024 ∧
      ¬ Laws bytesAndFloats (bytesAndFloats.map .fixed) [1024] none 1024 1024
        (execute 1024 (bytesAndFloats.map .fixed) 0 [⟨0, fun _ => 3⟩, ⟨1, fun _ => 4⟩]) := by
  refine ⟨rfl, rfl, fun h => ?_⟩
  have halign := (h.aligned ⟨1, ⟨[.value 32], .float 64, some 64⟩, 3, [4]⟩ (.tail _ (.head _))).1
  exact absurd halign (by decide)

end NumbaCudaMlir.SharedMemory

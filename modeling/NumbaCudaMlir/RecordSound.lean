import Mathlib.Data.BitVec
import NumbaCudaMlir.RecordItems

/-!
# Store laws of records

Whole-array assignments, which copy element by element in the order of the
linear index, and the store laws of all assignments.
-/

namespace NumbaCudaMlir.Record

open ArrayIndex ByteMemory CInt MachineInt
open RecordArray (IndexKind HasKind)
open Aggregate (FloatWidth)

/-! ## Linear indices -/

def coords (k : Nat) (shape : List Nat) : List Int := (unravel k shape).map Nat.cast

theorem coords_of_lt {k n : Nat} {shape : List Nat} (h : 1 < shape.prod) :
    coords k (n :: shape) = ((k / shape.prod : Nat) : Int) :: coords (k % shape.prod) shape := by
  rw [coords, unravel, if_pos h]
  rfl

theorem coords_of_le {k n : Nat} {shape : List Nat} (h : ¬ 1 < shape.prod) : coords k (n :: shape) = (k : Int) :: coords k shape := by
  rw [coords, unravel, if_neg h]
  rfl

theorem dot_coords_cons (i : Int) (k n : Nat) (shape : List Nat) :
    Strided.dot (i :: coords k shape) ((strides 1 (n :: shape)).map Nat.cast) =
      i * shape.prod + Strided.dot (coords k shape) ((strides 1 shape).map Nat.cast) := by
  rw [strides, List.map_cons, Strided.dot_cons, Nat.one_mul]

theorem coords_spec : ∀ {shape : List Nat} {k : Nat}, Unravels shape → k < shape.prod →
    InShape shape (coords k shape) ∧ Strided.dot (coords k shape) ((strides 1 shape).map Nat.cast) = k
  | [], k, _, hk => by
    obtain rfl : k = 0 := by simpa using hk
    exact ⟨.nil, rfl⟩
  | n :: shape, k, hu, hk => by
    rw [List.prod_cons] at hk
    have hpos : 0 < shape.prod := Nat.pos_of_ne_zero fun h => by simp [h] at hk
    by_cases hlt : 1 < shape.prod
    · obtain ⟨hin, hdot⟩ := coords_spec hu.2 (Nat.mod_lt k hpos)
      have hdiv := Nat.div_lt_of_lt_mul (by rwa [Nat.mul_comm] at hk)
      rw [coords_of_lt hlt, dot_coords_cons, hdot]
      refine ⟨.cons ⟨Int.natCast_nonneg _, by exact_mod_cast hdiv⟩ hin, ?_⟩
      exact_mod_cast Nat.div_add_mod' k shape.prod
    · have hone : shape.prod = 1 := by omega
      rw [hone, Nat.mul_one] at hk
      rw [coords_of_le hlt, dot_coords_cons, hone, Nat.cast_one, Int.mul_one]
      rcases hu.1 with hn | rfl | hne
      · obtain rfl : k = 0 := by omega
        obtain ⟨hin, hdot⟩ := coords_spec hu.2 hpos
        exact ⟨.cons ⟨by omega, by omega⟩ hin, by rw [hdot]; rfl⟩
      · exact ⟨.cons ⟨by omega, by omega⟩ .nil, by simp [coords, unravel]⟩
      · exact absurd hone hne

theorem dot_coords_le : ∀ (shape : List Nat) (k : Nat),
    ∃ e : Nat, Strided.dot (coords k shape) ((strides 1 shape).map Nat.cast) = e ∧ e ≤ shape.length * k
  | [], k => ⟨0, rfl, by simp⟩
  | n :: shape, k => by
    by_cases hlt : 1 < shape.prod
    · obtain ⟨e, he, hle⟩ := dot_coords_le shape (k % shape.prod)
      refine ⟨k / shape.prod * shape.prod + e, ?_, ?_⟩
      · rw [coords_of_lt hlt, dot_coords_cons, he]
        push_cast
        rfl
      · have hdiv := Nat.div_mul_le_self k shape.prod
        have hmod := Nat.mul_le_mul_left shape.length (Nat.mod_le k shape.prod)
        rw [List.length_cons, Nat.add_one_mul]
        omega
    · obtain ⟨e, he, hle⟩ := dot_coords_le shape k
      refine ⟨k * shape.prod + e, ?_, ?_⟩
      · rw [coords_of_le hlt, dot_coords_cons, he]
        push_cast
        rfl
      · have := Nat.mul_le_mul_left k (Nat.le_of_not_lt hlt)
        rw [List.length_cons, Nat.add_one_mul]
        omega

theorem dot_coords_of_ones : ∀ {shape : List Nat}, shape.prod = 1 → ∀ k : Nat,
    Strided.dot (coords k shape) ((strides 1 shape).map Nat.cast) = (k * shape.length : Nat)
  | [], _, k => by simp [coords, unravel]
  | n :: shape, h, k => by
    rw [List.prod_cons] at h
    have hone := Nat.eq_one_of_mul_eq_one_left h
    rw [coords_of_le (by omega), dot_coords_cons, dot_coords_of_ones hone, hone, List.length_cons]
    push_cast
    ring

theorem unravels_of_ones : ∀ {shape : List Nat}, shape.prod = 1 → Unravels shape
  | [], _ => trivial
  | n :: shape, h => by
    rw [List.prod_cons] at h
    have := Nat.eq_one_of_mul_eq_one_right h
    exact ⟨.inl (by omega), unravels_of_ones (Nat.eq_one_of_mul_eq_one_left h)⟩

theorem dot_coords_ne_one : ∀ {shape : List Nat}, (∀ n ∈ shape, 0 < n) → ¬ Unravels shape →
    1 < shape.prod ∧ ∀ k, Strided.dot (coords k shape) ((strides 1 shape).map Nat.cast) ≠ 1
  | [], _, h => absurd trivial h
  | n :: shape, hpos, h => by
    have hn : 0 < n := hpos n (by simp)
    have htail : ∀ n ∈ shape, 0 < n := fun n hn => hpos n (by simp [hn])
    have hprod : 0 < shape.prod := List.prod_pos_iff_forall_pos_nat.mpr htail
    rw [Unravels, not_and_or, not_or, not_or, not_not] at h
    rw [List.prod_cons]
    by_cases hlt : 1 < shape.prod
    · obtain ⟨-, hne⟩ := dot_coords_ne_one htail (h.resolve_left fun hc => by omega)
      refine ⟨hlt.trans_le (Nat.le_mul_of_pos_left _ hn), fun k he => ?_⟩
      rw [coords_of_lt hlt, dot_coords_cons] at he
      obtain ⟨e, hdot, -⟩ := dot_coords_le shape (k % shape.prod)
      rcases Nat.eq_zero_or_pos (k / shape.prod) with h0 | h0
      · rw [h0] at he
        exact hne _ (by simpa using he)
      · have := Nat.mul_le_mul_right shape.prod h0
        rw [hdot] at he
        norm_cast at he
        omega
    · have hone : shape.prod = 1 := by omega
      have hcase : 1 < n ∧ shape ≠ [] := by
        rcases h with ⟨hn1, hne, -⟩ | h
        · exact ⟨by omega, hne⟩
        · exact absurd (unravels_of_ones hone) h
      have hlen := List.length_pos_iff.mpr hcase.2
      refine ⟨by rw [hone]; omega, fun k he => ?_⟩
      rw [coords_of_le hlt, dot_coords_cons, dot_coords_of_ones hone, hone] at he
      norm_cast at he
      rcases Nat.eq_zero_or_pos k with rfl | hk
      · simp at he
      · have := Nat.mul_le_mul hk hlen
        omega

/-! ## Loops -/

theorem dot_map_cast : ∀ {is ss : List Nat}, is.length = ss.length →
    dstByteOffset is ss = BitVec.ofInt 64 (Strided.dot (is.map Nat.cast) (ss.map Nat.cast))
  | [], [], _ => by simp [dstByteOffset]
  | i :: is, s :: ss, h => by
    rw [dstByteOffset, dot_map_cast (by simpa using h), List.map_cons, List.map_cons, Strided.dot_cons, BitVec.ofInt_add, ← Int.natCast_mul,
      BitVec.ofInt_natCast, BitVec.ofNat_mul]

theorem unravel_length : ∀ (shape : List Nat) (k : Nat), (unravel k shape).length = shape.length
  | [], _ => rfl
  | n :: shape, k => by
    rw [unravel]
    split <;> simp [unravel_length shape]

theorem storeElement_eq {dtype : ItemType} {shape : List Nat} {source : Source} {k bytes : Nat} {s : BitVec 64}
    (h : sourceElement dtype k (unravel k shape) source = some (s, bytes)) (fieldPtr : BitVec 64) (m : Memory) :
    storeElement dtype shape fieldPtr source m k =
      some (store m (elementAddress fieldPtr dtype shape (coords k shape)) bytes (load m s bytes)) := by
  rw [storeElement]
  simp only [h]
  rw [Option.bind_eq_bind, Option.bind_some, dot_map_cast (by rw [unravel_length, strides_length])]
  rfl

theorem sourceElement_isSome {dtype : ItemType} {shape : List Nat} {source : Source} {kind : SourceKind} {bytes : Nat}
    (hsource : source.HasKind shape kind) (hbytes : copiedBytes dtype kind = some bytes) (k : Nat) :
    ∃ s, sourceElement dtype k (unravel k shape) source = some (s, bytes) := by
  cases kind with
  | memref =>
    obtain ⟨data, strides, rfl, -⟩ := hsource
    cases hbytes
    exact ⟨_, rfl⟩
  | pointer =>
    obtain ⟨src, rfl⟩ := hsource
    cases dtype <;> cases hbytes <;> exact ⟨_, rfl⟩

theorem sourceElement_eq {dtype : ItemType} {shape : List Nat} {source : Source} {kind : SourceKind} {k bytes : Nat}
    (hsource : source.HasKind shape kind) (hbytes : copiedBytes dtype kind = some bytes)
    (hdot : Strided.dot (coords k shape) ((strides 1 shape).map Nat.cast) = k) :
    sourceElement dtype k (unravel k shape) source = some (source.address dtype shape (coords k shape), bytes) := by
  cases kind with
  | memref =>
    obtain ⟨data, strides, rfl, -⟩ := hsource
    cases hbytes
    rfl
  | pointer =>
    obtain ⟨src, rfl⟩ := hsource
    cases dtype <;> cases hbytes <;> rw [Source.address, elementAddress_eq hdot] <;> rfl

theorem exists_storeLoop {dtype : ItemType} {shape : List Nat} {source : Source} {bytes : Nat}
    (hsource : ∀ k, ∃ s, sourceElement dtype k (unravel k shape) source = some (s, bytes)) (hbytes : bytes ≤ 2 ^ 64) (fieldPtr : BitVec 64)
    (m : Memory) (n : Nat) :
    ∃ m', storeLoop dtype shape fieldPtr source m n = some m' ∧
      ∀ b, (∀ k < n, ∀ i < bytes, b ≠ elementAddress fieldPtr dtype shape (coords k shape) + BitVec.ofNat 64 i) → m' b = m b := by
  induction n with
  | zero => exact ⟨m, rfl, fun _ _ => rfl⟩
  | succ n ih =>
    obtain ⟨m₁, hm₁, hframe⟩ := ih
    obtain ⟨s, hs⟩ := hsource n
    refine ⟨store m₁ (elementAddress fieldPtr dtype shape (coords n shape)) bytes (load m₁ s bytes), ?_, fun b hb => ?_⟩
    · rw [storeLoop, hm₁, Option.bind_eq_bind, Option.bind_some, storeElement_eq hs]
    · rw [store_of_le, hframe b fun k hk => hb k (by omega)]
      by_contra hlt
      obtain ⟨i, hi, he⟩ := (sub_toNat_lt_iff hbytes).mp (Nat.lt_of_not_le hlt)
      exact hb n (Nat.lt_succ_self n) i hi he

theorem storeNestedArrayField_eq {dtype : ItemType} {shape : List Nat} {source : Source} {bytes : Nat}
    (hsource : ∀ k, ∃ s, sourceElement dtype k (unravel k shape) source = some (s, bytes)) (fieldPtr : BitVec 64) (m : Memory) :
    storeNestedArrayField dtype shape fieldPtr source m = storeLoop dtype shape fieldPtr source m shape.prod := by
  obtain ⟨s, hs⟩ := hsource 0
  rw [storeNestedArrayField, storeElement_eq hs]
  rfl

theorem storeLoop_copies {dtype : ItemType} {shape : List Nat} {source : Source} {kind : SourceKind} {m : Memory} {fieldPtr : BitVec 64}
    (hsource : source.HasKind shape kind) (hbytes : copiedBytes dtype kind = some dtype.size) (hu : Unravels shape)
    (hsize : dtype.size * shape.prod < 2 ^ 56)
    (hapart : ∀ c, InShape shape c → Apart (source.address dtype shape c) dtype.size fieldPtr (dtype.size * shape.prod)) :
    ∀ n ≤ shape.prod, ∃ m', storeLoop dtype shape fieldPtr source m n = some m' ∧
      (∀ b, dtype.size * n ≤ (b - fieldPtr).toNat → m' b = m b) ∧
      ∀ k < n, ∀ i < dtype.size, m' (fieldPtr + BitVec.ofNat 64 (k * dtype.size + i)) =
        m (source.address dtype shape (coords k shape) + BitVec.ofNat 64 i) := by
  intro n
  induction n with
  | zero => exact fun _ => ⟨m, rfl, fun _ _ => rfl, fun k hk => absurd hk (Nat.not_lt_zero k)⟩
  | succ n ih =>
    intro hn
    obtain ⟨m₁, hm₁, hout, hin⟩ := ih (by omega)
    obtain ⟨hshape, hdot⟩ := coords_spec hu hn
    have haddr : sourceElement dtype n (unravel n shape) source = some (source.address dtype shape (coords n shape), dtype.size) :=
      sourceElement_eq hsource hbytes hdot
    have hfits := Nat.mul_le_mul_left dtype.size hn
    have hdst : elementAddress fieldPtr dtype shape (coords n shape) = fieldPtr + BitVec.ofNat 64 (n * dtype.size) := elementAddress_eq hdot
    rw [Nat.mul_succ] at hfits
    have hle : dtype.size ≤ 2 ^ 64 := by omega
    -- the source's bytes are not stored to
    have hload : load m₁ (source.address dtype shape (coords n shape)) dtype.size =
        load m (source.address dtype shape (coords n shape)) dtype.size := by
      refine load_congr fun i hi => hout _ ?_
      by_contra hlt
      obtain ⟨x, hx, he⟩ := (sub_toNat_lt_iff (by omega)).mp (Nat.lt_of_not_le hlt)
      exact hapart _ hshape i hi x (by omega) he
    refine ⟨store m₁ (fieldPtr + BitVec.ofNat 64 (n * dtype.size)) dtype.size (load m (source.address dtype shape (coords n shape)) dtype.size),
      ?_, fun b hb => ?_, fun k hk i hi => ?_⟩
    · rw [storeLoop, hm₁, Option.bind_eq_bind, Option.bind_some, storeElement_eq haddr, hload, hdst]
    · rw [store_inside (by rw [Nat.mul_comm n]; exact le_refl _) (by omega) hb]
      exact hout b (by rw [Nat.mul_succ] at hb; omega)
    · rcases Nat.lt_succ_iff_lt_or_eq.mp hk with hlt | rfl
      · rw [store_of_le, hin k hlt i hi]
        have hki := element_byte_le hlt hi
        by_contra hc
        obtain ⟨x, hx, he⟩ := (sub_toNat_lt_iff hle).mp (Nat.lt_of_not_le hc)
        rw [add_ofNat_add, add_ofNat_inj _ (by omega) (by rw [Nat.mul_comm n]; omega)] at he
        rw [Nat.mul_comm dtype.size] at hki
        omega
      · rw [← add_ofNat_add, store_load_at _ _ _ _ hi hle]

/-! ## Indices of the first elements -/

theorem readings_of_nonneg : ∀ {shape : List Nat} {kinds : List IndexKind} {xs : List IndexArg}, List.Forall₂ HasKind xs kinds →
    kinds.length = shape.length → (∀ x ∈ xs, 0 ≤ x.value) →
      RecordArray.readings extendedReading shape kinds xs = coordinates shape xs
  | [], _, _, .nil, _, _ => rfl
  | n :: shape, kind :: kinds, x :: xs, .cons hx hxs, hk, hnonneg => by
    have h0 : 0 ≤ x.value := hnonneg x (by simp)
    rw [RecordArray.readings, readings_of_nonneg hxs (by simpa using hk) fun y hy => hnonneg y (by simp [hy]), extendedReading,
      RecordArray.extended, if_neg (by omega), coordinates, coordinate, if_pos h0]

theorem elemPtr_of_nonneg {dtype : ItemType} {shape : List Nat} {kinds : List IndexKind} {index : Index}
    (hindex : HasKinds index shape kinds) (hk : kinds.length = shape.length) (hnonneg : ∀ x ∈ index.args, 0 ≤ x.value)
    (base : BitVec 64) : computeNestedArrayElemPtr base dtype shape (index.args.map RecordArray.convertIndex) =
      elementAddress base dtype shape (coordinates shape index.args) := by
  rw [computeNestedArrayElemPtr, elementAddress, byteOffset_eq hk (strides_length _ _) hindex.1, readings_of_nonneg hindex.1 hk hnonneg]

theorem exists_arg_small (kind : IndexKind) {n : Nat} {v : Int} (h0 : 0 ≤ v) (hv : v < n) (hsmall : v ≤ 1) :
    ∃ x, HasKind x kind ∧ 0 ≤ x.value ∧ (-(n : Int) ≤ x.value ∧ x.value < n) ∧ coordinate n x.value = v := by
  obtain ⟨x, hx, rfl⟩ := RecordArray.exists_arg kind v (RecordArray.inRange_small kind h0 (by omega))
  exact ⟨x, hx, h0, ⟨by omega, hv⟩, if_pos h0⟩

theorem exists_zero : ∀ {shape : List Nat} {kinds : List IndexKind}, kinds.length = shape.length → (∀ n ∈ shape, 0 < n) →
    ∃ xs, List.Forall₂ HasKind xs kinds ∧ ArrayIndex.InRange shape xs ∧ (∀ x ∈ xs, 0 ≤ x.value) ∧
      Strided.dot (coordinates shape xs) ((strides 1 shape).map Nat.cast) = 0
  | [], [], _, _ => ⟨[], .nil, trivial, by simp, by simp [coordinates]⟩
  | n :: shape, kind :: kinds, hk, hpos => by
    obtain ⟨xs, hxs, hr, hnonneg, hdot⟩ := exists_zero (by simpa using hk) fun m hm => hpos m (by simp [hm])
    obtain ⟨x, hx, h0, hin, hc⟩ := exists_arg_small kind (le_refl 0) (by exact_mod_cast hpos n (by simp)) (by decide)
    refine ⟨x :: xs, .cons hx hxs, ⟨hin, hr⟩, by simpa using ⟨h0, hnonneg⟩, ?_⟩
    rw [coordinates, strides, List.map_cons, Strided.dot_cons, hc, hdot]
    simp

theorem exists_one : ∀ {shape : List Nat} {kinds : List IndexKind}, kinds.length = shape.length → (∀ n ∈ shape, 0 < n) →
    1 < shape.prod → ∃ xs, List.Forall₂ HasKind xs kinds ∧ ArrayIndex.InRange shape xs ∧ (∀ x ∈ xs, 0 ≤ x.value) ∧
      Strided.dot (coordinates shape xs) ((strides 1 shape).map Nat.cast) = 1
  | [], _, _, _, h => by simp at h
  | n :: shape, kind :: kinds, hk, hpos, h => by
    have hn : 0 < n := hpos n (by simp)
    have htail : ∀ m ∈ shape, 0 < m := fun m hm => hpos m (by simp [hm])
    rw [List.prod_cons] at h
    by_cases hlt : 1 < shape.prod
    · obtain ⟨xs, hxs, hr, hnonneg, hdot⟩ := exists_one (by simpa using hk) htail hlt
      obtain ⟨x, hx, h0, hin, hc⟩ := exists_arg_small kind (le_refl 0) (by exact_mod_cast hn) (by decide)
      refine ⟨x :: xs, .cons hx hxs, ⟨hin, hr⟩, by simpa using ⟨h0, hnonneg⟩, ?_⟩
      rw [coordinates, strides, List.map_cons, Strided.dot_cons, hc, hdot]
      simp
    · have hone : shape.prod = 1 := by
        have := List.prod_pos_iff_forall_pos_nat.mpr htail
        omega
      rw [hone, Nat.mul_one] at h
      obtain ⟨xs, hxs, hr, hnonneg, hdot⟩ := exists_zero (by simpa using hk) htail
      obtain ⟨x, hx, h0, hin, hc⟩ := exists_arg_small kind (show (0 : Int) ≤ 1 by decide) (by exact_mod_cast h) (le_refl 1)
      refine ⟨x :: xs, .cons hx hxs, ⟨hin, hr⟩, by simpa using ⟨h0, hnonneg⟩, ?_⟩
      rw [coordinates, strides, List.map_cons, Strided.dot_cons, hc, hdot, hone]
      rfl

/-! ## Distant sources -/

def compactSource (shape : List Nat) (src : BitVec 64) : SourceKind → Source
  | .memref => .memref src ((strides 1 shape).map Nat.cast)
  | .pointer => .value (.pointer src)

def pitch (dtype : ItemType) : SourceKind → Nat
  | .memref => memrefElementBytes dtype
  | .pointer => dtype.size

theorem compactSource_hasKind (shape : List Nat) (src : BitVec 64) (kind : SourceKind) :
    (compactSource shape src kind).HasKind shape kind := by
  cases kind with
  | memref => exact ⟨src, _, rfl, by rw [List.length_map, strides_length]⟩
  | pointer => exact ⟨src, rfl⟩

theorem compactSource_address {dtype : ItemType} {shape : List Nat} {c : List Int} {j : Nat} (src : BitVec 64) (kind : SourceKind)
    (h : Strided.dot c ((strides 1 shape).map Nat.cast) = (j : Int)) :
    (compactSource shape src kind).address dtype shape c = src + BitVec.ofNat 64 (j * pitch dtype kind) := by
  cases kind with
  | memref => rw [compactSource, Source.address, sourceAddress, h, ← Int.natCast_mul, BitVec.ofInt_natCast, Nat.mul_comm]; rfl
  | pointer => exact elementAddress_eq h

theorem pitch_le (dtype : ItemType) (kind : SourceKind) (h : 0 < dtype.size) : pitch dtype kind ≤ dtype.size := by
  cases kind with
  | memref => cases dtype <;> first | exact le_refl _ | exact h
  | pointer => exact le_refl _

theorem compactSource_apart {dtype : ItemType} {shape : List Nat} (hsize : dtype.size * shape.prod < 2 ^ 56) {d : Nat}
    (hd : 2 ^ 57 ≤ d) (hd' : d ≤ 2 ^ 63) (fieldPtr : BitVec 64) (kind : SourceKind) (c : List Int) (hc : InShape shape c) :
    Apart ((compactSource shape (fieldPtr + BitVec.ofNat 64 d) kind).address dtype shape c) dtype.size fieldPtr
      (dtype.size * shape.prod) := by
  obtain ⟨j, hj, hdot⟩ := exists_linear hc
  intro i hi i' hi' he
  have hle := Nat.mul_le_mul_left j (pitch_le dtype kind (by omega))
  have hbyte := element_byte_le hj hi
  rw [compactSource_address _ _ hdot, add_ofNat_add, add_ofNat_add, add_ofNat_inj _ (by omega) (by omega)] at he
  omega

/-! ## Whole arrays -/

theorem copiedBytes_bounds {dtype : ItemType} {kind : SourceKind} {bytes : Nat} (h : copiedBytes dtype kind = some bytes) :
    0 < bytes ∧ bytes ≤ 16 := by
  by_cases hrecord : ∃ size, dtype = .record size
  · obtain ⟨size, rfl⟩ := hrecord
    cases kind <;> cases h
    · exact ⟨Nat.one_pos, by simp [memrefElementBytes]⟩
    · decide
  · have hnumber : dtype.IsNumber := fun size he => hrecord ⟨size, he⟩
    have hbytes : bytes = dtype.size := by
      cases kind <;> cases dtype <;> cases h <;> first | rfl | exact absurd rfl (hnumber _)
    exact hbytes ▸ size_bounds hnumber

section
variable (resize : (f g : FloatWidth) → BitVec f.bits → BitVec g.bits)
variable {R : RecordType} {name : String} {offset : Nat} {dtype : ItemType} {shape : List Nat} {hb : dtype ≠ .boolean}
variable (hf : R.fields.get name = some ⟨offset, .nestedArray dtype shape hb⟩) {kind : SourceKind} {kinds : List IndexKind}
include hf

theorem lowerSet_array (m : Memory) (p : BitVec 64) (source : Source) (route : SetRoute) : lowerSet resize R m p name source route =
    storeNestedArrayField dtype shape (p + BitVec.ofNat 64 offset) source m := by
  cases route
  all_goals
    simp only [lowerSet, lowerRecordSetattr, lowerRecordStaticSetitemStr, getRecordFieldPtr_eq hf, Option.bind_eq_bind, Option.bind_some,
      storeField]

theorem array_size_lt : dtype.size * shape.prod < 2 ^ 56 :=
  (Nat.le_add_left ..).trans_lt ((R.field_le name _ hf).trans_lt R.size_lt)

theorem not_arrayLaws_of_none (hcopied : copiedBytes dtype kind = none) : ¬ ArrayLaws resize R name offset dtype shape kind kinds := by
  intro h
  obtain ⟨m', hset, -⟩ := h (fun _ => 0) 0 (compactSource shape (0 + BitVec.ofNat 64 offset + BitVec.ofNat 64 (2 ^ 63)) kind) .attr
    (compactSource_hasKind ..) (compactSource_apart (array_size_lt hf) (by decide) (le_refl _) _ kind)
  rw [lowerSet_array resize hf] at hset
  cases kind with
  | memref => cases hcopied
  | pointer =>
    cases dtype <;> cases hcopied
    cases hset

theorem arrayLaws_of_empty {bytes : Nat} (hcopied : copiedBytes dtype kind = some bytes) (hk : kinds.length = shape.length)
    (hprod : shape.prod = 0) : ArrayLaws resize R name offset dtype shape kind kinds := by
  intro m p source route hsource _
  refine ⟨m, ?_, ⟨fun _ _ => rfl, fun _ _ => rfl⟩, fun r index _ hindex => ?_⟩
  · rw [lowerSet_array resize hf, storeNestedArrayField_eq (sourceElement_isSome hsource hcopied), hprod]
    rfl
  · exact absurd hindex.2 (not_inRange_of_prod hprod (hindex.1.length_eq.trans hk))

theorem exists_copied (hcopied : copiedBytes dtype kind = some dtype.size) (hu : Unravels shape) {m : Memory} {p : BitVec 64}
    {source : Source} (hsource : source.HasKind shape kind) (hapart : ∀ c, InShape shape c →
      Apart (source.address dtype shape c) dtype.size (p + BitVec.ofNat 64 offset) (dtype.size * shape.prod)) (route : SetRoute) :
    ∃ m', lowerSet resize R m p name source route = some m' ∧
      (∀ b, dtype.size * shape.prod ≤ (b - (p + BitVec.ofNat 64 offset)).toNat → m' b = m b) ∧
      ∀ k < shape.prod, ∀ i < dtype.size, m' (p + BitVec.ofNat 64 offset + BitVec.ofNat 64 (k * dtype.size + i)) =
        m (source.address dtype shape (coords k shape) + BitVec.ofNat 64 i) := by
  rw [lowerSet_array resize hf, storeNestedArrayField_eq (sourceElement_isSome hsource hcopied)]
  exact storeLoop_copies hsource hcopied hu (array_size_lt hf) hapart shape.prod (le_refl _)

theorem arrayLaws_of_sound (hcopied : copiedBytes dtype kind = some dtype.size) (hk : kinds.length = shape.length)
    (hprod : shape.prod ≠ 0) (hu : Unravels shape) (hext : Extends dtype.size shape kinds) :
    ArrayLaws resize R name offset dtype shape kind kinds := by
  intro m p source route hsource hapart
  obtain ⟨m', hset, hout, hin⟩ := exists_copied resize hf hcopied hu (m := m) hsource hapart route
  refine ⟨m', hset, keeps_of_confined (confined_self hf) hout, fun r index hr hindex => ?_⟩
  have hshape := coordinates_inShape (hindex.1.length_eq.trans hk) hindex.2
  obtain ⟨j, hj, hdot⟩ := exists_linear hshape
  obtain ⟨hcs, hcdot⟩ := coords_spec hu hj
  rw [readElement_eq hf hr, (elemPtr_iff hk hprod (array_size_lt hf) _).mpr hext _ hindex.1 hindex.2, elementAddress_eq hdot,
    observeItem_eq, observeItem_eq]
  refine congrArg (fun x => some (dtype.show x)) (load_congr fun i hi => ?_)
  rw [add_ofNat_add, hin j hj i hi, linear_inj hcs hshape (hcdot.trans hdot.symm)]

theorem stored_of_arrayLaws {bytes : Nat} (h : ArrayLaws resize R name offset dtype shape kind kinds)
    (hcopied : copiedBytes dtype kind = some bytes) (hk : kinds.length = shape.length) {index : Index}
    (hindex : HasKinds index shape kinds) (hnonneg : ∀ x ∈ index.args, 0 ≤ x.value) {j i : Nat}
    (hdot : Strided.dot (coordinates shape index.args) ((strides 1 shape).map Nat.cast) = j) (hi : i < dtype.size) :
    ∃ k < shape.prod, ∃ e : Nat, Strided.dot (coords k shape) ((strides 1 shape).map Nat.cast) = e ∧
      ∃ i' < bytes, e * dtype.size + i' = j * dtype.size + i := by
  have hsize := array_size_lt hf
  have hrank : shape.length ≤ 64 := R.rank_le name _ hf
  have hshape := coordinates_inShape (hindex.1.length_eq.trans hk) hindex.2
  have hj : j < shape.prod := by
    obtain ⟨j', hj', hdot'⟩ := exists_linear hshape
    rw [hdot] at hdot'
    omega
  have hbyte := element_byte_le hj hi
  have hpitch := Nat.mul_le_mul_left j (pitch_le dtype kind (by omega))
  by_contra hno
  -- one at the byte that is not stored, zeros elsewhere
  obtain ⟨base, hbase⟩ : ∃ base, base = (0 : BitVec 64) + BitVec.ofNat 64 offset := ⟨_, rfl⟩
  obtain ⟨target, htarget⟩ : ∃ target, target = base + BitVec.ofNat 64 (j * dtype.size + i) := ⟨_, rfl⟩
  let source := compactSource shape (base + BitVec.ofNat 64 (2 ^ 63)) kind
  have hsource : source.HasKind shape kind := compactSource_hasKind ..
  have hsome := @sourceElement_isSome dtype _ _ _ _ hsource hcopied
  obtain ⟨m', hset, -, hread⟩ := h (fun b => if b = target then 1 else 0) 0 source .attr hsource
    (by rw [← hbase]; exact compactSource_apart hsize (by decide) (le_refl _) _ kind)
  obtain ⟨m₁, hm₁, hframe⟩ := exists_storeLoop hsome ((copiedBytes_bounds hcopied).2.trans (by decide)) base
    (fun b => if b = target then 1 else 0) shape.prod
  rw [lowerSet_array resize hf, storeNestedArrayField_eq hsome, ← hbase, hm₁, Option.some_inj] at hset
  subst hset
  have hkept : m₁ target = 1 := by
    rw [hframe target fun k hkp i' hi' he => ?_]
    · exact if_pos rfl
    · obtain ⟨e, hedot, hele⟩ := dot_coords_le shape k
      have hbound : e * dtype.size ≤ 64 * (dtype.size * shape.prod) :=
        calc e * dtype.size ≤ (shape.length * k) * dtype.size := Nat.mul_le_mul_right _ hele
          _ ≤ (64 * shape.prod) * dtype.size := Nat.mul_le_mul_right _ (Nat.mul_le_mul hrank hkp.le)
          _ = 64 * (dtype.size * shape.prod) := by ring
      have hbytes := (copiedBytes_bounds hcopied).2
      rw [htarget, elementAddress_eq hedot, add_ofNat_add, add_ofNat_inj _ (by omega) (by omega)] at he
      exact hno ⟨k, hkp, e, hedot, i', hi', he.symm⟩
  have hshow := hread (.attr name) index rfl hindex
  rw [readElement_eq hf rfl, elemPtr_of_nonneg hindex hk hnonneg, Option.some_inj, observeItem_eq, observeItem_eq,
    show_inj hb (load_lt ..) (load_lt ..), load_eq_iff] at hshow
  have hat := hshow i hi
  have hfar : base + BitVec.ofNat 64 (2 ^ 63 + (j * pitch dtype kind + i)) ≠ target := by
    rw [htarget, Ne, add_ofNat_inj _ (by omega) (by omega)]
    omega
  rw [elementAddress_eq hdot, add_ofNat_add, ← hbase, ← htarget, hkept, compactSource_address _ _ hdot, add_ofNat_add, add_ofNat_add,
    if_neg hfar] at hat
  exact absurd hat (by decide)

theorem arrayLaws_necessary {bytes : Nat} (h : ArrayLaws resize R name offset dtype shape kind kinds)
    (hcopied : copiedBytes dtype kind = some bytes) (hle : bytes ≤ dtype.size) (hk : kinds.length = shape.length)
    (hprod : shape.prod ≠ 0) : bytes = dtype.size ∧ Unravels shape ∧ Extends dtype.size shape kinds := by
  have hpos := prod_pos hprod
  have hsize := array_size_lt hf
  have hbytes : bytes = dtype.size := by
    by_contra hne
    obtain ⟨xs, hxs, hr, hnonneg, hdot⟩ := exists_zero hk hpos
    obtain ⟨k, -, e, -, i, hi, he⟩ := stored_of_arrayLaws resize hf h hcopied hk (show HasKinds (.tuple xs) shape kinds from ⟨hxs, hr⟩) hnonneg
      (j := 0) hdot (Nat.lt_of_le_of_ne hle hne)
    rcases Nat.eq_zero_or_pos e with rfl | he'
    · omega
    · have := Nat.le_mul_of_pos_left dtype.size he'
      omega
  subst hbytes
  have hu : Unravels shape := by
    by_contra hu
    obtain ⟨hlt, hskip⟩ := dot_coords_ne_one hpos hu
    obtain ⟨xs, hxs, hr, hnonneg, hdot⟩ := exists_one hk hpos hlt
    obtain ⟨k, -, e, hedot, i, hi, he⟩ := stored_of_arrayLaws resize hf h hcopied hk (show HasKinds (.tuple xs) shape kinds from ⟨hxs, hr⟩) hnonneg
      (j := 1) hdot (copiedBytes_bounds hcopied).1
    obtain rfl : e = 1 := by
      rcases Nat.lt_trichotomy e 1 with hlt | rfl | hlt
      · obtain rfl : e = 0 := by omega
        omega
      · rfl
      · have := Nat.mul_le_mul_right dtype.size hlt
        omega
    exact hskip k hedot
  refine ⟨rfl, hu, (elemPtr_iff hk hprod hsize (0 + BitVec.ofNat 64 offset)).mp fun xs hxs hr => ?_⟩
  have hshape := coordinates_inShape (hxs.length_eq.trans hk) hr
  obtain ⟨j, hj, hdot⟩ := exists_linear hshape
  obtain ⟨base, hbase⟩ : ∃ base, base = (0 : BitVec 64) + BitVec.ofNat 64 offset := ⟨_, rfl⟩
  obtain ⟨elemPtr, hptr⟩ : ∃ a, a = computeNestedArrayElemPtr base dtype shape (xs.map RecordArray.convertIndex) := ⟨_, rfl⟩
  rw [← hbase, ← hptr, elementAddress_eq hdot]
  by_contra hne
  have hbyte := element_byte_le hj (copiedBytes_bounds hcopied).1
  have hpitch : pitch dtype kind = dtype.size := by
    cases kind with
    | memref => exact Option.some_inj.mp hcopied
    | pointer => rfl
  -- a distance at which the element read is not the source's own
  obtain ⟨d, hd, hd', hfar⟩ : ∃ d, 2 ^ 57 ≤ d ∧ d ≤ 2 ^ 63 ∧ elemPtr ≠ base + BitVec.ofNat 64 (d + j * dtype.size) := by
    by_cases hc : elemPtr = base + BitVec.ofNat 64 (2 ^ 63 + j * dtype.size)
    · refine ⟨2 ^ 62, by decide, by decide, ?_⟩
      rw [hc, Ne, add_ofNat_inj _ (by omega) (by omega)]
      omega
    · exact ⟨2 ^ 63, by decide, by decide, hc⟩
  obtain ⟨one, hone⟩ : ∃ a, a = base + BitVec.ofNat 64 (d + j * dtype.size) := ⟨_, rfl⟩
  rw [← hone] at hfar
  have hsource := compactSource_hasKind shape (base + BitVec.ofNat 64 d) kind
  have hapart : ∀ c, InShape shape c → Apart ((compactSource shape (base + BitVec.ofNat 64 d) kind).address dtype shape c) dtype.size
      (0 + BitVec.ofNat 64 offset) (dtype.size * shape.prod) := by
    rw [← hbase]
    exact compactSource_apart hsize hd hd' base kind
  obtain ⟨m', hset, -, hread⟩ := h (fun b => if b = one then 1 else 0) 0 _ .attr hsource hapart
  obtain ⟨m₁, hm₁, hout, hin⟩ := exists_copied resize hf hcopied hu (m := fun b => if b = one then 1 else 0) hsource hapart .attr
  rw [hm₁, Option.some_inj] at hset
  subst hset
  rw [← hbase] at hout hin
  have hshow := hread (.attr name) (.tuple xs) rfl ⟨hxs, hr⟩
  rw [readElement_eq hf rfl, Option.some_inj, observeItem_eq, observeItem_eq, show_inj hb (load_lt ..) (load_lt ..), load_eq_iff] at hshow
  have hat := hshow 0 (copiedBytes_bounds hcopied).1
  have hzero : m₁ elemPtr = 0 := by
    by_cases hinside : dtype.size * shape.prod ≤ (elemPtr - base).toNat
    · rw [hout _ hinside]
      exact if_neg hfar
    · obtain ⟨x, hx, rfl⟩ := (sub_toNat_lt_iff (by omega)).mp (Nat.lt_of_not_le hinside)
      have hx' : x / dtype.size < shape.prod := Nat.div_lt_of_lt_mul hx
      have hmod := Nat.mod_lt x (copiedBytes_bounds hcopied).1
      obtain ⟨hcs, hcdot⟩ := coords_spec hu hx'
      have hcopy := hin _ hx' _ hmod
      rw [compactSource_address _ _ hcdot, hpitch, add_ofNat_add, add_ofNat_add, Nat.div_add_mod',
        if_neg (by rw [hone, add_ofNat_inj _ (by omega) (by omega)]; exact fun he => hne (by rw [show x = j * dtype.size by omega]))] at hcopy
      exact hcopy
  change m₁ (computeNestedArrayElemPtr (0 + BitVec.ofNat 64 offset) dtype shape (xs.map RecordArray.convertIndex) + 0#64) =
    if (compactSource shape (base + BitVec.ofNat 64 d) kind).address dtype shape (coordinates shape xs) + 0#64 = one then 1 else 0 at hat
  rw [← hbase, ← hptr, BitVec.add_zero, hzero, compactSource_address _ _ hdot, hpitch, add_ofNat_add, add_ofNat_add, Nat.add_zero, ← hone,
    if_pos rfl] at hat
  exact absurd hat (by decide)

end

/-! ## Store laws -/

theorem castable_cases {s t : ItemType} (h : Castable s t) :
    (∃ size, s = .record size ∧ t = .record size) ∨ s.IsNumber ∧ t.IsNumber := by
  cases s <;> cases t <;> first
    | exact h.elim
    | exact .inl ⟨_, rfl, congrArg ItemType.record (Eq.symm h)⟩
    | exact .inr ⟨nofun, nofun⟩

theorem stores_number {R : RecordType} {name : String} {offset : Nat} {s : ItemType} (hs : s.IsNumber) (t : ItemType) :
    Stores R name offset s t ↔ Converts s t := by
  cases s with
  | record size => exact absurd rfl (hs size)
  | integer | float | complex | boolean => rfl

theorem stores_record {R : RecordType} {name : String} {offset size : Nat} :
    Stores R name offset (.record size) (.record size) ↔ size = 0 ∧ Confined R name offset 8 := by simp [Stores]

section
variable (resize : (f g : FloatWidth) → BitVec f.bits → BitVec g.bits)
variable {R : RecordType} {name : String} {offset : Nat}

theorem itemLaws_iff {s t : ItemType} (hf : R.fields.get name = some ⟨offset, .item t⟩) (hc : Castable s t) :
    ItemLaws resize R name s t ↔ Stores R name offset s t := by
  rcases castable_cases hc with ⟨size, rfl, rfl⟩ | ⟨hs, ht⟩
  · rw [stores_record, itemLaws_record_iff resize hf]
  · rw [stores_number hs, itemLaws_number_iff resize hf hs ht hc]

theorem elementLaws_iff {s dtype : ItemType} {shape : List Nat} {hb : dtype ≠ .boolean} {kinds : List IndexKind}
    (hf : R.fields.get name = some ⟨offset, .nestedArray dtype shape hb⟩) (hc : Castable s dtype) (hk : kinds.length = shape.length) :
    ElementLaws resize R name offset s dtype shape kinds ↔
      shape.prod = 0 ∨ Stores R name offset s dtype ∧ Extends dtype.size shape kinds := by
  by_cases hprod : shape.prod = 0
  · exact iff_of_true (elementLaws_of_empty resize hk hprod) (.inl hprod)
  rw [or_iff_right hprod]
  rcases castable_cases hc with ⟨size, rfl, rfl⟩ | ⟨hs, ht⟩
  · rw [stores_record, elementLaws_record_iff resize hf hk hprod, iff_self_and]
    rintro ⟨rfl, -⟩
    exact extends_zero shape kinds
  · rw [stores_number hs, elementLaws_number_iff resize hf hs ht hc hk hprod]

theorem arrayLaws_of_copied {dtype : ItemType} {shape : List Nat} {hb : dtype ≠ .boolean} {kind : SourceKind} {kinds : List IndexKind}
    (hf : R.fields.get name = some ⟨offset, .nestedArray dtype shape hb⟩) (hk : kinds.length = shape.length) {bytes : Nat}
    (hcopied : copiedBytes dtype kind = some bytes)
    (h : shape.prod = 0 ∨ bytes = dtype.size ∧ Unravels shape ∧ Extends dtype.size shape kinds) :
    ArrayLaws resize R name offset dtype shape kind kinds := by
  by_cases hprod : shape.prod = 0
  · exact arrayLaws_of_empty resize hf hcopied hk hprod
  · obtain ⟨rfl, hu, hext⟩ := h.resolve_left hprod
    exact arrayLaws_of_sound resize hf hcopied hk hprod hu hext

/-- **Store laws.** An assignment keeps them where it is sound, and nowhere else
where the loop copies no more than the elements. -/
theorem store_laws_iff {f : Field} (hf : R.fields.get name = some f) {a : Assignment} (ha : Typed f a) :
    (Sound R name f a → StoreLaws resize R name f a) ∧ (StoreLaws resize R name f a → Sound R name f a ∨ Overcopies f a) := by
  obtain ⟨offset, type⟩ := f
  cases type with
  | item t =>
    cases a with
    | item s => exact ⟨(itemLaws_iff resize hf ha).mpr, fun h => .inl ((itemLaws_iff resize hf ha).mp h)⟩
    | array | element => exact ha.elim
  | nestedArray dtype shape hb =>
    cases a with
    | item => exact ha.elim
    | element s kinds =>
      have hiff := elementLaws_iff resize hf ha.1 ha.2
      exact ⟨hiff.mpr, fun h => .inl (hiff.mp h)⟩
    | array kind kinds =>
      refine ⟨fun ⟨bytes, hcopied, h⟩ => arrayLaws_of_copied resize hf ha hcopied h, fun h => ?_⟩
      cases hcopied : copiedBytes dtype kind with
      | none => exact absurd h (not_arrayLaws_of_none resize hf hcopied)
      | some bytes =>
        by_cases hle : bytes ≤ dtype.size
        · refine .inl ⟨bytes, hcopied, or_iff_not_imp_left.mpr fun hprod => ?_⟩
          exact arrayLaws_necessary resize hf h hcopied hle ha hprod
        · exact .inr ⟨bytes, hcopied, Nat.lt_of_not_le hle⟩

end

def keyField : Field := ⟨0, .item (.integer ⟨true, .w64⟩)⟩

def cellsField : Field := ⟨8, .nestedArray (.integer ⟨false, .w8⟩) [3, 2] nofun⟩

def cellFields : Dict String Field := (Dict.empty.set "key" keyField).set "cells" cellsField

theorem cellFields_cases {name : String} {f : Field} (h : cellFields.get name = some f) :
    name = "cells" ∧ f = cellsField ∨ name = "key" ∧ f = keyField := by
  rw [cellFields, Dict.get_set, Dict.get_set] at h
  split at h
  · exact .inl ⟨‹_›, (Option.some_inj.mp h).symm⟩
  · split at h
    · exact .inr ⟨‹_›, (Option.some_inj.mp h).symm⟩
    · cases h

/-- A record of an `int64` and a `3 × 2` array of bytes. -/
def cellType : RecordType where
  fields := cellFields
  size := 16
  size_lt := by decide
  rank_le := by
    intro name f h
    obtain ⟨-, rfl⟩ | ⟨-, rfl⟩ := cellFields_cases h <;> decide
  field_le := by
    intro name f h
    obtain ⟨-, rfl⟩ | ⟨-, rfl⟩ := cellFields_cases h <;> decide
  disjoint := by
    intro name name' f f' h h' hne
    obtain ⟨rfl, rfl⟩ | ⟨rfl, rfl⟩ := cellFields_cases h <;> obtain ⟨rfl, rfl⟩ | ⟨rfl, rfl⟩ := cellFields_cases h'
    · exact absurd rfl hne
    · decide
    · decide
    · exact absurd rfl hne

theorem store_laws_cells : StoreLaws (fun _ _ _ => 0) cellType "cells" cellsField (.array .pointer [.var ⟨false, .w64⟩, .var ⟨false, .w8⟩]) :=
  (store_laws_iff (fun _ _ _ => 0) (show cellType.fields.get "cells" = some cellsField from rfl)
    (show Typed cellsField (.array .pointer [.var ⟨false, .w64⟩, .var ⟨false, .w8⟩]) from rfl)).1 ⟨1, rfl, .inr ⟨rfl, ⟨.inr (.inr (by decide)), .inr (.inl rfl), trivial⟩, nofun, nofun, trivial⟩⟩

/-- A negative number of 32 bits becomes positive in a field of 64. -/
theorem narrow_numbers_lose_sign :
    (∃ m', lowerSet (fun _ _ _ => 0) cellType (fun _ => 0) 0 "key" (.value (.int 32 (-1))) .attr = some m' ∧
      read cellType m' 0 (.attr "key") = some (.value (.int 64 (2 ^ 32 - 1)))) ∧
    expected (fun _ _ _ => 0) (fun _ => 0) (.integer ⟨true, .w32⟩) (.integer ⟨true, .w64⟩) (.int 32 (-1)) = some (.value (.int 64 (-1))) ∧
    ¬ StoreLaws (fun _ _ _ => 0) cellType "key" keyField (.item (.integer ⟨true, .w32⟩)) := by
  refine ⟨⟨_, rfl, rfl⟩, rfl, fun h => ?_⟩
  have hkey : cellType.fields.get "key" = some keyField := rfl
  have hstores := (itemLaws_iff (s := .integer ⟨true, .w32⟩) (fun _ _ _ => 0) hkey trivial).mp h
  rcases hstores with hunsigned | hnarrow
  · cases hunsigned
  · exact absurd hnarrow (by decide)

end NumbaCudaMlir.Record

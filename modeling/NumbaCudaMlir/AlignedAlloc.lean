import NumbaCudaMlir.Nrt

/-!
# Aligned allocation

`NRT_MemInfo_alloc_aligned` asks `malloc` for the header, the data and twice the
alignment, added in 64 bits, and moves the data up to the alignment behind the
header. The block lies in what was asked for exactly where the sum did not wrap.
-/

namespace NumbaCudaMlir.Nrt

/-- An `align` argument that is a power of two. -/
structure Alignment where
  bits : BitVec 32
  exponent : Nat
  toNat_bits : bits.toNat = 2 ^ exponent

/-- `sizeof(NRT_MemInfo) + size + 2 * align` -/
def allocTotal (size : BitVec 64) (align : BitVec 32) : BitVec 64 := size + 2 * align.setWidth 64 + meminfoSizeof

/-- The base of a block of `total` bytes that does not wrap the address space. -/
def MayReturn (total base : BitVec 64) : Prop := base ≠ 0 ∧ base.toNat + total.toNat ≤ 2 ^ 64

/-- The request fits in 64 bits. -/
def Fits (size : BitVec 64) (align : BitVec 32) : Prop := meminfoSizeof.toNat + size.toNat + 2 * align.toNat < 2 ^ 64

/-- The data is aligned and lies behind the header, before the end of the block. -/
structure Placed (size : BitVec 64) (align : BitVec 32) (base : Ptr) (mi : MemInfo) : Prop where
  size_eq : mi.size = size
  aligned : align.toNat ∣ mi.data.toNat
  above : base.toNat + meminfoSizeof.toNat ≤ mi.data.toNat
  inside : mi.data.toNat + size.toNat ≤ base.toNat + (allocTotal size align).toNat

/-- A block where the request fits, and `NULL` where it does not. -/
def AllocMeets (size : BitVec 64) (align : BitVec 32) : Prop :=
  ∀ base h p h', MayReturn (allocTotal size align) base → memInfoAllocAligned size align base h = some (p, h') →
    (Fits size align → p = base ∧ Placed size align base (h'.info p)) ∧ (¬Fits size align → p = 0)

theorem toNat_allocTotal {size : BitVec 64} {align : BitVec 32} (h : Fits size align) :
    (allocTotal size align).toNat = meminfoSizeof.toNat + size.toNat + 2 * align.toNat := by
  have halign := align.isLt
  have htwo : (2 : BitVec 64).toNat = 2 := rfl
  unfold Fits at h
  rw [allocTotal, BitVec.toNat_add, BitVec.toNat_add, BitVec.toNat_mul, BitVec.toNat_setWidth, htwo]
  omega

theorem toNat_and_pred (x : BitVec 64) (align : Alignment) :
    (x &&& (align.bits.setWidth 64 - 1)).toNat = x.toNat % align.bits.toNat := by
  have hlt := align.bits.isLt
  have hpos : 0 < align.bits.toNat := align.toNat_bits ▸ Nat.two_pow_pos _
  have hmask : (align.bits.setWidth 64 - 1).toNat = 2 ^ align.exponent - 1 := by
    have hone : (1 : BitVec 64).toNat = 1 := rfl
    rw [← align.toNat_bits, BitVec.toNat_sub, BitVec.toNat_setWidth, hone]
    omega
  rw [BitVec.toNat_and, hmask, Nat.and_two_pow_sub_one_eq_mod, align.toNat_bits]

theorem toNat_alignedData {base : Ptr} (align : Alignment) (h : base.toNat + meminfoSizeof.toNat + align.bits.toNat < 2 ^ 64) :
    ∃ k < align.bits.toNat, (alignedData base (align.bits.setWidth 64)).toNat = base.toNat + meminfoSizeof.toNat + k ∧
      align.bits.toNat ∣ base.toNat + meminfoSizeof.toNat + k := by
  have hpos : 0 < align.bits.toNat := align.toNat_bits ▸ Nat.two_pow_pos _
  have hlt := align.bits.isLt
  have hbase : (base + meminfoSizeof).toNat = base.toNat + meminfoSizeof.toNat := by
    rw [BitVec.toNat_add, Nat.mod_eq_of_lt (by omega)]
  have hrem := toNat_and_pred (base + meminfoSizeof) align
  have hmod := Nat.mod_lt (base + meminfoSizeof).toNat hpos
  simp only [alignedData]
  by_cases hzero : base + meminfoSizeof &&& (align.bits.setWidth 64 - 1) = 0
  · rw [if_pos hzero]
    rw [hzero, hbase] at hrem
    exact ⟨0, hpos, hbase, Nat.dvd_of_mod_eq_zero hrem.symm⟩
  · rw [if_neg hzero]
    have hne : (base + meminfoSizeof).toNat % align.bits.toNat ≠ 0 := fun h0 => hzero (BitVec.eq_of_toNat_eq (hrem.trans h0))
    have hoffset : (align.bits.setWidth 64 - (base + meminfoSizeof &&& (align.bits.setWidth 64 - 1))).toNat =
        align.bits.toNat - (base + meminfoSizeof).toNat % align.bits.toNat := by
      rw [BitVec.toNat_sub, hrem, BitVec.toNat_setWidth]
      omega
    refine ⟨align.bits.toNat - (base + meminfoSizeof).toNat % align.bits.toNat, by omega, ?_, ?_⟩
    · rw [BitVec.toNat_add, hoffset, hbase, Nat.mod_eq_of_lt]
      omega
    · rw [← hbase]
      have hsum : (base + meminfoSizeof).toNat + (align.bits.toNat - (base + meminfoSizeof).toNat % align.bits.toNat) =
          align.bits.toNat * ((base + meminfoSizeof).toNat / align.bits.toNat + 1) := by
        have hdiv := Nat.div_add_mod (base + meminfoSizeof).toNat align.bits.toNat
        rw [Nat.mul_add, Nat.mul_one]
        omega
      exact ⟨_, hsum⟩

theorem memInfoAllocAligned_eq_some {size : BitVec 64} {align : BitVec 32} {base p : Ptr} {h h' : Heap} (hbase : base ≠ 0)
    (hsome : memInfoAllocAligned size align base h = some (p, h')) :
    p = base ∧ (h'.info base).data = alignedData base (align.setWidth 64) ∧ (h'.info base).size = size := by
  unfold memInfoAllocAligned malloc at hsome
  rw [if_neg hbase] at hsome
  by_cases hlive : base ∈ h.live
  · rw [if_pos hlive] at hsome
    cases hsome
  · rw [if_neg hlive] at hsome
    simp only [Option.bind_eq_bind, Option.bind_some, if_pos hbase, Option.some.injEq, Prod.mk.injEq] at hsome
    obtain ⟨rfl, rfl⟩ := hsome
    simp [memInfoInit]

theorem placed_of_fits {size : BitVec 64} (align : Alignment) {base : Ptr} {mi : MemInfo} (hfits : Fits size align.bits)
    (hbase : MayReturn (allocTotal size align.bits) base) (hdata : mi.data = alignedData base (align.bits.setWidth 64)) (hsize : mi.size = size) :
    Placed size align.bits base mi := by
  have hpos : 0 < align.bits.toNat := align.toNat_bits ▸ Nat.two_pow_pos _
  have htotal := toNat_allocTotal hfits
  have hspace := hbase.2
  rw [htotal] at hspace
  obtain ⟨k, hk, hnat, hdvd⟩ := @toNat_alignedData base align (by omega)
  rw [← hdata] at hnat
  refine ⟨hsize, hnat ▸ hdvd, by omega, ?_⟩
  rw [htotal]
  omega

/-- Every base that `malloc` may return gives what is promised exactly where the request fits. -/
theorem allocAligned_meets_iff (size : BitVec 64) (align : Alignment) : AllocMeets size align.bits ↔ Fits size align.bits := by
  constructor
  · intro h
    by_contra hfits
    have htotal := (allocTotal size align.bits).isLt
    have hone : MayReturn (allocTotal size align.bits) 1 := by
      refine ⟨by decide, ?_⟩
      show 1 + _ ≤ _
      omega
    obtain ⟨-, hnull⟩ := h 1 ⟨[], fun _ => ⟨0, 0, 0, 0, 0⟩⟩ _ _ hone rfl
    exact absurd (hnull hfits) (by decide)
  · intro hfits base h p h' hbase hsome
    obtain ⟨rfl, hdata, hsize⟩ := memInfoAllocAligned_eq_some hbase.1 hsome
    exact ⟨fun _ => ⟨rfl, placed_of_fits align hfits hbase hdata hsize⟩, fun hnot => absurd hfits hnot⟩

/-- The request for `2 ^ 64 - 56` bytes, aligned to 8, is for no bytes. -/
theorem allocAligned_fails : allocTotal (-56) 8 = 0 ∧ ¬AllocMeets (-56) 8 := by
  refine ⟨by decide, fun h => ?_⟩
  obtain ⟨-, hnull⟩ := h 16 ⟨[], fun _ => ⟨0, 0, 0, 0, 0⟩⟩ _ _ ⟨by decide, by decide⟩ rfl
  exact absurd (hnull (by unfold Fits; decide)) (by decide)

end NumbaCudaMlir.Nrt

import NumbaCudaMlir.DescriptorSound

/-!
# What is read of an array interface

The strides that the launcher makes up for an array without any, and the size of
an element that it takes from the type string.
-/

namespace NumbaCudaMlir

open CInt Strided

/-! ## Compact strides -/

/-- The elements from one index to the next: the exact product of the extents after it. -/
def exactStrides (shapes : List Int) : List Int := (List.range shapes.length).map fun i => (shapes.drop (i + 1)).prod

theorem rowMajor_eq : ∀ shapes : List Int, rowMajor shapes = exactStrides shapes
  | [] => rfl
  | n :: shapes => by
    rw [rowMajor, rowMajor_eq shapes]
    unfold exactStrides
    rw [List.length_cons, List.range_succ_eq_map, List.map_cons, List.map_map]
    rfl

/-- Strides that fit are returned, and others are refused. -/
structure CompactStridesExact (shapes : List Int) : Prop where
  ok : (∀ s ∈ exactStrides shapes, InInt64 s) → computeCompactRowMajorStrides shapes = .ok (exactStrides shapes)
  refused : (∃ s ∈ exactStrides shapes, ¬ InInt64 s) → computeCompactRowMajorStrides shapes = raise .overflowError "stride is too big"
  never : ∀ strides, computeCompactRowMajorStrides shapes = .ok strides → strides = exactStrides shapes

theorem computeCompactRowMajorStrides_exact {shapes : List Int} (h : ∀ s ∈ exactStrides shapes, InInt64 s) :
    computeCompactRowMajorStrides shapes = .ok (exactStrides shapes) := by
  rw [computeCompactRowMajorStrides_eq, rowMajor_eq]
  exact congrArg _ ((List.map_congr_left fun s hs => wrap64_eq (h s hs)).trans (List.map_id _))

/-- The range check is made on the product that has been cut to 64 bits, so it never
refuses: the strides are right as long as no product of trailing extents overflows. -/
theorem compact_strides_exact_iff (shapes : List Int) : CompactStridesExact shapes ↔ ∀ s ∈ exactStrides shapes, InInt64 s := by
  constructor
  · intro h
    by_contra hbig
    have hrefused := h.refused (by simpa using hbig)
    rw [computeCompactRowMajorStrides_eq] at hrefused
    cases hrefused
  · intro h
    have hok := computeCompactRowMajorStrides_exact h
    refine ⟨fun _ => hok, fun ⟨s, hs, hbig⟩ => absurd (h s hs) hbig, fun strides hstrides => ?_⟩
    rw [hok] at hstrides
    exact (Except.ok.inj hstrides).symm

/-- An empty array of shape (0, 2^32, 2^32, 1), whose largest stride is cut to zero. -/
theorem compact_strides_wrap : ¬ CompactStridesExact [0, 2 ^ 32, 2 ^ 32, 1] := by
  intro h
  have hok : computeCompactRowMajorStrides [0, 2 ^ 32, 2 ^ 32, 1] = .ok [0, 2 ^ 32, 1, 1] := by decide
  have hexact := h.never _ hok
  revert hexact
  decide

/-! ## The size of an element -/

def IsOpaqueKind (c : Char) : Prop := c = 'V' ∨ c = 'S' ∨ c = 'U'

def IsDatetimeKind (c : Char) : Prop := c = 'M' ∨ c = 'm'

theorem typestrCode_eq_opaque_iff {c : Char} {code : UInt8} (h : typestrCode c = some code) : code = kDLOpaqueHandle ↔ IsOpaqueKind c := by
  unfold typestrCode at h
  unfold IsOpaqueKind
  split at h <;> first | (cases h; decide) | cases h

theorem typestrCode_eq_complex_iff {c : Char} {code : UInt8} (h : typestrCode c = some code) : code = kDLComplex ↔ c = 'c' := by
  unfold typestrCode at h
  split at h <;> first | (cases h; decide) | cases h

theorem parseTypestr_ok {str : List Char} {dl : DLDataType} (h : parseTypestr str = .ok dl) :
    (IsOpaqueKind (charAt str 1) ∧ 0 < byteCount str ∧
      dl = ⟨kDLOpaqueHandle, .ofNat (min (byteCount str) (2 ^ 63 - 1)).toNat, .ofNat ((min (byteCount str) (2 ^ 63 - 1)).toNat / 2 ^ 8)⟩) ∨
    (IsDatetimeKind (charAt str 1) ∧ 0 < byteCount str ∧ dl = ⟨kDLInt, .ofNat ((min (byteCount str) (2 ^ 63 - 1)).toNat * 8), 1⟩) ∨
    (¬ IsOpaqueKind (charAt str 1) ∧ ¬ IsDatetimeKind (charAt str 1) ∧ ∃ b : Nat, byteCount str = b ∧ b ∈ [1, 2, 4, 8, 16] ∧
      dl.code ≠ kDLOpaqueHandle ∧ dl.bits = if charAt str 1 = 'c' then .ofNat (8 * b) / 2 else .ofNat (8 * b)) := by
  unfold parseTypestr at h
  split at h
  · cases h
  split at h
  · cases h
  split at h
  · cases h
  next code hcode =>
    split at h
    · next hkind =>
      split at h
      · cases h
      · next size rest hs =>
        obtain ⟨n, hn, rfl⟩ := strtol_eq_some hs
        split at h
        · cases h
        · next hsize =>
          cases h
          have hcount : byteCount str = n := by rw [byteCount, hn]
          refine .inl ⟨(typestrCode_eq_opaque_iff hcode).mp hkind, by omega, ?_⟩
          rw [hcount, hkind, show max (-2 ^ 63) (min n (2 ^ 63 - 1)) = min n (2 ^ 63 - 1) by omega]
    next hkind =>
      have hnumeric : ¬ IsOpaqueKind (charAt str 1) := fun hk => hkind ((typestrCode_eq_opaque_iff hcode).mpr hk)
      split at h
      · next hdate =>
        split at h
        · cases h
        · next size rest hs =>
          obtain ⟨n, hn, rfl⟩ := strtol_eq_some hs
          split at h
          · cases h
          · cases h
            have hcount : byteCount str = n := by rw [byteCount, hn]
            have hcode' : code = kDLInt := by
              rcases hdate with hc | hc <;> · rw [hc] at hcode; exact (Option.some.inj hcode).symm
            refine .inr (.inl ⟨hdate, by omega, ?_⟩)
            rw [hcount, hcode', show max (-2 ^ 63) (min n (2 ^ 63 - 1)) = min n (2 ^ 63 - 1) by omega]
      · next hdate =>
        split at h
        · cases h
        · next bits hb =>
          cases h
          obtain ⟨b, hbc, hmem, rfl⟩ := fixedBits_eq_some hb
          refine .inr (.inr ⟨hnumeric, hdate, b, hbc, hmem, hkind, ?_⟩)
          simp only [typestrCode_eq_complex_iff hcode]

/-- The dtype tells the byte count that is written in the string, and its divisor is one. -/
structure Determined (str : List Char) (dl : DLDataType) : Prop where
  numeric : ¬ IsOpaqueKind (charAt str 1) → 8 ≤ 8 * byteCount str ∧ 8 * byteCount str ≤ 128 ∧
    (dl.bits.toNat : Int) = if charAt str 1 = 'c' then 4 * byteCount str else 8 * byteCount str
  bytes : IsOpaqueKind (charAt str 1) → (dl.bits.toNat : Int) + 256 * dl.lanes.toNat = byteCount str
  divisor : dtypeBytewidth dl ≠ 0

structure TypestrFits (str : List Char) : Prop where
  bytes : IsOpaqueKind (charAt str 1) → byteCount str < 2 ^ 24
  datetime : IsDatetimeKind (charAt str 1) → byteCount str ≤ 16
  complex : charAt str 1 = 'c' → byteCount str ≠ 1

theorem determined_bytes {str : List Char} (hk : IsOpaqueKind (charAt str 1)) (hpos : 0 < byteCount str) :
    Determined str ⟨kDLOpaqueHandle, .ofNat (min (byteCount str) (2 ^ 63 - 1)).toNat, .ofNat ((min (byteCount str) (2 ^ 63 - 1)).toNat / 2 ^ 8)⟩ ↔
      TypestrFits str := by
  have hdate : ¬ IsDatetimeKind (charAt str 1) := by
    rintro (hc | hc) <;> rcases hk with h | h | h <;> cases hc.symm.trans h
  have hcomplex : charAt str 1 ≠ 'c' := by
    intro hc
    rcases hk with h | h | h <;> cases hc.symm.trans h
  generalize hn : byteCount str = n at hpos
  have hsum : ((UInt8.ofNat (min n (2 ^ 63 - 1)).toNat).toNat : Int) + 256 * (UInt16.ofNat ((min n (2 ^ 63 - 1)).toNat / 2 ^ 8)).toNat =
      min n (2 ^ 63 - 1) % 2 ^ 24 := by
    rw [UInt8.toNat_ofNat', UInt16.toNat_ofNat']
    omega
  constructor
  · intro h
    have hbytes := h.bytes hk
    simp only [hn, hsum] at hbytes
    exact ⟨fun _ => by omega, fun hd => absurd hd hdate, fun hc => absurd hc hcomplex⟩
  · intro h
    have hlt := h.bytes hk
    have hone : ∀ bits lanes, dtypeBytewidth ⟨kDLOpaqueHandle, bits, lanes⟩ = 1 := fun bits lanes => if_pos rfl
    refine ⟨fun hno => absurd hk hno, fun _ => ?_, by rw [hone]; decide⟩
    simp only [hn, hsum]
    omega

theorem determined_datetime {str : List Char} (hk : IsDatetimeKind (charAt str 1)) (hpos : 0 < byteCount str) :
    Determined str ⟨kDLInt, .ofNat ((min (byteCount str) (2 ^ 63 - 1)).toNat * 8), 1⟩ ↔ TypestrFits str := by
  have hkind : ¬ IsOpaqueKind (charAt str 1) := by
    rintro (hc | hc | hc) <;> rcases hk with h | h <;> cases hc.symm.trans h
  have hcomplex : charAt str 1 ≠ 'c' := by
    intro hc
    rcases hk with h | h <;> cases hc.symm.trans h
  generalize hn : byteCount str = n at hpos
  constructor
  · intro h
    have hnumeric := h.numeric hkind
    rw [hn] at hnumeric
    exact ⟨fun ho => absurd ho hkind, fun _ => by omega, fun hc => absurd hc hcomplex⟩
  · intro h
    have hle := h.datetime hk
    have hbits : (UInt8.ofNat ((min n (2 ^ 63 - 1)).toNat * 8)).toNat = n.toNat * 8 := by
      rw [UInt8.toNat_ofNat']
      omega
    refine ⟨fun _ => ⟨by omega, by omega, ?_⟩, fun ho => absurd ho hkind, ?_⟩
    · rw [if_neg hcomplex, hbits, hn]
      omega
    · have hwidth : dtypeBytewidth ⟨kDLInt, .ofNat ((min n (2 ^ 63 - 1)).toNat * 8), 1⟩ = n := by
        have hdiv : (UInt8.ofNat ((min n (2 ^ 63 - 1)).toNat * 8) / 8).toNat = n.toNat := by
          rw [UInt8.toNat_div, hbits]
          exact Nat.mul_div_cancel _ (by decide)
        rw [dtypeBytewidth, if_neg (show kDLInt ≠ kDLOpaqueHandle by decide), bytewidth, hdiv]
        omega
      rw [hwidth]
      omega

theorem determined_fixed {str : List Char} {dl : DLDataType} {b : Nat} (hkind : ¬ IsOpaqueKind (charAt str 1))
    (hdate : ¬ IsDatetimeKind (charAt str 1)) (hb : byteCount str = b) (hmem : b ∈ [1, 2, 4, 8, 16]) (hcode : dl.code ≠ kDLOpaqueHandle)
    (hbits : dl.bits = if charAt str 1 = 'c' then .ofNat (8 * b) / 2 else .ofNat (8 * b)) : Determined str dl ↔ TypestrFits str := by
  have hwidth : dtypeBytewidth dl = (dl.bits / 8).toNat := by rw [dtypeBytewidth, if_neg hcode, bytewidth]
  have hrep : TypestrFits str ↔ (charAt str 1 = 'c' → b ≠ 1) := by
    refine ⟨fun h hc => ?_, fun h => ⟨fun ho => absurd ho hkind, fun hd => absurd hd hdate, fun hc => ?_⟩⟩
    · have := h.complex hc
      omega
    · have := h hc
      omega
  have hdet : Determined str dl ↔ 8 ≤ 8 * b ∧ 8 * b ≤ 128 ∧ dl.bits.toNat = (if charAt str 1 = 'c' then 4 * b else 8 * b) ∧ (dl.bits / 8).toNat ≠ 0 := by
    constructor
    · intro h
      obtain ⟨hlow, hhigh, hsize⟩ := h.numeric hkind
      have hdivisor := h.divisor
      rw [hwidth] at hdivisor
      rw [hb] at hlow hhigh hsize
      refine ⟨by omega, by omega, ?_, by omega⟩
      by_cases hc : charAt str 1 = 'c'
      · rw [if_pos hc] at hsize ⊢
        omega
      · rw [if_neg hc] at hsize ⊢
        omega
    · rintro ⟨hlow, hhigh, hsize, hdivisor⟩
      refine ⟨fun _ => ⟨by omega, by omega, ?_⟩, fun ho => absurd ho hkind, by omega⟩
      rw [hsize, hb]
      split <;> omega
  rw [hrep, hdet, hbits]
  simp only [List.mem_cons, List.not_mem_nil, or_false] at hmem
  by_cases hc : charAt str 1 = 'c'
  · simp only [hc, true_imp_iff]
    rcases hmem with rfl | rfl | rfl | rfl | rfl <;> decide
  · simp only [hc, false_imp_iff, iff_true]
    rcases hmem with rfl | rfl | rfl | rfl | rfl <;> decide

/-- A dtype is right for the byte counts that it has room for, in every string that is accepted. -/
theorem parse_typestr_safe_iff (str : List Char) :
    (∀ dl, parseTypestr str = .ok dl → Determined str dl) ↔ ((∃ dl, parseTypestr str = .ok dl) → TypestrFits str) := by
  have hiff : ∀ dl, parseTypestr str = .ok dl → (Determined str dl ↔ TypestrFits str) := by
    intro dl h
    obtain ⟨hk, hpos, rfl⟩ | ⟨hk, hpos, rfl⟩ | ⟨hkind, hdate, b, hb, hmem, hcode, hbits⟩ := parseTypestr_ok h
    · exact determined_bytes hk hpos
    · exact determined_datetime hk hpos
    · exact determined_fixed hkind hdate hb hmem hcode hbits
  constructor
  · rintro h ⟨dl, hdl⟩
    exact (hiff dl hdl).mp (h dl hdl)
  · intro h dl hdl
    exact (hiff dl hdl).mpr (h ⟨dl, hdl⟩)

/-- Sixteen megabytes of a record, thirty-two bytes of a datetime and one of a complex
number: the first has a size of zero, the others a divisor of zero. -/
theorem parse_typestr_wraps :
    ¬ (∀ dl, parseTypestr "|V16777216".toList = .ok dl → Determined "|V16777216".toList dl) ∧
      ¬ (∀ dl, parseTypestr "<M32".toList = .ok dl → Determined "<M32".toList dl) ∧
      ¬ ∀ dl, parseTypestr "<c1".toList = .ok dl → Determined "<c1".toList dl := by
  refine ⟨fun h => ?_, fun h => ?_, fun h => ?_⟩
  · have hdet := h ⟨kDLOpaqueHandle, 0, 0⟩ (by decide)
    exact absurd (hdet.bytes (.inl rfl)) (by decide)
  · exact (h ⟨kDLInt, 0, 1⟩ (by decide)).divisor (by decide)
  · exact (h ⟨kDLComplex, 4, 1⟩ (by decide)).divisor (by decide)

end NumbaCudaMlir

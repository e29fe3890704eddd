import NumbaCudaMlir.BitField
import NumbaCudaMlir.StructFields

/-!
# Store laws of bitfields

The setter inserts a value that is neither masked nor extended by its sign, and
the getter extends by zeros. A struct with a regular field after its bitfields
has no place for it.
-/

namespace NumbaCudaMlir.Aggregate

open MachineInt

/-! ## The layout -/

structure LayoutInv (st : LayoutState) : Prop where
  bitfield : ∀ e ∈ st.layout.entries, e.2.isBitfield = true →
    0 < e.2.bitWidth ∧ e.2.bitOffset + e.2.bitWidth ≤ st.totalBitfieldBits ∧ e.2.fieldIndex = 0 ∧
      ∃ t, e.2.underlyingType = .integer t
  disjoint : ∀ e ∈ st.layout.entries, ∀ e' ∈ st.layout.entries, e.1 ≠ e'.1 → e.2.isBitfield = true → e'.2.isBitfield = true →
    e.2.bitOffset + e.2.bitWidth ≤ e'.2.bitOffset ∨ e'.2.bitOffset + e'.2.bitWidth ≤ e.2.bitOffset
  offset : st.hasSeenRegularField = false → st.bitOffset = st.totalBitfieldBits
  total : st.totalBitfieldBits ≤ bitfieldStorageBits

theorem LayoutInv.initial : LayoutInv .initial := by
  refine ⟨?_, ?_, fun _ => rfl, by decide⟩ <;> simp [LayoutState.initial, Dict.empty]

theorem LayoutInv.set_bitfield {st : LayoutState} (hinv : LayoutInv st) {name : String} {t : IntType} {width : Nat}
    (hs : st.hasSeenRegularField = false) (hpos : 0 < width) (hle : st.totalBitfieldBits + width ≤ bitfieldStorageBits) :
    LayoutInv { st with
      layout := st.layout.set name ⟨st.bitOffset, width, .integer t, true, 0⟩
      bitOffset := st.bitOffset + width
      totalBitfieldBits := st.totalBitfieldBits + width } := by
  have hoff := hinv.offset hs
  refine ⟨fun e he hb => ?_, fun e he e' he' hne hb hb' => ?_, fun _ => by simp only; omega, hle⟩
  · rcases Dict.mem_set_iff.mp he with rfl | ⟨he, -⟩
    · exact ⟨hpos, by simp only; omega, rfl, t, rfl⟩
    · obtain ⟨h1, h2, h3⟩ := hinv.bitfield e he hb
      exact ⟨h1, by simp only; omega, h3⟩
  · rcases Dict.mem_set_iff.mp he with rfl | ⟨he, -⟩
    · rcases Dict.mem_set_iff.mp he' with rfl | ⟨he', -⟩
      · exact absurd rfl hne
      · have := (hinv.bitfield e' he' hb').2.1
        simp only
        omega
    · rcases Dict.mem_set_iff.mp he' with rfl | ⟨he', -⟩
      · have := (hinv.bitfield e he hb).2.1
        simp only
        omega
      · exact hinv.disjoint e he e' he' hne hb hb'

theorem LayoutInv.set_regular {st : LayoutState} (hinv : LayoutInv st) {name : String} {info : FieldInfo}
    (hi : info.isBitfield = false) {off index : Nat} :
    LayoutInv { st with
      layout := st.layout.set name info
      bitOffset := off
      hasSeenRegularField := true
      mlirFieldIndex := index } := by
  have hold : ∀ e ∈ (st.layout.set name info).entries, e.2.isBitfield = true → e ∈ st.layout.entries := fun e he hb => by
    rcases Dict.mem_set_iff.mp he with rfl | ⟨he, -⟩
    · rw [hi] at hb
      cases hb
    · exact he
  exact ⟨fun e he hb => hinv.bitfield e (hold e he hb) hb,
    fun e he e' he' hne hb hb' => hinv.disjoint e (hold e he hb) e' (hold e' he' hb') hne hb hb', nofun, hinv.total⟩

theorem layoutField_inv {st st' : LayoutState} {f : Field} (hinv : LayoutInv st) (h : layoutField st f = .ok st') :
    LayoutInv st' ∧ st'.totalBitfieldBits = st.totalBitfieldBits + bitfieldBits [f] := by
  cases f with
  | bitfield name type bitWidth =>
    simp only [layoutField] at h
    split at h
    · cases h
    split at h
    · cases h
    split at h
    · cases h
    next hs hpos hle =>
      cases h
      have hs' : st.hasSeenRegularField = false := by simpa using hs
      refine ⟨?_, by simp [bitfieldBits]⟩
      cases name with
      | some name => exact hinv.set_bitfield hs' (by omega) (by omega)
      | none =>
        have hoff := hinv.offset hs'
        refine ⟨fun e he hb => ?_, hinv.disjoint, fun _ => by simp only; omega, by simp only; omega⟩
        obtain ⟨h1, h2, h3⟩ := hinv.bitfield e he hb
        exact ⟨h1, by simp only; omega, h3⟩
  | regular name type =>
    cases name with
    | none => cases h
    | some name =>
      cases h
      exact ⟨hinv.set_regular rfl, by simp [bitfieldBits]⟩

theorem layoutLoop_inv : ∀ {fields : List Field} {st st' : LayoutState}, LayoutInv st → layoutLoop st fields = .ok st' →
    LayoutInv st' ∧ st'.totalBitfieldBits = st.totalBitfieldBits + bitfieldBits fields
  | [], st, st', hinv, h => by
    cases h
    exact ⟨hinv, by simp [bitfieldBits]⟩
  | f :: fields, st, st', hinv, h => by
    rw [layoutLoop] at h
    cases hf : layoutField st f with
    | error e => rw [hf] at h; cases h
    | ok st₁ =>
      rw [hf] at h
      obtain ⟨hinv₁, htotal⟩ := layoutField_inv hinv hf
      obtain ⟨hinv', htotal'⟩ := layoutLoop_inv hinv₁ h
      refine ⟨hinv', ?_⟩
      rw [htotal', htotal]
      simp [bitfieldBits, Nat.add_assoc]

theorem AggregateType.layoutInv (T : AggregateType) : ∃ st, LayoutInv st ∧ st.layout = T.fieldLayout ∧
    st.totalBitfieldBits = bitfieldBits T.fields := by
  have h := T.fieldLayout_eq
  unfold calculateFieldLayout at h
  cases hl : layoutLoop .initial T.fields with
  | error e => rw [hl] at h; cases h
  | ok st =>
    rw [hl] at h
    obtain ⟨hinv, htotal⟩ := layoutLoop_inv LayoutInv.initial hl
    exact ⟨st, hinv, Except.ok.inj h, by rw [htotal, LayoutState.initial, Nat.zero_add]⟩

theorem AggregateType.bitfieldStorage_cases (T : AggregateType) :
    T.bitfieldStorage = 8 ∨ T.bitfieldStorage = 16 ∨ T.bitfieldStorage = 32 ∨ T.bitfieldStorage = 64 := by
  unfold bitfieldStorage
  split
  · split_ifs <;> simp
  · simp

theorem AggregateType.bitfieldBits_le (T : AggregateType) : bitfieldBits T.fields ≤ T.bitfieldStorage := by
  obtain ⟨st, hinv, -, htotal⟩ := T.layoutInv
  have htot : bitfieldBits T.fields ≤ 64 := by rw [← htotal]; exact hinv.total
  unfold bitfieldStorage
  split
  · next bits hbits =>
    have := T.storage_covers bits hbits
    split_ifs <;> omega
  · exact htot

theorem AggregateType.bitfield_bounds (T : AggregateType) {f : String} {info : FieldInfo} (h : T.fieldLayout.get f = some info)
    (hb : info.isBitfield = true) : 0 < info.bitWidth ∧ info.bitOffset + info.bitWidth ≤ T.bitfieldStorage ∧
      info.fieldIndex = 0 ∧ ∃ t, info.underlyingType = .integer t := by
  obtain ⟨st, hinv, hl, htotal⟩ := T.layoutInv
  rw [← hl] at h
  obtain ⟨h1, h2, h3⟩ := hinv.bitfield _ (Dict.mem_of_get h) hb
  have := T.bitfieldBits_le
  simp only at h1 h2 h3
  exact ⟨h1, by omega, h3⟩

theorem AggregateType.bitfields_disjoint (T : AggregateType) {f g : String} {i j : FieldInfo} (hf : T.fieldLayout.get f = some i)
    (hg : T.fieldLayout.get g = some j) (hne : f ≠ g) (hi : i.isBitfield = true) (hj : j.isBitfield = true) :
    i.bitOffset + i.bitWidth ≤ j.bitOffset ∨ j.bitOffset + j.bitWidth ≤ i.bitOffset := by
  obtain ⟨st, hinv, hl, -⟩ := T.layoutInv
  rw [← hl] at hf hg
  exact hinv.disjoint _ (Dict.mem_of_get hf) _ (Dict.mem_of_get hg) hne hi hj

theorem AggregateType.isBitfieldStruct_of_get (T : AggregateType) {f : String} {info : FieldInfo} (h : T.fieldLayout.get f = some info)
    (hb : info.isBitfield = true) : T.isBitfieldStruct = true :=
  List.any_eq_true.mpr ⟨info, Dict.mem_values_of_get h, hb⟩

/-! ## The getter and the setter on the storage -/

def WellTyped (T : AggregateType) (struct : List Slot) : Prop := struct.map Slot.type = T.llvmFields

theorem wellTyped_bitfieldStruct {T : AggregateType} (hb : T.isBitfieldStruct = true) {struct : List Slot} :
    WellTyped T struct ↔ ∃ x : BitVec T.bitfieldStorage, struct = [.int T.bitfieldStorage x] := by
  unfold WellTyped AggregateType.llvmFields
  rw [if_pos hb]
  constructor
  · intro h
    obtain ⟨slot, rfl, hslot⟩ : ∃ slot, struct = [slot] ∧ slot.type = .int T.bitfieldStorage := by
      obtain ⟨slot, rest, rfl, hs, hr⟩ := List.map_eq_cons_iff.mp h
      rw [List.map_eq_nil_iff] at hr
      exact ⟨slot, by rw [hr], hs⟩
    cases slot with
    | int bits x =>
      cases hslot
      exact ⟨x, rfl⟩
    | float | pointer | opaqueValue => cases hslot
  · rintro ⟨x, rfl⟩
    rfl

theorem extractInt_single {S : Nat} (x : BitVec S) : extractInt S [.int S x] 0 = some x := by
  simp [extractInt, extractvalue, Slot.type]

theorem integerAttr_mask {S w : Nat} (hw : w ≤ 63) : integerAttr S (2 ^ w - 1) = some (BitField.mask S w) := by
  have hle : (2 : Nat) ^ w ≤ 2 ^ 63 := Nat.pow_le_pow_right (by decide) hw
  have hpos : 0 < 2 ^ w := Nat.two_pow_pos w
  have h2 : ((2 ^ w : Nat) : Int) = 2 ^ w := by push_cast; rfl
  have hcast : (2 : Int) ^ w - 1 = ((2 ^ w - 1 : Nat) : Int) := by omega
  have hin : CInt.InInt64 (2 ^ w - 1) := by
    unfold CInt.InInt64
    omega
  rw [integerAttr, if_pos hin, hcast, BitVec.ofInt_natCast, BitField.mask]

theorem shrOffset_eq {S off : Nat} (h : off < S) (x : BitVec S) : shrOffset x off = some (x >>> off) := by
  unfold shrOffset
  by_cases h0 : 0 < off
  · rw [if_pos h0, shrui, if_pos h]
  · rw [if_neg h0, show off = 0 by omega, BitVec.ushiftRight_zero]

theorem shlOffset_eq {S off : Nat} (h : off < S) (x : BitVec S) : shlOffset x off = some (x <<< off) := by
  unfold shlOffset
  by_cases h0 : 0 < off
  · rw [if_pos h0, shli, if_pos h]
  · rw [if_neg h0, show off = 0 by omega, BitVec.shiftLeft_zero]

theorem getBitfield_eq {S off w : Nat} {t : IntType} (hw : w ≤ 63) (h : off < S) (x : BitVec S) :
    getBitfield S off w (.integer t) [.int S x] = some (.int t.bits (convertInteger none t.bits (BitField.extract off w x))) := by
  simp only [getBitfield, extractInt_single, integerAttr_mask hw, shrOffset_eq h, Option.bind_eq_bind, Option.bind_some, convertField]
  rfl

theorem setBitfield_eq {S off w v : Nat} (hw : w < S) (h : off < S) (x : BitVec S) (value : BitVec v) :
    setBitfield S off w [.int S x] value = some [.int S (BitField.insert off w x (convertInteger none S value))] := by
  have hmask : shli (1#S) w = some ((1#S) <<< w) := if_pos hw
  simp only [setBitfield, extractInt_single, hmask, shlOffset_eq h, Option.bind_eq_bind, Option.bind_some, BitField.mask_eq_sub_one hw,
    BitVec.xor_allOnes]
  simp [insertvalue, Slot.type, BitField.insert]

theorem setBitfield_full {S off w v : Nat} (hw : S ≤ w) (struct : List Slot) (value : BitVec v) :
    setBitfield S off w struct value = none := by
  have hmask : shli (1#S) w = none := if_neg (by omega)
  simp only [setBitfield, hmask, Option.bind_eq_bind, Option.bind_none, Option.bind_fun_none]

/-! ## The value of a field -/

theorem dvd_two_pow_or_zero {u w : Nat} {d : Int} (h : d = 0 ∨ d = 2 ^ w) : (2 : Int) ^ u ∣ d ↔ d = 0 ∨ u ≤ w := by
  rcases h with rfl | rfl
  · simp
  · have hpos : (2 : Int) ^ w ≠ 0 := by positivity
    simp [two_pow_dvd_iff, hpos]

theorem eq_of_dvd_of_bounds {m d : Int} (hm : 0 < m) (h : m ∣ d) (hl : -m < d) (hu : d < 2 * m) : d = 0 ∨ d = m := by
  obtain ⟨c, rfl⟩ := h
  have hc : -1 < c := Int.lt_of_mul_lt_mul_left (by rwa [Int.mul_neg, Int.mul_one]) hm.le
  have hc' : c < 2 := Int.lt_of_mul_lt_mul_left (by rwa [Int.mul_comm m 2]) hm.le
  obtain rfl | rfl : c = 0 ∨ c = 1 := by omega
  · simp
  · simp

theorem dvd_value_sub {w : Nat} (us : Bool) (n : Int) : (2 : Int) ^ w ∣ value us (BitVec.ofInt w n) - n :=
  ofInt_eq_ofInt_iff.mp (ofInt_value us _)

theorem two_pow_dvd_sub_iff {u a b : Nat} (h : a < b) : (2 : Int) ^ u ∣ 2 ^ a - 2 ^ b ↔ u ≤ a := by
  constructor
  · intro hd
    by_contra hc
    have hb : (2 : Int) ^ (a + 1) ∣ 2 ^ b := two_pow_dvd_iff.mpr h
    have ha : (2 : Int) ^ (a + 1) ∣ 2 ^ a := by
      have := (Int.dvd_add ((two_pow_dvd_iff.mpr (by omega : a + 1 ≤ u)).trans hd) hb)
      rwa [Int.sub_add_cancel] at this
    have := two_pow_dvd_iff.mp ha
    omega
  · intro hle
    exact Int.dvd_sub (two_pow_dvd_iff.mpr hle) (two_pow_dvd_iff.mpr (by omega))

theorem dvd_value_sub_toNat {w tb : Nat} {ts : Bool} {x : BitVec tb} (h : 0 ≤ value ts x ∨ w ≤ tb) :
    (2 : Int) ^ w ∣ value ts x - x.toNat := by
  cases ts with
  | false => simp
  | true =>
    rw [value_signed] at h ⊢
    rcases toInt_cases x with ⟨-, hx⟩ | ⟨hneg, hx⟩
    · simp [hx]
    · rw [show x.toInt - x.toNat = -2 ^ tb by omega, Int.dvd_neg, two_pow_dvd_iff]
      omega

theorem stored_eq_iff {w tb ub : Nat} (hw : 0 < w) (hub : 0 < ub) (htb : 0 < tb) {us ts : Bool} (x : BitVec tb) :
    value us (BitVec.ofInt ub (x.toNat % 2 ^ w : Nat)) = value us (BitVec.ofInt w (value ts x)) ↔
      InRange us ub (value us (BitVec.ofInt w (value ts x))) ∧ (0 ≤ value ts x ∨ min w ub ≤ tb) ∧
        (us = true → w < ub → 0 ≤ value us (BitVec.ofInt w (value ts x))) := by
  rw [value_eq_iff hub, ofInt_eq_ofInt_iff, and_comm]
  refine and_congr_right fun _ => ?_
  have hpos : (0 : Int) < 2 ^ w := by positivity
  have h2 := two_pow_pred hw
  have hr : ((x.toNat % 2 ^ w : Nat) : Int) = (x.toNat : Int) % 2 ^ w := by push_cast; rfl
  have hr0 := Int.emod_nonneg (x.toNat : Int) hpos.ne'
  have hr1 := Int.emod_lt_of_pos (x.toNat : Int) hpos
  have hE := dvd_value_sub (w := w) us (value ts x)
  have hrange := value_inRange hw us (BitVec.ofInt w (value ts x))
  have hbounds : -(2 ^ (w - 1)) ≤ value us (BitVec.ofInt w (value ts x)) ∧ value us (BitVec.ofInt w (value ts x)) < 2 ^ w ∧
      (us = false → 0 ≤ value us (BitVec.ofInt w (value ts x))) ∧
      (us = true → value us (BitVec.ofInt w (value ts x)) < 2 ^ (w - 1)) := by
    cases us with
    | true => rw [inRange_signed] at hrange; exact ⟨hrange.1, by omega, nofun, fun _ => hrange.2⟩
    | false => rw [inRange_unsigned] at hrange; exact ⟨by omega, hrange.2, fun _ => hrange.1, nofun⟩
  rw [hr]
  generalize value us (BitVec.ofInt w (value ts x)) = e at hE hbounds ⊢
  obtain ⟨hlo, hhi, hus, hss⟩ := hbounds
  by_cases hA : 0 ≤ value ts x ∨ w ≤ tb
  · have hdiv := Int.mul_ediv_add_emod (x.toNat : Int) (2 ^ w)
    have hd : (2 : Int) ^ w ∣ (x.toNat : Int) % 2 ^ w - e := by
      have hsum := Int.dvd_add (Int.dvd_add hE (dvd_value_sub_toNat hA)) (Int.dvd_mul_right (2 ^ w) ((x.toNat : Int) / 2 ^ w))
      rw [← Int.dvd_neg]
      convert hsum using 1
      omega
    have hcases := eq_of_dvd_of_bounds hpos hd (by omega) (by omega)
    rw [dvd_two_pow_or_zero hcases]
    have h1 : 0 ≤ value ts x ∨ min w ub ≤ tb := by omega
    simp only [h1, true_and]
    cases us with
    | true => simp only [true_implies]; omega
    | false =>
      have := hus rfl
      simp only [Bool.false_eq_true, false_implies, iff_true]
      omega
  · have hneg : value ts x < 0 := by omega
    have hts : ts = true := by
      by_contra hc
      rw [Bool.not_eq_true] at hc
      rw [hc, value_unsigned] at hneg
      omega
    subst hts
    rw [value_signed] at *
    have hx := toInt_cases x
    have hnr := inRange_signed.mp (value_inRange htb true x)
    rw [value_signed] at hnr
    have htb2 := two_pow_pred htb
    have hle : (2 : Int) ^ tb ≤ 2 ^ (w - 1) := by
      exact_mod_cast Nat.pow_le_pow_right (by decide) (show tb ≤ w - 1 by omega)
    have hlt : (x.toNat : Int) < 2 ^ tb := by exact_mod_cast x.isLt
    rw [Int.emod_eq_of_lt (by omega) (by omega)]
    have hcases := eq_of_dvd_of_bounds hpos hE (by omega) (by omega)
    cases us with
    | true =>
      have := hss rfl
      rw [show (x.toNat : Int) - e = 2 ^ tb by omega, two_pow_dvd_iff]
      simp only [true_implies]
      omega
    | false =>
      have := hus rfl
      rw [show (x.toNat : Int) - e = 2 ^ tb - 2 ^ w by omega, two_pow_dvd_sub_iff (by omega)]
      simp only [Bool.false_eq_true, false_implies, and_true]
      omega

/-! ## Store laws -/

def FieldInfo.signed (i : FieldInfo) : Bool :=
  match i.underlyingType with
  | .integer t => t.signed
  | .float _ | .boolean | .pointer | .opaqueType .. => false

/-- The value C gives a field of this width and type when `n` is assigned to it. -/
def FieldInfo.fieldValue (i : FieldInfo) (n : Int) : Int := value i.signed (BitVec.ofInt i.bitWidth n)

def FieldInfo.readNumber (i : FieldInfo) : Slot → Option Int
  | .int _ y => some (value i.signed y)
  | .float .. | .pointer _ | .opaqueValue .. => none

structure BitfieldOf (T : AggregateType) where
  name : String
  info : FieldInfo
  get_eq : T.fieldLayout.get name = some info
  isBitfield : info.isBitfield = true

/-- Two fields have different positions in the LLVM struct, or different bits of the storage. -/
def Separate (i j : FieldInfo) : Prop :=
  i.fieldIndex ≠ j.fieldIndex ∨ (i.isBitfield = true ∧ j.isBitfield = true) ∧
    (i.bitOffset + i.bitWidth ≤ j.bitOffset ∨ j.bitOffset + j.bitWidth ≤ i.bitOffset)

def AggregateType.NoSharing (T : AggregateType) : Prop :=
  ∀ f g i j, T.fieldLayout.get f = some i → T.fieldLayout.get g = some j → f ≠ g → Separate i j

/-- The assignment of `x` to the field `f`: whatever the struct is, the field reads
as the value C gives it and the other fields read as before; and no two fields share storage. -/
structure StoreLaws {T : AggregateType} (f : BitfieldOf T) (t : IntType) (x : BitVec t.bits) : Prop where
  store : ∀ struct, WellTyped T struct → ∃ struct', lowerSetattrBitfield T struct f.name x = some struct' ∧
    (lowerAggregateTypeGetattr T struct' f.name).bind f.info.readNumber = some (f.info.fieldValue (value t.signed x)) ∧
    ∀ g j, T.fieldLayout.get g = some j → g ≠ f.name →
      ∃ slot, lowerAggregateTypeGetattr T struct g = some slot ∧ lowerAggregateTypeGetattr T struct' g = some slot
  noSharing : T.NoSharing

/-- The struct has bitfields alone, the field is narrower than the storage, its
C value fits in its type and is not negative unless it fills it, the value is
as wide as the field or not negative, and no bit of it beyond the field falls into another. -/
structure Kept {T : AggregateType} (f : BitfieldOf T) (t : IntType) (x : BitVec t.bits) : Prop where
  bitfields : ∀ g j, T.fieldLayout.get g = some j → j.isBitfield = true
  narrow : f.info.bitWidth < T.bitfieldStorage
  fits : InRange f.info.signed f.info.underlyingType.bits (f.info.fieldValue (value t.signed x))
  wide : 0 ≤ value t.signed x ∨ min f.info.bitWidth f.info.underlyingType.bits ≤ t.bits
  positive : f.info.signed = true → f.info.bitWidth < f.info.underlyingType.bits → 0 ≤ f.info.fieldValue (value t.signed x)
  clear : ∀ g j, T.fieldLayout.get g = some j → g ≠ f.name → ∀ i, f.info.bitWidth ≤ i → j.bitOffset ≤ f.info.bitOffset + i →
    f.info.bitOffset + i < j.bitOffset + min j.bitWidth j.underlyingType.bits → x.getLsbD i = false

theorem bits_ne_one (t : IntType) : t.bits ≠ 1 := t.width.one_lt_bits.ne'

theorem convertInteger_none {v w : Nat} (hv : v ≠ 1) (x : BitVec w) : convertInteger none v x = x.setWidth v := by
  simp [convertInteger, hv]

section
variable {T : AggregateType}

theorem BitfieldOf.isBitfieldStruct (f : BitfieldOf T) : T.isBitfieldStruct = true :=
  T.isBitfieldStruct_of_get f.get_eq f.isBitfield

theorem bitfieldStorage_ne_one : T.bitfieldStorage ≠ 1 := by
  rcases T.bitfieldStorage_cases with h | h | h | h <;> omega

theorem bitfieldStorage_le : T.bitfieldStorage ≤ 64 := by
  rcases T.bitfieldStorage_cases with h | h | h | h <;> omega

theorem getattr_bitfield {g : String} {j : FieldInfo} (hg : T.fieldLayout.get g = some j) (hj : j.isBitfield = true)
    (hw : j.bitWidth < T.bitfieldStorage) {t : IntType} (ht : j.underlyingType = .integer t) (x : BitVec T.bitfieldStorage) :
    lowerAggregateTypeGetattr T [.int T.bitfieldStorage x] g =
      some (.int t.bits ((BitField.extract j.bitOffset j.bitWidth x).setWidth t.bits)) := by
  obtain ⟨hpos, hle, -⟩ := T.bitfield_bounds hg hj
  have hS := bitfieldStorage_le (T := T)
  simp only [lowerAggregateTypeGetattr, hg, hj, Option.bind_eq_bind, Option.bind_some, if_true, ht]
  rw [getBitfield_eq (by omega) (by omega), convertInteger_none (bits_ne_one t)]

theorem setattr_bitfield (f : BitfieldOf T) (hw : f.info.bitWidth < T.bitfieldStorage) {w : Nat} (x : BitVec T.bitfieldStorage)
    (v : BitVec w) : lowerSetattrBitfield T [.int T.bitfieldStorage x] f.name v = some [.int T.bitfieldStorage
      (BitField.insert f.info.bitOffset f.info.bitWidth x (v.setWidth T.bitfieldStorage))] := by
  obtain ⟨hpos, hle, -⟩ := T.bitfield_bounds f.get_eq f.isBitfield
  simp only [lowerSetattrBitfield, f.get_eq, f.isBitfield, Option.bind_eq_bind, Option.bind_some, if_true]
  rw [setBitfield_eq hw (by omega), convertInteger_none bitfieldStorage_ne_one]

theorem readback_eq (f : BitfieldOf T) (hw : f.info.bitWidth < T.bitfieldStorage) (t : IntType) (x : BitVec t.bits)
    (x₀ : BitVec T.bitfieldStorage) :
    (lowerAggregateTypeGetattr T [.int T.bitfieldStorage
      (BitField.insert f.info.bitOffset f.info.bitWidth x₀ (x.setWidth T.bitfieldStorage))] f.name).bind f.info.readNumber =
      some (value f.info.signed (BitVec.ofInt f.info.underlyingType.bits (x.toNat % 2 ^ f.info.bitWidth : Nat))) := by
  obtain ⟨hpos, hle, -, u, hu⟩ := T.bitfield_bounds f.get_eq f.isBitfield
  have hcut : x.toNat % 2 ^ T.bitfieldStorage % 2 ^ f.info.bitWidth = x.toNat % 2 ^ f.info.bitWidth :=
    Nat.mod_mod_of_dvd _ (Nat.pow_dvd_pow 2 hw.le)
  have hbits : ((x.setWidth T.bitfieldStorage &&& BitField.mask T.bitfieldStorage f.info.bitWidth).setWidth u.bits) =
      BitVec.ofInt u.bits (x.toNat % 2 ^ f.info.bitWidth : Nat) := by
    rw [BitVec.ofInt_natCast, ← BitVec.ofNat_toNat, BitField.toNat_and_mask, BitVec.toNat_setWidth, hcut]
  have hub : f.info.underlyingType.bits = u.bits := by rw [hu]; rfl
  rw [getattr_bitfield f.get_eq f.isBitfield hw hu, BitField.extract_insert_self hle, hbits, Option.bind_some, hub]
  rfl

theorem BitfieldOf.other_narrow (f : BitfieldOf T) {g : String} {j : FieldInfo} (hg : T.fieldLayout.get g = some j)
    (hj : j.isBitfield = true) (hne : g ≠ f.name) : j.bitWidth < T.bitfieldStorage := by
  obtain ⟨hpos, hle, -⟩ := T.bitfield_bounds f.get_eq f.isBitfield
  obtain ⟨hpos', hle', -⟩ := T.bitfield_bounds hg hj
  have := T.bitfields_disjoint hg f.get_eq hne hj f.isBitfield
  omega

theorem others_kept_iff (f : BitfieldOf T) {g : String} {j : FieldInfo} (hg : T.fieldLayout.get g = some j)
    (hj : j.isBitfield = true) (hne : g ≠ f.name) {tb : Nat} (v : BitVec tb) :
    (∀ x, lowerAggregateTypeGetattr T [.int T.bitfieldStorage
      (BitField.insert f.info.bitOffset f.info.bitWidth x (v.setWidth T.bitfieldStorage))] g =
        lowerAggregateTypeGetattr T [.int T.bitfieldStorage x] g) ↔
      ∀ i, f.info.bitWidth ≤ i → j.bitOffset ≤ f.info.bitOffset + i →
        f.info.bitOffset + i < j.bitOffset + min j.bitWidth j.underlyingType.bits → v.getLsbD i = false := by
  have hw := f.other_narrow hg hj hne
  obtain ⟨hpos, hle, -, t, ht⟩ := T.bitfield_bounds hg hj
  have hd := T.bitfields_disjoint hg f.get_eq hne hj f.isBitfield
  have hread (x y : BitVec T.bitfieldStorage) : lowerAggregateTypeGetattr T [.int T.bitfieldStorage x] g =
      lowerAggregateTypeGetattr T [.int T.bitfieldStorage y] g ↔
        BitField.extract j.bitOffset (min j.bitWidth t.bits) x = BitField.extract j.bitOffset (min j.bitWidth t.bits) y := by
    rw [getattr_bitfield hg hj hw ht, getattr_bitfield hg hj hw ht, ← BitField.setWidth_extract_inj]
    simp
  simp only [hread, ht, FieldType.bits]
  rw [BitField.extract_insert_other_iff (by omega) (by omega)]
  refine forall_congr' fun i => ?_
  constructor <;> intro h hi hlo hhi
  · have := h hi hlo hhi
    rwa [BitVec.getLsbD_setWidth, decide_eq_true (by omega), Bool.true_and] at this
  · rw [BitVec.getLsbD_setWidth, h hi hlo hhi, Bool.and_false]

/-! ## Mixed structs -/

/-- The bitfields have position 0, so a regular field that shares nothing with
one has a position the struct does not have. -/
theorem getattr_regular (f : BitfieldOf T) (hsep : T.NoSharing) {g : String} {j : FieldInfo} (hg : T.fieldLayout.get g = some j)
    (hj : j.isBitfield = false) (x : BitVec T.bitfieldStorage) : lowerAggregateTypeGetattr T [.int T.bitfieldStorage x] g = none := by
  obtain ⟨-, -, hzero, -⟩ := T.bitfield_bounds f.get_eq f.isBitfield
  have hne : f.name ≠ g := by
    intro hc
    have hinfo := f.get_eq
    rw [hc, hg, Option.some.injEq] at hinfo
    rw [hinfo, f.isBitfield] at hj
    cases hj
  have hindex : j.fieldIndex ≠ 0 := by
    rcases hsep f.name g f.info j f.get_eq hg hne with h | h
    · omega
    · simp [hj] at h
  obtain ⟨k, hk⟩ := Nat.exists_eq_succ_of_ne_zero hindex
  simp [lowerAggregateTypeGetattr, hg, hj, extractvalue, hk]

theorem noSharing_of_bitfields (h : ∀ g j, T.fieldLayout.get g = some j → j.isBitfield = true) : T.NoSharing := by
  intro f g i j hf hg hne
  exact .inr ⟨⟨h f i hf, h g j hg⟩, T.bitfields_disjoint hf hg hne (h f i hf) (h g j hg)⟩

theorem store_readback_iff (f : BitfieldOf T) (hw : f.info.bitWidth < T.bitfieldStorage) (t : IntType) (x : BitVec t.bits)
    (x₀ : BitVec T.bitfieldStorage) :
    (lowerAggregateTypeGetattr T [.int T.bitfieldStorage
      (BitField.insert f.info.bitOffset f.info.bitWidth x₀ (x.setWidth T.bitfieldStorage))] f.name).bind f.info.readNumber =
        some (f.info.fieldValue (value t.signed x)) ↔
      InRange f.info.signed f.info.underlyingType.bits (f.info.fieldValue (value t.signed x)) ∧
        (0 ≤ value t.signed x ∨ min f.info.bitWidth f.info.underlyingType.bits ≤ t.bits) ∧
        (f.info.signed = true → f.info.bitWidth < f.info.underlyingType.bits → 0 ≤ f.info.fieldValue (value t.signed x)) := by
  obtain ⟨hpos, -, -, u, hu⟩ := T.bitfield_bounds f.get_eq f.isBitfield
  have hub : 0 < f.info.underlyingType.bits := by rw [hu]; exact u.width.bits_pos
  rw [readback_eq f hw, Option.some.injEq]
  exact stored_eq_iff hpos hub t.width.bits_pos x

theorem storeLaws_iff (f : BitfieldOf T) (t : IntType) (x : BitVec t.bits) : StoreLaws f t x ↔ Kept f t x := by
  have hstruct := f.isBitfieldStruct
  constructor
  · intro h
    have hnarrow : f.info.bitWidth < T.bitfieldStorage := by
      by_contra hc
      obtain ⟨struct', hset, -⟩ := h.store _ ((wellTyped_bitfieldStruct hstruct).mpr ⟨0, rfl⟩)
      simp only [lowerSetattrBitfield, f.get_eq, f.isBitfield, Option.bind_eq_bind, Option.bind_some, if_true] at hset
      rw [setBitfield_full (by omega)] at hset
      cases hset
    have hstore (x₀ : BitVec T.bitfieldStorage) := h.store _ ((wellTyped_bitfieldStruct hstruct).mpr ⟨x₀, rfl⟩)
    simp only [setattr_bitfield f hnarrow, Option.some.injEq] at hstore
    obtain ⟨_, rfl, hread, -⟩ := hstore 0
    obtain ⟨hfits, hwide, hpositive⟩ := (store_readback_iff f hnarrow t x 0).mp hread
    have hbits : ∀ g j, T.fieldLayout.get g = some j → j.isBitfield = true := by
      intro g j hg
      by_contra hc
      rw [Bool.not_eq_true] at hc
      have hne : g ≠ f.name := by
        rintro rfl
        rw [f.get_eq, Option.some.injEq] at hg
        rw [← hg, f.isBitfield] at hc
        cases hc
      obtain ⟨_, rfl, -, hothers⟩ := hstore 0
      obtain ⟨slot, hslot, -⟩ := hothers g j hg hne
      rw [getattr_regular f h.noSharing hg hc] at hslot
      cases hslot
    refine ⟨hbits, hnarrow, hfits, hwide, hpositive, fun g j hg hne => ?_⟩
    refine (others_kept_iff f hg (hbits g j hg) hne x).mp fun x₀ => ?_
    obtain ⟨_, rfl, -, hothers⟩ := hstore x₀
    obtain ⟨slot, hslot, hslot'⟩ := hothers g j hg hne
    rw [hslot, hslot']
  · intro h
    refine ⟨fun struct hs => ?_, noSharing_of_bitfields h.bitfields⟩
    obtain ⟨x₀, rfl⟩ := (wellTyped_bitfieldStruct hstruct).mp hs
    refine ⟨_, setattr_bitfield f h.narrow x₀ x, ?_, fun g j hg hne => ?_⟩
    · exact (store_readback_iff f h.narrow t x x₀).mpr ⟨h.fits, h.wide, h.positive⟩
    · have hj := h.bitfields g j hg
      obtain ⟨-, -, -, u, hu⟩ := T.bitfield_bounds hg hj
      have hold := getattr_bitfield hg hj (f.other_narrow hg hj hne) hu x₀
      exact ⟨_, hold, ((others_kept_iff f hg hj hne x).mpr (h.clear g j hg hne) x₀).trans hold⟩

end

/-! ## Two fields of three bits -/

def flagsLayout : Dict String FieldInfo :=
  (Dict.empty.set "low" ⟨0, 3, .integer ⟨true, .w32⟩, true, 0⟩).set "high" ⟨3, 3, .integer ⟨true, .w32⟩, true, 0⟩

def flags : AggregateType where
  fields := [.bitfield (some "low") ⟨true, .w32⟩ 3, .bitfield (some "high") ⟨true, .w32⟩ 3]
  fieldLayout := flagsLayout
  fieldLayout_eq := by rfl
  unionStorageBits := none
  storage_covers := nofun

def flagsLow : BitfieldOf flags := ⟨"low", ⟨0, 3, .integer ⟨true, .w32⟩, true, 0⟩, by rfl, rfl⟩

/-- Assigned −1, the lower field reads as 7, and so does the field above it, which was zero. -/
theorem negative_value_spills : ¬ StoreLaws flagsLow ⟨true, .w32⟩ (-1) := by
  intro h
  obtain ⟨struct', hset, hread, -⟩ := h.store [.int 64 0] (by rfl)
  have hset' : lowerSetattrBitfield flags [.int 64 0] "low" (-1 : BitVec 32) = some [.int 64 0xFFFFFFFF] := by rfl
  obtain rfl := Option.some.inj (hset.symm.trans hset')
  have hread' : (lowerAggregateTypeGetattr flags [.int 64 0xFFFFFFFF] "low").bind flagsLow.info.readNumber = some 7 := by rfl
  have hc : flagsLow.info.fieldValue (-1) = 7 := Option.some.inj (hread.symm.trans hread')
  exact absurd hc (by decide)

end NumbaCudaMlir.Aggregate

import NumbaCudaMlir.StructFieldsSound
import NumbaCudaMlir.UnionType

/-!
# Round trips of unions

What is written to a variant comes back bit for bit exactly for unions of
integers, bitfield structs and structs of integers of at most 32 bits. Floats
are converted to integers instead of cast, tuples cannot be written.
-/

namespace NumbaCudaMlir.Aggregate

open MachineInt

/-! ## Regular structs -/

def regularTypes (fields : List Field) : List FieldType :=
  fields.filterMap fun
    | .regular (some _) type => some type
    | .regular none _ | .bitfield .. => none

def placed (bitOffset index : Nat) : List FieldType → List FieldInfo
  | [] => []
  | type :: types => ⟨bitOffset, type.bits, type, false, index⟩ :: placed (bitOffset + type.bits) (index + 1) types

theorem values_set_of_get {κ α : Type} [DecidableEq κ] {d : Dict κ α} {k : κ} (h : d.get k = none) (v : α) :
    (d.set k v).values = d.values ++ [v] := by
  have hk : k ∉ d.keys := by simp [Dict.mem_keys_iff, h]
  simp [Dict.set, hk, Dict.values]

theorem layoutField_get {st st' : LayoutState} {f : Field} (h : layoutField st f = .ok st') {name : String} (hne : f.name ≠ some name) :
    st'.layout.get name = st.layout.get name := by
  cases f with
  | bitfield name' type bitWidth =>
    simp only [layoutField] at h
    split at h
    · cases h
    split at h
    · cases h
    split at h
    · cases h
    · cases h
      cases name' with
      | none => rfl
      | some name' => exact Dict.get_set_ne _ _ fun hc => hne (by rw [hc]; rfl)
  | regular name' type =>
    cases name' with
    | none => cases h
    | some name' =>
      cases h
      exact Dict.get_set_ne _ _ fun hc => hne (by rw [hc]; rfl)

theorem layoutLoop_cons {st st' : LayoutState} {f : Field} {fields : List Field} (h : layoutLoop st (f :: fields) = .ok st') :
    ∃ st₁, layoutField st f = .ok st₁ ∧ layoutLoop st₁ fields = .ok st' := by
  rw [layoutLoop] at h
  cases hf : layoutField st f with
  | error e => rw [hf] at h; cases h
  | ok st₁ => rw [hf] at h; exact ⟨st₁, rfl, h⟩

theorem layoutLoop_get : ∀ {fields : List Field} {st st' : LayoutState}, layoutLoop st fields = .ok st' → ∀ {name : String},
    name ∉ fields.filterMap Field.name → st'.layout.get name = st.layout.get name
  | [], st, st', h, name, _ => by cases h; rfl
  | f :: fields, st, st', h, name, hname => by
    obtain ⟨st₁, hf, hrest⟩ := layoutLoop_cons h
    have hne : f.name ≠ some name := fun hc => hname (List.mem_filterMap.mpr ⟨f, by simp, hc⟩)
    have htail : name ∉ fields.filterMap Field.name := fun hc => by
      obtain ⟨g, hg, hg'⟩ := List.mem_filterMap.mp hc
      exact hname (List.mem_filterMap.mpr ⟨g, by simp [hg], hg'⟩)
    rw [layoutLoop_get hrest htail, layoutField_get hf hne]

theorem layoutLoop_seen : ∀ {fields : List Field} {st st' : LayoutState}, layoutLoop st fields = .ok st' →
    st.hasSeenRegularField = true → bitfieldBits fields = 0
  | [], st, st', _, _ => by simp [bitfieldBits]
  | f :: fields, st, st', h, hs => by
    obtain ⟨st₁, hf, hrest⟩ := layoutLoop_cons h
    cases f with
    | bitfield name type bitWidth => simp [layoutField, hs] at hf
    | regular name type =>
      cases name with
      | none => cases hf
      | some name =>
        cases hf
        have := layoutLoop_seen hrest rfl
        simpa [bitfieldBits] using this

theorem layoutField_bitfield {st st' : LayoutState} {name : Option String} {type : IntType} {bitWidth : Int}
    (h : layoutField st (.bitfield name type bitWidth) = .ok st') :
    (∀ n, name = some n → st'.layout.get n = some ⟨st.bitOffset, bitWidth.toNat, .integer type, true, 0⟩) ∧
      (name = none → st'.layout = st.layout) ∧ st'.bitOffset = st.bitOffset + bitWidth.toNat ∧ st'.mlirFieldIndex = st.mlirFieldIndex := by
  simp only [layoutField] at h
  split at h
  · cases h
  split at h
  · cases h
  split at h
  · cases h
  · cases h
    refine ⟨?_, ?_, rfl, rfl⟩
    · rintro n rfl
      exact Dict.get_set_self _ _ _
    · rintro rfl
      rfl

theorem layoutLoop_unnamed : ∀ {fields : List Field} {st st' : LayoutState}, layoutLoop st fields = .ok st' →
    (fields.filterMap Field.name).Nodup → (∀ i ∈ st'.layout.values, i.isBitfield = false) →
    ∀ f ∈ fields, ∀ name type bitWidth, f ≠ .bitfield (some name) type bitWidth
  | [], _, _, _, _, _ => by simp
  | f :: fields, st, st', h, hnodup, hall => by
    obtain ⟨st₁, hf, hrest⟩ := layoutLoop_cons h
    have htail : (fields.filterMap Field.name).Nodup := hnodup.sublist ((List.sublist_cons_self f fields).filterMap _)
    intro g hg name type bitWidth
    rcases List.mem_cons.mp hg with rfl | hg
    · rintro rfl
      rw [List.filterMap_cons_some (by rfl), List.nodup_cons] at hnodup
      have hget := layoutLoop_get hrest hnodup.1
      rw [(layoutField_bitfield hf).1 name rfl] at hget
      cases hall _ (Dict.mem_values_of_get hget)
    · exact layoutLoop_unnamed hrest htail hall g hg name type bitWidth

theorem layoutLoop_placed : ∀ {fields : List Field} {st st' : LayoutState}, layoutLoop st fields = .ok st' →
    (fields.filterMap Field.name).Nodup → (∀ name ∈ fields.filterMap Field.name, st.layout.get name = none) →
    (∀ f ∈ fields, ∀ name type bitWidth, f ≠ .bitfield (some name) type bitWidth) →
    st'.layout.values = st.layout.values ++ placed (st.bitOffset + bitfieldBits fields) st.mlirFieldIndex (regularTypes fields) ∧
      fields.filterMap Field.mlirType = (regularTypes fields).map FieldType.toMlir
  | [], st, st', h, _, _, _ => by
    cases h
    simp [regularTypes, placed]
  | f :: fields, st, st', h, hnodup, hfresh, hall => by
    obtain ⟨st₁, hf, hrest⟩ := layoutLoop_cons h
    have hall' : ∀ f ∈ fields, ∀ name type bitWidth, f ≠ .bitfield (some name) type bitWidth := fun g hg => hall g (by simp [hg])
    cases f with
    | bitfield name type bitWidth =>
      cases name with
      | some name => exact absurd rfl (hall _ (by simp) name type bitWidth)
      | none =>
        rw [List.filterMap_cons_none (by rfl)] at hnodup hfresh
        obtain ⟨-, hlayout, hoff, hindex⟩ := layoutField_bitfield hf
        obtain ⟨hvalues, hmlir⟩ := layoutLoop_placed hrest hnodup (by rwa [hlayout rfl]) hall'
        refine ⟨?_, by rw [List.filterMap_cons_none (by rfl)]; exact hmlir⟩
        rw [hvalues, hlayout rfl, hoff, hindex]
        simp [bitfieldBits, regularTypes, Nat.add_assoc]
    | regular name type =>
      cases name with
      | none => cases hf
      | some name =>
        rw [List.filterMap_cons_some (by rfl)] at hnodup hfresh
        rw [List.nodup_cons] at hnodup
        cases hf
        have hzero := layoutLoop_seen hrest rfl
        have hnone : st.layout.get name = none := hfresh name (by simp)
        have hfresh' : ∀ n ∈ fields.filterMap Field.name,
            (st.layout.set name ⟨st.bitOffset, type.bits, type, false, st.mlirFieldIndex⟩).get n = none := fun n hn => by
          have hne : n ≠ name := fun hc => hnodup.1 (hc ▸ hn)
          rw [Dict.get_set_ne _ _ hne]
          exact hfresh n (by simp [hn])
        obtain ⟨hvalues, hmlir⟩ := layoutLoop_placed hrest hnodup.2 hfresh' hall'
        have hbits : bitfieldBits (Field.regular (some name) type :: fields) = 0 := by simpa [bitfieldBits] using hzero
        refine ⟨?_, ?_⟩
        · rw [hvalues, values_set_of_get hnone, hzero, hbits]
          simp [regularTypes, placed]
        · rw [List.filterMap_cons_some (by rfl), hmlir]
          simp [regularTypes]

theorem AggregateType.values_placed {T : AggregateType} (hb : T.isBitfieldStruct = false) (hn : (T.fields.filterMap Field.name).Nodup) :
    T.fieldLayout.values = placed (bitfieldBits T.fields) 0 (regularTypes T.fields) ∧
      T.llvmFields = (regularTypes T.fields).map FieldType.toMlir := by
  have h := T.fieldLayout_eq
  unfold calculateFieldLayout at h
  cases hl : layoutLoop .initial T.fields with
  | error e => rw [hl] at h; cases h
  | ok st =>
    rw [hl] at h
    have hlayout : st.layout = T.fieldLayout := Except.ok.inj h
    have hall : ∀ i ∈ st.layout.values, i.isBitfield = false := by
      rw [hlayout]
      simpa [isBitfieldStruct] using hb
    obtain ⟨hvalues, hmlir⟩ := layoutLoop_placed hl hn (fun _ _ => rfl) (layoutLoop_unnamed hl hn hall)
    rw [hlayout] at hvalues
    refine ⟨by rw [hvalues]; simp [LayoutState.initial, Dict.values, Dict.empty], ?_⟩
    rw [llvmFields, hb]
    exact hmlir

/-! ## Bit patterns -/

def Slot.toNat : Slot → Nat
  | int _ x | float _ x => x.toNat
  | pointer x => x.toNat
  | opaqueValue .. => 0

def Slot.bits : Slot → Nat
  | int bits _ => bits
  | float w _ => w.bits
  | pointer _ | opaqueValue .. => 64

/-- Slots one after the other, the first one lowest. -/
def concat : List Slot → Nat
  | [] => 0
  | slot :: slots => slot.toNat + 2 ^ slot.bits * concat slots

theorem bits_integer (t : IntType) : (FieldType.integer t).bits = t.bits := rfl

def totalBits (types : List FieldType) : Nat := (types.map FieldType.bits).sum

@[simp] theorem totalBits_nil : totalBits [] = 0 := rfl

@[simp] theorem totalBits_cons (type : FieldType) (types : List FieldType) : totalBits (type :: types) = type.bits + totalBits types := rfl

theorem sum_placed (off index : Nat) (types : List FieldType) : ((placed off index types).map (·.bitWidth)).sum = totalBits types := by
  induction types generalizing off index with
  | nil => rfl
  | cons type types ih => simp [placed, ih]

def IntegerTypes (types : List FieldType) : Prop := ∀ type ∈ types, ∃ t, type = .integer t

theorem IntegerTypes.tail {type : FieldType} {types : List FieldType} (h : IntegerTypes (type :: types)) : IntegerTypes types :=
  fun t ht => h t (by simp [ht])

theorem slot_of_integer {slot : Slot} {t : IntType} (h : slot.type = (FieldType.integer t).toMlir) :
    ∃ x : BitVec t.bits, slot = .int t.bits x := by
  cases slot with
  | int bits x =>
    cases h
    exact ⟨x, rfl⟩
  | float | pointer | opaqueValue => cases h

theorem concat_inj : ∀ {types : List FieldType} {slots slots' : List Slot}, IntegerTypes types →
    slots.map Slot.type = types.map FieldType.toMlir → slots'.map Slot.type = types.map FieldType.toMlir → concat slots = concat slots' →
      slots = slots'
  | [], slots, slots', _, h, h', _ => by simp_all
  | type :: types, [], _, _, h, _, _ => by cases h
  | type :: types, _ :: _, [], _, _, h', _ => by cases h'
  | type :: types, slot :: slots, slot' :: slots', hint, h, h', heq => by
    simp only [List.map_cons, List.cons.injEq] at h h'
    obtain ⟨t, rfl⟩ := hint type (by simp)
    obtain ⟨x, rfl⟩ := slot_of_integer h.1
    obtain ⟨y, rfl⟩ := slot_of_integer h'.1
    simp only [concat, Slot.toNat, Slot.bits] at heq
    have hmod := congrArg (· % 2 ^ t.bits) heq
    have hdiv := congrArg (· / 2 ^ t.bits) heq
    simp only [Nat.add_mul_mod_self_left, Nat.mod_eq_of_lt x.isLt, Nat.mod_eq_of_lt y.isLt] at hmod
    simp only [Nat.add_mul_div_left _ _ (Nat.two_pow_pos t.bits), Nat.div_eq_of_lt x.isLt, Nat.div_eq_of_lt y.isLt, Nat.zero_add] at hdiv
    rw [BitVec.eq_of_toNat_eq hmod, concat_inj hint.tail h.2 h'.2 hdiv]

theorem extractvalue_append {pre slots : List Slot} {slot : Slot} : extractvalue slot.type (pre ++ slot :: slots) pre.length = some slot := by
  simp [extractvalue]

theorem insertvalue_append {pre slots : List Slot} {slot value : Slot} (h : slot.type = value.type) :
    insertvalue (pre ++ slot :: slots) value pre.length = some (pre ++ value :: slots) := by
  simp [insertvalue, h]

/-! ## Packing -/

theorem toNat_or_shiftLeft {w off : Nat} {acc x : BitVec w} (hacc : acc.toNat < 2 ^ off) (hx : x.toNat * 2 ^ off < 2 ^ w) :
    (acc ||| x <<< off).toNat = acc.toNat + 2 ^ off * x.toNat := by
  rw [BitVec.toNat_or, BitVec.toNat_shiftLeft, Nat.shiftLeft_eq, Nat.mod_eq_of_lt hx, Nat.or_comm, ← Nat.shiftLeft_eq,
    ← Nat.shiftLeft_add_eq_or_of_lt hacc, Nat.shiftLeft_eq, Nat.add_comm, Nat.mul_comm]

theorem packFields_placed {w : Nat} (hw : w ≠ 1) : ∀ (pre : List Slot) (off : Nat) (acc : BitVec w) {types : List FieldType} {slots : List Slot},
    IntegerTypes types → slots.map Slot.type = types.map FieldType.toMlir → acc.toNat < 2 ^ off →
    (∀ info ∈ placed off pre.length types, info.bitOffset + info.bitWidth ≤ w) →
      ∃ u, packFields (pre ++ slots) acc (placed off pre.length types) = some u ∧ u.toNat = acc.toNat + 2 ^ off * concat slots
  | pre, off, acc, [], slots, _, hs, _, _ => by
    obtain rfl : slots = [] := by simpa using hs
    exact ⟨acc, rfl, by simp [concat]⟩
  | pre, off, acc, type :: types, [], _, hs, _, _ => by cases hs
  | pre, off, acc, type :: types, slot :: slots, hint, hs, hacc, hend => by
    simp only [List.map_cons, List.cons.injEq] at hs
    obtain ⟨t, rfl⟩ := hint type (by simp)
    obtain ⟨x, rfl⟩ := slot_of_integer hs.1
    have hpos : 0 < t.bits := t.width.bits_pos
    have hle : off + t.bits ≤ w := hend ⟨off, t.bits, .integer t, false, pre.length⟩ (by simp [placed, bits_integer])
    have hx : (x.setWidth w).toNat = x.toNat := by
      rw [BitVec.toNat_setWidth, Nat.mod_eq_of_lt (x.isLt.trans_le (Nat.pow_le_pow_right (by decide) (by omega)))]
    have hlt : x.toNat * 2 ^ off < 2 ^ (off + t.bits) := by
      rw [Nat.pow_add, Nat.mul_comm]
      exact Nat.mul_lt_mul_of_pos_left x.isLt (Nat.two_pow_pos off)
    have hor := toNat_or_shiftLeft (x := x.setWidth w) hacc (by
      rw [hx]
      exact hlt.trans_le (Nat.pow_le_pow_right (by decide) (by omega)))
    have hacc' : (acc ||| x.setWidth w <<< off).toNat < 2 ^ (off + t.bits) := by
      rw [hor, hx]
      have := Nat.mul_le_mul_left (2 ^ off) (Nat.succ_le_of_lt x.isLt)
      rw [Nat.mul_succ, ← Nat.pow_add] at this
      omega
    obtain ⟨u, hu, hval⟩ := packFields_placed hw (pre ++ [.int t.bits x]) _ _ hint.tail hs.2 hacc' (by
      rw [List.length_append]
      exact fun info h => hend info (by simpa [placed, bits_integer] using .inr h))
    refine ⟨u, ?_, ?_⟩
    · rw [List.append_assoc, List.singleton_append, List.length_append, List.length_singleton] at hu
      have hext : extractvalue (FieldType.integer t).toMlir (pre ++ .int t.bits x :: slots) pre.length = some (.int t.bits x) :=
        extractvalue_append
      simp only [placed, packFields, hext, Slot.toInteger, convertInteger_none hw, Option.bind_eq_bind, Option.bind_some, bits_integer]
      rw [shlOffset_eq (by omega), Option.bind_some]
      exact hu
    · rw [hval, hor, hx]
      simp only [concat, Slot.toNat, Slot.bits]
      ring

/-! ## Unpacking -/

theorem toNat_extract {w : Nat} (u : BitVec w) (off bits : Nat) : (BitField.extract off bits u).toNat = u.toNat / 2 ^ off % 2 ^ bits := by
  rw [BitField.extract, BitField.toNat_and_mask, BitVec.toNat_ushiftRight, Nat.shiftRight_eq_div_pow]

theorem readBits_integer {w : Nat} (u : BitVec w) {off : Nat} {t : IntType} (hoff : off < w) (ht : t.bits ≠ 64) :
    ∃ x : BitVec t.bits, readBits u off t.bits (.integer t) = some (.int t.bits x) ∧ x.toNat = u.toNat / 2 ^ off % 2 ^ t.bits := by
  have hmax : t.bits ≤ 64 := t.width.bits_le
  refine ⟨(BitField.extract off t.bits u).setWidth t.bits, ?_, ?_⟩
  · simp only [readBits, shrOffset_eq hoff, integerAttr_mask (show t.bits ≤ 63 by omega), Option.bind_eq_bind, Option.bind_some,
      convertField, convertInteger_none (bits_ne_one t)]
    rfl
  · rw [BitVec.toNat_setWidth, toNat_extract, Nat.mod_mod]

theorem readFields_placed {w : Nat} (u : BitVec w) : ∀ (pre : List Slot) (off : Nat) {types : List FieldType},
    (∀ type ∈ types, ∃ t, type = .integer t ∧ t.bits ≠ 64) →
    (∀ info ∈ placed off pre.length types, info.bitOffset + info.bitWidth ≤ w) →
      ∃ slots, readFields u (pre ++ (types.map FieldType.toMlir).map MlirType.zero) (placed off pre.length types) = some (pre ++ slots) ∧
        slots.map Slot.type = types.map FieldType.toMlir ∧ concat slots = u.toNat / 2 ^ off % 2 ^ totalBits types
  | pre, off, [], _, _ => ⟨[], by simp [placed, readFields], rfl, by simp [concat, Nat.mod_one]⟩
  | pre, off, type :: types, hint, hend => by
    obtain ⟨t, rfl, ht⟩ := hint type (by simp)
    have hpos : 0 < t.bits := t.width.bits_pos
    have hle : off + t.bits ≤ w := hend ⟨off, t.bits, .integer t, false, pre.length⟩ (by simp [placed, bits_integer])
    have htail : ∀ type ∈ types, ∃ t, type = .integer t ∧ t.bits ≠ 64 := fun type h => hint type (by simp [h])
    obtain ⟨x, hread, hx⟩ := readBits_integer u (show off < w by omega) ht
    obtain ⟨slots, hslots, htypes, hval⟩ := readFields_placed u (pre ++ [.int t.bits x]) (off + t.bits) htail (by
      rw [List.length_append]
      exact fun info h => hend info (by simpa [placed, bits_integer] using .inr h))
    rw [List.append_assoc, List.singleton_append, List.length_append, List.length_singleton, List.append_assoc,
      List.singleton_append] at hslots
    refine ⟨.int t.bits x :: slots, ?_, ?_, ?_⟩
    · have hzero : (MlirType.zero (FieldType.integer t).toMlir).type = (Slot.int t.bits x).type := rfl
      simp only [placed, readFields, bits_integer, hread, List.map_cons, insertvalue_append hzero, Option.bind_eq_bind, Option.bind_some]
      exact hslots
    · rw [List.map_cons, htypes]
      rfl
    · simp only [concat, Slot.toNat, Slot.bits, hx, hval, totalBits_cons, bits_integer]
      rw [Nat.pow_add 2 off, ← Nat.div_div_eq_div_mul, Nat.pow_add, Nat.mod_mul]

/-! ## Laws -/

def Data.HasType : Data → Variant → Prop
  | number slot, .number t => slot.type = t.toFieldType.toMlir
  | tuple elements, .uniTuple dtype count => elements.length = count ∧ ∀ e ∈ elements, e.type = dtype.toFieldType.toMlir
  | struct slots, .aggregate T => WellTyped T slots
  | _, _ => False

/-- The bits of the value are those of the integer `n`, from the lowest on; a
regular struct has them behind its padding. -/
def Data.Shows (n : Nat) : Data → Variant → Prop
  | number slot, .number t => slot.toNat = n % 2 ^ t.bits
  | tuple elements, .uniTuple dtype count => concat elements = n % 2 ^ (count * dtype.bits)
  | struct slots, .aggregate T =>
    if T.isBitfieldStruct then concat slots % 2 ^ bitfieldBits T.fields = n % 2 ^ bitfieldBits T.fields
    else concat slots = n / 2 ^ bitfieldBits T.fields % 2 ^ T.sizeBits
  | _, _ => False

/-- Two values of a variant are equal, or equal in every bitfield. -/
def Data.Same : Variant → Data → Data → Prop
  | .aggregate T, struct slots, struct slots' =>
    if T.isBitfieldStruct then concat slots % 2 ^ bitfieldBits T.fields = concat slots' % 2 ^ bitfieldBits T.fields
    else slots = slots'
  | _, v, v' => v = v'

/-- Every value written to a variant is read back from it, and every variant shows the bits stored. -/
def UnionType.Laws (U : UnionType) : Prop :=
  ∃ w, U.width = some w ∧ ∀ attr V, U.getVariantType attr = some V → ∀ v : Data, v.HasType V →
    ∃ u : BitVec w, lowerSetattrUnion U w attr v = some u ∧
      (∃ v', lowerUnionTypeGetattr U u attr = some v' ∧ v'.Same V v) ∧
      ∀ attr' V', U.getVariantType attr' = some V' →
        ∃ v', lowerUnionTypeGetattr U u attr' = some v' ∧ v'.HasType V' ∧ v'.Shows u.toNat V'

/-- The variants that `convert` takes bit for bit into `w` bits and back. -/
def Variant.Castable (w : Nat) : Variant → Prop
  | number (.integer _) => True
  | number (.float _) | uniTuple .. => False
  | aggregate T => T.isBitfieldStruct = true ∨ ∀ info ∈ T.fieldLayout.values,
      (∃ t, info.underlyingType = .integer t ∧ t.bits ≠ 64) ∧ info.bitOffset + info.bitWidth ≤ w

theorem le_foldl_max {l : List Nat} {a m : Nat} (h : a ∈ l ∨ a ≤ m) : a ≤ l.foldl max m := by
  induction l generalizing m with
  | nil => simpa using h
  | cons b l ih =>
    apply ih
    rcases h with h | h
    · rcases List.mem_cons.mp h with rfl | h
      · exact .inr (Nat.le_max_right _ _)
      · exact .inl h
    · exact .inr (h.trans (Nat.le_max_left _ _))

section
variable {U : UnionType}

theorem UnionType.mem_of_getVariantType {attr : String} {V : Variant} (h : U.getVariantType attr = some V) : (attr, V) ∈ U.variants := by
  obtain ⟨l, r, hl, -⟩ := List.lookup_eq_some_iff.mp h
  rw [hl]
  simp

theorem UnionType.sizeBits_le {attr : String} {V : Variant} (h : U.getVariantType attr = some V) : V.sizeBits ≤ U.sizeBits :=
  le_foldl_max (.inl (List.mem_map.mpr ⟨_, mem_of_getVariantType h, rfl⟩))

theorem UnionType.width_spec {w : Nat} (h : U.width = some w) : U.sizeBits ≤ w ∧ 1 < w ∧ w ≤ 64 := by
  unfold width at h
  split_ifs at h <;> cases h <;> omega

theorem exists_placed : ∀ (off index : Nat) {types : List FieldType} {type : FieldType}, type ∈ types →
    ∃ info ∈ placed off index types, info.underlyingType = type
  | off, index, t :: types, type, h => by
    rcases List.mem_cons.mp h with rfl | h
    · exact ⟨_, List.mem_cons_self, rfl⟩
    · obtain ⟨info, hi, ht⟩ := exists_placed (off + t.bits) (index + 1) h
      exact ⟨info, List.mem_cons_of_mem _ hi, ht⟩

theorem Slot.ofNat_shows {t : IntType} {w : Nat} (x : BitVec t.bits) (hle : t.bits ≤ w) (hw : w ≠ 1) :
    (Slot.int t.bits x).toInteger w = some (x.setWidth w) ∧ (x.setWidth w).toNat = x.toNat := by
  refine ⟨by rw [toInteger, convertInteger_none hw], ?_⟩
  rw [BitVec.toNat_setWidth, Nat.mod_eq_of_lt (x.isLt.trans_le (Nat.pow_le_pow_right (by decide) hle))]

theorem AggregateType.sizeBits_regular {T : AggregateType} (hb : T.isBitfieldStruct = false)
    (hn : (T.fields.filterMap Field.name).Nodup) : T.sizeBits = totalBits (regularTypes T.fields) := by
  rw [sizeBits, hb, (values_placed hb hn).1, sum_placed]
  rfl

theorem bitfieldBits_le_sizeBits {T : AggregateType} (hb : T.isBitfieldStruct = true) : bitfieldBits T.fields ≤ T.sizeBits := by
  rw [AggregateType.sizeBits, if_pos hb]
  exact (Nat.le_pow_clog (by decide) _).trans (Nat.le_max_right _ _)

theorem concat_storage {S : Nat} (x : BitVec S) : concat [.int S x] = x.toNat := by
  simp [concat, Slot.toNat]

theorem setWidth_mod {S w n : Nat} (x : BitVec S) (h : n ≤ w) : (x.setWidth w).toNat % 2 ^ n = x.toNat % 2 ^ n := by
  rw [BitVec.toNat_setWidth, Nat.mod_mod_of_dvd _ (Nat.pow_dvd_pow 2 h)]

/-! ## Structs -/

section
variable {T : AggregateType} {w : Nat}

theorem readStruct_bitfields (hb : T.isBitfieldStruct = true) (u : BitVec w) :
    readStruct T u = some [.int T.bitfieldStorage (u.setWidth T.bitfieldStorage)] := by
  simp only [readStruct, AggregateType.mlirZero, AggregateType.llvmFields, hb, if_true, convertInteger_none bitfieldStorage_ne_one]
  simp [insertvalue, MlirType.zero, Slot.type]

theorem packStruct_bitfields (hw : w ≠ 1) (hb : T.isBitfieldStruct = true) (x : BitVec T.bitfieldStorage) :
    packStruct T w [.int T.bitfieldStorage x] = some (x.setWidth w) := by
  simp [packStruct, hb, extractInt_single, convertInteger_none hw]

/-- The fields of a regular struct that come back. -/
def IntegerFields (w : Nat) (T : AggregateType) : Prop :=
  ∀ info ∈ T.fieldLayout.values, (∃ t, info.underlyingType = .integer t ∧ t.bits ≠ 64) ∧ info.bitOffset + info.bitWidth ≤ w

theorem IntegerFields.types (h : IntegerFields w T) (hb : T.isBitfieldStruct = false) (hn : (T.fields.filterMap Field.name).Nodup) :
    ∀ type ∈ regularTypes T.fields, ∃ t, type = .integer t ∧ t.bits ≠ 64 := by
  intro type ht
  obtain ⟨info, hi, rfl⟩ := exists_placed (bitfieldBits T.fields) 0 ht
  rw [← (AggregateType.values_placed hb hn).1] at hi
  exact (h info hi).1

theorem wellTyped_regular (hb : T.isBitfieldStruct = false) (hn : (T.fields.filterMap Field.name).Nodup) {slots : List Slot} :
    WellTyped T slots ↔ slots.map Slot.type = (regularTypes T.fields).map FieldType.toMlir := by
  rw [WellTyped, (AggregateType.values_placed hb hn).2]

theorem readStruct_regular (h : IntegerFields w T) (hb : T.isBitfieldStruct = false) (hn : (T.fields.filterMap Field.name).Nodup)
    (u : BitVec w) : ∃ slots, readStruct T u = some slots ∧ WellTyped T slots ∧
      concat slots = u.toNat / 2 ^ bitfieldBits T.fields % 2 ^ T.sizeBits := by
  obtain ⟨hvalues, hmlir⟩ := AggregateType.values_placed hb hn
  obtain ⟨slots, hread, htypes, hval⟩ := readFields_placed u [] (bitfieldBits T.fields) (h.types hb hn) (by
    rw [List.length_nil, ← hvalues]
    exact fun info hi => (h info hi).2)
  refine ⟨slots, ?_, (wellTyped_regular hb hn).mpr htypes, ?_⟩
  · rw [readStruct, hb, AggregateType.mlirZero, hmlir, hvalues]
    exact hread
  · rw [hval, AggregateType.sizeBits_regular hb hn]

theorem packStruct_regular (hw : w ≠ 1) (h : IntegerFields w T) (hb : T.isBitfieldStruct = false)
    (hn : (T.fields.filterMap Field.name).Nodup) {slots : List Slot} (hs : WellTyped T slots) :
    ∃ u, packStruct T w slots = some u ∧ u.toNat = 2 ^ bitfieldBits T.fields * concat slots := by
  obtain ⟨hvalues, hmlir⟩ := AggregateType.values_placed hb hn
  obtain ⟨u, hpack, hval⟩ := packFields_placed hw [] (bitfieldBits T.fields) 0
    (fun type ht => (h.types hb hn type ht).imp fun _ => And.left) ((wellTyped_regular hb hn).mp hs) (by simp) (by
      rw [List.length_nil, ← hvalues]
      exact fun info hi => (h info hi).2)
  refine ⟨u, ?_, by simpa using hval⟩
  rw [packStruct, hb, hvalues]
  exact hpack

theorem concat_lt : ∀ {types : List FieldType} {slots : List Slot}, IntegerTypes types →
    slots.map Slot.type = types.map FieldType.toMlir → concat slots < 2 ^ totalBits types
  | [], slots, _, h => by
    obtain rfl : slots = [] := by simpa using h
    simp [concat]
  | type :: types, [], _, h => by cases h
  | type :: types, slot :: slots, hint, h => by
    simp only [List.map_cons, List.cons.injEq] at h
    obtain ⟨t, rfl⟩ := hint type (by simp)
    obtain ⟨x, rfl⟩ := slot_of_integer h.1
    have hrest := Nat.mul_le_mul_left (2 ^ t.bits) (Nat.succ_le_of_lt (concat_lt hint.tail h.2))
    rw [Nat.mul_succ, ← Nat.pow_add] at hrest
    have := x.isLt
    simp only [concat, Slot.toNat, Slot.bits, totalBits_cons, bits_integer]
    omega

end

/-! ## Unions that keep what is written -/

variable {w : Nat}

theorem read_castable {attr : String} {V : Variant} (hV : U.getVariantType attr = some V) (hc : V.Castable w) (u : BitVec w) :
    ∃ v, lowerUnionTypeGetattr U u attr = some v ∧ v.HasType V ∧ v.Shows u.toNat V := by
  cases V with
  | number t =>
    cases t with
    | float => cases hc
    | integer t =>
      refine ⟨.number (.int t.bits (u.setWidth t.bits)), ?_, rfl, ?_⟩
      · simp only [lowerUnionTypeGetattr, hV, Option.bind_eq_bind, Option.bind_some, NumberType.toFieldType, convertField,
          convertInteger_none (bits_ne_one t), Option.map_some]
      · rw [Data.Shows, Slot.toNat, BitVec.toNat_setWidth]
        rfl
  | uniTuple => cases hc
  | aggregate T =>
    cases hb : T.isBitfieldStruct with
    | true =>
      refine ⟨.struct [.int T.bitfieldStorage (u.setWidth T.bitfieldStorage)], ?_, (wellTyped_bitfieldStruct hb).mpr ⟨_, rfl⟩, ?_⟩
      · simp [lowerUnionTypeGetattr, hV, readStruct_bitfields hb]
      · rw [Data.Shows, if_pos hb, concat_storage, setWidth_mod _ T.bitfieldBits_le]
    | false =>
      have hint : IntegerFields w T := hc.resolve_left (by simp [hb])
      obtain ⟨slots, hread, htypes, hval⟩ := readStruct_regular hint hb (U.names_nodup _ _ (UnionType.mem_of_getVariantType hV)) u
      refine ⟨.struct slots, by simp [lowerUnionTypeGetattr, hV, hread], htypes, ?_⟩
      rw [Data.Shows, if_neg (by simp [hb]), hval]

theorem write_castable (hw : w ≠ 1) {attr : String} {V : Variant} (hV : U.getVariantType attr = some V) (hsize : V.sizeBits ≤ w)
    (hc : V.Castable w) {v : Data} (hv : v.HasType V) : ∃ u, lowerSetattrUnion U w attr v = some u ∧ v.Shows u.toNat V := by
  cases V with
  | number t =>
    cases t with
    | float => cases hc
    | integer t =>
      cases v with
      | tuple | struct => cases hv
      | number slot =>
        obtain ⟨x, rfl⟩ := slot_of_integer hv
        obtain ⟨hint, hval⟩ := Slot.ofNat_shows x hsize hw
        refine ⟨x.setWidth w, by simp [lowerSetattrUnion, hV, Data.toInteger, hint], ?_⟩
        rw [Data.Shows, hval]
        exact (Nat.mod_eq_of_lt x.isLt).symm
  | uniTuple => cases hc
  | aggregate T =>
    cases v with
    | number | tuple => cases hv
    | struct slots =>
      cases hb : T.isBitfieldStruct with
      | true =>
        obtain ⟨x, rfl⟩ := (wellTyped_bitfieldStruct hb).mp hv
        refine ⟨x.setWidth w, by simp [lowerSetattrUnion, hV, packStruct_bitfields hw hb], ?_⟩
        rw [Data.Shows, if_pos hb, concat_storage, setWidth_mod _ ((bitfieldBits_le_sizeBits hb).trans hsize)]
      | false =>
        have hn := U.names_nodup _ _ (UnionType.mem_of_getVariantType hV)
        have hint : IntegerFields w T := hc.resolve_left (by simp [hb])
        obtain ⟨u, hpack, hval⟩ := packStruct_regular hw hint hb hn hv
        have hlt := concat_lt (fun type ht => (hint.types hb hn type ht).imp fun _ => And.left) ((wellTyped_regular hb hn).mp hv)
        refine ⟨u, by simp [lowerSetattrUnion, hV, hpack], ?_⟩
        rw [Data.Shows, if_neg (by simp [hb]), hval, Nat.mul_div_cancel_left _ (Nat.two_pow_pos _),
          AggregateType.sizeBits_regular hb hn, Nat.mod_eq_of_lt hlt]

theorem same_of_shows {attr : String} {V : Variant} (hV : U.getVariantType attr = some V) (hc : V.Castable w) {v v' : Data}
    (hv : v.HasType V) (hv' : v'.HasType V) {n : Nat} (h : v.Shows n V) (h' : v'.Shows n V) : v'.Same V v := by
  cases V with
  | number t =>
    cases t with
    | float => cases hc
    | integer t =>
      cases v with
      | tuple | struct => cases hv
      | number slot =>
        cases v' with
        | tuple | struct => cases hv'
        | number slot' =>
          obtain ⟨x, rfl⟩ := slot_of_integer hv
          obtain ⟨y, rfl⟩ := slot_of_integer hv'
          have hxy : y = x := BitVec.eq_of_toNat_eq (Eq.trans h' (Eq.symm h))
          rw [hxy]
          rfl
  | uniTuple => cases hc
  | aggregate T =>
    cases v with
    | number | tuple => cases hv
    | struct slots =>
      cases v' with
      | number | tuple => cases hv'
      | struct slots' =>
        cases hb : T.isBitfieldStruct with
        | true =>
          rw [Data.Shows, if_pos hb] at h h'
          rw [Data.Same, if_pos hb, h, h']
        | false =>
          have hn := U.names_nodup _ _ (UnionType.mem_of_getVariantType hV)
          have hint : IntegerFields w T := hc.resolve_left (by simp [hb])
          rw [Data.Shows, if_neg (by simp [hb])] at h h'
          rw [Data.Same, if_neg (by simp [hb])]
          exact concat_inj (fun type ht => (hint.types hb hn type ht).imp fun _ => And.left) ((wellTyped_regular hb hn).mp hv')
            ((wellTyped_regular hb hn).mp hv) (by rw [h, h'])

theorem laws_of_castable (hU : U.width = some w) (hc : ∀ attr V, U.getVariantType attr = some V → V.Castable w) : U.Laws := by
  obtain ⟨hsize, hw, -⟩ := UnionType.width_spec hU
  refine ⟨w, hU, fun attr V hV v hv => ?_⟩
  obtain ⟨u, hwrite, hshows⟩ := write_castable hw.ne' hV ((UnionType.sizeBits_le hV).trans hsize) (hc attr V hV) hv
  refine ⟨u, hwrite, ?_, fun attr' V' hV' => read_castable hV' (hc attr' V' hV') u⟩
  obtain ⟨v', hread, hv', hshows'⟩ := read_castable hV (hc attr V hV) u
  exact ⟨v', hread, same_of_shows hV (hc attr V hV) hv hv' hshows hshows'⟩

/-! ## Unions that do not -/

@[simp] theorem MlirType.zero_type (t : MlirType) : t.zero.type = t := by cases t <;> rfl

theorem mlirZero_wellTyped (T : AggregateType) : WellTyped T T.mlirZero := by
  simp [WellTyped, AggregateType.mlirZero, Function.comp_def]

def KeepsValues (U : UnionType) (w : Nat) (attr : String) (V : Variant) : Prop :=
  ∀ v : Data, v.HasType V → ∃ u : BitVec w, lowerSetattrUnion U w attr v = some u ∧
    ∃ v', lowerUnionTypeGetattr U u attr = some v' ∧ v'.Same V v

theorem KeepsValues.same {attr : String} {V : Variant} (h : KeepsValues U w attr V) (v v' : Data) (hv : v.HasType V) (hv' : v'.HasType V)
    (heq : lowerSetattrUnion U w attr v = lowerSetattrUnion U w attr v') : ∃ r, Data.Same V r v ∧ Data.Same V r v' := by
  obtain ⟨u, hu, r, hr, hs⟩ := h v hv
  obtain ⟨u', hu', r', hr', hs'⟩ := h v' hv'
  have huu : u = u' := Option.some.inj (hu.symm.trans (heq.trans hu'))
  subst huu
  obtain rfl : r = r' := Option.some.inj (hr.symm.trans hr')
  exact ⟨r, hs, hs'⟩

/-- One half, which is truncated to zero. -/
def FloatWidth.half : (f : FloatWidth) → BitVec f.bits
  | f16 => 0x3800#16
  | f32 => 0x3F000000#32
  | f64 => 0x3FE0000000000000#64

theorem toInteger_truncated (hw : 1 < w) {f : FloatWidth} {x : BitVec f.bits} {q : Rat}
    (hx : BinaryFloat.decode f.format x.toNat = .finite q) (hq : q.num.tdiv q.den = 0) : (Slot.float f x).toInteger w = some 0 := by
  have hin : InRange true w 0 := by simp [inRange_signed]
  rw [Slot.toInteger, hx, convertFloatToInteger, if_neg hw.ne']
  simp only [fpToInt, useSignedConversion, Option.getD_none, hw, decide_true, hq, if_pos hin]
  rfl

theorem toInteger_half (hw : 1 < w) (f : FloatWidth) :
    (Slot.float f f.half).toInteger w = some 0 ∧ (Slot.float f 0).toInteger w = some 0 := by
  have hhalf : BinaryFloat.decode f.format f.half.toNat = .finite (1 / 2) := by cases f <;> decide +kernel
  have hzero : BinaryFloat.decode f.format (0 : BitVec f.bits).toNat = .finite 0 := by cases f <;> decide +kernel
  exact ⟨toInteger_truncated hw hhalf (by decide +kernel), toInteger_truncated hw hzero (by decide +kernel)⟩

theorem half_ne_zero (f : FloatWidth) : f.half ≠ 0 := by cases f <;> decide

theorem not_keepsValues_float (hw : 1 < w) {attr : String} {f : FloatWidth} (hV : U.getVariantType attr = some (.number (.float f))) :
    ¬ KeepsValues U w attr (.number (.float f)) := by
  intro h
  obtain ⟨hhalf, hzero⟩ := toInteger_half hw f
  obtain ⟨r, hr, hr'⟩ := h.same (.number (.float f 0)) (.number (.float f f.half)) rfl rfl (by
    simp only [lowerSetattrUnion, hV, Option.bind_eq_bind, Option.bind_some, Data.toInteger, hhalf, hzero])
  have heq : Data.number (.float f 0) = .number (.float f f.half) := Eq.trans (Eq.symm hr) hr'
  simp only [Data.number.injEq, Slot.float.injEq, heq_eq_eq, true_and] at heq
  exact half_ne_zero f heq.symm

theorem not_keepsValues_uniTuple {attr : String} {dtype : NumberType} {count : Nat}
    (hV : U.getVariantType attr = some (.uniTuple dtype count)) : ¬ KeepsValues U w attr (.uniTuple dtype count) := by
  intro h
  obtain ⟨u, hu, -⟩ := h (.tuple (List.replicate count dtype.toFieldType.toMlir.zero)) (by simp [Data.HasType])
  simp [lowerSetattrUnion, hV, Data.toInteger] at hu

/-! ### The fields of a regular struct -/

/-- What the field of a struct puts into the union. -/
def slotPart (w : Nat) (info : FieldInfo) (slot : Slot) : Option (BitVec w) := (slot.toInteger w).bind (shlOffset · info.bitOffset)

theorem packFields_congr {s s' : List Slot} : ∀ {infos : List FieldInfo} {acc : BitVec w},
    (∀ info ∈ infos, (extractvalue info.underlyingType.toMlir s info.fieldIndex).bind (slotPart w info) =
      (extractvalue info.underlyingType.toMlir s' info.fieldIndex).bind (slotPart w info)) →
      packFields s acc infos = packFields s' acc infos
  | [], _, _ => rfl
  | info :: infos, acc, h => by
    have hpack (s : List Slot) : packFields s acc (info :: infos) =
        ((extractvalue info.underlyingType.toMlir s info.fieldIndex).bind (slotPart w info)).bind
          fun shifted => packFields s (acc ||| shifted) infos := by
      simp only [packFields, Option.bind_eq_bind, Option.bind_assoc, slotPart]
    rw [hpack, hpack, h info (by simp)]
    congr 1
    funext shifted
    exact packFields_congr fun info hi => h info (by simp [hi])

theorem mem_placed : ∀ {types : List FieldType} {off index : Nat} {info : FieldInfo}, info ∈ placed off index types →
    info.bitWidth = info.underlyingType.bits ∧ ∃ k, types[k]? = some info.underlyingType ∧ info.fieldIndex = index + k
  | type :: types, off, index, info, h => by
    rcases List.mem_cons.mp h with rfl | h
    · exact ⟨rfl, 0, rfl, rfl⟩
    · obtain ⟨hw, k, hk, hi⟩ := mem_placed h
      exact ⟨hw, k + 1, by simpa using hk, by omega⟩

theorem placed_inj : ∀ {types : List FieldType} {off index : Nat} {info info' : FieldInfo}, info ∈ placed off index types →
    info' ∈ placed off index types → info.fieldIndex = info'.fieldIndex → info = info'
  | type :: types, off, index, info, info', h, h', heq => by
    rcases List.mem_cons.mp h with rfl | h
    · rcases List.mem_cons.mp h' with rfl | h'
      · rfl
      · obtain ⟨-, k, -, hi⟩ := mem_placed h'
        simp only at heq
        omega
    · rcases List.mem_cons.mp h' with rfl | h'
      · obtain ⟨-, k, -, hi⟩ := mem_placed h
        simp only at heq
        omega
      · exact placed_inj h h' heq

theorem KeepsValues.slot_eq_zero {attr : String} {T : AggregateType} (hV : U.getVariantType attr = some (.aggregate T))
    (h : KeepsValues U w attr (.aggregate T)) (hb : T.isBitfieldStruct = false) {info : FieldInfo} (hi : info ∈ T.fieldLayout.values)
    {slot : Slot} (hslot : slot.type = info.underlyingType.toMlir)
    (hpart : slotPart w info slot = slotPart w info info.underlyingType.toMlir.zero) : slot = info.underlyingType.toMlir.zero := by
  obtain ⟨hvalues, hmlir⟩ := AggregateType.values_placed hb (U.names_nodup _ _ (UnionType.mem_of_getVariantType hV))
  rw [hvalues] at hi
  obtain ⟨-, k, hk, hindex⟩ := mem_placed hi
  rw [Nat.zero_add] at hindex
  have hget : T.mlirZero[k]? = some info.underlyingType.toMlir.zero := by
    simp [AggregateType.mlirZero, hmlir, hk]
  have hlt : k < T.mlirZero.length := (List.getElem?_eq_some_iff.mp hget).1
  have hset : WellTyped T (T.mlirZero.set k slot) := by
    have hzero := mlirZero_wellTyped T
    have hlt' : k < (T.mlirZero.map Slot.type).length := by rwa [List.length_map]
    have htype : slot.type = (T.mlirZero.map Slot.type)[k] := by
      rw [hslot, List.getElem_map, (List.getElem?_eq_some_iff.mp hget).2, MlirType.zero_type]
    unfold WellTyped at hzero ⊢
    rw [List.map_set, htype, List.set_getElem_self, hzero]
  obtain ⟨r, hr, hr'⟩ := h.same (.struct T.mlirZero) (.struct (T.mlirZero.set k slot)) (mlirZero_wellTyped T) hset (by
    simp only [lowerSetattrUnion, hV, Option.bind_eq_bind, Option.bind_some, packStruct, hb, Bool.false_eq_true, if_false]
    refine packFields_congr fun info' hi' => ?_
    rw [hvalues] at hi'
    by_cases hne : info'.fieldIndex = k
    · obtain rfl := placed_inj hi' hi (hne.trans hindex.symm)
      simp only [extractvalue, hindex, hget, List.getElem?_set_self hlt, MlirType.zero_type, hslot, if_true, Option.bind_some, hpart]
    · simp only [extractvalue, List.getElem?_set_ne (Ne.symm hne)])
  have heq : T.mlirZero = T.mlirZero.set k slot := by
    cases r with
    | number | tuple => cases hr
    | struct slots =>
      rw [Data.Same, if_neg (by simp [hb])] at hr hr'
      exact hr.symm.trans hr'
  have hk' := congrArg (·[k]?) heq
  simp only [hget, List.getElem?_set_self hlt, Option.some.injEq] at hk'
  exact hk'.symm

theorem shlOffset_top {bits off : Nat} (hbits : 0 < bits) (hend : w < off + bits) :
    shlOffset ((BitVec.twoPow bits (bits - 1)).setWidth w) off = shlOffset ((0 : BitVec bits).setWidth w) off := by
  by_cases hoff : off < w
  · rw [shlOffset_eq hoff, shlOffset_eq hoff]
    congr 1
    apply BitVec.eq_of_getLsbD_eq
    intro i hi
    by_cases hlo : i < off
    · simp [BitVec.getLsbD_shiftLeft, hlo]
    · simp [BitVec.getLsbD_shiftLeft, BitVec.getLsbD_setWidth, BitVec.getLsbD_twoPow, show ¬ bits - 1 = i - off by omega]
  · by_cases h0 : 0 < off
    · simp [shlOffset, shli, h0, hoff]
    · obtain rfl : w = 0 := by omega
      congr 1
      exact Subsingleton.elim _ _

theorem readFields_mem {u : BitVec w} : ∀ {infos : List FieldInfo} {s s' : List Slot}, readFields u s infos = some s' →
    ∀ info ∈ infos, ∃ slot, readBits u info.bitOffset info.bitWidth info.underlyingType = some slot
  | info :: infos, s, s', h, info', hi => by
    simp only [readFields, Option.bind_eq_bind, Option.bind_eq_some_iff] at h
    obtain ⟨slot, hslot, s₁, -, hrest⟩ := h
    rcases List.mem_cons.mp hi with rfl | hi
    · exact ⟨slot, hslot⟩
    · exact readFields_mem hrest info' hi

theorem integerAttr_two_pow {b : Nat} {m : BitVec w} (h : integerAttr w (2 ^ b - 1) = some m) : b ≤ 63 := by
  unfold integerAttr at h
  split at h
  · next hin =>
    by_contra hc
    have hle : (2 : Int) ^ 64 ≤ 2 ^ b := by exact_mod_cast Nat.pow_le_pow_right (by decide) (by omega)
    have := hin.2
    norm_num at this hle
    omega
  · cases h

theorem readBits_type {u : BitVec w} {off : Nat} {type : FieldType} {slot : Slot} (h : readBits u off type.bits type = some slot) :
    type.bits ≤ 63 ∧ ((∃ t, type = .integer t) ∨ ∃ f, type = .float f) := by
  simp only [readBits, Option.bind_eq_bind, Option.bind_eq_some_iff] at h
  obtain ⟨shifted, -, mask, hmask, hconv⟩ := h
  have hbits := integerAttr_two_pow hmask
  refine ⟨hbits, ?_⟩
  cases type with
  | integer t => exact .inl ⟨t, rfl⟩
  | float f => exact .inr ⟨f, rfl⟩
  | boolean | pointer => simp [FieldType.bits] at hbits
  | opaqueType => cases hconv

theorem castable_struct (hw : 1 < w) {attr : String} {T : AggregateType} (hV : U.getVariantType attr = some (.aggregate T))
    (h : KeepsValues U w attr (.aggregate T)) (hb : T.isBitfieldStruct = false) : IntegerFields w T := by
  obtain ⟨u, -, v, hread, -⟩ := h (.struct T.mlirZero) (mlirZero_wellTyped T)
  simp only [lowerUnionTypeGetattr, hV, Option.bind_eq_bind, Option.bind_some, readStruct, hb, Bool.false_eq_true, if_false,
    Option.map_eq_some_iff] at hread
  obtain ⟨slots, hread, -⟩ := hread
  obtain ⟨hvalues, -⟩ := AggregateType.values_placed hb (U.names_nodup _ _ (UnionType.mem_of_getVariantType hV))
  intro info hi
  obtain ⟨slot, hslot⟩ := readFields_mem hread info hi
  have hwidth := (mem_placed (hvalues ▸ hi)).1
  rw [hwidth] at hslot ⊢
  obtain ⟨hbits, ⟨t, ht⟩ | ⟨f, hf⟩⟩ := readBits_type hslot
  · rw [ht, bits_integer] at hbits ⊢
    refine ⟨⟨t, rfl, by omega⟩, ?_⟩
    by_contra hc
    have hpos : 0 < t.bits := t.width.bits_pos
    have hpart : slotPart w info (.int t.bits (.twoPow t.bits (t.bits - 1))) = slotPart w info info.underlyingType.toMlir.zero := by
      simp only [slotPart, ht, FieldType.toMlir, MlirType.zero, Slot.toInteger, convertInteger_none hw.ne', Option.bind_some]
      exact shlOffset_top hpos (by omega)
    have htop := h.slot_eq_zero hV hb hi (by rw [ht]; rfl) hpart
    rw [ht] at htop
    simp only [FieldType.toMlir, MlirType.zero, Slot.int.injEq, heq_eq_eq, true_and] at htop
    have hbit := congrArg (·.getLsbD (t.bits - 1)) htop
    simp [hpos] at hbit
  · obtain ⟨hhalf, hzero⟩ := toInteger_half hw f
    have hpart : slotPart w info (.float f f.half) = slotPart w info info.underlyingType.toMlir.zero := by
      simp only [slotPart, hf, FieldType.toMlir, MlirType.zero, hhalf, hzero]
    have heq := h.slot_eq_zero hV hb hi (by rw [hf]; rfl) hpart
    rw [hf] at heq
    simp only [FieldType.toMlir, MlirType.zero, Slot.float.injEq, heq_eq_eq, true_and] at heq
    exact absurd heq (half_ne_zero f)

theorem castable_of_keepsValues (hw : 1 < w) {attr : String} {V : Variant} (hV : U.getVariantType attr = some V)
    (h : KeepsValues U w attr V) : V.Castable w := by
  cases V with
  | number t =>
    cases t with
    | integer => trivial
    | float => exact not_keepsValues_float hw hV h
  | uniTuple => exact not_keepsValues_uniTuple hV h
  | aggregate T =>
    cases hb : T.isBitfieldStruct with
    | true => exact .inl hb
    | false => exact .inr (castable_struct hw hV h hb)

/-- Unions keep what is written, and show its bits through every variant,
exactly where they have no floats and no tuples, and their structs have
bitfields, or integers of at most 32 bits that end within the union. -/
theorem union_laws_iff (U : UnionType) :
    U.Laws ↔ ∃ w, U.width = some w ∧ ∀ attr V, U.getVariantType attr = some V → V.Castable w := by
  constructor
  · rintro ⟨w, hU, h⟩
    refine ⟨w, hU, fun attr V hV => castable_of_keepsValues (UnionType.width_spec hU).2.1 hV fun v hv => ?_⟩
    obtain ⟨u, hwrite, hread, -⟩ := h attr V hV v hv
    exact ⟨u, hwrite, hread⟩
  · rintro ⟨w, hU, hc⟩
    exact laws_of_castable hU hc

end

/-! ## An integer or a float -/

def numberUnion : UnionType where
  variants := [("as_int", .number (.integer ⟨false, .w32⟩)), ("as_float", .number (.float .f32))]
  names_nodup := by simp

/-- The float 1.5 comes back as 1. -/
theorem float_variant_truncates : ¬ numberUnion.Laws := by
  rintro ⟨w, hw, h⟩
  obtain rfl : 32 = w := Option.some.inj hw
  obtain ⟨u, hwrite, ⟨v, hread, hsame⟩, -⟩ := h "as_float" (.number (.float .f32)) (by rfl) (.number (.float .f32 0x3FC00000#32)) rfl
  have hwrite' : lowerSetattrUnion numberUnion 32 "as_float" (.number (.float .f32 0x3FC00000#32)) = some 1#32 := by decide +kernel
  obtain rfl := Option.some.inj (hwrite.symm.trans hwrite')
  have hread' : lowerUnionTypeGetattr numberUnion 1#32 "as_float" = some (.number (.float .f32 0x3F800000#32)) := by rfl
  obtain rfl := Option.some.inj (hread.symm.trans hread')
  have heq : Data.number (.float .f32 0x3F800000#32) = .number (.float .f32 0x3FC00000#32) := hsame
  exact absurd (congrArg Slot.toNat (Data.number.inj heq)) (by decide)

end NumbaCudaMlir.Aggregate

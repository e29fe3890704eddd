import NumbaCudaMlir.RecordConversions

/-!
# Assignments of items and of elements

The store laws of fields that are no arrays and of the elements of nested
arrays, which lie where the indices are read as what they mean.
-/

namespace NumbaCudaMlir.Record

open ArrayIndex ByteMemory CInt MachineInt
open RecordArray (IndexKind HasKind)
open Aggregate (FloatWidth)

/-! ## Items -/

theorem observeItem_storeValue {t : ItemType} (ht : t.IsNumber) {v : Value} (hv : v.type = t.toMlir) (m : Memory) (a : BitVec 64) :
    observeItem (storeValue m a v) a t = .value v := by
  obtain ⟨hshow, hbytes, hlt⟩ := show_toNat ht hv
  have hsize : t.size ≤ 2 ^ 64 := by
    cases t with
    | integer t => exact (Nat.div_le_self ..).trans (t.width.bits_le.trans (by decide))
    | float w => cases w <;> decide
    | complex w => cases w <;> decide
    | boolean => decide
    | record size => exact absurd rfl (ht size)
  rw [observeItem_eq, storeValue, hbytes, load_store_self m a hsize, Nat.mod_eq_of_lt hlt, hshow]

theorem show_one_ne_zero {type : FieldType} {m' : Memory} {a : BitVec 64}
    (h : type.observe m' (loadField m' a type) = type.observe (fun _ => 1) (loadField (fun _ => 1) a type)) {j : Nat} (hj : j < type.size) :
    m' (a + BitVec.ofNat 64 j) ≠ 0 := by
  have hload : load m' a type.size = load (fun _ => 1) a type.size → m' (a + BitVec.ofNat 64 j) = 1 := fun he => load_eq_iff.mp he j hj
  cases type with
  | nestedArray dtype shape hb => rw [hload (Observation.bytes.inj h)]; decide
  | item t =>
    change observeItem m' a t = observeItem (fun _ => 1) a t at h
    by_cases hb : t = .boolean
    · subst hb
      obtain rfl : j = 0 := by
        have : j < 1 := hj
        omega
      intro hzero
      rw [observeItem_eq, observeItem_eq] at h
      simp [ItemType.show, ItemType.size, load] at h hzero
      simp [hzero] at h
    · rw [observeItem_eq, observeItem_eq, show_inj hb (load_lt ..) (load_lt ..)] at h
      rw [hload h]
      decide

theorem confined_of_keeps {R : RecordType} {p : BitVec 64} {name : String} {offset n : Nat} {m' : Memory} (hn : offset + n < 2 ^ 64)
    (hk : Keeps R p name (fun _ => 1) m') (h0 : ∀ i < n, m' (p + BitVec.ofNat 64 offset + BitVec.ofNat 64 i) = 0) :
    offset ≤ R.size → Confined R name offset n := by
  intro hle
  constructor
  · by_contra hc
    have hout := hk.outside (p + BitVec.ofNat 64 (offset + (R.size - offset))) (by rw [add_ofNat_sub_toNat p (by omega)]; omega)
    rw [← add_ofNat_add, h0 _ (by omega)] at hout
    exact absurd hout (by decide)
  · intro name' f' hne hf' i hi j hj he
    have hread := hk.others (.attr name') (by simpa [Route.names] using hne)
    rw [read_eq hf' rfl, read_eq hf' rfl, Option.some_inj] at hread
    refine show_one_ne_zero hread hj ?_
    rw [add_ofNat_add, ← he, ← add_ofNat_add]
    exact h0 i hi

section
variable (resize : (f g : FloatWidth) → BitVec f.bits → BitVec g.bits)
variable {R : RecordType} {name : String}

theorem lowerSet_item {offset : Nat} {t : ItemType} (hf : R.fields.get name = some ⟨offset, .item t⟩) (m : Memory) (p : BitVec 64)
    (v : Value) (route : SetRoute) : lowerSet resize R m p name (.value v) route =
      (convertItem resize t v).map (storeValue m (p + BitVec.ofNat 64 offset)) := by
  cases route
  all_goals
    simp only [lowerSet, lowerRecordSetattr, lowerRecordStaticSetitemStr, getRecordFieldPtr_eq hf, Option.bind_eq_bind, Option.bind_some,
      storeField]
    cases convertItem resize t v <;> rfl

theorem itemLaws_number_iff {offset : Nat} {s t : ItemType} (hf : R.fields.get name = some ⟨offset, .item t⟩) (hs : s.IsNumber)
    (ht : t.IsNumber) (hc : Castable s t) : ItemLaws resize R name s t ↔ Converts s t := by
  rw [← convertsAs_iff resize hs ht]
  constructor
  · intro h v v' hv hcast
    obtain ⟨m', hset, -, hread⟩ := h (fun _ => 0) 0 v (.value v') .attr hv (by rw [expected_number resize hs, hcast]; rfl)
    rw [lowerSet_item resize hf, convertItem_eq resize hc hv, Option.map_eq_some_iff] at hset
    obtain ⟨w, hw, rfl⟩ := hset
    have hwt := convert_castable resize hc hv hw
    have hattr := hread (.attr name) rfl
    rw [read_eq hf rfl, Option.some_inj] at hattr
    have hshow := observeItem_storeValue ht hwt (fun _ => 0) (0 + BitVec.ofNat 64 offset)
    rw [hw, Observation.value.inj (hshow.symm.trans hattr)]
  · intro h m p v o route hv ho
    rw [expected_number resize hs, Option.map_eq_some_iff] at ho
    obtain ⟨v', hcast, rfl⟩ := ho
    have htype := cast_type resize hcast
    obtain ⟨-, hbytes, -⟩ := show_toNat ht htype
    refine ⟨storeValue m (p + BitVec.ofNat 64 offset) v', ?_, ?_, fun r hr => ?_⟩
    · rw [lowerSet_item resize hf, convertItem_eq resize hc hv, h v v' hv hcast]
      rfl
    · exact keeps_of_confined (confined_self hf) fun b hb => store_of_le (by rwa [hbytes]) _
    · rw [read_eq hf hr]
      exact congrArg some (observeItem_storeValue ht htype m _)

theorem itemLaws_record_iff {offset size : Nat} (hf : R.fields.get name = some ⟨offset, .item (.record size)⟩) :
    ItemLaws resize R name (.record size) (.record size) ↔ size = 0 ∧ Confined R name offset 8 := by
  have hoffset : offset < 2 ^ 56 := offset_lt hf
  have hset : ∀ (m : Memory) (p src : BitVec 64) (route : SetRoute), lowerSet resize R m p name (.value (.pointer src)) route =
      some (store m (p + BitVec.ofNat 64 offset) 8 src.toNat) := fun m p src route => by
    rw [lowerSet_item resize hf]
    rfl
  have hexpected : ∀ (m : Memory) (src : BitVec 64), expected resize m (.record size) (.record size) (.pointer src) =
      some (.bytes (load m src size)) := fun m src => if_pos rfl
  constructor
  · intro h
    obtain ⟨m', hm', hk, hread⟩ := h (fun _ => 1) 0 (.pointer 0) _ .attr rfl (hexpected _ _)
    rw [hset, Option.some_inj] at hm'
    subst hm'
    have hzero : ∀ i < 8, store (fun _ => 1) (0 + BitVec.ofNat 64 offset) 8 (0 : BitVec 64).toNat
        (0 + BitVec.ofNat 64 offset + BitVec.ofNat 64 i) = 0 := by
      intro i hi
      rw [store_at _ _ hi (by decide)]
      simp
    refine ⟨?_, confined_of_keeps (by omega) hk hzero (by have := R.field_le name _ hf; exact (Nat.le_add_right ..).trans this)⟩
    by_contra hsize
    have hattr := hread (.attr name) rfl
    rw [read_eq hf rfl, Option.some_inj] at hattr
    have hbyte := load_eq_iff.mp (Observation.bytes.inj hattr) 0 (Nat.pos_of_ne_zero hsize)
    rw [hzero 0 (by decide)] at hbyte
    exact absurd hbyte (by decide)
  · rintro ⟨rfl, hc⟩ m p v o route hv ho
    cases v with
    | pointer src =>
      rw [hexpected, Option.some_inj] at ho
      refine ⟨_, hset m p src route, keeps_of_confined hc fun b hb => store_of_le hb _, fun r hr => ?_⟩
      rw [read_eq hf hr, ← ho]
      rfl
    | int | float | complex => cases hv

end

/-! ## Indices of elements -/

theorem strides_length (size : Nat) : ∀ shape : List Nat, (strides size shape).length = shape.length
  | [] => rfl
  | _ :: shape => by rw [strides, List.length_cons, List.length_cons, strides_length size shape]

theorem prod_pos {shape : List Nat} (h : shape.prod ≠ 0) : ∀ n ∈ shape, 0 < n := fun n hn =>
  Nat.pos_of_ne_zero fun h0 => h (List.prod_eq_zero_iff_exists_zero_nat.mpr ⟨n, hn, h0⟩)

theorem not_inRange_of_prod {shape : List Nat} {xs : List IndexArg} (h : shape.prod = 0) (hl : xs.length = shape.length) :
    ¬ ArrayIndex.InRange shape xs := RecordArray.not_inRange_of_empty hl (List.prod_eq_zero_iff_exists_zero_nat.mp h)

def extendedReading (kind : IndexKind) (_ : Nat) (v : Int) : Int := RecordArray.extended kind v

theorem byteOffset_eq : ∀ {shape : List Nat} {kinds : List IndexKind} {xs : List IndexArg} {ss : List Nat}, kinds.length = shape.length →
    ss.length = shape.length → List.Forall₂ HasKind xs kinds → byteOffset (xs.map RecordArray.convertIndex) ss =
      BitVec.ofInt 64 (Strided.dot (RecordArray.readings extendedReading shape kinds xs) (ss.map Nat.cast))
  | [], [], xs, ss, _, _, hx => by
    cases hx
    simp [byteOffset, RecordArray.readings]
  | n :: shape, kind :: kinds, x :: xs, s :: ss, hk, hs, hx => by
    obtain ⟨hx, hxs⟩ := List.forall₂_cons.mp hx
    rw [List.map_cons, byteOffset, RecordArray.convertIndex_eq hx, byteOffset_eq (by simpa using hk) (by simpa using hs) hxs,
      RecordArray.readings, List.map_cons, Strided.dot_cons, BitVec.ofInt_add, BitVec.ofInt_mul, BitVec.ofInt_natCast]
    rfl

theorem extends_iff {size : Nat} : ∀ {shape : List Nat} {kinds : List IndexKind}, kinds.length = shape.length → (∀ n ∈ shape, 0 < n) →
    size * shape.prod < 2 ^ 56 →
      ((∀ d ∈ RecordArray.accessDims extendedReading shape kinds ((strides size shape).map Nat.cast) ((strides size shape).map Nat.cast),
        ∀ x, d.1 x → (2 : Int) ^ 64 ∣ d.2 x) ↔ Extends size shape kinds)
  | [], [], _, _, _ => by simp [RecordArray.accessDims, Extends]
  | n :: shape, kind :: kinds, hk, hpos, hsize => by
    have hn : 0 < n := hpos n (by simp)
    have htail : size * shape.prod < 2 ^ 56 := by
      refine lt_of_le_of_lt (Nat.mul_le_mul_left size ?_) hsize
      rw [List.prod_cons]
      exact Nat.le_mul_of_pos_left _ hn
    have hdim := @RecordArray.record_indices_iff kind n _ (size * shape.prod : Nat) hn
      (show size * shape.prod < 2 ^ 63 by omega) (by omega)
    rw [strides, List.map_cons, RecordArray.accessDims, List.forall_mem_cons, Extends,
      extends_iff (by simpa using hk) (fun n hn => hpos n (by simp [hn])) htail]
    refine and_congr_left fun _ => ?_
    simp only [and_imp] at hdim ⊢
    rw [show (∀ x, HasKind x kind → -(n : Int) ≤ x.value → x.value < n → (2 : Int) ^ 64 ∣
      extendedReading kind n x.value * (size * shape.prod : Nat) - coordinate n x.value * (size * shape.prod : Nat)) ↔ _ from hdim]
    simp

theorem extendedReading_zero (kind : IndexKind) (n : Nat) : extendedReading kind n 0 = 0 := rfl

theorem elemPtr_iff {dtype : ItemType} {shape : List Nat} {kinds : List IndexKind} (hk : kinds.length = shape.length)
    (hprod : shape.prod ≠ 0) (hsize : dtype.size * shape.prod < 2 ^ 56) (base : BitVec 64) :
    (∀ xs, List.Forall₂ HasKind xs kinds → ArrayIndex.InRange shape xs →
      computeNestedArrayElemPtr base dtype shape (xs.map RecordArray.convertIndex) =
        elementAddress base dtype shape (coordinates shape xs)) ↔ Extends dtype.size shape kinds := by
  have hpos := prod_pos hprod
  have hs : ((strides dtype.size shape).map (Nat.cast : Nat → Int)).length = shape.length := by rw [List.length_map, strides_length]
  rw [← extends_iff hk hpos hsize, ← RecordArray.accessDims_iff extendedReading extendedReading_zero hk hs hs hpos]
  refine forall_congr' fun xs => forall_congr' fun hxs => forall_congr' fun hr => ?_
  rw [computeNestedArrayElemPtr, elementAddress, byteOffset_eq hk (strides_length _ _) hxs, ← ofInt_eq_ofInt_iff]
  exact BitVec.add_right_inj _

/-! ## Linear offsets -/

theorem dot_strides (size : Nat) : ∀ {shape : List Nat} (c : List Int),
    Strided.dot c ((strides size shape).map Nat.cast) = size * Strided.dot c ((strides 1 shape).map Nat.cast)
  | [], c => by cases c <;> simp [strides, Strided.dot]
  | n :: shape, [] => by simp
  | n :: shape, i :: c => by
    rw [strides, strides, List.map_cons, List.map_cons, Strided.dot_cons, Strided.dot_cons, dot_strides size c]
    push_cast
    ring

theorem exists_linear : ∀ {shape : List Nat} {c : List Int}, InShape shape c →
    ∃ j : Nat, j < shape.prod ∧ Strided.dot c ((strides 1 shape).map Nat.cast) = j
  | [], c, h => by
    cases h
    exact ⟨0, by simp, by simp⟩
  | n :: shape, c, h => by
    cases h with
    | @cons _ i _ is hi his =>
      obtain ⟨j, hj, he⟩ := exists_linear his
      have hi' : i.toNat < n := by omega
      refine ⟨i.toNat * shape.prod + j, ?_, ?_⟩
      · rw [List.prod_cons]
        calc i.toNat * shape.prod + j < i.toNat * shape.prod + shape.prod := by omega
          _ = (i.toNat + 1) * shape.prod := by ring
          _ ≤ n * shape.prod := Nat.mul_le_mul_right _ hi'
      · rw [strides, List.map_cons, Strided.dot_cons, he]
        push_cast
        rw [Int.toNat_of_nonneg hi.1]
        ring

theorem linear_inj : ∀ {shape : List Nat} {c d : List Int}, InShape shape c → InShape shape d →
    Strided.dot c ((strides 1 shape).map Nat.cast) = Strided.dot d ((strides 1 shape).map Nat.cast) → c = d
  | [], c, d, hc, hd, _ => by
    cases hc
    cases hd
    rfl
  | n :: shape, c, d, hc, hd, h => by
    cases hc with
    | @cons _ i _ is hi his =>
      cases hd with
      | @cons _ k _ ks hk hks =>
        obtain ⟨a, ha, hea⟩ := exists_linear his
        obtain ⟨b, hb, heb⟩ := exists_linear hks
        rw [strides, List.map_cons, Strided.dot_cons, Strided.dot_cons, hea, heb, Nat.one_mul] at h
        have hik : i = k := by
          have hpos : (0 : Int) < shape.prod := by omega
          have hdiv : (i * (shape.prod : Int) + a) / (shape.prod : Int) = (k * (shape.prod : Int) + b) / (shape.prod : Int) := by rw [h]
          rwa [Int.add_comm, Int.add_mul_ediv_right _ _ hpos.ne', Int.ediv_eq_zero_of_lt (by omega) (by omega), Int.zero_add,
            Int.add_comm, Int.add_mul_ediv_right _ _ hpos.ne', Int.ediv_eq_zero_of_lt (by omega) (by omega), Int.zero_add] at hdiv
        subst hik
        rw [linear_inj his hks (by omega)]

theorem elementAddress_eq {base : BitVec 64} {dtype : ItemType} {shape : List Nat} {c : List Int} {j : Nat}
    (h : Strided.dot c ((strides 1 shape).map Nat.cast) = (j : Int)) :
    elementAddress base dtype shape c = base + BitVec.ofNat 64 (j * dtype.size) := by
  rw [elementAddress, dot_strides, h, Int.mul_comm, ← Int.natCast_mul, BitVec.ofInt_natCast]

theorem coordinates_inShape : ∀ {shape : List Nat} {xs : List IndexArg}, xs.length = shape.length → ArrayIndex.InRange shape xs →
    InShape shape (coordinates shape xs)
  | [], [], _, _ => .nil
  | n :: shape, x :: xs, hl, hr => by
    refine .cons ?_ (coordinates_inShape (by simpa using hl) hr.2)
    obtain ⟨hlo, hhi⟩ := hr.1
    unfold coordinate
    split <;> omega

theorem element_byte_le {n size j i : Nat} (hj : j < n) (hi : i < size) : j * size + i < size * n := by
  have := Nat.mul_le_mul_left size (Nat.succ_le_of_lt hj)
  rw [Nat.mul_succ, Nat.mul_comm size j] at this
  omega

theorem elements_apart (base : BitVec 64) {n size j k : Nat} (hsize : size * n < 2 ^ 64) (hj : j < n) (hk : k < n) (hne : j ≠ k) :
    Apart (base + BitVec.ofNat 64 (j * size)) size (base + BitVec.ofNat 64 (k * size)) size := by
  intro i hi i' hi' he
  have hij := element_byte_le hj hi
  have hik := element_byte_le hk hi'
  rw [add_ofNat_add, add_ofNat_add, add_ofNat_inj base (by omega) (by omega)] at he
  rcases Nat.lt_or_gt_of_ne hne with hlt | hlt
  · have := Nat.mul_le_mul_right size (Nat.succ_le_of_lt hlt)
    rw [Nat.succ_mul] at this
    omega
  · have := Nat.mul_le_mul_right size (Nat.succ_le_of_lt hlt)
    rw [Nat.succ_mul] at this
    omega

/-! ## Elements -/

theorem store_inside {m : Memory} {a b : BitVec 64} {x n size y : Nat} (hle : x + n ≤ size) (hsize : size ≤ 2 ^ 64)
    (hb : size ≤ (b - a).toNat) : store m (a + BitVec.ofNat 64 x) n y b = m b := by
  refine store_of_le ?_ y
  by_contra hlt
  obtain ⟨i, hi, rfl⟩ := (sub_toNat_lt_iff (by omega)).mp (Nat.lt_of_not_le hlt)
  rw [add_ofNat_add, add_ofNat_sub_toNat a (by omega)] at hb
  omega

theorem exists_outside {a b : BitVec 64} {n : Nat} (hn : 0 < n) (hlt : n < 2 ^ 63) (hne : a ≠ b) :
    ∃ k < n, n ≤ (a + BitVec.ofNat 64 k - b).toNat := by
  by_cases h0 : n ≤ (a - b).toNat
  · exact ⟨0, hn, by simpa using h0⟩
  · obtain ⟨i, hi, rfl⟩ := (sub_toNat_lt_iff (by omega)).mp (Nat.lt_of_not_le h0)
    have hi0 : i ≠ 0 := by
      rintro rfl
      exact hne (by simp)
    refine ⟨n - i, by omega, ?_⟩
    rw [add_ofNat_add, add_ofNat_sub_toNat b (by omega)]
    omega

theorem size_bounds {t : ItemType} (ht : t.IsNumber) : 0 < t.size ∧ t.size ≤ 16 := by
  cases t with
  | integer t => cases h : t.width <;> simp [ItemType.size, IntType.bits, h, Width.bits]
  | float w => cases w <;> decide
  | complex w => cases w <;> decide
  | boolean => decide
  | record size => exact absurd rfl (ht size)

section
variable (resize : (f g : FloatWidth) → BitVec f.bits → BitVec g.bits)
variable {R : RecordType} {name : String} {offset : Nat} {dtype : ItemType} {shape : List Nat} {hb : dtype ≠ .boolean}

theorem readElement_eq (hf : R.fields.get name = some ⟨offset, .nestedArray dtype shape hb⟩) {r : Route} (hr : r.names R = some name)
    (m : Memory) (p : BitVec 64) (index : Index) : readElement R m p r dtype shape index =
      some (observeItem m (computeNestedArrayElemPtr (p + BitVec.ofNat 64 offset) dtype shape
        (index.args.map RecordArray.convertIndex)) dtype) := by
  rw [readElement, lowerGet_eq hf hr]
  rfl

theorem setElement_eq (hf : R.fields.get name = some ⟨offset, .nestedArray dtype shape hb⟩) {r : Route} (hr : r.names R = some name)
    (m : Memory) (p : BitVec 64) (index : Index) (v : Value) : setElement resize R m p r dtype shape index v =
      (convert resize v dtype.toMlir).map (storeValue m (computeNestedArrayElemPtr (p + BitVec.ofNat 64 offset) dtype shape
        (index.args.map RecordArray.convertIndex))) := by
  rw [setElement, lowerGet_eq hf hr, Option.bind_eq_bind, Option.bind_some]
  simp only [loadField, lowerNestedArraySetitem]
  cases convert resize v dtype.toMlir <;> rfl

theorem integerToFloat_zero (f : FloatWidth) : integerToFloat f 0 = 0 := by simp [integerToFloat, BinaryFloat.encodeInt]

theorem exists_cast {s t : ItemType} (hs : s.IsNumber) (ht : t.IsNumber) (hc : Castable s t) :
    ∃ v v', v.type = s.toMlir ∧ cast resize s t v = some v' := by
  cases s with
  | integer a => cases t <;> first | exact ⟨.int a.bits 0, _, rfl, rfl⟩ | exact hc.elim
  | boolean => cases t <;> first | exact ⟨.int 1 0, _, rfl, rfl⟩ | exact hc.elim
  | complex g => cases t <;> first | exact ⟨.complex g 0 0, _, rfl, rfl⟩ | exact hc.elim
  | record size => exact absurd rfl (hs size)
  | float g =>
    cases t with
    | integer b =>
      have hdec : BinaryFloat.decode g.format (0 : BitVec g.bits).toNat = .finite ((0 : Int) : Rat) := by
        have := decode_integerToFloat g 0
        rwa [(BinaryFloat.ofInt_eq_finite_iff g.format 0).mpr ⟨by simp, by simp⟩, integerToFloat_zero] at this
      refine ⟨.float g 0, .int b.bits 0, rfl, ?_⟩
      have hin : InRange b.signed b.bits 0 := by
        have hpos : (0 : Int) < 2 ^ (b.bits - 1) := by positivity
        cases b.signed
        · exact inRange_unsigned.mpr ⟨le_refl _, by positivity⟩
        · exact inRange_signed.mpr ⟨by omega, hpos⟩
      rw [cast]
      simp only [hdec, fpToInt_finite, if_pos hin]
      rfl
    | float f => exact ⟨.float g 0, _, rfl, rfl⟩
    | complex f => exact ⟨.float g 0, _, rfl, rfl⟩
    | boolean => exact ⟨.float g 0, _, rfl, rfl⟩
    | record size => exact hc.elim

theorem elementLaws_of_sound {s : ItemType} {kinds : List IndexKind}
    (hf : R.fields.get name = some ⟨offset, .nestedArray dtype shape hb⟩) (hs : s.IsNumber) (ht : dtype.IsNumber)
    (hk : kinds.length = shape.length) (hprod : shape.prod ≠ 0) (hconv : Converts s dtype) (hext : Extends dtype.size shape kinds) :
    ElementLaws resize R name offset s dtype shape kinds := by
  have hsize : dtype.size * shape.prod < 2 ^ 56 := by
    have := R.field_le name _ hf
    exact (Nat.le_add_left ..).trans_lt (this.trans_lt R.size_lt)
  intro m p v o r index hv ho hr ⟨hkinds, hin⟩
  rw [expected_number resize hs, Option.map_eq_some_iff] at ho
  obtain ⟨v', hcast, rfl⟩ := ho
  have htype := cast_type resize hcast
  obtain ⟨-, hbytes, -⟩ := show_toNat ht htype
  have hptr := (elemPtr_iff hk hprod hsize (p + BitVec.ofNat 64 offset)).mpr hext index.args hkinds hin
  have hshape := coordinates_inShape (hkinds.length_eq.trans hk) hin
  obtain ⟨j, hj, hdot⟩ := exists_linear hshape
  have hwrite := (convertsAs_iff resize hs ht).mpr hconv v v' hv hcast
  refine ⟨storeValue m (computeNestedArrayElemPtr (p + BitVec.ofNat 64 offset) dtype shape (index.args.map RecordArray.convertIndex)) v',
    ?_, ?_, ?_, ?_⟩
  · rw [setElement_eq resize hf hr, hwrite]
    rfl
  · refine keeps_of_confined (confined_self hf) fun b hb => ?_
    rw [hptr, elementAddress_eq hdot]
    refine store_inside ?_ (by omega) hb
    have := Nat.mul_le_mul_left dtype.size (Nat.succ_le_of_lt hj)
    rw [Nat.mul_succ, Nat.mul_comm dtype.size j] at this
    rwa [hbytes]
  · rw [readElement_eq hf hr, observeItem_storeValue ht htype]
  · intro c hcs
    rw [hptr]
    by_cases he : c = coordinates shape index.args
    · rw [if_pos he, he, observeItem_storeValue ht htype]
    · rw [if_neg he, observeItem_eq, observeItem_eq]
      refine congrArg dtype.show (load_store_of_apart (by have := (size_bounds ht).2; omega) ?_ _)
      obtain ⟨k, hk', hdot'⟩ := exists_linear hcs
      have hne : j ≠ k := by
        rintro rfl
        exact he (linear_inj hcs hshape (hdot'.trans hdot.symm))
      rw [hbytes, elementAddress_eq hdot, elementAddress_eq hdot']
      exact elements_apart _ (by omega) hj hk' hne

theorem exists_index {kinds : List IndexKind} (hk : kinds.length = shape.length) (hprod : shape.prod ≠ 0) :
    ∃ index, HasKinds index shape kinds := by
  obtain ⟨xs, hxs, hr⟩ := RecordArray.exists_first hk (prod_pos hprod)
  exact ⟨.tuple xs, hxs, hr⟩

theorem elementLaws_of_empty {s : ItemType} {kinds : List IndexKind} (hk : kinds.length = shape.length) (hprod : shape.prod = 0) :
    ElementLaws resize R name offset s dtype shape kinds :=
  fun _ _ _ _ _ _ _ _ _ hx => absurd hx.2 (not_inRange_of_prod hprod (hx.1.length_eq.trans hk))

theorem elementLaws_number_iff {s : ItemType} {kinds : List IndexKind}
    (hf : R.fields.get name = some ⟨offset, .nestedArray dtype shape hb⟩) (hs : s.IsNumber) (ht : dtype.IsNumber) (hc : Castable s dtype)
    (hk : kinds.length = shape.length) (hprod : shape.prod ≠ 0) :
    ElementLaws resize R name offset s dtype shape kinds ↔ Converts s dtype ∧ Extends dtype.size shape kinds := by
  have hsize : dtype.size * shape.prod < 2 ^ 56 := by
    have := R.field_le name _ hf
    exact (Nat.le_add_left ..).trans_lt (this.trans_lt R.size_lt)
  refine ⟨fun h => ?_, fun ⟨hconv, hext⟩ => elementLaws_of_sound resize hf hs ht hk hprod hconv hext⟩
  have hconv : ConvertsAs resize s dtype := by
    intro v v' hv hcast
    obtain ⟨index, hindex⟩ := exists_index hk hprod
    obtain ⟨m', hset, -, hread, -⟩ :=
      h (fun _ => 0) 0 v (.value v') (.attr name) index hv (by rw [expected_number resize hs, hcast]; rfl) rfl hindex
    rw [setElement_eq resize hf rfl, Option.map_eq_some_iff] at hset
    obtain ⟨w, hw, rfl⟩ := hset
    rw [readElement_eq hf rfl, Option.some_inj, observeItem_storeValue ht (convert_castable resize hc hv hw)] at hread
    rw [hw, Observation.value.inj hread]
  refine ⟨(convertsAs_iff resize hs ht).mp hconv, (elemPtr_iff hk hprod hsize (0 + BitVec.ofNat 64 offset)).mp fun xs hxs hr => ?_⟩
  obtain ⟨v, v', hv, hcast⟩ := exists_cast resize hs ht hc
  obtain ⟨hshow, hbytes, hlt⟩ := show_toNat ht (cast_type resize hcast)
  obtain ⟨hpos, hle⟩ := size_bounds ht
  by_contra hne
  -- a byte of the element that the store does not reach differs from the value's
  obtain ⟨k, hk', hout⟩ := exists_outside hpos (by omega) (Ne.symm hne)
  obtain ⟨m', hset, -, -, helems⟩ :=
    h (fun b => BitVec.ofNat 8 (v'.toNat / 256 ^ (b - elementAddress (0 + BitVec.ofNat 64 offset) dtype shape (coordinates shape xs)).toNat)
      + 1) 0 v (.value v') (.attr name) (.tuple xs) hv (by rw [expected_number resize hs, hcast]; rfl) rfl ⟨hxs, hr⟩
  rw [setElement_eq resize hf rfl, hconv v v' hv hcast, Option.map_some, Option.some_inj] at hset
  have helem := helems _ (coordinates_inShape (hxs.length_eq.trans hk) hr)
  rw [if_pos (show coordinates shape xs = coordinates shape (Index.tuple xs).args from rfl), observeItem_eq, ← hshow, show_inj hb (load_lt ..) hlt] at helem
  have hbyte := load_div_mod (m := m') (a := elementAddress (0 + BitVec.ofNat 64 offset) dtype shape (coordinates shape xs)) hk'
  rw [helem, ← hset, storeValue, store_of_le (by rwa [hbytes]), add_ofNat_sub_toNat _ (by omega), BitVec.toNat_add,
    BitVec.toNat_ofNat] at hbyte
  simp at hbyte
  omega

theorem extends_zero : ∀ (shape : List Nat) (kinds : List IndexKind), Extends 0 shape kinds
  | [], _ | _ :: _, [] => trivial
  | n :: shape, kind :: kinds => ⟨fun _ => by simp, extends_zero shape kinds⟩

theorem elemPtr_empty {kinds : List IndexKind} (hk : kinds.length = shape.length) (base : BitVec 64) {index : Index}
    (hindex : HasKinds index shape kinds) :
    computeNestedArrayElemPtr base (.record 0) shape (index.args.map RecordArray.convertIndex) = base := by
  have hprod : shape.prod ≠ 0 := fun h => not_inRange_of_prod h (hindex.1.length_eq.trans hk) hindex.2
  obtain ⟨j, -, hdot⟩ := exists_linear (coordinates_inShape (hindex.1.length_eq.trans hk) hindex.2)
  have hsize : (ItemType.record 0).size * shape.prod < 2 ^ 56 := by simp [ItemType.size]
  rw [(elemPtr_iff hk hprod hsize base).mpr (extends_zero ..) _ hindex.1 hindex.2, elementAddress_eq hdot]
  simp [ItemType.size]

theorem elementLaws_record_iff {size : Nat} {kinds : List IndexKind} {hb : ItemType.record size ≠ .boolean}
    (hf : R.fields.get name = some ⟨offset, .nestedArray (.record size) shape hb⟩) (hk : kinds.length = shape.length)
    (hprod : shape.prod ≠ 0) :
    ElementLaws resize R name offset (.record size) (.record size) shape kinds ↔ size = 0 ∧ Confined R name offset 8 := by
  have hoffset : offset < 2 ^ 56 := offset_lt hf
  have hset : ∀ (m : Memory) (p src : BitVec 64) (r : Route) (index : Index), r.names R = some name →
      setElement resize R m p r (.record size) shape index (.pointer src) = some (store m
        (computeNestedArrayElemPtr (p + BitVec.ofNat 64 offset) (.record size) shape (index.args.map RecordArray.convertIndex)) 8
        src.toNat) := fun m p src r index hr => by
    rw [setElement_eq resize hf hr]
    rfl
  have hexpected : ∀ (m : Memory) (src : BitVec 64), expected resize m (.record size) (.record size) (.pointer src) =
      some (.bytes (load m src size)) := fun m src => if_pos rfl
  constructor
  · intro h
    obtain ⟨index, hindex⟩ := exists_index hk hprod
    obtain ⟨m', hm', hkeeps, hread, -⟩ := h (fun _ => 1) 0 (.pointer 0) _ (.attr name) index rfl (hexpected _ _) rfl hindex
    rw [hset _ _ _ _ _ rfl, Option.some_inj] at hm'
    subst hm'
    have hempty : size = 0 := by
      by_contra hsize
      rw [readElement_eq hf rfl, Option.some_inj] at hread
      have hbyte := load_eq_iff.mp (Observation.bytes.inj hread) 0 (Nat.pos_of_ne_zero hsize)
      rw [store_at _ _ (by decide) (by decide)] at hbyte
      exact absurd hbyte (by decide)
    subst hempty
    rw [elemPtr_empty hk _ hindex] at hkeeps
    refine ⟨rfl, confined_of_keeps (by omega) hkeeps (fun i hi => ?_) ((Nat.le_add_right ..).trans (R.field_le name _ hf))⟩
    rw [store_at _ _ hi (by decide)]
    simp
  · rintro ⟨rfl, hconf⟩ m p v o r index hv ho hr hindex
    cases v with
    | pointer src =>
      rw [hexpected, Option.some_inj] at ho
      refine ⟨_, hset m p src r index hr, ?_, ?_, fun c hc => ?_⟩
      · rw [elemPtr_empty hk _ hindex]
        exact keeps_of_confined hconf fun b hb => store_of_le hb _
      · rw [readElement_eq hf hr, ← ho]
        rfl
      · rw [← ho]
        split <;> rfl
    | int | float | complex => cases hv

end

end NumbaCudaMlir.Record

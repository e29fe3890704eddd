import NumbaCudaMlir.RecordAccess
import NumbaCudaMlir.RecordItems

/-!
# Alignment of record accesses

Every access assumes the alignment of its type. That divides the addresses
where, for every number in the record, it divides the place in the first
record, the size of the record and that of every nested array's elements. The
translation to LLVM 7 keeps neither smaller alignments nor volatile loads.
-/

namespace NumbaCudaMlir.RecordAccess

open ArrayIndex MachineInt
open Record (Route SetRoute byteOffset dstByteOffset unravel sourceAddress)
open RecordArray (KernelArray convertIndex lowerRecordArrayGetitem recordPointer)

/-! ## Alignments -/

theorem LlvmType.abiAlignment_dvd : ∀ t : LlvmType, t.abiAlignment ∣ 8
  | int w => by cases w <;> decide
  | half => by decide
  | float => by decide
  | double => by decide
  | pointer => by decide
  | pair t => t.abiAlignment_dvd
  | array _ t => t.abiAlignment_dvd

theorem abiAlignment_value (t : NumberType) : t.value.abiAlignment = t.storage.abiAlignment := by
  cases t with
  | integer t => rfl
  | float w => cases w <;> rfl
  | complex w => rfl

theorem eq_of_dvd_eight {a : Nat} (h : a ∣ 8) : a = 1 ∨ a = 2 ∨ a = 4 ∨ a = 8 := by
  have hle := Nat.le_of_dvd (by decide) h
  interval_cases a <;> simp_all

section
variable {a : Nat} {x y : BitVec 64} {k n : Nat}

theorem dvd_add_iff (ha : a ∣ 8) : a ∣ (x + y).toNat + k ↔ a ∣ x.toNat + (y.toNat + k) := by
  rw [BitVec.toNat_add]
  rcases eq_of_dvd_eight ha with rfl | rfl | rfl | rfl <;> omega

theorem dvd_ofNat_iff (ha : a ∣ 8) : a ∣ (BitVec.ofNat 64 n).toNat ↔ a ∣ n := by
  rw [BitVec.toNat_ofNat]
  rcases eq_of_dvd_eight ha with rfl | rfl | rfl | rfl <;> omega

theorem dvd_add_ofNat_iff (ha : a ∣ 8) : a ∣ (x + BitVec.ofNat 64 n).toNat + k ↔ a ∣ x.toNat + (n + k) := by
  rw [dvd_add_iff ha, BitVec.toNat_ofNat]
  rcases eq_of_dvd_eight ha with rfl | rfl | rfl | rfl <;> omega

theorem dvd_mul_ofNat (ha : a ∣ 8) (h : a ∣ n) : a ∣ (x * BitVec.ofNat 64 n).toNat := by
  rw [BitVec.toNat_mul, BitVec.toNat_ofNat, Nat.mul_mod_mod]
  exact (Nat.dvd_mod_iff (ha.trans (by decide))).mpr (Dvd.dvd.mul_left h _)

theorem first_element : x + BitVec.ofInt 64 0 * BitVec.ofNat 64 n = x := by simp

theorem element_before : x + BitVec.ofInt 64 (-1) * BitVec.ofNat 64 n = x + -BitVec.ofNat 64 n := by
  rw [show BitVec.ofInt 64 (-1) = -1#64 from rfl, BitVec.neg_mul, BitVec.one_mul]

theorem dvd_of_neighbours (ha : a ∣ 8) (h : a ∣ x.toNat + k) (h' : a ∣ (x + -BitVec.ofNat 64 n).toNat + k) : a ∣ n := by
  rw [BitVec.toNat_add, BitVec.toNat_neg, BitVec.toNat_ofNat] at h'
  rcases eq_of_dvd_eight ha with rfl | rfl | rfl | rfl <;> omega

end

/-! ## Offsets of elements -/

section
variable {a size : Nat}

theorem dvd_strides (h : a ∣ size) : ∀ {shape : List Nat}, ∀ s ∈ Record.strides size shape, a ∣ s
  | [], _, hs => absurd hs (by simp [Record.strides])
  | _ :: _, s, hs => by
    rcases List.mem_cons.mp hs with rfl | hs
    · exact Dvd.dvd.mul_right h _
    · exact dvd_strides h s hs

theorem dvd_byteOffset (ha : a ∣ 8) : ∀ {strides : List Nat}, (∀ s ∈ strides, a ∣ s) → ∀ indices, a ∣ (byteOffset indices strides).toNat
  | _ :: _, h, index :: indices => by
    have hhead := dvd_mul_ofNat (x := index) ha (h _ (List.mem_cons_self ..))
    have htail := dvd_byteOffset ha (fun s hs => h s (List.mem_cons_of_mem _ hs)) indices
    exact (dvd_add_iff (k := 0) ha).mpr (Nat.dvd_add hhead htail)
  | [], _, [] | [], _, _ :: _ | _ :: _, _, [] => by simp [byteOffset]

theorem dstByteOffset_eq : ∀ (indices strides : List Nat), dstByteOffset indices strides = byteOffset (indices.map (BitVec.ofNat 64)) strides
  | _ :: indices, _ :: strides => by rw [dstByteOffset, dstByteOffset_eq indices strides]; rfl
  | [], [] | [], _ :: _ | _ :: _, [] => rfl

end

/-! ## What a layout holds -/

/-- A type that a layout is accessed by, its offset and the steps at which nested arrays repeat it. -/
inductive Leaf : Layout → Nat → List Nat → LlvmType → Prop
  | scalar (t : ScalarType) : Leaf (.scalar t) 0 [] t.storage
  /-- A record is assigned as a pointer. -/
  | record (fields : Fields) (size : Fin (2 ^ 63)) : Leaf (.record fields size) 0 [] .pointer
  | field {fields : Fields} {size offset : Fin (2 ^ 63)} {name : String} {type : Layout} {k : Nat} {steps : List Nat} {t : LlvmType}
      (h : fields.lookup name = some (offset, type)) (hleaf : Leaf type k steps t) : Leaf (.record fields size) (offset + k) steps t
  | element {dtype : Layout} {extent : Nat} {shape : List Nat} {bitwidth k : Nat} {steps : List Nat} {t : LlvmType}
      (hwidth : dtype.bitwidth = some bitwidth) (hne : (extent :: shape).prod ≠ 0) (hleaf : Leaf dtype k steps t) :
      Leaf (.nestedArray dtype extent shape) k (bitwidth / 8 :: steps) t

def Fits (type : Layout) (p : BitVec 64) : Prop :=
  ∀ k steps t, Leaf type k steps t → t.abiAlignment ∣ p.toNat + k ∧ ∀ s ∈ steps, t.abiAlignment ∣ s

def FieldsFit (fields : Fields) (p : BitVec 64) : Prop :=
  ∀ name offset type, fields.lookup name = some (offset, type) → Fits type (p + BitVec.ofNat 64 offset)

theorem Fits.fields {fields : Fields} {size : Fin (2 ^ 63)} {p : BitVec 64} (h : Fits (.record fields size) p) : FieldsFit fields p := by
  intro name offset type hfield k steps t hleaf
  obtain ⟨hplace, hsteps⟩ := h _ _ _ (.field hfield hleaf)
  exact ⟨(dvd_add_ofNat_iff t.abiAlignment_dvd).mpr hplace, hsteps⟩

theorem Fits.element {dtype : Layout} {extent : Nat} {shape : List Nat} {bitwidth : Nat} {p offset : BitVec 64}
    (h : Fits (.nestedArray dtype extent shape) p) (hwidth : dtype.bitwidth = some bitwidth) (hne : (extent :: shape).prod ≠ 0)
    (hoffset : ∀ a, a ∣ 8 → a ∣ bitwidth / 8 → a ∣ offset.toNat) : Fits dtype (p + offset) := by
  intro k steps t hleaf
  obtain ⟨hplace, hsteps⟩ := h _ _ _ (.element hwidth hne hleaf)
  have hdvd := hoffset _ t.abiAlignment_dvd (hsteps _ (List.mem_cons_self ..))
  refine ⟨(dvd_add_iff t.abiAlignment_dvd).mpr ?_, fun s hs => hsteps s (List.mem_cons_of_mem _ hs)⟩
  rw [Nat.add_left_comm]
  exact Nat.dvd_add hdvd hplace

/-! ## What a kernel reaches -/

structure InBounds (shape : List Nat) (index : Index) : Prop where
  inRange : InRange shape index.args
  length : index.args.length = shape.length

structure Argument where
  fields : Fields
  size : Fin (2 ^ 63)
  array : KernelArray

section
variable (arguments : List Argument)

/-- The pointers to records of the arrays, and to what nests in them. -/
inductive Reaches : Layout → BitVec 64 → Prop
  | record {a : Argument} {index : IndexArg} {p : BitVec 64} (ha : a ∈ arguments) (hindex : InRange a.array.memref.extents [index])
      (h : lowerRecordArrayGetitem a.size a.array [index] = some p) : Reaches (.record a.fields a.size) p
  | field {fields : Fields} {size : Fin (2 ^ 63)} {p q : BitVec 64} {route : Route} {type : Layout} {lowered : Lowered}
      (hp : Reaches (.record fields size) p) (h : lowerGet fields p route = some lowered) (hq : lowered.result = .pointer type q) :
      Reaches type q
  | element {dtype type : Layout} {extent : Nat} {shape : List Nat} {p q : BitVec 64} {index : Index} {lowered : Lowered}
      (hp : Reaches (.nestedArray dtype extent shape) p) (hindex : InBounds (extent :: shape) index)
      (h : lowerNestedArrayGetitem p dtype (extent :: shape) index = some lowered) (hq : lowered.result = .pointer type q) :
      Reaches type q

/-- What is loaded from a source that is an array is no access of the record. -/
def OfRecord (source : Source) : MemoryOp → Prop
  | .load .. => ∀ data strides, source ≠ .memref data strides
  | .store .. | .memcpy .. => True

/-- The accesses of the records; a nested array is assigned from an array or from a nested array that is reached too. -/
inductive Emits : MemoryOp → Prop
  | get {fields : Fields} {size : Fin (2 ^ 63)} {p : BitVec 64} {route : Route} {lowered : Lowered} {op : MemoryOp}
      (hp : Reaches arguments (.record fields size) p) (h : lowerGet fields p route = some lowered) (hop : op ∈ lowered.ops) :
      Emits op
  | set {fields : Fields} {size offset : Fin (2 ^ 63)} {p : BitVec 64} {name : String} {type : Layout} {source : Source}
      {route : SetRoute} {ops : List MemoryOp} {op : MemoryOp} (hp : Reaches arguments (.record fields size) p)
      (hfield : fields.lookup name = some (offset, type)) (hsource : ∀ x, source = .pointer x → Reaches arguments type x)
      (h : lowerSet fields p name source route = some ops) (hop : op ∈ ops) (hof : OfRecord source op) : Emits op
  | getElement {dtype : Layout} {extent : Nat} {shape : List Nat} {p : BitVec 64} {index : Index} {lowered : Lowered} {op : MemoryOp}
      (hp : Reaches arguments (.nestedArray dtype extent shape) p) (hindex : InBounds (extent :: shape) index)
      (h : lowerNestedArrayGetitem p dtype (extent :: shape) index = some lowered) (hop : op ∈ lowered.ops) : Emits op
  | setElement {dtype : Layout} {extent : Nat} {shape : List Nat} {p : BitVec 64} {index : Index} {ops : List MemoryOp} {op : MemoryOp}
      (hp : Reaches arguments (.nestedArray dtype extent shape) p) (hindex : InBounds (extent :: shape) index)
      (h : lowerNestedArraySetitem p dtype (extent :: shape) index = some ops) (hop : op ∈ ops) : Emits op
  | copy {a : Argument} {index : IndexArg} {src : BitVec 64} {ops : List MemoryOp} {op : MemoryOp} (ha : a ∈ arguments)
      (hindex : InRange a.array.memref.extents [index]) (h : lowerRecordArraySetitem a.size a.array [index] src = some ops)
      (hop : op ∈ ops) : Emits op

end

/-- The alignments that are assumed before and after the translation divide the addresses. -/
structure Aligned (op : MemoryOp) : Prop where
  emitted : ∀ x ∈ op.addresses, op.alignment ∣ x.toNat
  translated : ∀ x ∈ (translate op).addresses, (translate op).alignment ∣ x.toNat

theorem aligned_load_iff (t : LlvmType) (p : BitVec 64) : Aligned (load t p) ↔ t.abiAlignment ∣ p.toNat := by
  constructor
  · exact fun h => h.emitted p (List.mem_singleton_self p)
  · intro h
    have hall : ∀ x ∈ [p], t.abiAlignment ∣ x.toNat := fun x hx => List.mem_singleton.mp hx ▸ h
    exact ⟨hall, hall⟩

theorem aligned_store_iff (t : LlvmType) (p : BitVec 64) : Aligned (store t p) ↔ t.abiAlignment ∣ p.toNat := by
  constructor
  · exact fun h => h.emitted p (List.mem_singleton_self p)
  · intro h
    have hall : ∀ x ∈ [p], t.abiAlignment ∣ x.toNat := fun x hx => List.mem_singleton.mp hx ▸ h
    exact ⟨hall, hall⟩

theorem aligned_memcpy (dst src n : BitVec 64) (isVolatile : Bool) : Aligned (.memcpy dst src n isVolatile) :=
  ⟨fun _ _ => one_dvd _, fun _ _ => one_dvd _⟩

/-! ## The lowerings -/

theorem integerAttr_fin (n : Fin (2 ^ 63)) : integerAttr 64 ((n : Nat) : Int) = some (BitVec.ofNat 64 n) := by
  rw [RecordArray.integerAttr_natCast n.isLt, BitVec.ofInt_natCast]

theorem getRecordFieldPtr_eq {fields : Fields} {name : String} {offset : Fin (2 ^ 63)} {type : Layout}
    (h : fields.lookup name = some (offset, type)) (p : BitVec 64) :
    getRecordFieldPtr fields p name = some (p + BitVec.ofNat 64 offset, type) := by
  rw [getRecordFieldPtr, h, Option.bind_eq_bind, Option.bind_some]
  change (integerAttr 64 ((offset : Nat) : Int)).bind _ = _
  rw [integerAttr_fin]
  exact Option.bind_some ..

theorem getRecordFieldPtr_inv {fields : Fields} {p : BitVec 64} {name : String} {r : BitVec 64 × Layout}
    (h : getRecordFieldPtr fields p name = some r) :
    ∃ offset type, fields.lookup name = some (offset, type) ∧ r = (p + BitVec.ofNat 64 offset, type) := by
  cases hfield : fields.lookup name with
  | none => simp [getRecordFieldPtr, hfield] at h
  | some f =>
    rw [getRecordFieldPtr_eq hfield] at h
    exact ⟨f.1, f.2, rfl, (Option.some.inj h).symm⟩

theorem lowerGet_inv {fields : Fields} {p : BitVec 64} {route : Route} {lowered : Lowered} (h : lowerGet fields p route = some lowered) :
    ∃ name offset type, fields.lookup name = some (offset, type) ∧ lowered = loadField (p + BitVec.ofNat 64 offset) type := by
  have hname : ∃ name, lowered ∈ (getRecordFieldPtr fields p name).map fun f => loadField f.1 f.2 := by
    cases route with
    | attr name => exact ⟨name, by simpa [lowerGet, lowerRecordGetattr, Option.map_eq_bind] using h⟩
    | key name => exact ⟨name, by simpa [lowerGet, lowerRecordStaticGetitemStr, Option.map_eq_bind] using h⟩
    | position index =>
      rw [lowerGet, lowerRecordStaticGetitemInt] at h
      split at h
      · cases h
      · obtain ⟨f, -, hf⟩ := Option.bind_eq_some_iff.mp h
        exact ⟨f.1, by simpa [Option.map_eq_bind] using hf⟩
  obtain ⟨name, hname⟩ := hname
  obtain ⟨f, hf, rfl⟩ := Option.map_eq_some_iff.mp hname
  obtain ⟨offset, type, hfield, rfl⟩ := getRecordFieldPtr_inv hf
  exact ⟨name, offset, type, hfield, rfl⟩

theorem lowerGet_attr {fields : Fields} {name : String} {offset : Fin (2 ^ 63)} {type : Layout}
    (h : fields.lookup name = some (offset, type)) (p : BitVec 64) :
    lowerGet fields p (.attr name) = some (loadField (p + BitVec.ofNat 64 offset) type) := by
  rw [lowerGet, lowerRecordGetattr, getRecordFieldPtr_eq h]
  rfl

theorem lowerSet_eq {fields : Fields} {name : String} {offset : Fin (2 ^ 63)} {type : Layout}
    (h : fields.lookup name = some (offset, type)) (p : BitVec 64) (source : Source) (route : SetRoute) :
    lowerSet fields p name source route = storeField (p + BitVec.ofNat 64 offset) source type := by
  cases route with
  | attr => rw [lowerSet, lowerRecordSetattr, getRecordFieldPtr_eq h]; rfl
  | key => rw [lowerSet, lowerRecordStaticSetitemStr, getRecordFieldPtr_eq h]; rfl

theorem lowerNestedArrayGetitem_eq {dtype : Layout} {shape : List Nat} {p q : BitVec 64} {index : Index}
    (hq : elementPtr p dtype shape index = some q) : lowerNestedArrayGetitem p dtype shape index = loadElement q dtype := by
  rw [lowerNestedArrayGetitem, hq]
  rfl

theorem lowerNestedArraySetitem_eq {dtype : Layout} {shape : List Nat} {p q : BitVec 64} {index : Index}
    (hq : elementPtr p dtype shape index = some q) : lowerNestedArraySetitem p dtype shape index = storeElement q dtype := by
  rw [lowerNestedArraySetitem, hq]
  rfl

theorem InBounds.prod_ne_zero {shape : List Nat} {index : Index} (h : InBounds shape index) : shape.prod ≠ 0 := fun h0 =>
  Record.not_inRange_of_prod h0 h.length h.inRange

theorem Fits.elementPtr {dtype : Layout} {extent : Nat} {shape : List Nat} {p q : BitVec 64} {index : Index}
    (h : Fits (.nestedArray dtype extent shape) p) (hindex : InBounds (extent :: shape) index)
    (hq : elementPtr p dtype (extent :: shape) index = some q) : Fits dtype q := by
  obtain ⟨bitwidth, hwidth, hq⟩ := Option.bind_eq_some_iff.mp hq
  rw [← Option.some.inj hq]
  exact h.element hwidth hindex.prod_ne_zero fun a ha hsize => dvd_byteOffset ha (dvd_strides hsize) _

theorem number_aligned {t : NumberType} {p : BitVec 64} (h : Fits (.scalar (.number t)) p) : t.value.abiAlignment ∣ p.toNat := by
  rw [abiAlignment_value]
  exact (h _ _ _ (.scalar (.number t))).1

theorem elementType_aligned {dtype : Layout} {source : Source} {t : LlvmType} {p : BitVec 64} (h : Fits dtype p)
    (ht : elementType dtype source = some t) : t.abiAlignment ∣ p.toNat := by
  unfold elementType at ht
  split at ht
  · split at ht <;> cases ht
    · exact (h _ _ _ (.scalar _)).1
    · exact one_dvd _
  · split at ht <;> cases ht
    · exact (h _ _ _ (.scalar _)).1
    · exact (h _ _ _ (.record ..)).1
  · cases ht

theorem storeNestedArrayField_aligned {dtype : Layout} {extent : Nat} {shape : List Nat} {p : BitVec 64} {source : Source}
    {ops : List MemoryOp} {op : MemoryOp} (hfits : Fits (.nestedArray dtype extent shape) p)
    (hsource : ∀ x, source = .pointer x → Fits (.nestedArray dtype extent shape) x)
    (h : storeNestedArrayField p source dtype (extent :: shape) = some ops) (hop : op ∈ ops) (hof : OfRecord source op) : Aligned op := by
  obtain ⟨bitwidth, hwidth, h⟩ := Option.bind_eq_some_iff.mp h
  obtain ⟨t, ht, h⟩ := Option.bind_eq_some_iff.mp h
  rw [← Option.some.inj h] at hop
  obtain ⟨k, hk, hop⟩ := List.mem_flatMap.mp hop
  have hne : (extent :: shape).prod ≠ 0 := by
    have := List.mem_range.mp hk
    omega
  rcases List.mem_cons.mp hop with rfl | hop
  · cases source with
    | value => cases ht
    | memref data strides => exact absurd rfl (hof data strides)
    | pointer x =>
      refine (aligned_load_iff ..).mpr (elementType_aligned ((hsource x rfl).element hwidth hne fun a ha hsize => ?_) ht)
      exact (dvd_ofNat_iff ha).mpr (Dvd.dvd.mul_left hsize _)
  · obtain rfl := List.mem_singleton.mp hop
    refine (aligned_store_iff ..).mpr (elementType_aligned (hfits.element hwidth hne fun a ha hsize => ?_) ht)
    rw [dstByteOffset_eq]
    exact dvd_byteOffset ha (dvd_strides hsize) _

/-! ## Every access is aligned -/

/-- A record that is reached fits by its fields. -/
def ReachFits : Layout → BitVec 64 → Prop
  | .record fields _, p => FieldsFit fields p
  | type, p => Fits type p

theorem Fits.reach {type : Layout} {p : BitVec 64} (h : Fits type p) : ReachFits type p := by
  cases type with
  | scalar t => exact h
  | record fields size => exact h.fields
  | nestedArray dtype extent shape => exact h

/-- For every number: its alignment divides its place in the first record, the size of the record and the steps. -/
def Argument.Suits (a : Argument) : Prop :=
  ∀ name offset type, a.fields.lookup name = some (offset, type) → ∀ k steps t, Leaf type k steps t →
    t.abiAlignment ∣ a.array.data.toNat + (offset + k) ∧ ∀ s ∈ (a.size : Nat) :: steps, t.abiAlignment ∣ s

theorem lowerRecordArrayGetitem_eq {a : Argument} {index : IndexArg} {p : BitVec 64}
    (h : lowerRecordArrayGetitem a.size a.array [index] = some p) : p = a.array.data + convertIndex index * BitVec.ofNat 64 a.size := by
  rw [lowerRecordArrayGetitem] at h
  split at h
  · rw [recordPointer, RecordArray.integerAttr_natCast a.size.isLt] at h
    exact (Option.some.inj h).symm
  · cases h

theorem Argument.Suits.fieldsFit {a : Argument} (h : a.Suits) {index : IndexArg} {p : BitVec 64}
    (hp : lowerRecordArrayGetitem a.size a.array [index] = some p) : FieldsFit a.fields p := by
  intro name offset type hfield k steps t hleaf
  obtain ⟨hplace, hsteps⟩ := h name offset type hfield k steps t hleaf
  have ha := t.abiAlignment_dvd
  have hrecord := dvd_mul_ofNat (x := convertIndex index) ha (hsteps _ (List.mem_cons_self ..))
  refine ⟨?_, fun s hs => hsteps s (List.mem_cons_of_mem _ hs)⟩
  rw [lowerRecordArrayGetitem_eq hp, dvd_add_ofNat_iff ha, dvd_add_iff ha, Nat.add_left_comm]
  exact Nat.dvd_add hrecord hplace

section
variable {arguments : List Argument} (hsuits : ∀ a ∈ arguments, ∀ n, a.array.memref.extents = [n] → 0 < n → a.Suits)
include hsuits

theorem suits_of_inRange {a : Argument} (ha : a ∈ arguments) {index : IndexArg} {p : BitVec 64}
    (hindex : InRange a.array.memref.extents [index]) (hp : lowerRecordArrayGetitem a.size a.array [index] = some p) : a.Suits := by
  rw [lowerRecordArrayGetitem] at hp
  split at hp
  · next hrank =>
    obtain ⟨n, hn⟩ := List.length_eq_one_iff.mp hrank
    rw [hn] at hindex
    obtain ⟨⟨hlow, hhigh⟩, -⟩ := hindex
    exact hsuits a ha n hn (by omega)
  · cases hp

/-- **What is reached fits.** -/
theorem Reaches.fits {type : Layout} {p : BitVec 64} (h : Reaches arguments type p) : ReachFits type p := by
  induction h with
  | record ha hindex hp => exact (suits_of_inRange hsuits ha hindex hp).fieldsFit hp
  | field _ hlowered hq ih =>
    obtain ⟨name, offset, type, hfield, rfl⟩ := lowerGet_inv hlowered
    have hfits := ih name offset type hfield
    cases type with
    | scalar t => cases hq
    | record fields size =>
      cases hq
      exact hfits.reach
    | nestedArray dtype extent shape =>
      cases hq
      exact hfits.reach
  | element _ hindex hlowered hq ih =>
    obtain ⟨q, hptr, hresult⟩ := Option.bind_eq_some_iff.mp hlowered
    have hfits := Fits.elementPtr ih hindex hptr
    unfold loadElement at hresult
    split at hresult <;> cases hresult
    · cases hq
    · cases hq
      exact hfits.reach

/-- **Every access of a record is aligned.** -/
theorem Emits.aligned {op : MemoryOp} (h : Emits arguments op) : Aligned op := by
  cases h with
  | get hp hlowered hop =>
    obtain ⟨name, offset, type, hfield, rfl⟩ := lowerGet_inv hlowered
    have hfits := hp.fits hsuits name offset type hfield
    cases type with
    | scalar t =>
      obtain rfl := List.mem_singleton.mp hop
      exact (aligned_load_iff ..).mpr (hfits _ _ _ (.scalar t)).1
    | record fields size => cases hop
    | nestedArray dtype extent shape => cases hop
  | @set fields size offset p name type source route ops op hp hfield hsource hlowered hop hof =>
    have hfits := hp.fits hsuits name offset type hfield
    rw [lowerSet_eq hfield] at hlowered
    cases type with
    | scalar t =>
      cases source with
      | value =>
        obtain rfl := Option.some.inj hlowered
        obtain rfl := List.mem_singleton.mp hop
        exact (aligned_store_iff ..).mpr (hfits _ _ _ (.scalar t)).1
      | pointer x => cases hlowered
      | memref data strides => cases hlowered
    | record fields size =>
      cases source with
      | value => cases hlowered
      | pointer x =>
        obtain rfl := Option.some.inj hlowered
        obtain rfl := List.mem_singleton.mp hop
        exact (aligned_store_iff ..).mpr (hfits _ _ _ (.record ..)).1
      | memref data strides => cases hlowered
    | nestedArray dtype extent shape =>
      exact storeNestedArrayField_aligned hfits (fun x hx => (hsource x hx).fits hsuits) hlowered hop hof
  | getElement hp hindex hlowered hop =>
    obtain ⟨q, hptr, hresult⟩ := Option.bind_eq_some_iff.mp hlowered
    have hfits := Fits.elementPtr (hp.fits hsuits) hindex hptr
    unfold loadElement at hresult
    split at hresult <;> cases hresult
    · obtain rfl := List.mem_singleton.mp hop
      exact (aligned_load_iff ..).mpr (number_aligned hfits)
    · cases hop
  | setElement hp hindex hlowered hop =>
    obtain ⟨q, hptr, hresult⟩ := Option.bind_eq_some_iff.mp hlowered
    have hfits := Fits.elementPtr (hp.fits hsuits) hindex hptr
    unfold storeElement at hresult
    split at hresult <;> cases hresult
    · obtain rfl := List.mem_singleton.mp hop
      exact (aligned_store_iff ..).mpr (number_aligned hfits)
    · obtain rfl := List.mem_singleton.mp hop
      exact (aligned_store_iff ..).mpr (hfits _ _ _ (.record ..)).1
  | copy ha hindex hlowered hop =>
    obtain ⟨dest, -, hlowered⟩ := Option.bind_eq_some_iff.mp hlowered
    obtain ⟨n, -, hlowered⟩ := Option.bind_eq_some_iff.mp hlowered
    rw [← Option.some.inj hlowered] at hop
    obtain rfl := List.mem_singleton.mp hop
    exact aligned_memcpy ..

end

/-! ## Every number is accessed -/

/-- The last coordinate is `v` and the others are zero. -/
def lastIndex (v : Int) : List Nat → List IndexArg
  | [] => []
  | [_] => [.const v]
  | _ :: n :: shape => .const 0 :: lastIndex v (n :: shape)

theorem byteOffset_lastIndex (v : Int) (size extent : Nat) : ∀ shape : List Nat,
    byteOffset ((lastIndex v (extent :: shape)).map convertIndex) (Record.strides size (extent :: shape)) = BitVec.ofInt 64 v * BitVec.ofNat 64 size
  | [] => by simp [lastIndex, Record.strides, byteOffset, convertIndex]
  | n :: shape => by
    have ih := byteOffset_lastIndex v size n shape
    rw [lastIndex, List.map_cons, Record.strides, byteOffset, ih]
    simp [convertIndex]

theorem elementPtr_lastIndex {dtype : Layout} {extent bitwidth : Nat} {shape : List Nat} (p : BitVec 64)
    (hwidth : dtype.bitwidth = some bitwidth) (v : Int) : elementPtr p dtype (extent :: shape) (.tuple (lastIndex v (extent :: shape))) =
      some (p + BitVec.ofInt 64 v * BitVec.ofNat 64 (bitwidth / 8)) := by
  rw [elementPtr, computeNestedArrayElemPtr, hwidth, ← byteOffset_lastIndex]
  rfl

theorem lastIndex_length (v : Int) : ∀ shape : List Nat, (lastIndex v shape).length = shape.length
  | [] => rfl
  | [_] => rfl
  | _ :: n :: shape => congrArg Nat.succ (lastIndex_length v (n :: shape))

theorem inRange_lastIndex {v : Int} (hv : v = 0 ∨ v = -1) : ∀ {shape : List Nat}, shape.prod ≠ 0 → InRange shape (lastIndex v shape)
  | [], _ => trivial
  | [n], h => by
    have hn : n ≠ 0 := by simpa using h
    refine ⟨?_, trivial⟩
    change -(n : Int) ≤ v ∧ v < n
    omega
  | m :: n :: shape, h => by
    rw [List.prod_cons] at h
    have hm := left_ne_zero_of_mul h
    refine ⟨?_, inRange_lastIndex hv (right_ne_zero_of_mul h)⟩
    change -(m : Int) ≤ 0 ∧ (0 : Int) < m
    omega

theorem inBounds_lastIndex {shape : List Nat} {v : Int} (h : shape.prod ≠ 0) (hv : v = 0 ∨ v = -1) :
    InBounds shape (.tuple (lastIndex v shape)) := ⟨inRange_lastIndex hv h, lastIndex_length v shape⟩

section
variable {arguments : List Argument}

inductive Located (arguments : List Argument) : Layout → BitVec 64 → Prop
  | field {fields : Fields} {size offset : Fin (2 ^ 63)} {p : BitVec 64} {name : String} {type : Layout}
      (hp : Reaches arguments (.record fields size) p) (hfield : fields.lookup name = some (offset, type)) :
      Located arguments type (p + BitVec.ofNat 64 offset)
  | element {dtype : Layout} {extent : Nat} {shape : List Nat} {p q : BitVec 64} {index : Index}
      (hp : Reaches arguments (.nestedArray dtype extent shape) p) (hindex : InBounds (extent :: shape) index)
      (hq : elementPtr p dtype (extent :: shape) index = some q) : Located arguments dtype q

theorem Located.record {fields : Fields} {size : Fin (2 ^ 63)} {p : BitVec 64} (h : Located arguments (.record fields size) p) :
    Reaches arguments (.record fields size) p := by
  cases h with
  | field hp hfield =>
    exact .field hp (lowerGet_attr hfield _) rfl
  | element hp hindex hq =>
    exact .element hp hindex (lowerNestedArrayGetitem_eq hq) rfl

theorem Located.nestedArray {dtype : Layout} {extent : Nat} {shape : List Nat} {p : BitVec 64}
    (h : Located arguments (.nestedArray dtype extent shape) p) : Reaches arguments (.nestedArray dtype extent shape) p := by
  cases h with
  | field hp hfield =>
    exact .field hp (lowerGet_attr hfield _) rfl
  | element hp hindex hq => cases hq

variable (haligned : ∀ op, Emits arguments op → Aligned op)
include haligned

theorem Located.scalar_aligned {t : ScalarType} {p : BitVec 64} (h : Located arguments (.scalar t) p) :
    t.storage.abiAlignment ∣ p.toNat := by
  cases h with
  | field hp hfield =>
    exact (aligned_load_iff ..).mp (haligned _ (.get hp (lowerGet_attr hfield _) (List.mem_singleton_self _)))
  | element hp hindex hq =>
    cases t with
    | number t =>
      have hload := haligned _ (.getElement hp hindex (lowerNestedArrayGetitem_eq hq) (List.mem_singleton_self _))
      exact abiAlignment_value t ▸ (aligned_load_iff ..).mp hload
    | boolean | datetime | charSeq | unicodeCharSeq => cases hq

theorem Located.record_aligned {fields : Fields} {size : Fin (2 ^ 63)} {p : BitVec 64} (h : Located arguments (.record fields size) p) :
    8 ∣ p.toNat := by
  have hself := h.record
  cases h with
  | @field _ _ offset p name _ hp hfield =>
    have hset := lowerSet_eq hfield p (.pointer (p + BitVec.ofNat 64 offset)) .attr
    have hsource : ∀ x, Source.pointer (p + BitVec.ofNat 64 offset) = .pointer x → Reaches arguments (.record fields size) x :=
      fun x hx => Source.pointer.inj hx ▸ hself
    exact (aligned_store_iff ..).mp (haligned _ (.set hp hfield hsource hset (List.mem_singleton_self _) trivial))
  | element hp hindex hq =>
    exact (aligned_store_iff ..).mp (haligned _ (.setElement hp hindex (lowerNestedArraySetitem_eq hq) (List.mem_singleton_self _)))

/-- **The alignment of an access divides its place and the steps.** -/
theorem Leaf.aligned {type : Layout} {k : Nat} {steps : List Nat} {t : LlvmType} (h : Leaf type k steps t) :
    ∀ p, Located arguments type p → t.abiAlignment ∣ p.toNat + k ∧ ∀ s ∈ steps, t.abiAlignment ∣ s := by
  induction h with
  | scalar t => exact fun p hp => ⟨hp.scalar_aligned haligned, fun _ hs => by cases hs⟩
  | record fields size => exact fun p hp => ⟨hp.record_aligned haligned, fun _ hs => by cases hs⟩
  | field hfield _ ih =>
    intro p hp
    obtain ⟨hplace, hsteps⟩ := ih _ (.field hp.record hfield)
    exact ⟨(dvd_add_ofNat_iff (LlvmType.abiAlignment_dvd _)).mp hplace, hsteps⟩
  | element hwidth hne _ ih =>
    intro p hp
    -- the first element, and the one that the last index -1 gives
    obtain ⟨hplace, hsteps⟩ := ih _ (.element hp.nestedArray (inBounds_lastIndex hne (.inl rfl)) (elementPtr_lastIndex p hwidth 0))
    obtain ⟨hbefore, -⟩ := ih _ (.element hp.nestedArray (inBounds_lastIndex hne (.inr rfl)) (elementPtr_lastIndex p hwidth (-1)))
    rw [first_element] at hplace
    rw [element_before] at hbefore
    have hstep := dvd_of_neighbours (LlvmType.abiAlignment_dvd _) hplace hbefore
    exact ⟨hplace, fun s hs => (List.mem_cons.mp hs).elim (fun h => h ▸ hstep) (hsteps s)⟩

theorem suits_of_aligned {a : Argument} (ha : a ∈ arguments) {n : Nat} (hn : a.array.memref.extents = [n]) (hpos : 0 < n) : a.Suits := by
  have hreaches : ∀ v : Int, v = 0 ∨ v = -1 →
      Reaches arguments (.record a.fields a.size) (a.array.data + BitVec.ofInt 64 v * BitVec.ofNat 64 a.size) := by
    intro v hv
    have hptr : lowerRecordArrayGetitem a.size a.array [.const v] =
        some (a.array.data + BitVec.ofInt 64 v * BitVec.ofNat 64 a.size) := by
      rw [lowerRecordArrayGetitem, if_pos (show RecordArray.rank a.array = 1 from congrArg List.length hn), recordPointer,
        integerAttr_fin]
      rfl
    refine .record ha ?_ hptr
    rw [hn]
    refine ⟨?_, trivial⟩
    change -(n : Int) ≤ v ∧ v < n
    omega
  intro name offset type hfield k steps t hleaf
  have hdvd := t.abiAlignment_dvd
  obtain ⟨hplace, hsteps⟩ := hleaf.aligned haligned _ (.field (hreaches 0 (.inl rfl)) hfield)
  obtain ⟨hbefore, -⟩ := hleaf.aligned haligned _ (.field (hreaches (-1) (.inr rfl)) hfield)
  rw [first_element, dvd_add_ofNat_iff hdvd] at hplace
  rw [element_before, dvd_add_ofNat_iff hdvd] at hbefore
  exact ⟨hplace, fun s hs => (List.mem_cons.mp hs).elim (fun h => h ▸ dvd_of_neighbours hdvd hplace hbefore) (hsteps s)⟩

end

/-! ## Arrays that are assigned -/

def ArrayLoadsAligned (p : BitVec 64) (dtype : Layout) (shape : List Nat) (data : BitVec 64) (strides : List Int) : Prop :=
  ∀ ops, storeNestedArrayField p (.memref data strides) dtype shape = some ops → ∀ type ptr, load type ptr ∈ ops → Aligned (load type ptr)

theorem abiAlignment_dvd_size (t : NumberType) : t.storage.abiAlignment ∣ t.bitwidth / 8 := by
  cases t with
  | integer t => exact dvd_rfl
  | float w => cases w <;> decide
  | complex w => cases w <;> decide

theorem dvd_sourceAddress_iff {a bytes : Nat} (ha : a ∣ 8) (hbytes : a ∣ bytes) (data : BitVec 64) (strides indices : List Int) :
    a ∣ (sourceAddress data bytes strides indices).toNat ↔ a ∣ data.toNat := by
  have hoffset : a ∣ (BitVec.ofInt 64 (bytes * Strided.dot indices strides)).toNat := by
    rw [BitVec.ofInt_mul, BitVec.ofInt_natCast, BitVec.mul_comm]
    exact dvd_mul_ofNat ha hbytes
  rw [sourceAddress, ← Nat.add_zero (BitVec.toNat _), dvd_add_iff ha]
  exact (Nat.dvd_add_iff_left hoffset).symm

theorem arrayLoadsAligned_iff (p : BitVec 64) (dtype : Layout) (shape : List Nat) (data : BitVec 64) (strides : List Int) :
    ArrayLoadsAligned p dtype shape data strides ↔
      ∀ t : NumberType, dtype = .scalar (.number t) → shape.prod ≠ 0 → t.storage.abiAlignment ∣ data.toNat := by
  constructor
  · rintro h t rfl hne
    have hfirst : 0 ∈ List.range shape.prod := List.mem_range.mpr (Nat.pos_of_ne_zero hne)
    have haligned := (aligned_load_iff ..).mp (h _ rfl _ _ (List.mem_flatMap.mpr ⟨0, hfirst, List.mem_cons_self ..⟩))
    exact (dvd_sourceAddress_iff t.storage.abiAlignment_dvd (abiAlignment_dvd_size t) ..).mp haligned
  · intro h ops hops type ptr hmem
    obtain ⟨bitwidth, hwidth, hops⟩ := Option.bind_eq_some_iff.mp hops
    obtain ⟨type', htype, hops⟩ := Option.bind_eq_some_iff.mp hops
    rw [← Option.some.inj hops] at hmem
    obtain ⟨k, hk, hmem⟩ := List.mem_flatMap.mp hmem
    have hne : shape.prod ≠ 0 := by
      have := List.mem_range.mp hk
      omega
    rcases List.mem_cons.mp hmem with heq | hmem
    · cases heq
      rw [aligned_load_iff]
      cases dtype with
      | scalar t =>
        cases t with
        | number t =>
          cases hwidth
          cases htype
          exact (dvd_sourceAddress_iff t.storage.abiAlignment_dvd (abiAlignment_dvd_size t) ..).mpr (h t rfl hne)
        | boolean | datetime | charSeq | unicodeCharSeq => cases hwidth
      | record fields size =>
        cases htype
        exact one_dvd _
      | nestedArray dtype extent shape => cases hwidth
    · cases List.mem_singleton.mp hmem

/-! ## Markers -/

/-- The instruction is volatile where the operation is, and assumes no larger alignment. -/
structure KeepsMarkers (op : MemoryOp) : Prop where
  isVolatile : (translate op).isVolatile = op.isVolatile
  alignment : (translate op).alignment ≤ op.alignment

/-- No load is volatile, and no alignment is smaller than that of the type. -/
def Unmarked : MemoryOp → Prop
  | .load type _ alignment isVolatile => isVolatile = false ∧ ∀ a, alignment = some a → type.abiAlignment ≤ a
  | .store type _ alignment _ => ∀ a, alignment = some a → type.abiAlignment ≤ a
  | .memcpy .. => True

theorem le_getD_iff (alignment : Option Nat) (n : Nat) : n ≤ alignment.getD n ↔ ∀ a, alignment = some a → n ≤ a := by
  cases alignment with
  | none => simp
  | some a => simp

theorem keepsMarkers_iff (op : MemoryOp) : KeepsMarkers op ↔ Unmarked op := by
  cases op with
  | load type ptr alignment isVolatile =>
    exact ⟨fun h => ⟨h.isVolatile.symm, (le_getD_iff ..).mp h.alignment⟩, fun h => ⟨h.1.symm, (le_getD_iff ..).mpr h.2⟩⟩
  | store type ptr alignment isVolatile => exact ⟨fun h => (le_getD_iff ..).mp h.alignment, fun h => ⟨rfl, (le_getD_iff ..).mpr h⟩⟩
  | memcpy dst src n isVolatile => exact ⟨fun _ => trivial, fun _ => ⟨rfl, le_rfl⟩⟩

/-- **Alignment of record accesses.** They are aligned where the layouts suit the arrays, what they load from other
arrays where those are, and the translation keeps the markers it never sees on a load. -/
theorem record_accesses_aligned_iff (arguments : List Argument) (p data : BitVec 64) (dtype : Layout) (shape : List Nat)
    (strides : List Int) (op : MemoryOp) :
    ((∀ op, Emits arguments op → Aligned op) ↔ ∀ a ∈ arguments, ∀ n, a.array.memref.extents = [n] → 0 < n → a.Suits) ∧
      (ArrayLoadsAligned p dtype shape data strides ↔
        ∀ t : NumberType, dtype = .scalar (.number t) → shape.prod ≠ 0 → t.storage.abiAlignment ∣ data.toNat) ∧
      (KeepsMarkers op ↔ Unmarked op) :=
  ⟨⟨fun h _ ha _ hn hpos => suits_of_aligned h ha hn hpos, fun h _ hop => hop.aligned h⟩, arrayLoadsAligned_iff .., keepsMarkers_iff op⟩

def packed : Argument where
  fields := [("a", 0, .scalar (.number (.integer ⟨true, .w8⟩))), ("b", 1, .scalar (.number (.float .f64)))]
  size := 9
  array := ⟨0, ⟨⟨0, [2], [9]⟩, rfl, by decide⟩⟩

theorem packed_misaligned : ¬ (∀ op, Emits [packed] op → Aligned op) ∧ ¬ KeepsMarkers (.load .double 0 none true) ∧
    ¬ KeepsMarkers (.store .double 1 (some 1) false) := by
  refine ⟨fun h => ?_, fun h => Bool.false_ne_true h.isVolatile, fun h => absurd h.alignment (by decide)⟩
  have hsuits := suits_of_aligned h (List.mem_singleton_self packed) rfl (by decide)
  exact absurd (hsuits "b" 1 _ rfl 0 [] _ (.scalar (.number (.float .f64)))).1 (by decide)

end NumbaCudaMlir.RecordAccess

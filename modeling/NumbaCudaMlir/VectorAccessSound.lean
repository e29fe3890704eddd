import NumbaCudaMlir.ArrayIndexSound
import NumbaCudaMlir.VectorAccess

/-!
# Soundness of vector accesses

A transfer touches the elements that its index names where no index is misread
and the elements have addresses of their own. A single access does so for a
vector of one dimension, along a last dimension whose elements lie side by side
(`vector_access_meets_iff`).
-/

namespace NumbaCudaMlir.VectorAccess

open ArrayIndex ByteMemory

/-! ## What an access is for -/

def element (t : ElementType) (m : Memory) (a : BitVec 64) : Value t :=
  storageToValue t (BitVec.ofNat _ (load m a t.bytes))

/-- The elements at `i + p`, for the positions `p` of the vector in order. -/
def Access.elements (shape : List Nat) : Access → List (BitVec 64)
  | unaligned array index | aligned array index _ =>
    (box shape).map fun p => array.address (advance (coordinates array.layout.extents index.args) (getPermutationMap array.rank p))
  | pointer dtype ptr index _ => (box shape).map fun p => ptr + BitVec.ofInt 64 (dtype.bytes * (index.value + p.headD 0))

structure Access.Meets (c : Access) (shape : List Nat) : Prop where
  load : ∀ m, c.load shape m = some ((c.elements shape).map (element c.dtype m))
  store : ∀ m (vec : List (Value c.dtype)), vec.length = (c.elements shape).length →
    ∃ m', c.store shape m vec = some m' ∧ (c.elements shape).map (element c.dtype m') = vec ∧
      (∀ b, Outside c.dtype.bytes (c.elements shape) b → m' b = m b) ∧ c.load shape m' = some vec

structure FitsArray (array : StridedArray) (xs : List IndexArg) (shape : List Nat) : Prop where
  indices : xs.length = array.rank
  inRange : InRange array.layout.extents xs
  rank : shape.length ≤ array.rank
  positive : ∀ n ∈ shape, 0 < n
  inside : ∀ p ∈ box shape, advance (coordinates array.layout.extents xs) (getPermutationMap array.rank p) ∈ box array.layout.extents

/-- Numba's integers have at most 32 bits or 64. -/
def IndexArg.IsInteger : IndexArg → Prop
  | .const _ => True
  | .var _ width _ => width ≤ 32 ∨ width = 64

/-- A pointer has one dimension. The address of an aligned access satisfies its
alignment. -/
def Access.Fits (shape : List Nat) : Access → Prop
  | unaligned array index => FitsArray array index.args shape
  | aligned array index alignment =>
    FitsArray array index.args shape ∧ alignment ∣ (array.address (coordinates array.layout.extents index.args)).toNat
  | pointer dtype ptr index alignment =>
    IndexArg.IsInteger index ∧ (∃ n, shape = [n] ∧ 0 < n ∧ dtype.bytes * n < 2 ^ 63) ∧
      alignment ∣ (ptr + BitVec.ofInt 64 (dtype.bytes * index.value)).toNat

/-! ## Where accesses meet it -/

/-- How far the index that is read lies below the coordinate that is named. -/
def misreading (n : Nat) : IndexArg → Int
  | .const v => if v < 0 then n else 0
  | .var true _ bits => if bits.toInt < 0 then n else 0
  | .var false width bits => if width < 64 ∧ 2 ^ (width - 1) ≤ bits.toNat then 2 ^ width else 0

/-- The misreadings of the indices cancel out, as where all of them are zero. -/
def WellRead (array : StridedArray) (xs : List IndexArg) : Prop :=
  (2 : Int) ^ 64 ∣ array.dtype.bytes * Strided.dot (List.zipWith misreading array.layout.extents xs) array.layout.strides

/-- No two positions of the vector are one element. -/
def Distinct (array : StridedArray) (shape : List Nat) : Prop :=
  ((box shape).map fun p => Strided.dot (getPermutationMap array.rank p) array.layout.strides).Nodup

/-- The elements of a vector of one dimension lie side by side. -/
def Contiguous (array : StridedArray) (shape : List Nat) : Prop :=
  shape.length = 1 ∧ (shape = [1] ∨ array.layout.strides.getLast? = some 1)

/-- The conversion to 64 bits keeps the value: it extends by zeros. -/
def ZeroExtends : IndexArg → Prop
  | .const _ | .var false _ _ => True
  | .var true width bits => 64 ≤ width ∨ 0 ≤ bits.toInt

def Access.Regular (shape : List Nat) : Access → Prop
  | unaligned array index => WellRead array index.args ∧ Distinct array shape
  | aligned array index _ => WellRead array index.args ∧ Contiguous array shape
  | pointer _ _ index _ => ZeroExtends index

/-! ## Elements -/

theorem bytes_pos (t : ElementType) : 0 < t.bytes := by
  cases t with
  | integer width => cases width <;> decide
  | _ => decide

theorem bytes_le (t : ElementType) : t.bytes ≤ 8 := by
  cases t with
  | integer width => cases width <;> decide
  | _ => decide

theorem eight_mul_bytes (t : ElementType) : 8 * t.bytes = t.storageType.width := by
  cases t with
  | integer width => cases width <;> decide
  | _ => decide

theorem valueWidth_pos (t : ElementType) : 0 < t.valueType.width := by
  cases t with
  | integer width => cases width <;> decide
  | _ => decide

theorem valueWidth_le (t : ElementType) : t.valueType.width ≤ t.storageType.width := by
  cases t with
  | integer width => cases width <;> decide
  | _ => decide

theorem storageToValue_eq {t : ElementType} (h : t ≠ .boolean) (x : Storage t) : storageToValue t x = x.setWidth t.valueType.width := by
  cases t with
  | boolean => exact absurd rfl h
  | _ => rfl

theorem boolean_roundTrip : ∀ v : BitVec 1, BitVec.ofBool (v.setWidth 8 != 0) = v := by decide

/-- **The conversions are inverse**, for booleans and floats of a few bits too. -/
theorem storageToValue_valueToStorage (t : ElementType) (v : Value t) : storageToValue t (valueToStorage t v) = v := by
  by_cases h : t = .boolean
  · subst h
    exact boolean_roundTrip v
  · rw [storageToValue_eq h, valueToStorage]
    rw [BitVec.setWidth_setWidth_of_le v (valueWidth_le t), BitVec.setWidth_eq]

theorem read_eq (t : ElementType) (m : Memory) (as : List (BitVec 64)) : read t m as = as.map (element t m) := by
  unfold read storageVectorToValue element
  rw [List.map_map]
  rfl

theorem element_of_mod {t : ElementType} {y : Nat} (hy : y % 256 = 0) :
    storageToValue t (BitVec.ofNat _ y) ≠ storageToValue t (BitVec.ofNat _ 1) := by
  by_cases h : t = .boolean
  · subst h
    have : BitVec.ofNat 8 y = 0 := by
      apply BitVec.eq_of_toNat_eq
      simpa using hy
    show BitVec.ofBool (BitVec.ofNat 8 y != 0) ≠ BitVec.ofBool (BitVec.ofNat 8 1 != 0)
    rw [this]
    decide
  · rw [storageToValue_eq h, storageToValue_eq h]
    intro he
    have hbit := congrArg (·.getLsbD 0) he
    have hpos := valueWidth_pos t
    have hle := valueWidth_le t
    have hy2 : y.testBit 0 = false := by
      rw [Nat.testBit_zero]
      simp
      omega
    simp only [BitVec.getLsbD_setWidth, BitVec.getLsbD_ofNat, hy2, hpos, show 0 < t.storageType.width by omega] at hbit
    simp at hbit

/-! ## The addresses of an access -/

def Access.addresses (shape : List Nat) : Access → Option (List (BitVec 64))
  | unaligned array index => transfer array (index.args.map indexOf) shape
  | aligned array index alignment =>
    (memrefToLlvmPtr array (index.args.map indexOf)).bind fun ptr => llvmAccess array.dtype ptr shape alignment
  | pointer dtype ptr index alignment => llvmAccess dtype (cpointerToElementPtr dtype ptr index) shape alignment

theorem Access.load_eq (c : Access) (shape : List Nat) (m : Memory) :
    c.load shape m = (c.addresses shape).map fun as => as.map (element c.dtype m) := by
  have hread : (fun as : List (BitVec 64) => as.map (element c.dtype m)) = read c.dtype m :=
    funext fun as => (read_eq c.dtype m as).symm
  rw [hread]
  cases c with
  | unaligned array index => cases index <;> rfl
  | aligned array index alignment => cases index <;> exact (Option.map_bind ..).symm
  | pointer dtype ptr index alignment => rfl

theorem Access.store_eq (c : Access) (shape : List Nat) (m : Memory) (vec : List (Value c.dtype)) :
    c.store shape m vec = (c.addresses shape).map fun as => write c.dtype m as vec := by
  cases c with
  | unaligned array index => cases index <;> rfl
  | aligned array index alignment => cases index <;> exact (Option.map_bind ..).symm
  | pointer dtype ptr index alignment => rfl

theorem elements_write {t : ElementType} {as : List (BitVec 64)} (m : Memory) {vec : List (Value t)} (hs : Separate t.bytes as)
    (hl : vec.length = as.length) : as.map (element t (write t m as vec)) = vec := by
  have hn : t.bytes ≤ 2 ^ 64 := by
    have := bytes_le t
    omega
  have hload := @loads_storeAll t.bytes hn as ((valueVectorToStorage t vec).map (·.toNat)) m hs (by simpa [valueVectorToStorage] using hl)
  have hread : as.map (element t (write t m as vec)) =
      (as.map fun a => load (write t m as vec) a t.bytes).map fun x => storageToValue t (BitVec.ofNat _ x) := by
    rw [List.map_map]
    rfl
  rw [hread, write, hload, valueVectorToStorage, List.map_map, List.map_map, List.map_map]
  conv_rhs => rw [← List.map_id vec]
  apply List.map_congr_left
  intro v _
  have hpow : 256 ^ t.bytes = 2 ^ t.storageType.width := by
    rw [← eight_mul_bytes, Nat.pow_mul]
  simp only [Function.comp_apply, hpow, id_eq]
  rw [Nat.mod_eq_of_lt (BitVec.isLt _), BitVec.ofNat_toNat, BitVec.setWidth_eq, storageToValue_valueToStorage]

theorem Access.Meets.of_separate {c : Access} {shape : List Nat} (ha : c.addresses shape = some (c.elements shape))
    (hs : Separate c.dtype.bytes (c.elements shape)) : c.Meets shape where
  load m := by rw [c.load_eq, ha, Option.map_some]
  store m vec hl := by
    refine ⟨write c.dtype m (c.elements shape) vec, ?_, elements_write m hs hl, ?_, ?_⟩
    · rw [c.store_eq, ha, Option.map_some]
    · intro b hb
      exact storeAll_outside m _ hb
    · rw [c.load_eq, ha, Option.map_some, elements_write m hs hl]

theorem Access.Meets.addresses {c : Access} {shape : List Nat} (h : c.Meets shape) : c.addresses shape = some (c.elements shape) := by
  have hload := h.load
  simp only [c.load_eq] at hload
  cases ha : c.addresses shape with
  | none =>
    rw [ha] at hload
    cases hload 0
  | some as =>
    rw [ha] at hload
    congr 1
    have hb := bytes_le c.dtype
    refine eq_of_loads (f := fun x => storageToValue c.dtype (BitVec.ofNat _ x)) (bytes_pos c.dtype) (by omega)
      (fun y hy => element_of_mod hy) fun m => ?_
    exact Option.some.inj (hload m)

theorem Access.Meets.nodup {c : Access} {shape : List Nat} (h : c.Meets shape) : (c.elements shape).Nodup := by
  rw [List.nodup_iff_injective_getElem]
  intro i j he
  by_contra hne
  let vec : List (Value c.dtype) := (List.range (c.elements shape).length).map fun (k : Nat) => if k = i.val then 1 else 0
  obtain ⟨m', -, hvec, -, -⟩ := h.store 0 vec (by simp [vec])
  have hi : element c.dtype m' (c.elements shape)[i] = 1 := by
    have := congrArg (·[i.val]?) hvec
    simpa [vec] using this
  have hj : element c.dtype m' (c.elements shape)[j] = 0 := by
    have := congrArg (·[j.val]?) hvec
    simpa [vec, Ne.symm (fun hv => hne (Fin.ext hv) : i.val ≠ j.val)] using this
  have hone : (1 : Value c.dtype) = 0 := hi.symm.trans ((congrArg _ he).trans hj)
  have hpos := valueWidth_pos c.dtype
  have := congrArg (·.getLsbD 0) hone
  simp at this
  omega

/-! ## Coordinates -/

theorem coordinates_length : ∀ {ns : List Nat} {xs : List IndexArg}, xs.length = ns.length → (coordinates ns xs).length = ns.length
  | [], [], _ => rfl
  | _ :: ns, _ :: xs, h => congrArg (· + 1) (coordinates_length (by simpa using h))

theorem dot_advance : ∀ {xs ys : List Int} (ss : List Int), xs.length = ys.length →
    Strided.dot (advance xs ys) ss = Strided.dot xs ss + Strided.dot ys ss
  | [], [], ss, _ => by simp [advance]
  | x :: xs, y :: ys, [], _ => rfl
  | x :: xs, y :: ys, s :: ss, h => by
    have ih := @dot_advance xs ys ss (by simpa using h)
    simp only [advance, List.zipWith_cons_cons, Strided.dot_cons] at ih ⊢
    rw [ih]
    ring

theorem getPermutationMap_length {rank : Nat} {p : List Int} (h : p.length ≤ rank) : (getPermutationMap rank p).length = rank := by
  simp only [getPermutationMap, List.length_append, List.length_replicate]
  omega

theorem dot_getPermutationMap {s : Int} (k : Int) : ∀ {ss : List Int}, ss.getLast? = some s →
    Strided.dot (getPermutationMap ss.length [k]) ss = k * s
  | [t], h => by
    obtain rfl : t = s := by simpa using h
    simp [getPermutationMap]
  | t :: u :: ss, h => by
    have ih := @dot_getPermutationMap s k (u :: ss) (by simpa using h)
    have hcons : getPermutationMap (t :: u :: ss).length [k] = 0 :: getPermutationMap (u :: ss).length [k] := by
      simp [getPermutationMap, List.replicate_succ]
    rw [hcons, Strided.dot_cons, ih]
    simp

theorem box_one (n : Nat) : box [n] = (List.range n).map fun (k : Nat) => [(k : Int)] := by
  simp [box, List.map_eq_flatMap]

theorem Contiguous.distinct {array : StridedArray} {shape : List Nat} (hc : Contiguous array shape) : Distinct array shape := by
  obtain ⟨hlen, hc⟩ := hc
  obtain ⟨n, hshape⟩ := List.length_eq_one_iff.mp hlen
  unfold Distinct
  rw [hshape, box_one, List.map_map]
  rcases hc with h1 | h1
  · obtain rfl : n = 1 := by simpa [hshape] using h1
    simp
  · refine List.Nodup.map_on (fun i hi j hj he => ?_) List.nodup_range
    simp only [Function.comp_apply, StridedArray.rank, ← array.layout.rank, dot_getPermutationMap _ h1] at he
    omega

/-! ## Misreadings -/

theorem cast_misreading {n : Nat} {x : IndexArg} :
    (2 : Int) ^ 64 ∣ coordinate n x.value - castValue x - misreading n x := by
  have hsigned : ∀ v : Int, coordinate n v - v - (if v < 0 then (n : Int) else 0) = 0 := by
    intro v
    unfold coordinate
    by_cases hv : v < 0
    · rw [if_neg (by omega), if_pos hv]
      ring
    · rw [if_pos (by omega), if_neg hv]
      ring
  cases x with
  | const v =>
    rw [show coordinate n (IndexArg.const v).value - castValue (.const v) - misreading n (.const v) = 0 from hsigned v]
    exact dvd_zero _
  | var signed width bits =>
    cases signed with
    | true =>
      rw [show coordinate n (IndexArg.var true width bits).value - castValue (.var true width bits) - misreading n (.var true width bits) = 0
        from hsigned bits.toInt]
      exact dvd_zero _
    | false =>
      have hc : coordinate n (IndexArg.var false width bits).value = bits.toNat := if_pos (Int.natCast_nonneg _)
      rw [hc]
      simp only [castValue, misreading]
      by_cases hlt : bits.toNat < 2 ^ (width - 1)
      · rw [toInt_of_lt hlt, if_neg (by omega)]
        simp
      · rw [toInt_of_ge (Nat.le_of_not_lt hlt)]
        by_cases hw : width < 64
        · rw [if_pos ⟨hw, Nat.le_of_not_lt hlt⟩]
          simp
        · rw [if_neg fun hc => hw hc.1]
          have hpow : (2 : Int) ^ 64 ∣ 2 ^ width := pow_dvd_pow 2 (by omega)
          simpa using hpow

theorem index_misreading (n : Nat) (x : IndexArg) :
    (2 : Int) ^ 64 ∣ coordinate n x.value - (indexOf x).toInt - misreading n x := by
  have hwrap : (2 : Int) ^ 64 ∣ castValue x - (indexOf x).toInt := by
    rw [indexOf_toInt]
    exact Int.dvd_self_sub_bmod
  have := Int.dvd_add (cast_misreading (n := n) (x := x)) hwrap
  rwa [show coordinate n x.value - castValue x - misreading n x + (castValue x - (indexOf x).toInt) =
    coordinate n x.value - (indexOf x).toInt - misreading n x by ring] at this

/-- **The indices read** and their misreadings make the coordinates. -/
theorem dot_misreading : ∀ {ns : List Nat} {xs : List IndexArg} (ss : List Int), xs.length = ns.length →
    (2 : Int) ^ 64 ∣ Strided.dot (coordinates ns xs) ss - Strided.dot (xs.map fun x => (indexOf x).toInt) ss -
      Strided.dot (List.zipWith misreading ns xs) ss
  | ns, xs, [], _ => by simp [Strided.dot]
  | [], [], s :: ss, _ => by simp [coordinates]
  | n :: ns, x :: xs, s :: ss, h => by
    have ih := dot_misreading ss (show xs.length = ns.length by simpa using h)
    have hone : (2 : Int) ^ 64 ∣ (coordinate n x.value - (indexOf x).toInt - misreading n x) * s :=
      Int.dvd_mul_of_dvd_left (index_misreading n x)
    have := Int.dvd_add hone ih
    simp only [coordinates, List.map_cons, List.zipWith_cons_cons, Strided.dot_cons]
    convert this using 1
    ring

/-! ## Transfers -/

section
variable {array : StridedArray} {xs : List IndexArg} {shape : List Nat} (h : FitsArray array xs shape)
include h

theorem FitsArray.coordinates_length : (coordinates array.layout.extents xs).length = array.rank :=
  VectorAccess.coordinates_length h.indices

theorem FitsArray.position_length {p : List Int} (hp : p ∈ box shape) : (getPermutationMap array.rank p).length = array.rank := by
  apply getPermutationMap_length
  rw [length_of_mem_box hp]
  exact h.rank

theorem FitsArray.box_ne_nil : box shape ≠ [] := by
  intro hb
  exact absurd (h.positive 0 (box_eq_nil_iff.mp hb)) (by decide)

theorem FitsArray.address_eq {p : List Int} (hp : p ∈ box shape) :
    array.address (advance (coordinates array.layout.extents xs) (getPermutationMap array.rank p)) =
      array.base + BitVec.ofInt 64 (array.dtype.bytes * (array.layout.address (coordinates array.layout.extents xs) +
        Strided.dot (getPermutationMap array.rank p) array.layout.strides)) := by
  unfold StridedArray.address Layout.address
  rw [dot_advance _ (h.coordinates_length.trans (h.position_length hp).symm), Int.add_assoc]

theorem FitsArray.read_address_eq {p : List Int} (hp : p ∈ box shape) :
    array.address (advance (xs.map fun x => (indexOf x).toInt) (getPermutationMap array.rank p)) =
      array.base + BitVec.ofInt 64 (array.dtype.bytes * (array.layout.address (xs.map fun x => (indexOf x).toInt) +
        Strided.dot (getPermutationMap array.rank p) array.layout.strides)) := by
  unfold StridedArray.address Layout.address
  rw [dot_advance _ (by rw [List.length_map, h.indices, h.position_length hp]), Int.add_assoc]

theorem FitsArray.wellRead_iff (d : Int) :
    array.base + BitVec.ofInt 64 (array.dtype.bytes * (array.layout.address (xs.map fun x => (indexOf x).toInt) + d)) =
      array.base + BitVec.ofInt 64 (array.dtype.bytes * (array.layout.address (coordinates array.layout.extents xs) + d)) ↔
      WellRead array xs := by
  have hdot := dot_misreading array.layout.strides h.indices
  rw [add_ofInt_inj, WellRead]
  unfold Layout.address
  generalize Strided.dot (coordinates array.layout.extents xs) array.layout.strides = c at hdot ⊢
  generalize Strided.dot (xs.map fun x => (indexOf x).toInt) array.layout.strides = r at hdot ⊢
  generalize Strided.dot (List.zipWith misreading array.layout.extents xs) array.layout.strides = e at hdot ⊢
  have hsum : (2 : Int) ^ 64 ∣ (array.dtype.bytes : Int) * (array.layout.offset + r + d) -
      array.dtype.bytes * (array.layout.offset + c + d) + array.dtype.bytes * e := by
    rw [show (array.dtype.bytes : Int) * (array.layout.offset + r + d) - array.dtype.bytes * (array.layout.offset + c + d) +
      array.dtype.bytes * e = -(array.dtype.bytes : Int) * (c - r - e) by ring]
    exact hdot.mul_left _
  exact Int.dvd_iff_dvd_of_dvd_add hsum

theorem FitsArray.transfer_eq_iff :
    transfer array (xs.map indexOf) shape =
      some ((box shape).map fun p => array.address (advance (coordinates array.layout.extents xs) (getPermutationMap array.rank p))) ↔
      WellRead array xs := by
  unfold transfer
  rw [if_pos ⟨by rw [List.length_map, h.indices], h.rank⟩, Option.some.injEq, List.map_inj_left]
  have hone : ∀ p ∈ box shape, (array.address (advance ((xs.map indexOf).map (·.toInt)) (getPermutationMap array.rank p)) =
      array.address (advance (coordinates array.layout.extents xs) (getPermutationMap array.rank p)) ↔ WellRead array xs) := by
    intro p hp
    rw [h.address_eq hp, List.map_map]
    exact (h.read_address_eq hp).symm ▸ h.wellRead_iff _
  constructor
  · intro hall
    obtain ⟨p, hp⟩ := List.exists_mem_of_ne_nil _ h.box_ne_nil
    exact (hone p hp).mp (hall p hp)
  · intro hw p hp
    exact (hone p hp).mpr hw

theorem FitsArray.distinct_of_nodup (hn : ((box shape).map fun p =>
    array.address (advance (coordinates array.layout.extents xs) (getPermutationMap array.rank p))).Nodup) : Distinct array shape := by
  rw [List.map_congr_left fun p hp => h.address_eq hp] at hn
  refine List.Nodup.of_map (fun d => array.base + BitVec.ofInt 64 (array.dtype.bytes *
    (array.layout.address (coordinates array.layout.extents xs) + d))) ?_
  rwa [List.map_map]

/-- **Elements at a distance are separate**: the array is less than half of the memory. -/
theorem FitsArray.separate (hd : Distinct array shape) : Separate array.dtype.bytes ((box shape).map fun p =>
    array.address (advance (coordinates array.layout.extents xs) (getPermutationMap array.rank p))) := by
  unfold Separate
  rw [List.pairwise_map]
  refine (List.pairwise_map.mp hd).imp_of_mem fun {p q} hp hq hne => ?_
  rw [StridedArray.address, StridedArray.address]
  refine apart_of_multiples ?_ ?_ (array.span _ (h.inside p hp) _ (h.inside q hq))
  · have := bytes_le array.dtype
    omega
  · unfold Layout.address
    rw [dot_advance _ (h.coordinates_length.trans (h.position_length hp).symm),
      dot_advance _ (h.coordinates_length.trans (h.position_length hq).symm)]
    omega

theorem FitsArray.transfer_meets_iff {index : Index} (hx : index.args = xs) :
    (Access.unaligned array index).Meets shape ↔ WellRead array xs ∧ Distinct array shape := by
  subst hx
  constructor
  · intro hm
    exact ⟨h.transfer_eq_iff.mp hm.addresses, h.distinct_of_nodup hm.nodup⟩
  · rintro ⟨hw, hd⟩
    exact .of_separate (h.transfer_eq_iff.mpr hw) (h.separate hd)

/-! ## Single accesses to arrays -/

theorem FitsArray.memrefToLlvmPtr_eq : memrefToLlvmPtr array (xs.map indexOf) =
    some (array.base + BitVec.ofInt 64 (array.dtype.bytes * array.layout.address (xs.map fun x => (indexOf x).toInt))) := by
  have hl : (xs.map indexOf).length = array.rank := by rw [List.length_map, h.indices]
  unfold memrefToLlvmPtr memrefIndexOffset
  rw [if_neg (by omega), if_neg (by omega), Option.map_some, List.map_map]
  unfold memrefDataPointer Layout.address
  rw [BitVec.add_assoc, ← BitVec.ofInt_add, Int.mul_add]
  rfl

theorem FitsArray.exists_last {n : Nat} (hshape : shape = [n]) : ∃ s, array.layout.strides.getLast? = some s := by
  have hrank := h.rank
  have hstrides := array.layout.rank
  subst hshape
  cases hs : array.layout.strides with
  | nil =>
    rw [hs] at hstrides
    unfold StridedArray.rank at hrank
    simp at hstrides hrank
    omega
  | cons s ss => exact ⟨_, List.getLast?_cons⟩

theorem FitsArray.lane_eq {n : Nat} (hshape : shape = [n]) {s : Int} (hs : array.layout.strides.getLast? = some s) {k : Nat} (hk : k < n) :
    array.address (advance (coordinates array.layout.extents xs) (getPermutationMap array.rank [(k : Int)])) =
      array.base + BitVec.ofInt 64 (array.dtype.bytes * (array.layout.address (coordinates array.layout.extents xs) + k * s)) := by
  have hp : [(k : Int)] ∈ box shape := by
    rw [hshape, box_one]
    exact List.mem_map.mpr ⟨k, List.mem_range.mpr hk, rfl⟩
  rw [h.address_eq hp, StridedArray.rank, ← array.layout.rank, dot_getPermutationMap _ hs]

theorem FitsArray.last_small {n : Nat} (hshape : shape = [n]) {s : Int} (hs : array.layout.strides.getLast? = some s) (hn : 2 ≤ n) :
    |(array.dtype.bytes : Int) * s| < 2 ^ 63 := by
  have hmem : ∀ k < 2, [((k : Nat) : Int)] ∈ box shape := by
    intro k hk
    rw [hshape, box_one]
    exact List.mem_map.mpr ⟨k, List.mem_range.mpr (by omega), rfl⟩
  have hspan := array.span _ (h.inside _ (hmem 1 (by decide))) _ (h.inside _ (hmem 0 (by decide)))
  unfold Layout.address at hspan
  rw [dot_advance _ (h.coordinates_length.trans (h.position_length (hmem 1 (by decide))).symm),
    dot_advance _ (h.coordinates_length.trans (h.position_length (hmem 0 (by decide))).symm),
    StridedArray.rank, ← array.layout.rank, dot_getPermutationMap _ hs, dot_getPermutationMap _ hs] at hspan
  convert hspan using 3
  push_cast
  ring

theorem FitsArray.aligned_meets_iff {index : Index} (hx : index.args = xs) {alignment : Nat}
    (halign : alignment ∣ (array.address (coordinates array.layout.extents xs)).toNat) :
    (Access.aligned array index alignment).Meets shape ↔ WellRead array xs ∧ Contiguous array shape := by
  subst hx
  have hstart := h.wellRead_iff 0
  rw [Int.add_zero, Int.add_zero] at hstart
  have haddresses : (Access.aligned array index alignment).addresses shape =
      llvmAccess array.dtype (array.base + BitVec.ofInt 64 (array.dtype.bytes *
        array.layout.address (index.args.map fun x => (indexOf x).toInt))) shape alignment := by
    rw [Access.addresses, h.memrefToLlvmPtr_eq]
    rfl
  by_cases hlen : shape.length = 1
  · obtain ⟨n, hshape⟩ := List.length_eq_one_iff.mp hlen
    obtain ⟨s, hs⟩ := h.exists_last hshape
    have hb := bytes_le array.dtype
    have hlanes := lanes_eq_iff (a := array.base) (x := array.layout.address (index.args.map fun x => (indexOf x).toInt))
      (y := array.layout.address (coordinates array.layout.extents index.args)) (bytes_pos array.dtype) (by omega)
      (h.positive n (by simp [hshape])) (h.last_small hshape hs)
    rw [hstart] at hlanes
    have helements : (Access.aligned array index alignment).elements shape = (List.range n).map fun (k : Nat) =>
        array.base + BitVec.ofInt 64 (array.dtype.bytes * (array.layout.address (coordinates array.layout.extents index.args) + k * s)) := by
      rw [Access.elements, hshape, box_one, List.map_map]
      refine List.map_congr_left fun k hk => ?_
      exact h.lane_eq hshape hs (List.mem_range.mp hk)
    have hcontiguous : Contiguous array shape ↔ n = 1 ∨ s = 1 := by
      simp [Contiguous, hshape, hs]
    rw [hcontiguous, ← hlanes]
    constructor
    · intro hm
      have ha := hm.addresses
      rw [haddresses, helements, hshape, llvmAccess] at ha
      simp only [Option.ite_none_right_eq_some, Option.some.injEq, List.map_inj_left, List.mem_range] at ha
      exact ha.2
    · intro hall
      have hw := hlanes.mp hall
      refine .of_separate ?_ (h.separate (hcontiguous.mpr hw.2).distinct)
      rw [haddresses, helements, hstart.mpr hw.1, hshape, llvmAccess]
      simp only [Option.ite_none_right_eq_some, Option.some.injEq, List.map_inj_left, List.mem_range]
      refine ⟨halign, fun k hk => ?_⟩
      rw [← hstart.mpr hw.1]
      exact hall k hk
  · constructor
    · intro hm
      have ha := hm.addresses
      rw [haddresses] at ha
      match shape, hlen, ha with
      | [], _, ha => cases ha
      | [_], hlen, _ => exact absurd rfl hlen
      | _ :: _ :: _, _, ha => cases ha
    · rintro ⟨-, hc⟩
      exact absurd hc.1 hlen

end

/-! ## Accesses through pointers -/

theorem cpointerToElementPtr_iff {t : ElementType} {ptr : BitVec 64} {index : IndexArg} (hi : IndexArg.IsInteger index) :
    cpointerToElementPtr t ptr index = ptr + BitVec.ofInt 64 (t.bytes * index.value) ↔ ZeroExtends index := by
  have hpos := bytes_pos t
  have hle := bytes_le t
  cases index with
  | const v => exact ⟨fun _ => trivial, fun _ => rfl⟩
  | var signed width bits =>
    rw [cpointerToElementPtr, add_ofInt_inj, ← Int.mul_sub]
    rcases hi with hw | rfl
    · have hbits : (bits.toNat : Int) < 2 ^ 32 := by
        have := bits.isLt
        have := Nat.pow_le_pow_right (n := 2) (by decide) hw
        omega
      have hconvert : (convertInteger none 64 bits).toInt = bits.toNat := by
        have hset : convertInteger none 64 bits = bits.setWidth 64 := by
          unfold convertInteger
          rw [if_neg (by omega), if_neg (by decide)]
        have hnat : (bits.setWidth 64).toNat = bits.toNat := by
          rw [BitVec.toNat_setWidth, Nat.mod_eq_of_lt (by omega)]
        rw [hset, BitVec.toInt_eq_toNat_of_lt (by omega), hnat]
      rw [hconvert]
      cases signed with
      | false =>
        rw [IndexArg.value, Int.sub_self, Int.mul_zero]
        exact ⟨fun _ => trivial, fun _ => dvd_zero _⟩
      | true =>
        rw [IndexArg.value, ZeroExtends]
        by_cases hneg : bits.toInt < 0
        · have hpow : (2 : Int) ^ width ≤ 2 ^ 32 := pow_le_pow_right₀ (by norm_num) hw
          have hpow' : (0 : Int) < 2 ^ width := by positivity
          have hdist : (bits.toNat : Int) - bits.toInt = 2 ^ width := by
            rw [BitVec.toInt_eq_toNat_cond] at hneg ⊢
            split_ifs at hneg ⊢ with hc
            · omega
            · push_cast
              ring
          constructor
          · intro hd
            rw [hdist] at hd
            have := Int.le_of_dvd (by positivity) hd
            nlinarith
          · rintro (h64 | hge) <;> omega
        · have hnat : bits.toInt = bits.toNat := by
            rw [BitVec.toInt_eq_toNat_cond] at hneg ⊢
            split_ifs at hneg ⊢ with hc
            · rfl
            · have := bits.isLt
              push_cast at hneg
              have : (bits.toNat : Int) < 2 ^ width := by exact_mod_cast bits.isLt
              omega
          rw [hnat, Int.sub_self, Int.mul_zero]
          exact ⟨fun _ => .inr (by omega), fun _ => dvd_zero _⟩
    · rw [convertInteger_self]
      have hz : ZeroExtends (.var signed 64 bits) := by
        cases signed
        · trivial
        · exact .inl (le_refl _)
      refine ⟨fun _ => hz, fun _ => ?_⟩
      apply Dvd.dvd.mul_left
      cases signed with
      | true => simp [IndexArg.value]
      | false =>
        rw [IndexArg.value, ← MachineInt.ofInt_eq_ofInt_iff, BitVec.ofInt_toInt, BitVec.ofInt_natCast, BitVec.ofNat_toNat, BitVec.setWidth_eq]

theorem pointer_meets_iff {t : ElementType} {ptr : BitVec 64} {index : IndexArg} {alignment n : Nat} (hi : IndexArg.IsInteger index)
    (hn : 0 < n) (hsize : t.bytes * n < 2 ^ 63) (halign : alignment ∣ (ptr + BitVec.ofInt 64 (t.bytes * index.value)).toNat) :
    (Access.pointer t ptr index alignment).Meets [n] ↔ ZeroExtends index := by
  have helements : (Access.pointer t ptr index alignment).elements [n] =
      (List.range n).map fun (k : Nat) => ptr + BitVec.ofInt 64 (t.bytes * index.value) + BitVec.ofInt 64 (t.bytes * k) := by
    rw [Access.elements, box_one, List.map_map]
    refine List.map_congr_left fun k _ => ?_
    rw [BitVec.add_assoc, ← BitVec.ofInt_add, ← Int.mul_add]
    rfl
  rw [← cpointerToElementPtr_iff hi]
  constructor
  · intro hm
    have ha := hm.addresses
    rw [helements, Access.addresses, llvmAccess] at ha
    simp only [Option.ite_none_right_eq_some, Option.some.injEq, List.map_inj_left, List.mem_range] at ha
    have := ha.2 0 hn
    simpa using this
  · intro hp
    refine .of_separate ?_ ?_
    · rw [helements, Access.addresses, llvmAccess, hp, if_pos halign]
    · rw [helements]
      unfold Separate
      rw [List.pairwise_map]
      refine List.nodup_range.imp_of_mem fun {i j} hi hj hne => ?_
      have hle := bytes_le t
      rw [List.mem_range] at hi hj
      refine apart_of_multiples (by show t.bytes ≤ _; omega) (by omega) ?_
      show |(t.bytes : Int) * ((i : Int) - j)| < 2 ^ 63
      rw [abs_mul, Nat.abs_cast]
      have hdist : |(i : Int) - j| ≤ n := by
        rw [abs_le]
        constructor <;> omega
      calc (t.bytes : Int) * |(i : Int) - j| ≤ t.bytes * n := by gcongr
        _ < 2 ^ 63 := by exact_mod_cast hsize

/-! ## All accesses -/

/-- **Vector accesses** touch the elements they name exactly where the indices
are well read and the layout suits the kind of access. -/
theorem vector_access_meets_iff (c : Access) (shape : List Nat) (h : c.Fits shape) :
    (c.Meets shape ↔ c.Regular shape) ∧
      ∀ vec : List (Value c.dtype), storageVectorToValue c.dtype (valueVectorToStorage c.dtype vec) = vec := by
  constructor
  · cases c with
    | unaligned array index => exact h.transfer_meets_iff rfl
    | aligned array index alignment => exact h.1.aligned_meets_iff rfl h.2
    | pointer t ptr index alignment =>
      obtain ⟨hi, ⟨n, rfl, hn, hsize⟩, halign⟩ := h
      exact pointer_meets_iff hi hn hsize halign
  · intro vec
    unfold storageVectorToValue valueVectorToStorage
    rw [List.map_map]
    conv_rhs => rw [← List.map_id vec]
    exact List.map_congr_left fun v _ => storageToValue_valueToStorage c.dtype v

def everySecond : StridedArray where
  layout := ⟨⟨0, [4], [2]⟩, rfl, by decide⟩
  base := 4096
  dtype := .integer .w32
  span := by decide

theorem everySecond_fits : FitsArray everySecond [.const 1] [2] where
  indices := rfl
  inRange := ⟨⟨by decide, by decide⟩, trivial⟩
  rank := by decide
  positive := by decide
  inside := by decide

/-- An unaligned load follows the stride. -/
theorem unaligned_everySecond : (Access.unaligned everySecond (.scalar (.const 1))).Meets [2] :=
  (vector_access_meets_iff (.unaligned everySecond (.scalar (.const 1))) [2] everySecond_fits).1.mpr ⟨by unfold WellRead; decide, by unfold Distinct; decide⟩

/-- An aligned one reads two elements side by side. -/
theorem aligned_everySecond : (Access.aligned everySecond (.scalar (.const 1)) 8).Fits [2] ∧
    ¬ (Access.aligned everySecond (.scalar (.const 1)) 8).Meets [2] :=
  ⟨⟨everySecond_fits, by decide⟩, fun hm => absurd hm.addresses (by decide)⟩

end NumbaCudaMlir.VectorAccess

import NumbaCudaMlir.ArrayIndexSound
import NumbaCudaMlir.CapturedArraySound
import NumbaCudaMlir.RecordArray

/-!
# Addresses of records and fields

The launcher stores the strides of an array of records in records when the
producer reports none and in bytes otherwise; the record accesses read neither,
and the field views take both for records. Which accesses are right depends on
the index types, since a signed index is extended by zeros.
-/

namespace NumbaCudaMlir.RecordArray

open ArrayIndex CInt MachineInt

/-! ## Arrays on the host -/

structure HostArray where
  type : RecordType
  fields : String
  shape : List Nat
  data : Int
  strides : Option (List Int)
  strides_length : ∀ ss, strides = some ss → ss.length = shape.length
  small : ∀ n ∈ shape, n < 2 ^ 63
  /-- Each dimension spans less than `2 ^ 63` bytes. -/
  fits : List.Forall₂ (fun (n : Nat) (s : Int) => n * s.natAbs < 2 ^ 63) shape
    (NumbaCudaMlir.byteStrides type.size (shape.map Nat.cast) strides)

namespace HostArray

def byteStrides (a : HostArray) : List Int := NumbaCudaMlir.byteStrides a.type.size (a.shape.map Nat.cast) a.strides

def interface (a : HostArray) : InterfaceArray where
  dtype := .void a.fields a.type.size
  shape := a.shape.map Nat.cast
  data := a.data
  strides := a.strides
  strides_length := fun ss h => by rw [a.strides_length ss h, List.length_map]

/-- The strides of the descriptor before they are cut to 64 bits: in bytes
where the producer reports them, in records otherwise. -/
def unitStrides (a : HostArray) : List Int := a.strides.getD (Strided.rowMajor (a.shape.map Nat.cast))

end HostArray

inductive IndexKind where
  | const
  | var (t : IntType)

def HasKind : IndexArg → IndexKind → Prop
  | .const _, .const => True
  | .var signed width _, .var t => signed = t.signed ∧ width = t.bits
  | _, _ => False

/-- The offset of what is accessed in its record. -/
def Access.offset (T : RecordType) : Access → Nat
  | getitem | setitem => 0
  | field attr => match T.fields.get attr with
    | some f => f.offset
    | none => 0

/-- Every access by in-range indices of these kinds touches the record, or the field of it. -/
def Addresses (a : HostArray) (array : KernelArray) (access : Access) (kinds : List IndexKind) : Prop :=
  ∀ xs, List.Forall₂ HasKind xs kinds → InRange a.shape xs →
    lowerAccess a.type array xs access =
      some (BitVec.ofInt 64 (a.data + Strided.dot (coordinates a.shape xs) a.byteStrides + access.offset a.type))

/-! ## Conditions -/

/-- A constant is passed on as a signed integer of 64 bits. -/
def IndexKind.signed : IndexKind → Bool
  | const => true
  | var t => t.signed

def IndexKind.width : IndexKind → Nat
  | const => 64
  | var t => t.bits

/-- Negative indices of the kind, extended by zeros, reach the records from the end on. -/
def IndexKind.Extends (kind : IndexKind) (n size : Nat) : Prop :=
  kind.signed = true → (2 : Int) ^ 64 ∣ (2 ^ kind.width - n) * size

/-- A vector whose records lie one after the other. -/
def RecordIndexed (size : Nat) (shape : List Nat) (strides : List Int) (kinds : List IndexKind) : Prop :=
  ∃ n s kind, shape = [n] ∧ strides = [s] ∧ kinds = [kind] ∧ (n = 1 ∨ s = size) ∧ kind.Extends n size

/-- The values of the kind below `n` survive the cast to `index`. -/
def IndexKind.Keeps (kind : IndexKind) (n : Nat) : Prop :=
  kind.signed = true ∨ 64 ≤ kind.width ∨ n ≤ 2 ^ (kind.width - 1)

/-- The multiplier of the field view takes the stride of the descriptor to the byte stride `s`. -/
def Scaled (a : HostArray) (bytes : Nat) (s : Int) : Prop :=
  match a.strides with
  | none => bytes ∣ a.type.size
  | some _ => (2 : Int) ^ 64 ∣ (bytes * (a.type.size / bytes : Nat) - 1) * s

def FieldStrides (a : HostArray) (bytes : Nat) : List Nat → List Int → List IndexKind → Prop
  | n :: ns, s :: ss, kind :: kinds =>
    (n = 1 ∨ Scaled a bytes s ∧ (s = 0 ∨ kind.Keeps n)) ∧ FieldStrides a bytes ns ss kinds
  | _, _, _ => True

/-- The record or the field lies where the access computes it. -/
def Aligned (a : HostArray) (access : Access) (kinds : List IndexKind) : Prop :=
  match access with
  | .getitem | .setitem => RecordIndexed a.type.size a.shape a.byteStrides kinds
  | .field attr => match a.type.fields.get attr with
    | some ⟨_, .number bytes⟩ => 0 < bytes ∧ FieldStrides a bytes a.shape a.byteStrides kinds
    | some ⟨_, .record size⟩ => 0 < size ∧ RecordIndexed size a.shape a.byteStrides kinds
    | some ⟨_, .other⟩ | none => False

def Addressable (a : HostArray) (access : Access) (kinds : List IndexKind) : Prop :=
  (∃ n ∈ a.shape, n = 0) ∨ Aligned a access kinds

/-! ## Values of indices -/

theorem IndexKind.width_bounds (kind : IndexKind) : 8 ≤ kind.width ∧ kind.width ≤ 64 := by
  cases kind with
  | const => decide
  | var t => cases hw : t.width <;> simp [width, IntType.bits, Width.bits, hw]

theorem value_eq {signed : Bool} {w : Nat} (bits : BitVec w) : (IndexArg.var signed w bits).value = value signed bits := by
  cases signed <;> rfl

theorem exists_arg (kind : IndexKind) (v : Int) (h : MachineInt.InRange kind.signed kind.width v) :
    ∃ x, HasKind x kind ∧ x.value = v := by
  cases kind with
  | const => exact ⟨.const v, trivial, rfl⟩
  | var t =>
    refine ⟨.var t.signed t.bits (BitVec.ofInt t.bits v), ⟨rfl, rfl⟩, ?_⟩
    rw [value_eq]
    exact (value_ofInt_iff t.width.bits_pos t.signed v).mpr h

theorem inRange_small (kind : IndexKind) {v : Int} (h : 0 ≤ v) (hv : v < 2 ^ 7) : MachineInt.InRange kind.signed kind.width v := by
  obtain ⟨hw, -⟩ := kind.width_bounds
  have hle : (2 : Int) ^ 7 ≤ 2 ^ (kind.width - 1) := pow_le_pow_right₀ (by norm_num) (by omega)
  have h2 := two_pow_pred (show 0 < kind.width by omega)
  cases kind.signed
  · rw [inRange_unsigned]
    omega
  · rw [inRange_signed]
    omega

def extended (kind : IndexKind) (v : Int) : Int := if v < 0 then v + 2 ^ kind.width else v

theorem convertIndex_eq {x : IndexArg} {kind : IndexKind} (h : HasKind x kind) :
    convertIndex x = BitVec.ofInt 64 (extended kind x.value) := by
  cases x with
  | const v =>
    cases kind with
    | var => cases h
    | const =>
      have hvalue : (IndexArg.const v).value = v := rfl
      rw [convertIndex, extended, hvalue, ofInt_eq_ofInt_iff]
      by_cases hneg : v < 0
      · rw [if_pos hneg]
        exact ⟨-1, by simp only [IndexKind.width]; omega⟩
      · rw [if_neg hneg, Int.sub_self]
        exact Int.dvd_zero _
  | var signed width bits =>
    cases kind with
    | const => cases h
    | var t =>
      obtain ⟨rfl, rfl⟩ := h
      have hw : (64 : Nat) ≠ 1 := by decide
      rw [convertIndex, convertInteger_eq (.inl hw), value_eq]
      congr 1
      unfold extended
      cases t.signed with
      | false =>
        rw [if_neg (by simp)]
        rfl
      | true =>
        rcases toInt_cases bits with ⟨hpos, heq⟩ | ⟨hneg, heq⟩
        · rw [value_signed, if_neg (by omega), heq]
          rfl
        · rw [value_signed, if_pos hneg, heq, IndexKind.width]
          simp

/-! ## Records -/

theorem integerAttr_natCast {n : Nat} (h : n < 2 ^ 63) : integerAttr 64 (n : Int) = some (BitVec.ofInt 64 n) := by
  rw [integerAttr, if_pos]
  unfold InInt64
  omega

theorem recordPointer_eq {size : Nat} (hsize : size < 2 ^ 63) {array : KernelArray} {b : Int} (hb : array.data = BitVec.ofInt 64 b)
    {x : IndexArg} {kind : IndexKind} (h : HasKind x kind) :
    recordPointer size array x = some (BitVec.ofInt 64 (b + extended kind x.value * size)) := by
  simp only [recordPointer, integerAttr_natCast hsize, Option.bind_eq_bind, Option.bind_some, convertIndex_eq h, hb]
  rw [← BitVec.ofInt_mul, ← BitVec.ofInt_add]
  rfl

theorem record_indices_iff {kind : IndexKind} {n size : Nat} {s : Int} (hn : 0 < n) (hsize : size < 2 ^ 63) (hs : s.natAbs < 2 ^ 63) :
    (∀ x, HasKind x kind → -(n : Int) ≤ x.value ∧ x.value < n →
      (2 : Int) ^ 64 ∣ extended kind x.value * size - coordinate n x.value * s) ↔
      (n = 1 ∨ s = size) ∧ kind.Extends n size := by
  constructor
  · intro h
    have hstride : n = 1 ∨ s = size := by
      by_cases h1 : n = 1
      · exact .inl h1
      · obtain ⟨x, hx, hv⟩ := exists_arg kind 1 (inRange_small kind (by decide) (by decide))
        have hd := h x hx (by omega)
        rw [hv, extended, if_neg (by decide), coordinate, if_pos (by decide), Int.one_mul, Int.one_mul] at hd
        right
        obtain ⟨c, hc⟩ := hd
        omega
    refine ⟨hstride, fun hsigned => ?_⟩
    obtain ⟨hw, -⟩ := kind.width_bounds
    obtain ⟨x, hx, hv⟩ := exists_arg kind (-1) (by
      rw [hsigned, inRange_signed]
      have : (0 : Int) < 2 ^ (kind.width - 1) := by positivity
      omega)
    have hd := h x hx (by omega)
    rw [hv, extended, if_pos (by decide), coordinate, if_neg (by decide)] at hd
    rcases hstride with rfl | rfl
    · simpa [Int.sub_eq_add_neg, Int.add_comm] using hd
    · have : (-1 + 2 ^ kind.width) * (size : Int) - (-1 + n) * size = (2 ^ kind.width - n) * size := by ring
      rwa [this] at hd
  · rintro ⟨hstride, hext⟩ x hx ⟨hl, hu⟩
    by_cases hneg : x.value < 0
    · have hsigned : kind.signed = true := by
        cases x with
        | const v =>
          cases kind with
          | const => rfl
          | var => cases hx
        | var signed width bits =>
          cases kind with
          | const => cases hx
          | var t =>
            obtain ⟨rfl, rfl⟩ := hx
            cases hsg : t.signed with
            | true => exact hsg
            | false =>
              rw [value_eq, hsg, value_unsigned] at hneg
              omega
      rw [extended, if_pos hneg, coordinate, if_neg (by omega)]
      rcases hstride with rfl | rfl
      · have hv : x.value = -1 := by omega
        have := hext hsigned
        rw [hv]
        simpa [Int.sub_eq_add_neg, Int.add_comm] using this
      · have : (x.value + 2 ^ kind.width) * (size : Int) - (x.value + n) * size = (2 ^ kind.width - n) * size := by ring
        rw [this]
        exact hext hsigned
    · rw [extended, if_neg hneg, coordinate, if_pos (by omega)]
      rcases hstride with rfl | rfl
      · have hv : x.value = 0 := by omega
        simp [hv]
      · simp

/-! ## Indices of field views -/

/-- What the cast to `index` and the wrap of negative indices make of a value. -/
def normalized (kind : IndexKind) (n : Nat) (v : Int) : Int :=
  if kind.signed = false ∧ kind.width < 64 ∧ 2 ^ (kind.width - 1) ≤ v then v - 2 ^ kind.width else coordinate n v

theorem keepsValue_iff {x : IndexArg} {kind : IndexKind} (h : HasKind x kind) :
    KeepsValue x ↔ ¬ (kind.signed = false ∧ kind.width < 64 ∧ 2 ^ (kind.width - 1) ≤ x.value) := by
  cases x with
  | const v =>
    cases kind with
    | const => simp [KeepsValue, IndexKind.signed]
    | var => cases h
  | var signed width bits =>
    cases kind with
    | const => cases h
    | var t =>
      obtain ⟨rfl, rfl⟩ := h
      rw [value_eq]
      simp only [IndexKind.signed, IndexKind.width]
      cases t.signed with
      | true => simp [KeepsValue]
      | false =>
        have hcast : ((2 ^ (t.bits - 1) : Nat) : Int) = 2 ^ (t.bits - 1) := by push_cast; rfl
        rw [KeepsValue, value_unsigned]
        simp only [true_and]
        omega

theorem normalizeNegativeIndex_eq {m : MemRef} {x : IndexArg} {kind : IndexKind} {dim n : Nat} (hx : HasKind x kind)
    (hd : m.extents[dim]? = some n) (hl : -(n : Int) ≤ x.value) (hu : x.value < n) :
    (normalizeNegativeIndex m x dim).toInt = normalized kind n x.value := by
  have hn : n < 2 ^ 63 := m.small n (List.mem_of_getElem? hd)
  unfold normalized
  by_cases hk : KeepsValue x
  · rw [if_neg ((keepsValue_iff hx).mp hk)]
    exact (normalizeNegativeIndex_iff hd hl hu).mpr hk
  · have hcond := not_not.mp ((keepsValue_iff hx).not.mp hk)
    rw [if_pos hcond]
    obtain ⟨hsigned, hwidth, hge⟩ := hcond
    cases x with
    | const v => exact absurd trivial hk
    | var signed width bits =>
      cases kind with
      | const => cases hx
      | var t =>
        obtain ⟨rfl, rfl⟩ := hx
        simp only [IndexKind.signed, IndexKind.width] at hsigned hwidth hge ⊢
        rw [value_eq, hsigned, value_unsigned] at *
        have hge' : 2 ^ (t.bits - 1) ≤ bits.toNat := by exact_mod_cast hge
        have hpow : (2 : Int) ^ t.bits ≤ 2 ^ 63 := pow_le_pow_right₀ (by norm_num) (by omega)
        have hin : InInt64 ((bits.toNat : Int) - 2 ^ t.bits) := by
          have hpos : (0 : Int) < 2 ^ t.bits := by positivity
          unfold InInt64
          omega
        simp only [normalizeNegativeIndex, indexOf_toInt, castValue]
        rw [toInt_of_ge hge', wrap64_eq hin]

theorem normalized_of_small {kind : IndexKind} {n : Nat} {v : Int} (hv : v < 2 ^ 7) : normalized kind n v = coordinate n v := by
  obtain ⟨hw, -⟩ := kind.width_bounds
  have hle : (2 : Int) ^ 7 ≤ 2 ^ (kind.width - 1) := pow_le_pow_right₀ (by norm_num) (by omega)
  rw [normalized, if_neg]
  rintro ⟨-, -, h⟩
  omega

theorem normalized_zero (kind : IndexKind) (n : Nat) : normalized kind n 0 = 0 := by rw [normalized_of_small (by decide), coordinate, if_pos (le_refl _)]

theorem element_indices_iff (kind : IndexKind) (t : Int) {n : Nat} {s : Int} (hn : 0 < n) (hs : n * s.natAbs < 2 ^ 63) :
    (∀ x, HasKind x kind → -(n : Int) ≤ x.value ∧ x.value < n →
      (2 : Int) ^ 64 ∣ normalized kind n x.value * t - coordinate n x.value * s) ↔
      n = 1 ∨ (2 : Int) ^ 64 ∣ t - s ∧ (s = 0 ∨ kind.Keeps n) := by
  obtain ⟨hw8, -⟩ := kind.width_bounds
  have htwo := two_pow_pred (show 0 < kind.width by omega)
  constructor
  · intro h
    by_cases h1 : n = 1
    · exact .inl h1
    · have hone : (2 : Int) ^ 64 ∣ t - s := by
        obtain ⟨x, hx, hv⟩ := exists_arg kind 1 (inRange_small kind (by decide) (by decide))
        have hd := h x hx (by omega)
        rw [hv, normalized_of_small (by decide), coordinate, if_pos (by decide)] at hd
        simpa using hd
      refine .inr ⟨hone, ?_⟩
      by_contra hc
      rw [not_or, IndexKind.Keeps, not_or, not_or] at hc
      obtain ⟨hs0, hsigned, hw, hnk⟩ := hc
      rw [Bool.not_eq_true] at hsigned
      have hpos : (0 : Int) < 2 ^ (kind.width - 1) := by positivity
      have hcast : ((2 ^ (kind.width - 1) : Nat) : Int) = 2 ^ (kind.width - 1) := by push_cast; rfl
      -- the first value that is read as a negative one
      obtain ⟨x, hx, hv⟩ := exists_arg kind (2 ^ (kind.width - 1)) (by
        rw [hsigned, inRange_unsigned]
        omega)
      have hd := h x hx (by omega)
      rw [hv, normalized, if_pos ⟨hsigned, by omega, le_refl _⟩, coordinate, if_pos (by omega)] at hd
      have hsum := Int.dvd_add hd (hone.mul_left (2 ^ (kind.width - 1)))
      have heq : (2 ^ (kind.width - 1) - 2 ^ kind.width) * t - 2 ^ (kind.width - 1) * s + 2 ^ (kind.width - 1) * (t - s) =
          -(2 ^ kind.width * s) := by
        rw [htwo]
        ring
      rw [heq, Int.dvd_neg, show (64 : Nat) = kind.width + (64 - kind.width) by omega, pow_add] at hsum
      have hdvd : (2 : Int) ^ (64 - kind.width) ∣ s := (mul_dvd_mul_iff_left (by positivity)).mp hsum
      have hle := Int.le_of_dvd (show (0 : Int) < s.natAbs by omega) (Int.dvd_natAbs.mpr hdvd)
      have hbig : (2 : Int) ^ 63 = 2 ^ (kind.width - 1) * 2 ^ (64 - kind.width) := by
        rw [← pow_add]
        congr 1
        omega
      have hmul : (2 : Int) ^ (kind.width - 1) * 2 ^ (64 - kind.width) ≤ n * s.natAbs :=
        Int.mul_le_mul (by omega) hle (by positivity) (by omega)
      have : ((n * s.natAbs : Nat) : Int) < 2 ^ 63 := by exact_mod_cast hs
      push_cast at this hmul
      omega
  · rintro (rfl | ⟨hd, hk⟩) x hx ⟨hl, hu⟩
    · rw [normalized_of_small (by omega)]
      have hzero : coordinate 1 x.value = 0 := by
        unfold coordinate
        split <;> omega
      simp [hzero]
    · by_cases hcond : kind.signed = false ∧ kind.width < 64 ∧ 2 ^ (kind.width - 1) ≤ x.value
      · have hs0 : s = 0 := by
          refine hk.resolve_right ?_
          rintro (hsg | hw | hle)
          · rw [hcond.1] at hsg
            cases hsg
          · omega
          · have : (n : Int) ≤ 2 ^ (kind.width - 1) := by exact_mod_cast hle
            omega
        rw [hs0, Int.sub_zero] at hd
        rw [hs0, Int.mul_zero, Int.sub_zero]
        exact hd.mul_left _
      · rw [normalized, if_neg hcond, ← Int.mul_sub]
        exact hd.mul_left _

/-! ## All dimensions -/

section
-- what an access makes of the value of an index along a dimension
variable (reading : IndexKind → Nat → Int → Int)

def readings : List Nat → List IndexKind → List IndexArg → List Int
  | n :: ns, kind :: kinds, x :: xs => reading kind n x.value :: readings ns kinds xs
  | _, _, _ => []

/-- The difference between where an access with the byte strides `ts` and strides
of the producer put the indices, dimension by dimension. -/
def accessDims : List Nat → List IndexKind → List Int → List Int → List ((IndexArg → Prop) × (IndexArg → Int))
  | n :: ns, kind :: kinds, t :: ts, s :: ss =>
    (fun x => HasKind x kind ∧ -(n : Int) ≤ x.value ∧ x.value < n,
      fun x => reading kind n x.value * t - coordinate n x.value * s) :: accessDims ns kinds ts ss
  | _, _, _, _ => []

theorem forall₂_accessDims : ∀ {ns : List Nat} {kinds : List IndexKind} {ts ss : List Int} {xs : List IndexArg},
    kinds.length = ns.length → ts.length = ns.length → ss.length = ns.length →
      (List.Forall₂ (fun d x => d.1 x) (accessDims reading ns kinds ts ss) xs ↔
        List.Forall₂ HasKind xs kinds ∧ ArrayIndex.InRange ns xs)
  | [], [], ts, ss, xs, _, _, _ => by
    rw [accessDims, List.forall₂_nil_left_iff, List.forall₂_nil_right_iff]
    · constructor
      · rintro rfl
        exact ⟨rfl, trivial⟩
      · exact And.left
    · intro n ns kind kinds t ts s ss h
      cases h
  | n :: ns, kind :: kinds, t :: ts, s :: ss, [], _, _, _ => by simp [accessDims]
  | n :: ns, kind :: kinds, t :: ts, s :: ss, x :: xs, hk, ht, hs => by
    rw [accessDims, List.forall₂_cons, List.forall₂_cons, ArrayIndex.InRange,
      forall₂_accessDims (by simpa using hk) (by simpa using ht) (by simpa using hs)]
    simp only
    constructor
    · rintro ⟨⟨h1, h2⟩, h3, h4⟩
      exact ⟨⟨h1, h3⟩, h2, h4⟩
    · rintro ⟨⟨h1, h3⟩, h2, h4⟩
      exact ⟨⟨h1, h2⟩, h3, h4⟩

theorem sum_accessDims : ∀ {ns : List Nat} {kinds : List IndexKind} {ts ss : List Int} {xs : List IndexArg},
    kinds.length = ns.length → ts.length = ns.length → ss.length = ns.length → xs.length = ns.length →
      (List.zipWith (fun d x => d.2 x) (accessDims reading ns kinds ts ss) xs).sum =
        Strided.dot (readings reading ns kinds xs) ts - Strided.dot (coordinates ns xs) ss
  | [], [], _, _, [], _, _, _, _ => by simp [accessDims, readings, coordinates]
  | n :: ns, kind :: kinds, t :: ts, s :: ss, x :: xs, hk, ht, hs, hx => by
    rw [accessDims, List.zipWith_cons_cons, List.sum_cons, readings, coordinates, Strided.dot_cons, Strided.dot_cons,
      sum_accessDims (by simpa using hk) (by simpa using ht) (by simpa using hs) (by simpa using hx)]
    ring

theorem accessDims_base (hzero : ∀ kind n, reading kind n 0 = 0) : ∀ {ns : List Nat} {kinds : List IndexKind} {ts ss : List Int},
    (∀ n ∈ ns, 0 < n) → ∀ d ∈ accessDims reading ns kinds ts ss, ∃ x, d.1 x ∧ (2 : Int) ^ 64 ∣ d.2 x
  | n :: ns, kind :: kinds, t :: ts, s :: ss, hpos, d, hd => by
    rcases List.mem_cons.mp hd with rfl | hd
    · have hn := hpos n (by simp)
      obtain ⟨x, hx, hv⟩ := exists_arg kind 0 (inRange_small kind (le_refl _) (by decide))
      refine ⟨x, ⟨hx, by omega, by omega⟩, ?_⟩
      simp [hv, hzero, coordinate]
    · exact accessDims_base hzero (fun n hn => hpos n (by simp [hn])) d hd

theorem accessDims_iff (hzero : ∀ kind n, reading kind n 0 = 0) {ns : List Nat} {kinds : List IndexKind} {ts ss : List Int}
    (hk : kinds.length = ns.length) (ht : ts.length = ns.length) (hs : ss.length = ns.length) (hpos : ∀ n ∈ ns, 0 < n) :
    (∀ xs, List.Forall₂ HasKind xs kinds → ArrayIndex.InRange ns xs →
      (2 : Int) ^ 64 ∣ Strided.dot (readings reading ns kinds xs) ts - Strided.dot (coordinates ns xs) ss) ↔
      ∀ d ∈ accessDims reading ns kinds ts ss, ∀ x, d.1 x → (2 : Int) ^ 64 ∣ d.2 x := by
  have hbase : ∀ d ∈ accessDims reading ns kinds ts ss, ∃ x, d.1 x ∧ (2 : Int) ^ 64 ∣ d.2 x := accessDims_base reading hzero hpos
  have hdims := Strided.forall_dvd_sum_iff fun d hd _ => hbase d hd
  have hsome : ¬ ∃ d ∈ accessDims reading ns kinds ts ss, ∀ x, ¬ d.1 x := by
    rintro ⟨d, hd, hempty⟩
    obtain ⟨x, hx, -⟩ := hbase d hd
    exact hempty x hx
  rw [or_iff_right hsome] at hdims
  rw [← hdims]
  constructor
  · intro h xs hxs
    obtain ⟨hkinds, hr⟩ := (forall₂_accessDims reading hk ht hs).mp hxs
    rw [sum_accessDims reading hk ht hs (hkinds.length_eq.trans hk)]
    exact h xs hkinds hr
  · intro h xs hkinds hr
    rw [← sum_accessDims reading hk ht hs (hkinds.length_eq.trans hk)]
    exact h xs ((forall₂_accessDims reading hk ht hs).mpr ⟨hkinds, hr⟩)

end

theorem normalizeIndices_eq {m : MemRef} : ∀ {ns : List Nat} {kinds : List IndexKind} {xs : List IndexArg} {dim : Nat},
    m.extents.drop dim = ns → List.Forall₂ HasKind xs kinds → kinds.length = ns.length → ArrayIndex.InRange ns xs →
      normalizeIndices m dim xs = readings normalized ns kinds xs
  | [], [], xs, dim, _, hx, _, _ => by
    cases hx
    rfl
  | n :: ns, kind :: kinds, x :: xs, dim, hd, hx, hk, hr => by
    obtain ⟨hx, hxs⟩ := List.forall₂_cons.mp hx
    have hget : m.extents[dim]? = some n := by
      have := congrArg (·[0]?) hd
      simpa using this
    have hdrop : m.extents.drop (dim + 1) = ns := by
      have := congrArg List.tail hd
      simpa using this
    rw [normalizeIndices, readings, normalizeNegativeIndex_eq hx hget hr.1.1 hr.1.2,
      normalizeIndices_eq hdrop hxs (by simpa using hk) hr.2]

theorem viewDims_dvd_iff {a : HostArray} {bytes : Nat} : ∀ {ns : List Nat} {kinds : List IndexKind} {ts ss : List Int},
    kinds.length = ns.length → (∀ n ∈ ns, 0 < n) → List.Forall₂ (fun (n : Nat) (s : Int) => n * s.natAbs < 2 ^ 63) ns ss →
    List.Forall₂ (fun (p : Nat × Int) t => 1 < p.1 → ((2 : Int) ^ 64 ∣ t - p.2 ↔ Scaled a bytes p.2)) (ns.zip ss) ts →
      ((∀ d ∈ accessDims normalized ns kinds ts ss, ∀ x, d.1 x → (2 : Int) ^ 64 ∣ d.2 x) ↔ FieldStrides a bytes ns ss kinds)
  | [], [], ts, ss, _, _, _, _ => by cases ts <;> cases ss <;> simp [accessDims, FieldStrides]
  | n :: ns, kind :: kinds, ts, [], _, _, hf, _ => by cases hf
  | n :: ns, kind :: kinds, [], s :: ss, _, _, _, hg => by cases hg
  | n :: ns, kind :: kinds, t :: ts, s :: ss, hk, hpos, hf, hg => by
    obtain ⟨hf, hfs⟩ := List.forall₂_cons.mp hf
    obtain ⟨hg, hgs⟩ := List.forall₂_cons.mp hg
    have hn : 0 < n := hpos n (by simp)
    have hdim := element_indices_iff kind t hn hf
    rw [accessDims, FieldStrides, List.forall_mem_cons,
      viewDims_dvd_iff (by simpa using hk) (fun n hn => hpos n (by simp [hn])) hfs hgs]
    refine and_congr_left fun _ => ?_
    simp only [and_imp] at hdim ⊢
    rw [hdim]
    by_cases h1 : n = 1
    · simp [h1]
    · rw [hg (show 1 < n by omega)]

/-! ## The array that is passed -/

theorem storedStrides_one (a : HostArray) :
    storedStrides 1 (a.shape.map Nat.cast) a.strides = a.unitStrides.map wrap64 := by
  unfold HostArray.unitStrides
  cases a.strides with
  | none => rfl
  | some ss => exact List.map_congr_left fun s _ => Int.tdiv_one _

theorem passed_array {driver : Driver} {a : HostArray} {dtypeRepr : Option (List Char)} {helper helper' : LaunchHelper}
    (h : extractCudaArray driver (.dict a.interface.interface) dtypeRepr helper = .ok helper') :
    ∃ array, kernelArray (helper'.descriptor ⟨.array, helper.cuargs.length, a.shape.length⟩) = some array ∧
      array.data = BitVec.ofInt 64 a.data ∧ array.memref.extents = a.shape ∧ array.memref.strides = a.unitStrides.map wrap64 := by
  obtain ⟨dl, hp, hd, -⟩ := extractCudaArray_descriptor h
  have hopaque : dtypeBytewidth dl = 1 := if_pos ((code_eq_opaque_iff hp).mpr rfl)
  have hshape : (a.shape.map (Nat.cast : Nat → Int)).map wrap64 = a.shape.map Nat.cast := by
    rw [List.map_map]
    refine List.map_congr_left fun n hn => ?_
    have hsmall := a.small n hn
    rw [Function.comp_apply, wrap64_eq]
    unfold InInt64
    omega
  have hlen : a.interface.shape.length = a.shape.length := List.length_map _
  rw [hlen, hopaque, show a.interface.shape = a.shape.map Nat.cast from rfl, show a.interface.strides = a.strides from rfl,
    show a.interface.data = a.data from rfl, hshape, storedStrides_one] at hd
  have hstrides : a.unitStrides.length = a.shape.length := by
    unfold HostArray.unitStrides
    cases hs : a.strides with
    | none => simp
    | some ss => exact a.strides_length ss hs
  rw [hd, kernelArray, dif_pos]
  · refine ⟨_, rfl, ?_, ?_, rfl⟩
    · rw [Int.add_zero, ofInt_wrap64]
    · exact (List.map_map ..).trans ((List.map_congr_left fun n _ => Int.toNat_natCast n).trans (List.map_id' _))
  · refine ⟨by simpa using hstrides, fun x hx => ?_⟩
    obtain ⟨n, hn, rfl⟩ := List.mem_map.mp hx
    have := a.small n hn
    omega

/-! ## Accesses -/

theorem exists_first : ∀ {ns : List Nat} {kinds : List IndexKind}, kinds.length = ns.length → (∀ n ∈ ns, 0 < n) →
    ∃ xs, List.Forall₂ HasKind xs kinds ∧ ArrayIndex.InRange ns xs
  | [], [], _, _ => ⟨[], .nil, trivial⟩
  | n :: ns, kind :: kinds, hk, hpos => by
    obtain ⟨xs, hxs, hr⟩ := exists_first (by simpa using hk) fun n hn => hpos n (by simp [hn])
    obtain ⟨x, hx, hv⟩ := exists_arg kind 0 (inRange_small kind (le_refl _) (by decide))
    have hn := hpos n (by simp)
    exact ⟨x :: xs, .cons hx hxs, ⟨by omega, by omega⟩, hr⟩

theorem not_inRange_of_empty : ∀ {ns : List Nat} {xs : List IndexArg}, xs.length = ns.length → (∃ n ∈ ns, n = 0) → ¬ ArrayIndex.InRange ns xs
  | n :: ns, x :: xs, hl, ⟨m, hm, h0⟩, hr => by
    rcases List.mem_cons.mp hm with rfl | hm
    · have := hr.1
      omega
    · exact not_inRange_of_empty (by simpa using hl) ⟨m, hm, h0⟩ hr.2

theorem lowerRecordArrayGetitem_iff {size : Nat} (hsize : size < 2 ^ 63) {array : KernelArray} {b : Int}
    (hb : array.data = BitVec.ofInt 64 b) {ss : List Int} {kinds : List IndexKind} (hpos : ∀ n ∈ array.memref.extents, 0 < n)
    (hk : kinds.length = array.memref.extents.length)
    (hf : List.Forall₂ (fun (n : Nat) (s : Int) => n * s.natAbs < 2 ^ 63) array.memref.extents ss) :
    (∀ xs, List.Forall₂ HasKind xs kinds → ArrayIndex.InRange array.memref.extents xs →
      lowerRecordArrayGetitem size array xs = some (BitVec.ofInt 64 (b + Strided.dot (coordinates array.memref.extents xs) ss))) ↔
      RecordIndexed size array.memref.extents ss kinds := by
  obtain ⟨first, hkind, hfirst⟩ := exists_first hk hpos
  generalize hshape : array.memref.extents = shape at *
  rcases shape with _ | ⟨n, _ | ⟨m, ns⟩⟩
  · obtain rfl := List.eq_nil_of_length_eq_zero hk
    constructor
    · intro h
      have := h first hkind hfirst
      rw [List.forall₂_nil_right_iff.mp hkind] at this
      cases this
    · rintro ⟨n, s, kind, hs, -⟩
      cases hs
  · obtain ⟨kind, rfl⟩ := List.length_eq_one_iff.mp hk
    obtain ⟨s, rest, hfirst_lt, hrest, rfl⟩ := List.forall₂_cons_left_iff.mp hf
    obtain rfl := List.forall₂_nil_left_iff.mp hrest
    have hn : 0 < n := hpos n (by simp)
    have hrank : rank array = 1 := by rw [rank, hshape]; rfl
    have hcond : RecordIndexed size [n] [s] [kind] ↔ (n = 1 ∨ s = size) ∧ kind.Extends n size := by
      constructor
      · rintro ⟨n', s', kind', hn', hs', hk', h⟩
        cases hn'; cases hs'; cases hk'
        exact h
      · intro h
        exact ⟨n, s, kind, rfl, rfl, rfl, h⟩
    have hsmall : s.natAbs < 2 ^ 63 := lt_of_le_of_lt (Nat.le_mul_of_pos_left _ hn) hfirst_lt
    have hgoal : ∀ x, HasKind x kind → -(n : Int) ≤ x.value ∧ x.value < n →
        (lowerRecordArrayGetitem size array [x] = some (BitVec.ofInt 64 (b + Strided.dot (coordinates [n] [x]) [s])) ↔
          (2 : Int) ^ 64 ∣ extended kind x.value * size - coordinate n x.value * s) := by
      intro x hx _
      rw [lowerRecordArrayGetitem, if_pos hrank, recordPointer_eq hsize hb hx, Option.some_inj, ofInt_eq_ofInt_iff]
      have heq : b + extended kind x.value * size - (b + Strided.dot (coordinates [n] [x]) [s]) =
          extended kind x.value * size - coordinate n x.value * s := by
        simp only [coordinates, Strided.dot_cons, Strided.dot_nil_left]
        ring
      rw [heq]
    rw [hcond, ← record_indices_iff hn hsize hsmall]
    constructor
    · intro h x hx hr
      exact (hgoal x hx hr).mp (h [x] (.cons hx .nil) ⟨hr, trivial⟩)
    · intro h xs hxs hr
      obtain ⟨x, rest, hx, hrest, rfl⟩ := List.forall₂_cons_right_iff.mp hxs
      obtain rfl := List.forall₂_nil_right_iff.mp hrest
      exact (hgoal x hx hr.1).mpr (h x hx hr.1)
  · rcases kinds with _ | ⟨k, _ | ⟨l, kinds⟩⟩
    · cases hk
    · cases hk
    constructor
    · intro h
      have := h first hkind hfirst
      obtain ⟨x, rest, -, hrest, rfl⟩ := List.forall₂_cons_right_iff.mp hkind
      obtain ⟨y, xs, -, -, rfl⟩ := List.forall₂_cons_right_iff.mp hrest
      cases this
    · rintro ⟨n', s, kind, hs, -⟩
      cases hs

/-! ## Field views -/

theorem lowerRecordArrayFieldView_eq {size offset bytes : Nat} {t : FieldType} (hsize : size < 2 ^ 63) (hoffset : offset < 2 ^ 63)
    (ht : t.bitwidth = some (8 * bytes)) (array : KernelArray) :
    lowerRecordArrayFieldView size ⟨offset, t⟩ array =
      if bytes = 0 then none
      else some ⟨array.data + BitVec.ofInt 64 offset, scaleStrides array (BitVec.ofInt 64 (size / bytes : Nat))⟩ := by
  have hdiv : 8 * bytes / 8 = bytes := Nat.mul_div_cancel_left bytes (by decide)
  have hmul : size / bytes < 2 ^ 63 := (Nat.div_le_self ..).trans_lt hsize
  simp only [lowerRecordArrayFieldView, integerAttr_natCast hoffset, ht, hdiv, integerAttr_natCast hmul,
    Option.bind_eq_bind, Option.bind_some, Option.pure_def]

theorem scaleStrides_strides (array : KernelArray) (multiplier : BitVec 64) :
    (scaleStrides array multiplier).strides = array.memref.strides.map fun s => (BitVec.ofInt 64 s * multiplier).toInt := rfl

def viewStride (a : HostArray) (bytes : Nat) (u : Int) : Int :=
  bytes * (BitVec.ofInt 64 (wrap64 u) * BitVec.ofInt 64 (a.type.size / bytes : Nat)).toInt

theorem map_scaleStrides {a : HostArray} {array : KernelArray} (hstrides : array.memref.strides = a.unitStrides.map wrap64) (bytes : Nat) :
    (scaleStrides array (BitVec.ofInt 64 (a.type.size / bytes : Nat))).strides.map ((bytes : Int) * ·) =
      a.unitStrides.map (viewStride a bytes) := by
  rw [scaleStrides_strides, hstrides, List.map_map, List.map_map]
  refine List.map_congr_left fun u _ => ?_
  rw [viewStride]
  rfl

theorem viewStride_dvd_iff (a : HostArray) (bytes : Nat) (u s : Int) :
    (2 : Int) ^ 64 ∣ viewStride a bytes u - s ↔ (2 : Int) ^ 64 ∣ bytes * (a.type.size / bytes : Nat) * u - s := by
  obtain ⟨c, hc⟩ : (2 : Int) ^ 64 ∣ (BitVec.ofInt 64 (wrap64 u) * BitVec.ofInt 64 (a.type.size / bytes : Nat)).toInt -
      u * (a.type.size / bytes : Nat) := by
    rw [← ofInt_eq_ofInt_iff, BitVec.ofInt_toInt, ofInt_wrap64, BitVec.ofInt_mul]
  have heq : viewStride a bytes u - s = bytes * (a.type.size / bytes : Nat) * u - s + 2 ^ 64 * (bytes * c) := by
    rw [viewStride, sub_eq_iff_eq_add'.mp hc]
    ring
  rw [heq]
  exact Int.dvd_add_left (Int.dvd_mul_right ..)

theorem prod_cast_pos {ns : List Nat} (h : ∀ n ∈ ns, 0 < n) : 0 < (ns.map (Nat.cast : Nat → Int)).prod := by
  induction ns with
  | nil => decide
  | cons n ns ih =>
    have hn := h n (by simp)
    have := ih fun m hm => h m (by simp [hm])
    rw [List.map_cons, List.prod_cons]
    positivity

theorem compact_dvd_iff {n size bytes : Nat} {r : Int} (hr : 0 < r) (hn : 0 < n) (hf : n * (size * r).natAbs < 2 ^ 63) :
    (2 : Int) ^ 64 ∣ bytes * (size / bytes : Nat) * r - size * r ↔ bytes ∣ size := by
  have hmod : (bytes * (size / bytes : Nat) * r - size * r : Int) = -(((size % bytes : Nat) : Int) * r) := by
    have h : (bytes : Int) * (size / bytes : Nat) + (size % bytes : Nat) = size := by exact_mod_cast Nat.div_add_mod size bytes
    rw [← h]
    ring
  rw [hmod, Int.dvd_neg, Nat.dvd_iff_mod_eq_zero]
  constructor
  · intro hd
    have hle : ((size % bytes : Nat) : Int) * r ≤ size * r :=
      Int.mul_le_mul_of_nonneg_right (by exact_mod_cast Nat.mod_le size bytes) hr.le
    have hbound : (size * r).natAbs < 2 ^ 63 := lt_of_le_of_lt (Nat.le_mul_of_pos_left _ hn) hf
    have hpos : 0 ≤ ((size % bytes : Nat) : Int) * r := by positivity
    have hzero := Int.eq_zero_of_dvd_of_nonneg_of_lt hpos (by omega) hd
    rcases mul_eq_zero.mp hzero with h | h
    · exact_mod_cast h
    · omega
  · intro h
    rw [h]
    simp

theorem viewStrides_of_none {a : HostArray} (hs : a.strides = none) (bytes : Nat) : ∀ {ns : List Nat}, (∀ n ∈ ns, 0 < n) →
    List.Forall₂ (fun (n : Nat) (s : Int) => n * s.natAbs < 2 ^ 63) ns ((Strided.rowMajor (ns.map Nat.cast)).map (a.type.size * ·)) →
      List.Forall₂ (fun (p : Nat × Int) t => 1 < p.1 → ((2 : Int) ^ 64 ∣ t - p.2 ↔ Scaled a bytes p.2))
        (ns.zip ((Strided.rowMajor (ns.map Nat.cast)).map (a.type.size * ·)))
        ((Strided.rowMajor (ns.map Nat.cast)).map (viewStride a bytes))
  | [], _, _ => .nil
  | n :: ns, hpos, hf => by
    rw [List.map_cons, Strided.rowMajor, List.map_cons] at hf
    obtain ⟨hf, hfs⟩ := List.forall₂_cons.mp hf
    have hns : ∀ n ∈ ns, 0 < n := fun n hn => hpos n (by simp [hn])
    refine .cons (fun _ => ?_) (viewStrides_of_none hs bytes hns hfs)
    rw [viewStride_dvd_iff, Scaled, hs]
    exact compact_dvd_iff (prod_cast_pos hns) (hpos n (by simp)) hf

theorem viewStrides_of_some {a : HostArray} {ss : List Int} (hs : a.strides = some ss) (bytes : Nat) : ∀ {ns : List Nat} {us : List Int},
    us.length = ns.length → List.Forall₂ (fun (p : Nat × Int) t => 1 < p.1 → ((2 : Int) ^ 64 ∣ t - p.2 ↔ Scaled a bytes p.2))
      (ns.zip us) (us.map (viewStride a bytes))
  | [], [], _ => .nil
  | n :: ns, u :: us, hl => by
    refine .cons (fun _ => ?_) (viewStrides_of_some hs bytes (by simpa using hl))
    rw [viewStride_dvd_iff, Scaled, hs, Int.sub_mul, Int.one_mul]

theorem viewStrides_scaled {a : HostArray} (bytes : Nat) (hpos : ∀ n ∈ a.shape, 0 < n) :
    List.Forall₂ (fun (p : Nat × Int) t => 1 < p.1 → ((2 : Int) ^ 64 ∣ t - p.2 ↔ Scaled a bytes p.2))
      (a.shape.zip a.byteStrides) (a.unitStrides.map (viewStride a bytes)) := by
  have hf := a.fits
  unfold HostArray.byteStrides HostArray.unitStrides
  cases hs : a.strides with
  | none =>
    rw [hs] at hf
    exact viewStrides_of_none hs bytes hpos hf
  | some ss => exact viewStrides_of_some hs bytes (a.strides_length ss hs)

theorem elementAddress_iff {a : HostArray} {bytes : Nat} {view : KernelArray} {kinds : List IndexKind} {b : Int}
    (hdata : view.data = BitVec.ofInt 64 b) (hoffset : view.memref.offset = 0) (hext : view.memref.extents = a.shape)
    (hstrides : view.memref.strides.map ((bytes : Int) * ·) = a.unitStrides.map (viewStride a bytes)) (hpos : ∀ n ∈ a.shape, 0 < n)
    (hk : kinds.length = a.shape.length) :
    (∀ xs, List.Forall₂ HasKind xs kinds → ArrayIndex.InRange a.shape xs →
      elementAddress bytes view xs = some (BitVec.ofInt 64 (b + Strided.dot (coordinates a.shape xs) a.byteStrides))) ↔
      FieldStrides a bytes a.shape a.byteStrides kinds := by
  have hscaled := viewStrides_scaled bytes hpos
  have hfits : List.Forall₂ (fun (n : Nat) (s : Int) => n * s.natAbs < 2 ^ 63) a.shape a.byteStrides := a.fits
  have hbs : a.byteStrides.length = a.shape.length := hfits.length_eq.symm
  have hts : (a.unitStrides.map (viewStride a bytes)).length = a.shape.length := by
    rw [← hstrides, List.length_map, view.memref.rank, hext]
  have haddress : ∀ xs, List.Forall₂ HasKind xs kinds → ArrayIndex.InRange a.shape xs →
      (elementAddress bytes view xs = some (BitVec.ofInt 64 (b + Strided.dot (coordinates a.shape xs) a.byteStrides)) ↔
        (2 : Int) ^ 64 ∣ Strided.dot (readings normalized a.shape kinds xs) (a.unitStrides.map (viewStride a bytes)) -
          Strided.dot (coordinates a.shape xs) a.byteStrides) := by
    intro xs hxs hr
    have hrank : xs.length = rank view := by rw [rank, hext, hxs.length_eq, hk]
    rw [elementAddress, if_pos hrank, hdata, ← BitVec.ofInt_add, Option.some_inj, ofInt_eq_ofInt_iff,
      ← normalizeIndices_eq (m := view.memref) (by rw [List.drop_zero, hext]) hxs hk hr, ← hstrides, Strided.dot_map_mul,
      Layout.address, hoffset, Int.zero_add, Int.add_sub_add_left]
  rw [← viewDims_dvd_iff hk hpos hfits hscaled, ← accessDims_iff normalized normalized_zero hk hts hbs hpos]
  exact forall_congr' fun xs => forall_congr' fun hxs => forall_congr' fun hr => haddress xs hxs hr

theorem lowerAccess_field {T : RecordType} {attr : String} {f : RecordField} (h : T.fields.get attr = some f) (array : KernelArray)
    (xs : List IndexArg) : lowerAccess T array xs (.field attr) =
      (lowerRecordArrayFieldView T.size f array).bind fun view => lowerFieldElement view xs f.type := by
  rw [lowerAccess, h, Option.bind_eq_bind, Option.bind_some, Option.bind_eq_bind]

theorem offset_field {T : RecordType} {attr : String} {f : RecordField} (h : T.fields.get attr = some f) :
    (Access.field attr).offset T = f.offset := by
  rw [Access.offset, h]

theorem addresses_iff {a : HostArray} {array : KernelArray} {kinds : List IndexKind} (hdata : array.data = BitVec.ofInt 64 a.data)
    (hext : array.memref.extents = a.shape) (hstrides : array.memref.strides = a.unitStrides.map wrap64)
    (hpos : ∀ n ∈ a.shape, 0 < n) (hk : kinds.length = a.shape.length) (access : Access) :
    Addresses a array access kinds ↔ Aligned a access kinds := by
  obtain ⟨first, hkind, hfirst⟩ := exists_first hk hpos
  have hrecords : ∀ {size : Nat} (_ : size < 2 ^ 63) {record : KernelArray} {b : Int} (_ : record.data = BitVec.ofInt 64 b)
      (_ : record.memref.extents = a.shape),
      (∀ xs, List.Forall₂ HasKind xs kinds → ArrayIndex.InRange a.shape xs → lowerRecordArrayGetitem size record xs =
        some (BitVec.ofInt 64 (b + Strided.dot (coordinates a.shape xs) a.byteStrides))) ↔
        RecordIndexed size a.shape a.byteStrides kinds := by
    intro size hsize record b hb hrecord
    rw [← hrecord] at hpos hk ⊢
    exact lowerRecordArrayGetitem_iff hsize hb hpos hk (hrecord ▸ a.fits)
  have haddress : ∀ (xs : List IndexArg) (offset : Nat), a.data + Strided.dot (coordinates a.shape xs) a.byteStrides + offset =
      a.data + offset + Strided.dot (coordinates a.shape xs) a.byteStrides := fun xs offset => by ring
  cases access with
  | getitem | setitem =>
    simp only [Addresses, lowerAccess, Access.offset, Aligned, Int.natCast_zero, Int.add_zero]
    exact hrecords a.type.size_lt hdata hext
  | field attr =>
    cases hget : a.type.fields.get attr with
    | none =>
      refine iff_of_false (fun h => ?_) (by simp [Aligned, hget])
      have := h first hkind hfirst
      simp [lowerAccess, hget] at this
    | some f =>
      obtain ⟨offset, t⟩ := f
      have hoffset : offset < 2 ^ 63 := (a.type.offset_le attr _ hget).trans_lt a.type.size_lt
      have hdata' : array.data + BitVec.ofInt 64 offset = BitVec.ofInt 64 (a.data + offset) := by rw [hdata, BitVec.ofInt_add]
      simp only [Addresses, lowerAccess_field hget, offset_field hget, haddress, lowerFieldElement]
      rw [Aligned, hget]
      cases t with
      | number bytes =>
        simp only [lowerRecordArrayFieldView_eq a.type.size_lt hoffset (show (FieldType.number bytes).bitwidth = some (8 * bytes) from rfl)]
        by_cases h0 : bytes = 0
        · refine iff_of_false (fun h => ?_) (fun h => by omega)
          have := h first hkind hfirst
          simp [h0] at this
        · simp only [if_neg h0, Option.bind_some]
          rw [and_iff_right (Nat.pos_of_ne_zero h0)]
          refine elementAddress_iff ?_ ?_ ?_ ?_ hpos hk
          · exact hdata'
          · rfl
          · exact hext
          · exact map_scaleStrides hstrides bytes
      | record size =>
        have hsize : size < 2 ^ 63 := by
          have := a.type.field_le attr _ (8 * size) hget rfl
          have := a.type.size_lt
          omega
        simp only [lowerRecordArrayFieldView_eq a.type.size_lt hoffset (show (FieldType.record size).bitwidth = some (8 * size) from rfl)]
        by_cases h0 : size = 0
        · refine iff_of_false (fun h => ?_) (fun h => by omega)
          have := h first hkind hfirst
          simp [h0] at this
        · simp only [if_neg h0, Option.bind_some]
          rw [and_iff_right (Nat.pos_of_ne_zero h0)]
          refine hrecords hsize ?_ ?_
          · exact hdata'
          · exact hext
      | other =>
        refine iff_of_false (fun h => ?_) id
        have := h first hkind hfirst
        simp [lowerRecordArrayFieldView, FieldType.bitwidth] at this

/-- **Record arrays.** A passed array's records and fields are addressed where
the strides, the field's size and the index types let them be. -/
theorem passed_addresses_iff {driver : Driver} {a : HostArray} {dtypeRepr : Option (List Char)} {helper helper' : LaunchHelper}
    {kinds : List IndexKind} (h : extractCudaArray driver (.dict a.interface.interface) dtypeRepr helper = .ok helper')
    (hk : kinds.length = a.shape.length) (access : Access) :
    (∃ array, kernelArray (helper'.descriptor ⟨.array, helper.cuargs.length, a.shape.length⟩) = some array ∧
      Addresses a array access kinds) ↔ Addressable a access kinds := by
  obtain ⟨array, hsome, hdata, hext, hstrides⟩ := passed_array h
  have hunique : (∃ array', kernelArray (helper'.descriptor ⟨.array, helper.cuargs.length, a.shape.length⟩) = some array' ∧
      Addresses a array' access kinds) ↔ Addresses a array access kinds := by
    rw [hsome]
    simp
  rw [hunique]
  by_cases hempty : ∃ n ∈ a.shape, n = 0
  · refine iff_of_true (fun xs hxs hr => ?_) (.inl hempty)
    exact absurd hr (not_inRange_of_empty (hxs.length_eq.trans hk) hempty)
  · have hpos : ∀ n ∈ a.shape, 0 < n := fun n hn => Nat.pos_of_ne_zero fun h0 => hempty ⟨n, hn, h0⟩
    rw [Addressable, or_iff_right hempty]
    exact addresses_iff hdata hext hstrides hpos hk access

/-- A record of 12 bytes with a four-byte field at its end. -/
def pointType : RecordType where
  size := 12
  fields := Dict.empty.set "z" ⟨8, .number 4⟩
  size_lt := by decide
  offset_le := by
    intro name f h
    rw [Dict.get_set] at h
    split at h
    · cases h
      decide
    · cases h
  field_le := by
    intro name f b h hb
    rw [Dict.get_set] at h
    split at h
    · cases h
      cases hb
      decide
    · cases h

def points (strides : Option (List Int)) (hl : ∀ ss, strides = some ss → ss.length = 1)
    (hf : List.Forall₂ (fun (n : Nat) (s : Int) => n * s.natAbs < 2 ^ 63) [2] (byteStrides 12 [2] strides)) : HostArray :=
  ⟨pointType, "", [2], 4096, strides, hl, by decide, hf⟩

def compactPoints : HostArray := points none nofun (.cons (by decide) .nil)

def everyOtherPoint : HostArray := points (some [24]) (fun _ h => by cases h; rfl) (.cons (by decide) .nil)

theorem passed_addresses_compact : ∃ helper', extractCudaArray .idle (.dict compactPoints.interface.interface) none .empty = .ok helper' ∧
    ∃ array, kernelArray (helper'.descriptor ⟨.array, 0, 1⟩) = some array ∧
      Addresses compactPoints array (.field "z") [.var ⟨true, .w32⟩] := by
  refine ⟨_, rfl, (passed_addresses_iff (a := compactPoints) rfl rfl (.field "z")).mpr (.inr ?_)⟩
  rw [Aligned, show compactPoints.type.fields.get "z" = some ⟨8, .number 4⟩ from rfl]
  exact ⟨by decide, .inr ⟨show 4 ∣ 12 by decide, .inr (.inl rfl)⟩, trivial⟩

/-- The second of every other record is looked for right after the first. -/
theorem strided_records_misaddressed : ∃ helper',
    extractCudaArray .idle (.dict everyOtherPoint.interface.interface) none .empty = .ok helper' ∧
      ¬ ∃ array, kernelArray (helper'.descriptor ⟨.array, 0, 1⟩) = some array ∧
        Addresses everyOtherPoint array .getitem [.var ⟨true, .w32⟩] := by
  have hrun : ∃ helper', extractCudaArray .idle (.dict everyOtherPoint.interface.interface) none .empty = .ok helper' := ⟨_, rfl⟩
  obtain ⟨helper', hrun⟩ := hrun
  refine ⟨helper', hrun, ?_⟩
  obtain ⟨array, hsome, hdata, hext, hstrides⟩ := passed_array hrun
  rintro ⟨array', hsome', haddr⟩
  cases Option.some.inj (hsome'.symm.trans hsome)
  obtain ⟨n, s, kind, hn, hs, -, hstride, -⟩ := (addresses_iff hdata hext hstrides (by decide) rfl .getitem).mp haddr
  cases hn; cases hs
  exact absurd hstride (by decide)

end NumbaCudaMlir.RecordArray

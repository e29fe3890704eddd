import NumbaCudaMlir.ArrayIndex

/-!
# Soundness of scalar indices

An index keeps its value when it is widened unless it is unsigned, narrower
than 64 bits and has its top bit set. Where every index keeps its value, each
lowering touches the elements that the indices name.
-/

namespace NumbaCudaMlir.ArrayIndex

open CInt (wrap64)

/-! ## Coordinates -/

/-- The coordinate that an index names in a dimension. -/
def coordinate (n : Nat) (v : Int) : Int := if 0 ≤ v then v else v + n

def coordinates : List Nat → List IndexArg → List Int
  | n :: ns, x :: xs => coordinate n x.value :: coordinates ns xs
  | _, _ => []

/-- The element, or the elements of the sub-array, that leading indices name. -/
def named (a : MemRef) (xs : List IndexArg) : List (List Int) :=
  (box (trailing a xs.length)).map fun j => coordinates a.extents xs ++ j

def InRange : List Nat → List IndexArg → Prop
  | _, [] => True
  | [], _ :: _ => False
  | n :: ns, x :: xs => (-(n : Int) ≤ x.value ∧ x.value < n) ∧ InRange ns xs

theorem InRange.length_le : ∀ {ns : List Nat} {xs : List IndexArg}, InRange ns xs → xs.length ≤ ns.length
  | _, [], _ => Nat.zero_le _
  | [], _ :: _, h => h.elim
  | _ :: _, _ :: _, h => Nat.succ_le_succ h.2.length_le

def KeepsValue : IndexArg → Prop
  | .const _ | .var true _ _ => True
  | .var false width bits => 64 ≤ width ∨ bits.toNat < 2 ^ (width - 1)

/-! ## One index -/

def castValue : IndexArg → Int
  | .const v => v
  | .var _ _ bits => bits.toInt

theorem indexOf_toInt (x : IndexArg) : (indexOf x).toInt = wrap64 (castValue x) := by
  cases x with
  | const v => exact BitVec.toInt_ofInt v
  | var signed width bits =>
    unfold indexOf castValue wrap64 BitVec.signExtend
    exact BitVec.toInt_ofInt _

theorem half_pow {w : Nat} (hw : 0 < w) : 2 * 2 ^ (w - 1) = 2 ^ w := by
  obtain ⟨k, rfl⟩ := Nat.exists_eq_add_of_lt hw
  simp only [Nat.zero_add, Nat.add_sub_cancel]
  rw [Nat.pow_succ, Nat.mul_comm]

theorem toInt_of_lt {w : Nat} {bits : BitVec w} (h : bits.toNat < 2 ^ (w - 1)) : bits.toInt = bits.toNat := by
  rw [BitVec.toInt_eq_toNat_cond]
  apply if_pos
  rcases Nat.eq_zero_or_pos w with rfl | hw
  · have := bits.isLt
    simpa using this
  · have := half_pow hw
    omega

theorem toInt_of_ge {w : Nat} {bits : BitVec w} (h : 2 ^ (w - 1) ≤ bits.toNat) :
    bits.toInt = (bits.toNat : Int) - 2 ^ w := by
  rw [BitVec.toInt_eq_toNat_cond, if_neg]
  · push_cast; rfl
  · rcases Nat.eq_zero_or_pos w with rfl | hw
    · have := bits.isLt
      simp at h this
      omega
    · have := half_pow hw
      omega

theorem wrap64_sub_pow {w : Nat} (hw : 64 ≤ w) (v : Int) : wrap64 (v - 2 ^ w) = wrap64 v := by
  obtain ⟨k, rfl⟩ := Nat.exists_eq_add_of_le hw
  unfold wrap64
  rw [Int.pow_add]
  exact Int.sub_mul_bmod_self_left v (2 ^ 64) (2 ^ k)

theorem unsigned_toInt_iff {w : Nat} {bits : BitVec w} {n : Nat} (hv : bits.toNat < n) (hn : n < 2 ^ 63) :
    wrap64 bits.toInt = bits.toNat ↔ KeepsValue (.var false w bits) := by
  have hin : CInt.InInt64 (bits.toNat : Int) := by unfold CInt.InInt64; omega
  by_cases hlt : bits.toNat < 2 ^ (w - 1)
  · rw [toInt_of_lt hlt, CInt.wrap64_eq hin]
    exact ⟨fun _ => .inr hlt, fun _ => rfl⟩
  · rw [toInt_of_ge (Nat.le_of_not_lt hlt)]
    by_cases hw : 64 ≤ w
    · rw [wrap64_sub_pow hw, CInt.wrap64_eq hin]
      exact ⟨fun _ => .inl hw, fun _ => rfl⟩
    · have hpow : (2 : Int) ^ w ≤ 2 ^ 63 := pow_le_pow_right₀ (by norm_num) (by omega)
      have hpos : (0 : Int) < 2 ^ w := by positivity
      have hbits : (bits.toNat : Int) < 2 ^ w := by exact_mod_cast bits.isLt
      have hin' : CInt.InInt64 ((bits.toNat : Int) - 2 ^ w) := by
        unfold CInt.InInt64
        constructor
        · linarith [Int.natCast_nonneg bits.toNat]
        · linarith
      rw [CInt.wrap64_eq hin']
      constructor
      · intro h; omega
      · rintro (h | h)
        · exact absurd h hw
        · exact absurd h hlt

theorem wrapNegative_toInt {n : Nat} {v : Int} (hn : n < 2 ^ 63) (hl : -(n : Int) ≤ v) (hu : v < n) {i : BitVec 64}
    (hi : i.toInt = wrap64 v) : (if i.slt 0 then i + BitVec.ofNat 64 n else i).toInt = coordinate n v := by
  have hv : wrap64 v = v := by
    apply CInt.wrap64_eq
    unfold CInt.InInt64
    omega
  rw [hv] at hi
  unfold coordinate
  by_cases hs : i.slt 0
  · have hneg : v < 0 := by
      have := BitVec.slt_iff_toInt_lt.mp hs
      rw [hi] at this
      simpa using this
    have hdim : (BitVec.ofNat 64 n).toInt = n := by
      rw [BitVec.toInt_eq_toNat_of_lt]
      · rw [BitVec.toNat_ofNat, Nat.mod_eq_of_lt (by omega)]
      · rw [BitVec.toNat_ofNat, Nat.mod_eq_of_lt (by omega)]
        omega
    rw [if_pos hs, if_neg (by omega), BitVec.toInt_add, hi, hdim]
    exact Int.bmod_eq_of_le_mul_two (by omega) (by omega)
  · have hpos : 0 ≤ v := by
      by_contra hc
      apply hs
      rw [BitVec.slt_iff_toInt_lt, hi]
      simpa using hc
    rw [if_neg hs, if_pos hpos, hi]

/-- **One index** names its coordinate exactly when it keeps its value. -/
theorem normalizeNegativeIndex_iff {a : MemRef} {x : IndexArg} {dim n : Nat} (hd : a.extents[dim]? = some n)
    (hl : -(n : Int) ≤ x.value) (hu : x.value < n) :
    (normalizeNegativeIndex a x dim).toInt = coordinate n x.value ↔ KeepsValue x := by
  have hn : n < 2 ^ 63 := a.small n (List.mem_of_getElem? hd)
  have hdim : a.dim dim = BitVec.ofNat 64 n := by
    unfold MemRef.dim
    rw [List.getD_eq_getElem?_getD, hd]
    rfl
  cases x with
  | const v =>
    simp only [normalizeNegativeIndex, KeepsValue, hdim, iff_true]
    exact wrapNegative_toInt hn hl hu (indexOf_toInt _)
  | var signed width bits =>
    cases signed with
    | true =>
      simp only [normalizeNegativeIndex, KeepsValue, hdim, iff_true]
      exact wrapNegative_toInt hn hl hu (indexOf_toInt _)
    | false =>
      have hv : (IndexArg.var false width bits).value = bits.toNat := rfl
      rw [hv] at hu ⊢
      simp only [normalizeNegativeIndex, indexOf_toInt, castValue, coordinate]
      rw [if_pos (Int.natCast_nonneg _)]
      exact unsigned_toInt_iff (by omega) hn

/-! ## All indices -/

@[simp] theorem normalizeIndices_length (a : MemRef) : ∀ (dim : Nat) (xs : List IndexArg),
    (normalizeIndices a dim xs).length = xs.length
  | _, [] => rfl
  | dim, _ :: xs => congrArg (· + 1) (normalizeIndices_length a (dim + 1) xs)

theorem normalizeIndices_iff (a : MemRef) : ∀ {xs : List IndexArg} {dim : Nat} {ns : List Nat},
    a.extents.drop dim = ns → InRange ns xs →
    (normalizeIndices a dim xs = coordinates ns xs ↔ ∀ x ∈ xs, KeepsValue x)
  | [], dim, ns, _, _ => by
    cases ns <;> simp [normalizeIndices, coordinates]
  | x :: xs, dim, [], _, hr => hr.elim
  | x :: xs, dim, n :: ns, hdrop, hr => by
    have hd : a.extents[dim]? = some n := by
      have := congrArg (·[0]?) hdrop
      simpa using this
    have htail : a.extents.drop (dim + 1) = ns := by
      have := congrArg List.tail hdrop
      simpa using this
    simp only [normalizeIndices, coordinates, List.cons.injEq, List.forall_mem_cons]
    rw [normalizeNegativeIndex_iff hd hr.1.1 hr.1.2, normalizeIndices_iff a htail hr.2]

/-! ## Shapes -/

theorem box_eq_nil_iff : ∀ {ns : List Nat}, box ns = [] ↔ 0 ∈ ns
  | [] => by simp [box]
  | n :: ns => by
    simp only [box, List.flatMap_eq_nil_iff, List.mem_range, List.map_eq_nil_iff, box_eq_nil_iff, List.mem_cons]
    constructor
    · intro h
      rcases Nat.eq_zero_or_pos n with rfl | hn
      · left; rfl
      · right; exact h 0 hn
    · rintro (h | h) i hi
      · omega
      · exact h

theorem length_of_mem_box : ∀ {ns : List Nat} {j : List Int}, j ∈ box ns → j.length = ns.length
  | [], j, h => by
    obtain rfl := List.mem_singleton.mp h
    rfl
  | n :: ns, j, h => by
    obtain ⟨i, -, h⟩ := List.mem_flatMap.mp h
    obtain ⟨j', hj', rfl⟩ := List.mem_map.mp h
    rw [List.length_cons, List.length_cons, length_of_mem_box hj']

theorem map_append_box_eq_iff {ns : List Nat} {c c' : List Int} (hl : c.length = c'.length) :
    (box ns).map (c ++ ·) = (box ns).map (c' ++ ·) ↔ 0 ∈ ns ∨ c = c' := by
  constructor
  · intro h
    cases hb : box ns with
    | nil => left; exact box_eq_nil_iff.mp hb
    | cons j js =>
      right
      rw [hb] at h
      exact List.append_inj_left (List.cons.inj h).1 hl
  · rintro (h | rfl)
    · rw [box_eq_nil_iff.mpr h]; rfl
    · rfl

theorem keep_leading {α : Type} : ∀ (k : List Int) (m : Nat) (ones xs : List α), ones.length = k.length → xs.length = m →
    keep (List.replicate k.length true ++ List.replicate m false) (ones ++ xs) = xs
  | [], 0, [], [], _, _ => rfl
  | [], m + 1, [], x :: xs, _, hm => by
    have := keep_leading [] m [] xs rfl (Nat.succ.inj hm)
    simp only [List.length_nil, List.replicate_zero, List.nil_append] at this
    simp only [List.length_nil, List.replicate_zero, List.nil_append, List.replicate_succ, keep, this]
  | _ :: k, m, o :: ones, xs, ho, hm => by
    simp only [List.length_cons, List.replicate_succ, List.cons_append, keep]
    exact keep_leading k m ones xs (Nat.succ.inj ho) hm

theorem place_leading : ∀ (k : List Int) (j : List Int),
    place (List.replicate k.length true ++ List.replicate j.length false) (k ++ List.replicate j.length 0) j = k ++ j
  | [], [] => rfl
  | [], i :: j => by
    have := place_leading [] j
    simp only [List.length_nil, List.replicate_zero, List.nil_append] at this
    simp [List.replicate_succ, place, this]
  | o :: k, j => by
    simp only [List.length_cons, List.replicate_succ, List.cons_append, place]
    rw [place_leading k j]

theorem dot_leading : ∀ (k j : List Int) (ss : List Int), ss.length = k.length + j.length →
    Strided.dot (k ++ List.replicate j.length 0) ss +
      Strided.dot j (keep (List.replicate k.length true ++ List.replicate j.length false) ss) =
    Strided.dot (k ++ j) ss
  | [], [], _, _ => rfl
  | [], i :: j, s :: ss, h => by
    have := dot_leading [] j ss (by simpa using h)
    simp only [List.length_nil, List.replicate_zero, List.nil_append] at this
    simp only [List.length_nil, List.length_cons, List.replicate_zero, List.nil_append, List.replicate_succ, keep,
      Strided.dot_cons, ← this]
    ring
  | o :: k, j, s :: ss, h => by
    have := dot_leading k j ss (by simp only [List.length_cons] at h; omega)
    simp only [List.length_cons, List.replicate_succ, List.cons_append, keep, Strided.dot_cons, ← this]
    ring
  | [], _ :: _, [], h => by simp at h
  | _ :: _, _, [], h => by
    simp only [List.length_nil, List.length_cons] at h
    omega

/-! ## Accesses -/

def leading (a : MemRef) (c : List Int) : List (List Int) := (box (trailing a c.length)).map (c ++ ·)

theorem leadingSubview_keep (a : MemRef) (c : List Int) :
    keep (leadingSubview a c).dimsToDrop (leadingSubview a c).sizes = trailing a c.length :=
  keep_leading c _ _ _ (List.length_replicate ..) rfl

theorem leadingSubview_coords (a : MemRef) (c : List Int) : (leadingSubview a c).coords = leading a c := by
  unfold Subview.coords
  rw [leadingSubview_keep]
  apply List.map_congr_left
  intro j hj
  have := place_leading c j
  rw [length_of_mem_box hj] at this
  exact this

theorem leadingSubview_addresses (a : MemRef) (c : List Int) (hc : c.length ≤ a.extents.length) :
    (Access.subview (leadingSubview a c)).addresses a.toLayout = (leading a c).map a.address := by
  have hext : ((leadingSubview a c).layout a.toLayout).extents = trailing a c.length := leadingSubview_keep a c
  simp only [Access.addresses, hext, leading, List.map_map]
  apply List.map_congr_left
  intro j hj
  have hlen := length_of_mem_box hj
  have hss : a.strides.length = c.length + j.length := by
    rw [a.rank, hlen]
    unfold trailing
    rw [List.length_drop]
    omega
  have := dot_leading c j a.strides hss
  rw [hlen] at this
  simp only [Layout.address, Subview.layout, leadingSubview, Function.comp_apply]
  rw [Int.add_assoc, this]

theorem leading_full {a : MemRef} {c : List Int} (h : c.length = a.extents.length) : leading a c = [c] := by
  unfold leading trailing
  rw [h, List.drop_length]
  simp [box]

structure Touches (a : MemRef) (c : List Int) (acc : Access) : Prop where
  coords : acc.coords = leading a c
  addresses : acc.addresses a.toLayout = (leading a c).map a.address

theorem touches_element {a : MemRef} {c : List Int} (h : c.length = a.extents.length) :
    Touches a c (.element c) := by
  constructor
  · rw [leading_full h]; rfl
  · rw [leading_full h]; rfl

theorem touches_subview {a : MemRef} {c : List Int} (h : c.length ≤ a.extents.length) :
    Touches a c (.subview (leadingSubview a c)) :=
  ⟨leadingSubview_coords a c, leadingSubview_addresses a c h⟩

def PartialStore (a : MemRef) (op : Op) (i : Index) : Prop :=
  op = .setitem ∧ ∃ xs, i = .tuple xs ∧ xs.length ≠ a.extents.length

theorem lower_eq_none {a : MemRef} {op : Op} {i : Index} (h : PartialStore a op i) : lower a op i = none := by
  obtain ⟨rfl, xs, rfl, hne⟩ := h
  simp only [lower, lowerArraySetitemTuple, normalizeIndices_length]
  exact if_neg hne

theorem lower_touches {a : MemRef} {op : Op} {i : Index} (hr : InRange a.extents i.args) (h : ¬ PartialStore a op i) :
    ∃ acc, lower a op i = some acc ∧ Touches a (normalizeIndices a 0 i.args) acc := by
  have hlen := hr.length_le
  have hle : (normalizeIndices a 0 i.args).length ≤ a.extents.length := by rwa [normalizeIndices_length]
  cases i with
  | scalar x =>
    have hpos : 1 ≤ a.extents.length := hlen
    cases op with
    | getitem =>
      simp only [lower, lowerArrayGetitem]
      split
      · omega
      · next h1 => exact ⟨_, rfl, touches_element h1.symm⟩
      · exact ⟨_, rfl, touches_subview hle⟩
    | setitem =>
      simp only [lower, lowerArraySetitem]
      split
      · omega
      · next h1 => exact ⟨_, rfl, touches_element h1.symm⟩
      · exact ⟨_, rfl, rfl, rfl⟩
  | tuple xs =>
    have hxs : xs.length ≤ a.extents.length := hlen
    cases op with
    | getitem =>
      simp only [lower, lowerArrayTupleGetitem]
      rw [if_neg (by omega)]
      split
      · refine ⟨_, rfl, touches_element ?_⟩
        rw [normalizeIndices_length]
        show xs.length = _
        omega
      · exact ⟨_, rfl, touches_subview hle⟩
    | setitem =>
      have hfull : xs.length = a.extents.length := by
        by_contra hne
        exact h ⟨rfl, xs, rfl, hne⟩
      have hn : (normalizeIndices a 0 xs).length = a.extents.length := by rw [normalizeIndices_length, hfull]
      simp only [lower, lowerArraySetitemTuple]
      rw [if_pos hn]
      exact ⟨_, rfl, touches_element hn⟩

/-! ## The routes -/

/-- The code touches the elements that the indices name, at their addresses. -/
def AccessesNamed (a : MemRef) (op : Op) (i : Index) : Prop :=
  ∃ acc, lower a op i = some acc ∧ acc.coords = named a i.args ∧
    acc.addresses a.toLayout = (named a i.args).map a.address

theorem coordinates_length : ∀ {ns : List Nat} {xs : List IndexArg}, xs.length ≤ ns.length →
    (coordinates ns xs).length = xs.length
  | [], [], _ => rfl
  | _ :: _, [], _ => rfl
  | _ :: _, _ :: _, h => congrArg (· + 1) (coordinates_length (Nat.le_of_succ_le_succ h))

theorem leading_eq_named_iff {a : MemRef} {xs : List IndexArg} (hr : InRange a.extents xs) :
    leading a (normalizeIndices a 0 xs) = named a xs ↔
      0 ∈ trailing a xs.length ∨ ∀ x ∈ xs, KeepsValue x := by
  have hl : (normalizeIndices a 0 xs).length = (coordinates a.extents xs).length := by
    rw [normalizeIndices_length, coordinates_length hr.length_le]
  unfold leading named
  rw [normalizeIndices_length, map_append_box_eq_iff hl, normalizeIndices_iff a List.drop_zero hr]

/-- **Scalar indices.** Each route touches the elements that indices in range name
exactly when no assignment to a tuple leaves dimensions out and every index
keeps its value (or the sub-array is empty). -/
theorem lower_accessesNamed_iff {a : MemRef} {op : Op} {i : Index} (hr : InRange a.extents i.args) :
    AccessesNamed a op i ↔
      ¬ PartialStore a op i ∧ (0 ∈ trailing a i.args.length ∨ ∀ x ∈ i.args, KeepsValue x) := by
  constructor
  · rintro ⟨acc, hacc, hcoords, -⟩
    by_cases hp : PartialStore a op i
    · rw [lower_eq_none hp] at hacc
      cases hacc
    · refine ⟨hp, (leading_eq_named_iff hr).mp ?_⟩
      obtain ⟨acc', hacc', ht⟩ := lower_touches hr hp
      rw [hacc] at hacc'
      cases hacc'
      exact ht.coords.symm.trans hcoords
  · rintro ⟨hp, hv⟩
    obtain ⟨acc, hacc, ht⟩ := lower_touches hr hp
    have hnamed := (leading_eq_named_iff hr).mpr hv
    exact ⟨acc, hacc, ht.coords.trans hnamed, ht.addresses.trans (congrArg _ hnamed)⟩

/-- A contiguous array of 3 rows of 300. -/
def rows : MemRef := ⟨⟨0, [3, 300], [300, 1]⟩, rfl, by decide⟩

/-- A `uint8` index of 200 is taken as -56. -/
theorem lower_uint8_200 :
    InRange rows.extents [.const 1, .var false 8 200#8] ∧
      lower rows .getitem (.tuple [.const 1, .var false 8 200#8]) = some (.element [1, -56]) ∧
      ¬ AccessesNamed rows .getitem (.tuple [.const 1, .var false 8 200#8]) := by
  refine ⟨by simp [InRange, rows, IndexArg.value], rfl, ?_⟩
  rintro ⟨acc, hacc, hcoords, -⟩
  cases hacc
  have h : [[1, -56]] = [[1, 200]] := hcoords
  cases h

theorem lower_int8_neg_row :
    InRange rows.extents [.var true 8 (-1)] ∧ AccessesNamed rows .setitem (.scalar (.var true 8 (-1))) := by
  have hr : InRange rows.extents [.var true 8 (-1)] := by
    refine ⟨?_, trivial⟩
    show -3 ≤ (-1 : BitVec 8).toInt ∧ (-1 : BitVec 8).toInt < 3
    decide
  refine ⟨hr, (@lower_accessesNamed_iff rows .setitem (.scalar (.var true 8 (-1))) hr).mpr ⟨?_, .inr ?_⟩⟩
  · rintro ⟨-, xs, h, -⟩
    cases h
  · intro x hx
    obtain rfl := List.mem_singleton.mp hx
    trivial

end NumbaCudaMlir.ArrayIndex

import Mathlib.Algebra.BigOperators.Ring.List
import NumbaCudaMlir.Nditer

/-!
# The runs of array iterators

Over arrays of one shape the count runs through the indices in C order. Only
`a.flat` leaves the division out of a call that is not valid.
-/

namespace NumbaCudaMlir.Nditer

open Tensor

/-! ## 64-bit arithmetic -/

theorem toNat_ofNat_of_lt {n : Nat} (h : n < 2 ^ 63) : (BitVec.ofNat 64 n).toNat = n := by
  rw [BitVec.toNat_ofNat, Nat.mod_eq_of_lt (by omega)]

theorem toInt_ofNat_of_lt {n : Nat} (h : n < 2 ^ 63) : (BitVec.ofNat 64 n).toInt = n := by
  rw [BitVec.toInt_eq_toNat_of_lt (by rw [toNat_ofNat_of_lt h]; omega), toNat_ofNat_of_lt h]

theorem msb_ofNat_of_lt {n : Nat} (h : n < 2 ^ 63) : (BitVec.ofNat 64 n).msb = false := by
  rw [BitVec.msb_eq_false_iff_two_mul_lt, toNat_ofNat_of_lt h]
  omega

theorem sdiv_ofNat {m n : Nat} (hm : m < 2 ^ 63) (hn : n < 2 ^ 63) :
    (BitVec.ofNat 64 m).sdiv (BitVec.ofNat 64 n) = BitVec.ofNat 64 (m / n) := by
  rw [BitVec.sdiv_eq, msb_ofNat_of_lt hm, msb_ofNat_of_lt hn]
  apply BitVec.eq_of_toNat_eq
  have hle : m / n ≤ m := Nat.div_le_self m n
  rw [toNat_ofNat_of_lt (by omega)]
  show (BitVec.ofNat 64 m / BitVec.ofNat 64 n).toNat = m / n
  rw [BitVec.toNat_udiv, toNat_ofNat_of_lt hm, toNat_ofNat_of_lt hn]

theorem srem_ofNat {m n : Nat} (hm : m < 2 ^ 63) (hn : n < 2 ^ 63) :
    (BitVec.ofNat 64 m).srem (BitVec.ofNat 64 n) = BitVec.ofNat 64 (m % n) := by
  rw [BitVec.srem_eq, msb_ofNat_of_lt hm, msb_ofNat_of_lt hn]
  apply BitVec.eq_of_toNat_eq
  have hle : m % n ≤ m := Nat.mod_le m n
  rw [toNat_ofNat_of_lt (by omega)]
  show (BitVec.ofNat 64 m % BitVec.ofNat 64 n).toNat = m % n
  rw [BitVec.toNat_umod, toNat_ofNat_of_lt hm, toNat_ofNat_of_lt hn]

theorem ofNat_slt {m n : Nat} (hm : m < 2 ^ 63) (hn : n < 2 ^ 63) : (BitVec.ofNat 64 m).slt (BitVec.ofNat 64 n) = decide (m < n) := by
  rw [BitVec.slt_eq_decide, toInt_ofNat_of_lt hm, toInt_ofNat_of_lt hn]
  simp

theorem ofNat_eq_zero {n : Nat} (h : n < 2 ^ 63) : BitVec.ofNat 64 n = 0 ↔ n = 0 := by
  rw [← BitVec.toNat_inj, toNat_ofNat_of_lt h]
  rfl

/-! ## Indices -/

theorem coords_inShape {ns : List Nat} {k : Nat} (h : k < ns.prod) : InShape (coords ns k) ns :=
  mem_indices.mp (List.mem_of_getElem? (getElem?_indices h))

theorem InShape.lt_of_mem {is ns : List Nat} (h : InShape is ns) (hns : ∀ n ∈ ns, n < 2 ^ 63) : ∀ i ∈ is, i < 2 ^ 63 := by
  induction h with
  | nil => simp
  | cons hi _ ih =>
    intro j hj
    rcases List.mem_cons.mp hj with rfl | hj
    · exact hi.trans (hns _ List.mem_cons_self)
    · exact ih (fun n hn => hns n (List.mem_cons_of_mem _ hn)) j hj

theorem map_toInt_ofNat {is : List Nat} (h : ∀ i ∈ is, i < 2 ^ 63) : (is.map (BitVec.ofNat 64)).map BitVec.toInt = is.map fun i : Nat => (i : Int) := by
  rw [List.map_map]
  exact List.map_congr_left fun i hi => toInt_ofNat_of_lt (h i hi)

theorem unravelDims_eq {k : Nat} (hk : k < 2 ^ 63) : ∀ {ns : List Nat}, 0 ∉ ns → (∀ n ∈ ns, n < 2 ^ 63) →
    unravelDims (ns.map (BitVec.ofNat 64)) (BitVec.ofNat 64 k) = some ((coords ns k).map (BitVec.ofNat 64), BitVec.ofNat 64 (k / ns.prod))
  | [], _, _ => by rw [List.prod_nil, Nat.div_one]; rfl
  | n :: ns, hpos, hns => by
    have hn := hns n List.mem_cons_self
    have hn0 : BitVec.ofNat 64 n ≠ 0 := fun h => hpos (by rw [(ofNat_eq_zero hn).mp h]; exact List.mem_cons_self)
    have hle : k / ns.prod ≤ k := Nat.div_le_self _ _
    rw [List.map_cons, unravelDims, unravelDims_eq hk (fun h => hpos (List.mem_cons_of_mem _ h)) fun m hm => hns m (List.mem_cons_of_mem _ hm)]
    simp only [Option.bind_eq_bind, Option.bind_some, if_neg hn0, coords, List.map_cons, List.prod_cons]
    rw [srem_ofNat (by omega) hn, sdiv_ofNat (by omega) hn, Nat.div_div_eq_div_mul, Nat.mul_comm]

theorem broadcastIndex_self {is ns : List Nat} (h : InShape is ns) : broadcastIndex ns is = is := by
  rw [broadcastIndex, h.length_eq, Nat.sub_self, List.drop_zero]
  induction h with
  | nil => rfl
  | @cons i n is ns hi _ ih =>
    rw [List.zipWith_cons_cons, ih]
    split
    · rw [show i = 0 by omega]
    · rfl

/-! ## The iterator object -/

section
variable (first : Operand) (rest : List Operand)

theorem Operand.prod_lt (a : Operand) : a.sizes.prod < 2 ^ 63 := by
  by_cases h : 0 ∈ a.sizes
  · rw [List.prod_eq_zero h]
    exact Nat.two_pow_pos 63
  · have hfilter : a.sizes.filter (· ≠ 0) = a.sizes := List.filter_eq_self.mpr fun n hn => by
      simpa using fun h0 : n = 0 => h (h0 ▸ hn)
    rw [← hfilter]
    exact a.size_lt

theorem shape_eq : (ndIterIterObject first rest first.rank).shape = first.sizes.map (BitVec.ofNat 64) := by
  refine List.ext_getElem (by simp [ndIterIterObject]) fun d h₁ h₂ => ?_
  have hd : d < first.sizes.length := by simpa using h₂
  simp [ndIterIterObject, ArrayIndex.MemRef.dim, hd]

theorem foldl_mul_ofNat (n : Nat) (ns : List Nat) :
    (ns.map (BitVec.ofNat 64)).foldl (· * ·) (BitVec.ofNat 64 n) = BitVec.ofNat 64 (n * ns.prod) := by
  induction ns generalizing n with
  | nil => simp
  | cons m ns ih =>
    rw [List.map_cons, List.foldl_cons, ← BitVec.ofNat_mul, ih, List.prod_cons, Nat.mul_assoc]

theorem size_eq : (ndIterIterObject first rest first.rank).size = BitVec.ofNat 64 first.sizes.prod := by
  have hshape := shape_eq first rest
  rw [ndIterIterObject] at hshape ⊢
  simp only at hshape ⊢
  rw [hshape]
  cases first.sizes with
  | nil => rfl
  | cons n ns => exact foldl_mul_ofNat n ns

theorem unravelCOrder_eq {k : Nat} (hk : k < first.sizes.prod) :
    (ndIterIterObject first rest first.rank).unravelCOrder (BitVec.ofNat 64 k) = some ((coords first.sizes k).map (BitVec.ofNat 64)) := by
  have hpos : 0 ∉ first.sizes := (coords_inShape hk).pos
  rw [NdIterIterObject.unravelCOrder, shape_eq, unravelDims_eq (hk.trans first.prod_lt) hpos first.ref.small]
  show (if first.rank = 0 then _ else if first.rank = 1 then _ else _) = _
  by_cases h0 : first.rank = 0
  · rw [if_pos h0, List.length_eq_zero_iff.mp h0]
    rfl
  · by_cases h1 : first.rank = 1
    · obtain ⟨n, hn⟩ := List.length_eq_one_iff.mp h1
      rw [hn] at hk ⊢
      rw [if_neg h0, if_pos h1, coords, coords, List.prod_nil, Nat.div_one, Nat.mod_eq_of_lt (by simpa using hk)]
      rfl
    · rw [if_neg h0, if_neg h1]
      rfl

theorem exists_unravelCOrder (h : first.rank ≤ 1 ∨ 0 ∉ first.sizes) :
    ∃ is, (ndIterIterObject first rest first.rank).unravelCOrder (BitVec.ofNat 64 first.sizes.prod) = some is := by
  rw [NdIterIterObject.unravelCOrder]
  show ∃ is, (if first.rank = 0 then _ else if first.rank = 1 then _ else _) = some is
  by_cases h0 : first.rank = 0
  · exact ⟨_, if_pos h0⟩
  · by_cases h1 : first.rank = 1
    · exact ⟨_, by rw [if_neg h0, if_pos h1]⟩
    · rw [if_neg h0, if_neg h1, shape_eq, unravelDims_eq first.prod_lt (h.resolve_left (by omega)) first.ref.small]
      exact ⟨_, rfl⟩

theorem makeZeroDSubview_eq {a : Operand} (hsizes : a.sizes = first.sizes) {k : Nat} (hk : k < first.sizes.prod) :
    makeZeroDSubview a ((coords first.sizes k).map (BitVec.ofNat 64)) = elementAddress a (coords first.sizes k) := by
  have hin := coords_inShape hk
  rw [makeZeroDSubview, elementAddress, hsizes, broadcastIndex_self hin, map_toInt_ofNat (InShape.lt_of_mem hin first.ref.small)]

end

/-! ## Runs -/

section
variable {α : Type} {next : BitVec 64 → Option (IterResult α × BitVec 64)} {n : Nat}

theorem indexAfter_eq (hstep : ∀ k < n, ∃ r, next (BitVec.ofNat 64 k) = some (r, BitVec.ofNat 64 (k + 1)))
    (hend : ∃ r, next (BitVec.ofNat 64 n) = some (r, BitVec.ofNat 64 n)) (k : Nat) :
    indexAfter next k = some (BitVec.ofNat 64 (min k n)) := by
  induction k with
  | zero => simp [indexAfter]
  | succ k ih =>
    rw [indexAfter, ih, Option.bind_some]
    by_cases hk : k < n
    · obtain ⟨r, hr⟩ := hstep k hk
      rw [Nat.min_eq_left (by omega), hr, Nat.min_eq_left (by omega)]
      rfl
    · obtain ⟨r, hr⟩ := hend
      rw [Nat.min_eq_right (by omega), hr, Nat.min_eq_right (by omega)]
      rfl

theorem visits_of_steps {shape : List Nat} {exposed : List Nat → α}
    (hstep : ∀ k < shape.prod, next (BitVec.ofNat 64 k) = some (⟨exposed (coords shape k), true⟩, BitVec.ofNat 64 (k + 1)))
    (hend : ∃ value, next (BitVec.ofNat 64 shape.prod) = some (⟨value, false⟩, BitVec.ofNat 64 shape.prod)) : Visits next shape exposed := by
  obtain ⟨value, hvalue⟩ := hend
  have hindex := indexAfter_eq (fun k hk => ⟨_, hstep k hk⟩) ⟨_, hvalue⟩
  refine ⟨fun k hk => ⟨_, getElem?_indices hk, ?_⟩, fun k hk => ⟨value, ?_⟩⟩
  · rw [call, hindex, Nat.min_eq_left hk.le, Option.bind_some, hstep k hk]
    rfl
  · rw [call, hindex, Nat.min_eq_right hk, Option.bind_some, hvalue]
    rfl

end

section
variable {first : Operand} {rest : List Operand}

theorem next_visits (hsame : ∀ a ∈ rest, a.sizes = first.sizes) (hdef : first.rank ≤ 1 ∨ 0 ∉ first.sizes) :
    Visits (ndIterIterObject first rest first.rank).next first.sizes fun is => (first :: rest).map fun a => elementAddress a is := by
  have hprod := first.prod_lt
  refine visits_of_steps (fun k hk => ?_) ?_
  · have hviews : (first :: rest).map (fun a => makeZeroDSubview a ((coords first.sizes k).map (BitVec.ofNat 64))) =
        (first :: rest).map fun a => elementAddress a (coords first.sizes k) := by
      refine List.map_congr_left fun a ha => makeZeroDSubview_eq first ?_ hk
      rcases List.mem_cons.mp ha with rfl | ha
      · rfl
      · exact hsame a ha
    rw [NdIterIterObject.next, unravelCOrder_eq first rest hk, size_eq, ofNat_slt (by omega) hprod, decide_eq_true hk, BitVec.ofNat_add, ← hviews]
    rfl
  · obtain ⟨is, his⟩ := exists_unravelCOrder first rest hdef
    rw [NdIterIterObject.next, his, size_eq, ofNat_slt hprod hprod, decide_eq_false (Nat.lt_irrefl _)]
    exact ⟨_, rfl⟩

theorem flatNext_visits (a : Operand) : Visits (flatNext (makeArrayFlatiter a) a) a.sizes fun is => some (elementAddress a is) := by
  have hprod := a.prod_lt
  refine visits_of_steps (fun k hk => ?_) ?_
  · rw [flatNext, makeArrayFlatiter, unravelCOrder_eq a [] hk, size_eq, ofNat_slt (by omega) hprod, decide_eq_true hk, BitVec.ofNat_add,
      ← makeZeroDSubview_eq a rfl hk]
    rfl
  · rw [flatNext, makeArrayFlatiter, size_eq, ofNat_slt hprod hprod, decide_eq_false (Nat.lt_irrefl _)]
    exact ⟨_, rfl⟩

end

/-- Arrays of different ranks are rejected; over arrays of one shape, without a zero extent from rank 2 on, `np.nditer` makes one step
for each index in C order and stays exhausted, and so does `a.flat` over every array. -/
theorem nditer_visits :
    (∀ first rest, (∃ a ∈ rest, a.rank ≠ first.rank) → makeArrayNditer first rest = .error .notImplementedError) ∧
    (∀ first rest, (∀ a ∈ rest, a.sizes = first.sizes) → (first.rank ≤ 1 ∨ 0 ∉ first.sizes) →
      ∃ it, makeArrayNditer first rest = .ok it ∧ Visits it.next first.sizes fun is => (first :: rest).map fun a => elementAddress a is) ∧
    ∀ a, Visits (flatNext (makeArrayFlatiter a) a) a.sizes fun is => some (elementAddress a is) := by
  refine ⟨fun first rest ⟨a, ha, hne⟩ => ?_, fun first rest hsame hdef => ?_, flatNext_visits⟩
  · exact if_pos (List.any_eq_true.mpr ⟨a, ha, decide_eq_true hne⟩)
  · refine ⟨_, if_neg fun hany => ?_, next_visits hsame hdef⟩
    obtain ⟨a, ha, hne⟩ := List.any_eq_true.mp hany
    exact of_decide_eq_true hne (congrArg List.length (hsame a ha))

def scalar : Operand := ⟨{ offset := 0, extents := [], strides := [], rank := rfl, small := by decide }, by decide⟩

theorem one_rank : ([1] : List Int).length = ([1] : List Nat).length := rfl

def one : Operand := ⟨{ offset := 0, extents := [1], strides := [1], rank := one_rank, small := by decide }, by decide⟩

def matrix : Operand := ⟨{ offset := 0, extents := [2, 3], strides := [3, 1], rank := rfl, small := by decide }, by decide⟩

theorem nditer_visits_matrix : makeArrayNditer scalar [one] = .error .notImplementedError ∧
    (∃ it, makeArrayNditer matrix [matrix] = .ok it ∧
      Visits it.next [2, 3] fun is => [matrix, matrix].map fun a => elementAddress a is) ∧
    Visits (flatNext (makeArrayFlatiter matrix) matrix) [2, 3] fun is => some (elementAddress matrix is) :=
  ⟨nditer_visits.1 scalar [one] ⟨one, List.mem_singleton_self _, by decide⟩,
    nditer_visits.2.1 matrix [matrix] (fun a ha => by rw [List.mem_singleton.mp ha]) (.inr (by decide)), nditer_visits.2.2 matrix⟩

/-- An array of rank 0 and one of one element are not iterated together. -/
theorem nditer_rejects_ranks : ¬NditerBroadcasts scalar [one] := by
  intro h
  obtain ⟨it, hit, -⟩ := h [1] (by decide)
  rw [makeArrayNditer, if_pos (by decide)] at hit
  cases hit

end NumbaCudaMlir.Nditer

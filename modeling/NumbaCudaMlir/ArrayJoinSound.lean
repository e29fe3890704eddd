import NumbaCudaMlir.ArrayJoin

/-!
# Which joins are NumPy's

An element is extended by zeros, or read as signed on its way to a float, and
the axis is read as signed. The loops copy along the axis whatever the shapes.
-/

namespace NumbaCudaMlir.ArrayJoin

open MachineInt
open NumberTyping (OperandType UnifiedType unifyTypes unifyTypes_covers)
open Tensor

/-! ## Elements -/

/-- Where extension by zeros, or reading as signed on the way to a float, keeps the element. -/
def Keeps (target : UnifiedType) (d : OperandType) (x : BitVec (storageWidth d)) : Prop :=
  match target, d with
  | .integer t, .integer s => s.signed = true → s.bits = t.bits ∨ 0 ≤ x.toInt
  | .float64, .integer s => s.signed = false → 0 ≤ x.toInt
  | _, _ => True

theorem toInt_of_nonneg {w : Nat} {x : BitVec w} (h : 0 ≤ x.toInt) : x.toInt = x.toNat := by
  rcases toInt_cases x with ⟨-, h⟩ | ⟨hlt, -⟩
  · exact h
  · omega

theorem toInt_of_neg {w : Nat} {x : BitVec w} (h : x.toInt < 0) : x.toInt = x.toNat - 2 ^ w := by
  rcases toInt_cases x with ⟨hle, -⟩ | ⟨-, h⟩
  · omega
  · exact h

theorem boolean_toInt {x : BitVec 8} (h : x.toNat ≤ 1) : x.toInt = x.toNat := by
  rw [BitVec.toInt_eq_toNat_cond]
  omega

theorem ofInt_toNat_eq_iff {w v : Nat} (hw : w ≤ v) (x : BitVec w) :
    BitVec.ofInt v (x.toNat : Int) = BitVec.ofInt v x.toInt ↔ w = v ∨ 0 ≤ x.toInt := by
  by_cases h : 0 ≤ x.toInt
  · simp [toInt_of_nonneg h]
  · rw [toInt_of_neg (by omega), ofInt_eq_ofInt_iff, show (x.toNat : Int) - (x.toNat - 2 ^ w) = 2 ^ w by ring, two_pow_dvd_iff,
      or_iff_left (by rw [← toInt_of_neg (by omega)]; exact h)]
    omega

theorem convertIntegerToFloat_signed {w : Nat} (hw : 1 < w) (f : BinaryFloat.Format) (x : BitVec w) :
    convertIntegerToFloat none f x = BinaryFloat.ofInt f x.toInt := by
  rw [convertIntegerToFloat, useSignedConversion, Option.getD_none, decide_eq_true hw, intToFp, value_signed]

theorem mlirConvert_eq_iff {target : UnifiedType} {d : OperandType} (hcovers : target.Covers d) (x : BitVec (storageWidth d))
    (hbyte : d = .boolean → x.toNat ≤ 1) : mlirConvert target x = ownConvert target d x ↔ Keeps target d x := by
  cases d with
  | boolean =>
    have hx := hbyte rfl
    have hone : ∀ v : Nat, 8 ≤ v → convertInteger none v x = BitVec.ofInt v (x.toNat : Int) := fun v hv => by
      have hv1 : v ≠ 1 := by omega
      exact convertInteger_eq (.inl hv1) x
    cases target with
    | boolean => exact iff_of_true (congrArg (Scalar.int 8) (hone 8 (Nat.le_refl 8))) trivial
    | integer t =>
      have ht : 8 ≤ t.bits := by cases h : t.width <;> simp [IntType.bits, Width.bits, h]
      exact iff_of_true (congrArg (Scalar.int t.bits) (hone t.bits ht)) trivial
    | float64 =>
      refine iff_of_true ?_ trivial
      have h8 : 1 < storageWidth .boolean := by decide
      have hvalue : value OperandType.boolean.signed x = x.toInt := (boolean_toInt hx).symm
      rw [mlirConvert, ownConvert, convertIntegerToFloat_signed h8, hvalue]
  | integer s =>
    cases target with
    | boolean => cases hcovers
    | integer t =>
      have hne : t.bits ≠ 1 := fun h => absurd t.width.one_lt_bits (by rw [← IntType.bits, h]; decide)
      have hconv : convertInteger none t.bits x = BitVec.ofInt t.bits (x.toNat : Int) := convertInteger_eq (.inl hne) x
      rw [mlirConvert, ownConvert, Keeps, hconv]
      simp only [Scalar.int.injEq, heq_eq_eq, true_and]
      cases hs : s.signed with
      | true =>
        rw [show value (OperandType.integer s).signed x = x.toInt from by rw [OperandType.signed, hs, value_signed]]
        exact (ofInt_toNat_eq_iff (w := s.bits) hcovers x).trans ⟨fun h _ => h, fun h => h rfl⟩
      | false =>
        rw [show value (OperandType.integer s).signed x = x.toNat from by rw [OperandType.signed, hs, value_unsigned]]
        simp
    | float64 =>
      have hw : 1 < storageWidth (.integer s) := s.width.one_lt_bits
      rw [mlirConvert, ownConvert, Keeps, convertIntegerToFloat_signed hw, OperandType.signed]
      cases hs : s.signed with
      | true => simp
      | false =>
        rw [value_unsigned, Scalar.float.injEq]
        constructor
        · rintro h -
          by_contra hneg
          exact BinaryFloat.ofInt_ne_of_sign BinaryFloat.binary64 (show x.toInt < 0 by omega) (Int.natCast_nonneg x.toNat) h
        · intro h
          rw [toInt_of_nonneg (h rfl)]

/-! ## Axes -/

theorem indexOf_toNat {n : Nat} (h : n < 2 ^ 64) : (indexOf n).toNat = n := by
  rw [indexOf, BitVec.toNat_ofNat, Nat.mod_eq_of_lt h]

theorem eq_indexOf_iff {x : BitVec 64} {n : Nat} (h : n < 2 ^ 64) : x = indexOf n ↔ x.toNat = n := by
  rw [← BitVec.toNat_inj, indexOf_toNat h]

theorem normalizeAxis_lt {axis : Int} {rank k : Nat} (h : normalizeAxis axis rank = some k) : k < rank := by
  unfold normalizeAxis at h
  split at h
  · cases h
    omega
  · split at h
    · cases h
      omega
    · cases h

theorem intrinsicAxis_toNat (axis : Axis) {rank : Nat} (h : rank < 2 ^ 63) :
    match normalizeAxis axis.bits.toInt rank with
    | some k => (intrinsicAxis axis rank).1.toNat = k
    | none => rank ≤ (intrinsicAxis axis rank).1.toNat := by
  have hx : (axis.bits.signExtend 64).toInt = axis.bits.toInt := BitVec.toInt_signExtend_of_le axis.ty.width.bits_le
  have hr := indexOf_toNat (show rank < 2 ^ 64 by omega)
  have hlt := (axis.bits.signExtend 64).isLt
  have hslt : (axis.bits.signExtend 64).slt 0 = decide (axis.bits.toInt < 0) := by
    rw [BitVec.slt_eq_decide, hx]
    rfl
  have hsum : (axis.bits.signExtend 64 + indexOf rank).toNat = ((axis.bits.signExtend 64).toNat + rank) % 2 ^ 64 := by
    rw [BitVec.toNat_add, hr]
  have hindex : (intrinsicAxis axis rank).1 =
      if axis.bits.toInt < 0 then axis.bits.signExtend 64 + indexOf rank else axis.bits.signExtend 64 := by
    simp only [intrinsicAxis, hslt, decide_eq_true_eq]
  rw [hindex, normalizeAxis]
  rcases toInt_cases (axis.bits.signExtend 64) with ⟨hsign, heq⟩ | ⟨hsign, heq⟩
  · rw [hx] at hsign heq
    rw [if_neg (show ¬ axis.bits.toInt < 0 by omega)]
    by_cases hin : 0 ≤ axis.bits.toInt ∧ axis.bits.toInt < rank
    · rw [if_pos hin]
      show (axis.bits.signExtend 64).toNat = axis.bits.toInt.toNat
      omega
    · rw [if_neg hin, if_neg (by omega)]
      show rank ≤ (axis.bits.signExtend 64).toNat
      omega
  · rw [hx] at hsign heq
    rw [if_pos hsign, if_neg (show ¬ (0 ≤ axis.bits.toInt ∧ axis.bits.toInt < rank) by omega)]
    by_cases hin : axis.bits.toInt < 0 ∧ 0 ≤ axis.bits.toInt + rank
    · rw [if_pos hin]
      show (axis.bits.signExtend 64 + indexOf rank).toNat = (axis.bits.toInt + rank).toNat
      omega
    · rw [if_neg hin]
      show rank ≤ (axis.bits.signExtend 64 + indexOf rank).toNat
      omega

theorem intrinsicAxis_invalid (axis : Axis) {rank : Nat} (h : rank < 2 ^ 63) :
    (intrinsicAxis axis rank).2 = true ↔ normalizeAxis axis.bits.toInt rank = none := by
  have hspec := intrinsicAxis_toNat axis h
  have hinv : (intrinsicAxis axis rank).2 = (indexOf rank).ule (intrinsicAxis axis rank).1 := rfl
  rw [hinv, BitVec.ule_iff_toNat_le, indexOf_toNat (by omega)]
  cases hk : normalizeAxis axis.bits.toInt rank with
  | none => rw [hk] at hspec; simpa using hspec
  | some k =>
    rw [hk] at hspec
    have := normalizeAxis_lt hk
    simp only [reduceCtorEq, iff_false]
    omega

theorem intrinsicAxis_eq_iff (axis : Axis) {rank d : Nat} (h : rank < 2 ^ 63) (hd : d < rank) :
    (intrinsicAxis axis rank).1 = indexOf d ↔ normalizeAxis axis.bits.toInt rank = some d := by
  have hspec := intrinsicAxis_toNat axis h
  rw [eq_indexOf_iff (by omega)]
  cases hk : normalizeAxis axis.bits.toInt rank with
  | none =>
    rw [hk] at hspec
    simp only [reduceCtorEq, iff_false]
    omega
  | some k =>
    rw [hk] at hspec
    simp only [hspec, Option.some.injEq]

/-! ## Copies -/

theorem mem_emit {target : UnifiedType} {source : Source} {f : List Nat → List Nat} {s : List Nat × Scalar} : ∀ {sizes is : List Nat},
    s ∈ emit target source f sizes is ↔ ∃ js, InShape js sizes ∧ s = (f (is ++ js), mlirConvert target (source.load (is ++ js)))
  | [], is => by simp [emit]
  | n :: sizes, is => by
    simp only [emit, List.mem_flatMap, List.mem_range, mem_emit]
    constructor
    · rintro ⟨i, hi, js, hjs, rfl⟩
      exact ⟨i :: js, .cons hi hjs, by rw [List.append_assoc, List.singleton_append]⟩
    · rintro ⟨_ | ⟨i, js⟩, _ | ⟨hi, hjs⟩, rfl⟩
      exact ⟨i, hi, js, hjs, by rw [List.append_assoc, List.singleton_append]⟩

/-- `v` shows the elements of `u` at the indices that `φ` takes theirs to. -/
structure Expands {α : Type} (φ : List Nat → List Nat) (u v : View α) : Prop where
  maps : ∀ is, InShape is u.sizes → InShape (φ is) v.sizes ∧ v.elem (φ is) = u.elem is
  onto : ∀ js, InShape js v.sizes → ∃ is, InShape is u.sizes ∧ φ is = js

theorem Expands.refl {α : Type} (v : View α) : Expands id v v := ⟨fun _ h => ⟨h, rfl⟩, fun js h => ⟨js, h, rfl⟩⟩

abbrev Source.converted (target : UnifiedType) (a : Source) : View Scalar := a.view fun _ => mlirConvert target

theorem mem_intrinsicCopyArray {target : UnifiedType} {a : Source} {f φ ψ : List Nat → List Nat} {v : View Scalar}
    (h : Expands φ (a.converted target) v) (hf : ∀ is, is.length = a.rank → f is = ψ (φ is)) {s : List Nat × Scalar} :
    s ∈ intrinsicCopyArray target a f ↔ ∃ js, InShape js v.sizes ∧ s = (ψ js, v.elem js) := by
  rw [intrinsicCopyArray, mem_emit]
  constructor
  · rintro ⟨is, his, rfl⟩
    obtain ⟨hin, helem⟩ := h.maps is his
    rw [List.nil_append, hf is his.length_eq]
    exact ⟨φ is, hin, by rw [helem]; rfl⟩
  · rintro ⟨js, hjs, rfl⟩
    obtain ⟨is, his, rfl⟩ := h.onto js hjs
    obtain ⟨-, helem⟩ := h.maps is his
    rw [helem]
    exact ⟨is, his, by rw [List.nil_append, hf is his.length_eq]; rfl⟩

/-! ## Concatenation -/

section
variable {target : UnifiedType} {axis : BitVec 64} {rank k : Nat}

theorem mapIdx_eq_moveAt (hk : ∀ d < rank, axis = indexOf d ↔ d = k) (base : Nat) {is : List Nat} (hlen : is.length = rank) :
    (is.mapIdx fun dim index => if axis = indexOf dim then index + base else index) = moveAt k base is := by
  refine List.ext_getElem (by simp) fun d h₁ h₂ => ?_
  have hd : d < is.length := by simpa using h₁
  rw [List.getElem_mapIdx]
  simp only [hk d (by omega), moveAt, List.getElem_set, eq_comm (a := d)]
  split
  · next h => subst h; simp [hd]
  · rfl

theorem nextOffset_eq (hk : ∀ d < rank, axis = indexOf d ↔ d = k) (offset : Nat) {member : List Nat} (hlen : member.length = rank) :
    nextOffset axis rank offset member = offset + member.getD k 0 := by
  have hrange : ∀ n ≤ rank, (List.range n).foldl (fun offset dim => if axis = indexOf dim then offset + member.getD dim 0 else offset) offset =
      offset + if k < n then member.getD k 0 else 0 := by
    intro n hn
    induction n with
    | zero => simp
    | succ n ih =>
      rw [List.range_succ, List.foldl_append, ih (by omega), List.foldl_cons, List.foldl_nil]
      simp only [hk n (by omega)]
      by_cases h : n = k
      · subst h
        simp
      · rw [if_neg h]
        congr 1
        simp only [show k < n + 1 ↔ k < n by omega]
  rw [nextOffset, hrange rank (Nat.le_refl _)]
  by_cases h : k < rank
  · rw [if_pos h]
  · rw [if_neg h, List.getD_eq_getElem?_getD, List.getElem?_eq_none (by omega), Option.getD_none]

theorem mem_concatStores (hk : ∀ d < rank, axis = indexOf d ↔ d = k) {s : List Nat × Scalar} {arrays : List Source} {views : List (View Scalar)}
    (h : List.Forall₂ (fun a v => a.rank = rank ∧ v.sizes = a.sizes ∧ Expands id (a.converted target) v) arrays views) {offset : Nat} :
    s ∈ concatStores target axis rank offset arrays ↔
      ∃ b v, (b, v) ∈ blocks k offset views ∧ ∃ is, InShape is v.sizes ∧ s = (moveAt k b is, v.elem is) := by
  induction h generalizing offset with
  | nil => simp [concatStores, blocks]
  | @cons a v arrays views hav _ ih =>
    obtain ⟨hlen, hsizes, hexp⟩ := hav
    have hcopy : s ∈ intrinsicCopyArray target a (fun is => is.mapIdx fun dim index => if axis = indexOf dim then index + offset else index) ↔
        ∃ js, InShape js v.sizes ∧ s = (moveAt k offset js, v.elem js) :=
      mem_intrinsicCopyArray hexp fun is his => mapIdx_eq_moveAt hk offset (his.trans hlen)
    rw [concatStores, List.mem_append, nextOffset_eq hk offset hlen, ih, hcopy, exists_mem_blocks_cons, View.sizeAt, hsizes]

end

/-! ## Stacking -/

section
variable {target : UnifiedType} {axis : BitVec 64} {rank a : Nat}

theorem intrinsicSelectAxis_eq {α : Type} {last : Nat} (ha : a ≤ last) (h : ∀ d, 0 < d → d ≤ last → (axis = indexOf d ↔ d = a))
    (candidates : Nat → α) : intrinsicSelectAxis axis last candidates = candidates a := by
  have hrange : ∀ n ≤ last, (List.range n).foldl (fun selected i => if axis = indexOf (i + 1) then candidates (i + 1) else selected)
      (candidates 0) = candidates (if a ≤ n then a else 0) := by
    intro n hn
    induction n with
    | zero =>
      simp only [Nat.le_zero]
      split
      · next h0 => rw [h0]; rfl
      · rfl
    | succ n ih =>
      rw [List.range_succ, List.foldl_append, ih (by omega), List.foldl_cons, List.foldl_nil]
      simp only [h (n + 1) (by omega) hn]
      by_cases hna : n + 1 = a
      · rw [if_pos hna, if_pos (by omega), hna]
      · rw [if_neg hna]
        simp only [show a ≤ n + 1 ↔ a ≤ n by omega]
  rw [intrinsicSelectAxis, hrange last (Nat.le_refl _), if_pos ha]

/-- The index with units before, at `a` and after. -/
def pad (x leadingUnits a trailingUnits : Nat) (is : List Nat) : List Nat :=
  List.replicate leadingUnits x ++ is.insertIdx a x ++ List.replicate trailingUnits x

theorem map_getD_range (l : List Nat) : ((List.range l.length).map fun d => l.getD d 0) = l := by
  refine List.ext_getElem (by simp) fun d h₁ h₂ => ?_
  simp [h₂]

theorem length_pad {x leadingUnits trailingUnits : Nat} {is : List Nat} (ha : a ≤ is.length) :
    (pad x leadingUnits a trailingUnits is).length = leadingUnits + (is.length + 1) + trailingUnits := by
  simp [pad, List.length_insertIdx_of_le_length ha, Nat.add_assoc]

theorem set_insertIdx {a x y : Nat} {is : List Nat} (ha : a ≤ is.length) : (is.insertIdx a x).set a y = is.insertIdx a y := by
  induction is generalizing a with
  | nil =>
    obtain rfl : a = 0 := by simpa using ha
    rfl
  | cons i is ih =>
    cases a with
    | zero => rfl
    | succ a => rw [List.insertIdx_succ_cons, List.set_cons_succ, ih (by simpa using ha), List.insertIdx_succ_cons]

theorem set_pad {x y leadingUnits trailingUnits : Nat} {is : List Nat} (ha : a ≤ is.length) :
    (pad x leadingUnits a trailingUnits is).set (leadingUnits + a) y =
      List.replicate leadingUnits x ++ is.insertIdx a y ++ List.replicate trailingUnits x := by
  have hlen : (is.insertIdx a x).length = is.length + 1 := List.length_insertIdx_of_le_length ha x
  rw [pad, List.append_assoc, List.set_append_right _ _ (by simp), List.length_replicate, Nat.add_sub_cancel_left,
    List.set_append_left _ _ (by omega), set_insertIdx ha, List.append_assoc]

theorem getD_pad {x leadingUnits trailingUnits : Nat} {is : List Nat} (ha : a ≤ is.length) :
    (pad x leadingUnits a trailingUnits is).getD (leadingUnits + a) 0 = x := by
  have hset : (pad x leadingUnits a trailingUnits is).set (leadingUnits + a) x = pad x leadingUnits a trailingUnits is := set_pad ha
  have hlen : (pad x leadingUnits a trailingUnits is).length = leadingUnits + (is.length + 1) + trailingUnits := length_pad ha
  rw [List.getD_eq_getElem?_getD, ← hset, List.getElem?_set_self (by omega), Option.getD_some]

theorem stackIndex_eq (ha : a ≤ rank) (h : ∀ d, 0 < d → d ≤ rank → (axis = indexOf d ↔ d = a)) (leadingUnits trailingUnits arrayNumber : Nat)
    {is : List Nat} (hlen : is.length = rank) : stackIndex axis rank leadingUnits trailingUnits arrayNumber is =
      moveAt (leadingUnits + a) arrayNumber (pad 0 leadingUnits a trailingUnits is) := by
  have hset : moveAt (leadingUnits + a) arrayNumber (pad 0 leadingUnits a trailingUnits is) =
      List.replicate leadingUnits 0 ++ is.insertIdx a arrayNumber ++ List.replicate trailingUnits 0 := by
    rw [moveAt, getD_pad (by omega), Nat.zero_add, set_pad (by omega)]
  have hlength : (List.replicate leadingUnits 0 ++ is.insertIdx a arrayNumber ++ List.replicate trailingUnits 0).length =
      leadingUnits + (rank + 1) + trailingUnits := by
    rw [← hset, length_moveAt, length_pad (by omega), hlen]
  rw [hset, stackIndex, ← map_getD_range (List.replicate leadingUnits 0 ++ is.insertIdx a arrayNumber ++ List.replicate trailingUnits 0), hlength]
  exact List.map_congr_left fun d _ => intrinsicSelectAxis_eq ha h _

theorem mem_stackStores (ha : a ≤ rank) (hk : ∀ d, 0 < d → d ≤ rank → (axis = indexOf d ↔ d = a)) {leadingUnits trailingUnits : Nat}
    {s : List Nat × Scalar} {arrays : List Source} {views : List (View Scalar)}
    (h : List.Forall₂ (fun array v => array.rank = rank ∧ v.sizes = pad 1 leadingUnits a trailingUnits array.sizes ∧
      Expands (pad 0 leadingUnits a trailingUnits) (array.converted target) v) arrays views) {arrayNumber : Nat} :
    s ∈ stackStores target axis rank leadingUnits trailingUnits arrayNumber arrays ↔
      ∃ b v, (b, v) ∈ blocks (leadingUnits + a) arrayNumber views ∧ ∃ is, InShape is v.sizes ∧ s = (moveAt (leadingUnits + a) b is, v.elem is) := by
  induction h generalizing arrayNumber with
  | nil => simp [stackStores, blocks]
  | @cons array v arrays views hav _ ih =>
    obtain ⟨hlen, hsizes, hexp⟩ := hav
    have hcopy : s ∈ intrinsicCopyArray target array (stackIndex axis rank leadingUnits trailingUnits arrayNumber) ↔
        ∃ js, InShape js v.sizes ∧ s = (moveAt (leadingUnits + a) arrayNumber js, v.elem js) :=
      mem_intrinsicCopyArray hexp fun is his => stackIndex_eq ha hk leadingUnits trailingUnits arrayNumber (his.trans hlen)
    have hsize : v.sizeAt (leadingUnits + a) = 1 := by rw [View.sizeAt, hsizes, getD_pad (ha.trans hlen.ge)]
    rw [stackStores, List.mem_append, ih, hcopy, exists_mem_blocks_cons, hsize]

end

/-! ## What the loops do -/

def AgreeOff (k : Nat) (first : List Nat) (rest : List (List Nat)) : Prop :=
  ∀ member ∈ rest, ∀ d < first.length, d ≠ k → member.getD d 0 = first.getD d 0

/-- The lowered code copies the views to their blocks along `k`, and reports an error on a condition. -/
structure Realises (r : Lowered) (isF : Bool) (k : Nat) (first : View Scalar) (rest : List (View Scalar)) (error : Prop) : Prop where
  shape : r.shape = concatSizes k first rest
  order : r.transposed = (isF && decide (2 ≤ r.shape.length))
  stores : ∀ s, s ∈ r.stores ↔ ∃ b v, (b, v) ∈ blocks k 0 (first :: rest) ∧ ∃ is, InShape is v.sizes ∧ s = (moveAt k b is, v.elem is)
  flagged : true ∈ r.errors ↔ error

section
variable {r : Lowered} {isF : Bool} {k : Nat} {first : View Scalar} {rest : List (View Scalar)} {error error' : Prop}

theorem Realises.congr (h : Realises r isF k first rest error) (hiff : error ↔ error') : Realises r isF k first rest error' :=
  { h with flagged := h.flagged.trans hiff }

theorem Realises.cons_error (h : Realises r isF k first rest error) (invalid : Bool) :
    Realises { r with errors := invalid :: r.errors } isF k first rest (invalid = true ∨ error) :=
  { h with flagged := by rw [← h.flagged, List.mem_cons, eq_comm] }

end

section
variable {target : UnifiedType} {isF : Bool} {axis : BitVec 64} {k : Nat} {first : Source} {rest : List Source}

theorem intrinsicConcat_realises (src : Source → Source) (f : Source → View Scalar) (hk : ∀ d < (src first).rank, axis = indexOf d ↔ d = k)
    (h : ∀ a ∈ first :: rest, (src a).rank = (src first).rank ∧ (f a).sizes = (src a).sizes ∧ Expands id ((src a).converted target) (f a)) :
    Realises (intrinsicConcat target isF (src first) (rest.map src) axis) isF k (f first) (rest.map f)
      (¬AgreeOff k (f first).sizes ((rest.map f).map View.sizes)) where
  shape := by
    have hsizes : ((src first :: rest.map src).map fun array => array.sizes.getD k 0) = (f first :: rest.map f).map (·.sizeAt k) := by
      rw [← List.map_cons (f := f), ← List.map_cons (f := src), List.map_map, List.map_map]
      refine List.map_congr_left fun a ha => ?_
      rw [Function.comp_apply, Function.comp_apply, View.sizeAt, (h a ha).2.1]
    rw [concatSizes, ← hsizes, (h first List.mem_cons_self).2.1]
    refine List.ext_getElem (by simp [intrinsicConcat]) fun d h₁ h₂ => ?_
    have hd : d < (src first).rank := by simpa [intrinsicConcat] using h₁
    simp only [intrinsicConcat, List.getElem_map, List.getElem_range, List.getElem_set, hk d hd, eq_comm (a := d)]
    split
    · next heq => rw [heq]
    · rw [List.getD_eq_getElem?_getD, List.getElem?_eq_getElem hd, Option.getD_some]
  order := rfl
  stores s := mem_concatStores hk (by
    rw [← List.map_cons (f := f), ← List.map_cons (f := src), List.forall₂_map_left_iff, List.forall₂_map_right_iff, List.forall₂_same]
    exact h)
  flagged := by
    have hfirst := (h first List.mem_cons_self).2.1
    simp only [intrinsicConcat, List.mem_flatMap, List.mem_range, List.mem_map, Bool.and_eq_true, decide_eq_true_eq, Bool.not_eq_true',
      decide_eq_false_iff_not, AgreeOff, hfirst]
    push Not
    constructor
    · rintro ⟨d, hd, _, ⟨a, ha, rfl⟩, hne, hoff⟩
      refine ⟨_, ⟨_, ⟨a, ha, rfl⟩, rfl⟩, d, hd, fun hdk => hoff ((hk d hd).mpr hdk), ?_⟩
      rwa [(h a (List.mem_cons_of_mem _ ha)).2.1]
    · rintro ⟨_, ⟨_, ⟨a, ha, rfl⟩, rfl⟩, d, hd, hdk, hne⟩
      rw [(h a (List.mem_cons_of_mem _ ha)).2.1] at hne
      exact ⟨d, hd, _, ⟨a, ha, rfl⟩, hne, fun hax => hdk ((hk d hd).mp hax)⟩

end

theorem getD_pad_of_ne {x leadingUnits a trailingUnits d : Nat} {is : List Nat} (ha : a ≤ is.length) (hd : d < is.length) :
    (pad x leadingUnits a trailingUnits is).getD (leadingUnits + if d < a then d else d + 1) 0 = is.getD d 0 := by
  have hlen : (is.insertIdx a x).length = is.length + 1 := List.length_insertIdx_of_le_length ha x
  rw [pad, List.append_assoc, List.getD_eq_getElem?_getD, List.getElem?_append_right (by simp), List.length_replicate, Nat.add_sub_cancel_left,
    List.getElem?_append_left (by split <;> omega), List.getD_eq_getElem?_getD]
  by_cases h : d < a
  · rw [if_pos h, List.getElem?_insertIdx_of_lt h]
  · rw [if_neg h, List.getElem?_insertIdx_of_gt (by omega), Nat.add_sub_cancel]

theorem agreeOff_pad_iff {leadingUnits a trailingUnits : Nat} {first : List Nat} {rest : List (List Nat)} (ha : a ≤ first.length)
    (hrest : ∀ member ∈ rest, member.length = first.length) :
    AgreeOff (leadingUnits + a) (pad 1 leadingUnits a trailingUnits first) (rest.map (pad 1 leadingUnits a trailingUnits)) ↔
      ∀ member ∈ rest, member = first := by
  constructor
  · intro h member hmem
    have hlen := hrest member hmem
    refine List.ext_getElem hlen fun d h₁ h₂ => ?_
    have hoff := h _ (List.mem_map_of_mem hmem) (leadingUnits + if d < a then d else d + 1)
      (by rw [length_pad ha]; split <;> omega) (by split <;> omega)
    rw [getD_pad_of_ne (by omega) h₁, getD_pad_of_ne ha h₂] at hoff
    simpa [h₁, h₂] using hoff
  · intro h member hmem d _ _
    obtain ⟨m, hm, rfl⟩ := List.mem_map.mp hmem
    rw [h m hm]

theorem mem_zipWith_ne {l l' : List Nat} (h : l'.length = l.length) :
    true ∈ List.zipWith (fun left right => decide (left ≠ right)) l l' ↔ l' ≠ l := by
  induction l generalizing l' with
  | nil => simp [List.length_eq_zero_iff.mp h]
  | cons x l ih =>
    cases l' with
    | nil => simp at h
    | cons y l' =>
      rw [List.zipWith_cons_cons, List.mem_cons, ih (by simpa using h), eq_comm, decide_eq_true_eq, ne_eq, ne_eq, ne_eq, List.cons.injEq,
        not_and_or, eq_comm]

section
variable {target : UnifiedType} {isF : Bool} {axis : BitVec 64} {a : Nat} {first : Source} {rest : List Source}

theorem intrinsicStack_realises (ha : a ≤ first.rank) (hk : ∀ d, 0 < d → d ≤ first.rank → (axis = indexOf d ↔ d = a))
    {leadingUnits trailingUnits : Nat} {f : Source → View Scalar}
    (h : ∀ array ∈ first :: rest, array.rank = first.rank ∧ (f array).sizes = pad 1 leadingUnits a trailingUnits array.sizes ∧
      Expands (pad 0 leadingUnits a trailingUnits) (array.converted target) (f array)) :
    Realises (intrinsicStack target isF first rest axis leadingUnits trailingUnits) isF (leadingUnits + a) (f first) (rest.map f)
      (¬AgreeOff (leadingUnits + a) (f first).sizes ((rest.map f).map View.sizes)) where
  shape := by
    have hsum : ((f first :: rest.map f).map (·.sizeAt (leadingUnits + a))).sum = (first :: rest).length := by
      have hones : ((first :: rest).map f).map (·.sizeAt (leadingUnits + a)) = (first :: rest).map fun _ => 1 := by
        rw [List.map_map]
        refine List.map_congr_left fun array harray => ?_
        obtain ⟨hlen, hsizes, -⟩ := h array harray
        rw [Function.comp_apply, View.sizeAt, hsizes, getD_pad (ha.trans hlen.ge)]
      rw [← List.map_cons (f := f), hones]
      simp [Nat.add_comm]
    rw [concatSizes, hsum, (h first List.mem_cons_self).2.1, set_pad ha]
    have hlen : (first.sizes.insertIdx a (first :: rest).length).length = first.rank + 1 := List.length_insertIdx_of_le_length ha _
    rw [← map_getD_range (first.sizes.insertIdx a (first :: rest).length), hlen]
    exact congrArg (fun l => List.replicate leadingUnits 1 ++ l ++ List.replicate trailingUnits 1)
      (List.map_congr_left fun d _ => intrinsicSelectAxis_eq ha hk _)
  order := rfl
  stores s := mem_stackStores ha hk (by
    rw [← List.map_cons (f := f), List.forall₂_map_right_iff, List.forall₂_same]
    exact h)
  flagged := by
    have hrest : (rest.map f).map View.sizes = (rest.map Source.sizes).map (pad 1 leadingUnits a trailingUnits) := by
      rw [List.map_map, List.map_map]
      exact List.map_congr_left fun array harray => (h array (List.mem_cons_of_mem _ harray)).2.1
    have hlen : ∀ member ∈ rest.map Source.sizes, member.length = first.sizes.length := by
      intro member hmem
      obtain ⟨array, harray, rfl⟩ := List.mem_map.mp hmem
      exact (h array (List.mem_cons_of_mem _ harray)).1
    rw [(h first List.mem_cons_self).2.1, hrest, agreeOff_pad_iff ha hlen, intrinsicStack]
    simp only [List.mem_flatMap]
    push Not
    constructor
    · rintro ⟨array, harray, hmem⟩
      exact ⟨_, List.mem_map_of_mem harray, (mem_zipWith_ne (h array (List.mem_cons_of_mem _ harray)).1).mp hmem⟩
    · rintro ⟨_, hmem, hne⟩
      obtain ⟨array, harray, rfl⟩ := List.mem_map.mp hmem
      exact ⟨array, harray, (mem_zipWith_ne (h array (List.mem_cons_of_mem _ harray)).1).mpr hne⟩

end

/-! ## New axes -/

theorem inShape_insertIdx : ∀ {ns js : List Nat} {k : Nat}, k ≤ ns.length →
    (InShape js (ns.insertIdx k 1) ↔ ∃ is, InShape is ns ∧ is.insertIdx k 0 = js)
  | ns, js, 0, _ => by
    rw [List.insertIdx_zero]
    constructor
    · rintro (_ | ⟨hj, hjs⟩)
      exact ⟨_, hjs, by rw [List.insertIdx_zero, Nat.lt_one_iff.mp hj]⟩
    · rintro ⟨is, his, rfl⟩
      exact .cons Nat.one_pos his
  | n :: ns, js, k + 1, h => by
    rw [List.insertIdx_succ_cons]
    constructor
    · rintro (_ | ⟨hj, hjs⟩)
      obtain ⟨is, his, rfl⟩ := (inShape_insertIdx (Nat.le_of_succ_le_succ h)).mp hjs
      exact ⟨_ :: is, .cons hj his, List.insertIdx_succ_cons⟩
    · rintro ⟨_ | ⟨i, is⟩, _ | ⟨hi, his⟩, rfl⟩
      rw [List.insertIdx_succ_cons]
      exact .cons hi ((inShape_insertIdx (Nat.le_of_succ_le_succ h)).mpr ⟨is, his, rfl⟩)

/-- The view of an array with units at a new axis and around it. -/
def Padded {α : Type} (leadingUnits a trailingUnits : Nat) (u v : View α) : Prop :=
  v.sizes = pad 1 leadingUnits a trailingUnits u.sizes ∧ Expands (pad 0 leadingUnits a trailingUnits) u v

section
variable {α : Type} (v : View α)

theorem expandDims_padded {k : Nat} (hk : k ≤ v.sizes.length) : Padded 0 k 0 v (expandDims k v) := by
  have hpad : ∀ x is, pad x 0 k 0 is = is.insertIdx k x := by simp [pad]
  refine ⟨(hpad 1 v.sizes).symm, fun is his => ⟨?_, ?_⟩, fun js hjs => ?_⟩
  · rw [hpad]
    exact (inShape_insertIdx hk).mpr ⟨is, his, rfl⟩
  · rw [hpad]
    exact congrArg v.elem (List.eraseIdx_insertIdx_self ..)
  · simp only [hpad]
    exact (inShape_insertIdx hk).mp hjs

theorem atleast1d_padded (h : v.sizes.length = 0) : Padded 0 0 0 v (atleast1d v) := by
  obtain ⟨_ | _, e⟩ := v
  · refine ⟨rfl, fun is his => ?_, fun js hjs => ?_⟩
    · cases his
      exact ⟨.cons Nat.one_pos .nil, rfl⟩
    · obtain _ | ⟨hj, _ | _⟩ := hjs
      exact ⟨[], .nil, by rw [Nat.lt_one_iff.mp hj]; rfl⟩
  · cases h

theorem atleast2d_padded_scalar (h : v.sizes.length = 0) : Padded 0 0 1 v (atleast2d v) := by
  obtain ⟨_ | _, e⟩ := v
  · refine ⟨rfl, fun is his => ?_, fun js hjs => ?_⟩
    · cases his
      exact ⟨.cons Nat.one_pos (.cons Nat.one_pos .nil), rfl⟩
    · obtain _ | ⟨hi, _ | ⟨hj, _ | _⟩⟩ := hjs
      exact ⟨[], .nil, by rw [Nat.lt_one_iff.mp hi, Nat.lt_one_iff.mp hj]; rfl⟩
  · cases h

theorem atleast2d_padded_vector (h : v.sizes.length = 1) : Padded 0 0 0 v (atleast2d v) := by
  obtain ⟨_ | ⟨m, _ | _⟩, e⟩ := v
  · cases h
  · refine ⟨rfl, fun is his => ?_, fun js hjs => ?_⟩
    · obtain _ | ⟨hi, _ | _⟩ := his
      exact ⟨.cons Nat.one_pos (.cons hi .nil), rfl⟩
    · obtain _ | ⟨hi, _ | ⟨hj, _ | _⟩⟩ := hjs
      exact ⟨[_], .cons hj .nil, by rw [Nat.lt_one_iff.mp hi]; rfl⟩
  · cases h

theorem atleast3d_padded_scalar (h : v.sizes.length = 0) : Padded 2 0 0 v (atleast3d v) := by
  obtain ⟨_ | _, e⟩ := v
  · refine ⟨rfl, fun is his => ?_, fun js hjs => ?_⟩
    · cases his
      exact ⟨.cons Nat.one_pos (.cons Nat.one_pos (.cons Nat.one_pos .nil)), rfl⟩
    · obtain _ | ⟨hi, _ | ⟨hj, _ | ⟨hl, _ | _⟩⟩⟩ := hjs
      exact ⟨[], .nil, by rw [Nat.lt_one_iff.mp hi, Nat.lt_one_iff.mp hj, Nat.lt_one_iff.mp hl]; rfl⟩
  · cases h

theorem atleast3d_padded_vector (h : v.sizes.length = 1) : Padded 1 1 0 v (atleast3d v) := by
  obtain ⟨_ | ⟨m, _ | _⟩, e⟩ := v
  · cases h
  · refine ⟨rfl, fun is his => ?_, fun js hjs => ?_⟩
    · obtain _ | ⟨hi, _ | _⟩ := his
      exact ⟨.cons Nat.one_pos (.cons hi (.cons Nat.one_pos .nil)), rfl⟩
    · obtain _ | ⟨hi, _ | ⟨hj, _ | ⟨hl, _ | _⟩⟩⟩ := hjs
      exact ⟨[_], .cons hj .nil, by rw [Nat.lt_one_iff.mp hi, Nat.lt_one_iff.mp hl]; rfl⟩
  · cases h

theorem atleast3d_padded_matrix (h : v.sizes.length = 2) : Padded 0 2 0 v (atleast3d v) := by
  obtain ⟨_ | ⟨m, _ | ⟨n, _ | _⟩⟩, e⟩ := v
  · cases h
  · cases h
  · refine ⟨rfl, fun is his => ?_, fun js hjs => ?_⟩
    · obtain _ | ⟨hi, _ | ⟨hj, _ | _⟩⟩ := his
      exact ⟨.cons hi (.cons hj (.cons Nat.one_pos .nil)), rfl⟩
    · obtain _ | ⟨hi, _ | ⟨hj, _ | ⟨hl, _ | _⟩⟩⟩ := hjs
      exact ⟨[_, _], .cons hi (.cons hj .nil), by rw [Nat.lt_one_iff.mp hl]; rfl⟩
  · cases h

theorem atleast1d_of_pos (h : v.sizes.length ≠ 0) : atleast1d v = v := by
  obtain ⟨_ | _, e⟩ := v
  · cases h rfl
  · rfl

theorem atleast2d_of_two (h : 2 ≤ v.sizes.length) : atleast2d v = v := by
  obtain ⟨_ | ⟨_, _ | _⟩, e⟩ := v
  · simp at h
  · simp at h
  · rfl

theorem atleast3d_of_three (h : 3 ≤ v.sizes.length) : atleast3d v = v := by
  obtain ⟨_ | ⟨_, _ | ⟨_, _ | _⟩⟩, e⟩ := v
  · simp at h
  · simp at h
  · simp at h
  · rfl

end

section
variable (convert : (d : OperandType) → BitVec (storageWidth d) → Scalar)

theorem load_columnRef {a : Source} {m i : Nat} (hsizes : a.sizes = [m]) :
    convert (promoteColumn a).dtype ((promoteColumn a).load [i, 0]) = convert a.dtype (a.load [i]) := by
  obtain ⟨d, isF, ⟨⟨offset, extents, strides⟩, hrank, hsmall⟩, memory, hle, hbyte⟩ := a
  obtain rfl : extents = [m] := hsizes
  obtain ⟨s, rfl⟩ : ∃ s, strides = [s] := List.length_eq_one_iff.mp hrank
  simp [promoteColumn, Source.rank, Source.sizes, Source.load, columnRef, ArrayIndex.Layout.address]

theorem asColumn_expands {a : Source} (h : a.rank = 1 ∨ a.rank = 2) :
    (asColumn (a.view convert)).sizes = (promoteColumn a).sizes ∧ Expands id ((promoteColumn a).view convert) (asColumn (a.view convert)) := by
  rcases h with h | h
  · obtain ⟨m, hm⟩ := List.length_eq_one_iff.mp h
    have hpromoted : (promoteColumn a).sizes = [m, 1] := by
      rw [promoteColumn, if_pos h]
      show [a.sizes.headD 0, 1] = [m, 1]
      rw [hm]
      rfl
    have hcolumn : asColumn (a.view convert) = ⟨[m, 1], fun is => convert a.dtype (a.load [is.getD 0 0])⟩ := by
      rw [asColumn, show (a.view convert).sizes = [m] from hm]
      rfl
    rw [hcolumn]
    refine ⟨hpromoted.symm, fun is his => ?_, fun js hjs => ⟨js, ?_, rfl⟩⟩
    · have his' : InShape is [m, 1] := hpromoted ▸ his
      refine ⟨his', ?_⟩
      obtain _ | ⟨-, _ | ⟨hj, _ | _⟩⟩ := his'
      rw [Nat.lt_one_iff.mp hj]
      exact (load_columnRef convert hm).symm
    · show InShape js (promoteColumn a).sizes
      rw [hpromoted]
      exact hjs
  · have hpromoted : promoteColumn a = a := by rw [promoteColumn, if_neg (by omega)]
    have hcolumn : asColumn (a.view convert) = a.view convert := by
      obtain ⟨m, n, hmn⟩ := List.length_eq_two.mp h
      rw [asColumn, show (a.view convert).sizes = [m, n] from hmn]
    rw [hpromoted, hcolumn]
    exact ⟨rfl, .refl _⟩

end

section
variable {α : Type}

theorem asColumn_padded (v : View α) (h : v.sizes.length = 1) : Padded 0 1 0 v (asColumn v) := by
  obtain ⟨_ | ⟨m, _ | _⟩, e⟩ := v
  · cases h
  · refine ⟨rfl, fun is his => ?_, fun js hjs => ?_⟩
    · obtain _ | ⟨hi, _ | _⟩ := his
      exact ⟨.cons hi (.cons Nat.one_pos .nil), rfl⟩
    · obtain _ | ⟨hi, _ | ⟨hj, _ | _⟩⟩ := hjs
      exact ⟨[_], .cons hi .nil, by rw [Nat.lt_one_iff.mp hj]; rfl⟩
  · cases h

theorem asColumn_of_two (v : View α) (h : v.sizes.length = 2) : asColumn v = v := by
  obtain ⟨_ | ⟨_, _ | ⟨_, _ | _⟩⟩, e⟩ := v
  · cases h
  · cases h
  · rfl
  · cases h

/-- The rank that arrays of a rank are brought to. -/
def Op.rank (op : Op) (r : Nat) : Nat :=
  match op with
  | .concatenate _ => r
  | .stack _ => r + 1
  | .hstack => max r 1
  | .vstack => max r 2
  | .dstack => max r 3
  | .columnStack => 2

/-- Axis `k` exists, and arrays of rank `r` are accepted beside those of rank `first`. -/
def Op.Takes (op : Op) (k first r : Nat) : Prop :=
  match op with
  | .concatenate _ => k < first ∧ r = first
  | .stack _ => k ≤ first ∧ r = first
  | .hstack => k = (if first ≤ 1 then 0 else 1) ∧ r = first
  | .vstack => k = 0 ∧ r = first
  | .dstack => k = 2 ∧ r = first
  | .columnStack => k = 1 ∧ (r = 1 ∨ r = 2)

theorem promote_padded {op : Op} {k first : Nat} {v : View α} (h : op.Takes k first v.sizes.length) :
    op.promote k v = v ∧ v.sizes.length = op.rank v.sizes.length ∨
      ∃ leadingUnits a trailingUnits, leadingUnits + (v.sizes.length + 1) + trailingUnits = op.rank v.sizes.length ∧ a ≤ v.sizes.length ∧
        Padded leadingUnits a trailingUnits v (op.promote k v) := by
  cases op with
  | concatenate => exact .inl ⟨rfl, rfl⟩
  | stack =>
    obtain ⟨hk, hr⟩ := h
    exact .inr ⟨0, k, 0, by simp [Op.rank], by omega, expandDims_padded v (by omega)⟩
  | hstack =>
    by_cases h0 : v.sizes.length = 0
    · exact .inr ⟨0, 0, 0, by simp [Op.rank, h0], by omega, atleast1d_padded v h0⟩
    · exact .inl ⟨atleast1d_of_pos v h0, by simp only [Op.rank]; omega⟩
  | vstack =>
    by_cases h0 : v.sizes.length = 0
    · exact .inr ⟨0, 0, 1, by simp [Op.rank, h0], by omega, atleast2d_padded_scalar v h0⟩
    · by_cases h1 : v.sizes.length = 1
      · exact .inr ⟨0, 0, 0, by simp [Op.rank, h1], by omega, atleast2d_padded_vector v h1⟩
      · exact .inl ⟨atleast2d_of_two v (by omega), by simp only [Op.rank]; omega⟩
  | dstack =>
    by_cases h0 : v.sizes.length = 0
    · exact .inr ⟨2, 0, 0, by simp [Op.rank, h0], by omega, atleast3d_padded_scalar v h0⟩
    · by_cases h1 : v.sizes.length = 1
      · exact .inr ⟨1, 1, 0, by simp [Op.rank, h1], by omega, atleast3d_padded_vector v h1⟩
      · by_cases h2 : v.sizes.length = 2
        · exact .inr ⟨0, 2, 0, by simp [Op.rank, h2], by omega, atleast3d_padded_matrix v h2⟩
        · exact .inl ⟨atleast3d_of_three v (by omega), by simp only [Op.rank]; omega⟩
  | columnStack =>
    obtain ⟨-, h1 | h2⟩ := h
    · exact .inr ⟨0, 1, 0, by simp [Op.rank, h1], by omega, asColumn_padded v h1⟩
    · exact .inl ⟨asColumn_of_two v h2, h2⟩

theorem promote_length {op : Op} {k first : Nat} {v : View α} (h : op.Takes k first v.sizes.length) :
    (op.promote k v).sizes.length = op.rank v.sizes.length := by
  rcases promote_padded h with ⟨heq, hlen⟩ | ⟨leadingUnits, a, trailingUnits, hlen, ha, hsizes, -⟩
  · rw [heq]
    exact hlen
  · rw [hsizes, length_pad ha, hlen]

end

theorem promote_map {α β : Type} (op : Op) (k : Nat) (f : α → β) (v : View α) : op.promote k (v.map f) = (op.promote k v).map f := by
  obtain ⟨sizes, e⟩ := v
  cases op with
  | concatenate | stack => rfl
  | hstack => cases sizes <;> rfl
  | vstack => obtain _ | ⟨_, _ | _⟩ := sizes <;> rfl
  | dstack => obtain _ | ⟨_, _ | ⟨_, _ | _⟩⟩ := sizes <;> rfl
  | columnStack => obtain _ | ⟨_, _ | _⟩ := sizes <;> rfl

/-! ## The lowered calls -/

/-- The elements of an array as they are in memory. -/
def Source.cells (a : Source) : View ((d : OperandType) × BitVec (storageWidth d)) := ⟨a.sizes, fun is => ⟨a.dtype, a.load is⟩⟩

theorem promote_view (op : Op) (k : Nat) (convert : (d : OperandType) → BitVec (storageWidth d) → Scalar) (a : Source) :
    op.promote k (a.view convert) = (op.promote k a.cells).map fun x => convert x.1 x.2 :=
  promote_map op k (fun x : (d : OperandType) × BitVec (storageWidth d) => convert x.1 x.2) a.cells

def Axis.signedValue (axis : Axis) : Int := axis.bits.toInt

def Call.placeAxis (c : Call) : Nat :=
  match c.op with
  | .concatenate axis => (normalizeAxis axis.signedValue c.first.rank).getD c.first.rank
  | .stack axis => (normalizeAxis axis.signedValue (c.first.rank + 1)).getD 0
  | .hstack => if c.first.rank ≤ 1 then 0 else 1
  | .vstack => 0
  | .dstack => 2
  | .columnStack => 1

theorem Call.placeAxis_eq {c : Call} {k : Nat} (h : c.op.axis Axis.signedValue c.first.rank = some k) : c.placeAxis = k := by
  unfold Call.placeAxis
  cases hop : c.op <;> rw [hop] at h
  case concatenate => exact congrArg (·.getD c.first.rank) h
  case stack => exact congrArg (·.getD 0) h
  all_goals exact Option.some.inj h

theorem Call.takes (c : Call) {read : Axis → Int} {k : Nat} (h : c.op.axis read c.first.rank = some k) {a : Source} (ha : a ∈ c.arrays) :
    c.op.Takes k c.first.rank a.rank := by
  have hsame : (∀ r ∈ c.rest.map Source.rank, r = c.first.rank) → a.rank = c.first.rank := fun hr => by
    rcases List.mem_cons.mp ha with rfl | ha
    · rfl
    · exact hr _ (List.mem_map_of_mem ha)
  have hacc := c.accepted
  cases hop : c.op <;> rw [hop] at h hacc
  case concatenate => exact ⟨normalizeAxis_lt h, hsame hacc.2⟩
  case stack => exact ⟨Nat.le_of_lt_succ (normalizeAxis_lt h), hsame hacc⟩
  case columnStack => exact ⟨(Option.some.inj h).symm, hacc _ (by
    rcases List.mem_cons.mp ha with rfl | ha
    · exact List.mem_cons_self
    · exact List.mem_cons_of_mem _ (List.mem_map_of_mem ha))⟩
  all_goals exact ⟨(Option.some.inj h).symm, hsame hacc⟩

section
variable (convert : (d : OperandType) → BitVec (storageWidth d) → Scalar)

theorem Call.length_view (c : Call) {read : Axis → Int} {k : Nat} (h : c.op.axis read c.first.rank = some k) {a : Source} (ha : a ∈ c.arrays) :
    (c.op.promote k (a.view convert)).sizes.length = c.op.rank c.first.rank := by
  have htakes := c.takes h ha
  rw [promote_length (v := a.view convert) htakes]
  show c.op.rank a.rank = _
  cases hop : c.op <;> rw [hop] at htakes
  case columnStack => rfl
  all_goals rw [htakes.2]

theorem sizes_view (op : Op) (k : Nat) (convert' : (d : OperandType) → BitVec (storageWidth d) → Scalar) (a : Source) :
    (op.promote k (a.view convert)).sizes = (op.promote k (a.view convert')).sizes := by
  rw [promote_view, promote_view]
  rfl

theorem Call.restViews_sizes (c : Call) (k : Nat) (convert' : (d : OperandType) → BitVec (storageWidth d) → Scalar) :
    (c.restViews convert k).map View.sizes = (c.restViews convert' k).map View.sizes := by
  rw [Call.restViews, Call.restViews, List.map_map, List.map_map]
  exact List.map_congr_left fun a _ => sizes_view ..

theorem Op.Takes.lt {op : Op} {k first r : Nat} (h : op.Takes k first r) : k < op.rank first := by
  cases op with
  | concatenate => exact h.1
  | stack => exact Nat.lt_succ_of_le h.1
  | hstack =>
    rw [h.1, Op.rank]
    split <;> omega
  | vstack => rw [h.1, Op.rank]; omega
  | dstack => rw [h.1, Op.rank]; omega
  | columnStack => rw [h.1]; exact Nat.one_lt_two

theorem Call.joinable_iff (c : Call) {read : Axis → Int} {k : Nat} (h : c.op.axis read c.first.rank = some k) :
    Joinable k (c.firstView convert k) (c.restViews convert k) ↔
      AgreeOff k (c.firstView convert k).sizes ((c.restViews convert k).map View.sizes) := by
  have hlen : (c.firstView convert k).sizes.length = c.op.rank c.first.rank := c.length_view _ h List.mem_cons_self
  constructor
  · intro hjoin member hmem
    obtain ⟨v, hv, rfl⟩ := List.mem_map.mp hmem
    exact (hjoin.2 v hv).2
  · intro hagree
    refine ⟨by rw [hlen]; exact (c.takes h List.mem_cons_self).lt, fun v hv => ⟨?_, hagree _ (List.mem_map_of_mem hv)⟩⟩
    obtain ⟨a, ha, rfl⟩ := List.mem_map.mp hv
    rw [hlen]
    exact c.length_view _ h (List.mem_cons_of_mem _ ha)

theorem Call.compatible_iff (c : Call) {read : Axis → Int} {k : Nat} (h : c.op.axis read c.first.rank = some k) :
    c.Compatible read ↔ AgreeOff k (c.firstView convert k).sizes ((c.restViews convert k).map View.sizes) := by
  have hfirst : (c.firstView convert k).sizes = (c.firstView (ownConvert c.target) k).sizes := sizes_view ..
  rw [hfirst, c.restViews_sizes convert k (ownConvert c.target), ← c.joinable_iff _ h]
  constructor
  · rintro ⟨k', hk', hjoin⟩
    obtain rfl : k = k' := Option.some.inj (h.symm.trans hk')
    exact hjoin
  · exact fun hjoin => ⟨k, h, hjoin⟩

end

/-! ## The loops of each function -/

section
variable (c : Call)

theorem indexOf_inj {m n : Nat} (hm : m < 2 ^ 64) (hn : n < 2 ^ 64) : indexOf m = indexOf n ↔ n = m := by
  rw [eq_indexOf_iff hn, indexOf_toNat hm, eq_comm]

abbrev Call.code : (d : OperandType) → BitVec (storageWidth d) → Scalar := fun _ => mlirConvert c.target

/-- The lowered code copies the arrays along `k`, and reports an error where their extents do not agree off it. -/
abbrev Call.Copies (r : Lowered) (k : Nat) : Prop :=
  Realises r c.isF k (c.firstView c.code k) (c.restViews c.code k)
    (¬AgreeOff k (c.firstView c.code k).sizes ((c.restViews c.code k).map View.sizes))

variable {c}

theorem copies_of_concat {axis : BitVec 64} {k : Nat} (hk : ∀ d < c.first.rank, axis = indexOf d ↔ d = k)
    (h : ∀ a ∈ c.arrays, a.rank = c.first.rank ∧ c.op.promote k (a.view c.code) = a.view c.code) :
    c.Copies (intrinsicConcat c.target c.isF c.first c.rest axis) k := by
  rw [← List.map_id c.rest]
  refine intrinsicConcat_realises id (fun a => c.op.promote k (a.view c.code)) hk fun a ha => ?_
  obtain ⟨hrank, heq⟩ := h a ha
  rw [heq]
  exact ⟨hrank, rfl, .refl _⟩

theorem copies_of_stack {axis : BitVec 64} {leadingUnits a trailingUnits : Nat} (ha : a ≤ c.first.rank)
    (hk : ∀ d, 0 < d → d ≤ c.first.rank → (axis = indexOf d ↔ d = a))
    (h : ∀ array ∈ c.arrays, array.rank = c.first.rank ∧
      Padded leadingUnits a trailingUnits (array.view c.code) (c.op.promote (leadingUnits + a) (array.view c.code))) :
    c.Copies (intrinsicStack c.target c.isF c.first c.rest axis leadingUnits trailingUnits) (leadingUnits + a) :=
  intrinsicStack_realises ha hk h

/-- Where the arguments fix the axis, an error is reported exactly where no axis is found or the extents disagree off it. -/
theorem error_iff {k : Nat} {axis? : Option Nat} (hop : c.op.axis Axis.signedValue c.first.rank = axis?) (hk : ∀ k', axis? = some k' → k' = k) :
    axis? = none ∨ ¬AgreeOff k (c.firstView c.code k).sizes ((c.restViews c.code k).map View.sizes) ↔ ¬c.Compatible Axis.signedValue := by
  cases axis? with
  | none =>
    refine iff_of_true (.inl rfl) ?_
    rintro ⟨k, hk, -⟩
    rw [hop] at hk
    cases hk
  | some k' =>
    obtain rfl := hk k' rfl
    rw [c.compatible_iff c.code hop]
    simp

theorem Call.Copies.realises {r : Lowered} {k : Nat} (h : c.Copies r k) (hop : c.op.axis Axis.signedValue c.first.rank = some k) :
    Realises r c.isF c.placeAxis (c.firstView c.code c.placeAxis) (c.restViews c.code c.placeAxis) (¬c.Compatible Axis.signedValue) := by
  rw [Call.placeAxis_eq hop]
  exact h.congr (not_congr (c.compatible_iff c.code hop).symm)

theorem Call.same_rank (hop : ∀ ranks, c.op.Accepts c.first.rank ranks → ∀ r ∈ ranks, r = c.first.rank) {a : Source} (ha : a ∈ c.arrays) :
    a.rank = c.first.rank := by
  rcases List.mem_cons.mp ha with rfl | ha
  · rfl
  · exact hop _ c.accepted _ (List.mem_map_of_mem ha)

theorem lower_concatenate {axis : Axis} (hop : c.op = .concatenate axis) : Realises (lower c) c.isF c.placeAxis
    (c.firstView c.code c.placeAxis) (c.restViews c.code c.placeAxis) (¬c.Compatible Axis.signedValue) := by
  have hrank : c.first.rank < 2 ^ 63 := Nat.lt_of_le_of_lt c.first.rank_le (by decide)
  have hplace : c.placeAxis = (normalizeAxis axis.signedValue c.first.rank).getD c.first.rank := by rw [Call.placeAxis, hop]
  have hcopies : c.Copies (intrinsicConcat c.target c.isF c.first c.rest (intrinsicAxis axis c.first.rank).1) c.placeAxis := by
    refine copies_of_concat (fun d hd => ?_) fun a ha => ⟨Call.same_rank (fun _ h => by rw [hop] at h; exact h.2) ha, by rw [hop]; rfl⟩
    rw [intrinsicAxis_eq_iff axis hrank hd, hplace]
    show normalizeAxis axis.signedValue c.first.rank = some d ↔ _
    cases normalizeAxis axis.signedValue c.first.rank with
    | none => simp only [reduceCtorEq, Option.getD_none, false_iff]; omega
    | some k => simp only [Option.some.injEq, Option.getD_some, eq_comm]
  have hlower : lower c = { intrinsicConcat c.target c.isF c.first c.rest (intrinsicAxis axis c.first.rank).1 with
      errors := (intrinsicAxis axis c.first.rank).2 ::
        (intrinsicConcat c.target c.isF c.first c.rest (intrinsicAxis axis c.first.rank).1).errors } := by
    rw [lower, hop]
  rw [hlower]
  refine (hcopies.cons_error _).congr ?_
  rw [intrinsicAxis_invalid axis hrank]
  refine error_iff (by rw [hop]; rfl) fun k hk => ?_
  have hk' : normalizeAxis axis.signedValue c.first.rank = some k := hk
  rw [hplace, hk', Option.getD_some]

theorem lower_stack {axis : Axis} (hop : c.op = .stack axis) : Realises (lower c) c.isF c.placeAxis
    (c.firstView c.code c.placeAxis) (c.restViews c.code c.placeAxis) (¬c.Compatible Axis.signedValue) := by
  have hrank : c.first.rank + 1 < 2 ^ 63 := Nat.lt_of_le_of_lt (Nat.succ_le_succ c.first.rank_le) (by decide)
  have hplace : c.placeAxis = (normalizeAxis axis.signedValue (c.first.rank + 1)).getD 0 := by rw [Call.placeAxis, hop]
  have hle : c.placeAxis ≤ c.first.rank := by
    rw [hplace]
    cases h : normalizeAxis axis.signedValue (c.first.rank + 1) with
    | none => exact Nat.zero_le _
    | some k => exact Nat.le_of_lt_succ (normalizeAxis_lt h)
  have hcopies : c.Copies (intrinsicStack c.target c.isF c.first c.rest (intrinsicAxis axis (c.first.rank + 1)).1 0 0) c.placeAxis := by
    rw [← Nat.zero_add c.placeAxis]
    refine copies_of_stack hle (fun d hpos hd => ?_) fun a ha => ?_
    · rw [intrinsicAxis_eq_iff axis hrank (Nat.lt_succ_of_le hd), hplace]
      show normalizeAxis axis.signedValue (c.first.rank + 1) = some d ↔ _
      cases normalizeAxis axis.signedValue (c.first.rank + 1) with
      | none => simp only [reduceCtorEq, Option.getD_none, false_iff]; omega
      | some k => simp only [Option.some.injEq, Option.getD_some, eq_comm]
    · have hsame := Call.same_rank (fun _ h => by rw [hop] at h; exact h) ha
      rw [Nat.zero_add, hop]
      exact ⟨hsame, expandDims_padded _ (hle.trans hsame.ge)⟩
  have hlower : lower c = { intrinsicStack c.target c.isF c.first c.rest (intrinsicAxis axis (c.first.rank + 1)).1 0 0 with
      errors := (intrinsicAxis axis (c.first.rank + 1)).2 ::
        (intrinsicStack c.target c.isF c.first c.rest (intrinsicAxis axis (c.first.rank + 1)).1 0 0).errors } := by
    rw [lower, hop]
  rw [hlower]
  refine (hcopies.cons_error _).congr ?_
  rw [intrinsicAxis_invalid axis hrank]
  refine error_iff (by rw [hop]; rfl) fun k hk => ?_
  have hk' : normalizeAxis axis.signedValue (c.first.rank + 1) = some k := hk
  rw [hplace, hk', Option.getD_some]

theorem lower_hstack (hop : c.op = .hstack) : Realises (lower c) c.isF c.placeAxis
    (c.firstView c.code c.placeAxis) (c.restViews c.code c.placeAxis) (¬c.Compatible Axis.signedValue) := by
  have hsame : ∀ a ∈ c.arrays, a.rank = c.first.rank := fun a => Call.same_rank fun _ h => by rw [hop] at h; exact h
  have hlower : lower c = if c.first.rank = 0 then intrinsicStack c.target c.isF c.first c.rest (indexOf 0) 0 0
      else intrinsicConcat c.target c.isF c.first c.rest (indexOf (if c.first.rank = 1 then 0 else 1)) := by rw [lower, hop]
  have hle : c.first.rank ≤ 64 := c.first.rank_le
  by_cases h0 : c.first.rank = 0
  · rw [hlower, if_pos h0]
    refine Call.Copies.realises (k := 0) (copies_of_stack (a := 0) (by omega) (by omega) fun a ha => ⟨hsame a ha, ?_⟩) ?_
    · rw [hop]
      exact atleast1d_padded _ ((hsame a ha).trans h0)
    · rw [hop, Op.axis, if_pos (by omega)]
  · rw [hlower, if_neg h0]
    have haxis : (if c.first.rank = 1 then 0 else 1) = if c.first.rank ≤ 1 then 0 else 1 := by split <;> split <;> omega
    rw [haxis]
    refine Call.Copies.realises (copies_of_concat (fun d hd => indexOf_inj (by split <;> decide) (by omega)) fun a ha => ⟨hsame a ha, ?_⟩)
      (by rw [hop, Op.axis])
    rw [hop]
    exact atleast1d_of_pos _ ((hsame a ha).trans_ne h0)

theorem lower_vstack (hop : c.op = .vstack) : Realises (lower c) c.isF c.placeAxis
    (c.firstView c.code c.placeAxis) (c.restViews c.code c.placeAxis) (¬c.Compatible Axis.signedValue) := by
  have hsame : ∀ a ∈ c.arrays, a.rank = c.first.rank := fun a => Call.same_rank fun _ h => by rw [hop] at h; exact h
  have hlower : lower c = if c.first.rank = 0 then intrinsicStack c.target c.isF c.first c.rest (indexOf 0) 0 1
      else if c.first.rank = 1 then intrinsicStack c.target c.isF c.first c.rest (indexOf 0) 0 0
      else intrinsicConcat c.target c.isF c.first c.rest (indexOf 0) := by rw [lower, hop]
  have hle : c.first.rank ≤ 64 := c.first.rank_le
  have haxis : c.op.axis Axis.signedValue c.first.rank = some 0 := by rw [hop]; rfl
  by_cases h0 : c.first.rank = 0
  · rw [hlower, if_pos h0]
    refine Call.Copies.realises (copies_of_stack (a := 0) (by omega) (by omega) fun a ha => ⟨hsame a ha, ?_⟩) haxis
    rw [hop]
    exact atleast2d_padded_scalar _ ((hsame a ha).trans h0)
  · by_cases h1 : c.first.rank = 1
    · rw [hlower, if_neg h0, if_pos h1]
      refine Call.Copies.realises (copies_of_stack (a := 0) (by omega)
        (fun d _ hd => indexOf_inj (by decide) (by omega)) fun a ha => ⟨hsame a ha, ?_⟩) haxis
      rw [hop]
      exact atleast2d_padded_vector _ ((hsame a ha).trans h1)
    · rw [hlower, if_neg h0, if_neg h1]
      refine Call.Copies.realises (copies_of_concat (fun d hd => indexOf_inj (by decide) (by omega)) fun a ha => ⟨hsame a ha, ?_⟩) haxis
      rw [hop]
      exact atleast2d_of_two _ (show 2 ≤ a.rank by rw [hsame a ha]; omega)

theorem lower_dstack (hop : c.op = .dstack) : Realises (lower c) c.isF c.placeAxis
    (c.firstView c.code c.placeAxis) (c.restViews c.code c.placeAxis) (¬c.Compatible Axis.signedValue) := by
  have hsame : ∀ a ∈ c.arrays, a.rank = c.first.rank := fun a => Call.same_rank fun _ h => by rw [hop] at h; exact h
  have hlower : lower c = if c.first.rank = 0 then intrinsicStack c.target c.isF c.first c.rest (indexOf 0) 2 0
      else if c.first.rank = 1 then intrinsicStack c.target c.isF c.first c.rest (indexOf 1) 1 0
      else if c.first.rank = 2 then intrinsicStack c.target c.isF c.first c.rest (indexOf 2) 0 0
      else intrinsicConcat c.target c.isF c.first c.rest (indexOf 2) := by rw [lower, hop]
  have hle : c.first.rank ≤ 64 := c.first.rank_le
  have haxis : c.op.axis Axis.signedValue c.first.rank = some 2 := by rw [hop]; rfl
  by_cases h0 : c.first.rank = 0
  · rw [hlower, if_pos h0]
    refine Call.Copies.realises (copies_of_stack (a := 0) (by omega) (by omega) fun a ha => ⟨hsame a ha, ?_⟩) haxis
    rw [hop]
    exact atleast3d_padded_scalar _ ((hsame a ha).trans h0)
  by_cases h1 : c.first.rank = 1
  · rw [hlower, if_neg h0, if_pos h1]
    refine Call.Copies.realises (copies_of_stack (a := 1) (by omega)
      (fun d _ hd => indexOf_inj (by decide) (by omega)) fun a ha => ⟨hsame a ha, ?_⟩) haxis
    rw [hop]
    exact atleast3d_padded_vector _ ((hsame a ha).trans h1)
  by_cases h2 : c.first.rank = 2
  · rw [hlower, if_neg h0, if_neg h1, if_pos h2]
    refine Call.Copies.realises (copies_of_stack (a := 2) (by omega)
      (fun d _ hd => indexOf_inj (by decide) (by omega)) fun a ha => ⟨hsame a ha, ?_⟩) haxis
    rw [hop]
    exact atleast3d_padded_matrix _ ((hsame a ha).trans h2)
  · rw [hlower, if_neg h0, if_neg h1, if_neg h2]
    refine Call.Copies.realises (copies_of_concat (fun d hd => indexOf_inj (by decide) (by omega)) fun a ha => ⟨hsame a ha, ?_⟩) haxis
    rw [hop]
    exact atleast3d_of_three _ (show 3 ≤ a.rank by rw [hsame a ha]; omega)

theorem lower_columnStack (hop : c.op = .columnStack) : Realises (lower c) c.isF c.placeAxis
    (c.firstView c.code c.placeAxis) (c.restViews c.code c.placeAxis) (¬c.Compatible Axis.signedValue) := by
  have haxis : c.op.axis Axis.signedValue c.first.rank = some 1 := by rw [hop]; rfl
  have hrank : ∀ a ∈ c.arrays, a.rank = 1 ∨ a.rank = 2 := fun a ha => by
    have htakes := c.takes haxis ha
    rw [hop] at htakes
    exact htakes.2
  have htwo : ∀ a ∈ c.arrays, (promoteColumn a).rank = 2 := fun a ha => by
    rw [Source.rank, ← (asColumn_expands c.code (hrank a ha)).1]
    have hlen := c.length_view c.code haxis ha
    rwa [hop] at hlen
  have hlower : lower c = intrinsicConcat c.target c.isF (promoteColumn c.first) (c.rest.map promoteColumn) (indexOf 1) := by rw [lower, hop]
  have hcopies : c.Copies (intrinsicConcat c.target c.isF (promoteColumn c.first) (c.rest.map promoteColumn) (indexOf 1)) 1 := by
    refine intrinsicConcat_realises promoteColumn (fun a => c.op.promote 1 (a.view c.code))
      (fun d hd => indexOf_inj (by decide) ?_) fun a ha => ⟨?_, ?_⟩
    · have hfirst := htwo _ List.mem_cons_self
      omega
    · rw [htwo a ha, htwo _ List.mem_cons_self]
    · rw [hop]
      exact asColumn_expands c.code (hrank a ha)
  rw [hlower]
  exact hcopies.realises haxis

theorem lower_realises (c : Call) : Realises (lower c) c.isF c.placeAxis
    (c.firstView c.code c.placeAxis) (c.restViews c.code c.placeAxis) (¬c.Compatible Axis.signedValue) := by
  cases hop : c.op with
  | concatenate axis => exact lower_concatenate hop
  | stack axis => exact lower_stack hop
  | hstack => exact lower_hstack hop
  | vstack => exact lower_vstack hop
  | dstack => exact lower_dstack hop
  | columnStack => exact lower_columnStack hop

end

/-! ## The memory of the result -/

/-- The address of an index in the order of the allocation. -/
def orderedAddress (isF : Bool) (shape is : List Nat) : Nat :=
  if isF && decide (2 ≤ shape.length) then linear shape.reverse is.reverse else linear shape is

theorem orderedAddress_inj {isF : Bool} {shape is js : List Nat} (h : InShape is shape) (h' : InShape js shape)
    (heq : orderedAddress isF shape is = orderedAddress isF shape js) : is = js := by
  unfold orderedAddress at heq
  split at heq
  · exact List.reverse_injective (linear_inj (List.rel_reverse h) (List.rel_reverse h') heq)
  · exact linear_inj h h' heq

theorem orderedAddress_mono (isF : Bool) (shape : List Nat) {is js : List Nat} (h : List.Forall₂ (· ≤ ·) is js) :
    orderedAddress isF shape is ≤ orderedAddress isF shape js := by
  unfold orderedAddress
  split
  · exact linear_mono (List.rel_reverse h) _
  · exact linear_mono h _

theorem Lowered.errorCode_ne_zero_iff (r : Lowered) : (∀ cell, r.errorCode cell ≠ 0) ↔ true ∈ r.errors := by
  have hfold : ∀ (errors : List Bool) (cell : Nat),
      errors.foldl (fun cell invalid => if invalid then setErrorCode ((kernelErrorCodes .valueError).get valueError_isSome) cell else cell) cell ≠ 0 ↔
        cell ≠ 0 ∨ true ∈ errors := by
    intro errors
    induction errors with
    | nil => simp
    | cons invalid errors ih =>
      intro cell
      rw [List.foldl_cons, ih, List.mem_cons]
      cases invalid with
      | false => simp
      | true =>
        have hset : setErrorCode ((kernelErrorCodes .valueError).get valueError_isSome) cell ≠ 0 := by
          by_cases hcell : cell = 0
          · rw [hcell, setErrorCode_zero]
            decide
          · rwa [setErrorCode_of_ne hcell]
        simp [hset]
  unfold Lowered.errorCode
  simp only [hfold]
  constructor
  · exact fun h => (h 0).resolve_left fun h0 => h0 rfl
  · exact fun h cell => .inr h

section
variable {r : Lowered} {isF : Bool} {k : Nat} {first : View Scalar} {rest : List (View Scalar)} {error : Prop}

theorem Realises.address_eq (h : Realises r isF k first rest error) (is : List Nat) :
    r.address is = orderedAddress isF (concatSizes k first rest) is := by
  rw [Lowered.address, orderedAddress, h.order, h.shape]

theorem Realises.memory_eq (h : Realises r isF k first rest error) (hjoin : Joinable k first rest) {is : List Nat}
    (his : InShape is (concatSizes k first rest)) (m : Nat → Scalar) :
    some (r.memory m (r.address is)) = concatElem k (first :: rest) is := by
  obtain ⟨b, v, hmem, js, hjs, rfl⟩ := exists_moveAt hjoin his
  rw [concatElem_moveAt hjoin hmem hjs]
  refine congrArg some (writeAll_eq ?_ ?_ m)
  · intro s hs haddr
    obtain ⟨t, ht, rfl⟩ := List.mem_map.mp hs
    obtain ⟨b', v', hmem', js', hjs', rfl⟩ := (h.stores t).mp ht
    have hin := moveAt_inShape hjoin hmem' hjs'
    rw [h.address_eq, h.address_eq] at haddr
    have hidx : moveAt k b' js' = moveAt k b js := orderedAddress_inj hin his haddr
    have helem := concatElem_moveAt hjoin hmem' hjs'
    rw [hidx, concatElem_moveAt hjoin hmem hjs] at helem
    exact (Option.some.inj helem).symm
  · exact ⟨_, List.mem_map_of_mem ((h.stores _).mpr ⟨b, v, hmem, js, hjs, rfl⟩), rfl⟩

theorem Realises.inside_iff (h : Realises r isF k first rest error) :
    (∀ s ∈ r.stores, r.address s.1 < r.shape.prod) ↔ ∀ b v, (b, v) ∈ blocks k 0 (first :: rest) → 0 ∉ v.sizes →
      orderedAddress isF (concatSizes k first rest) (moveAt k b (last v.sizes)) < (concatSizes k first rest).prod := by
  rw [h.shape]
  constructor
  · intro hall b v hmem hpos
    have hstore := hall _ ((h.stores _).mpr ⟨b, v, hmem, _, last_inShape hpos, rfl⟩)
    rwa [h.address_eq] at hstore
  · intro hlast s hs
    obtain ⟨b, v, hmem, is, his, rfl⟩ := (h.stores s).mp hs
    rw [h.address_eq]
    exact (orderedAddress_mono isF _ (moveAt_mono (le_last his) k b)).trans_lt (hlast b v hmem his.pos)

end

/-! ## The joined elements -/

section
variable {c : Call}

theorem promote_expands {α : Type} {op : Op} {k first : Nat} {v : View α} (h : op.Takes k first v.sizes.length) :
    ∃ φ, Expands φ v (op.promote k v) := by
  rcases promote_padded h with ⟨heq, -⟩ | ⟨leadingUnits, a, trailingUnits, -, -, -, hexp⟩
  · exact ⟨id, by rw [heq]; exact .refl v⟩
  · exact ⟨_, hexp⟩

theorem concatElem_eq_iff (f g : (d : OperandType) → BitVec (storageWidth d) → Scalar) {read : Axis → Int} {k : Nat}
    (h : c.op.axis read c.first.rank = some k) (hjoin : Joinable k (c.firstView f k) (c.restViews f k))
    (hjoin' : Joinable k (c.firstView g k) (c.restViews g k)) :
    (∀ is, InShape is (concatSizes k (c.firstView f k) (c.restViews f k)) →
      concatElem k (c.firstView f k :: c.restViews f k) is = concatElem k (c.firstView g k :: c.restViews g k) is) ↔
      ∀ a ∈ c.arrays, ∀ is, InShape is a.sizes → f a.dtype (a.load is) = g a.dtype (a.load is) := by
  have hsize : ∀ a ∈ c.arrays, (c.op.promote k (a.view f)).sizeAt k = (c.op.promote k (a.view g)).sizeAt k := fun a _ => by
    rw [View.sizeAt, View.sizeAt, sizes_view f c.op k g]
  have helem : ∀ a ∈ c.arrays, ∀ js, (c.op.promote k (a.view f)).elem js = f _ ((c.op.promote k a.cells).elem js).2 ∧
      (c.op.promote k (a.view g)).elem js = g _ ((c.op.promote k a.cells).elem js).2 := fun a _ js => by
    rw [promote_view, promote_view]
    exact ⟨rfl, rfl⟩
  constructor
  · intro hall a ha is his
    obtain ⟨φ, hexp⟩ := promote_expands (v := a.cells) (c.takes h ha)
    obtain ⟨hin, hcell⟩ := hexp.maps is his
    obtain ⟨b, hf, hg⟩ := exists_mem_blocks_map 0 hsize ha
    have hinf : InShape (φ is) (c.op.promote k (a.view f)).sizes := by rwa [promote_view]
    have hing : InShape (φ is) (c.op.promote k (a.view g)).sizes := by rwa [promote_view]
    have heq := hall _ (moveAt_inShape hjoin hf hinf)
    rw [concatElem_moveAt hjoin hf hinf, concatElem_moveAt hjoin' hg hing, (helem a ha _).1, (helem a ha _).2, hcell] at heq
    exact Option.some.inj heq
  · intro hall is his
    obtain ⟨b, v, hmem, js, hjs, rfl⟩ := exists_moveAt hjoin his
    obtain ⟨a, ha, rfl, hg⟩ := mem_blocks_map hsize hmem
    obtain ⟨φ, hexp⟩ := promote_expands (v := a.cells) (c.takes h ha)
    have hjs' : InShape js (c.op.promote k a.cells).sizes := by rwa [promote_view] at hjs
    have hing : InShape js (c.op.promote k (a.view g)).sizes := by rwa [promote_view]
    obtain ⟨is, hin, rfl⟩ := hexp.onto js hjs'
    rw [concatElem_moveAt hjoin hmem hjs, concatElem_moveAt hjoin' hg hing, (helem a ha _).1, (helem a ha _).2, (hexp.maps is hin).2]
    exact congrArg some (hall a ha is hin)

theorem axis_signedValue {k : Nat} (h : c.op.axis Axis.value c.first.rank = some k) : c.op.axis Axis.signedValue c.first.rank = some k := by
  have hread : ∀ (axis : Axis) (rank : Nat), rank ≤ 65 → normalizeAxis axis.value rank = some k → normalizeAxis axis.signedValue rank = some k := by
    intro axis rank hrank hk
    have heq : axis.signedValue = axis.value := by
      obtain ⟨⟨s, w⟩, bits⟩ := axis
      cases s with
      | true => rfl
      | false =>
        have hlt := normalizeAxis_lt hk
        have h7 : 2 ^ 7 ≤ 2 ^ (w.bits - 1) := by cases w <;> decide
        have hval : (⟨⟨false, w⟩, bits⟩ : Axis).value = bits.toNat := rfl
        rw [hval] at hk ⊢
        unfold normalizeAxis at hk
        split at hk
        · show bits.toInt = bits.toNat
          rw [BitVec.toInt_eq_toNat_of_lt]
          have hw := Nat.two_pow_pred_mul_two w.bits_pos
          show 2 * bits.toNat < 2 ^ w.bits
          omega
        · split at hk
          · omega
          · cases hk
    rw [heq]
    exact hk
  have hle := c.first.rank_le
  cases hop : c.op <;> rw [hop] at h
  case concatenate axis => exact hread axis _ (show c.first.rank ≤ 65 by show c.first.ref.extents.length ≤ 65; omega) h
  case stack axis => exact hread axis _ (show c.first.rank + 1 ≤ 65 by show c.first.ref.extents.length + 1 ≤ 65; omega) h
  all_goals exact h

/-- Every element is kept by the conversion of the copies. -/
def Call.Kept (c : Call) : Prop := ∀ a ∈ c.arrays, ∀ is, InShape is a.sizes → Keeps c.target a.dtype (a.load is)

/-- The last element of every array that has one is placed inside the allocation. -/
def Call.Inside (c : Call) : Prop :=
  let first := c.firstView c.code c.placeAxis
  let rest := c.restViews c.code c.placeAxis
  ∀ b v, (b, v) ∈ blocks c.placeAxis 0 (first :: rest) → 0 ∉ v.sizes →
    orderedAddress c.isF (concatSizes c.placeAxis first rest) (moveAt c.placeAxis b (last v.sizes)) < (concatSizes c.placeAxis first rest).prod

theorem kept_iff : c.Kept ↔ ∀ a ∈ c.arrays, ∀ is, InShape is a.sizes → mlirConvert c.target (a.load is) = ownConvert c.target a.dtype (a.load is) := by
  refine forall₂_congr fun a ha => forall₂_congr fun is _ => (mlirConvert_eq_iff ?_ _ ?_).symm
  · exact unifyTypes_covers (List.mem_map_of_mem ha)
  · exact fun hd => a.boolean_byte hd _

end

theorem result_iff {c : Call} {k : Nat} (h : c.CompatibleAt Axis.value k) :
    let first := c.firstView (ownConvert c.target) k
    let rest := c.restViews (ownConvert c.target) k
    ((lower c).shape = concatSizes k first rest ∧
      ∀ m is, InShape is (concatSizes k first rest) → some ((lower c).memory m ((lower c).address is)) = concatElem k (first :: rest) is) ↔
      c.Kept := by
  obtain ⟨haxis, hjoin'⟩ := h
  have hjoin : Joinable k (c.firstView c.code k) (c.restViews c.code k) := by
    rw [c.joinable_iff _ haxis, ← c.compatible_iff _ haxis]
    exact ⟨k, haxis, hjoin'⟩
  have hsizes : concatSizes k (c.firstView c.code k) (c.restViews c.code k) =
      concatSizes k (c.firstView (ownConvert c.target) k) (c.restViews (ownConvert c.target) k) :=
    concatSizes_congr (sizes_view ..) (c.restViews_sizes ..)
  have hr := lower_realises c
  rw [Call.placeAxis_eq (axis_signedValue haxis)] at hr
  rw [kept_iff, ← concatElem_eq_iff c.code (ownConvert c.target) haxis hjoin hjoin', hsizes]
  constructor
  · rintro ⟨-, hmem⟩ is his
    rw [← hmem (fun _ => .int 0 0) is his, hr.memory_eq hjoin (hsizes ▸ his)]
  · intro hkept
    refine ⟨hr.shape.trans hsizes, fun m is his => ?_⟩
    rw [hr.memory_eq hjoin (hsizes ▸ his)]
    exact hkept is his

/-- Compatible arrays are joined as NumPy joins them exactly when every element is kept. Others lead to an error and to
no store out of the allocation exactly when the axis, read as a signed number, does not make them compatible either and the
last element of each array is placed inside. -/
theorem join_meets_iff (c : Call) : Meets c ↔
    (c.Compatible Axis.value → c.Kept) ∧ (¬c.Compatible Axis.value → ¬c.Compatible Axis.signedValue ∧ c.Inside) := by
  have hr := lower_realises c
  refine and_congr ⟨?_, ?_⟩ (imp_congr_right fun _ => and_congr ?_ hr.inside_iff)
  · rintro h ⟨k, hk⟩
    exact (result_iff hk).mp (h k hk)
  · exact fun h k hk => (result_iff hk).mpr (h ⟨k, hk⟩)
  · rw [Lowered.errorCode_ne_zero_iff, hr.flagged]

/-! ## Failing calls -/

def rowRef (columns : Nat) (h : columns < 2 ^ 63) : ArrayIndex.MemRef where
  offset := 0
  extents := [1, columns]
  strides := [columns, 1]
  rank := rfl
  small n hn := by
    rcases List.mem_pair.mp hn with rfl | rfl
    · exact Nat.one_lt_two_pow (by decide)
    · exact h

def row (ty : IntType) (x : BitVec ty.bits) (columns : Nat) (h : columns < 2 ^ 63) : Source where
  dtype := .integer ty
  isF := false
  ref := rowRef columns h
  memory _ := x
  rank_le := matrix_rank_le
  boolean_byte h := by cases h

def narrow : Call where
  op := .vstack
  first := row ⟨true, .w8⟩ (-1) 1 (by decide)
  rest := [row ⟨true, .w32⟩ 1 1 (by decide)]
  accepted := by rintro r hr; exact List.mem_singleton.mp hr

def mismatched : Call where
  op := .vstack
  first := row ⟨true, .w32⟩ 1 1 (by decide)
  rest := [row ⟨true, .w32⟩ 1 2 (by decide)]
  accepted := by rintro r hr; exact List.mem_singleton.mp hr

/-- The int8 -1 above an int32 becomes 255, and a row of two numbers below a row of one is written past the allocation. -/
theorem vstack_fails : ¬Meets narrow ∧ ¬Meets mismatched := by
  constructor
  · rintro ⟨h, -⟩
    have hcompat : narrow.CompatibleAt Axis.value 0 := by
      refine ⟨rfl, ?_⟩
      unfold Joinable
      decide
    have helem := (h 0 hcompat).2 (fun _ => .int 0 0) [0, 0] (.cons (by decide) (.cons (by decide) .nil))
    revert helem
    decide
  · rintro ⟨-, h⟩
    have hcompat : ¬mismatched.Compatible Axis.value := by
      rintro ⟨k, haxis, hjoin⟩
      obtain rfl : 0 = k := Option.some.inj haxis
      revert hjoin
      unfold Joinable
      decide
    have hstores := (h hcompat).2
    revert hstores
    decide

end NumbaCudaMlir.ArrayJoin

import NumbaCudaMlir.ElementwiseUfuncSound

/-!
# Soundness of calls of elementwise ufuncs

The loops run over the extents of the first array and read the second one there.
So both have to be of the result's shape, unless it has no element, and a
scalar result reaches one element of its output array.
-/

namespace NumbaCudaMlir.Elementwise

open NumberTyping (OperandType)
open IntegerArith (Operand)
open TruthValue (MlirType MlirValue convert toBool)
open Nditer (broadcastShapes broadcastIndex broadcastReversed broadcastDim broadcastIndex_self)
open Tensor (InShape)

/-! ## Broadcasting -/

/-- Extents of a shape's rank that are stretched to it. -/
abbrev Stretches (sizes shape : List Nat) : Prop := List.Forall₂ (fun m s => m = s ∨ m = 1) sizes shape

theorem Stretches.trans {ls ss ts : List Nat} (h : Stretches ls ss) : Stretches ss ts → Stretches ls ts := by
  induction h generalizing ts with
  | nil => exact id
  | cons hm _ ih =>
    rintro (_ | ⟨hs, hrest⟩)
    refine .cons ?_ (ih hrest)
    rcases hm with rfl | rfl
    · exact hs
    · exact .inr rfl

theorem broadcastDim_stretches {m n s : Nat} (h : broadcastDim m n = some s) : (m = s ∨ m = 1) ∧ (n = s ∨ n = 1) := by
  unfold broadcastDim at h
  split at h
  · next hmn =>
    obtain rfl := Option.some.inj h
    exact ⟨.inl rfl, hmn.imp Eq.symm id⟩
  · split at h
    · next hm =>
      obtain rfl := Option.some.inj h
      exact ⟨.inr hm, .inl rfl⟩
    · cases h

theorem broadcastReversed_stretches : ∀ {ms ns ss : List Nat}, ms.length = ns.length → broadcastReversed ms ns = some ss →
    Stretches ms ss ∧ Stretches ns ss
  | [], [], _, _, h => by
    cases h
    exact ⟨.nil, .nil⟩
  | [], _ :: _, _, hlen, _ => by cases hlen
  | _ :: _, [], _, hlen, _ => by cases hlen
  | m :: ms, n :: ns, _, hlen, h => by
    simp only [broadcastReversed, Option.bind_eq_bind, Option.bind_eq_some_iff, Option.pure_def, Option.some.injEq] at h
    obtain ⟨s, hs, ss, hss, rfl⟩ := h
    obtain ⟨hm, hn⟩ := broadcastDim_stretches hs
    obtain ⟨hms, hns⟩ := broadcastReversed_stretches (Nat.succ.inj hlen) hss
    exact ⟨.cons hm hms, .cons hn hns⟩

theorem foldlM_stretches : ∀ {shapes : List (List Nat)} {acc ss : List Nat}, (∀ s ∈ shapes, s.length = acc.length) →
    shapes.foldlM broadcastReversed acc = some ss → Stretches acc ss ∧ ∀ s ∈ shapes, Stretches s ss
  | [], acc, ss, _, h => by
    obtain rfl := Option.some.inj h
    exact ⟨List.forall₂_same.mpr fun _ _ => .inl rfl, by simp⟩
  | s :: shapes, acc, ss, hlen, h => by
    rw [List.foldlM_cons, Option.bind_eq_bind, Option.bind_eq_some_iff] at h
    obtain ⟨next, hnext, hrest⟩ := h
    have hs := hlen s List.mem_cons_self
    obtain ⟨hacc, hsnext⟩ := broadcastReversed_stretches hs.symm hnext
    have hnlen := hacc.length_eq
    obtain ⟨hnss, hall⟩ := foldlM_stretches (fun t ht => (hlen t (List.mem_cons_of_mem _ ht)).trans hnlen) hrest
    refine ⟨hacc.trans hnss, fun t ht => ?_⟩
    rcases List.mem_cons.mp ht with rfl | ht
    · exact hsnext.trans hnss
    · exact hall t ht

theorem broadcastShapes_stretches {first : List Nat} {rest : List (List Nat)} {shape : List Nat} (hlen : ∀ s ∈ rest, s.length = first.length)
    (h : broadcastShapes (first :: rest) = some shape) : Stretches first shape ∧ ∀ s ∈ rest, Stretches s shape := by
  have hfirst : broadcastReversed [] first.reverse = some first.reverse := by rw [broadcastReversed]
  rw [broadcastShapes, List.map_cons, List.foldlM_cons, hfirst, Option.bind_eq_bind, Option.bind_some, Option.map_eq_some_iff] at h
  obtain ⟨ss, hss, rfl⟩ := h
  have hlens : ∀ s ∈ rest.map List.reverse, s.length = first.reverse.length := fun s hs => by
    obtain ⟨t, ht, rfl⟩ := List.mem_map.mp hs
    rw [List.length_reverse, List.length_reverse, hlen t ht]
  obtain ⟨hs, hall⟩ := foldlM_stretches hlens hss
  refine ⟨?_, fun s hmem => ?_⟩
  · have hrev := List.forall₂_reverse_iff.mpr hs
    rwa [List.reverse_reverse] at hrev
  · have hrev := List.forall₂_reverse_iff.mpr (hall s.reverse (List.mem_map_of_mem hmem))
    rwa [List.reverse_reverse] at hrev

theorem Stretches.eq_of_last {ls ss : List Nat} (h : Stretches ls ss) (hzero : 0 ∉ ss) (hlast : InShape (Tensor.last ss) ls) : ls = ss := by
  induction h with
  | nil => rfl
  | @cons m s ls ss hm _ ih =>
    rw [Tensor.last, List.map_cons, ← Tensor.last] at hlast
    obtain _ | ⟨hlt, hrest⟩ := hlast
    have hs : s ≠ 0 := fun h0 => hzero (by simp [h0])
    have heq : m = s := by omega
    rw [heq, ih (fun hmem => hzero (List.mem_cons_of_mem _ hmem)) hrest]

/-! ## Two operands -/

section
variable {c : Call}

/-- The shapes and types at which a call has NumPy's result. -/
def Call.Right (c : Call) : Prop :=
  c.ufunc.verifies c.lhs.dtype c.rhs.dtype = true ∧
    match c.lhs.sizes, c.rhs.sizes, c.out with
    | some ls, some rs, none =>
      (∀ k, c.ufunc ≠ .comparison k) ∧ ls.length = rs.length ∧ ls = c.shape ∧
        (0 ∈ c.shape ∨ rs = c.shape ∧ c.ufunc.Keeps c.outType c.lhs.dtype c.rhs.dtype)
    | some ls, some rs, some _ =>
      ls.length = rs.length ∧ ls.length = c.shape.length ∧
        (0 ∈ c.shape ∨ ls = c.shape ∧ rs = c.shape ∧ c.ufunc.Keeps c.outType c.lhs.dtype c.rhs.dtype)
    | none, none, some _ =>
      isNumber c.lhs.dtype = true ∧ isNumber c.rhs.dtype = true ∧
        (c.shape = [0] ∨ c.shape = [1] ∧ c.ufunc.KeepsScalars c.outType c.lhs.dtype c.rhs.dtype)
    | _, _, _ => False

/-- Operands of which every element is the same. -/
def Call.constant (c : Call) (x : BitVec c.lhs.dtype.width) (y : BitVec c.rhs.dtype.width) (initial : MlirValue) : c.Memory :=
  ⟨fun _ => x, fun _ => y, fun _ => initial⟩

theorem Call.kind_le (c : Call) : kind (c.ufunc.outputType c.lhs.dtype c.rhs.dtype) ≤ kind c.outType := by
  unfold Call.outType
  cases hout : c.out with
  | none => exact Nat.le_refl _
  | some out => exact (c.fitsOut out hout).2

def Call.expectedAt (c : Call) (m : c.Memory) (is : List Nat) : Option MlirValue :=
  c.ufunc.expected c.outType (c.lhsAt m (broadcastIndex c.lhs.shape is)) (c.rhsAt m (broadcastIndex c.rhs.shape is))

theorem bool_ne : bool true ≠ bool false := fun h => absurd (eq_of_heq (MlirValue.int.inj h).2) (by decide)

theorem meets_iff {m : c.Memory} {o : Outcome} (h : lower c m = some o) :
    Meets c m ↔ o.shape = c.shape ∧ ∀ is, InShape is c.shape → ∃ v, o.elem is = some v ∧ c.expectedAt m is = some v := by
  constructor
  · rintro ⟨o', ho', hmeets⟩
    obtain rfl := Option.some.inj (h.symm.trans ho')
    exact hmeets
  · exact fun hmeets => ⟨o, h, hmeets⟩

theorem stored_of_meets {f : Call.Memory c → List Nat → Option MlirValue} {P : Prop} [Decidable P] {is : List Nat}
    (h : ∀ m : c.Memory, ∃ v, (if P then f m is else some (m.initial is)) = some v ∧ c.expectedAt m is = some v) : P := by
  by_contra hP
  obtain ⟨v, hv, he⟩ := h (c.constant 0 0 (bool true))
  obtain ⟨w, hw, he'⟩ := h (c.constant 0 0 (bool false))
  rw [if_neg hP] at hv hw
  have hvw : v = w := Option.some.inj (he.symm.trans he')
  exact bool_ne ((Option.some.inj hv).trans (hvw.trans (Option.some.inj hw).symm))

theorem generic_iff {rs : List Nat} (hverifies : c.ufunc.verifies c.lhs.dtype c.rhs.dtype = true) (hls : c.lhs.shape = c.shape)
    (hrs : c.rhs.shape = rs) (hstretch : Stretches rs c.shape) :
    (∀ m is, InShape is c.shape → ∃ v, c.generic m c.outType rs is = some v ∧ c.expectedAt m is = some v) ↔
      0 ∈ c.shape ∨ rs = c.shape ∧ c.ufunc.Keeps c.outType c.lhs.dtype c.rhs.dtype := by
  rw [← arrayElement_exact_iff c.ufunc hverifies c.kind_le]
  constructor
  · intro h
    by_cases hzero : 0 ∈ c.shape
    · exact .inl hzero
    · have hlast := Tensor.last_inShape hzero
      have hinside : InShape (Tensor.last c.shape) rs := by
        obtain ⟨v, hv, -⟩ := h (c.constant 0 0 (bool false)) _ hlast
        by_contra hout
        rw [Call.generic, if_neg hout] at hv
        cases hv
      refine .inr ⟨hstretch.eq_of_last hzero hinside, fun x y hx hy => ?_⟩
      obtain ⟨dx, x⟩ := x
      obtain ⟨dy, y⟩ := y
      subst hx hy
      obtain ⟨v, hv, he⟩ := h (c.constant x y (bool false)) _ hlast
      rw [Call.generic, if_pos hinside] at hv
      exact ⟨v, hv, he⟩
  · rintro (hzero | ⟨heq, hexact⟩) m is his
    · exact absurd hzero his.pos
    · obtain ⟨v, hv, he⟩ := hexact (c.lhsAt m is) (c.rhsAt m is) rfl rfl
      refine ⟨v, ?_, ?_⟩
      · rw [Call.generic, heq, if_pos his]
        exact hv
      · rw [Call.expectedAt, hls, hrs, heq, broadcastIndex_self his]
        exact he

theorem not_meets_of_none (h : ∀ m, lower c m = none) : ¬∀ m, Meets c m := by
  intro hmeets
  obtain ⟨o, ho, -⟩ := hmeets (c.constant 0 0 (bool false))
  rw [h] at ho
  cases ho

theorem shape_some {a : Arg} {sizes : List Nat} (h : a.sizes = some sizes) : a.shape = sizes := by rw [Arg.shape, h, Option.getD_some]

theorem arrays_iff {ls rs : List Nat} (hl : c.lhs.sizes = some ls) (hr : c.rhs.sizes = some rs) (hout : c.out = none)
    (hverifies : c.ufunc.verifies c.lhs.dtype c.rhs.dtype = true) : (∀ m, Meets c m) ↔ c.Right := by
  have hls := shape_some hl
  have hrs := shape_some hr
  simp only [Call.Right, hl, hr, hout, hverifies, true_and]
  by_cases hcomp : ∀ k, c.ufunc ≠ .comparison k
  · rw [and_iff_right hcomp]
    have hlower : ∀ m, lower c m = if ls.length = rs.length then some ⟨ls, c.generic m c.outType rs⟩ else none := fun m => by
      have htype : c.outType = c.ufunc.outputType c.lhs.dtype c.rhs.dtype := by rw [Call.outType, hout]
      rw [htype]
      simp only [lower, hverifies, if_true, hl, hr, hout]
      cases hu : c.ufunc with
      | comparison k => exact absurd hu (hcomp k)
      | logical l => rfl
      | extremum e => rfl
    by_cases hlen : ls.length = rs.length
    · have hstretch : Stretches rs c.shape := by
        have hb := c.broadcast
        rw [hout, hls, hrs] at hb
        exact (broadcastShapes_stretches (by simpa using hlen.symm) hb).2 rs (by simp)
      simp only [if_pos hlen] at hlower
      rw [and_iff_right hlen, forall_congr' fun m => meets_iff (hlower m), forall_and]
      constructor
      · rintro ⟨hshape, helem⟩
        have hshape := hshape (c.constant 0 0 (bool false))
        exact ⟨hshape, (generic_iff hverifies (hls.trans hshape) hrs hstretch).mp helem⟩
      · rintro ⟨hshape, hright⟩
        exact ⟨fun _ => hshape, (generic_iff hverifies (hls.trans hshape) hrs hstretch).mpr hright⟩
    · simp only [if_neg hlen] at hlower
      exact iff_of_false (not_meets_of_none hlower) fun h => hlen h.1
  · refine iff_of_false (not_meets_of_none fun m => ?_) fun h => hcomp h.1
    simp only [not_forall, not_not] at hcomp
    obtain ⟨k, hk⟩ := hcomp
    simp only [lower, hverifies, if_true, hl, hr, hout]
    rw [hk]

theorem arraysOut_iff {ls rs : List Nat} {out : Out} (hl : c.lhs.sizes = some ls) (hr : c.rhs.sizes = some rs) (hout : c.out = some out)
    (hverifies : c.ufunc.verifies c.lhs.dtype c.rhs.dtype = true) : (∀ m, Meets c m) ↔ c.Right := by
  have hls := shape_some hl
  have hrs := shape_some hr
  have hsizes : out.sizes = c.shape := (c.fitsOut out hout).1
  have htype : out.dtype = c.outType := by rw [Call.outType, hout]
  simp only [Call.Right, hl, hr, hout, hverifies, true_and]
  have hlower : ∀ m, lower c m = if ls.length = rs.length ∧ ls.length = c.shape.length then
      some ⟨c.shape, fun is => if InShape is ls then c.generic m c.outType rs is else some (m.initial is)⟩ else none := fun m => by
    simp only [lower, hverifies, if_true, hl, hr, hout, hsizes, htype]
  by_cases hlen : ls.length = rs.length ∧ ls.length = c.shape.length
  · have hstretch : Stretches ls c.shape ∧ Stretches rs c.shape := by
      have hb := c.broadcast
      rw [hout, hls, hrs, Option.map_some, hsizes] at hb
      obtain ⟨hfirst, hall⟩ := broadcastShapes_stretches (by simpa [hlen.1.symm] using hlen.2.symm) hb
      exact ⟨hfirst, hall rs (by simp)⟩
    simp only [if_pos hlen] at hlower
    rw [← and_assoc, and_iff_right hlen, forall_congr' fun m => meets_iff (hlower m)]
    simp only [true_and]
    constructor
    · intro h
      by_cases hzero : 0 ∈ c.shape
      · exact .inl hzero
      · have hinside : InShape (Tensor.last c.shape) ls := stored_of_meets fun m => h m _ (Tensor.last_inShape hzero)
        have hshape := hstretch.1.eq_of_last hzero hinside
        refine .inr ⟨hshape, ((generic_iff hverifies (hls.trans hshape) hrs hstretch.2).mp fun m is his => ?_).resolve_left hzero⟩
        have hm := h m is his
        rwa [hshape, if_pos his] at hm
    · rintro (hzero | ⟨hshape, hright⟩) m is his
      · exact absurd hzero his.pos
      · have hm := (generic_iff hverifies (hls.trans hshape) hrs hstretch.2).mpr (.inr hright) m is his
        rwa [hshape, if_pos his]
  · simp only [if_neg hlen] at hlower
    exact iff_of_false (not_meets_of_none hlower) fun h => hlen ⟨h.1, h.2.1⟩

theorem shape_of_zero {n : Nat} (h : ∀ is, InShape is [n] → is = [0]) : n = 0 ∨ n = 1 := by
  by_contra hn
  have hone := h [1] (by simp; omega)
  exact absurd hone (by decide)

theorem scalars_iff {out : Out} (hl : c.lhs.sizes = none) (hr : c.rhs.sizes = none) (hout : c.out = some out)
    (hverifies : c.ufunc.verifies c.lhs.dtype c.rhs.dtype = true) : (∀ m, Meets c m) ↔ c.Right := by
  have hls : c.lhs.shape = [] := by rw [Arg.shape, hl, Option.getD_none]
  have hrs : c.rhs.shape = [] := by rw [Arg.shape, hr, Option.getD_none]
  have hsizes : out.sizes = c.shape := (c.fitsOut out hout).1
  have htype : out.dtype = c.outType := by rw [Call.outType, hout]
  simp only [Call.Right, hl, hr, hout, hverifies, true_and]
  have hlower : ∀ m, lower c m = if isNumber c.lhs.dtype = true ∧ isNumber c.rhs.dtype = true ∧ c.shape.length = 1 then
      some ⟨c.shape, fun is => if is = [0] then c.ufunc.scalarElement c.outType (c.lhsAt m []) (c.rhsAt m []) else some (m.initial is)⟩
      else none := fun m => by
    simp only [lower, hverifies, if_true, hl, hr, hout, hsizes, htype]
  by_cases hnum : isNumber c.lhs.dtype = true ∧ isNumber c.rhs.dtype = true ∧ c.shape.length = 1
  · obtain ⟨n, hn⟩ := List.length_eq_one_iff.mp hnum.2.2
    simp only [if_pos hnum] at hlower
    rw [and_iff_right hnum.1, and_iff_right hnum.2.1, forall_congr' fun m => meets_iff (hlower m)]
    simp only [true_and, ← scalarElement_exact_iff c.ufunc hverifies c.kind_le]
    constructor
    · intro h
      have hzero : ∀ is, InShape is [n] → is = [0] := fun is his =>
        stored_of_meets (f := fun m _ => c.ufunc.scalarElement c.outType (c.lhsAt m []) (c.rhsAt m [])) fun m => h m is (hn ▸ his)
      rcases shape_of_zero hzero with rfl | rfl
      · exact .inl hn
      · refine .inr ⟨hn, fun x y hx hy => ?_⟩
        obtain ⟨dx, x⟩ := x
        obtain ⟨dy, y⟩ := y
        subst hx hy
        have helem := h (c.constant x y (bool false)) [0] (hn ▸ by simp)
        rw [if_pos rfl] at helem
        exact helem
    · rintro (hn | ⟨hn, hexact⟩) m is his
      · exact absurd (hn ▸ his).pos (by simp)
      · rw [hn] at his
        have hzero : is = [0] := by
          obtain _ | ⟨hi, ⟨⟩⟩ := his
          rw [Nat.lt_one_iff.mp hi]
        subst hzero
        rw [if_pos rfl, Call.expectedAt, hls, hrs]
        exact hexact _ _ rfl rfl
  · simp only [if_neg hnum] at hlower
    refine iff_of_false (not_meets_of_none hlower) ?_
    rintro ⟨ha, hb, hn | ⟨hn, -⟩⟩
    · exact hnum ⟨ha, hb, by rw [hn]; rfl⟩
    · exact hnum ⟨ha, hb, by rw [hn]; rfl⟩

theorem unregistered_iff (h : c.lhs.sizes.isSome ≠ c.rhs.sizes.isSome ∨ c.lhs.sizes = none ∧ c.out = none) : (∀ m, Meets c m) ↔ c.Right := by
  refine iff_of_false (not_meets_of_none fun m => ?_) ?_
  · unfold lower
    cases hl : c.lhs.sizes <;> cases hr : c.rhs.sizes <;> cases hout : c.out <;> simp_all
  · unfold Call.Right
    cases hl : c.lhs.sizes <;> cases hr : c.rhs.sizes <;> cases hout : c.out <;> simp_all

theorem call_iff (c : Call) : (∀ m, Meets c m) ↔ c.Right := by
  by_cases hverifies : c.ufunc.verifies c.lhs.dtype c.rhs.dtype = true
  · cases hl : c.lhs.sizes with
    | none =>
      cases hr : c.rhs.sizes with
      | none =>
        cases hout : c.out with
        | none => exact unregistered_iff (.inr ⟨hl, hout⟩)
        | some out => exact scalars_iff hl hr hout hverifies
      | some rs => exact unregistered_iff (.inl (by simp [hl, hr]))
    | some ls =>
      cases hr : c.rhs.sizes with
      | none => exact unregistered_iff (.inl (by simp [hl, hr]))
      | some rs =>
        cases hout : c.out with
        | none => exact arrays_iff hl hr hout hverifies
        | some out => exact arraysOut_iff hl hr hout hverifies
  · refine iff_of_false (not_meets_of_none fun m => ?_) fun h => hverifies h.1
    rw [lower, if_neg hverifies]

end

/-! ## One operand -/

section
variable {c : NotCall}

/-- The shapes and types at which `np.logical_not` has NumPy's result. -/
def NotCall.Right (c : NotCall) : Prop :=
  match c.arg.sizes, c.out with
  | some _, none => True
  | some sizes, some out => sizes.length = c.shape.length ∧ (0 ∈ c.shape ∨ sizes = c.shape ∧ KeepsTruth out.dtype c.arg.dtype)
  | none, some _ => isNumber c.arg.dtype = true ∧ (c.shape = [0] ∨ c.shape = [1])
  | none, none => False

def notValue (out : TruthValue.ScalarType) (x : Operand) : MlirValue := castInt out (decide (x.value = 0)).toNat

theorem logicalNotFn_eq (v : MlirValue) : logicalNotFn v = !toBool v := Bool.xor_true _

theorem logicalNotFn_load (x : Operand) : logicalNotFn (load x) = decide (x.value = 0) := by simp [logicalNotFn_eq, toBool_operand]

theorem notElement_eq (x : Operand) : notElement x = some (notValue .boolean x) := by
  rw [notElement, logicalNotFn_load]
  exact convert_bool _ .boolean

theorem notScalarElement_eq (out : TruthValue.ScalarType) (x : Operand) : notScalarElement out x = notValue out x := by
  rw [notScalarElement, boolToValueType_eq, logicalNotFn_load, notValue]

theorem notElementWithOutput_eq (out : TruthValue.ScalarType) (x : Operand) :
    notElementWithOutput out x = some (castInt out (!convertedTruth out x).toNat) := by
  obtain ⟨v, hv⟩ := convert_load x out
  simp only [notElementWithOutput, hv, Option.bind_eq_bind, Option.bind_some, convert_bool, logicalNotFn_eq, convertedTruth,
    Option.map_some, Option.getD_some]

theorem notElementWithOutput_iff {out : TruthValue.ScalarType} {d : OperandType} :
    (∀ x : Operand, x.ty = d → notElementWithOutput out x = some (notValue out x)) ↔ KeepsTruth out d := by
  rw [← convertedTruth_iff]
  refine forall_congr' fun x => forall_congr' fun _ => ?_
  have hnot : decide (x.value = 0) = !decide (x.value ≠ 0) := by simp
  rw [notElementWithOutput_eq, Option.some.injEq, notValue, castInt_toNat_inj, hnot, Bool.not_inj_iff]

def NotCall.constant (c : NotCall) (x : BitVec c.arg.dtype.width) (initial : MlirValue) : c.Memory := ⟨fun _ => x, fun _ => initial⟩

theorem notMeets_iff {m : c.Memory} {o : Outcome} (h : lowerNot c m = some o) :
    NotMeets c m ↔ o.shape = c.shape ∧ ∀ is, InShape is c.shape → o.elem is = some (notValue c.outType (c.at m (broadcastIndex c.arg.shape is))) := by
  constructor
  · rintro ⟨o', ho', hmeets⟩
    obtain rfl := Option.some.inj (h.symm.trans ho')
    exact hmeets
  · exact fun hmeets => ⟨o, h, hmeets⟩

theorem not_notMeets_of_none (h : ∀ m, lowerNot c m = none) : ¬∀ m, NotMeets c m := by
  intro hmeets
  obtain ⟨o, ho, -⟩ := hmeets (c.constant 0 (bool false))
  rw [h] at ho
  cases ho

theorem notStored_of_meets {f : NotCall.Memory c → Option MlirValue} {out : TruthValue.ScalarType} {P : Prop} [Decidable P] {is js : List Nat}
    (h : ∀ m : c.Memory, (if P then f m else some (m.initial is)) = some (notValue out (c.at m js))) : P := by
  by_contra hP
  have hv := h (c.constant 0 (bool true))
  have hw := h (c.constant 0 (bool false))
  rw [if_neg hP] at hv hw
  exact bool_ne (Option.some.inj (hv.trans hw.symm))

theorem notScalar_iff {out : Out} (hs : c.arg.sizes = none) (hout : c.out = some out) : (∀ m, NotMeets c m) ↔ c.Right := by
  have hshape : c.arg.shape = [] := by rw [Arg.shape, hs, Option.getD_none]
  have hsizes : out.sizes = c.shape := c.fitsOut out hout
  have htype : out.dtype = c.outType := by rw [NotCall.outType, hout]
  have hlower : ∀ m, lowerNot c m = if isNumber c.arg.dtype = true ∧ c.shape.length = 1 then
      some ⟨c.shape, fun is => if is = [0] then some (notScalarElement c.outType (c.at m [])) else some (m.initial is)⟩ else none := fun m => by
    simp only [lowerNot, hs, hout, hsizes, htype]
  simp only [NotCall.Right, hs, hout]
  by_cases hnum : isNumber c.arg.dtype = true ∧ c.shape.length = 1
  · obtain ⟨n, hn⟩ := List.length_eq_one_iff.mp hnum.2
    simp only [if_pos hnum] at hlower
    rw [and_iff_right hnum.1, forall_congr' fun m => notMeets_iff (hlower m)]
    simp only [true_and, hshape]
    constructor
    · intro h
      have hzero : ∀ is, InShape is [n] → is = [0] := fun is his =>
        notStored_of_meets (f := fun m => some (notScalarElement c.outType (c.at m []))) fun m => h m is (hn ▸ his)
      rcases shape_of_zero hzero with rfl | rfl
      · exact .inl hn
      · exact .inr hn
    · rintro (hn | hn) m is his
      · exact absurd (hn ▸ his).pos (by simp)
      · rw [hn] at his
        obtain _ | ⟨hi, ⟨⟩⟩ := his
        rw [Nat.lt_one_iff.mp hi, if_pos rfl, notScalarElement_eq]
        rfl
  · simp only [if_neg hnum] at hlower
    refine iff_of_false (not_notMeets_of_none hlower) ?_
    rintro ⟨ha, hn | hn⟩
    · exact hnum ⟨ha, by rw [hn]; rfl⟩
    · exact hnum ⟨ha, by rw [hn]; rfl⟩

theorem notArray_iff {sizes : List Nat} (hs : c.arg.sizes = some sizes) (hout : c.out = none) : (∀ m, NotMeets c m) ↔ c.Right := by
  have hshape : sizes = c.shape := by
    have hb := c.broadcast
    rw [hout, shape_some hs] at hb
    have hself : broadcastShapes [sizes] = some sizes := by
      simp [broadcastShapes, broadcastReversed]
    exact Option.some.inj (hself.symm.trans hb)
  have htype : c.outType = .boolean := by rw [NotCall.outType, hout]
  have hlower : ∀ m, lowerNot c m = some ⟨c.shape, fun is => notElement (c.at m is)⟩ := fun m => by
    simp only [lowerNot, hs, hout, hshape]
  simp only [NotCall.Right, hs, hout, iff_true]
  intro m
  rw [notMeets_iff (hlower m), shape_some hs, hshape, htype]
  refine ⟨rfl, fun is his => ?_⟩
  rw [broadcastIndex_self his]
  exact notElement_eq _

theorem notArrayOut_iff {sizes : List Nat} {out : Out} (hs : c.arg.sizes = some sizes) (hout : c.out = some out) :
    (∀ m, NotMeets c m) ↔ c.Right := by
  have hshape := shape_some hs
  have hsizes : out.sizes = c.shape := c.fitsOut out hout
  have htype : c.outType = out.dtype := by rw [NotCall.outType, hout]
  have hlower : ∀ m, lowerNot c m = if sizes.length = c.shape.length then
      some ⟨c.shape, fun is => if InShape is sizes then notElementWithOutput out.dtype (c.at m is) else some (m.initial is)⟩ else none := fun m => by
    simp only [lowerNot, hs, hout, hsizes]
  simp only [NotCall.Right, hs, hout, ← notElementWithOutput_iff]
  by_cases hlen : sizes.length = c.shape.length
  · have hstretch : Stretches sizes c.shape := by
      have hb := c.broadcast
      rw [hout, hshape, Option.map_some, hsizes] at hb
      exact (broadcastShapes_stretches (by simpa using hlen.symm) hb).1
    simp only [if_pos hlen] at hlower
    rw [and_iff_right hlen, forall_congr' fun m => notMeets_iff (hlower m)]
    simp only [true_and, htype, hshape]
    constructor
    · intro h
      by_cases hzero : 0 ∈ c.shape
      · exact .inl hzero
      · have hlast := Tensor.last_inShape hzero
        have hinside : InShape (Tensor.last c.shape) sizes :=
          notStored_of_meets (f := fun m => notElementWithOutput out.dtype (c.at m (Tensor.last c.shape))) fun m => h m _ hlast
        have heq := hstretch.eq_of_last hzero hinside
        refine .inr ⟨heq, fun x hx => ?_⟩
        obtain ⟨d, x⟩ := x
        subst hx
        have helem := h (c.constant x (bool false)) _ hlast
        rwa [if_pos hinside] at helem
    · rintro (hzero | ⟨heq, hexact⟩) m is his
      · exact absurd hzero his.pos
      · rw [heq, if_pos his, broadcastIndex_self his]
        exact hexact _ rfl
  · simp only [if_neg hlen] at hlower
    exact iff_of_false (not_notMeets_of_none hlower) fun h => hlen h.1

theorem notCall_iff (c : NotCall) : (∀ m, NotMeets c m) ↔ c.Right := by
  cases hs : c.arg.sizes with
  | none =>
    cases hout : c.out with
    | none =>
      refine iff_of_false (not_notMeets_of_none fun m => ?_) ?_
      · simp only [lowerNot, hs, hout]
      · simp only [NotCall.Right, hs, hout, not_false_eq_true]
    | some out => exact notScalar_iff hs hout
  | some sizes =>
    cases hout : c.out with
    | none => exact notArray_iff hs hout
    | some out => exact notArrayOut_iff hs hout

end

/-! ## Scalars and arrays of one element -/

/-- A ufunc with the types of its operands and of an output array of one element. -/
structure OneElement where
  ufunc : BinaryUfunc
  a : OperandType
  b : OperandType
  out : TruthValue.ScalarType
  fits : kind (ufunc.outputType a b) ≤ kind out

section
variable (o : OneElement)

def OneElement.scalars : Call where
  ufunc := o.ufunc
  lhs := ⟨o.a, none⟩
  rhs := ⟨o.b, none⟩
  out := some ⟨o.out, [1]⟩
  shape := [1]
  broadcast := rfl
  fitsOut _ h := Option.some.inj h ▸ ⟨rfl, o.fits⟩

def OneElement.arrays : Call where
  ufunc := o.ufunc
  lhs := ⟨o.a, some [1]⟩
  rhs := ⟨o.b, some [1]⟩
  out := some ⟨o.out, [1]⟩
  shape := [1]
  broadcast := rfl
  fitsOut _ h := Option.some.inj h ▸ ⟨rfl, o.fits⟩

/-- What the output array holds, where there is a lowering. -/
def answer {c : Call} (m : c.Memory) : Option MlirValue := (lower c m).bind fun outcome => outcome.elem [0]

def OneElement.Agree : Prop := ∀ x y initial, answer (o.scalars.constant x y initial) = answer (o.arrays.constant x y initial)

/-- The types at which scalars and arrays of one element have the same answer. -/
def OneElement.Same : Prop := o.ufunc.verifies o.a o.b = true → isNumber o.a = true ∧ isNumber o.b = true ∧
  ∀ l, o.ufunc = .logical l → KeepsTruth o.out o.a ∧ KeepsTruth o.out o.b

theorem answer_scalars (x : BitVec o.a.width) (y : BitVec o.b.width) (initial : MlirValue) (h : o.ufunc.verifies o.a o.b = true) :
    answer (o.scalars.constant x y initial) =
      if isNumber o.a = true ∧ isNumber o.b = true then o.ufunc.scalarElement o.out ⟨o.a, x⟩ ⟨o.b, y⟩ else none := by
  have hverifies : o.scalars.ufunc.verifies o.scalars.lhs.dtype o.scalars.rhs.dtype = true := h
  rw [answer, lower, if_pos hverifies]
  by_cases hnum : isNumber o.a = true ∧ isNumber o.b = true
  · rw [if_pos hnum]
    simp only [OneElement.scalars, hnum, List.length_singleton, and_self, if_true, Option.bind_some]
    rfl
  · rw [if_neg hnum]
    have hnum' : ¬(isNumber o.a = true ∧ isNumber o.b = true ∧ [1].length = 1) := fun h => hnum ⟨h.1, h.2.1⟩
    change Option.bind (if isNumber o.a = true ∧ isNumber o.b = true ∧ [1].length = 1 then _ else none) _ = none
    rw [if_neg hnum', Option.bind_none]

theorem answer_arrays (x : BitVec o.a.width) (y : BitVec o.b.width) (initial : MlirValue) (h : o.ufunc.verifies o.a o.b = true) :
    answer (o.arrays.constant x y initial) = o.ufunc.arrayElement o.out ⟨o.a, x⟩ ⟨o.b, y⟩ := by
  have hverifies : o.arrays.ufunc.verifies o.arrays.lhs.dtype o.arrays.rhs.dtype = true := h
  rw [answer, lower, if_pos hverifies]
  rfl

theorem answer_of_not_verifies (h : o.ufunc.verifies o.a o.b ≠ true) (x : BitVec o.a.width) (y : BitVec o.b.width) (initial : MlirValue) :
    answer (o.scalars.constant x y initial) = answer (o.arrays.constant x y initial) := by
  have hs : ¬o.scalars.ufunc.verifies o.scalars.lhs.dtype o.scalars.rhs.dtype = true := h
  have ha : ¬o.arrays.ufunc.verifies o.arrays.lhs.dtype o.arrays.rhs.dtype = true := h
  rw [answer, answer, lower, lower, if_neg hs, if_neg ha]

theorem arrayElement_boolean (e : Extremum) (x y : Operand) : ∃ v, (BinaryUfunc.extremum e).arrayElement .boolean x y = some v := by
  have hfn : ∀ {v w : Nat} (x : BitVec v) (y : BitVec w), e.fn (.int v x) (.int w y) = some (.int v x) ∨ e.fn (.int v x) (.int w y) = some (.int w y) := by
    intro v w x y
    unfold Extremum.fn
    dsimp only
    generalize (if e.greater = true then decide (y.toInt < x.toInt) else decide (x.toInt < y.toInt)) = keepA
    cases keepA with
    | true => exact .inl rfl
    | false => exact .inr rfl
  simp only [BinaryUfunc.arrayElement, load, TruthValue.ScalarType.toMlir, convert, Option.bind_eq_bind, Option.bind_some, BinaryUfunc.mathFn]
  rcases hfn (convertInteger none 1 x.bits) (convertInteger none 1 y.bits) with h | h
  · exact ⟨_, by rw [h, Option.bind_some]⟩
  · exact ⟨_, by rw [h, Option.bind_some]⟩

theorem arrayElement_ne_none (u : BinaryUfunc) (out : TruthValue.ScalarType) (x y : Operand) : u.arrayElement out x y ≠ none := by
  cases u with
  | comparison c => simp [BinaryUfunc.arrayElement, convert_bool]
  | logical l => simp [arrayElement_logical]
  | extremum e =>
    by_cases hout : out = .boolean
    · subst hout
      obtain ⟨v, hv⟩ := arrayElement_boolean e x y
      rw [hv]
      exact Option.some_ne_none v
    · simp [arrayElement_extremum e hout]

theorem elements_agree_iff (u : BinaryUfunc) {out : TruthValue.ScalarType} {a b : OperandType} :
    (∀ x y : Operand, x.ty = a → y.ty = b → u.scalarElement out x y = u.arrayElement out x y) ↔
      ∀ l, u = .logical l → KeepsTruth out a ∧ KeepsTruth out b := by
  cases u with
  | comparison c =>
    refine iff_of_true (fun x y _ _ => ?_) fun l h => BinaryUfunc.noConfusion h
    rw [BinaryUfunc.scalarElement, BinaryUfunc.arrayElement, boolToValueType_eq, convert_bool]
  | extremum e => exact iff_of_true (fun _ _ _ _ => rfl) fun l h => BinaryUfunc.noConfusion h
  | logical l =>
    have hkeeps : (∀ l', BinaryUfunc.logical l = .logical l' → KeepsTruth out a ∧ KeepsTruth out b) ↔ KeepsTruth out a ∧ KeepsTruth out b :=
      ⟨fun h => h l rfl, fun h _ _ => h⟩
    rw [hkeeps, ← convertedTruth_iff, ← convertedTruth_iff, ← l.exact_iff (convertedTruth_zero out)]
    refine forall_congr' fun x => forall_congr' fun y => forall_congr' fun _ => forall_congr' fun _ => ?_
    rw [arrayElement_logical, BinaryUfunc.scalarElement, boolToValueType_eq, Option.some.injEq, castInt_toNat_inj, Logical.fn_eq,
      toBool_operand, toBool_operand, ← Logical.holds_eq]
    exact eq_comm

theorem agree_iff (o : OneElement) : o.Agree ↔ o.Same := by
  by_cases hverifies : o.ufunc.verifies o.a o.b = true
  · rw [OneElement.Same, imp_iff_right hverifies]
    by_cases hnum : isNumber o.a = true ∧ isNumber o.b = true
    · rw [and_iff_right hnum.1, and_iff_right hnum.2, ← elements_agree_iff]
      constructor
      · rintro h ⟨_, x⟩ ⟨_, y⟩ rfl rfl
        have hxy := h x y (bool false)
        rwa [answer_scalars o x y _ hverifies, answer_arrays o x y _ hverifies, if_pos hnum] at hxy
      · intro h x y initial
        rw [answer_scalars o x y _ hverifies, answer_arrays o x y _ hverifies, if_pos hnum]
        exact h _ _ rfl rfl
    · refine iff_of_false (fun h => ?_) fun h => hnum ⟨h.1, h.2.1⟩
      have hxy : answer (o.scalars.constant 0#o.a.width 0#o.b.width (bool false)) =
        answer (o.arrays.constant 0#o.a.width 0#o.b.width (bool false)) := h _ _ _
      rw [answer_scalars o _ _ _ hverifies, answer_arrays o _ _ _ hverifies, if_neg hnum] at hxy
      exact arrayElement_ne_none _ _ _ _ hxy.symm
  · exact iff_of_true (answer_of_not_verifies o hverifies) fun h => absurd h hverifies

end

/-- The calls whose every element has NumPy's value, for all operands and whatever the output array held, and the types at
which two scalars have the answer of two arrays of one element. -/
theorem elementwise_exact_iff (c : Call) : ((∀ m, Meets c m) ↔ c.Right) ∧ (∀ c : NotCall, (∀ m, NotMeets c m) ↔ c.Right) ∧
    ∀ o : OneElement, o.Agree ↔ o.Same :=
  ⟨call_iff c, notCall_iff, agree_iff⟩

/-- `np.greater` of the bytes 200 and 100 is false, and `np.logical_and` of 256 and 1 with an output of bytes is zero for arrays. -/
theorem elementwise_fails :
    let u8 : OperandType := .integer ⟨false, .w8⟩
    let i32 : OperandType := .integer ⟨true, .w32⟩
    let greater : OneElement := ⟨.comparison .greater, u8, u8, .boolean, Nat.le_refl _⟩
    let both : OneElement := ⟨.logical .logicalAnd, i32, i32, .integer ⟨true, .w8⟩, by decide⟩
    ¬Meets greater.arrays (greater.arrays.constant 200#8 100#8 (bool false)) ∧
      answer (both.scalars.constant 256#32 1#32 (bool false)) ≠ answer (both.arrays.constant 256#32 1#32 (bool false)) := by
  intro u8 i32 greater both
  constructor
  · rintro ⟨o, ho, -, helem⟩
    obtain ⟨v, hv, he⟩ := helem [0] (by simp [greater, OneElement.arrays])
    have hanswer : answer (greater.arrays.constant 200#8 100#8 (bool false)) = some v := by
      rw [answer, ho]
      exact hv
    have hholds : Comparison.holds .greater (⟨u8, 200#8⟩ : Operand).value (⟨u8, 100#8⟩ : Operand).value = true := by decide
    have hnumpy : (BinaryUfunc.comparison .greater).expected .boolean ⟨u8, 200#8⟩ ⟨u8, 100#8⟩ = some (castInt .boolean true.toNat) := by
      rw [BinaryUfunc.expected, hholds]
    have hcode := (answer_arrays greater 200#8 100#8 (bool false) rfl).symm.trans hanswer
    have heq : some (castInt .boolean true.toNat) = some (castInt .boolean false.toNat) :=
      (hnumpy.symm.trans he).trans (hcode.symm.trans (convert_bool false .boolean))
    exact absurd ((castInt_toNat_inj .boolean).mp (Option.some.inj heq)) (by decide)
  · intro h
    have hscalars := answer_scalars both 256#32 1#32 (bool false) rfl
    have harrays := answer_arrays both 256#32 1#32 (bool false) rfl
    rw [if_pos ⟨rfl, rfl⟩] at hscalars
    have hlost : convertedTruth both.out ⟨i32, 256#32⟩ = false := by decide
    have hcode := arrayElement_logical .logicalAnd both.out ⟨i32, 256#32⟩ ⟨i32, 1#32⟩
    rw [hlost, Logical.table, Bool.false_and] at hcode
    have hs : some (boolToValueType true both.out.toMlir) = some (castInt both.out false.toNat) := hscalars.symm.trans (h.trans (harrays.trans hcode))
    rw [boolToValueType_eq] at hs
    exact absurd ((castInt_toNat_inj both.out).mp (Option.some.inj hs)) (by decide)

end NumbaCudaMlir.Elementwise

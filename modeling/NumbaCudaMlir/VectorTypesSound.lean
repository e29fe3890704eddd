import NumbaCudaMlir.VectorTypes

/-!
# Vector operators and the operators on scalars
-/

namespace NumbaCudaMlir.VectorTypes

open MachineInt ArithOps

/-! ## Lanes -/

theorem mapM_eq_some {α β : Type} {f : α → Option β} : ∀ {xs : List α} {ys : List β}, xs.mapM f = some ys ↔ xs.map f = ys.map some
  | [], ys => by cases ys <;> simp
  | x :: xs, ys => by
    simp only [List.mapM_cons, Option.bind_eq_bind, Option.bind_eq_some_iff, Option.pure_def, Option.some.injEq, mapM_eq_some]
    constructor
    · rintro ⟨y, hy, zs, hzs, rfl⟩
      rw [List.map_cons, List.map_cons, hy, hzs]
    · intro h
      cases ys with
      | nil => cases h
      | cons y ys =>
        rw [List.map_cons, List.map_cons, List.cons.injEq] at h
        exact ⟨y, h.1, ys, h.2, rfl⟩

/-- The value of a scalar in the type of an element: an integer by its own sign, a float toward zero. -/
def Scalar.castTo : Scalar → (target : DType) → Option target.Lane
  | .boolean x, .integer t => some (BitVec.ofInt t.bits x.toNat)
  | .boolean x, .float f => some (BinaryFloat.ofInt f.format x.toNat)
  | .integer s x, .integer t => some (BitVec.ofInt t.bits (value s.signed x))
  | .integer s x, .float f => some (BinaryFloat.ofInt f.format (value s.signed x))
  | .float _ x, .integer t => fpToInt t.signed t.bits x
  | .float f x, .float g => some (convertFloat f g x)

theorem bits_ne_one (t : IntType) : t.bits ≠ 1 := (Nat.ne_of_lt t.width.one_lt_bits).symm

theorem convert_number (d target : DType) (x : d.Lane) :
    convert (getConversionSignedness (.number d) target) (.ofLane d x) target = (Scalar.ofLane d x).castTo target := by
  cases d with
  | integer s =>
    cases target with
    | integer t =>
      simp only [convert, getConversionSignedness, Scalar.ofLane, Scalar.castTo, convertInteger_eq (.inl (bits_ne_one t))]
      simp
    | float f => rfl
  | float g =>
    cases target with
    | integer t =>
      simp only [convert, getConversionSignedness, Scalar.ofLane, Scalar.castTo, convertFloatToInteger, if_neg (bits_ne_one t)]
      rfl
    | float f => rfl

theorem convertLane_number (d target : DType) (x : d.Lane) :
    convertLane (getConversionSignedness (.number d) target) d target x = (Scalar.ofLane d x).castTo target := by
  cases d with
  | integer s =>
    cases target with
    | integer t =>
      have hzero : x.setWidth t.bits = extend false t.bits x := rfl
      have hsign : x.signExtend t.bits = extend true t.bits x := rfl
      have hle : t.bits ≤ s.bits → extend s.signed t.bits x = x.setWidth t.bits := by
        intro h
        cases s.signed with
        | false => rfl
        | true => exact BitVec.signExtend_eq_setWidth_of_le x h
      have hcast : Scalar.castTo (.ofLane (.integer s) x) (.integer t) = some (extend s.signed t.bits x) := by
        rw [extend_eq_ofInt]
        rfl
      rw [hcast]
      simp only [convertLane, getConversionSignedness, useSignedConversion, Option.getD_some]
      by_cases heq : s.bits = t.bits
      · rw [if_pos heq, hle heq.ge]
      · rw [if_neg heq]
        by_cases hgt : s.bits > t.bits
        · rw [if_pos hgt, hle hgt.le]
        · rw [if_neg hgt]
          rfl
    | float f => rfl
  | float g =>
    cases target with
    | integer t => rfl
    | float f => rfl

theorem mapM_total {α β : Type} {f : α → Option β} : ∀ {xs : List α}, (∀ x ∈ xs, ∃ y, f x = some y) → ∃ ys, xs.mapM f = some ys
  | [], _ => ⟨[], rfl⟩
  | x :: xs, h => by
    obtain ⟨y, hy⟩ := h x List.mem_cons_self
    obtain ⟨ys, hys⟩ := mapM_total fun z hz => h z (List.mem_cons_of_mem x hz)
    exact ⟨y :: ys, mapM_eq_some.mpr (by rw [List.map_cons, List.map_cons, hy, mapM_eq_some.mp hys])⟩

theorem getElem?_of_mapM {α β : Type} {f : α → Option β} {xs : List α} {ys : List β} (h : xs.mapM f = some ys) (k : Nat) :
    ys[k]? = xs[k]?.bind f := by
  have hk := congrArg (fun l => l[k]?) (mapM_eq_some.mp h)
  simp only [List.getElem?_map] at hk
  cases hx : xs[k]? with
  | none =>
    rw [hx] at hk
    cases hy : ys[k]? with
    | none => rfl
    | some y => rw [hy] at hk; cases hk
  | some x =>
    rw [hx] at hk
    cases hy : ys[k]? with
    | none => rw [hy] at hk; cases hk
    | some y =>
      rw [hy] at hk
      exact (Option.some.inj hk).symm

theorem length_of_mapM {α β : Type} {f : α → Option β} {xs : List α} {ys : List β} (h : xs.mapM f = some ys) :
    ys.length = xs.length := by
  have := congrArg List.length (mapM_eq_some.mp h)
  rw [List.length_map, List.length_map] at this
  exact this.symm

/-! ## Operands -/

/-- Lane `k` of an operand; a scalar is the same in all. -/
def Arg.lane (k : Nat) : Arg → Option Scalar
  | boolean x => some (.boolean x)
  | number d x => some (.ofLane d x)
  | complex .. => none
  | vector v => v.lanes[k]?.map (.ofLane v.ty.dtype)

def Arg.operand (target : DType) (k : Nat) (arg : Arg) : Option target.Lane := (arg.lane k).bind (·.castTo target)

/-- Every value of the first type has one in the second. -/
def Converts (d target : DType) : Prop := ∀ x : d.Lane, ∃ y, (Scalar.ofLane d x).castTo target = some y

inductive Fits (target : VectorType) : ArgType → Prop
  | vector {v : VectorType} : v.length = target.length → Converts v.dtype target.dtype → Fits target (.vector v)
  | number {d : DType} : Converts d target.dtype → Fits target (.number d)

theorem converts_float (d : DType) (f : FloatType) : Converts d (.float f) := by
  intro x
  cases d with
  | integer s => exact ⟨_, rfl⟩
  | float g => exact ⟨_, rfl⟩

theorem converts_unify (a b : DType) : Converts a (unifyTypes a b) ∧ Converts b (unifyTypes a b) := by
  cases h : unifyTypes a b with
  | float f => exact ⟨converts_float a f, converts_float b f⟩
  | integer t =>
    -- only integers are unified to an integer
    cases a with
    | integer s =>
      cases b with
      | integer s' => exact ⟨fun _ => ⟨_, rfl⟩, fun _ => ⟨_, rfl⟩⟩
      | float g => simp [unifyTypes, promoteTypes] at h
    | float f =>
      cases b with
      | integer s' => simp [unifyTypes, promoteTypes] at h
      | float g =>
        unfold unifyTypes at h
        split at h <;> cases h

theorem of_getVectorType {d : DType} {n : Nat} {v : VectorType} (h : getVectorType d n = some v) : v = ⟨d, n⟩ ∧ 0 < n := by
  have hv : v = ⟨d, n⟩ := by simpa using List.find?_some h
  have hmem := List.mem_of_find?_eq_some h
  refine ⟨hv, ?_⟩
  subst hv
  simp only [vectorTypes, List.mem_flatMap, List.mem_map, List.mem_cons, List.not_mem_nil, or_false, VectorType.mk.injEq] at hmem
  omega

theorem fits_of_resolve {op : VectorOp} {a b : ArgType} {target : VectorType} (h : op.resolve a b = some target) :
    Fits target a ∧ Fits target b ∧ 0 < target.length := by
  cases a with
  | boolean | complex _ => cases h
  | number d =>
    cases b with
    | boolean | complex _ | number _ => cases h
    | vector w =>
      obtain ⟨rfl, hpos⟩ := of_getVectorType h
      have hconv := converts_unify d w.dtype
      exact ⟨.number hconv.1, .vector rfl hconv.2, hpos⟩
  | vector v =>
    cases b with
    | boolean | complex _ => cases h
    | number d =>
      obtain ⟨rfl, hpos⟩ := of_getVectorType h
      have hconv := converts_unify v.dtype d
      exact ⟨.vector rfl hconv.1, .number hconv.2, hpos⟩
    | vector w =>
      simp only [VectorOp.resolve, Option.ite_none_left_eq_some] at h
      obtain ⟨-, hlen, h⟩ := h
      obtain ⟨rfl, hpos⟩ := of_getVectorType h
      have hconv := converts_unify v.dtype w.dtype
      exact ⟨.vector rfl hconv.1, .vector (not_not.mp hlen).symm hconv.2, hpos⟩

theorem convertOperand_eq {target : VectorType} {arg : Arg} (h : Fits target arg.type) :
    ∃ lanes, convertOperand target arg = some lanes ∧ lanes.length = target.length ∧
      ∀ k < target.length, lanes[k]? = arg.operand target.dtype k := by
  cases arg with
  | boolean | complex => cases h
  | number d x =>
    have hconv : Converts d target.dtype := by
      cases h with
      | number hconv => exact hconv
    obtain ⟨y, hy⟩ := hconv x
    have hy' := (convert_number d target.dtype x).trans hy
    refine ⟨List.replicate target.length y, congrArg (Option.map (List.replicate target.length)) hy', List.length_replicate, ?_⟩
    · intro k hk
      rw [List.getElem?_replicate, if_pos hk]
      exact hy.symm
  | vector v =>
    obtain ⟨hlen, hconv⟩ := h
    have heq : convertLane (getConversionSignedness (.vector v.ty) target.dtype) v.ty.dtype target.dtype =
        fun x => (Scalar.ofLane v.ty.dtype x).castTo target.dtype := funext (convertLane_number v.ty.dtype target.dtype)
    obtain ⟨lanes, hlanes⟩ := @mapM_total _ _ _ v.lanes fun x _ => hconv x
    refine ⟨lanes, ?_, ?_, ?_⟩
    · show v.lanes.mapM (convertLane (getConversionSignedness (.vector v.ty) target.dtype) _ _) = _
      rw [heq, hlanes]
    · rw [length_of_mapM hlanes, v.wf, hlen]
    · intro k _
      rw [getElem?_of_mapM hlanes, Arg.operand, Arg.lane, Option.bind_map]
      rfl

/-! ## Integer operators -/

section
variable {t : IntType} (x y : BitVec t.bits)

theorem convertOperand_self : IntegerArith.convertOperand ⟨.integer t, x⟩ t.bits = x := convertInteger_self _ x

theorem stored_eq (r : Option (BitVec t.bits)) :
    ((do return ⟨.integer t, ← IntegerArith.defined r⟩ : Except IntegerArith.Failure IntegerArith.Operand).toOption.map
      fun r => r.bits.setWidth t.bits) = r := by
  cases r with
  | none => rfl
  | some z => exact congrArg some (BitVec.setWidth_eq z)

theorem unifiedType_self (op : NumberTyping.BinOp) :
    IntegerArith.unifiedType op ⟨.integer t, (.integer t, .integer t)⟩ (.integer t) (.integer t) = .integer t.bits := by
  simp [IntegerArith.unifiedType, IntegerArith.promotedType, IntegerArith.toUnified]

theorem scalarLowering_add : scalarLowering .add (.integer t) x y = addi t.signed x y := by
  simp only [scalarLowering, scalarIntLowering, IntegerArith.binOpCg, unifiedType_self, NumberTyping.OperandType.width, convertOperand_self]
  exact stored_eq _

theorem scalarLowering_sub : scalarLowering .sub (.integer t) x y = subi t.signed x y := by
  simp only [scalarLowering, scalarIntLowering, IntegerArith.binOpCg, unifiedType_self, NumberTyping.OperandType.width, convertOperand_self]
  exact stored_eq _

theorem scalarLowering_mul : scalarLowering .mul (.integer t) x y = muli t.signed x y := by
  simp only [scalarLowering, scalarIntLowering, IntegerArith.binOpCg, unifiedType_self, NumberTyping.OperandType.width, convertOperand_self]
  exact stored_eq _

theorem scalarLowering_floordiv :
    scalarLowering .floordiv (.integer t) x y = if t.signed then floordivsi x y else divui x y := by
  simp only [scalarLowering, scalarIntLowering, IntegerArith.floordivCg, NumberTyping.OperandType.width, NumberTyping.OperandType.signed,
    convertOperand_self]
  exact stored_eq _

theorem scalarLowering_mod : scalarLowering .mod (.integer t) x y =
    if t.signed then if divides x y then some (BitVec.ofInt t.bits (x.toInt.fmod y.toInt)) else none else remui x y := by
  simp only [scalarLowering, scalarIntLowering, IntegerArith.modCg, NumberTyping.OperandType.width, NumberTyping.OperandType.signed,
    convertOperand_self]
  by_cases hs : t.signed = true
  · rw [if_pos hs, if_pos hs]
    by_cases hd : divides x y
    · have hrem := rem_add_divisor (x := x) (toInt_ne_zero hd)
      rw [if_pos hd, remsi, if_pos hd]
      exact (stored_eq (some _)).trans (congrArg some hrem)
    · rw [if_neg hd, remsi, if_neg hd]
      rfl
  · rw [if_neg hs, if_neg hs]
    exact stored_eq _

/-- Where the instruction of a vector is the operator on scalars. -/
def Agrees (op : VectorOp) (t : IntType) (x y : BitVec t.bits) : Prop :=
  match op with
  | .add | .sub | .mul => True
  | .floordiv => if t.signed then TruncatesDown x y else QuotientUnsigned x y
  | .mod => if t.signed then TruncatesDown x y else RemainderUnsigned x y

theorem noSignedWrap_eq_some {nsw : Bool} {n : Int} {r z : BitVec t.bits} (h : noSignedWrap nsw n r = some z) : r = z := by
  rw [noSignedWrap, Option.ite_none_left_eq_some] at h
  exact Option.some.inj h.2

variable {x y} in
theorem iop_eq_iff {op : VectorOp} {z : BitVec t.bits} (h : scalarLowering op (.integer t) x y = some z) :
    iop op x y = some z ↔ Agrees op t x y := by
  cases op with
  | add =>
    rw [scalarLowering_add] at h
    exact iff_of_true (congrArg some (noSignedWrap_eq_some h)) trivial
  | sub =>
    rw [scalarLowering_sub] at h
    exact iff_of_true (congrArg some (noSignedWrap_eq_some h)) trivial
  | mul =>
    rw [scalarLowering_mul] at h
    exact iff_of_true (congrArg some (noSignedWrap_eq_some h)) trivial
  | floordiv =>
    rw [scalarLowering_floordiv] at h
    rw [← h]
    by_cases hs : t.signed = true
    · rw [if_pos hs] at h ⊢
      have hd : divides x y := by
        by_contra hd
        rw [floordivsi, if_neg hd] at h
        cases h
      simp only [Agrees, if_pos hs]
      exact divsi_eq_floordivsi_iff t.width.bits_pos hd
    · rw [if_neg hs] at h ⊢
      have hy : y ≠ 0#t.bits := by
        intro hy
        rw [divui, if_pos hy] at h
        cases h
      simp only [Agrees, if_neg hs]
      exact divsi_eq_divui_iff t.width.one_lt_bits hy
  | mod =>
    rw [scalarLowering_mod] at h
    rw [← h]
    by_cases hs : t.signed = true
    · rw [if_pos hs] at h ⊢
      have hd : divides x y := by
        by_contra hd
        rw [if_neg hd] at h
        cases h
      simp only [Agrees, if_pos hs, if_pos hd]
      exact remsi_eq_fmod_iff t.width.bits_pos hd
    · rw [if_neg hs] at h ⊢
      have hy : y ≠ 0#t.bits := by
        intro hy
        rw [remui, if_pos hy] at h
        cases h
      simp only [Agrees, if_neg hs]
      exact remsi_eq_remui_iff t.width.one_lt_bits hy

end

/-! ## Calls -/

/-- A typed call of an operator; no division is undefined in a lane. -/
structure BinaryCall where
  op : VectorOp
  lhs : Arg
  rhs : Arg
  target : VectorType
  typed : op.resolve lhs.type rhs.type = some target
  defined : op = .floordiv ∨ op = .mod → ∀ k < target.length, ∀ x y, lhs.operand target.dtype k = some x →
    rhs.operand target.dtype k = some y → ∃ z, scalarLowering op target.dtype x y = some z

/-- Every lane is the operator on the lanes of the operands, each cast to the element type of the result. -/
def BinaryCall.Meets (c : BinaryCall) : Prop :=
  ∀ k < c.target.length, ∃ x y, c.lhs.operand c.target.dtype k = some x ∧ c.rhs.operand c.target.dtype k = some y ∧
    ∀ z, scalarLowering c.op c.target.dtype x y = some z →
      ∃ lanes, binopLowering c.op c.target c.lhs c.rhs = some lanes ∧ lanes[k]? = some z

def AgreesAt (op : VectorOp) : (d : DType) → d.Lane → d.Lane → Prop
  | .integer t => Agrees op t
  | .float _ => fun _ _ => op ≠ .floordiv ∧ op ≠ .mod

def BinaryCall.Agree (c : BinaryCall) : Prop :=
  ∀ k < c.target.length, ∀ x y, c.lhs.operand c.target.dtype k = some x → c.rhs.operand c.target.dtype k = some y →
    AgreesAt c.op c.target.dtype x y

theorem BinaryCall.results (c : BinaryCall) : ∃ results : List (Option c.target.dtype.Lane),
    binopLowering c.op c.target c.lhs c.rhs = results.mapM id ∧
    results.length = c.target.length ∧ ∀ k < c.target.length, ∃ x y, c.lhs.operand c.target.dtype k = some x ∧
      c.rhs.operand c.target.dtype k = some y ∧ results[k]? = some (instruction c.op c.target.dtype x y) := by
  obtain ⟨hl, hr, -⟩ := fits_of_resolve c.typed
  obtain ⟨l, hleq, hlen, hlane⟩ := convertOperand_eq hl
  obtain ⟨r, hreq, hlen', hlane'⟩ := convertOperand_eq hr
  refine ⟨List.zipWith (instruction c.op c.target.dtype) l r, ?_, ?_, ?_⟩
  · rw [binopLowering, hleq, hreq]
    rfl
  · rw [List.length_zipWith, hlen, hlen', min_self]
  · intro k hk
    have hx : l[k]? = some l[k] := List.getElem?_eq_getElem (by omega)
    have hy : r[k]? = some r[k] := List.getElem?_eq_getElem (by omega)
    refine ⟨l[k], r[k], (hlane k hk).symm.trans hx, (hlane' k hk).symm.trans hy, ?_⟩
    rw [List.getElem?_zipWith, hx, hy]

theorem BinaryCall.lower_eq (c : BinaryCall) (h : ∀ k < c.target.length, ∀ x y, c.lhs.operand c.target.dtype k = some x →
    c.rhs.operand c.target.dtype k = some y → ∃ z, instruction c.op c.target.dtype x y = some z) :
    ∃ lanes, binopLowering c.op c.target c.lhs c.rhs = some lanes ∧ ∀ k < c.target.length, ∃ x y,
      c.lhs.operand c.target.dtype k = some x ∧ c.rhs.operand c.target.dtype k = some y ∧
        lanes[k]? = instruction c.op c.target.dtype x y := by
  obtain ⟨results, heq, hlen, hlane⟩ := c.results
  obtain ⟨lanes, hlanes⟩ : ∃ lanes, results.mapM id = some lanes := by
    refine mapM_total fun r hr => ?_
    obtain ⟨k, hk, rfl⟩ := List.mem_iff_getElem.mp hr
    obtain ⟨x, y, hx, hy, hr⟩ := hlane k (hlen ▸ hk)
    obtain ⟨z, hz⟩ := h k (hlen ▸ hk) x y hx hy
    rw [List.getElem?_eq_getElem hk, Option.some.injEq] at hr
    exact ⟨z, hr.trans hz⟩
  refine ⟨lanes, heq.trans hlanes, fun k hk => ?_⟩
  obtain ⟨x, y, hx, hy, hr⟩ := hlane k hk
  exact ⟨x, y, hx, hy, by rw [getElem?_of_mapM hlanes, hr]; rfl⟩

theorem BinaryCall.lane_of_lower (c : BinaryCall) {lanes : List c.target.dtype.Lane}
    (h : binopLowering c.op c.target c.lhs c.rhs = some lanes) {k : Nat} (hk : k < c.target.length) {x y : c.target.dtype.Lane}
    (hx : c.lhs.operand c.target.dtype k = some x) (hy : c.rhs.operand c.target.dtype k = some y) :
    lanes[k]? = instruction c.op c.target.dtype x y := by
  obtain ⟨results, heq, hlen, hlane⟩ := c.results
  obtain ⟨x', y', hx', hy', hr⟩ := hlane k hk
  obtain rfl := Option.some.inj (hx.symm.trans hx')
  obtain rfl := Option.some.inj (hy.symm.trans hy')
  rw [getElem?_of_mapM (heq.symm.trans h), hr]
  rfl

theorem instruction_total {op : VectorOp} (hop : op ≠ .floordiv ∧ op ≠ .mod) (d : DType) (x y : d.Lane) :
    ∃ z, instruction op d x y = some z := by
  cases d with
  | float f => exact ⟨_, rfl⟩
  | integer t =>
    cases op with
    | add => exact ⟨_, @addi_eq_some t.bits false x y nofun⟩
    | sub => exact ⟨_, @subi_eq_some t.bits false x y nofun⟩
    | mul => exact ⟨_, @muli_eq_some t.bits false x y nofun⟩
    | floordiv => exact absurd rfl hop.1
    | mod => exact absurd rfl hop.2

theorem instruction_eq_of_agrees {op : VectorOp} {d : DType} {x y z : d.Lane} (h : scalarLowering op d x y = some z)
    (ha : AgreesAt op d x y) : instruction op d x y = some z := by
  cases d with
  | integer t => exact (iop_eq_iff h).mpr ha
  | float f =>
    cases op with
    | floordiv => exact absurd rfl ha.1
    | mod => exact absurd rfl ha.2
    | add | sub | mul => exact h

theorem BinaryCall.meets_of_agree (c : BinaryCall) (h : c.Agree) : c.Meets := by
  obtain ⟨lanes, hlower, hlane⟩ := c.lower_eq (by
    intro k hk x y hx hy
    by_cases hop : c.op = .floordiv ∨ c.op = .mod
    · obtain ⟨z, hz⟩ := c.defined hop k hk x y hx hy
      exact ⟨z, instruction_eq_of_agrees hz (h k hk x y hx hy)⟩
    · exact instruction_total (not_or.mp hop) _ x y)
  intro k hk
  obtain ⟨x, y, hx, hy, hr⟩ := hlane k hk
  refine ⟨x, y, hx, hy, fun z hz => ⟨lanes, hlower, ?_⟩⟩
  rw [hr, instruction_eq_of_agrees hz (h k hk x y hx hy)]

theorem BinaryCall.instruction_of_meets (c : BinaryCall) (h : c.Meets) {k : Nat} (hk : k < c.target.length) {x y z : c.target.dtype.Lane}
    (hx : c.lhs.operand c.target.dtype k = some x) (hy : c.rhs.operand c.target.dtype k = some y)
    (hz : scalarLowering c.op c.target.dtype x y = some z) : instruction c.op c.target.dtype x y = some z := by
  obtain ⟨x', y', hx', hy', hall⟩ := h k hk
  obtain rfl := Option.some.inj (hx.symm.trans hx')
  obtain rfl := Option.some.inj (hy.symm.trans hy')
  obtain ⟨lanes, hlower, hlane⟩ := hall z hz
  rw [← c.lane_of_lower hlower hk hx hy, hlane]

theorem agreesAt_iff {op : VectorOp} {d : DType} (hd : ∃ t, d = .integer t) {x y z : d.Lane} (h : scalarLowering op d x y = some z) :
    instruction op d x y = some z ↔ AgreesAt op d x y := by
  obtain ⟨t, rfl⟩ := hd
  exact iop_eq_iff h

theorem agreesAt_of_total {op : VectorOp} (hop : ¬ (op = .floordiv ∨ op = .mod)) (d : DType) (x y : d.Lane) : AgreesAt op d x y := by
  cases d with
  | float f => exact not_or.mp hop
  | integer t =>
    cases op with
    | add | sub | mul => trivial
    | floordiv => exact absurd (.inl rfl) hop
    | mod => exact absurd (.inr rfl) hop

theorem BinaryCall.meets_iff (c : BinaryCall) (hd : ∃ t, c.target.dtype = .integer t) : c.Meets ↔ c.Agree := by
  constructor
  · intro h k hk x y hx hy
    by_cases hop : c.op = .floordiv ∨ c.op = .mod
    · obtain ⟨z, hz⟩ := c.defined hop k hk x y hx hy
      exact (agreesAt_iff hd hz).mp (c.instruction_of_meets h hk hx hy hz)
    · exact agreesAt_of_total hop _ x y
  · exact c.meets_of_agree

/-! ## Float results -/

def floatTypes : List FloatType := [.float16, .float32, .float64]

theorem mem_floatTypes (f : FloatType) : f ∈ floatTypes := by cases f <;> decide

theorem fops_ne : ∀ f ∈ floatTypes,
    fop f.format .floordiv (.finite 1) (.finite 2) ≠ scalarFloatLowering .floordiv f.format (.finite 1) (.finite 2) ∧
      fop f.format .mod (.finite (-1)) (.finite 2) ≠ scalarFloatLowering .mod f.format (.finite (-1)) (.finite 2) ∧
      fop f.format .mod (.finite 1) (.finite (-2)) ≠ scalarFloatLowering .mod f.format (.finite 1) (.finite (-2)) := by
  decide +kernel

/-- Numbers that every format holds, and every integer type that has a sign for them. -/
def small : List Int := [1, 2, -1, -2]

theorem small_exact : ∀ n ∈ small, ∀ f ∈ floatTypes, BinaryFloat.ofRat f.format n = .finite n ∧ BinaryFloat.Representable f.format n := by
  decide +kernel

theorem convertFloat_small (n : Int) (hn : n ∈ small) (f g : FloatType) : convertFloat g f (.finite n) = .finite n := by
  unfold convertFloat
  split
  · exact (small_exact n hn f (mem_floatTypes f)).1
  · rfl

theorem ofInt_small (n : Int) (hn : n ∈ small) (f : FloatType) : BinaryFloat.ofInt f.format n = .finite n :=
  (BinaryFloat.ofInt_eq_finite_iff f.format n).mpr (small_exact n hn f (mem_floatTypes f)).2

theorem value_small : ∀ n ∈ small, ∀ t : IntType, (n < 0 → t.signed = true) → value t.signed (BitVec.ofInt t.bits n) = n := by
  rintro n hn ⟨s, w⟩ hneg
  simp only [small, List.mem_cons, List.not_mem_nil, or_false] at hn
  rcases hn with rfl | rfl | rfl | rfl
  · cases s <;> cases w <;> decide
  · cases s <;> cases w <;> decide
  · obtain rfl : s = true := hneg (by decide)
    cases w <;> decide
  · obtain rfl : s = true := hneg (by decide)
    cases w <;> decide

def DType.ofSmall : (d : DType) → Int → d.Lane
  | .integer t, n => BitVec.ofInt t.bits n
  | .float _, n => .finite n

def DType.signed : DType → Bool
  | .integer t => t.signed
  | .float _ => true

def ArgType.signed : ArgType → Bool
  | .number d => d.signed
  | .vector v => v.dtype.signed
  | .boolean | .complex _ => false

theorem castTo_ofSmall {d : DType} (f : FloatType) {n : Int} (hn : n ∈ small) (hneg : n < 0 → d.signed = true) :
    (Scalar.ofLane d (d.ofSmall n)).castTo (.float f) = some (.finite n) := by
  cases d with
  | integer t =>
    show some (BinaryFloat.ofInt f.format (value t.signed (BitVec.ofInt t.bits n))) = _
    rw [value_small n hn t hneg, ofInt_small n hn]
  | float g => exact congrArg some (convertFloat_small n hn f g)

theorem exists_arg {f : FloatType} {length : Nat} {a : ArgType} (h : Fits ⟨.float f, length⟩ a) {n : Int} (hn : n ∈ small)
    (hneg : n < 0 → a.signed = true) :
    ∃ arg : Arg, arg.type = a ∧ ∀ k < length, arg.operand (.float f) k = some (.finite n) := by
  cases h with
  | @number d _ => exact ⟨.number d (d.ofSmall n), rfl, fun k _ => castTo_ofSmall f hn hneg⟩
  | @vector v hlen _ =>
    refine ⟨.vector ⟨v, List.replicate v.length (v.dtype.ofSmall n), List.length_replicate⟩, rfl, fun k hk => ?_⟩
    have hk' : k < v.length := hlen ▸ hk
    simp only [Arg.operand, Arg.lane, List.getElem?_replicate, if_pos hk']
    exact castTo_ofSmall f hn hneg

theorem signed_of_float {a b : DType} {f : FloatType} (h : unifyTypes a b = .float f) : a.signed = true ∨ b.signed = true := by
  cases a with
  | float _ => exact .inl rfl
  | integer s =>
    cases b with
    | float _ => exact .inr rfl
    | integer t =>
      obtain ⟨ss, sw⟩ := s
      obtain ⟨ts, tw⟩ := t
      cases ss with
      | true => exact .inl rfl
      | false =>
        cases ts with
        | true => exact .inr rfl
        | false =>
          unfold unifyTypes promoteTypes NumberTyping.promoteTypes at h
          split at h <;> simp at h

theorem signed_of_resolve {op : VectorOp} {a b : ArgType} {f : FloatType} {length : Nat} (h : op.resolve a b = some ⟨.float f, length⟩) :
    a.signed = true ∨ b.signed = true := by
  cases a with
  | boolean | complex _ => cases h
  | number d =>
    cases b with
    | boolean | complex _ | number _ => cases h
    | vector w => exact signed_of_float (VectorType.mk.inj (of_getVectorType h).1).1.symm
  | vector v =>
    cases b with
    | boolean | complex _ => cases h
    | number d => exact signed_of_float (VectorType.mk.inj (of_getVectorType h).1).1.symm
    | vector w =>
      simp only [VectorOp.resolve, Option.ite_none_left_eq_some] at h
      exact signed_of_float (VectorType.mk.inj (of_getVectorType h.2.2).1).1.symm

theorem exists_failing {op : VectorOp} {a b : ArgType} {f : FloatType} {length : Nat} (h : op.resolve a b = some ⟨.float f, length⟩)
    {m n : Int} (hm : m ∈ small) (hn : n ∈ small) (hmneg : m < 0 → a.signed = true) (hnneg : n < 0 → b.signed = true)
    (hne : fop f.format op (.finite m) (.finite n) ≠ scalarFloatLowering op f.format (.finite m) (.finite n)) :
    ∃ c : BinaryCall, c.op = op ∧ c.lhs.type = a ∧ c.rhs.type = b ∧ ¬ c.Meets := by
  obtain ⟨hfa, hfb, hpos⟩ := fits_of_resolve h
  obtain ⟨lhs, rfl, hl⟩ := exists_arg hfa hm hmneg
  obtain ⟨rhs, rfl, hr⟩ := exists_arg hfb hn hnneg
  refine ⟨⟨op, lhs, rhs, ⟨.float f, length⟩, h, fun _ _ _ x y _ _ => ⟨_, rfl⟩⟩, rfl, rfl, rfl, fun hmeets => hne ?_⟩
  exact Option.some.inj (BinaryCall.instruction_of_meets _ hmeets hpos (hl 0 hpos) (hr 0 hpos) rfl)

theorem float_calls_iff {op : VectorOp} {a b : ArgType} {f : FloatType} {length : Nat} (h : op.resolve a b = some ⟨.float f, length⟩) :
    (∀ c : BinaryCall, c.op = op → c.lhs.type = a → c.rhs.type = b → c.Meets) ↔ op ≠ .floordiv ∧ op ≠ .mod := by
  constructor
  · intro hall
    refine ⟨?_, ?_⟩
    · rintro rfl
      obtain ⟨c, hop, hl, hr, hn⟩ := exists_failing h (m := 1) (n := 2) (by decide) (by decide) (fun h => absurd h (by decide)) (fun h => absurd h (by decide))
        (fops_ne f (mem_floatTypes f)).1
      exact hn (hall c hop hl hr)
    · rintro rfl
      rcases signed_of_resolve h with hs | hs
      · obtain ⟨c, hop, hl, hr, hn⟩ := exists_failing h (m := -1) (n := 2) (by decide) (by decide) (fun _ => hs) (fun h => absurd h (by decide))
          (fops_ne f (mem_floatTypes f)).2.1
        exact hn (hall c hop hl hr)
      · obtain ⟨c, hop, hl, hr, hn⟩ := exists_failing h (m := 1) (n := -2) (by decide) (by decide) (fun h => absurd h (by decide)) (fun _ => hs)
          (fops_ne f (mem_floatTypes f)).2.2
        exact hn (hall c hop hl hr)
  · rintro hop c rfl - -
    exact c.meets_of_agree fun k _ x y _ _ => agreesAt_of_total (not_or.mpr hop) _ x y

/-! ## Unary operators -/

def UnaryMeets (op : UnaryOp) (v : VectorValue) : Prop :=
  ∀ k < v.ty.length, ∃ x, v.lanes[k]? = some x ∧ (unaryLowering op v)[k]? = some (scalarUnaryLowering op v.ty.dtype x)

def UnaryAgrees (op : UnaryOp) : (d : DType) → d.Lane → Prop
  | .integer t, x => op = .neg ∨ t.signed = true ∨ 2 * x.toNat ≤ 2 ^ t.bits
  | .float _, _ => True

theorem absi_eq_iff {w : Nat} (hw : 0 < w) (x : BitVec w) : absi x = x ↔ 2 * x.toNat ≤ 2 ^ w := by
  have hlt := x.isLt
  have hpow : 2 ^ w = 2 * 2 ^ (w - 1) := by
    rw [← Nat.pow_succ']
    congr 1
    omega
  have hmsb : x.msb = true ↔ 2 ^ (w - 1) ≤ x.toNat := by rw [BitVec.msb_eq_decide, decide_eq_true_eq]
  rw [absi, BitVec.slt_zero_eq_msb]
  by_cases h : 2 ^ (w - 1) ≤ x.toNat
  · rw [if_pos (hmsb.mpr h), ← BitVec.toNat_inj, BitVec.toNat_neg, Nat.mod_eq_of_lt (by omega)]
    omega
  · rw [if_neg (mt hmsb.mp h)]
    exact iff_of_true rfl (by omega)

theorem unaryInstruction_eq_iff (op : UnaryOp) (d : DType) (x : d.Lane) :
    unaryInstruction op d x = scalarUnaryLowering op d x ↔ UnaryAgrees op d x := by
  cases d with
  | float f => cases op <;> exact iff_of_true rfl trivial
  | integer t =>
    cases op with
    | neg => exact iff_of_true rfl (.inl rfl)
    | abs =>
      simp only [unaryInstruction, scalarUnaryLowering, UnaryAgrees]
      by_cases hs : t.signed = true
      · simp [hs]
      · rw [if_neg hs, absi_eq_iff t.width.bits_pos]
        simp [hs]

theorem unary_meets_iff (op : UnaryOp) (v : VectorValue) :
    UnaryMeets op v ↔ ∀ k < v.ty.length, ∀ x, v.lanes[k]? = some x → UnaryAgrees op v.ty.dtype x := by
  have hlane : ∀ (k : Nat) (x : v.ty.dtype.Lane), v.lanes[k]? = some x → (unaryLowering op v)[k]? = some (unaryInstruction op v.ty.dtype x) := by
    intro k x hx
    rw [unaryLowering, List.getElem?_map, hx]
    rfl
  constructor
  · intro h k hk x hx
    obtain ⟨x', hx', hr⟩ := h k hk
    obtain rfl := Option.some.inj (hx.symm.trans hx')
    exact (unaryInstruction_eq_iff op _ x).mp (Option.some.inj ((hlane k x hx).symm.trans hr))
  · intro h k hk
    have hlen : k < v.lanes.length := by
      rw [v.wf]
      exact hk
    have hx : v.lanes[k]? = some v.lanes[k] := List.getElem?_eq_getElem hlen
    exact ⟨_, hx, (hlane k _ hx).trans (congrArg some ((unaryInstruction_eq_iff op _ _).mpr (h k hk _ hx)))⟩

/-! ## Constructors -/

def Arg.elements : Arg → List Scalar
  | boolean x => [.boolean x]
  | number d x => [.ofLane d x]
  | complex f re im => [.float f re, .float f im]
  | vector v => v.lanes.map (.ofLane v.ty.dtype)

/-- The lanes of a constructor in the order of its arguments; one scalar fills all. -/
def constructorElements (ty : VectorType) : List Arg → List Scalar
  | [.number d x] => List.replicate ty.length (.ofLane d x)
  | args => args.flatMap Arg.elements

theorem convert_element {arg : Arg} {s : Scalar} (target : DType) (h : s ∈ arg.elements) :
    convert (getConversionSignedness arg.type target) s target = s.castTo target := by
  cases arg with
  | boolean x =>
    obtain rfl := List.mem_singleton.mp h
    cases target with
    | integer t =>
      simp only [convert, Arg.type, getConversionSignedness, Scalar.castTo, convertInteger_eq (.inl (bits_ne_one t))]
      simp
    | float f => rfl
  | number d x =>
    obtain rfl := List.mem_singleton.mp h
    exact convert_number d target x
  | complex f re im =>
    have hs : s = .float f re ∨ s = .float f im := by simpa [Arg.elements] using h
    rcases hs with rfl | rfl
    · exact convert_number (.float f) target re
    · exact convert_number (.float f) target im
  | vector v =>
    obtain ⟨x, -, rfl⟩ := List.mem_map.mp h
    exact convert_number v.ty.dtype target x

theorem scalars_eq (target : DType) (arg : Arg) :
    arg.scalars target = arg.elements.map fun s => (s, getConversionSignedness arg.type target) := by
  cases arg with
  | boolean | number | complex => rfl
  | vector v => simp [Arg.scalars, Arg.elements]

theorem convert_scalars (target : DType) (args : List Arg) :
    (args.flatMap (Arg.scalars target)).map (fun s => convert s.2 s.1 target) = (args.flatMap Arg.elements).map (·.castTo target) := by
  rw [List.map_flatMap, List.map_flatMap]
  congr 1
  funext arg
  rw [scalars_eq, List.map_map]
  exact List.map_congr_left fun s hs => convert_element target hs

theorem length_elements {arg : Arg} {n : Nat} (h : arg.type.elements = some n) : arg.elements.length = n := by
  cases arg with
  | boolean | number => exact Option.some.inj h
  | complex => cases h
  | vector v =>
    rw [Arg.elements, List.length_map, v.wf]
    exact Option.some.inj h

theorem length_flatMap_elements : ∀ {args : List Arg} {counts : List Nat},
    (args.map Arg.type).map ArgType.elements = counts.map some → (args.flatMap Arg.elements).length = counts.sum
  | [], counts, h => by cases counts with | nil => rfl | cons => cases h
  | arg :: args, counts, h => by
    cases counts with
    | nil => cases h
    | cons n counts =>
      rw [List.map_cons, List.map_cons, List.map_cons, List.cons.injEq] at h
      rw [List.flatMap_cons, List.length_append, length_elements h.1, length_flatMap_elements h.2, List.sum_cons]

theorem length_of_mixed {ty : VectorType} {args : List Arg}
    (h : ((args.map Arg.type).mapM ArgType.elements).map List.sum = some ty.length) : (args.flatMap Arg.elements).length = ty.length := by
  obtain ⟨counts, hcounts, hsum⟩ := Option.map_eq_some_iff.mp h
  exact (length_flatMap_elements (mapM_eq_some.mp hcounts)).trans hsum

theorem length_of_accepts {ty : VectorType} : ∀ {args : List Arg}, ty.accepts (args.map Arg.type) = true →
    (∃ d x, args = [.number d x]) ∨ (args.flatMap Arg.elements).length = ty.length
  | [], h | [.boolean _], h => .inr (length_of_mixed (of_decide_eq_true h))
  | a :: _ :: _, h => .inr (length_of_mixed (by cases a <;> exact of_decide_eq_true h))
  | [.number d x], _ => .inl ⟨d, x, rfl⟩
  | [.complex _ _ _], h => .inr (of_decide_eq_true h).symm
  | [.vector v], h => .inr (by
    have hlen : v.ty.length = ty.length := of_decide_eq_true h
    rw [← hlen, ← v.wf]
    simp [Arg.elements])

structure ConstructorCall where
  ty : VectorType
  args : List Arg
  known : ty ∈ vectorTypes
  typed : ty.accepts (args.map Arg.type) = true

/-- The lanes in the order of the arguments, each cast to the element type. -/
def ConstructorCall.Meets (c : ConstructorCall) : Prop :=
  constructorLowering c.ty c.args = some ((constructorElements c.ty c.args).map (·.castTo c.ty.dtype)) ∧
    (constructorElements c.ty c.args).length = c.ty.length

theorem length_pos_of_known {ty : VectorType} (h : ty ∈ vectorTypes) : 0 < ty.length := by
  simp only [vectorTypes, List.mem_flatMap, List.mem_map, List.mem_cons, List.not_mem_nil, or_false] at h
  obtain ⟨d, -, n, hn, rfl⟩ := h
  show 0 < n
  omega

theorem constructorElements_eq {ty : VectorType} {args : List Arg} (h : ¬ ∃ d x, args = [.number d x]) :
    constructorElements ty args = args.flatMap Arg.elements := by
  unfold constructorElements
  split
  · next d x => exact absurd ⟨d, x, rfl⟩ h
  · rfl

theorem constructorLowering_number {ty : VectorType} (d : DType) (x : d.Lane) (hpos : 0 < ty.length) :
    constructorLowering ty [.number d x] = some (List.replicate ty.length ((Scalar.ofLane d x).castTo ty.dtype)) := by
  have hscalars : [Arg.number d x].flatMap (Arg.scalars ty.dtype) = [(.ofLane d x, getConversionSignedness (.number d) ty.dtype)] := rfl
  have hall : ∀ s : Scalar × Option Bool, (if 1 < ty.length then (List.replicate ty.length [s]).flatten else [s]) = List.replicate ty.length s := by
    intro s
    by_cases h : 1 < ty.length
    · rw [if_pos h, List.flatten_replicate_singleton]
    · rw [if_neg h, show ty.length = 1 by omega]
      rfl
  simp only [constructorLowering, hscalars, List.length_singleton, true_and, hall, buildVectorFromScalars, List.length_replicate, List.map_replicate,
    convert_number]
  rw [if_neg (by simp)]

theorem constructor_meets (c : ConstructorCall) : c.Meets := by
  obtain ⟨ty, args, hknown, htyped⟩ := c
  have hpos := length_pos_of_known hknown
  have hscalars : (args.flatMap (Arg.scalars ty.dtype)).length = (args.flatMap Arg.elements).length := by
    have := congrArg List.length (convert_scalars ty.dtype args)
    rwa [List.length_map, List.length_map] at this
  by_cases hone : ∃ d x, args = [.number d x]
  · obtain ⟨d, x, rfl⟩ := hone
    have hmap : (constructorElements ty [.number d x]).map (·.castTo ty.dtype) =
        List.replicate ty.length ((Scalar.ofLane d x).castTo ty.dtype) := List.map_replicate
    exact ⟨(constructorLowering_number d x hpos).trans (congrArg some hmap.symm), List.length_replicate⟩
  · have hlen := (length_of_accepts htyped).resolve_left hone
    have hsame := @constructorElements_eq ty args hone
    refine ⟨?_, hsame ▸ hlen⟩
    have hnot : ¬ ((args.flatMap (Arg.scalars ty.dtype)).length = 1 ∧ 1 < ty.length) := by omega
    simp only [constructorLowering, if_neg hnot, buildVectorFromScalars, convert_scalars, hsame]
    rw [if_neg (by omega)]

/-! ## The operators -/

theorem vector_operators_meet_iff (c : BinaryCall) :
    ((∃ t, c.target.dtype = .integer t) → (c.Meets ↔ c.Agree)) ∧
    (∀ (op : VectorOp) (a b : ArgType) (f : FloatType) (length : Nat), op.resolve a b = some ⟨.float f, length⟩ →
      ((∀ c : BinaryCall, c.op = op → c.lhs.type = a → c.rhs.type = b → c.Meets) ↔ op ≠ .floordiv ∧ op ≠ .mod)) ∧
    (∀ (op : UnaryOp) (v : VectorValue), UnaryMeets op v ↔ ∀ k < v.ty.length, ∀ x, v.lanes[k]? = some x → UnaryAgrees op v.ty.dtype x) ∧
    ∀ c : ConstructorCall, c.Meets :=
  ⟨c.meets_iff, fun _ _ _ _ _ h => float_calls_iff h, unary_meets_iff, constructor_meets⟩

def int32 : IntType := ⟨true, .w32⟩

/-- `int32x4(n, n, n, n)` -/
def filled (n : Int) : VectorValue := ⟨⟨.integer int32, 4⟩, List.replicate 4 (BitVec.ofInt 32 n), rfl⟩

def halved (n : Int) (h : ∃ z, scalarLowering .floordiv (.integer int32) (BitVec.ofInt 32 n) (BitVec.ofInt 32 2) = some z) : BinaryCall where
  op := .floordiv
  lhs := .vector (filled n)
  rhs := .number (.integer int32) (BitVec.ofInt 32 2)
  target := ⟨.integer int32, 4⟩
  typed := rfl
  defined := by
    intro _ k hk x y hx hy
    obtain rfl : BitVec.ofInt 32 2 = y := Option.some.inj hy
    obtain rfl : BitVec.ofInt 32 n = x := by
      have hlane : (Arg.vector (filled n)).operand (.integer int32) k = some (BitVec.ofInt 32 (value true (BitVec.ofInt 32 n))) := by
        match k, hk with
        | 0, _ | 1, _ | 2, _ | 3, _ => rfl
      rw [ofInt_value] at hlane
      exact Option.some.inj (hlane.symm.trans hx)
    exact h

theorem vector_operators_meet_iff_halved :
    ((halved 7 ⟨_, rfl⟩).Meets ↔ (halved 7 ⟨_, rfl⟩).Agree) ∧
      ¬ ∀ c : BinaryCall, c.op = .floordiv → c.lhs.type = .vector ⟨.integer int32, 4⟩ → c.rhs.type = .number (.float .float32) → c.Meets :=
  ⟨(vector_operators_meet_iff (halved 7 ⟨_, rfl⟩)).1 ⟨int32, rfl⟩,
    fun h => (((vector_operators_meet_iff (halved 7 ⟨_, rfl⟩)).2.1 .floordiv _ _ .float64 4 (by decide)).mp h).1 rfl⟩

/-- `-7 // 2` is -4 of an integer and -3 of a lane of a vector. -/
theorem quotient_of_negative_lane :
    VectorOp.resolve .floordiv (.vector (filled (-7)).ty) (.number (.integer int32)) = some (filled (-7)).ty ∧
      binopLowering .floordiv (filled (-7)).ty (.vector (filled (-7))) (.number (.integer int32) (BitVec.ofInt 32 2)) =
        some (List.replicate 4 (BitVec.ofInt 32 (-3))) ∧
      scalarLowering .floordiv (.integer int32) (BitVec.ofInt 32 (-7)) (BitVec.ofInt 32 2) = some (BitVec.ofInt 32 (-4)) ∧
      ¬ (halved (-7) ⟨_, rfl⟩).Meets := by
  have hne : BitVec.ofInt 32 (-3) ≠ BitVec.ofInt 32 (-4) := by decide
  refine ⟨rfl, rfl, rfl, fun h => ?_⟩
  have hz := (halved (-7) ⟨_, rfl⟩).instruction_of_meets h (show 0 < 4 by decide) (x := BitVec.ofInt 32 (-7)) (y := BitVec.ofInt 32 2)
    (z := BitVec.ofInt 32 (-4)) rfl rfl rfl
  exact hne (Option.some.inj hz)

end NumbaCudaMlir.VectorTypes

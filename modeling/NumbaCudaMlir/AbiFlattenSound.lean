import Mathlib.Algebra.BigOperators.Group.List.Basic
import Mathlib.Data.List.Sort
import NumbaCudaMlir.AbiFlatten

/-!
# Caller and callee

The recursions that follow the type agree with each other. The one that follows
the value keeps the placeholders, so its routes agree with the signature only
where no argument holds a `None`.
-/

namespace NumbaCudaMlir.AbiFlatten

variable {L : Type}

/-! ## Counting -/

theorem countFlatAll_replicate (t : AbiType L) : ∀ n, countFlatAll (List.replicate n t) = n * countFlatElements t
  | 0 => by simp [countFlatAll]
  | n + 1 => by
    rw [List.replicate_succ, countFlatAll, countFlatAll_replicate t n, Nat.succ_mul, Nat.add_comm]

mutual

theorem flattenType_length : ∀ t : AbiType L, (flattenType t).length = countFlatElements t
  | .noneType => rfl
  | .leaf _ => rfl
  | .uniTuple dtype count => by simp [flattenType, countFlatElements, flattenType_length dtype]
  | .tuple ts => by
    rw [flattenType, countFlatElements]
    exact flattenTypes_length ts

theorem flattenTypes_length : ∀ ts : List (AbiType L), (flattenTypes ts).length = countFlatAll ts
  | [] => rfl
  | t :: ts => by simp [flattenTypes, countFlatAll, flattenType_length t, flattenTypes_length ts]

end

mutual

theorem HasType.operands_length : ∀ {t : AbiType L} {v : Value}, HasType t v →
    (flattenAbiOperands t v).length = countFlatElements t
  | _, _, .leaf _ _ => by simp [flattenAbiOperands, countFlatElements]
  | _, _, .none => by simp [flattenAbiOperands, countFlatElements]
  | _, _, .uniTuple h => by
    rw [flattenAbiOperands, countFlatElements, ← countFlatAll_replicate]
    exact h.operands_length
  | _, _, .tuple h => by
    rw [flattenAbiOperands, countFlatElements]
    exact h.operands_length

theorem HasTypes.operands_length : ∀ {ts : List (AbiType L)} {vs : List Value}, HasTypes ts vs →
    (flattenAbiOperandsAll ts vs).length = countFlatAll ts
  | _, _, .nil => by simp [flattenAbiOperandsAll, countFlatAll]
  | _, _, .cons h hs => by simp [flattenAbiOperandsAll, countFlatAll, h.operands_length, hs.operands_length]

end

/-! ## Unflattening -/

theorem times_unflatten (t : AbiType L) : ∀ (n : Nat) (it : List Value),
    times (unflattenAbiValue t) n it = unflattenAbiValues (List.replicate n t) it
  | 0, it => by simp [times, unflattenAbiValues]
  | n + 1, it => by
    rw [times, List.replicate_succ, unflattenAbiValues]
    simp only [times_unflatten t n]

mutual

theorem HasType.unflatten : ∀ {t : AbiType L} {v : Value}, HasType t v → ∀ rest : List Value,
    unflattenAbiValue t (flattenAbiOperands t v ++ rest) = some (v, rest)
  | _, _, .leaf _ _, rest => by simp [flattenAbiOperands, unflattenAbiValue]
  | _, _, .none, rest => by simp [flattenAbiOperands, unflattenAbiValue]
  | _, _, .uniTuple h, rest => by
    rw [flattenAbiOperands, unflattenAbiValue, times_unflatten, h.unflatten rest]
    rfl
  | _, _, .tuple h, rest => by
    rw [flattenAbiOperands, unflattenAbiValue, h.unflatten rest]
    rfl

theorem HasTypes.unflatten : ∀ {ts : List (AbiType L)} {vs : List Value}, HasTypes ts vs → ∀ rest : List Value,
    unflattenAbiValues ts (flattenAbiOperandsAll ts vs ++ rest) = some (vs, rest)
  | _, _, .nil, rest => by simp [flattenAbiOperandsAll, unflattenAbiValues]
  | _, _, .cons h hs, rest => by
    rw [flattenAbiOperandsAll, unflattenAbiValues, List.append_assoc, h.unflatten]
    simp [hs.unflatten rest]

end

/-! ## Reassembling -/

theorem times_reassemble (arguments : List Value) (t : AbiType L) : ∀ n idx : Nat,
    times (reassembleElement arguments t) n idx = reassembleElements arguments (List.replicate n t) idx
  | 0, idx => by simp [times, reassembleElements]
  | n + 1, idx => by
    rw [times, List.replicate_succ, reassembleElements]
    simp only [times_reassemble arguments t n]

theorem reassembleElement_next {arguments : List Value} {t : AbiType L} {idx next : Nat} {v : Value}
    (h : reassembleElement arguments t idx = some (v, next)) : next = idx + countFlatElements t := by
  cases t with
  | noneType =>
    simp only [reassembleElement, Option.some.injEq, Prod.mk.injEq] at h
    simp [countFlatElements, h.2]
  | leaf ty =>
    simp only [reassembleElement, Option.bind_eq_bind, Option.pure_def, Option.bind_eq_some_iff, Option.some.injEq, Prod.mk.injEq] at h
    obtain ⟨_, _, _, rfl⟩ := h
    rfl
  | uniTuple dtype count =>
    simp only [reassembleElement, Option.bind_eq_bind, Option.pure_def, Option.bind_eq_some_iff, Option.some.injEq, Prod.mk.injEq] at h
    obtain ⟨_, _, _, rfl⟩ := h
    rfl
  | tuple ts =>
    simp only [reassembleElement, Option.bind_eq_bind, Option.pure_def, Option.bind_eq_some_iff, Option.some.injEq, Prod.mk.injEq] at h
    obtain ⟨_, _, _, rfl⟩ := h
    rfl

theorem take_add_eq_append_iff {α : Type} {l p q : List α} {a b : Nat} (hp : p.length = a) (hq : q.length = b) :
    l.take (a + b) = p ++ q ↔ l.take a = p ∧ (l.drop a).take b = q := by
  rw [List.take_add]
  constructor
  · intro h
    have hlen : (l.take a).length = p.length := by
      have := congrArg List.length h
      simp only [List.length_append, List.length_take, List.length_drop] at this ⊢
      omega
    exact List.append_inj h hlen
  · rintro ⟨rfl, rfl⟩
    rfl

theorem exists_tuple_iff (x : Option (List Value × Nat)) (vs : List Value) (m : Nat) :
    (∃ next, (x.bind fun p => some (Value.tuple p.1, m)) = some (.tuple vs, next)) ↔ ∃ next, x = some (vs, next) := by
  cases x with
  | none => simp
  | some p => simp [Prod.ext_iff]

mutual

theorem HasType.reassemble_iff (arguments : List Value) : ∀ {t : AbiType L} {v : Value}, HasType t v → ∀ idx : Nat,
    ((∃ next, reassembleElement arguments t idx = some (v, next)) ↔
      (arguments.drop idx).take (countFlatElements t) = flattenAbiOperands t v)
  | _, _, .none, idx => by simp [reassembleElement, flattenAbiOperands, countFlatElements]
  | _, _, .leaf ty v, idx => by
    simp only [reassembleElement, flattenAbiOperands, countFlatElements]
    rw [List.take_one, List.head?_drop]
    cases arguments[idx]? <;> simp
  | _, _, .uniTuple h, idx => by
    rw [flattenAbiOperands, countFlatElements, ← countFlatAll_replicate, ← h.reassemble_iff arguments idx]
    simp only [reassembleElement, times_reassemble]
    exact exists_tuple_iff _ _ _
  | _, _, .tuple h, idx => by
    rw [flattenAbiOperands, countFlatElements, ← h.reassemble_iff arguments idx]
    rw [reassembleElement]
    exact exists_tuple_iff _ _ _

theorem HasTypes.reassemble_iff (arguments : List Value) : ∀ {ts : List (AbiType L)} {vs : List Value}, HasTypes ts vs →
    ∀ idx : Nat, ((∃ next, reassembleElements arguments ts idx = some (vs, next)) ↔
      (arguments.drop idx).take (countFlatAll ts) = flattenAbiOperandsAll ts vs)
  | _, _, .nil, idx => by simp [reassembleElements, flattenAbiOperandsAll, countFlatAll]
  | _, _, .cons h hs, idx => by
    rw [flattenAbiOperandsAll, countFlatAll, take_add_eq_append_iff h.operands_length hs.operands_length,
      List.drop_drop, ← h.reassemble_iff arguments idx, ← hs.reassemble_iff arguments]
    constructor
    · intro ⟨next, hr⟩
      simp only [reassembleElements, Option.bind_eq_bind, Option.pure_def, Option.bind_eq_some_iff, Option.some.injEq,
        Prod.mk.injEq, List.cons.injEq, Prod.exists] at hr
      obtain ⟨w, i, hw, ws, j, hws, ⟨rfl, rfl⟩, rfl⟩ := hr
      have := reassembleElement_next hw
      subst this
      exact ⟨⟨_, hw⟩, _, hws⟩
    · intro ⟨⟨i, hv⟩, j, hvs⟩
      have := reassembleElement_next hv
      subst this
      exact ⟨j, by simp [reassembleElements, hv, hvs]⟩

end

/-! ## Placeholders -/

mutual

/-- The leaves without a slot in the signature. -/
def noneLeaves : AbiType L → Nat
  | .noneType => 1
  | .uniTuple dtype count => count * noneLeaves dtype
  | .tuple ts => noneLeavesAll ts
  | .leaf _ => 0

def noneLeavesAll : List (AbiType L) → Nat
  | [] => 0
  | t :: ts => noneLeaves t + noneLeavesAll ts

end

theorem noneLeavesAll_replicate (t : AbiType L) : ∀ n, noneLeavesAll (List.replicate n t) = n * noneLeaves t
  | 0 => by simp [noneLeavesAll]
  | n + 1 => by
    rw [List.replicate_succ, noneLeavesAll, noneLeavesAll_replicate t n, Nat.succ_mul, Nat.add_comm]

mutual

theorem HasType.flattenAbiValue_length : ∀ {t : AbiType L} {v : Value}, HasType t v →
    (flattenAbiValue v).length = countFlatElements t + noneLeaves t
  | _, _, .leaf _ _ => by simp [flattenAbiValue, countFlatElements, noneLeaves]
  | _, _, .none => by simp [flattenAbiValue, countFlatElements, noneLeaves]
  | _, _, .uniTuple h => by
    rw [flattenAbiValue, countFlatElements, noneLeaves, ← countFlatAll_replicate, ← noneLeavesAll_replicate]
    exact h.flattenAbiValues_length
  | _, _, .tuple h => by
    rw [flattenAbiValue, countFlatElements, noneLeaves]
    exact h.flattenAbiValues_length

theorem HasTypes.flattenAbiValues_length : ∀ {ts : List (AbiType L)} {vs : List Value}, HasTypes ts vs →
    (flattenAbiValues vs).length = countFlatAll ts + noneLeavesAll ts
  | _, _, .nil => by simp [flattenAbiValues, countFlatAll, noneLeavesAll]
  | _, _, .cons h hs => by
    simp only [flattenAbiValues, countFlatAll, noneLeavesAll, List.length_append, h.flattenAbiValue_length,
      hs.flattenAbiValues_length]
    omega

end

mutual

theorem HasType.flattenAbiValue_eq : ∀ {t : AbiType L} {v : Value}, HasType t v → noneLeaves t = 0 →
    flattenAbiValue v = flattenAbiOperands t v
  | _, _, .leaf _ _, _ => by simp [flattenAbiValue, flattenAbiOperands]
  | _, _, .none, hn => by simp [noneLeaves] at hn
  | _, _, .uniTuple h, hn => by
    rw [flattenAbiValue, flattenAbiOperands]
    rw [noneLeaves, ← noneLeavesAll_replicate] at hn
    exact h.flattenAbiValues_eq hn
  | _, _, .tuple h, hn => by
    rw [flattenAbiValue, flattenAbiOperands]
    rw [noneLeaves] at hn
    exact h.flattenAbiValues_eq hn

theorem HasTypes.flattenAbiValues_eq : ∀ {ts : List (AbiType L)} {vs : List Value}, HasTypes ts vs → noneLeavesAll ts = 0 →
    flattenAbiValues vs = flattenAbiOperandsAll ts vs
  | _, _, .nil, _ => by simp [flattenAbiValues, flattenAbiOperandsAll]
  | _, _, .cons h hs, hn => by
    rw [noneLeavesAll] at hn
    rw [flattenAbiValues, flattenAbiOperandsAll, h.flattenAbiValue_eq (by omega), hs.flattenAbiValues_eq (by omega)]

end

/-! ## Signatures -/

def argOperands : Arg L → List Value
  | (.given t, v) => flattenAbiOperands t v
  | (.omitted _, _) => []

def argCount : ArgType L → Nat
  | .given t => countFlatElements t
  | .omitted _ => 0

def Typed (args : List (Arg L)) : Prop := ∀ a ∈ args, a.1.Has a.2

/-- One operand for each entry of the callee's signature, and each parameter
reads as the caller's value. -/
def Agrees (args : List (Arg L)) (operands : List Value) : Prop :=
  operands.length = (setupFuncOp (args.map (·.1))).length ∧
    ∀ i a, args[i]? = some a → lowerArgAssign operands (args.map (·.1)) i = some a.2

theorem argOperands_length {a : Arg L} (h : a.1.Has a.2) : (argOperands a).length = argCount a.1 := by
  obtain ⟨t, v⟩ := a
  cases h with
  | omitted v => rfl
  | given h => exact h.operands_length

theorem argCount_of_omitted {t : ArgType L} (h : t.isOmitted = true) : argCount t = 0 := by
  cases t with
  | omitted v => rfl
  | given t => cases t <;> simp [ArgType.isOmitted, argCount, countFlatElements] at h ⊢

theorem setupFuncOp_length (argtypes : List (ArgType L)) : (setupFuncOp argtypes).length = (argtypes.map argCount).sum := by
  unfold setupFuncOp
  induction argtypes with
  | nil => rfl
  | cons t ts ih =>
    rw [List.map_cons, List.sum_cons, ← ih, List.filter_cons]
    by_cases h : t.isOmitted = true
    · simp [h, argCount_of_omitted h]
    · cases t with
      | omitted v => simp [ArgType.isOmitted] at h
      | given t => simp [h, argCount, flattenType_length]

theorem flatArgStartIndex_eq (argtypes : List (ArgType L)) (i : Nat) :
    flatArgStartIndex argtypes i = ((argtypes.take i).map argCount).sum := by
  unfold flatArgStartIndex
  congr 1
  apply List.map_congr_left
  intro t _
  cases t with
  | omitted v => rfl
  | given t =>
    by_cases h : (ArgType.given t).isOmitted = true
    · rw [argCount_of_omitted h]
      simp [h]
    · simp [h, argCount]

theorem overloadOperands_eq (args : List (Arg L)) : overloadOperands args = args.flatMap argOperands := by
  unfold overloadOperands callVars
  induction args with
  | nil => rfl
  | cons a args ih =>
    obtain ⟨t, v⟩ := a
    rw [List.filter_cons, List.flatMap_cons, ← ih]
    cases t with
    | omitted w => simp [ArgType.isOmitted, argOperands]
    | given t => cases t <;> simp [ArgType.isOmitted, argOperands, flattenAbiOperands]

theorem bind_fst_iff {α β : Type} (x : Option (α × β)) (a : α) : (x.bind fun p => some p.1) = some a ↔ ∃ b, x = some (a, b) := by
  cases x with
  | none => simp
  | some p => simp [Prod.ext_iff]

theorem lowerArgAssign_iff {operands : List Value} {argtypes : List (ArgType L)} {i : Nat} {a : Arg L}
    (hi : argtypes[i]? = some a.1) (h : a.1.Has a.2) :
    lowerArgAssign operands argtypes i = some a.2 ↔
      (operands.drop ((argtypes.take i).map argCount).sum).take (argCount a.1) = argOperands a := by
  obtain ⟨t, v⟩ := a
  rw [← flatArgStartIndex_eq]
  unfold lowerArgAssign
  simp only [hi, Option.bind_eq_bind, Option.bind_some]
  cases h with
  | omitted v => simp [argCount, argOperands]
  | given h =>
    have hr := h.reassemble_iff operands (flatArgStartIndex argtypes i)
    rw [argCount, argOperands, ← hr]
    cases h with
    | none => simp [reassembleElement]
    | leaf ty v =>
      simp only [reassembleElement]
      cases operands[flatArgStartIndex argtypes i]? <;> simp
    | uniTuple h => exact bind_fst_iff _ _
    | tuple h => exact bind_fst_iff _ _

theorem eq_flatMap_iff {α β : Type} (f : α → List β) (c : α → Nat) : ∀ (as : List α) (l : List β), (∀ a ∈ as, (f a).length = c a) →
    (l = as.flatMap f ↔ l.length = (as.map c).sum ∧
      ∀ i a, as[i]? = some a → (l.drop ((as.take i).map c).sum).take (c a) = f a)
  | [], l, _ => by simp
  | a :: as, l, h => by
    have ha := h a (by simp)
    have ih := eq_flatMap_iff f c as (l.drop (c a)) fun b hb => h b (by simp [hb])
    rw [List.flatMap_cons, List.map_cons, List.sum_cons]
    constructor
    · rintro rfl
      have hdrop : (f a ++ as.flatMap f).drop (c a) = as.flatMap f := by rw [← ha, List.drop_left]
      obtain ⟨hlen, hall⟩ := ih.mp hdrop
      refine ⟨by rw [hdrop] at hlen; simp [ha, hlen], fun i b hb => ?_⟩
      cases i with
      | zero =>
        simp only [List.getElem?_cons_zero, Option.some.injEq] at hb
        subst hb
        simp [← ha]
      | succ i => simpa [List.drop_drop] using hall i b (by simpa using hb)
    · intro ⟨hlen, hall⟩
      have hfirst : l.take (c a) = f a := by simpa using hall 0 a rfl
      have hrest : l.drop (c a) = as.flatMap f := by
        refine ih.mpr ⟨by rw [List.length_drop]; omega, fun i b hb => ?_⟩
        simpa [List.drop_drop] using hall (i + 1) b (by simpa using hb)
      rw [← hfirst, ← hrest, List.take_append_drop]

theorem agrees_iff {args : List (Arg L)} (h : Typed args) (operands : List Value) :
    Agrees args operands ↔ operands = args.flatMap argOperands := by
  rw [eq_flatMap_iff argOperands (fun a => argCount a.1) args operands fun a ha => argOperands_length (h a ha)]
  unfold Agrees
  rw [setupFuncOp_length, List.map_map]
  refine and_congr_right fun _ => forall_congr' fun i => forall_congr' fun a => imp_congr_right fun ha => ?_
  rw [lowerArgAssign_iff (by simp [ha]) (h a (List.mem_of_getElem? ha)), ← List.map_take, List.map_map]
  rfl

/-! ## Routes that follow the value -/

def argNoneLeaves : ArgType L → Nat
  | .given t => noneLeaves t
  | .omitted _ => 0

theorem flattenAbiValue_arg {a : Arg L} (h : a.1.Has a.2) (hp : a.1.isPassed = true) (hn : argNoneLeaves a.1 = 0) :
    flattenAbiValue a.2 = argOperands a := by
  obtain ⟨t, v⟩ := a
  cases h with
  | omitted v => simp [ArgType.isPassed] at hp
  | given h => exact h.flattenAbiValue_eq hn

theorem flattenAbiValue_arg_length {a : Arg L} (h : a.1.Has a.2) (hp : a.1.isPassed = true) :
    (flattenAbiValue a.2).length = argCount a.1 + argNoneLeaves a.1 := by
  obtain ⟨t, v⟩ := a
  cases h with
  | omitted v => simp [ArgType.isPassed] at hp
  | given h => exact h.flattenAbiValue_length

theorem callOperandsFromVars_length : ∀ {args : List (Arg L)}, Typed args → (∀ a ∈ args, a.1.isPassed = true) →
    (callOperandsFromVars args).length = (args.map fun a => argCount a.1).sum + (args.map fun a => argNoneLeaves a.1).sum
  | [], _, _ => rfl
  | a :: args, h, hp => by
    have ih := callOperandsFromVars_length (fun b hb => h b (List.mem_cons_of_mem _ hb)) fun b hb => hp b (List.mem_cons_of_mem _ hb)
    unfold callOperandsFromVars at ih ⊢
    rw [List.flatMap_cons, List.length_append, ih, flattenAbiValue_arg_length (h a (by simp)) (hp a (by simp)),
      List.map_cons, List.map_cons, List.sum_cons, List.sum_cons]
    omega

theorem callOperandsFromVars_eq {args : List (Arg L)} (h : Typed args) (hp : ∀ a ∈ args, a.1.isPassed = true)
    (hn : ∀ a ∈ args, argNoneLeaves a.1 = 0) : callOperandsFromVars args = args.flatMap argOperands := by
  unfold callOperandsFromVars
  exact List.flatMap_congr fun a ha => flattenAbiValue_arg (h a ha) (hp a ha) (hn a ha)

theorem isPassed_of_not_omitted {t : ArgType L} (h : t.isOmitted = false) : t.isPassed = true := by
  cases t with
  | omitted v => simp [ArgType.isOmitted] at h
  | given t => rfl

theorem sum_eq_zero_iff (l : List Nat) : l.sum = 0 ↔ ∀ n ∈ l, n = 0 := by
  induction l <;> simp_all

theorem userDefined_agrees_iff {args : List (Arg L)} (h : Typed args) :
    Agrees args (userDefinedOperands args) ↔ ∀ a ∈ callVars args, argNoneLeaves a.1 = 0 := by
  have hvars : ∀ a ∈ callVars args, a ∈ args ∧ a.1.isOmitted = false := by simp [callVars]
  have ht : Typed (callVars args) := fun a ha => h a (hvars a ha).1
  have hp : ∀ a ∈ callVars args, a.1.isPassed = true := fun a ha => isPassed_of_not_omitted (hvars a ha).2
  have hsame : args.flatMap argOperands = (callVars args).flatMap argOperands := by
    rw [← overloadOperands_eq, ← overloadOperands_eq, overloadOperands, overloadOperands, callVars, callVars, List.filter_filter]
    simp
  rw [agrees_iff h, hsame]
  constructor
  · intro heq a ha
    have hlen := congrArg List.length heq
    have hops : ((callVars args).flatMap argOperands).length = ((callVars args).map fun a => argCount a.1).sum := by
      rw [List.length_flatMap]
      congr 1
      exact List.map_congr_left fun a ha => argOperands_length (ht a ha)
    rw [userDefinedOperands, callOperandsFromVars_length ht hp, hops] at hlen
    have hzero : ((callVars args).map fun a => argNoneLeaves a.1).sum = 0 := by omega
    exact (sum_eq_zero_iff _).mp hzero _ (List.mem_map_of_mem ha)
  · exact callOperandsFromVars_eq ht hp

/-! ## Direct calls -/

section
variable {argtypes : List (ArgType L)}

theorem mem_passedIndices {i : Nat} : i ∈ passedIndices argtypes ↔ ∃ t, argtypes[i]? = some t ∧ t.isPassed = true := by
  simp only [passedIndices, List.mem_filter, List.mem_range, Option.any_eq_true]
  constructor
  · rintro ⟨_, t, ht⟩; exact ⟨t, ht⟩
  · rintro ⟨t, ht, hp⟩; exact ⟨(List.getElem?_eq_some_iff.mp ht).1, t, ht, hp⟩

theorem passedIndices_sorted : (passedIndices argtypes).Pairwise (· < ·) := List.pairwise_lt_range.filter _

def DirectCall.order (c : DirectCall argtypes) : List Nat := List.range c.positional ++ c.keywords

def countAt (argtypes : List (ArgType L)) (i : Nat) : Nat := (argtypes[i]?.map argCount).getD 0

def operandsAt (args : List (Arg L)) (i : Nat) : List Value := (args[i]?.map argOperands).getD []

theorem flatMap_argOperands (args : List (Arg L)) :
    args.flatMap argOperands = (List.range args.length).flatMap (operandsAt args) := by
  induction args with
  | nil => rfl
  | cons a args ih =>
    rw [List.flatMap_cons, ih, List.length_cons, List.range_succ_eq_map, List.flatMap_cons, List.flatMap_map]
    rfl

theorem flatMap_filter_nonempty {α : Type} (f : Nat → List α) (c : Nat → Nat) (h : ∀ i, (f i).length = c i) (is : List Nat) :
    (is.filter fun i => 0 < c i).flatMap f = is.flatMap f := by
  induction is with
  | nil => rfl
  | cons i is ih =>
    rw [List.filter_cons, List.flatMap_cons]
    by_cases hi : 0 < c i
    · simp [hi, ih]
    · have : f i = [] := List.length_eq_zero_iff.mp (by rw [h]; omega)
      simp [hi, this, ih]

theorem operandsAt_length {args : List (Arg L)} (h : Typed args) (i : Nat) :
    (operandsAt args i).length = countAt (args.map (·.1)) i := by
  unfold operandsAt countAt
  rw [List.getElem?_map]
  cases hi : args[i]? with
  | none => rfl
  | some a => exact argOperands_length (h a (List.mem_of_getElem? hi))

theorem filter_range_countAt : ((List.range argtypes.length).filter fun i => 0 < countAt argtypes i) =
    (passedIndices argtypes).filter fun i => 0 < countAt argtypes i := by
  rw [passedIndices, List.filter_filter]
  apply List.filter_congr
  intro i _
  unfold countAt
  cases argtypes[i]? with
  | none => simp
  | some t => cases t <;> simp [argCount, ArgType.isPassed]

/-- The keywords that have operands are in the order of the parameters. -/
def DirectCall.InOrder (c : DirectCall argtypes) : Prop := (c.keywords.filter fun i => 0 < countAt argtypes i).Pairwise (· < ·)

theorem DirectCall.order_nodup (c : DirectCall argtypes) : c.order.Nodup :=
  c.perm.nodup_iff.mpr (List.Nodup.filter _ List.nodup_range)

theorem DirectCall.inOrder_iff (c : DirectCall argtypes) : c.InOrder ↔
    (c.order.filter fun i => 0 < countAt argtypes i) = (passedIndices argtypes).filter fun i => 0 < countAt argtypes i := by
  have hperm := c.perm.filter fun i => 0 < countAt argtypes i
  have hpassed : (passedIndices argtypes).Pairwise (· < ·) := passedIndices_sorted
  have hsorted := hpassed.filter fun i => 0 < countAt argtypes i
  constructor
  · intro h
    refine List.Perm.eq_of_pairwise (fun a b _ _ hab hba => absurd hab (Nat.lt_asymm hba)) ?_ hsorted hperm
    rw [DirectCall.order, List.filter_append]
    refine List.pairwise_append.mpr ⟨List.pairwise_lt_range.filter _, h, fun a ha b hb => ?_⟩
    have ha := List.mem_range.mp (List.mem_filter.mp ha).1
    have hb := (List.mem_filter.mp hb).1
    have hdisj := (List.nodup_append.mp c.order_nodup).2.2
    by_contra hle
    exact hdisj b (List.mem_range.mpr (by omega)) b hb rfl
  · intro h
    rw [← h, DirectCall.order, List.filter_append] at hsorted
    exact (List.pairwise_append.mp hsorted).2.1

theorem DirectCall.mem_args {c : DirectCall argtypes} {args : List (Arg L)} (hargs : args.map (·.1) = argtypes) {a : Arg L}
    (ha : a ∈ c.order.filterMap fun i => args[i]?) : a ∈ args ∧ a.1.isPassed = true ∧ ∃ i ∈ passedIndices argtypes, argtypes[i]? = some a.1 := by
  obtain ⟨i, hi, ha⟩ := List.mem_filterMap.mp ha
  have hmem := c.perm.mem_iff.mp hi
  have hty : argtypes[i]? = some a.1 := by rw [← hargs, List.getElem?_map, ha]; rfl
  obtain ⟨t, ht, hp⟩ := mem_passedIndices.mp hmem
  rw [hty] at ht
  cases ht
  exact ⟨List.mem_of_getElem? ha, hp, i, hmem, hty⟩

theorem flatMap_filterMap_getElem? (args : List (Arg L)) (is : List Nat) :
    (is.filterMap fun i => args[i]?).flatMap argOperands = is.flatMap (operandsAt args) := by
  induction is with
  | nil => rfl
  | cons i is ih =>
    rw [List.filterMap_cons, List.flatMap_cons, ← ih]
    unfold operandsAt
    cases args[i]? <;> simp

def NoNone (argtypes : List (ArgType L)) : Prop := ∀ i ∈ passedIndices argtypes, ∀ t, argtypes[i]? = some t → argNoneLeaves t = 0

theorem directOperands_eq (c : DirectCall argtypes) {args : List (Arg L)} (hargs : args.map (·.1) = argtypes) (h : Typed args)
    (hn : NoNone argtypes) :
    directOperands c args = (c.order.filter fun i => 0 < countAt argtypes i).flatMap (operandsAt args) := by
  have hlen : ∀ i, (operandsAt args i).length = countAt argtypes i := fun i => hargs ▸ operandsAt_length h i
  rw [flatMap_filter_nonempty _ _ hlen, ← flatMap_filterMap_getElem?]
  refine callOperandsFromVars_eq (fun a ha => h a (c.mem_args hargs ha).1) (fun a ha => (c.mem_args hargs ha).2.1) fun a ha => ?_
  obtain ⟨_, _, i, hi, ht⟩ := c.mem_args hargs ha
  exact hn i hi _ ht

theorem argOperands_eq {args : List (Arg L)} (hargs : args.map (·.1) = argtypes) (h : Typed args) :
    args.flatMap argOperands = ((passedIndices argtypes).filter fun i => 0 < countAt argtypes i).flatMap (operandsAt args) := by
  have hlen : ∀ i, (operandsAt args i).length = countAt argtypes i := fun i => hargs ▸ operandsAt_length h i
  have hl : args.length = argtypes.length := by rw [← hargs, List.length_map]
  rw [flatMap_argOperands, ← filter_range_countAt, flatMap_filter_nonempty _ _ hlen, hl]

theorem noneLeaves_of_length (c : DirectCall argtypes) {args : List (Arg L)} (hargs : args.map (·.1) = argtypes) (h : Typed args)
    (hlen : (directOperands c args).length = (args.flatMap argOperands).length) :
    ∀ a ∈ c.order.filterMap fun i => args[i]?, argNoneLeaves a.1 = 0 := by
  have hlens : ∀ i, (operandsAt args i).length = countAt argtypes i := fun i => hargs ▸ operandsAt_length h i
  have hcount : ((c.order.filterMap fun i => args[i]?).map fun a => argCount a.1).sum = (args.flatMap argOperands).length := by
    calc ((c.order.filterMap fun i => args[i]?).map fun a => argCount a.1).sum
        = ((c.order.filterMap fun i => args[i]?).flatMap argOperands).length := by
          rw [List.length_flatMap]
          congr 1
          exact List.map_congr_left fun a ha => (argOperands_length (h a (c.mem_args hargs ha).1)).symm
      _ = (c.order.flatMap (operandsAt args)).length := by rw [flatMap_filterMap_getElem?]
      _ = ((passedIndices argtypes).flatMap (operandsAt args)).length := (c.perm.flatMap_right _).length_eq
      _ = (args.flatMap argOperands).length := by
          rw [argOperands_eq hargs h, flatMap_filter_nonempty _ _ hlens]
  have hsum := callOperandsFromVars_length (fun a ha => h a (c.mem_args hargs ha).1) fun a ha => (c.mem_args hargs ha).2.1
  intro a ha
  have hzero : ((c.order.filterMap fun i => args[i]?).map fun a => argNoneLeaves a.1).sum = 0 := by
    change (directOperands c args).length = _ at hsum
    omega
  exact (sum_eq_zero_iff _).mp hzero _ (List.mem_map_of_mem ha)

/-! ### Distinguishable arguments -/

mutual

/-- The value of a type all of whose leaves are `x`. -/
def fill (x : Nat) : AbiType L → Value
  | .leaf _ => .leaf x
  | .noneType => .none
  | .uniTuple dtype count => .tuple (List.replicate count (fill x dtype))
  | .tuple ts => .tuple (fillAll x ts)

def fillAll (x : Nat) : List (AbiType L) → List Value
  | [] => []
  | t :: ts => fill x t :: fillAll x ts

end

theorem hasTypes_replicate {t : AbiType L} {v : Value} (h : HasType t v) : ∀ n, HasTypes (List.replicate n t) (List.replicate n v)
  | 0 => .nil
  | n + 1 => .cons h (hasTypes_replicate h n)

theorem flattenAbiOperandsAll_replicate (t : AbiType L) (v : Value) : ∀ n,
    flattenAbiOperandsAll (List.replicate n t) (List.replicate n v) = (List.replicate n (flattenAbiOperands t v)).flatten
  | 0 => by simp [flattenAbiOperandsAll]
  | n + 1 => by
    simp only [List.replicate_succ, flattenAbiOperandsAll, List.flatten_cons, flattenAbiOperandsAll_replicate t v n]

mutual

theorem fill_hasType (x : Nat) : ∀ t : AbiType L, HasType t (fill x t)
  | .leaf ty => by rw [fill]; exact .leaf ty x
  | .noneType => by rw [fill]; exact .none
  | .uniTuple dtype count => by rw [fill]; exact .uniTuple (hasTypes_replicate (fill_hasType x dtype) count)
  | .tuple ts => by rw [fill]; exact .tuple (fillAll_hasTypes x ts)

theorem fillAll_hasTypes (x : Nat) : ∀ ts : List (AbiType L), HasTypes ts (fillAll x ts)
  | [] => by rw [fillAll]; exact .nil
  | t :: ts => by rw [fillAll]; exact .cons (fill_hasType x t) (fillAll_hasTypes x ts)

end

mutual

theorem fill_operands (x : Nat) : ∀ t : AbiType L, flattenAbiOperands t (fill x t) = List.replicate (countFlatElements t) (.leaf x)
  | .leaf ty => by simp [flattenAbiOperands, fill, countFlatElements]
  | .noneType => by simp [flattenAbiOperands, countFlatElements]
  | .uniTuple dtype count => by
    rw [fill, flattenAbiOperands, flattenAbiOperandsAll_replicate, fill_operands x dtype, countFlatElements]
    simp
  | .tuple ts => by
    rw [fill, flattenAbiOperands, countFlatElements]
    exact fillAll_operands x ts

theorem fillAll_operands (x : Nat) : ∀ ts : List (AbiType L),
    flattenAbiOperandsAll ts (fillAll x ts) = List.replicate (countFlatAll ts) (.leaf x)
  | [] => by simp [flattenAbiOperandsAll, fillAll, countFlatAll]
  | t :: ts => by
    rw [fillAll, flattenAbiOperandsAll, fill_operands x t, fillAll_operands x ts, countFlatAll]
    simp

end

def fillArg (x : Nat) : ArgType L → Value
  | .omitted v => .leaf v
  | .given t => fill x t

/-- Arguments whose leaves tell the parameters apart. -/
def fillArgs (argtypes : List (ArgType L)) : List (Arg L) := argtypes.mapIdx fun i t => (t, fillArg i t)

theorem fillArgs_types (argtypes : List (ArgType L)) : (fillArgs argtypes).map (·.1) = argtypes := by
  unfold fillArgs
  apply List.ext_getElem?
  intro i
  simp [Function.comp_def]

theorem fillArgs_typed (argtypes : List (ArgType L)) : Typed (fillArgs argtypes) := by
  intro a ha
  obtain ⟨i, hi⟩ := List.getElem?_of_mem ha
  simp only [fillArgs, List.getElem?_mapIdx, Option.map_eq_some_iff] at hi
  obtain ⟨t, _, rfl⟩ := hi
  cases t with
  | omitted v => exact .omitted v
  | given t => exact .given (fill_hasType i t)

theorem fillArgs_operandsAt (argtypes : List (ArgType L)) (i : Nat) :
    operandsAt (fillArgs argtypes) i = List.replicate (countAt argtypes i) (.leaf i) := by
  simp only [operandsAt, countAt, fillArgs, List.getElem?_mapIdx, Option.map_map]
  cases argtypes[i]? with
  | none => rfl
  | some t =>
    cases t with
    | omitted v => rfl
    | given t => exact fill_operands i t

theorem eq_of_flatMap_replicate {c : Nat → Nat} : ∀ {is js : List Nat}, (∀ i ∈ is, 0 < c i) → (∀ j ∈ js, 0 < c j) →
    is.flatMap (fun i => List.replicate (c i) (Value.leaf i)) = js.flatMap (fun j => List.replicate (c j) (Value.leaf j)) → is = js
  | [], [], _, _, _ => rfl
  | [], j :: js, _, hj, h => by
    have := hj j (by simp)
    have := congrArg List.length h
    simp only [List.flatMap_nil, List.length_nil, List.flatMap_cons, List.length_append, List.length_replicate] at this
    omega
  | i :: is, [], hi, _, h => by
    have := hi i (by simp)
    have := congrArg List.length h
    simp only [List.flatMap_nil, List.length_nil, List.flatMap_cons, List.length_append, List.length_replicate] at this
    omega
  | i :: is, j :: js, hi, hj, h => by
    have hic := hi i (by simp)
    have hjc := hj j (by simp)
    obtain ⟨a, ha⟩ := Nat.exists_eq_succ_of_ne_zero (Nat.pos_iff_ne_zero.mp hic)
    obtain ⟨b, hb⟩ := Nat.exists_eq_succ_of_ne_zero (Nat.pos_iff_ne_zero.mp hjc)
    have hij : i = j := by
      have := congrArg List.head? h
      simpa [List.flatMap_cons, ha, hb, List.replicate_succ] using this
    subst hij
    rw [List.flatMap_cons, List.flatMap_cons, List.append_cancel_left_eq] at h
    rw [eq_of_flatMap_replicate (fun k hk => hi k (by simp [hk])) (fun k hk => hj k (by simp [hk])) h]

/-- **A direct call agrees with its callee for every value of its arguments**
exactly when none of them holds a `None` and the keywords are in order. -/
theorem direct_agrees_iff (c : DirectCall argtypes) :
    (∀ args : List (Arg L), args.map (·.1) = argtypes → Typed args → Agrees args (directOperands c args)) ↔
      NoNone argtypes ∧ c.InOrder := by
  rw [c.inOrder_iff]
  constructor
  · intro hall
    have hargs := fillArgs_types argtypes
    have htyped := fillArgs_typed argtypes
    have heq := (agrees_iff htyped _).mp (hall _ hargs htyped)
    have hn : NoNone argtypes := fun i hi t ht => by
      have hget : (fillArgs argtypes)[i]? = some (t, fillArg i t) := by simp [fillArgs, ht]
      exact noneLeaves_of_length c hargs htyped (congrArg List.length heq) _
        (List.mem_filterMap.mpr ⟨i, c.perm.mem_iff.mpr hi, hget⟩)
    refine ⟨hn, ?_⟩
    rw [directOperands_eq c hargs htyped hn, argOperands_eq hargs htyped] at heq
    have hrep : operandsAt (fillArgs argtypes) = fun i => List.replicate (countAt argtypes i) (.leaf i) :=
      funext (fillArgs_operandsAt argtypes)
    rw [hrep] at heq
    exact eq_of_flatMap_replicate (by simp) (by simp) heq
  · intro ⟨hn, horder⟩ args hargs htyped
    rw [agrees_iff htyped, directOperands_eq c hargs htyped hn, argOperands_eq hargs htyped, horder]

end

/-! ## All routes -/

/-- **Where caller and callee agree**: the counts, the round trip and the calls
of overloads always; calls that flatten by value where no argument holds a
`None`; keywords of a direct call in the order of the parameters. -/
theorem flattened_arguments_agree_iff :
    (∀ t : AbiType L, (flattenType t).length = countFlatElements t) ∧
    (∀ (t : AbiType L) (v : Value), HasType t v → unflattenAbiValue t (flattenAbiOperands t v) = some (v, [])) ∧
    (∀ args : List (Arg L), Typed args → Agrees args (overloadOperands args)) ∧
    (∀ args : List (Arg L), Typed args →
      (Agrees args (userDefinedOperands args) ↔ ∀ a ∈ callVars args, argNoneLeaves a.1 = 0)) ∧
    ∀ (argtypes : List (ArgType L)) (c : DirectCall argtypes),
      (∀ args : List (Arg L), args.map (·.1) = argtypes → Typed args → Agrees args (directOperands c args)) ↔
        NoNone argtypes ∧ c.InOrder := by
  refine ⟨flattenType_length, fun t v h => ?_, fun args h => ?_, fun args h => userDefined_agrees_iff h, fun _ => direct_agrees_iff⟩
  · simpa using h.unflatten []
  · exact (agrees_iff h _).mpr (overloadOperands_eq args)

theorem flattened_arguments_agree_pair :
    Agrees [(ArgType.given (.leaf ()), .leaf 1), (.given (.uniTuple (.leaf ()) 2), .tuple [.leaf 2, .leaf 3])]
      (userDefinedOperands [(.given (.leaf ()), .leaf 1), (.given (.uniTuple (.leaf ()) 2), .tuple [.leaf 2, .leaf 3])]) := by
  refine (flattened_arguments_agree_iff.2.2.2.1 _ fun a ha => ?_).mpr fun a ha => ?_
  · simp only [List.mem_cons, List.not_mem_nil, or_false] at ha
    rcases ha with rfl | rfl
    · exact .given (.leaf () 1)
    · exact .given (.uniTuple (.cons (.leaf () 2) (.cons (.leaf () 3) .nil)))
  · simp only [callVars, ArgType.isOmitted, Bool.not_false, List.filter_cons, if_true, List.filter_nil, List.mem_cons,
      List.not_mem_nil, or_false] at ha
    rcases ha with rfl | rfl <;> rfl

/-- A call `f((None, x), y)` sends three operands for a signature of two. -/
theorem none_in_tuple_shifts :
    Typed [(ArgType.given (.tuple [.noneType, .leaf ()]), .tuple [.none, .leaf 1]), (.given (.leaf ()), .leaf 2)] ∧
    setupFuncOp [ArgType.given (.tuple [.noneType, .leaf ()]), .given (.leaf ())] = [(), ()] ∧
    ¬ Agrees [(ArgType.given (.tuple [.noneType, .leaf ()]), .tuple [.none, .leaf 1]), (.given (.leaf ()), .leaf 2)]
      (userDefinedOperands [(.given (.tuple [.noneType, .leaf ()]), .tuple [.none, .leaf 1]), (.given (.leaf ()), .leaf 2)]) := by
  refine ⟨?_, rfl, fun h => absurd h.1 (by decide)⟩
  intro a ha
  simp only [List.mem_cons, List.not_mem_nil, or_false] at ha
  rcases ha with rfl | rfl
  · exact .given (.tuple (.cons .none (.cons (.leaf () 1) .nil)))
  · exact .given (.leaf () 2)

end NumbaCudaMlir.AbiFlatten

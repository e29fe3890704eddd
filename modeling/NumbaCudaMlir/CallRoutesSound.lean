import Mathlib.Data.List.Zip
import NumbaCudaMlir.AbiFlattenSound
import NumbaCudaMlir.CallRoutes

/-!
# Calls bind like Python

A route is right for a call when it emits what Python binds whatever the values
of the arguments are. The dispatcher's route is so where no star parameter and no
`None` inside a tuple is passed; a recursive call where no `None` is passed and the
keywords are in the order of the parameters; the external routes for scalars.
-/

namespace NumbaCudaMlir.CallRoutes

open AbiFlatten
open PythonCall (Bound bind parameterOrder)

/-! ## Leaves -/

theorem emitCall_append (p q : List Value) : emitCall (p ++ q) = (emitCall p).bind fun a => (emitCall q).map (a ++ ·) := by
  simp only [emitCall, List.mapM_append, Option.bind_eq_bind, Option.pure_def, Option.map_eq_bind, Function.comp_def]

mutual

theorem emit_flattenAbiValue : ∀ {t : AbiType Text} {v : Value}, HasType t v →
    emitCall (flattenAbiValue v) = if noneLeaves t = 0 then some (leaves v) else none
  | _, _, .leaf _ _ => rfl
  | _, _, .none => rfl
  | .uniTuple dtype count, _, .uniTuple h => by
    rw [flattenAbiValue, emit_flattenAbiValues h, noneLeavesAll_replicate, noneLeaves, leaves]
  | _, _, .tuple h => by rw [flattenAbiValue, emit_flattenAbiValues h, noneLeaves, leaves]

theorem emit_flattenAbiValues : ∀ {ts : List (AbiType Text)} {vs : List Value}, HasTypes ts vs →
    emitCall (flattenAbiValues vs) = if noneLeavesAll ts = 0 then some (leavesAll vs) else none
  | _, _, .nil => rfl
  | t :: ts, _, .cons h hs => by
    rw [flattenAbiValues, emitCall_append, emit_flattenAbiValue h, emit_flattenAbiValues hs, noneLeavesAll, leavesAll]
    by_cases h0 : noneLeaves t = 0 <;> by_cases h1 : noneLeavesAll ts = 0 <;> simp [h0, h1]

end

mutual

theorem leaves_length : ∀ {t : AbiType Text} {v : Value}, HasType t v → (leaves v).length = countFlatElements t
  | _, _, .leaf _ _ => rfl
  | _, _, .none => rfl
  | _, _, .uniTuple h => by rw [leaves, leavesAll_length h, countFlatAll_replicate, countFlatElements]
  | _, _, .tuple h => by rw [leaves, leavesAll_length h, countFlatElements]

theorem leavesAll_length : ∀ {ts : List (AbiType Text)} {vs : List Value}, HasTypes ts vs →
    (leavesAll vs).length = countFlatAll ts
  | _, _, .nil => rfl
  | _, _, .cons h hs => by rw [leavesAll, List.length_append, leaves_length h, leavesAll_length hs, countFlatAll]

end

mutual

theorem operands_eq_leaves : ∀ {t : AbiType Text} {v : Value}, HasType t v → flattenAbiOperands t v = (leaves v).map .leaf
  | _, _, .leaf _ _ => rfl
  | _, _, .none => rfl
  | _, _, .uniTuple h => by rw [flattenAbiOperands, operandsAll_eq_leaves h, leaves]
  | _, _, .tuple h => by rw [flattenAbiOperands, operandsAll_eq_leaves h, leaves]

theorem operandsAll_eq_leaves : ∀ {ts : List (AbiType Text)} {vs : List Value}, HasTypes ts vs →
    flattenAbiOperandsAll ts vs = (leavesAll vs).map .leaf
  | _, _, .nil => rfl
  | _, _, .cons h hs => by
    rw [flattenAbiOperandsAll, leavesAll, List.map_append, operands_eq_leaves h, operandsAll_eq_leaves hs]

end

/-! ## Arguments -/

def VarType.NoNone (t : VarType) : Prop := noneLeaves t.abi = 0

instance (t : VarType) : Decidable t.NoNone := inferInstanceAs (Decidable (_ = 0))

def argLeaves (a : Arg) : List Nat := leaves a.value

theorem emit_args {as : List Arg} (h : ∀ a ∈ as, a.Typed) :
    emitCall (as.flatMap fun a => flattenAbiValue a.value) =
      if ∀ a ∈ as, a.type.NoNone then some (as.flatMap argLeaves) else none := by
  induction as with
  | nil => rfl
  | cons a as ih =>
    rw [List.flatMap_cons, emitCall_append, emit_flattenAbiValue (h a (by simp)), ih fun b hb => h b (by simp [hb])]
    simp only [List.mem_cons, forall_eq_or_imp]
    change (if a.type.NoNone then _ else _ : Option (List Nat)).bind _ = _
    by_cases h0 : a.type.NoNone <;> by_cases h1 : ∀ b ∈ as, b.type.NoNone <;> simp [h0, h1, argLeaves]

theorem VarTypes.abi_toList (ts : VarTypes) : ts.abi = ts.toList.map VarType.abi := by
  induction ts using VarTypes.rec (motive_1 := fun _ => True) with
  | nil => rfl
  | cons t ts _ ih => rw [VarTypes.abi, ih, VarTypes.toList, List.map_cons]
  | _ => trivial

theorem VarType.elementTypes_abi {t : VarType} {ts : List VarType} (h : t.elementTypes = some ts) {v : Value}
    (hv : HasType t.abi v) : ∃ vs, v = .tuple vs ∧ HasTypes (ts.map VarType.abi) vs := by
  cases t with
  | leaf | none => exact absurd h (by simp [VarType.elementTypes])
  | uniTuple cls dtype count =>
    cases h
    rw [VarType.abi] at hv
    cases hv with
    | uniTuple hvs => exact ⟨_, rfl, by rwa [List.map_replicate]⟩
  | tuple cls types =>
    cases h
    rw [VarType.abi] at hv
    cases hv with
    | tuple hvs => exact ⟨_, rfl, by rwa [← VarTypes.abi_toList]⟩

theorem typed_zipWith : ∀ {ts : List VarType} {vs : List Value}, HasTypes (ts.map VarType.abi) vs →
    (∀ a ∈ List.zipWith Arg.mk ts vs, a.Typed) ∧ (List.zipWith Arg.mk ts vs).map (·.type) = ts
  | [], _, .nil => by simp
  | t :: ts, _, .cons h hs => by
    obtain ⟨h1, h2⟩ := typed_zipWith hs
    refine ⟨fun a ha => ?_, by simp [h2]⟩
    rcases List.mem_cons.mp ha with rfl | ha
    · exact h
    · exact h1 a ha

/-- The values of a call have the types it was accepted with. -/
structure Call.Typed (call : Call Arg) : Prop where
  args : ∀ a ∈ call.args, a.Typed
  vararg : ∀ a ∈ call.vararg, a.Typed
  kws : ∀ e ∈ call.kws.entries, e.2.Typed

theorem Call.positional_none {call : Call Arg} (hp : (call.map (·.type)).positionalTypes = none) :
    call.positional = none := by
  rw [Call.positionalTypes, Call.map] at hp
  rw [Call.positional]
  cases hv : call.vararg with
  | none => simp [hv] at hp
  | some a =>
    rw [hv] at hp
    have ht : a.type.elementTypes = none := by simpa using hp
    simp [Arg.elements, ht]

theorem Call.positional_some {call : Call Arg} (h : call.Typed) {ts : List VarType}
    (hp : (call.map (·.type)).positionalTypes = some ts) :
    ∃ as, call.positional = some as ∧ as.map (·.type) = ts ∧ ∀ a ∈ as, a.Typed := by
  rw [Call.positionalTypes, Call.map] at hp
  rw [Call.positional]
  cases hv : call.vararg with
  | none =>
    rw [hv] at hp
    cases hp
    exact ⟨_, rfl, rfl, h.args⟩
  | some a =>
    rw [hv] at hp
    obtain ⟨es, hes, rfl⟩ := Option.map_eq_some_iff.mp hp
    obtain ⟨vs, hvs, hhas⟩ := VarType.elementTypes_abi hes (h.vararg a hv)
    obtain ⟨htyped, htypes⟩ := typed_zipWith hhas
    refine ⟨call.args ++ List.zipWith Arg.mk es vs, ?_, ?_, ?_⟩
    · simp only [Arg.elements, hes, hvs, Option.map_some]
    · rw [List.map_append, htypes]
    · intro b hb
      rcases List.mem_append.mp hb with hb | hb
      · exact h.args b hb
      · exact htyped b hb

/-! ## Device functions -/

def boundLeaves (b : Bound Text Text Arg) : List Nat := b.values.flatMap argLeaves

def foldedType : Bound Text Text Arg → FoldedType
  | .value a => .given a.type
  | .omitted d => .omitted d
  | .starArg values => .given (bundleType .starArg (unwrapStarArg (values.map (·.type))))
  | .starKwarg values => .given (bundleType (.starKwarg (values.map (·.1))) (values.map (·.2.type)))

/-- The operand of a parameter, where it has one. -/
def callVar : Bound Text Text Arg → Option CallVar
  | .value a => if a.type = .none then none else some (.var a)
  | .omitted _ => none
  | .starArg values => some (.bundle values)
  | .starKwarg values => some (.bundle (values.map (·.2)))

theorem bundleType_ne_none (cls : TupleClass) (ts : List VarType) : bundleType cls ts ≠ .none := by
  cases ts with
  | nil => simp [bundleType]
  | cons t ts =>
    rw [bundleType]
    split <;> simp

theorem isOmittedArg_given {t : VarType} : (FoldedType.given t).isOmittedArg = true ↔ t = .none := by
  cases t <;> simp [FoldedType.isOmittedArg]

theorem foldArgumentTypes_eq (signature : Signature) (args : List Arg) (kws : List (Text × Arg)) :
    foldArgumentTypes signature (args.map (·.type)) (kws.map fun k => (k.1, k.2.type)) =
      (bind signature.parameters args kws).map (List.map foldedType) := by
  rw [foldArgumentTypes, foldArguments, PythonCall.bind_map, Option.map_map]
  congr 1
  funext bs
  rw [Function.comp, List.map_map]
  refine List.map_congr_left fun b _ => ?_
  cases b <;> simp [Bound.map, foldedType, Function.comp_def]

theorem foldDispatcherCallArgs_eq (signature : Signature) (args : List Arg) (kws : List (Text × Arg)) :
    foldDispatcherCallArgs signature args kws =
      (bind signature.parameters args kws).map fun bs => (bs.map foldedType, bs.filterMap callVar) := by
  rw [foldDispatcherCallArgs, foldArgumentTypes_eq]
  cases h : bind signature.parameters args kws with
  | none => rfl
  | some bs =>
    simp only [foldArguments, h, Option.map_some, Option.bind_eq_bind, Option.bind_some, Option.pure_def, Option.some.injEq,
      Prod.mk.injEq, true_and]
    rw [List.zip_map', List.filterMap_map]
    refine List.filterMap_congr fun b _ => ?_
    cases b with
    | value a =>
      by_cases ha : a.type = .none
      · simp [foldedType, callVar, isOmittedArg_given, ha]
      · simp [foldedType, callVar, isOmittedArg_given, ha]
    | omitted d => rfl
    | starArg values => simp [foldedType, callVar, isOmittedArg_given, bundleType_ne_none]
    | starKwarg values => simp [foldedType, callVar, isOmittedArg_given, bundleType_ne_none]

theorem callOperands_vars (as : List Arg) :
    callOperandsFromVars (as.map .var) = some (as.flatMap fun a => flattenAbiValue a.value) := by
  have hload : (as.map CallVar.var).mapM loadVar = some (as.map (·.value)) := by
    induction as with
    | nil => rfl
    | cons a as ih => simp [loadVar, ih]
  simp [callOperandsFromVars, hload, List.flatMap_map]

theorem callOperands_bundle {vars : List CallVar} {b : List Arg} (h : .bundle b ∈ vars) : callOperandsFromVars vars = none := by
  have hload : vars.mapM loadVar = none := by
    induction vars with
    | nil => exact absurd h (by simp)
    | cons v vars ih =>
      rcases List.mem_cons.mp h with rfl | h
      · rfl
      · simp [ih h]
  simp [callOperandsFromVars, hload]

theorem exists_star {signature : Signature} {args : List Arg} {kws : List (Text × Arg)} {bs : List (Bound Text Text Arg)}
    (h : bind signature.parameters args kws = some bs) :
    (∃ b ∈ bs, b.isStar = true) ↔ ∃ p ∈ signature.parameters, p.kind.isVariadic = true := by
  have hmap := PythonCall.bind_isStar h
  have hiff : true ∈ bs.map (·.isStar) ↔ true ∈ signature.parameters.map (·.kind.isVariadic) := by rw [hmap]
  simpa [List.mem_map] using hiff

theorem filterMap_callVar {bs : List (Bound Text Text Arg)} (h : ∀ b ∈ bs, b.isStar = false) :
    bs.filterMap callVar = ((bs.flatMap Bound.values).filter fun a => a.type ≠ .none).map .var := by
  induction bs with
  | nil => rfl
  | cons b bs ih =>
    have ih := ih fun c hc => h c (by simp [hc])
    cases hb : b with
    | value a =>
      rw [List.flatMap_cons, Bound.values, List.singleton_append]
      by_cases ha : a.type = .none
      · rw [List.filterMap_cons_none (by simp [callVar, ha]), List.filter_cons_of_neg (by simpa using ha), ih]
      · rw [List.filterMap_cons_some (show callVar (.value a) = some (.var a) by simp [callVar, ha]),
          List.filter_cons_of_pos (by simpa using ha), ih, List.map_cons]
    | omitted d =>
      rw [List.filterMap_cons_none rfl, ih]
      rfl
    | starArg | starKwarg => exact absurd (h b (by simp)) (by rw [hb]; simp [Bound.isStar])

theorem flatMap_leaves_filter {as : List Arg} (h : ∀ a ∈ as, a.Typed) :
    (as.filter fun a => a.type ≠ .none).flatMap argLeaves = as.flatMap argLeaves := by
  induction as with
  | nil => rfl
  | cons a as ih =>
    have ih := ih fun b hb => h b (by simp [hb])
    by_cases ha : a.type = .none
    · have hv : argLeaves a = [] := by
        have := h a (by simp)
        rw [Arg.Typed, ha, VarType.abi] at this
        cases hval : a.value with
        | none => rw [argLeaves, hval, leaves]
        | leaf | tuple => rw [hval] at this; cases this
      rw [List.filter_cons_of_neg (by simpa using ha), ih, List.flatMap_cons, hv, List.nil_append]
    · rw [List.filter_cons_of_pos (by simpa using ha), List.flatMap_cons, List.flatMap_cons, ih]

theorem perm_values {signature : Signature} {args : List Arg} {kws : Dict Text Arg} {bs : List (Bound Text Text Arg)}
    (h : bind signature.parameters args kws.entries = some bs) :
    (bs.flatMap Bound.values).Perm (args ++ kws.entries.map (·.2)) := by
  rw [PythonCall.values_of_bind signature.names_nodup signature.ordered h]
  exact ((PythonCall.parameterOrder_perm signature.names_nodup kws.nodup).map _).append_left _

/-- What a dispatcher's route needs of the types passed. -/
def DispatcherRight (signature : Signature) (types : List VarType) (kws : List (Text × VarType)) : Prop :=
  (bind signature.parameters types kws).isSome →
    (∀ p ∈ signature.parameters, p.kind.isVariadic = false) ∧ ∀ t ∈ types ++ kws.map (·.2), t = .none ∨ t.NoNone

theorem isSome_bind_types (signature : Signature) (args : List Arg) (kws : List (Text × Arg)) :
    (bind signature.parameters (args.map (·.type)) (kws.map fun k => (k.1, k.2.type))).isSome =
      (bind signature.parameters args kws).isSome := by
  rw [PythonCall.bind_map, Option.isSome_map]

theorem dispatcher_iff {signature : Signature} {args : List Arg} {kws : Dict Text Arg} (hargs : ∀ a ∈ args, a.Typed)
    (hkws : ∀ e ∈ kws.entries, e.2.Typed) :
    buildUserDefinedFunctionCall signature args kws.entries =
        (bind signature.parameters args kws.entries).map (List.flatMap boundLeaves) ↔
      DispatcherRight signature (args.map (·.type)) (kws.entries.map fun k => (k.1, k.2.type)) := by
  rw [buildUserDefinedFunctionCall, foldDispatcherCallArgs_eq, DispatcherRight, isSome_bind_types]
  cases h : bind signature.parameters args kws.entries with
  | none => simp
  | some bs =>
    have hperm := perm_values h
    have htyped : ∀ a ∈ bs.flatMap Bound.values, a.Typed := fun a ha => by
      rcases List.mem_append.mp (hperm.mem_iff.mp ha) with ha | ha
      · exact hargs a ha
      · obtain ⟨e, he, rfl⟩ := List.mem_map.mp ha
        exact hkws e he
    simp only [Option.map_some, Option.bind_eq_bind, Option.bind_some, Option.isSome_some, true_imp_iff]
    by_cases hstar : ∃ b ∈ bs, b.isStar = true
    · obtain ⟨b, hb, hbstar⟩ := hstar
      obtain ⟨p, hp, hv⟩ := (exists_star h).mp ⟨b, hb, hbstar⟩
      have hnone : callOperandsFromVars (bs.filterMap callVar) = none := by
        cases b with
        | value | omitted => exact absurd hbstar (by simp [Bound.isStar])
        | starArg values => exact callOperands_bundle (List.mem_filterMap.mpr ⟨_, hb, rfl⟩)
        | starKwarg values => exact callOperands_bundle (List.mem_filterMap.mpr ⟨_, hb, rfl⟩)
      rw [hnone]
      constructor
      · exact fun heq => absurd heq (by simp)
      · exact fun hright => absurd (hright.1 p hp) (by simp [hv])
    · have hno : ∀ b ∈ bs, b.isStar = false := fun b hb => by
        by_contra hb'
        exact hstar ⟨b, hb, by simpa using hb'⟩
      have hvariadic : ∀ p ∈ signature.parameters, p.kind.isVariadic = false := fun p hp => by
        by_contra hp'
        exact hstar ((exists_star h).mpr ⟨p, hp, by simpa using hp'⟩)
      have htyped' : ∀ a ∈ (bs.flatMap Bound.values).filter fun a => a.type ≠ .none, a.Typed :=
        fun a ha => htyped a (List.mem_of_mem_filter ha)
      rw [filterMap_callVar hno, callOperands_vars, Option.bind_some, emit_args htyped', flatMap_leaves_filter htyped,
        List.flatMap_assoc]
      have hiff : (∀ a ∈ (bs.flatMap Bound.values).filter fun a => a.type ≠ .none, a.type.NoNone) ↔
          ∀ t ∈ args.map (·.type) ++ (kws.entries.map fun k => (k.1, k.2.type)).map (·.2), t = .none ∨ t.NoNone := by
        have hmem : ∀ t, t ∈ args.map (·.type) ++ (kws.entries.map fun k => (k.1, k.2.type)).map (·.2) ↔
            ∃ a ∈ bs.flatMap Bound.values, a.type = t := fun t => by
          rw [List.map_map, show ((·.2) ∘ fun k : Text × Arg => (k.1, k.2.type)) = (·.type) ∘ (·.2) from rfl, ← List.map_map,
            ← List.map_append, List.mem_map]
          exact exists_congr fun a => and_congr_left' hperm.mem_iff.symm
        constructor
        · intro hall t ht
          obtain ⟨a, ha, rfl⟩ := (hmem t).mp ht
          by_cases hnone : a.type = .none
          · exact .inl hnone
          · exact .inr (hall a (List.mem_filter.mpr ⟨ha, by simpa using hnone⟩))
        · intro hall a ha
          obtain ⟨ha, hne⟩ := List.mem_filter.mp ha
          exact (hall _ ((hmem _).mpr ⟨a, ha, rfl⟩)).resolve_left (by simpa using hne)
      rw [← hiff]
      constructor
      · intro heq
        refine ⟨hvariadic, ?_⟩
        by_contra hnot
        rw [if_neg hnot] at heq
        exact absurd heq (by simp)
      · intro hright
        rw [if_pos hright.2]
        rfl

/-! ## Recursive calls -/

def hasOperands (k : Text × VarType) : Bool := 0 < countFlatElements k.2.abi

/-- The keywords that have operands are written in the order of their parameters. -/
def KeywordsInOrder (signature : Signature) (kws : List (Text × VarType)) : Prop :=
  (parameterOrder signature.parameters kws).filter hasOperands = kws.filter hasOperands

/-- What a recursive call needs of the types passed. -/
def RecursiveRight (signature : Signature) (argtypes : List FoldedType) (types : List VarType)
    (kws : List (Text × VarType)) : Prop :=
  (bind signature.parameters types kws).isSome →
    if foldArgumentTypes signature types kws = some argtypes then
      (∀ t ∈ types ++ kws.map (·.2), t.NoNone) ∧ KeywordsInOrder signature kws
    else DispatcherRight signature types kws

theorem recursive_other {signature : Signature} {argtypes : List FoldedType} {args : List Arg} {kws : List (Text × Arg)}
    (h : foldArgumentTypes signature (args.map (·.type)) (kws.map fun k => (k.1, k.2.type)) ≠ some argtypes) :
    buildRecursiveCall signature argtypes args kws = buildUserDefinedFunctionCall signature args kws := by
  rw [foldArgumentTypes_eq] at h
  rw [buildRecursiveCall, foldDispatcherCallArgs_eq]
  cases hb : bind signature.parameters args kws with
  | none => simp [buildUserDefinedFunctionCall, foldDispatcherCallArgs_eq, hb]
  | some bs =>
    rw [hb, Option.map_some, ne_eq, Option.some.injEq] at h
    simp [h]

theorem recursive_self {signature : Signature} {argtypes : List FoldedType} {args : List Arg} {kws : Dict Text Arg}
    (hargs : ∀ a ∈ args, a.Typed) (hkws : ∀ e ∈ kws.entries, e.2.Typed)
    (h : foldArgumentTypes signature (args.map (·.type)) (kws.entries.map fun k => (k.1, k.2.type)) = some argtypes) :
    buildRecursiveCall signature argtypes args kws.entries =
      if ∀ a ∈ args ++ kws.entries.map (·.2), a.type.NoNone then
        some ((args ++ kws.entries.map (·.2)).flatMap argLeaves)
      else none := by
  have htyped : ∀ a ∈ args ++ kws.entries.map (·.2), a.Typed := fun a ha => by
    rcases List.mem_append.mp ha with ha | ha
    · exact hargs a ha
    · obtain ⟨e, he, rfl⟩ := List.mem_map.mp ha
      exact hkws e he
  rw [foldArgumentTypes_eq] at h
  rw [buildRecursiveCall, foldDispatcherCallArgs_eq]
  obtain ⟨bs, hbs, rfl⟩ := Option.map_eq_some_iff.mp h
  rw [hbs]
  simp only [Option.map_some, Option.bind_eq_bind, Option.bind_some, ne_eq, not_true_eq_false, if_false]
  rw [callOperands_vars, Option.bind_some, emit_args htyped]

theorem bound_leaves {signature : Signature} {args : List Arg} {kws : List (Text × Arg)} {bs : List (Bound Text Text Arg)}
    (h : bind signature.parameters args kws = some bs) :
    bs.flatMap boundLeaves =
      args.flatMap argLeaves ++ ((parameterOrder signature.parameters kws).map (·.2)).flatMap argLeaves := by
  rw [← List.flatMap_append, ← PythonCall.values_of_bind signature.names_nodup signature.ordered h, List.flatMap_assoc]
  rfl

theorem parameterOrder_types (ps : List Parameter) (kws : List (Text × Arg)) :
    parameterOrder ps (kws.map fun k => (k.1, k.2.type)) = (parameterOrder ps kws).map fun k => (k.1, k.2.type) := by
  rw [parameterOrder, parameterOrder, List.map_append, List.map_filterMap, List.filter_map]
  congr 1
  refine List.filterMap_congr fun p _ => ?_
  rw [List.find?_map]
  rfl

def givesOperands (k : Text × Arg) : Bool := hasOperands (k.1, k.2.type)

theorem flatMap_givesOperands {kws : List (Text × Arg)} (h : ∀ e ∈ kws, e.2.Typed) :
    (kws.filter givesOperands).flatMap (argLeaves ·.2) = kws.flatMap (argLeaves ·.2) := by
  induction kws with
  | nil => rfl
  | cons k kws ih =>
    have ih := ih fun e he => h e (by simp [he])
    rw [List.flatMap_cons, ← ih]
    by_cases hk : givesOperands k = true
    · rw [List.filter_cons_of_pos hk, List.flatMap_cons]
    · have hlen := leaves_length (h k (by simp))
      have hnil : argLeaves k.2 = [] := List.eq_nil_of_length_eq_zero (by simpa [givesOperands, hasOperands, argLeaves, hlen] using hk)
      rw [List.filter_cons_of_neg hk, hnil, List.nil_append]

/-! ## Distinct values -/

/-- Each keyword's leaves hold its place in the call. -/
def Call.fill (c : Call VarType) : Call Arg where
  args := c.args.map fun t => ⟨t, AbiFlatten.fill 0 t.abi⟩
  vararg := c.vararg.map fun t => ⟨t, AbiFlatten.fill 0 t.abi⟩
  kws := c.kws.mapValues fun name t => ⟨t, AbiFlatten.fill (c.kws.keys.idxOf name) t.abi⟩

theorem Call.fill_typed (c : Call VarType) : c.fill.Typed where
  args a ha := by
    obtain ⟨t, -, rfl⟩ := List.mem_map.mp ha
    exact fill_hasType 0 t.abi
  vararg a ha := by
    obtain ⟨t, -, rfl⟩ := Option.map_eq_some_iff.mp ha
    exact fill_hasType 0 t.abi
  kws e he := by
    obtain ⟨k, -, rfl⟩ := List.mem_map.mp he
    exact fill_hasType _ k.2.abi

theorem Call.fill_types (c : Call VarType) : c.fill.map (·.type) = c := by
  obtain ⟨args, vararg, ⟨entries, nodup⟩⟩ := c
  have hkws : ∀ f : Text × VarType → Value, (entries.map fun e => (e.1, (⟨e.2, f e⟩ : Arg))).map (fun e => (e.1, e.2.type)) = entries :=
    fun f => by simp [Function.comp_def]
  simp only [Call.map, Call.fill, Dict.mapValues, List.map_map, Option.map_map, Call.mk.injEq, Dict.mk.injEq]
  refine ⟨by simp [Function.comp_def], by simp [Function.comp_def], by simp [Function.comp_def]⟩

theorem leaves_fill (x : Nat) (t : VarType) : leaves (AbiFlatten.fill x t.abi) = List.replicate (countFlatElements t.abi) x := by
  have h := operands_eq_leaves (fill_hasType x t.abi)
  rw [fill_operands, ← List.map_replicate] at h
  exact (List.map_injective_iff.mpr (fun _ _ => Value.leaf.inj) h).symm

theorem eq_of_map_eq_on {α β : Type} {f : α → β} : ∀ {l l' : List α}, (∀ a ∈ l, ∀ b ∈ l', f a = f b → a = b) →
    l.map f = l'.map f → l = l'
  | [], [], _, _ => rfl
  | [], _ :: _, _, h | _ :: _, [], _, h => absurd h (by simp)
  | a :: l, b :: l', hinj, h => by
    rw [List.map_cons, List.map_cons, List.cons.injEq] at h
    rw [hinj a (by simp) b (by simp) h.1, eq_of_map_eq_on (fun x hx y hy => hinj x (by simp [hx]) y (by simp [hy])) h.2]

theorem eq_of_flatMap_replicate_on {α : Type} {n c : α → Nat} : ∀ {l l' : List α}, (∀ a ∈ l, 0 < c a) → (∀ a ∈ l', 0 < c a) →
    (∀ a ∈ l, ∀ b ∈ l', n a = n b → a = b) →
    l.flatMap (fun a => List.replicate (c a) (n a)) = l'.flatMap (fun a => List.replicate (c a) (n a)) → l = l'
  | [], [], _, _, _, _ => rfl
  | [], b :: l', _, hb, _, h => by
    have := hb b (by simp)
    simp [List.flatMap_cons, Nat.ne_of_gt this] at h
  | a :: l, [], ha, _, _, h => by
    have := ha a (by simp)
    simp [List.flatMap_cons, Nat.ne_of_gt this] at h
  | a :: l, b :: l', ha, hb, hinj, h => by
    obtain ⟨m, hm⟩ := Nat.exists_eq_succ_of_ne_zero (Nat.pos_iff_ne_zero.mp (ha a (by simp)))
    obtain ⟨k, hk⟩ := Nat.exists_eq_succ_of_ne_zero (Nat.pos_iff_ne_zero.mp (hb b (by simp)))
    have hnum : n a = n b := by
      have := congrArg List.head? h
      simpa [List.flatMap_cons, hm, hk, List.replicate_succ] using this
    obtain rfl := hinj a (by simp) b (by simp) hnum
    rw [List.flatMap_cons, List.flatMap_cons, List.append_cancel_left_eq] at h
    rw [eq_of_flatMap_replicate_on (fun x hx => ha x (by simp [hx])) (fun x hx => hb x (by simp [hx]))
      (fun x hx y hy => hinj x (by simp [hx]) y (by simp [hy])) h]

theorem keywordsInOrder_of_fill {signature : Signature} {c : Call VarType}
    (h : (c.fill.kws.entries.map (·.2)).flatMap argLeaves =
      ((parameterOrder signature.parameters c.fill.kws.entries).map (·.2)).flatMap argLeaves) :
    KeywordsInOrder signature c.kws.entries := by
  have htyped := c.fill_typed.kws
  have hperm := PythonCall.parameterOrder_perm signature.names_nodup c.fill.kws.nodup
  have hentries : c.fill.kws.entries.map (fun k => (k.1, k.2.type)) = c.kws.entries :=
    congrArg (fun c : Call VarType => c.kws.entries) c.fill_types
  rw [List.flatMap_map, List.flatMap_map, ← flatMap_givesOperands htyped,
    ← flatMap_givesOperands fun e he => htyped e (hperm.mem_iff.mp he)] at h
  have hleaves : ∀ e ∈ c.fill.kws.entries,
      argLeaves e.2 = List.replicate (countFlatElements e.2.type.abi) (c.kws.keys.idxOf e.1) := fun e he => by
    obtain ⟨k, -, rfl⟩ := List.mem_map.mp he
    exact leaves_fill _ k.2
  have hmem : ∀ {e}, e ∈ (parameterOrder signature.parameters c.fill.kws.entries).filter givesOperands → e ∈ c.fill.kws.entries :=
    fun he => hperm.mem_iff.mp (List.mem_of_mem_filter he)
  have hpos : ∀ e, givesOperands e = true → 0 < countFlatElements e.2.type.abi := fun e he => by
    simpa [givesOperands, hasOperands] using he
  have heq : c.fill.kws.entries.filter givesOperands =
      (parameterOrder signature.parameters c.fill.kws.entries).filter givesOperands := by
    refine eq_of_flatMap_replicate_on (n := fun e => c.kws.keys.idxOf e.1) (c := fun e => countFlatElements e.2.type.abi)
      (fun e he => hpos e (List.mem_filter.mp he).2) (fun e he => hpos e (List.mem_filter.mp he).2) ?_ ?_
    · intro a ha b hb hnum
      have ha := List.mem_of_mem_filter ha
      have hb := hmem hb
      have hkeys : c.fill.kws.entries.map (·.1) = c.kws.keys := by simp [Call.fill, Dict.mapValues, Dict.keys, Function.comp_def]
      have hka : a.1 ∈ c.kws.keys := hkeys ▸ List.mem_map_of_mem ha
      exact List.inj_on_of_nodup_map c.fill.kws.nodup ha hb (List.idxOf_inj hka |>.mp hnum)
    · rw [List.flatMap_congr fun e he => (hleaves e (List.mem_of_mem_filter he)).symm,
        List.flatMap_congr fun e he => (hleaves e (hmem he)).symm]
      exact h
  rw [KeywordsInOrder, ← hentries, parameterOrder_types, List.filter_map, List.filter_map]
  exact congrArg (List.map fun k => (k.1, k.2.type)) heq.symm

theorem leaves_of_keywordsInOrder {signature : Signature} {kws : Dict Text Arg} (hkws : ∀ e ∈ kws.entries, e.2.Typed)
    (h : KeywordsInOrder signature (kws.entries.map fun k => (k.1, k.2.type))) :
    (kws.entries.map (·.2)).flatMap argLeaves =
      ((parameterOrder signature.parameters kws.entries).map (·.2)).flatMap argLeaves := by
  have hperm := PythonCall.parameterOrder_perm signature.names_nodup kws.nodup
  rw [KeywordsInOrder, parameterOrder_types, List.filter_map, List.filter_map] at h
  have hnames := congrArg (List.map (·.1)) h
  rw [List.map_map, List.map_map] at hnames
  have heq : (parameterOrder signature.parameters kws.entries).filter givesOperands = kws.entries.filter givesOperands :=
    eq_of_map_eq_on (fun a ha b hb hab => List.inj_on_of_nodup_map kws.nodup (hperm.mem_iff.mp (List.mem_of_mem_filter ha))
      (List.mem_of_mem_filter hb) hab) hnames
  rw [List.flatMap_map, List.flatMap_map, ← flatMap_givesOperands hkws,
    ← flatMap_givesOperands fun e he => hkws e (hperm.mem_iff.mp he), heq]

/-! ## External routes -/

def VarType.IsLeaf : VarType → Prop
  | leaf _ => True
  | _ => False

/-- What an external route needs of the types declared and passed. -/
def ExternRight (canConvert : VarType → VarType → Bool) (argtypes types : List VarType) (kws : List (Text × VarType)) : Prop :=
  resolveOverload canConvert argtypes types kws = true → ∀ t ∈ argtypes ++ types, t.IsLeaf

theorem convertOperand_of_leaf {t : VarType} (ht : t.IsLeaf) {a : Arg} (ha : a.type.IsLeaf) (h : a.Typed) :
    ∃ v, convertOperand t a.value = some v ∧ argLeaves a = [v] := by
  obtain ⟨type, value⟩ := a
  cases t with
  | leaf name =>
    cases type with
    | leaf name' =>
      rw [Arg.Typed, VarType.abi] at h
      cases h with
      | leaf _ v => exact ⟨v, rfl, rfl⟩
    | _ => exact ha.elim
  | _ => exact ht.elim

theorem leaf_of_convertOperand {t : VarType} {a : Arg} (h : a.Typed) {v : Nat} (hv : convertOperand t a.value = some v) :
    t.IsLeaf ∧ a.type.IsLeaf := by
  obtain ⟨type, value⟩ := a
  cases t with
  | leaf name =>
    refine ⟨trivial, ?_⟩
    cases value with
    | leaf w =>
      rw [Arg.Typed] at h
      cases type with
      | leaf => trivial
      | _ => cases h
    | none | tuple => exact absurd hv (by simp [convertOperand])
  | _ => exact absurd hv (by simp [convertOperand])

theorem extern_iff {argtypes : List VarType} {args : List Arg} (hlen : args.length = argtypes.length) (h : ∀ a ∈ args, a.Typed) :
    (argtypes.zip args).mapM (fun e => convertOperand e.1 e.2.value) = some (args.flatMap argLeaves) ↔
      ∀ t ∈ argtypes ++ args.map (·.type), t.IsLeaf := by
  induction args generalizing argtypes with
  | nil =>
    obtain rfl := List.eq_nil_of_length_eq_zero hlen.symm
    simp
  | cons a args ih =>
    cases argtypes with
    | nil => exact absurd hlen (by simp)
    | cons t argtypes =>
      have ih := ih (by simpa using hlen) fun b hb => h b (by simp [hb])
      have hsplit : (∀ u ∈ t :: argtypes ++ (a :: args).map (·.type), u.IsLeaf) ↔
          (t.IsLeaf ∧ a.type.IsLeaf) ∧ ∀ u ∈ argtypes ++ args.map (·.type), u.IsLeaf := by
        simp only [List.mem_append, List.mem_cons, List.map_cons]
        exact ⟨fun hall => ⟨⟨hall t (by simp), hall a.type (by simp)⟩, fun u hu => hall u (by tauto)⟩,
          by
            rintro ⟨⟨h1, h2⟩, hall⟩ u ((rfl | hu) | rfl | hu)
            · exact h1
            · exact hall u (.inl hu)
            · exact h2
            · exact hall u (.inr hu)⟩
      rw [hsplit, ← ih, List.zip_cons_cons, List.mapM_cons, List.flatMap_cons]
      simp only [Option.bind_eq_bind, Option.pure_def, Option.bind_eq_some_iff, Option.some.injEq]
      constructor
      · rintro ⟨v, hv, vs, hvs, heq⟩
        have hleaf := leaf_of_convertOperand (h a (by simp)) hv
        obtain ⟨w, hw, hlw⟩ := convertOperand_of_leaf hleaf.1 hleaf.2 (h a (by simp))
        rw [hlw, List.singleton_append, List.cons.injEq] at heq
        exact ⟨hleaf, heq.2 ▸ hvs⟩
      · rintro ⟨⟨ht, ha⟩, hvs⟩
        obtain ⟨w, hw, hlw⟩ := convertOperand_of_leaf ht ha (h a (by simp))
        exact ⟨w, hw, _, hvs, by rw [hlw, List.singleton_append]⟩

/-! ## Every route -/

section

variable (canConvert : VarType → VarType → Bool)

def BindsRight (callee : Callee) (c : Call VarType) : Prop :=
  ∀ types, c.positionalTypes = some types →
    match callee with
    | .dispatcher signature => DispatcherRight signature types c.kws.entries
    | .recursive signature argtypes => RecursiveRight signature argtypes types c.kws.entries
    | .externFunction _ argtypes | .externLibrary argtypes => ExternRight canConvert argtypes types c.kws.entries

theorem lowerCall_extern (callee : Callee) {argtypes : List VarType}
    (hcallee : (∃ abi, callee = .externFunction abi argtypes) ∨ callee = .externLibrary argtypes) {call : Call Arg} {args : List Arg}
    (hpos : call.positional = some args) :
    lowerCall canConvert callee call =
        (if resolveOverload canConvert argtypes (args.map (·.type)) (call.map (·.type)).kws.entries then
          (argtypes.zip args).mapM fun e => convertOperand e.1 e.2.value else none) ∧
      pythonOperands canConvert callee call =
        (if resolveOverload canConvert argtypes (args.map (·.type)) (call.map (·.type)).kws.entries then
          some (args.flatMap argLeaves) else none) := by
  rcases hcallee with ⟨abi, rfl⟩ | rfl
  · simp only [lowerCall, pythonOperands, hpos, Option.bind_eq_bind, Option.bind_some]
    exact ⟨rfl, rfl⟩
  · simp only [lowerCall, pythonOperands, hpos, Option.bind_eq_bind, Option.bind_some, lowerCallExternalMlirLibraryFunction]
    refine ⟨?_, rfl⟩
    rw [← List.zip_swap argtypes args, List.mapM_map]
    rfl

theorem extern_right_iff {callee : Callee} {argtypes : List VarType}
    (hcallee : (∃ abi, callee = .externFunction abi argtypes) ∨ callee = .externLibrary argtypes) {call : Call Arg} {args : List Arg}
    (hpos : call.positional = some args) (htyped : ∀ a ∈ args, a.Typed) :
    lowerCall canConvert callee call = pythonOperands canConvert callee call ↔
      ExternRight canConvert argtypes (args.map (·.type)) (call.map (·.type)).kws.entries := by
  obtain ⟨hlow, hpy⟩ := lowerCall_extern canConvert callee hcallee hpos
  rw [hlow, hpy, ExternRight]
  by_cases hres : resolveOverload canConvert argtypes (args.map (·.type)) (call.map (·.type)).kws.entries = true
  · rw [if_pos hres, if_pos hres]
    have hlen : args.length = argtypes.length := by
      have := hres
      simp only [resolveOverload, Bool.and_eq_true, decide_eq_true_eq, List.length_map] at this
      exact this.1.2
    rw [extern_iff hlen htyped]
    simp [hres]
  · simp [hres]

theorem pythonOperands_dispatcher {signature : Signature} {call : Call Arg} {args : List Arg} (hpos : call.positional = some args) :
    pythonOperands canConvert (.dispatcher signature) call =
      (bind signature.parameters args call.kws.entries).map (List.flatMap boundLeaves) := by
  simp only [pythonOperands, hpos, Option.bind_eq_bind, Option.bind_some]
  cases bind signature.parameters args call.kws.entries <;> rfl

theorem recursive_iff {signature : Signature} {argtypes : List FoldedType} (c : Call VarType) {types : List VarType}
    (hc : c.positionalTypes = some types) :
    (∀ call : Call Arg, call.Typed → call.map (·.type) = c →
        lowerCall canConvert (.recursive signature argtypes) call = pythonOperands canConvert (.recursive signature argtypes) call) ↔
      RecursiveRight signature argtypes types c.kws.entries := by
  -- the two outcomes for one call
  have houtcome : ∀ call : Call Arg, call.Typed → call.map (·.type) = c → ∃ args,
      args.map (·.type) = types ∧ (∀ a ∈ args, a.Typed) ∧ (call.kws.entries.map fun k => (k.1, k.2.type)) = c.kws.entries ∧
      lowerCall canConvert (.recursive signature argtypes) call = buildRecursiveCall signature argtypes args call.kws.entries ∧
      pythonOperands canConvert (.recursive signature argtypes) call =
        (bind signature.parameters args call.kws.entries).map (List.flatMap boundLeaves) := fun call htyped hmap => by
    obtain ⟨args, hargs, htypes, hall⟩ := call.positional_some htyped (hmap ▸ hc)
    refine ⟨args, htypes, hall, congrArg (fun c : Call VarType => c.kws.entries) hmap, ?_, ?_⟩
    · simp only [lowerCall, hargs, Option.bind_eq_bind, Option.bind_some]
    · exact pythonOperands_dispatcher canConvert hargs
  by_cases hself : foldArgumentTypes signature types c.kws.entries = some argtypes
  · constructor
    · intro hall hbind
      rw [if_pos hself]
      obtain ⟨args, htypes, hargs, hkws, hlow, hpy⟩ := houtcome c.fill c.fill_typed c.fill_types
      have heq := hall c.fill c.fill_typed c.fill_types
      rw [← htypes, ← hkws, isSome_bind_types] at hbind
      obtain ⟨bs, hbs⟩ := Option.isSome_iff_exists.mp hbind
      rw [hlow, hpy, recursive_self hargs c.fill_typed.kws (by rw [htypes, hkws, hself]), hbs, Option.map_some,
        bound_leaves hbs, List.flatMap_append] at heq
      have hnone : ∀ a ∈ args ++ c.fill.kws.entries.map (·.2), a.type.NoNone := by
        by_contra hnot
        rw [if_neg hnot] at heq
        exact absurd heq (by simp)
      rw [if_pos hnone, Option.some.injEq, List.append_cancel_left_eq] at heq
      refine ⟨fun t ht => ?_, keywordsInOrder_of_fill heq⟩
      rw [← htypes, ← hkws, List.map_map, show ((·.2) ∘ fun k : Text × Arg => (k.1, k.2.type)) = (·.type) ∘ (·.2) from rfl,
        ← List.map_map, ← List.map_append] at ht
      obtain ⟨a, ha, rfl⟩ := List.mem_map.mp ht
      exact hnone a ha
    · intro hright call htyped hmap
      obtain ⟨args, htypes, hargs, hkws, hlow, hpy⟩ := houtcome call htyped hmap
      rw [hlow, hpy, recursive_self hargs htyped.kws (by rw [htypes, hkws, hself])]
      have hsome : (bind signature.parameters args call.kws.entries).isSome := by
        rw [foldArgumentTypes, foldArguments] at hself
        rw [← isSome_bind_types, htypes, hkws, ← Option.isSome_map, hself]
        rfl
      obtain ⟨bs, hbs⟩ := Option.isSome_iff_exists.mp hsome
      have hr := hright (by rw [← htypes, ← hkws, isSome_bind_types, hsome])
      rw [if_pos hself] at hr
      rw [hbs, Option.map_some, bound_leaves hbs, List.flatMap_append,
        leaves_of_keywordsInOrder htyped.kws (hkws ▸ hr.2), if_pos]
      intro a ha
      refine hr.1 a.type ?_
      rw [← htypes, ← hkws, List.map_map, show ((·.2) ∘ fun k : Text × Arg => (k.1, k.2.type)) = (·.type) ∘ (·.2) from rfl,
        ← List.map_map, ← List.map_append]
      exact List.mem_map_of_mem ha
  · have hone : ∀ call : Call Arg, call.Typed → call.map (·.type) = c →
        (lowerCall canConvert (.recursive signature argtypes) call = pythonOperands canConvert (.recursive signature argtypes) call ↔
          DispatcherRight signature types c.kws.entries) := fun call htyped hmap => by
      obtain ⟨args, htypes, hargs, hkws, hlow, hpy⟩ := houtcome call htyped hmap
      rw [hlow, hpy, recursive_other (by rw [htypes, hkws]; exact hself), dispatcher_iff hargs htyped.kws, htypes, hkws]
    rw [RecursiveRight, if_neg hself]
    constructor
    · exact fun hall _ => (hone c.fill c.fill_typed c.fill_types).mp (hall c.fill c.fill_typed c.fill_types)
    · exact fun hright call htyped hmap => (hone call htyped hmap).mpr fun hb => hright hb hb

/-- **Calls bind like Python** through a route exactly when the types passed suit it: a
call of a device function without star parameters and without a `None` inside a tuple, a call
of the function itself without any `None` and with its keywords in order, an external call
of scalars. -/
theorem calls_bind_like_python_iff (callee : Callee) (c : Call VarType) :
    (∀ call : Call Arg, call.Typed → call.map (·.type) = c →
        lowerCall canConvert callee call = pythonOperands canConvert callee call) ↔
      BindsRight canConvert callee c := by
  cases hc : c.positionalTypes with
  | none =>
    refine ⟨fun _ types h => absurd (hc.symm.trans h) (by simp), fun _ call htyped hmap => ?_⟩
    have hnone : call.positional = none := Call.positional_none (hmap ▸ hc)
    simp only [lowerCall, pythonOperands, hnone, Option.bind_eq_bind, Option.bind_none]
  | some types =>
    have hiff : BindsRight canConvert callee c ↔ match callee with
        | .dispatcher signature => DispatcherRight signature types c.kws.entries
        | .recursive signature argtypes => RecursiveRight signature argtypes types c.kws.entries
        | .externFunction _ argtypes | .externLibrary argtypes => ExternRight canConvert argtypes types c.kws.entries := by
      constructor
      · exact fun h => h types hc
      · intro h types' hc'
        obtain rfl : types = types' := Option.some.inj (hc.symm.trans hc')
        exact h
    have hone : ∀ P : Prop, (∀ call : Call Arg, call.Typed → call.map (·.type) = c →
        (lowerCall canConvert callee call = pythonOperands canConvert callee call ↔ P)) →
        ((∀ call : Call Arg, call.Typed → call.map (·.type) = c →
          lowerCall canConvert callee call = pythonOperands canConvert callee call) ↔ P) := fun P h =>
      ⟨fun hall => (h c.fill c.fill_typed c.fill_types).mp (hall c.fill c.fill_typed c.fill_types),
        fun hP call htyped hmap => (h call htyped hmap).mpr hP⟩
    rw [hiff]
    cases callee with
    | dispatcher signature =>
      refine hone _ fun call htyped hmap => ?_
      obtain ⟨args, hargs, htypes, hall⟩ := call.positional_some htyped (hmap ▸ hc)
      rw [pythonOperands_dispatcher canConvert hargs]
      simp only [lowerCall, hargs, Option.bind_eq_bind, Option.bind_some]
      rw [dispatcher_iff hall htyped.kws, htypes]
      subst hmap
      rfl
    | recursive signature argtypes => exact recursive_iff canConvert c hc
    | externFunction abi argtypes =>
      refine hone _ fun call htyped hmap => ?_
      obtain ⟨args, hargs, htypes, hall⟩ := call.positional_some htyped (hmap ▸ hc)
      rw [extern_right_iff canConvert (.inl ⟨abi, rfl⟩) hargs hall, htypes, hmap]
    | externLibrary argtypes =>
      refine hone _ fun call htyped hmap => ?_
      obtain ⟨args, hargs, htypes, hall⟩ := call.positional_some htyped (hmap ▸ hc)
      rw [extern_right_iff canConvert (.inr rfl) hargs hall, htypes, hmap]

end

/-- `def f(a, b)`, which calls `f(b=x, a=y)` with the types it is lowered for. -/
theorem keywords_swapped :
    lowerCall (fun _ _ => true)
        (.recursive ⟨[⟨['a'], .positionalOrKeyword, none⟩, ⟨['b'], .positionalOrKeyword, none⟩], by decide, by decide⟩
          [.given (.leaf ['i']), .given (.leaf ['i'])])
        ⟨[], none, ⟨[(['b'], ⟨.leaf ['i'], .leaf 1⟩), (['a'], ⟨.leaf ['i'], .leaf 2⟩)], by decide⟩⟩ = some [1, 2] ∧
      pythonOperands (fun _ _ => true)
        (.recursive ⟨[⟨['a'], .positionalOrKeyword, none⟩, ⟨['b'], .positionalOrKeyword, none⟩], by decide, by decide⟩
          [.given (.leaf ['i']), .given (.leaf ['i'])])
        ⟨[], none, ⟨[(['b'], ⟨.leaf ['i'], .leaf 1⟩), (['a'], ⟨.leaf ['i'], .leaf 2⟩)], by decide⟩⟩ = some [2, 1] := by
  decide

end NumbaCudaMlir.CallRoutes

import NumbaCudaMlir.ExplicitLaunchLeaf
import NumbaCudaMlir.LaunchSound

/-!
# Soundness of launches of explicit signatures

Every scalar parameter of the kernel that a launch runs holds the number that
was passed, converted to the declared type, exactly when each declared type fits
the object that is launched for it. Where one does not, a launch of other values
of the same classes and types misreads its arguments.
-/

namespace NumbaCudaMlir.ExplicitLaunch

open CInt
open LaunchValue (flattenAll typeofAll)

/-! ## Values of one structure -/

def deviceObj : PyObj → PyObj
  | .float .npFloat64 bits => .float .float bits
  | arg => arg

mutual

def mapLeaves (f : PyObj → PyObj) : LaunchValue → LaunchValue
  | .leaf obj => .leaf (f obj)
  | .tuple elems => .tuple (mapAll f elems)

def mapAll (f : PyObj → PyObj) : List LaunchValue → List LaunchValue
  | [] => []
  | v :: vs => mapLeaves f v :: mapAll f vs

end

theorem length_mapAll (f : PyObj → PyObj) : ∀ vs : List LaunchValue, (mapAll f vs).length = vs.length
  | [] => rfl
  | v :: vs => by rw [mapAll, List.length_cons, length_mapAll f vs, List.length_cons]

mutual

theorem toDeviceItem_eq : ∀ v : LaunchValue, toDeviceItem v = mapLeaves deviceObj v
  | .leaf obj => by
    cases obj with
    | float cls bits => cases cls <;> rfl
    | _ => rfl
  | .tuple elems => by rw [toDeviceItem, mapLeaves, toDeviceItems_eq elems]

theorem toDeviceItems_eq : ∀ vs : List LaunchValue, toDeviceItems vs = mapAll deviceObj vs
  | [] => rfl
  | v :: vs => by rw [toDeviceItems, mapAll, toDeviceItem_eq v, toDeviceItems_eq vs]

end

mutual

theorem flatten_mapLeaves (f : PyObj → PyObj) : ∀ v : LaunchValue, (mapLeaves f v).flatten = v.flatten.map f
  | .leaf _ => rfl
  | .tuple elems => by rw [mapLeaves, LaunchValue.flatten, flattenAll_mapAll f elems, LaunchValue.flatten]

theorem flattenAll_mapAll (f : PyObj → PyObj) : ∀ vs : List LaunchValue, flattenAll (mapAll f vs) = (flattenAll vs).map f
  | [] => rfl
  | v :: vs => by rw [mapAll, flattenAll, flatten_mapLeaves f v, flattenAll_mapAll f vs, flattenAll, List.map_append]

end

mutual

theorem mapLeaves_mapLeaves (f g : PyObj → PyObj) : ∀ v : LaunchValue, mapLeaves f (mapLeaves g v) = mapLeaves (f ∘ g) v
  | .leaf _ => rfl
  | .tuple elems => by rw [mapLeaves, mapLeaves, mapAll_mapAll f g elems, mapLeaves]

theorem mapAll_mapAll (f g : PyObj → PyObj) : ∀ vs : List LaunchValue, mapAll f (mapAll g vs) = mapAll (f ∘ g) vs
  | [] => rfl
  | v :: vs => by rw [mapAll, mapAll, mapLeaves_mapLeaves f g v, mapAll_mapAll f g vs, mapAll]

end

mutual

theorem mapLeaves_id : ∀ v : LaunchValue, mapLeaves id v = v
  | .leaf _ => rfl
  | .tuple elems => by rw [mapLeaves, mapAll_id elems]

theorem mapAll_id : ∀ vs : List LaunchValue, mapAll id vs = vs
  | [] => rfl
  | v :: vs => by rw [mapAll, mapLeaves_id v, mapAll_id vs]

end

mutual

theorem typeof_mapLeaves {f g : PyObj → PyObj} : ∀ {v : LaunchValue},
    (∀ arg ∈ v.flatten, typeof (f arg) = typeof (g arg)) → (mapLeaves f v).typeof = (mapLeaves g v).typeof
  | .leaf obj, h => h obj (List.mem_singleton_self obj)
  | .tuple elems, h => by
    rw [mapLeaves, mapLeaves, LaunchValue.typeof, LaunchValue.typeof, typeofAll_mapAll h]

theorem typeofAll_mapAll {f g : PyObj → PyObj} : ∀ {vs : List LaunchValue},
    (∀ arg ∈ flattenAll vs, typeof (f arg) = typeof (g arg)) → typeofAll (mapAll f vs) = typeofAll (mapAll g vs)
  | [], _ => rfl
  | v :: vs, h => by
    rw [flattenAll, List.forall_mem_append] at h
    rw [mapAll, mapAll, typeofAll, typeofAll, typeof_mapLeaves h.1, typeofAll_mapAll h.2]

end

theorem length_of_typeofAll {vs : List LaunchValue} {ts : List NumbaType} (h : typeofAll vs = some ts) : vs.length = ts.length := by
  induction vs generalizing ts with
  | nil =>
    cases h
    rfl
  | cons v vs ih =>
    rw [typeofAll, Option.bind_eq_some_iff] at h
    obtain ⟨t, -, h⟩ := h
    obtain ⟨ts, hts, rfl⟩ := Option.map_eq_some_iff.mp h
    rw [List.length_cons, List.length_cons, ih hts]

/-! ## Coercion of the leaves -/

def coercionTo (sigType runtimeType : NumbaType) : Coercion :=
  if sigType = runtimeType ∨ isNumeric runtimeType = false then .kept
  else
    match sigType with
    | .scalar (.float .s4) => .single
    | .scalar (.float .s8) => .double
    | _ => .kept

def coercions (sigType runtimeType : NumbaType) (v : LaunchValue) : List Coercion :=
  match v with
  | .leaf _ => [coercionTo sigType runtimeType]
  | .tuple elems => List.replicate (flattenAll elems).length .kept

def coercionsAll : List NumbaType → List NumbaType → List LaunchValue → List Coercion
  | s :: ss, t :: ts, v :: vs => coercions s t v ++ coercionsAll ss ts vs
  | _, _, _ => []

theorem length_coercions (s t : NumbaType) : ∀ v : LaunchValue, (coercions s t v).length = v.flatten.length
  | .leaf _ => rfl
  | .tuple _ => List.length_replicate

theorem coercions_mapLeaves (s t : NumbaType) (f : PyObj → PyObj) : ∀ v : LaunchValue, coercions s t (mapLeaves f v) = coercions s t v
  | .leaf _ => rfl
  | .tuple elems => by rw [mapLeaves, coercions, coercions, flattenAll_mapAll, List.length_map]

section
variable {conv : Conversions}

variable (conv) in
theorem zipWith_kept (args : List PyObj) : List.zipWith (Coercion.apply conv) (List.replicate args.length .kept) args = args := by
  induction args with
  | nil => rfl
  | cons arg args ih => rw [List.length_cons, List.replicate_succ, List.zipWith_cons_cons, ih]; rfl

theorem coerceArg_tuple (s t : NumbaType) (elems : List LaunchValue) : coerceArg conv s (.tuple elems) t = (.tuple elems, t) := by
  unfold coerceArg
  split
  · rfl
  · split <;> first | rfl | contradiction

theorem coerceArg_flatten (s t : NumbaType) (v : LaunchValue) :
    (coerceArg conv s v t).1.flatten = List.zipWith (Coercion.apply conv) (coercions s t v) v.flatten := by
  cases v with
  | tuple elems =>
    rw [coerceArg_tuple, coercions, LaunchValue.flatten, zipWith_kept conv]
  | leaf obj =>
    rw [coercions, LaunchValue.flatten, List.zipWith_cons_cons, List.zipWith_nil_left]
    unfold coerceArg coercionTo
    by_cases he : s = t
    · rw [if_pos he, if_pos (.inl he)]
      rfl
    · cases hnum : isNumeric t with
      | false =>
        rw [if_neg he, if_pos (.inr rfl)]
        split <;> rfl
      | true =>
        rw [if_neg he, if_neg (by simp [he])]
        cases s with
        | scalar st => cases st with
          | float size => cases size <;> rfl
          | _ => rfl
        | _ => rfl

theorem coerceArg_snd (s t : NumbaType) (f : PyObj → PyObj) (v : LaunchValue) :
    (coerceArg conv s (mapLeaves f v) t).2 = (coerceArg conv s v t).2 := by
  cases v with
  | tuple elems => rw [mapLeaves, coerceArg_tuple, coerceArg_tuple]
  | leaf obj =>
    unfold coerceArg
    by_cases he : s = t
    · rw [if_pos he, if_pos he]
    · rw [if_neg he, if_neg he]
      cases s with
      | scalar st => cases st with
        | float size => cases size <;> cases isNumeric t <;> rfl
        | _ => rfl
      | _ => rfl

theorem flattenAll_coerceArgs : ∀ {ss : List NumbaType} {vs : List LaunchValue} {ts : List NumbaType},
    ss.length = ts.length → vs.length = ts.length →
    flattenAll ((coerceArgs conv ss vs ts).map (·.1)) = List.zipWith (Coercion.apply conv) (coercionsAll ss ts vs) (flattenAll vs)
  | [], [], _, _, _ => rfl
  | [], _ :: _, _, hs, hv | _ :: _, [], _, hs, hv => by cases hs.trans hv.symm
  | s :: ss, v :: vs, t :: ts, hs, hv => by
    rw [coerceArgs, List.map_cons, flattenAll, coerceArg_flatten, coercionsAll, flattenAll,
      List.zipWith_append (length_coercions s t v), flattenAll_coerceArgs (Nat.succ.inj hs) (Nat.succ.inj hv)]

theorem coerceArgs_snd (f : PyObj → PyObj) : ∀ (ss : List NumbaType) (vs : List LaunchValue) (ts : List NumbaType),
    (coerceArgs conv ss (mapAll f vs) ts).map (·.2) = (coerceArgs conv ss vs ts).map (·.2)
  | [], [], _ | [], _ :: _, _ | _ :: _, [], _ | _ :: _, _ :: _, [] => rfl
  | s :: ss, v :: vs, t :: ts => by
    rw [mapAll, coerceArgs, coerceArgs, List.map_cons, List.map_cons, coerceArg_snd, coerceArgs_snd f ss vs ts]

theorem coercionsAll_mapAll (f : PyObj → PyObj) : ∀ (ss ts : List NumbaType) (vs : List LaunchValue),
    coercionsAll ss ts (mapAll f vs) = coercionsAll ss ts vs
  | [], [], _ | [], _ :: _, _ | _ :: _, [], _ | _ :: _, _ :: _, [] => rfl
  | s :: ss, t :: ts, v :: vs => by
    rw [mapAll, coercionsAll, coercionsAll, coercions_mapLeaves, coercionsAll_mapAll f ss ts vs]

theorem length_coercionsAll : ∀ {ss ts : List NumbaType} {vs : List LaunchValue}, ss.length = ts.length → vs.length = ts.length →
    (coercionsAll ss ts vs).length = (flattenAll vs).length
  | [], [], [], _, _ => rfl
  | s :: ss, t :: ts, v :: vs, hs, hv => by
    rw [coercionsAll, List.length_append, length_coercions, length_coercionsAll (Nat.succ.inj hs) (Nat.succ.inj hv), flattenAll,
      List.length_append]

theorem length_of_rateOverload : ∀ {sig : List NumbaType} {ts : List NumbaType},
    (SigCache.rateOverload sig (ts.map some)).isSome = true → sig.length = ts.length
  | [], [], _ => rfl
  | [], _ :: _, h | _ :: _, [], h => by cases h
  | s :: ss, t :: ts, h => by
    rw [List.map_cons, SigCache.rateOverload] at h
    obtain ⟨r, hr⟩ := Option.isSome_iff_exists.mp h
    rw [Option.bind_eq_some_iff] at hr
    obtain ⟨_, -, hr⟩ := hr
    obtain ⟨r', hr', -⟩ := Option.map_eq_some_iff.mp hr
    rw [List.length_cons, List.length_cons, length_of_rateOverload (Option.isSome_iff_exists.mpr ⟨r', hr'⟩)]

theorem length_of_coercionTarget {sigs : List (List NumbaType)} {argtypes sig : List NumbaType}
    (h : coercionTarget sigs argtypes = some sig) : sig.length = argtypes.length := by
  unfold coercionTarget at h
  split at h
  · cases h
  · split at h
    · next sig' hs =>
      cases h
      have hmem : sig ∈ SigCache.resolveOverload sigs (argtypes.map some) := by rw [hs]; exact List.mem_singleton_self sig
      obtain ⟨c, hc, rfl⟩ := List.mem_map.mp hmem
      obtain ⟨sig', -, hrate⟩ := List.mem_filterMap.mp (List.mem_of_mem_filter hc)
      obtain ⟨rating, hr, rfl⟩ := Option.map_eq_some_iff.mp hrate
      exact length_of_rateOverload (Option.isSome_iff_exists.mpr ⟨rating, hr⟩)
    · cases h

variable (conv) in
theorem coerceToOverload_mapAll (sigs : List (List NumbaType)) {argtypes : List NumbaType} {args : List LaunchValue}
    (hlen : args.length = argtypes.length) : ∃ cs argtypes', cs.length = (flattenAll args).length ∧
      ∀ f, ∃ args', (coerceToOverload conv sigs (mapAll f args) argtypes).unzip = (args', argtypes') ∧
        flattenAll args' = List.zipWith (Coercion.apply conv) cs ((flattenAll args).map f) := by
  unfold coerceToOverload
  cases ht : coercionTarget sigs argtypes with
  | none =>
    refine ⟨List.replicate (flattenAll args).length .kept, argtypes, List.length_replicate, fun f => ⟨mapAll f args, ?_, ?_⟩⟩
    · exact List.unzip_zip (by rw [length_mapAll, hlen])
    · rw [flattenAll_mapAll]
      have h := zipWith_kept conv ((flattenAll args).map f)
      rwa [List.length_map, eq_comm] at h
  | some sig =>
    have hsig := length_of_coercionTarget ht
    refine ⟨coercionsAll sig argtypes args, (coerceArgs conv sig args argtypes).map (·.2), length_coercionsAll hsig hlen, fun f =>
      ⟨(coerceArgs conv sig (mapAll f args) argtypes).map (·.1), ?_, ?_⟩⟩
    · rw [List.unzip_eq_map, coerceArgs_snd]
    · rw [flattenAll_coerceArgs hsig (by rw [length_mapAll, hlen]), coercionsAll_mapAll, flattenAll_mapAll]

end

/-! ## Probes of whole launches -/

theorem number_deviceObj (arg : PyObj) : number (deviceObj arg) = number arg := by
  cases arg with
  | float cls bits => cases cls <;> rfl
  | _ => rfl

theorem isNumber_deviceObj {arg : PyObj} (h : IsNumber arg) : IsNumber (deviceObj arg) := by
  refine ⟨by rw [number_deviceObj]; exact h.1, fun single hs => h.2 single ?_⟩
  cases arg with
  | float cls bits => cases cls <;> cases hs
  | _ => exact hs

theorem probe_deviceObj (u : Int) (arg : PyObj) : deviceObj (probe u arg) = probe u (deviceObj arg) := by
  cases arg with
  | float cls bits => cases cls <;> rfl
  | _ => rfl

theorem probe_type (u : Int) (arg : PyObj) : (probe u arg).type = arg.type := by cases arg <;> rfl

theorem isNumber_probe {arg : PyObj} (h : IsNumber arg) (u : Int) : IsNumber (probe u arg) := by
  rcases isNumber_cases h with ⟨cls, v, rfl, -⟩ | ⟨n, rfl⟩ | ⟨_, _, rfl⟩ | ⟨_, rfl⟩ | ⟨_, rfl⟩
  · exact ⟨by rw [probe, number_long h.1]; rfl, nofun⟩
  · exact ⟨rfl, nofun⟩
  · exact ⟨rfl, nofun⟩
  · exact ⟨rfl, nofun⟩
  · refine ⟨rfl, fun single hs => ⟨0x3C00#16, ?_⟩⟩
    cases hs
    decide

/-- Integers that are typed as `uint64`. -/
def Unsigned (u : Int) : Prop := ¬ InInt64 u ∧ InUInt64 u

theorem unsigned_topSingle : Unsigned topSingle := ⟨by decide, by decide⟩

theorem unsigned_topDouble : Unsigned topDouble := ⟨by decide, by decide⟩

section
variable {u : Int} (hu : Unsigned u)
include hu

theorem typeofInt_probed {v : Int} (hv : InInt64 v ∨ InUInt64 v) : typeofInt (if InInt64 v then 1 else u) = typeofInt v := by
  by_cases h : InInt64 v
  · rw [if_pos h, typeofInt, typeofInt, if_pos h]
    rfl
  · rw [if_neg h, typeofInt, typeofInt, if_neg h, if_neg hu.1, if_pos hu.2, if_pos ((or_iff_right h).mp hv)]

theorem typeof_probe {arg : PyObj} (hn : IsNumber arg) (hv : OnLong (fun v => InInt64 v ∨ InUInt64 v) arg) :
    typeof (probe u arg) = typeof arg := by
  rcases isNumber_cases hn with ⟨cls, v, rfl, -⟩ | ⟨n, rfl⟩ | ⟨_, _, rfl⟩ | ⟨_, rfl⟩ | ⟨_, rfl⟩
  · cases cls with
    | int => exact typeofInt_probed hu hv
    | sub => exact typeofInt_probed hu hv
    | bool => cases hn.1
    | intEnum => cases hn.1
  all_goals rfl

theorem onLong_probe {arg : PyObj} {wide : Prop} (h : OnLong (fun v => InInt64 v ∨ wide ∧ InUInt64 v) arg) :
    OnLong (fun v => InInt64 v ∨ wide ∧ InUInt64 v) (probe u arg) := by
  cases arg with
  | long cls v =>
    change InInt64 (if InInt64 v then 1 else u) ∨ wide ∧ InUInt64 (if InInt64 v then 1 else u)
    by_cases hv : InInt64 v
    · rw [if_pos hv]
      exact .inl (by decide)
    · rw [if_neg hv]
      exact .inr ⟨((or_iff_right hv).mp h).1, hu.2⟩
  | _ => trivial

end

theorem inRange_of_typeof {arg : PyObj} (hn : IsNumber arg) (h : (typeof arg).isSome = true) :
    OnLong (fun v => InInt64 v ∨ InUInt64 v) arg := by
  have hint {v : Int} (h : (typeofInt v).isSome = true) : InInt64 v ∨ InUInt64 v := by
    by_contra hv
    rw [not_or] at hv
    rw [typeofInt, if_neg hv.1, if_neg hv.2] at h
    cases h
  rcases isNumber_cases hn with ⟨cls, v, rfl, -⟩ | ⟨n, rfl⟩ | ⟨_, _, rfl⟩ | ⟨_, rfl⟩ | ⟨_, rfl⟩
  · cases cls with
    | int => exact hint h
    | sub => exact hint h
    | bool => cases hn.1
    | intEnum => cases hn.1
  all_goals trivial

section
variable {conv : Conversions} {o : Overloads} {ctx : Context}

theorem apply_probe_type (c : Coercion) (u : Int) (arg : PyObj) : (c.apply conv (probe u arg)).type = (c.apply conv arg).type := by
  cases c with
  | kept => exact probe_type u arg
  | single => rfl
  | double => rfl

theorem classifyArg_probe (c : Coercion) {arg : PyObj} (hn : IsNumber arg) (u : Int) :
    classifyArg (c.apply conv (probe u arg)) = classifyArg (c.apply conv arg) := by
  cases c with
  | kept => rcases isNumber_cases hn with ⟨cls, v, rfl, -⟩ | ⟨n, rfl⟩ | ⟨_, _, rfl⟩ | ⟨_, rfl⟩ | ⟨_, rfl⟩ <;> rfl
  | single => rfl
  | double => rfl

theorem classified_of_classifyAll : ∀ {args : List PyObj} {classes : List (PythonArgKind × ParameterKind)},
    classifyAll args = some classes → Classified (classes.map (·.1)) args
  | [], _, h => by
    cases h
    exact .nil
  | arg :: args, _, h => by
    rw [classifyAll, Option.bind_eq_some_iff] at h
    obtain ⟨c, hc, h⟩ := h
    obtain ⟨cs, hcs, rfl⟩ := Option.map_eq_some_iff.mp h
    refine .cons ⟨c.2, ?_⟩ (classified_of_classifyAll hcs)
    cases ha : classifyArg arg with
    | error e => rw [ha] at hc; cases hc
    | ok c' => rw [ha] at hc; cases hc; rfl

variable (conv) in
theorem classes_probe (u : Int) : ∀ (cs : List Coercion) {args : List PyObj}, (∀ arg ∈ args, IsNumber arg) →
    classifyAll (List.zipWith (Coercion.apply conv) cs (args.map (probe u))) = classifyAll (List.zipWith (Coercion.apply conv) cs args) ∧
      (List.zipWith (Coercion.apply conv) cs (args.map (probe u))).map PyObj.type =
        (List.zipWith (Coercion.apply conv) cs args).map PyObj.type
  | [], _, _ => by simp
  | _ :: _, [], _ => by simp
  | c :: cs, arg :: args, h => by
    rw [List.forall_mem_cons] at h
    obtain ⟨hclass, htype⟩ := classes_probe u cs h.2
    rw [List.map_cons, List.zipWith_cons_cons, List.zipWith_cons_cons, classifyAll, classifyAll, classifyArg_probe c h.1, hclass,
      List.map_cons, List.map_cons, apply_probe_type, htype]
    exact ⟨rfl, rfl⟩

theorem marshalled_mapAll {args args' : List LaunchValue} {argtypes : List NumbaType}
    (h : marshalled conv o ctx args = some (args', argtypes)) : ∃ g cs, cs.length = (flattenAll args).length ∧
      (g = id ∧ (∀ c ∈ cs, c = .kept) ∨ g = deviceObj ∧ ∀ arg ∈ flattenAll args, (typeof (deviceObj arg)).isSome = true) ∧
      flattenAll args' = List.zipWith (Coercion.apply conv) cs ((flattenAll args).map g) ∧
      ∀ f : PyObj → PyObj, (∀ arg ∈ flattenAll args, (typeof (deviceObj arg)).isSome = true → typeof (deviceObj (f arg)) = typeof (deviceObj arg)) →
        ∃ args'', marshalled conv o ctx (mapAll f args) = some (args'', argtypes) ∧
          flattenAll args'' = List.zipWith (Coercion.apply conv) cs (((flattenAll args).map f).map g) := by
  unfold marshalled at h ⊢
  cases hc : ctx.cachedTypes with
  | some types =>
    rw [hc] at h
    cases h
    refine ⟨id, List.replicate (flattenAll args).length .kept, List.length_replicate, .inl ⟨rfl, fun c hc => List.eq_of_mem_replicate hc⟩, ?_,
      fun f _ => ⟨_, rfl, ?_⟩⟩
    · rw [List.map_id, zipWith_kept conv]
    · have hk := zipWith_kept conv ((flattenAll args).map f)
      rw [List.length_map] at hk
      rw [List.map_id, flattenAll_mapAll, hk]
  | none =>
    rw [hc] at h
    obtain ⟨types, ht, h⟩ := Option.map_eq_some_iff.mp h
    simp only [toDeviceItems_eq, mapAll_mapAll] at h ht ⊢
    have hlen : args.length = types.length := (length_mapAll deviceObj args).symm.trans (length_of_typeofAll ht)
    obtain ⟨cs, types', hcs, hall⟩ := coerceToOverload_mapAll conv (o.signatures ctx.launchConfig) hlen
    have htyped : ∀ arg ∈ flattenAll args, (typeof (deviceObj arg)).isSome = true := by
      intro arg ha
      have hmem : deviceObj arg ∈ flattenAll (mapAll deviceObj args) := by
        rw [flattenAll_mapAll]
        exact List.mem_map_of_mem ha
      obtain ⟨t, hty⟩ := LaunchValue.typeofAll_flatten ht _ hmem
      rw [hty]
      rfl
    obtain ⟨args₁, hunzip, hflat⟩ := hall deviceObj
    rw [h] at hunzip
    cases hunzip
    refine ⟨deviceObj, cs, hcs, .inr ⟨rfl, htyped⟩, hflat, fun f hf => ?_⟩
    obtain ⟨args₂, hunzip', hflat'⟩ := hall (deviceObj ∘ f)
    have htypes : typeofAll (mapAll (deviceObj ∘ f) args) = some types :=
      (typeofAll_mapAll fun arg ha => hf arg ha (htyped arg ha)).trans ht
    exact ⟨args₂, by rw [htypes, Option.map_some, hunzip'], by rw [hflat', List.map_map]⟩

/-- The kernel that the native dispatcher has for a launch, or `_compile_impl` finds for it. -/
def kernelFor (d : NativeDispatcher o ctx.launchConfig) (req : Request) (constants : List ConstantArg) : Option Overload :=
  (d.kernels.lookup (req.profile.family, constants)).or (o.compileImpl ctx.launchConfig req.argtypes req.args)

theorem select_spec (d : NativeDispatcher o ctx.launchConfig) (req : Request) (constants : List ConstantArg) :
    (select o ctx d req constants).map (·.1) = kernelFor d req constants := by
  unfold select kernelFor
  cases d.kernels.lookup (req.profile.family, constants) with
  | some kernel => rfl
  | none =>
    simp only [Option.none_or]
    split
    · next h => exact h.symm
    · next h => exact h.symm

theorem chosen_of_kernelFor {d : NativeDispatcher o ctx.launchConfig} {req : Request} {constants : List ConstantArg} {kernel : Overload}
    (h : kernelFor d req constants = some kernel) : ∃ argtypes values, o.compileImpl ctx.launchConfig argtypes values = some kernel := by
  rcases Option.or_eq_some_iff.mp h with h | ⟨-, h⟩
  · exact d.chosen _ (mem_of_lookup h)
  · exact ⟨_, _, h⟩

theorem launch_eq_some {d : NativeDispatcher o ctx.launchConfig} {args : List LaunchValue} {l : Launched o ctx}
    (h : launch conv o ctx d args = some l) : ∃ req, request conv o ctx args = some req ∧
      prepareParams ctx.driver req.profile (flattenAll req.args) ctx.helper = .ok l.params ∧
      kernelFor d req l.params.constants = some l.kernel := by
  unfold launch at h
  obtain ⟨req, hreq, h⟩ := Option.bind_eq_some_iff.mp h
  obtain ⟨params, hparams, h⟩ := Option.bind_eq_some_iff.mp h
  obtain ⟨⟨kernel, d'⟩, hsel, rfl⟩ := Option.map_eq_some_iff.mp h
  refine ⟨req, hreq, ?_, ?_⟩
  · cases hp : prepareParams ctx.driver req.profile (flattenAll req.args) ctx.helper with
    | error e => rw [hp] at hparams; cases hparams
    | ok p => rw [hp] at hparams; cases hparams; rfl
  · rw [← select_spec, hsel]
    rfl

theorem launch_of {d : NativeDispatcher o ctx.launchConfig} {args : List LaunchValue} {req : Request} {params : LaunchParams}
    {kernel : Overload} (hreq : request conv o ctx args = some req)
    (hparams : prepareParams ctx.driver req.profile (flattenAll req.args) ctx.helper = .ok params)
    (hk : kernelFor d req params.constants = some kernel) : ∃ l, launch conv o ctx d args = some l ∧ l.params = params ∧ l.kernel = kernel := by
  rw [← select_spec] at hk
  obtain ⟨⟨kernel, d'⟩, hsel, rfl⟩ := Option.map_eq_some_iff.mp hk
  exact ⟨⟨kernel, params, d'⟩, by rw [launch, hreq, Option.bind_some, hparams, Except.toOption, Option.bind_some, hsel]; rfl, rfl, rfl⟩

theorem request_spec {args : List LaunchValue} {req : Request} (h : request conv o ctx args = some req) :
    marshalled conv o ctx args = some (req.args, req.argtypes) ∧
      ((ctx.prelaunch ∨ ctx.launchConfig.isSome) → (o.compileResult ctx.launchConfig req.argtypes req.args).isSome = true) ∧
      ∃ classes, classifyAll (flattenAll req.args) = some classes ∧
        req.profile = newProfile ⟨List.replicate o.literalArgFlags.length false, o.literalArgFlags⟩ (pyargTypes req.args) classes := by
  unfold request at h
  obtain ⟨⟨args', argtypes⟩, hm, h⟩ := Option.bind_eq_some_iff.mp h
  simp only at h
  split at h
  · cases h
  · next hpre =>
    obtain ⟨classes, hc, rfl⟩ := Option.map_eq_some_iff.mp h
    refine ⟨hm, fun hp => ?_, classes, hc, rfl⟩
    cases hr : o.compileResult ctx.launchConfig argtypes args' with
    | some r => rfl
    | none => exact absurd ⟨hp, by rw [hr]; rfl⟩ hpre

end

/-! ## Without literal positions -/

section
variable {o : Overloads} (ho : true ∉ o.literalArgFlags)
include ho

theorem literalized_eq (argtypes : List NumbaType) (values : List LaunchValue) : o.literalized argtypes values = some argtypes :=
  if_pos ho

theorem compileImpl_values (config : Option LaunchConfig) (argtypes : List NumbaType) (values values' : List LaunchValue) :
    o.compileImpl config argtypes values = o.compileImpl config argtypes values' := by
  unfold Overloads.compileImpl
  rw [literalized_eq ho, literalized_eq ho]

theorem compileResult_values (config : Option LaunchConfig) (argtypes : List NumbaType) (values values' : List LaunchValue) :
    o.compileResult config argtypes values = o.compileResult config argtypes values' := by
  unfold Overloads.compileResult
  rw [literalized_eq ho, literalized_eq ho]

end

theorem effectiveConstantArgFlags_nil : ∀ types : List PyType, true ∉ effectiveConstantArgFlags [] [] types
  | [] => List.not_mem_nil
  | _ :: types => List.not_mem_cons_of_ne_of_not_mem (by decide) (effectiveConstantArgFlags_nil types)

theorem effectiveConstantArgFlags_plain : ∀ {n : Nat} {literals : List Bool}, true ∉ literals → ∀ types : List PyType,
    true ∉ effectiveConstantArgFlags (List.replicate n false) literals types
  | _, _, _, [] => List.not_mem_nil
  | n + 1, l :: ls, h, ty :: types => by
    rw [List.mem_cons, not_or] at h
    rw [List.replicate_succ, effectiveConstantArgFlags, Bool.false_or, Bool.eq_false_iff.mpr (Ne.symm h.1), Bool.false_and]
    exact List.not_mem_cons_of_ne_of_not_mem (by decide) (effectiveConstantArgFlags_plain h.2 types)
  | 0, [], _, _ :: types | 0, _ :: _, _, _ :: types | _ + 1, [], _, _ :: types =>
    List.not_mem_cons_of_ne_of_not_mem (by decide) (effectiveConstantArgFlags_nil types)

/-! ## The theorem -/

section
variable {conv : Conversions} {o : Overloads} {ctx : Context}

def numbers (args : List LaunchValue) : List (Option Number) := (flattenAll args).map number

variable (conv o ctx)

/-- Each declared type of the kernel fits the number and the object that is launched for it. -/
def Fits (d : NativeDispatcher o ctx.launchConfig) (args : List LaunchValue) : Prop :=
  ∀ req params kernel, request conv o ctx args = some req →
    prepareParams ctx.driver req.profile (flattenAll req.args) ctx.helper = .ok params →
    kernelFor d req params.constants = some kernel →
    List.Forall₂ (fun t p => LeafFits t p.1 p.2) (leavesAll kernel.args) ((numbers args).zip (flattenAll req.args))

/-- A launch raises, or it runs a kernel that the rules of the overloads chose, which reads each number that was passed. -/
def Converted (d : NativeDispatcher o ctx.launchConfig) (args : List LaunchValue) : Prop :=
  ∀ l, launch conv o ctx d args = some l →
    (∃ argtypes values, o.compileImpl ctx.launchConfig argtypes values = some l.kernel) ∧
    l.params.cuargPointers = (List.range (flattenAll args).length).map .slot ∧
    List.Forall₂ (fun t p => Reads conv t p.1 p.2) (leavesAll l.kernel.args) ((numbers args).zip l.params.cuargs)

def SameTypes (args args' : List LaunchValue) : Prop := pyargTypes args' = pyargTypes args ∧ typeofAll args' = typeofAll args

variable {conv o ctx}

theorem number_apply (c : Coercion) {arg : PyObj} (h : IsNumber arg) : (number (c.apply conv arg)).isSome = true := by
  cases c with
  | kept => exact h.1
  | single => rfl
  | double => rfl

theorem forall_zipWith_apply {P : PyObj → Prop} : ∀ {cs : List Coercion} {base : List PyObj},
    (∀ arg ∈ base, ∀ c ∈ cs, P (Coercion.apply conv c arg)) → ∀ arg ∈ List.zipWith (Coercion.apply conv) cs base, P arg
  | [], _, _, _, h | _ :: _, [], _, _, h => by simp at h
  | c :: cs, arg :: base, hall, x, h => by
    rw [List.zipWith_cons_cons, List.mem_cons] at h
    rcases h with rfl | h
    · exact hall arg List.mem_cons_self c List.mem_cons_self
    · exact forall_zipWith_apply (fun a ha c hc => hall a (List.mem_cons_of_mem _ ha) c (List.mem_cons_of_mem _ hc)) x h

theorem longArgs_probe {u : Int} (hu : Unsigned u) {wide : Prop} : ∀ {cs : List Coercion} {base : List PyObj},
    LongArgs (fun v => InInt64 v ∨ wide ∧ InUInt64 v) (List.zipWith (Coercion.apply conv) cs base) →
    LongArgs (fun v => InInt64 v ∨ wide ∧ InUInt64 v) (List.zipWith (Coercion.apply conv) cs (base.map (probe u)))
  | [], _, _ => List.forall_mem_nil _
  | _ :: _, [], _ => List.forall_mem_nil _
  | c :: cs, arg :: base, h => by
    rw [List.zipWith_cons_cons, longArgs_cons] at h
    rw [List.map_cons, List.zipWith_cons_cons, longArgs_cons]
    refine ⟨?_, longArgs_probe hu h.2⟩
    cases c with
    | kept => exact onLong_probe hu h.1
    | single => trivial
    | double => trivial

theorem classified_request {args : List LaunchValue} {req : Request} (h : request conv o ctx args = some req) :
    Classified req.profile.argKinds (flattenAll req.args) := by
  obtain ⟨-, -, classes, hc, hprofile⟩ := request_spec h
  rw [hprofile]
  exact classified_of_classifyAll hc

theorem plain_request {args : List LaunchValue} {req : Request} (h : request conv o ctx args = some req) (ho : true ∉ o.literalArgFlags) :
    true ∉ req.profile.constantArgFlags := by
  obtain ⟨-, -, classes, -, hprofile⟩ := request_spec h
  rw [hprofile]
  exact effectiveConstantArgFlags_plain ho _

theorem request_parts {args : List LaunchValue} {req : Request} (hargs : ∀ arg ∈ flattenAll args, IsNumber arg)
    (hreq : request conv o ctx args = some req) : ∃ base cs, cs.length = base.length ∧ base.length = (flattenAll args).length ∧
      (∀ arg ∈ base, IsNumber arg) ∧ base.map number = numbers args ∧ flattenAll req.args = List.zipWith (Coercion.apply conv) cs base ∧
      (LongArgs (fun v => InInt64 v ∨ InUInt64 v) (flattenAll req.args) → LongArgs (fun v => InInt64 v ∨ InUInt64 v) (flattenAll args)) ∧
      ∀ u, Unsigned u → true ∉ o.literalArgFlags → ∃ req', request conv o ctx (mapAll (probe u) args) = some req' ∧
        req'.argtypes = req.argtypes ∧ req'.profile = req.profile ∧ (numbers (mapAll (probe u) args) = (base.map (probe u)).map number) ∧
        flattenAll req'.args = List.zipWith (Coercion.apply conv) cs (base.map (probe u)) := by
  obtain ⟨hm, hpre, classes, hc, hprofile⟩ := request_spec hreq
  obtain ⟨g, cs, hlen, hg, hflat, hmap⟩ := marshalled_mapAll hm
  have hgnum : ∀ arg, number (g arg) = number arg := by
    rcases hg with ⟨rfl, -⟩ | ⟨rfl, -⟩
    · exact fun _ => rfl
    · exact number_deviceObj
  have hgprobe : ∀ u arg, g (probe u arg) = probe u (g arg) := by
    rcases hg with ⟨rfl, -⟩ | ⟨rfl, -⟩
    · exact fun _ _ => rfl
    · exact probe_deviceObj
  have hbase : ∀ arg ∈ (flattenAll args).map g, IsNumber arg := by
    intro x hx
    obtain ⟨arg, ha, rfl⟩ := List.mem_map.mp hx
    rcases hg with ⟨rfl, -⟩ | ⟨rfl, -⟩
    · exact hargs arg ha
    · exact isNumber_deviceObj (hargs arg ha)
  refine ⟨(flattenAll args).map g, cs, by rw [hlen, List.length_map], List.length_map .., hbase, ?_, hflat, ?_,
    fun u hu ho => ?_⟩
  · rw [numbers, List.map_map]
    exact List.map_congr_left fun arg _ => hgnum arg
  · intro hl
    rcases hg with ⟨rfl, hkept⟩ | ⟨rfl, htyped⟩
    · have hcs : cs = List.replicate (flattenAll args).length .kept := List.eq_replicate_iff.mpr ⟨hlen, hkept⟩
      rwa [hflat, List.map_id, hcs, zipWith_kept conv] at hl
    · intro arg ha
      have hrange := inRange_of_typeof (isNumber_deviceObj (hargs arg ha)) (htyped arg ha)
      cases arg with
      | long cls v => exact hrange
      | _ => trivial
  · obtain ⟨args'', hm', hflat'⟩ := hmap (probe u) fun arg ha ht => by
      rw [probe_deviceObj]
      exact typeof_probe hu (isNumber_deviceObj (hargs arg ha)) (inRange_of_typeof (isNumber_deviceObj (hargs arg ha)) ht)
    have hflat'' : flattenAll args'' = List.zipWith (Coercion.apply conv) cs (((flattenAll args).map g).map (probe u)) := by
      rw [hflat', List.map_map, List.map_map]
      exact congrArg _ (List.map_congr_left fun arg _ => hgprobe u arg)
    obtain ⟨hclasses, htypes⟩ := classes_probe conv u cs hbase
    rw [← hflat, ← hflat''] at hclasses htypes
    refine ⟨⟨args'', req.argtypes, req.profile⟩, ?_, rfl, rfl, ?_, hflat''⟩
    · unfold request
      rw [hm', Option.bind_some]
      have hready : ¬ ((ctx.prelaunch ∨ ctx.launchConfig.isSome) ∧ (o.compileResult ctx.launchConfig req.argtypes args'').isNone) := by
        intro ⟨hp, hnone⟩
        have hsome := hpre hp
        rw [compileResult_values ho _ _ _ args''] at hsome
        rw [Option.isNone_iff_eq_none] at hnone
        rw [hnone] at hsome
        cases hsome
      simp only [if_neg hready]
      rw [hclasses, hc, Option.map_some, hprofile, pyargTypes, htypes, ← pyargTypes]
    · rw [numbers, flattenAll_mapAll, List.map_map, List.map_map, List.map_map]
      exact List.map_congr_left fun arg _ => by rw [Function.comp_apply, Function.comp_apply, Function.comp_apply, ← hgprobe, hgnum]

theorem forall₂_reads {ts : List NumbaType} {cs : List Coercion} {base : List PyObj} {slots : List CudaArg} (hlen : cs.length = base.length)
    (hbase : ∀ arg ∈ base, IsNumber arg) (hw : List.Forall₂ Wrote (List.zipWith (Coercion.apply conv) cs base) slots)
    (h : List.Forall₂ (fun t p => LeafFits t p.1 p.2) ts ((base.map number).zip (List.zipWith (Coercion.apply conv) cs base))) :
    List.Forall₂ (fun t p => Reads conv t p.1 p.2) ts ((base.map number).zip slots) := by
  induction base generalizing ts cs slots with
  | nil =>
    cases cs with
    | nil => cases h; exact .nil
    | cons c cs => cases hlen
  | cons arg base ih =>
    cases cs with
    | nil => cases hlen
    | cons c cs =>
      rw [List.forall_mem_cons] at hbase
      cases hw with
      | cons hw hws =>
        cases h with
        | cons h hs => exact .cons (reads_of_fits hbase.1 hw h) (ih (Nat.succ.inj hlen) hbase.2 hws hs)

theorem forall₂_fits {ts : List NumbaType} {cs : List Coercion} {base : List PyObj} {slots slots' slots'' : List CudaArg}
    (hlen : cs.length = base.length) (hbase : ∀ arg ∈ base, IsNumber arg)
    (hw : List.Forall₂ Wrote (List.zipWith (Coercion.apply conv) cs base) slots)
    (hw' : List.Forall₂ Wrote (List.zipWith (Coercion.apply conv) cs (base.map (probe topSingle))) slots')
    (hw'' : List.Forall₂ Wrote (List.zipWith (Coercion.apply conv) cs (base.map (probe topDouble))) slots'')
    (h : List.Forall₂ (fun t p => Reads conv t p.1 p.2) ts ((base.map number).zip slots))
    (h' : List.Forall₂ (fun t p => Reads conv t p.1 p.2) ts (((base.map (probe topSingle)).map number).zip slots'))
    (h'' : List.Forall₂ (fun t p => Reads conv t p.1 p.2) ts (((base.map (probe topDouble)).map number).zip slots'')) :
    List.Forall₂ (fun t p => LeafFits t p.1 p.2) ts ((base.map number).zip (List.zipWith (Coercion.apply conv) cs base)) := by
  induction base generalizing ts cs slots slots' slots'' with
  | nil =>
    cases cs with
    | nil => cases h; exact .nil
    | cons c cs => cases hlen
  | cons arg base ih =>
    cases cs with
    | nil => cases hlen
    | cons c cs =>
      rw [List.forall_mem_cons] at hbase
      cases hw with
      | cons hw hws =>
        cases hw' with
        | cons hw' hws' =>
          cases hw'' with
          | cons hw'' hws'' =>
            cases h with
            | cons h hs =>
              cases h' with
              | cons h' hs' =>
                cases h'' with
                | cons h'' hs'' =>
                  exact .cons (fits_of_reads hbase.1 hw hw' hw'' h h' h'') (ih (Nat.succ.inj hlen) hbase.2 hws hws' hws'' hs hs' hs'')

theorem converted_of_fits {d : NativeDispatcher o ctx.launchConfig} {args : List LaunchValue} (hargs : ∀ arg ∈ flattenAll args, IsNumber arg)
    (hfits : Fits conv o ctx d args) : Converted conv o ctx d args := by
  intro l hl
  obtain ⟨req, hreq, hparams, hk⟩ := launch_eq_some hl
  obtain ⟨base, cs, hlen, hbaselen, hbase, hnumbers, hflat, -⟩ := request_parts hargs hreq
  have hnum : ∀ arg ∈ flattenAll req.args, (number arg).isSome = true := by
    rw [hflat]
    exact forall_zipWith_apply fun arg ha c _ => number_apply c (hbase arg ha)
  obtain ⟨hw, hptr, -⟩ := prepareParams_wrote (classified_request hreq) hnum hparams
  have h := hfits req l.params l.kernel hreq hparams hk
  rw [hflat] at hw h
  rw [← hnumbers] at h ⊢
  refine ⟨chosen_of_kernelFor hk, ?_, forall₂_reads hlen hbase hw h⟩
  rw [hptr, hflat, List.length_zipWith, hlen, Nat.min_self, hbaselen]

theorem numbers_of_parts {req : Request} {base : List PyObj} {cs : List Coercion} (hbase : ∀ arg ∈ base, IsNumber arg)
    (hflat : flattenAll req.args = List.zipWith (Coercion.apply conv) cs base) : ∀ arg ∈ flattenAll req.args, (number arg).isSome = true := by
  rw [hflat]
  exact forall_zipWith_apply fun arg ha c _ => number_apply c (hbase arg ha)

theorem launch_probe {d : NativeDispatcher o ctx.launchConfig} {args args' : List LaunchValue} {req req' : Request} {params : LaunchParams}
    {kernel : Overload} {base : List PyObj} {cs : List Coercion} {u : Int} (ho : true ∉ o.literalArgFlags) (hu : Unsigned u)
    (hbase : ∀ arg ∈ base, IsNumber arg) (hreq : request conv o ctx args = some req)
    (hflat : flattenAll req.args = List.zipWith (Coercion.apply conv) cs base)
    (hparams : prepareParams ctx.driver req.profile (flattenAll req.args) ctx.helper = .ok params)
    (hk : kernelFor d req params.constants = some kernel) (hreq' : request conv o ctx args' = some req')
    (htypes : req'.argtypes = req.argtypes) (hprofile : req'.profile = req.profile)
    (hflat' : flattenAll req'.args = List.zipWith (Coercion.apply conv) cs (base.map (probe u))) :
    ∃ l, launch conv o ctx d args' = some l ∧ l.kernel = kernel ∧
      List.Forall₂ Wrote (List.zipWith (Coercion.apply conv) cs (base.map (probe u))) l.params.cuargs := by
  have hprobe : ∀ arg ∈ base.map (probe u), IsNumber arg := by
    intro x hx
    obtain ⟨arg, ha, rfl⟩ := List.mem_map.mp hx
    exact isNumber_probe (hbase arg ha) u
  have hnum := numbers_of_parts hbase hflat
  have hnum' := numbers_of_parts hprobe hflat'
  have hclass := classified_request hreq
  have hclass' := classified_request hreq'
  have hlong := (prepareParams_ok_iff hclass hnum).mp ⟨params, hparams⟩
  rw [hflat] at hlong
  obtain ⟨params', hparams'⟩ := (prepareParams_ok_iff hclass' hnum').mpr (by
    rw [hflat', hprofile]
    exact longArgs_probe hu hlong)
  obtain ⟨-, -, hconst⟩ := prepareParams_wrote hclass hnum hparams
  obtain ⟨hw', -, hconst'⟩ := prepareParams_wrote hclass' hnum' hparams'
  -- Neither has constants, so both have the key of the family.
  have hk' : kernelFor d req' params'.constants = some kernel := by
    rw [hconst (plain_request hreq ho)] at hk
    rw [hconst' (plain_request hreq' ho)]
    unfold kernelFor at hk ⊢
    rw [htypes, hprofile, compileImpl_values ho _ _ req'.args req.args]
    exact hk
  obtain ⟨l, hl, rfl, rfl⟩ := launch_of hreq' hparams' hk'
  exact ⟨l, hl, rfl, hflat' ▸ hw'⟩

theorem sameTypes_probe {u : Int} (hu : Unsigned u) {args : List LaunchValue} (hargs : ∀ arg ∈ flattenAll args, IsNumber arg)
    (hl : LongArgs (fun v => InInt64 v ∨ InUInt64 v) (flattenAll args)) :
    SameTypes args (mapAll (probe u) args) ∧ ∀ arg ∈ flattenAll (mapAll (probe u) args), IsNumber arg := by
  have htypes : typeofAll (mapAll (probe u) args) = typeofAll (mapAll id args) :=
    typeofAll_mapAll fun arg ha => typeof_probe hu (hargs arg ha) (hl arg ha)
  rw [mapAll_id] at htypes
  refine ⟨⟨?_, htypes⟩, fun x hx => ?_⟩
  · rw [pyargTypes, flattenAll_mapAll, List.map_map, pyargTypes]
    exact List.map_congr_left fun arg _ => probe_type u arg
  · rw [flattenAll_mapAll] at hx
    obtain ⟨arg, ha, rfl⟩ := List.mem_map.mp hx
    exact isNumber_probe (hargs arg ha) u

theorem fits_of_converted {d : NativeDispatcher o ctx.launchConfig} {args : List LaunchValue} (hargs : ∀ arg ∈ flattenAll args, IsNumber arg)
    (ho : true ∉ o.literalArgFlags)
    (hall : ∀ args', SameTypes args args' → (∀ arg ∈ flattenAll args', IsNumber arg) → Converted conv o ctx d args') :
    Fits conv o ctx d args := by
  intro req params kernel hreq hparams hk
  obtain ⟨base, cs, hlen, hbaselen, hbase, hnumbers, hflat, hrange, hprobe⟩ := request_parts hargs hreq
  have hnum := numbers_of_parts hbase hflat
  have hlong : LongArgs (fun v => InInt64 v ∨ InUInt64 v) (flattenAll args) := by
    refine hrange fun arg ha => ?_
    have h := (prepareParams_ok_iff (classified_request hreq) hnum).mp ⟨params, hparams⟩ arg ha
    cases arg with
    | long cls v => exact Or.imp_right And.right h
    | _ => trivial
  obtain ⟨hw, -, -⟩ := prepareParams_wrote (classified_request hreq) hnum hparams
  obtain ⟨l, hl, rfl, rfl⟩ := launch_of hreq hparams hk
  obtain ⟨-, -, h⟩ := hall args ⟨rfl, rfl⟩ hargs l hl
  -- The same kernel reads the probes.
  have hread (u : Int) (hu : Unsigned u) : ∃ slots, List.Forall₂ Wrote (List.zipWith (Coercion.apply conv) cs (base.map (probe u))) slots ∧
      List.Forall₂ (fun t p => Reads conv t p.1 p.2) (leavesAll l.kernel.args) (((base.map (probe u)).map number).zip slots) := by
    obtain ⟨req', hreq', htypes, hprofile, hnumbers', hflat'⟩ := hprobe u hu ho
    obtain ⟨l', hl', hkernel, hw'⟩ := launch_probe ho hu hbase hreq hflat hparams hk hreq' htypes hprofile hflat'
    obtain ⟨hsame, hargs'⟩ := sameTypes_probe hu hargs hlong
    obtain ⟨-, -, h'⟩ := hall _ hsame hargs' l' hl'
    exact ⟨_, hw', by rw [← hnumbers', ← hkernel]; exact h'⟩
  obtain ⟨slots', hw', h'⟩ := hread topSingle unsigned_topSingle
  obtain ⟨slots'', hw'', h''⟩ := hread topDouble unsigned_topDouble
  rw [hflat] at hw ⊢
  rw [← hnumbers] at h ⊢
  exact forall₂_fits hlen hbase hw hw' hw'' h h' h''

/-- **Launches of explicit signatures.** A launch of numbers whose kernel declares, for each of them, a type that fits the object it is
launched as, raises or passes every number as the declared type; where a declared type does not fit, a launch of arguments of the same
classes and types does not. -/
theorem explicit_launch_converts (conv : Conversions) (o : Overloads) (ctx : Context) (d : NativeDispatcher o ctx.launchConfig)
    (args : List LaunchValue) (hargs : ∀ arg ∈ flattenAll args, IsNumber arg) :
    (Fits conv o ctx d args → Converted conv o ctx d args) ∧
      (true ∉ o.literalArgFlags → ¬ Fits conv o ctx d args →
        ∃ args', SameTypes args args' ∧ (∀ arg ∈ flattenAll args', IsNumber arg) ∧ ¬ Converted conv o ctx d args') := by
  refine ⟨converted_of_fits hargs, fun ho hfits => ?_⟩
  by_contra hnone
  refine hfits (fits_of_converted hargs ho fun args' hsame hargs' => ?_)
  by_contra hconv
  exact hnone ⟨args', hsame, hargs', hconv⟩

end

/-! ## A kernel of one `int32` -/

open BinaryFloat (Format Value decode) in
/-- The number in a format: a float of it is kept, and others are rounded as integers. -/
noncomputable def rounded (f : Format) : Number → Value
  | .int n => BinaryFloat.ofInt f n
  | .float (.finite q) => open Classical in if ∃ n, decode f n = .finite q then .finite q else BinaryFloat.ofInt f q.floor
  | .float x => x

open BinaryFloat (Format decode) in
theorem exists_rounded {f : Format} (hf : f.Interchange) (hp : 1 < f.precision) (x : Number) : ∃ m < 2 ^ f.bits, decode f m = rounded f x := by
  cases x with
  | int n => exact BinaryFloat.decode_ofInt hf n
  | float x => cases x with
    | finite q =>
      simp only [rounded]
      by_cases h : ∃ n, decode f n = .finite q
      · obtain ⟨n, hn⟩ := h
        rw [if_pos ⟨n, hn⟩]
        exact ⟨n % 2 ^ f.bits, Nat.mod_lt _ (Nat.two_pow_pos _), (BinaryFloat.decode_mod f n).trans hn⟩
      · rw [if_neg h]
        exact BinaryFloat.decode_ofInt hf _
    | infinity negative => exact (BinaryFloat.decode_special f).1 negative
    | nan => exact (BinaryFloat.decode_special f).2 hp

noncomputable def roundedBits {f : BinaryFloat.Format} (hf : f.Interchange) (hp : 1 < f.precision) (arg : PyObj) : Nat :=
  ((number arg).map fun x => (exists_rounded hf hp x).choose).getD 0

open BinaryFloat (Format decode) in
theorem roundedBits_spec {f : Format} (hf : f.Interchange) (hp : 1 < f.precision) {arg : PyObj} {x : Number} (hx : number arg = some x) :
    roundedBits hf hp arg < 2 ^ f.bits ∧ decode f (roundedBits hf hp arg) = rounded f x := by
  rw [roundedBits, hx]
  exact (exists_rounded hf hp x).choose_spec

open BinaryFloat in
noncomputable def Conversions.exact : Conversions where
  toInt := fun
    | .int n => n
    | .float (.finite q) => q.num.tdiv q.den
    | .float _ => 0
  toFloat := rounded
  pyFloat := fun arg => .ofNat 64 (roundedBits interchange_binary64 (by decide) arg)
  npFloat32 := fun arg => .ofNat 32 (roundedBits interchange_binary32 (by decide) arg)
  toInt_int := fun _ => rfl
  toInt_finite := fun n => by simp
  toFloat_int := fun f n h => (ofInt_eq_finite_iff f n).mpr h
  toFloat_overflow := fun f _ h => ofInt_overflow f h
  toFloat_float := fun f n => by
    unfold rounded
    split
    · next h => cases h
    · next q h =>
      rw [if_pos ⟨n, Number.float.inj h⟩]
      exact (Number.float.inj h).symm
    · next x _ h => exact (Number.float.inj h).symm
  pyFloat_spec := fun arg x hx => by
    obtain ⟨hlt, hdec⟩ := roundedBits_spec interchange_binary64 (by decide) hx
    rw [BitVec.toNat_ofNat, Nat.mod_eq_of_lt (show _ < 2 ^ 64 from hlt), hdec]
  npFloat32_spec := fun arg x hx => by
    obtain ⟨hlt, hdec⟩ := roundedBits_spec interchange_binary32 (by decide) hx
    rw [BitVec.toNat_ofNat, Nat.mod_eq_of_lt (show _ < 2 ^ 32 from hlt), hdec]

def int32 : NumbaType := .scalar (.integer true .s4)

def int32Overloads : Overloads := ⟨[false], ⟨[([int32], ⟨0, [int32]⟩)], by simp⟩, .empty⟩

def plainContext : Context := ⟨none, false, none, .idle, .empty⟩

def newDispatcher : NativeDispatcher int32Overloads plainContext.launchConfig := ⟨[], List.forall_mem_nil _⟩

def oneArgument : List LaunchValue := [.leaf (.float .float one64)]

def oneRequest : Request := ⟨oneArgument, [float64], ⟨[.float], [.pyFloat], [false]⟩⟩

/-- The bits of `1.0` reach the `int32` parameter, which reads zero. -/
theorem float_reaches_int32 : ¬ Converted Conversions.exact int32Overloads plainContext newDispatcher oneArgument := by
  intro h
  have hreq : request Conversions.exact int32Overloads plainContext oneArgument = some oneRequest := rfl
  have hk : kernelFor newDispatcher oneRequest [] = some ⟨0, [int32]⟩ := rfl
  have hp : prepareParams plainContext.driver oneRequest.profile (flattenAll oneRequest.args) plainContext.helper =
    .ok ⟨[one64], [.slot 0], []⟩ := rfl
  obtain ⟨l, hl, hparams, hkernel⟩ := launch_of hreq hp hk
  obtain ⟨-, -, hread⟩ := h l hl
  rw [hparams, hkernel] at hread
  cases hread with
  | cons hread _ =>
    obtain ⟨x, hx, -, hslot⟩ := hread
    cases hx
    rw [decode_one64, (stands_one Conversions.exact).toInt] at hslot
    exact absurd hslot (by decide)

def sevenArgument : List LaunchValue := [.leaf (.long .int 7)]

def sevenRequest : Request := ⟨sevenArgument, [int64], ⟨[.integer], [.pyLong], [false]⟩⟩

theorem explicit_launch_int32 : Converted Conversions.exact int32Overloads plainContext newDispatcher sevenArgument := by
  have hargs : ∀ arg ∈ flattenAll sevenArgument, IsNumber arg := by
    intro arg ha
    cases List.mem_singleton.mp ha
    exact ⟨rfl, nofun⟩
  refine (explicit_launch_converts Conversions.exact int32Overloads plainContext newDispatcher sevenArgument hargs).1 ?_
  intro req params kernel hreq hparams hk
  have hreq' : request Conversions.exact int32Overloads plainContext sevenArgument = some sevenRequest := rfl
  cases hreq'.symm.trans hreq
  cases hparams
  have hk' : kernelFor newDispatcher sevenRequest [] = some ⟨0, [int32]⟩ := rfl
  cases hk'.symm.trans hk
  exact .cons (show (4 : Nat) ≤ 8 by decide) .nil

end NumbaCudaMlir.ExplicitLaunch

import NumbaCudaMlir.Overload

/-!
# Soundness of overload lookup

The lookups of `_compile_result_for` and of `_find_launch_config_overload_locked`
choose one overload: that of exactly the types, and else the first reusable one
in the order of compilation. The generic branch of `_compile_impl` always takes
the first reusable one.
-/

namespace NumbaCudaMlir

section
variable {α : Type}

def atLaunchConfig (overloads : Dict (List NumbaType × LaunchConfig) α) (key : LaunchConfig) :
    Dict (List NumbaType) α where
  entries := overloads.entries.filterMap fun e => if e.1.2 = key then some (e.1.1, e.2) else none
  nodup := by
    have h := overloads.nodup
    generalize overloads.entries = es at h ⊢
    induction es with
    | nil => exact List.nodup_nil
    | cons e es ih =>
      rw [List.map_cons, List.nodup_cons] at h
      rw [List.filterMap_cons]
      by_cases he : e.1.2 = key
      · simp only [if_pos he, List.map_cons, List.nodup_cons]
        refine ⟨fun hmem => h.1 ?_, ih h.2⟩
        obtain ⟨x, hx, hfst⟩ := List.mem_map.mp hmem
        obtain ⟨y, hy, hyx⟩ := List.mem_filterMap.mp hx
        split at hyx
        · next hk =>
          cases hyx
          have : y.1 = e.1 := Prod.ext hfst (hk.trans he.symm)
          exact this ▸ List.mem_map_of_mem hy
        · cases hyx
      · simp only [if_neg he]
        exact ih h.2

theorem mem_atLaunchConfig {overloads : Dict (List NumbaType × LaunchConfig) α} {key : LaunchConfig}
    {sig : List NumbaType} {r : α} :
    (sig, r) ∈ (atLaunchConfig overloads key).entries ↔ ((sig, key), r) ∈ overloads.entries := by
  simp only [atLaunchConfig, List.mem_filterMap]
  constructor
  · rintro ⟨⟨⟨sig', key'⟩, r'⟩, he, h⟩
    split at h
    · next hk => cases h; cases hk; exact he
    · cases h
  · intro h
    exact ⟨_, h, if_pos rfl⟩

theorem get_atLaunchConfig (overloads : Dict (List NumbaType × LaunchConfig) α) (key : LaunchConfig)
    (sig : List NumbaType) : (atLaunchConfig overloads key).get sig = overloads.get (sig, key) := by
  apply Option.ext; intro r
  rw [Dict.get_eq_some_iff, Dict.get_eq_some_iff, mem_atLaunchConfig]

theorem find?_atLaunchConfig (p : List NumbaType → Bool) (key : LaunchConfig) :
    ∀ es : List ((List NumbaType × LaunchConfig) × α),
      ((es.find? fun e => e.1.2 = key ∧ p e.1.1).map (·.2)) =
        (((es.filterMap fun e => if e.1.2 = key then some (e.1.1, e.2) else none).find? fun e => p e.1).map (·.2))
  | [] => rfl
  | e :: es => by
    have ih := find?_atLaunchConfig p key es
    by_cases hk : e.1.2 = key
    · by_cases hp : p e.1.1 = true
      · simp [hk, hp]
      · simpa [hk, hp] using ih
    · simpa [hk] using ih

theorem findLaunchConfigOverload_eq (overloads : Dict (List NumbaType × LaunchConfig) α) (argtypes : List NumbaType)
    (key : LaunchConfig) :
    findLaunchConfigOverload overloads argtypes key = compileResultFor (atLaunchConfig overloads key) argtypes := by
  unfold findLaunchConfigOverload compileResultFor firstReusable
  rw [get_atLaunchConfig]
  congr 1
  exact find?_atLaunchConfig (canReuseOverloads · argtypes) key overloads.entries

/-! ## What is found -/

theorem mem_of_firstReusable {overloads : Dict (List NumbaType) α} {argtypes : List NumbaType} {r : α}
    (h : firstReusable overloads argtypes = some r) : ∃ sig, overloads.get sig = some r := by
  obtain ⟨e, he, rfl⟩ := Option.map_eq_some_iff.mp h
  exact ⟨e.1, Dict.get_eq_some_iff.mpr (List.mem_of_find?_eq_some he)⟩

theorem reusable_of_firstReusable {overloads : Dict (List NumbaType) α} {argtypes : List NumbaType} {r : α}
    (h : firstReusable overloads argtypes = some r) : ∃ sig, overloads.get sig = some r ∧ canReuseOverloads sig argtypes = true := by
  obtain ⟨e, he, rfl⟩ := Option.map_eq_some_iff.mp h
  have hreuse := List.find?_some he
  exact ⟨e.1, Dict.get_eq_some_iff.mpr (List.mem_of_find?_eq_some he), hreuse⟩

theorem mem_of_findLaunchConfigOverload {overloads : Dict (List NumbaType × LaunchConfig) α} {argtypes : List NumbaType}
    {key : LaunchConfig} {r : α} (h : findLaunchConfigOverload overloads argtypes key = some r) :
    ∃ sig, overloads.get (sig, key) = some r := by
  rcases Option.or_eq_some_iff.mp h with h | ⟨-, h⟩
  · exact ⟨_, h⟩
  · obtain ⟨e, he, rfl⟩ := Option.map_eq_some_iff.mp h
    have hkey : e.1.2 = key ∧ canReuseOverloads e.1.1 argtypes := by simpa using List.find?_some he
    refine ⟨e.1.1, Dict.get_eq_some_iff.mpr ?_⟩
    rw [← hkey.1]
    exact List.mem_of_find?_eq_some he

theorem mem_of_resolveResult {overloads : Dict (List NumbaType) α} {argtypes : List NumbaType} {r : α}
    (h : resolveResult overloads argtypes = some r) : ∃ sig, overloads.get sig = some r := by
  unfold resolveResult at h
  split at h
  · exact ⟨_, h⟩
  · cases h

theorem rated_of_resolveResult {overloads : Dict (List NumbaType) α} {argtypes : List NumbaType} {r : α}
    (h : resolveResult overloads argtypes = some r) :
    ∃ sig, overloads.get sig = some r ∧ (SigCache.rateOverload sig (argtypes.map some)).isSome = true := by
  unfold resolveResult at h
  split at h
  · next sig hs =>
    have hmem : sig ∈ SigCache.resolveOverload overloads.keys (argtypes.map some) := by rw [hs]; exact List.mem_singleton_self sig
    obtain ⟨c, hc, rfl⟩ := List.mem_map.mp hmem
    obtain ⟨sig', -, hrate⟩ := List.mem_filterMap.mp (List.mem_of_mem_filter hc)
    obtain ⟨rating, hr, rfl⟩ := Option.map_eq_some_iff.mp hrate
    exact ⟨sig', h, by rw [hr]; rfl⟩
  · cases h

theorem mem_of_resolveLaunchConfigResult [DecidableEq α]
    {overloads : Dict (List NumbaType × LaunchConfig) α} {argtypes : List NumbaType} {key : LaunchConfig} {r : α}
    (h : resolveLaunchConfigResult overloads argtypes key = some r) : ∃ sig, overloads.get (sig, key) = some r := by
  unfold resolveLaunchConfigResult at h
  simp only at h
  split at h
  · cases h
  · next r' rs hr =>
    split at h
    · subst h
      have : some r ∈ (SigCache.resolveOverload (overloads.keys.filterMap fun k => if k.2 = key then some k.1 else none)
          (argtypes.map some)).map fun sig => overloads.get (sig, key) := by
        rw [hr]; exact List.mem_cons_self ..
      obtain ⟨sig, -, hs⟩ := List.mem_map.mp this
      exact ⟨_, hs⟩
    · cases h

/-! ## The choice -/

theorem canReuseOverloads_refl : ∀ ts : List NumbaType, canReuseOverloads ts ts = true
  | [] => by rw [canReuseOverloads]
  | t :: ts => by rw [canReuseOverloads, canReuseOverload_refl, canReuseOverloads_refl ts]; rfl

theorem firstReusable_eq_some {overloads : Dict (List NumbaType) α} {argtypes : List NumbaType} {r : α}
    (h : firstReusable overloads argtypes = some r) :
    ∃ before sig after, overloads.entries = before ++ (sig, r) :: after ∧ canReuseOverloads sig argtypes = true ∧
      ∀ e ∈ before, canReuseOverloads e.1 argtypes = false := by
  obtain ⟨⟨sig, r'⟩, he, rfl⟩ := Option.map_eq_some_iff.mp h
  obtain ⟨hp, before, after, heq, hbefore⟩ := List.find?_eq_some_iff_append.mp he
  exact ⟨before, sig, after, heq, hp, fun e he => by simpa using hbefore e he⟩

theorem findLaunchConfigOverload_eq_none_iff {overloads : Dict (List NumbaType × LaunchConfig) α} {argtypes : List NumbaType}
    {key : LaunchConfig} :
    findLaunchConfigOverload overloads argtypes key = none ↔
      ∀ e ∈ overloads.entries, e.1.2 = key → canReuseOverloads e.1.1 argtypes = false := by
  rw [findLaunchConfigOverload, Option.or_eq_none_iff, Option.map_eq_none_iff, List.find?_eq_none]
  constructor
  · rintro ⟨-, h⟩ e he hk
    simpa [hk] using h e he
  · intro h
    refine ⟨?_, fun e he => by simpa using h e he⟩
    rw [Dict.get_eq_none_iff, Dict.mem_keys_iff]
    rintro ⟨v, hv⟩
    have hreuse := h _ (Dict.mem_of_get hv) rfl
    rw [canReuseOverloads_refl] at hreuse
    cases hreuse

theorem firstReusable_isSome {overloads : Dict (List NumbaType) α} {argtypes : List NumbaType}
    (h : ∃ sig ∈ overloads.keys, canReuseOverloads sig argtypes = true) : (firstReusable overloads argtypes).isSome := by
  obtain ⟨sig, hs, hc⟩ := h
  obtain ⟨e, he, rfl⟩ := List.mem_map.mp hs
  rw [firstReusable, Option.isSome_map, List.find?_isSome]
  exact ⟨e, he, hc⟩

theorem rateOverload_self : ∀ ts : List NumbaType, SigCache.rateOverload ts (ts.map some) = some (0, 0, 0)
  | [] => rfl
  | t :: ts => by
    have hcost : SigCache.conversionCost t t = some (0, 0, 0) := by
      unfold SigCache.conversionCost
      rw [if_pos rfl]
    rw [List.map_cons, SigCache.rateOverload, hcost, Option.bind_some, rateOverload_self ts]
    rfl

theorem zero_le_rating (c : SigCache.Rating) : SigCache.Rating.le (0, 0, 0) c = true := by
  obtain ⟨a, b, c⟩ := c
  unfold SigCache.Rating.le
  rw [decide_eq_true_eq]
  simp only
  omega

theorem firstReusable_unique {overloads : Dict (List NumbaType) α} {argtypes sig : List NumbaType} {r : α}
    (hmem : (sig, r) ∈ overloads.entries) (hc : canReuseOverloads sig argtypes = true)
    (hu : ∀ e ∈ overloads.entries, canReuseOverloads e.1 argtypes = true → e.1 = sig) :
    firstReusable overloads argtypes = some r := by
  have hsome := firstReusable_isSome ⟨sig, List.mem_map_of_mem (f := (·.1)) hmem, hc⟩
  obtain ⟨r', hr'⟩ := Option.isSome_iff_exists.mp hsome
  obtain ⟨before, sig', after, heq, hc', -⟩ := firstReusable_eq_some hr'
  have hmem' : (sig', r') ∈ overloads.entries := by rw [heq]; simp
  cases hu _ hmem' hc'
  rw [hr', ← Dict.get_eq_some_iff.mpr hmem, Dict.get_eq_some_iff.mpr hmem']

theorem get_perm {overloads overloads' : Dict (List NumbaType) α} (h : overloads'.entries.Perm overloads.entries)
    (sig : List NumbaType) : overloads'.get sig = overloads.get sig := by
  apply Option.ext; intro r
  rw [Dict.get_eq_some_iff, Dict.get_eq_some_iff, h.mem_iff]

theorem compileResultFor_perm {overloads overloads' : Dict (List NumbaType) α} {argtypes : List NumbaType} {r : α}
    (h : overloads'.entries.Perm overloads.entries) (hr : compileResultFor overloads argtypes = some r)
    (hu : (overloads.get argtypes).isSome = true ∨
      ∃ sig, ∀ e ∈ overloads.entries, canReuseOverloads e.1 argtypes = true → e.1 = sig) :
    compileResultFor overloads' argtypes = some r := by
  unfold compileResultFor at hr ⊢
  rw [get_perm h]
  cases hg : overloads.get argtypes with
  | some x => rw [hg] at hr; exact hr
  | none =>
    rw [hg, Option.none_or] at hr
    rw [Option.none_or]
    obtain ⟨sig, hu⟩ := hu.resolve_left (by simp [hg])
    obtain ⟨before, sig', after, heq, hc, -⟩ := firstReusable_eq_some hr
    have hmem : (sig', r) ∈ overloads.entries := by rw [heq]; simp
    refine firstReusable_unique (h.mem_iff.mpr hmem) hc fun e he hce => ?_
    exact (hu e (h.mem_iff.mp he) hce).trans (hu _ hmem hc).symm

/-- **Overload selection.** Where some overload is reusable, the lookup of
`_compile_result_for` and the locked one, which `_compile_impl` uses for a launch
config, find the same result: that of exactly the types, whose conversion costs
least, and without one the first reusable result in the order of compilation,
which is also that of the generic branch of `_compile_impl`. -/
theorem overload_selection (overloads : Dict (List NumbaType × LaunchConfig) α) (key : LaunchConfig)
    (argtypes : List NumbaType)
    (hc : ∃ sig ∈ (atLaunchConfig overloads key).keys, canReuseOverloads sig argtypes = true) :
    ∃ r, compileResultFor (atLaunchConfig overloads key) argtypes = some r ∧
      findLaunchConfigOverload overloads argtypes key = some r ∧
      (∀ x, (atLaunchConfig overloads key).get argtypes = some x →
        r = x ∧ ∃ best, SigCache.rateOverload argtypes (argtypes.map some) = some best ∧
          ∀ sig c, SigCache.rateOverload sig (argtypes.map some) = some c → best.le c = true) ∧
      ((atLaunchConfig overloads key).get argtypes = none →
        firstReusable (atLaunchConfig overloads key) argtypes = some r ∧
        ∃ before sig after, (atLaunchConfig overloads key).entries = before ++ (sig, r) :: after ∧
          canReuseOverloads sig argtypes = true ∧ ∀ e ∈ before, canReuseOverloads e.1 argtypes = false) ∧
      ∀ overloads' : Dict (List NumbaType) α, overloads'.entries.Perm (atLaunchConfig overloads key).entries →
        ((atLaunchConfig overloads key).get argtypes).isSome = true ∨
          (∃ sig, ∀ e ∈ (atLaunchConfig overloads key).entries, canReuseOverloads e.1 argtypes = true → e.1 = sig) →
        compileResultFor overloads' argtypes = some r := by
  obtain ⟨first, hfirst⟩ := Option.isSome_iff_exists.mp (firstReusable_isSome hc)
  have hr : ∃ r, compileResultFor (atLaunchConfig overloads key) argtypes = some r := by
    unfold compileResultFor
    cases (atLaunchConfig overloads key).get argtypes with
    | some x => exact ⟨x, rfl⟩
    | none => exact ⟨first, hfirst⟩
  obtain ⟨r, hr⟩ := hr
  refine ⟨r, hr, by rw [findLaunchConfigOverload_eq, hr], ?_, ?_, fun _ h hu => compileResultFor_perm h hr hu⟩
  · intro x hx
    rw [compileResultFor, hx] at hr
    cases hr
    exact ⟨rfl, _, rateOverload_self argtypes, fun _ c _ => zero_le_rating c⟩
  · intro hn
    rw [compileResultFor, hn, Option.none_or] at hr
    exact ⟨hr, firstReusable_eq_some hr⟩

end

def signedInt (s : ItemSize) : NumbaType := .scalar (.integer true s)

/-- With the overload for `int32` before that for `int64`, the generic branch takes the former for an `int64`;
and with `int8` before `int64`, every route takes the lossy one for an `int16`. -/
theorem overload_selection_first :
    firstReusable ((Dict.empty.set [signedInt .s4] 0).set [signedInt .s8] 1) [signedInt .s8] = some 0 ∧
    compileResultFor ((Dict.empty.set [signedInt .s4] 0).set [signedInt .s8] 1) [signedInt .s8] = some 1 ∧
    compileResultFor ((Dict.empty.set [signedInt .s1] 0).set [signedInt .s8] 1) [signedInt .s2] = some 0 ∧
    SigCache.rateOverload [signedInt .s1] [some (signedInt .s2)] = some (1, 0, 0) ∧
    SigCache.rateOverload [signedInt .s8] [some (signedInt .s2)] = some (0, 0, 1) :=
  ⟨rfl, rfl, rfl, rfl, rfl⟩

def oneBlock : LaunchConfig := ⟨(1, 1, 1), (32, 1, 1), some 0, none⟩

def intOverloads : Dict (List NumbaType × LaunchConfig) Nat :=
  (Dict.empty.set ([signedInt .s4], oneBlock) 0).set ([signedInt .s8], oneBlock) 1

theorem overload_selection_exact : ∃ r,
    compileResultFor (atLaunchConfig intOverloads oneBlock) [signedInt .s8] = some r ∧
    findLaunchConfigOverload intOverloads [signedInt .s8] oneBlock = some r := by
  obtain ⟨r, hr, hf, -⟩ := overload_selection intOverloads oneBlock [signedInt .s8] ⟨[signedInt .s8], by decide, by decide⟩
  exact ⟨r, hr, hf⟩

end NumbaCudaMlir

import Mathlib.Data.Finset.Basic
import NumbaCudaMlir.OverloadSound

/-!
# Pickling of a dispatcher

`_reduce_states` keeps the signatures of a dispatcher that cannot compile, and
`_rebuild` compiles them again. A dispatcher has two tables of overloads, the
generic one and that of the results compiled for one launch config; the latter
keeps a result under the types of the launch and under those of its signature,
which differ where the function's annotations do.
-/

namespace NumbaCudaMlir

namespace DispatcherReduce

/-! ## Literal types -/

/-- A runtime argument: its type, and its value if that is an `int` or a `bool`. -/
structure Arg where
  type : NumbaType
  literal : Option LiteralValue

def Arg.literalized (a : Arg) : NumbaType :=
  match a.type, a.literal with
  | .literal v, _ => .literal v
  | _, some v => .literal v
  | ty, none => ty

/-- `_literalize_argtypes`; `none` where it raises. -/
def literalizeArgtypes (positions : Finset Nat) (args : List Arg) : Option (List NumbaType) :=
  if ∃ i ∈ positions, args.length ≤ i then none
  else some (args.mapIdx fun i a => if i ∈ positions then a.literalized else a.type)

/-! ## Dispatchers -/

/-- A compile result, by its signature, whose literal types are among the
arguments', and the launch config that it was compiled for. -/
structure CompileResult where
  signature : List NumbaType
  launchConfig : Option LaunchConfig
  deriving DecidableEq

structure State where
  literalArgPositions : Finset Nat
  requiresLaunchConfig : Bool
  canCompile : Bool
  overloads : Dict (List NumbaType) CompileResult
  launchConfigOverloads : Dict (List NumbaType × LaunchConfig) CompileResult

def State.init : State := ⟨∅, false, true, .empty, .empty⟩

/-- What a compilation comes to. -/
inductive Outcome where
  /-- It succeeds; it may have required the launch config that was available. -/
  | compiled (required : Bool)
  | forceLiteralArg (positions : Finset Nat) (required : Bool)
  | failed
  deriving DecidableEq

inductive Event where
  /-- With the signature of the result that the disk cache has for these types. -/
  | compile (argtypes : List NumbaType) (cached : Option (List NumbaType)) (fails : Bool)
  | launch (args : List Arg) (config : LaunchConfig) (cached : Option (List NumbaType)) (outcome : Outcome)
  | disableCompile
  | evictLaunchConfig (key : LaunchConfig)
  | recompile

section
variable (usesLaunchConfig : Bool) (normalize : List NumbaType → List NumbaType)

/-- `_launch_config_enabled`: by the extensions, which are among the target options. -/
def State.launchConfigEnabled (s : State) : Bool := s.requiresLaunchConfig || usesLaunchConfig

/-- The overload that a launch takes without compiling. -/
def State.find (s : State) (argtypes : List NumbaType) (config : LaunchConfig) : Option CompileResult :=
  if s.launchConfigEnabled usesLaunchConfig then findLaunchConfigOverload s.launchConfigOverloads argtypes config.key
  else firstReusable s.overloads argtypes

/-- How a dispatcher that cannot compile resolves a launch; `none` where it raises. -/
def State.resolve (s : State) (args : List Arg) (config : LaunchConfig) : Option CompileResult :=
  (literalizeArgtypes s.literalArgPositions args).bind fun argtypes =>
    (s.find usesLaunchConfig argtypes config).or
      (if s.launchConfigEnabled usesLaunchConfig then resolveLaunchConfigResult s.launchConfigOverloads argtypes config.key
      else resolveResult s.overloads argtypes)

/-- The end of `_compile_impl` for a launch config: the result is kept under the
types of the launch and those of its signature. -/
def State.publish (s : State) (argtypes : List NumbaType) (key : LaunchConfig) : State :=
  let cres : CompileResult := ⟨normalize argtypes, some key⟩
  let existing := (findLaunchConfigOverload s.launchConfigOverloads argtypes key).or
    (findLaunchConfigOverload s.launchConfigOverloads cres.signature key)
  if existing.isSome then s
  else
    let table := s.launchConfigOverloads.setDefault (argtypes, key) cres
    { s with launchConfigOverloads := table.setDefault (cres.signature, key) cres }

/-- `_record_literal_arg_positions`, whose `TypeError`s leave the dispatcher as it is. -/
def State.recordLiteralArgPositions (s : State) (positions : Finset Nat) (args : List Arg) (required : Bool) : State :=
  let valid : Bool := positions.Nonempty ∧ ∀ i ∈ positions, ((args[i]?).bind (·.literal)).isSome
  let updated := s.literalArgPositions ∪ positions
  if !valid || updated = s.literalArgPositions then s
  else
    { s with
      literalArgPositions := updated
      requiresLaunchConfig := s.requiresLaunchConfig || required
      overloads := .empty
      launchConfigOverloads := .empty }

/-- `_compile_impl` for a launch. After a request for literal types the launch
is compiled again, which is the next event. -/
def State.launch (s : State) (args : List Arg) (config : LaunchConfig) (cached : Option (List NumbaType)) (outcome : Outcome) : State :=
  match literalizeArgtypes s.literalArgPositions args with
  | none => s
  | some argtypes =>
    let enabled := s.launchConfigEnabled usesLaunchConfig
    if (s.find usesLaunchConfig argtypes config).isSome || !s.canCompile then s
    else
      match if enabled then none else cached with
      | some signature => { s with overloads := s.overloads.set argtypes ⟨signature, none⟩ }
      | none =>
        match outcome with
        | .failed => s
        | .forceLiteralArg positions required => s.recordLiteralArgPositions positions args (!enabled && required)
        | .compiled required =>
          if enabled then s.publish normalize argtypes config.key
          else if required then { s with requiresLaunchConfig := true }.publish normalize argtypes config.key
          else { s with overloads := s.overloads.set (normalize argtypes) ⟨normalize argtypes, none⟩ }

def State.compile (s : State) (argtypes : List NumbaType) (cached : Option (List NumbaType)) (fails : Bool) : State :=
  if (s.overloads.get argtypes).isSome then s
  else
    match cached with
    | some signature => { s with overloads := s.overloads.set argtypes ⟨signature, none⟩ }
    | none => if fails then s else { s with overloads := s.overloads.set argtypes ⟨argtypes, none⟩ }

def step (s : State) : Event → Option State
  | .compile argtypes cached fails => some (s.compile argtypes cached fails)
  | .launch args config cached outcome => some (s.launch usesLaunchConfig normalize args config cached outcome)
  | .disableCompile =>
    if s.overloads.length = 0 ∧ s.launchConfigOverloads.length = 0 then none else some { s with canCompile := false }
  | .evictLaunchConfig key => some { s with launchConfigOverloads := s.launchConfigOverloads.filter fun k _ => k.2 ≠ key }
  | .recompile => some { s with overloads := .empty, launchConfigOverloads := .empty }

/-! ## Reduction -/

/-- The state that is pickled, but for what no compilation changes. -/
structure ReducedState where
  canCompile : Bool
  sigs : List (List NumbaType)
  launchConfigSigs : List (List NumbaType × LaunchConfig)
  requiresLaunchConfig : Bool
  literalArgPositions : Finset Nat

/-- The signatures of the results, each at the first of its keys. Two results
for one launch config have different signatures. -/
def distinctSigs : (seen : List CompileResult) → List ((List NumbaType × LaunchConfig) × CompileResult) → List (List NumbaType × LaunchConfig)
  | _, [] => []
  | seen, ((_, key), cres) :: items =>
    if cres ∈ seen then distinctSigs seen items else (cres.signature, key) :: distinctSigs (cres :: seen) items

def State.reduce (s : State) : ReducedState where
  canCompile := s.canCompile
  sigs := if s.canCompile || s.requiresLaunchConfig then [] else s.overloads.values.map (·.signature)
  launchConfigSigs :=
    if s.canCompile || !s.launchConfigEnabled usesLaunchConfig then [] else distinctSigs [] s.launchConfigOverloads.entries
  requiresLaunchConfig := s.requiresLaunchConfig
  literalArgPositions := s.literalArgPositions

/-- The value of a literal type, and else `None`. -/
def placeholder (ty : NumbaType) : Arg :=
  match ty with
  | .literal v => ⟨ty, some v⟩
  | _ => ⟨ty, none⟩

/-- `_compile_launch_config_signature`, whose compilation succeeds; `none` where it raises. -/
def State.compileLaunchConfigSignature (s : State) (sig : List NumbaType × LaunchConfig) : Option State :=
  let (argtypes, key) := sig
  if (s.launchConfigOverloads.get (argtypes, key)).isSome then some s
  else
    (literalizeArgtypes s.literalArgPositions (argtypes.map placeholder)).bind fun types =>
      let s := if (findLaunchConfigOverload s.launchConfigOverloads types key).isSome then s else s.publish normalize types key
      if (findLaunchConfigOverload s.launchConfigOverloads argtypes key).isSome then some s else none

def rebuild (r : ReducedState) : Option State :=
  let s := { State.init with literalArgPositions := r.literalArgPositions, requiresLaunchConfig := r.requiresLaunchConfig }
  let s := r.sigs.foldl (fun s sig => s.compile sig none false) s
  (r.launchConfigSigs.foldlM (State.compileLaunchConfigSignature normalize) s).map fun s =>
    { s with canCompile := r.canCompile }

end

end DispatcherReduce

end NumbaCudaMlir

/-!
## A pickled dispatcher resolves its launches alike

Where the results of a dispatcher are kept under the types of their signatures
alone, rebuilding gives the tables that a launch can reach, entry by entry.
-/

namespace NumbaCudaMlir

namespace DispatcherReduce

/-! ## Literal types -/

theorem literalizeArgtypes_length {positions : Finset Nat} {args : List Arg} {argtypes : List NumbaType}
    (h : literalizeArgtypes positions args = some argtypes) : ∀ i ∈ positions, i < argtypes.length := by
  unfold literalizeArgtypes at h
  split at h
  · cases h
  · next hlen =>
    obtain rfl := Option.some.inj h
    intro i hi
    rw [List.length_mapIdx]
    exact not_le.mp fun hle => hlen ⟨i, hi, hle⟩

theorem literalizeArgtypes_placeholder {positions : Finset Nat} {argtypes : List NumbaType}
    (h : ∀ i ∈ positions, i < argtypes.length) : literalizeArgtypes positions (argtypes.map placeholder) = some argtypes := by
  have htype : ∀ ty, (placeholder ty).type = ty := by
    intro ty
    unfold placeholder
    split <;> rfl
  have hliteral : ∀ ty, (placeholder ty).literalized = ty := by
    intro ty
    cases ty <;> rfl
  unfold literalizeArgtypes
  rw [if_neg]
  · congr 1
    apply List.ext_getElem
    · rw [List.length_mapIdx, List.length_map]
    · intro i h₁ h₂
      rw [List.getElem_mapIdx, List.getElem_map, htype, hliteral, ite_self]
  · rintro ⟨i, hi, hle⟩
    rw [List.length_map] at hle
    exact absurd (h i hi) (not_lt.mpr hle)

/-! ## Tables -/

/-- Each result is under the types of its signature, which annotations leave as
they are, and no result could have been reused for a later one. -/
structure TablesOk (normalize : List NumbaType → List NumbaType) (s : State) : Prop where
  overloads : ∀ e ∈ s.overloads.entries, e.2 = ⟨e.1, none⟩
  launchConfig : ∀ e ∈ s.launchConfigOverloads.entries,
    e.2 = ⟨e.1.1, some e.1.2⟩ ∧ normalize e.1.1 = e.1.1 ∧ ∀ i ∈ s.literalArgPositions, i < e.1.1.length
  order : s.launchConfigOverloads.entries.Pairwise fun e f => e.1.2 = f.1.2 → canReuseOverloads e.1.1 f.1.1 = false

section
variable {usesLaunchConfig : Bool} {normalize : List NumbaType → List NumbaType} {s : State}

theorem TablesOk.init : TablesOk normalize .init where
  overloads e he := by cases he
  launchConfig e he := by cases he
  order := List.Pairwise.nil

theorem publish_entries {argtypes : List NumbaType} {key : LaunchConfig} (hn : normalize argtypes = argtypes)
    (hnew : ∀ e ∈ s.launchConfigOverloads.entries, e.1.2 = key → canReuseOverloads e.1.1 argtypes = false) :
    s.publish normalize argtypes key =
      { s with launchConfigOverloads := s.launchConfigOverloads.set (argtypes, key) ⟨argtypes, some key⟩ } := by
  have hfind := findLaunchConfigOverload_eq_none_iff.mpr hnew
  have hget : s.launchConfigOverloads.get (argtypes, key) = none := (Option.or_eq_none_iff.mp hfind).1
  unfold State.publish
  simp only [hn, hfind, Option.or_none, Option.isSome_none, Bool.false_eq_true, if_false]
  rw [Dict.setDefault_new hget, Dict.setDefault_bound (Dict.get_set_self _ _ _)]

theorem TablesOk.publish (h : TablesOk normalize s) {argtypes : List NumbaType} {key : LaunchConfig}
    (hn : normalize argtypes = argtypes) (hlen : ∀ i ∈ s.literalArgPositions, i < argtypes.length) :
    TablesOk normalize (s.publish normalize argtypes key) := by
  by_cases hnew : ∀ e ∈ s.launchConfigOverloads.entries, e.1.2 = key → canReuseOverloads e.1.1 argtypes = false
  · have hget : s.launchConfigOverloads.get (argtypes, key) = none :=
      (Option.or_eq_none_iff.mp (findLaunchConfigOverload_eq_none_iff.mpr hnew)).1
    rw [publish_entries hn hnew]
    refine ⟨h.overloads, fun e he => ?_, ?_⟩
    · rw [Dict.entries_set_new hget] at he
      obtain he | he := List.mem_append.mp he
      · exact h.launchConfig e he
      · obtain rfl := List.mem_singleton.mp he
        exact ⟨rfl, hn, hlen⟩
    · rw [Dict.entries_set_new hget, List.pairwise_append]
      refine ⟨h.order, List.pairwise_singleton _ _, fun e he f hf => ?_⟩
      obtain rfl := List.mem_singleton.mp hf
      exact hnew e he
  · have hfound : (findLaunchConfigOverload s.launchConfigOverloads argtypes key).isSome = true := by
      rw [Option.isSome_iff_ne_none]
      exact mt findLaunchConfigOverload_eq_none_iff.mp hnew
    unfold State.publish
    simp only [hn, Option.or_self, hfound, if_true]
    exact h

theorem TablesOk.setOverload (h : TablesOk normalize s) (argtypes : List NumbaType) :
    TablesOk normalize { s with overloads := s.overloads.set argtypes ⟨argtypes, none⟩ } where
  overloads e he := by
    obtain rfl | ⟨he, -⟩ := Dict.mem_set_iff.mp he
    · rfl
    · exact h.overloads e he
  launchConfig := h.launchConfig
  order := h.order

theorem TablesOk.withRequires (h : TablesOk normalize s) (required : Bool) :
    TablesOk normalize { s with requiresLaunchConfig := required } :=
  ⟨h.overloads, h.launchConfig, h.order⟩

theorem TablesOk.empty (s : State) (positions : Finset Nat) (required : Bool) :
    TablesOk normalize { s with literalArgPositions := positions, requiresLaunchConfig := required, overloads := .empty, launchConfigOverloads := .empty } where
  overloads e he := by cases he
  launchConfig e he := by cases he
  order := List.Pairwise.nil

theorem TablesOk.record (h : TablesOk normalize s) (positions : Finset Nat) (args : List Arg) (required : Bool) :
    TablesOk normalize (s.recordLiteralArgPositions positions args required) := by
  unfold State.recordLiteralArgPositions
  simp only
  split
  · exact h
  · exact TablesOk.empty s _ _

/-! ## Steps -/

/-- A result that is added to the tables has the types that it is kept under as
its signature: of the disk cache's results, and where a launch config is there,
of the compiled ones. -/
def SignatureIsKey (usesLaunchConfig : Bool) (normalize : List NumbaType → List NumbaType) (s : State) : Event → Prop
  | .compile argtypes cached _ => s.overloads.get argtypes = none → ∀ signature, cached = some signature → signature = argtypes
  | .launch args config cached outcome =>
    ∀ argtypes, literalizeArgtypes s.literalArgPositions args = some argtypes → s.canCompile = true →
      s.find usesLaunchConfig argtypes config = none →
        (∀ signature, cached = some signature → s.launchConfigEnabled usesLaunchConfig = false → signature = argtypes) ∧
          (s.launchConfigEnabled usesLaunchConfig = true ∨ cached = none → ∀ required, outcome = .compiled required →
            s.launchConfigEnabled usesLaunchConfig || required = true → normalize argtypes = argtypes)
  | _ => True

theorem TablesOk.launch (h : TablesOk normalize s) {args : List Arg} {config : LaunchConfig} {cached : Option (List NumbaType)}
    {outcome : Outcome} (hok : SignatureIsKey usesLaunchConfig normalize s (.launch args config cached outcome)) :
    TablesOk normalize (s.launch usesLaunchConfig normalize args config cached outcome) := by
  unfold State.launch
  split
  · exact h
  · next argtypes hlit =>
    have hlen := literalizeArgtypes_length hlit
    simp only
    split
    · exact h
    · next hmiss =>
      rw [Bool.or_eq_true, not_or, Option.not_isSome_iff_eq_none, Bool.not_eq_true', Bool.not_eq_false] at hmiss
      obtain ⟨hcached, hcompiled⟩ := hok argtypes hlit hmiss.2 hmiss.1
      by_cases hen : s.launchConfigEnabled usesLaunchConfig = true
      · simp only [hen, if_true, Bool.not_true, Bool.false_and]
        cases outcome with
        | failed => exact h
        | forceLiteralArg positions required => exact h.record positions args false
        | compiled required => exact h.publish (hcompiled (.inl hen) required rfl (by rw [hen, Bool.true_or])) hlen
      · rw [Bool.not_eq_true] at hen
        simp only [hen, Bool.false_eq_true, if_false, Bool.not_false, Bool.true_and]
        cases cached with
        | some signature =>
          rw [hcached signature rfl hen]
          exact h.setOverload argtypes
        | none =>
          cases outcome with
          | failed => exact h
          | forceLiteralArg positions required => exact h.record positions args required
          | compiled required =>
            cases required with
            | true => exact (h.withRequires true).publish (hcompiled (.inr rfl) true rfl (Bool.or_true _)) hlen
            | false => exact h.setOverload (normalize argtypes)

theorem TablesOk.step (h : TablesOk normalize s) {e : Event} {s' : State} (hok : SignatureIsKey usesLaunchConfig normalize s e)
    (hs : step usesLaunchConfig normalize s e = some s') : TablesOk normalize s' := by
  cases e with
  | compile argtypes cached fails =>
    obtain rfl := Option.some.inj hs
    unfold State.compile
    split
    · exact h
    · next hget =>
      rw [Option.not_isSome_iff_eq_none] at hget
      cases cached with
      | some signature =>
        simp only [hok hget signature rfl]
        exact h.setOverload argtypes
      | none =>
        simp only
        split
        · exact h
        · exact h.setOverload argtypes
  | launch args config cached outcome =>
    obtain rfl := Option.some.inj hs
    exact h.launch hok
  | disableCompile =>
    simp only [DispatcherReduce.step] at hs
    split at hs
    · cases hs
    · obtain rfl := Option.some.inj hs
      exact ⟨h.overloads, h.launchConfig, h.order⟩
  | evictLaunchConfig key =>
    obtain rfl := Option.some.inj hs
    exact ⟨h.overloads, fun e he => h.launchConfig e (List.mem_of_mem_filter he), h.order.sublist List.filter_sublist⟩
  | recompile =>
    obtain rfl := Option.some.inj hs
    exact TablesOk.empty s s.literalArgPositions s.requiresLaunchConfig

/-! ## Rebuilding -/

theorem foldl_compile (s : State) : ∀ (post : List (List NumbaType × CompileResult)) (d : Dict (List NumbaType) CompileResult),
    (∀ e ∈ post, e.2 = ⟨e.1, none⟩) → ∀ hn : ((d.entries ++ post).map (·.1)).Nodup,
      ((post.map (·.2)).map (·.signature)).foldl (fun s sig => s.compile sig none false) { s with overloads := d } =
        { s with overloads := ⟨d.entries ++ post, hn⟩ }
  | [], d, _, hn => by
    simp only [List.map_nil, List.foldl_nil]
    congr 1
    exact Dict.eq_of_entries (List.append_nil _).symm
  | e :: post, d, he, hn => by
    have hval : e = (e.1, ⟨e.1, none⟩) := Prod.ext rfl (he e (List.mem_cons_self ..))
    have hget : d.get e.1 = none := by
      rw [Dict.get_eq_none_iff]
      rw [List.map_append, List.nodup_append] at hn
      exact fun hk => hn.2.2 _ hk _ (List.mem_map_of_mem (List.mem_cons_self ..)) rfl
    have hentries : (d.set e.1 ⟨e.1, none⟩).entries = d.entries ++ [e] := by rw [Dict.entries_set_new hget, ← hval]
    have hcompile : ({ s with overloads := d } : State).compile e.1 none false = { s with overloads := d.set e.1 ⟨e.1, none⟩ } := by
      unfold State.compile
      simp only [hget, Option.isSome_none, Bool.false_eq_true, if_false]
    have happend : (d.set e.1 ⟨e.1, none⟩).entries ++ post = d.entries ++ e :: post := by rw [hentries, List.append_assoc]; rfl
    have hsig : e.2.signature = e.1 := by rw [hval]
    rw [List.map_cons, List.map_cons, List.foldl_cons, hsig, hcompile,
      foldl_compile s post (d.set e.1 ⟨e.1, none⟩) (fun f hf => he f (List.mem_cons_of_mem _ hf)) (happend ▸ hn)]
    congr 1
    exact Dict.eq_of_entries happend

theorem compileLaunchConfigSignature_new {argtypes : List NumbaType} {key : LaunchConfig} (hn : normalize argtypes = argtypes)
    (hlen : ∀ i ∈ s.literalArgPositions, i < argtypes.length)
    (hnew : ∀ e ∈ s.launchConfigOverloads.entries, e.1.2 = key → canReuseOverloads e.1.1 argtypes = false) :
    s.compileLaunchConfigSignature normalize (argtypes, key) =
      some { s with launchConfigOverloads := s.launchConfigOverloads.set (argtypes, key) ⟨argtypes, some key⟩ } := by
  have hfind := findLaunchConfigOverload_eq_none_iff.mpr hnew
  have hget : s.launchConfigOverloads.get (argtypes, key) = none := (Option.or_eq_none_iff.mp hfind).1
  have hfound : findLaunchConfigOverload (s.launchConfigOverloads.set (argtypes, key) ⟨argtypes, some key⟩) argtypes key =
      some ⟨argtypes, some key⟩ := by
    rw [findLaunchConfigOverload, Dict.get_set_self]
    rfl
  unfold State.compileLaunchConfigSignature
  simp only [hget, literalizeArgtypes_placeholder hlen, hfind, publish_entries hn hnew, hfound, Option.isSome_none, Bool.false_eq_true,
    if_false, Option.bind_some, Option.isSome_some, if_true]

theorem foldlM_compileLaunchConfigSignature (s : State) :
    ∀ (post : List ((List NumbaType × LaunchConfig) × CompileResult)) (d : Dict (List NumbaType × LaunchConfig) CompileResult),
      (∀ e ∈ post, e.2 = ⟨e.1.1, some e.1.2⟩ ∧ normalize e.1.1 = e.1.1 ∧ ∀ i ∈ s.literalArgPositions, i < e.1.1.length) →
      (d.entries ++ post).Pairwise (fun e f => e.1.2 = f.1.2 → canReuseOverloads e.1.1 f.1.1 = false) →
      ∀ hn : ((d.entries ++ post).map (·.1)).Nodup,
        (post.map (·.1)).foldlM (State.compileLaunchConfigSignature normalize) { s with launchConfigOverloads := d } =
          some { s with launchConfigOverloads := ⟨d.entries ++ post, hn⟩ }
  | [], d, _, _, hn => by
    simp only [List.map_nil, List.foldlM_nil]
    congr 2
    exact Dict.eq_of_entries (List.append_nil _).symm
  | e :: post, d, he, hp, hn => by
    obtain ⟨hval, hnorm, hlen⟩ := he e (List.mem_cons_self ..)
    have hnew : ∀ f ∈ d.entries, f.1.2 = e.1.2 → canReuseOverloads f.1.1 e.1.1 = false :=
      fun f hf => (List.pairwise_append.mp hp).2.2 f hf e (List.mem_cons_self ..)
    have hget : d.get e.1 = none := (Option.or_eq_none_iff.mp (findLaunchConfigOverload_eq_none_iff.mpr hnew)).1
    have hentries : (d.set e.1 ⟨e.1.1, some e.1.2⟩).entries = d.entries ++ [e] := by rw [Dict.entries_set_new hget, ← hval]
    have happend : (d.set e.1 ⟨e.1.1, some e.1.2⟩).entries ++ post = d.entries ++ e :: post := by
      rw [hentries, List.append_assoc]
      rfl
    have hstep : ({ s with launchConfigOverloads := d } : State).compileLaunchConfigSignature normalize e.1 =
        some { s with launchConfigOverloads := d.set e.1 ⟨e.1.1, some e.1.2⟩ } :=
      compileLaunchConfigSignature_new (s := { s with launchConfigOverloads := d }) hnorm hlen hnew
    rw [List.map_cons, List.foldlM_cons, hstep]
    refine (foldlM_compileLaunchConfigSignature s post _ (fun f hf => he f (List.mem_cons_of_mem _ hf)) (happend ▸ hp) (happend ▸ hn)).trans ?_
    congr 2
    exact Dict.eq_of_entries happend

theorem distinctSigs_eq : ∀ (items : List ((List NumbaType × LaunchConfig) × CompileResult)) (seen : List CompileResult),
    (∀ e ∈ items, e.2 ∉ seen) → (items.map (·.2)).Nodup → distinctSigs seen items = items.map fun e => (e.2.signature, e.1.2)
  | [], _, _, _ => rfl
  | e :: items, seen, hseen, hn => by
    rw [List.map_cons, List.nodup_cons] at hn
    have hrest : ∀ f ∈ items, f.2 ∉ e.2 :: seen := by
      intro f hf hmem
      obtain hf' | hf' := List.mem_cons.mp hmem
      · exact hn.1 (hf' ▸ List.mem_map_of_mem hf)
      · exact hseen f (List.mem_cons_of_mem _ hf) hf'
    rw [distinctSigs, if_neg (hseen e (List.mem_cons_self ..)), distinctSigs_eq items _ hrest hn.2, List.map_cons]

theorem TablesOk.distinctSigs (h : TablesOk normalize s) : distinctSigs [] s.launchConfigOverloads.entries = s.launchConfigOverloads.keys := by
  have hvalue : s.launchConfigOverloads.entries.map (·.2) = s.launchConfigOverloads.keys.map fun k => (⟨k.1, some k.2⟩ : CompileResult) := by
    rw [Dict.keys, List.map_map]
    exact List.map_congr_left fun e he => (h.launchConfig e he).1
  have hnodup : (s.launchConfigOverloads.entries.map (·.2)).Nodup := by
    rw [hvalue]
    refine s.launchConfigOverloads.nodup.map fun k k' hk => ?_
    simp only [CompileResult.mk.injEq, Option.some.injEq] at hk
    exact Prod.ext hk.1 hk.2
  rw [distinctSigs_eq _ [] (fun _ _ => List.not_mem_nil) hnodup]
  exact List.map_congr_left fun e he => by rw [(h.launchConfig e he).1]

/-- What rebuilding leaves out: the tables that no launch reaches. -/
def State.reachable (usesLaunchConfig : Bool) (s : State) : State :=
  { s with
    overloads := if s.requiresLaunchConfig then .empty else s.overloads
    launchConfigOverloads := if s.launchConfigEnabled usesLaunchConfig then s.launchConfigOverloads else .empty }

theorem TablesOk.rebuild (h : TablesOk normalize s) (hc : s.canCompile = false) :
    rebuild normalize (s.reduce usesLaunchConfig) = some (s.reachable usesLaunchConfig) := by
  have hgeneric : ((s.reduce usesLaunchConfig).sigs.foldl (fun s sig => s.compile sig none false)
      { State.init with literalArgPositions := s.literalArgPositions, requiresLaunchConfig := s.requiresLaunchConfig }) =
      { State.init with
        literalArgPositions := s.literalArgPositions
        requiresLaunchConfig := s.requiresLaunchConfig
        overloads := (s.reachable usesLaunchConfig).overloads } := by
    simp only [State.reduce, State.reachable, hc, Bool.false_or]
    cases s.requiresLaunchConfig with
    | true => rfl
    | false =>
      simp only [Bool.false_eq_true, if_false]
      exact foldl_compile { State.init with literalArgPositions := s.literalArgPositions } s.overloads.entries .empty h.overloads s.overloads.nodup
  have hlaunch : (s.reduce usesLaunchConfig).launchConfigSigs = (s.reachable usesLaunchConfig).launchConfigOverloads.entries.map (·.1) := by
    simp only [State.reduce, State.reachable, hc, Bool.false_or]
    cases s.launchConfigEnabled usesLaunchConfig with
    | true =>
      simp only [Bool.not_true, Bool.false_eq_true, if_false, if_true]
      exact h.distinctSigs
    | false => rfl
  have hentries : ∀ e ∈ (s.reachable usesLaunchConfig).launchConfigOverloads.entries, e ∈ s.launchConfigOverloads.entries := by
    simp only [State.reachable]
    split
    · exact fun e he => he
    · exact fun e he => by cases he
  have hsub : (s.reachable usesLaunchConfig).launchConfigOverloads.entries.Sublist s.launchConfigOverloads.entries := by
    simp only [State.reachable]
    split
    · exact List.Sublist.refl _
    · exact List.nil_sublist _
  have hfold := foldlM_compileLaunchConfigSignature
    { State.init with
      literalArgPositions := s.literalArgPositions
      requiresLaunchConfig := s.requiresLaunchConfig
      overloads := (s.reachable usesLaunchConfig).overloads }
    (s.reachable usesLaunchConfig).launchConfigOverloads.entries .empty
    (fun e he => h.launchConfig e (hentries e he)) (h.order.sublist hsub) (s.reachable usesLaunchConfig).launchConfigOverloads.nodup
  unfold DispatcherReduce.rebuild
  simp only [hlaunch]
  rw [show (s.reduce usesLaunchConfig).literalArgPositions = s.literalArgPositions from rfl,
    show (s.reduce usesLaunchConfig).requiresLaunchConfig = s.requiresLaunchConfig from rfl, hgeneric]
  refine (congrArg _ hfold).trans ?_
  rfl

theorem reachable_resolve (s : State) (args : List Arg) (config : LaunchConfig) :
    (s.reachable usesLaunchConfig).resolve usesLaunchConfig args config = s.resolve usesLaunchConfig args config := by
  have hen : (s.reachable usesLaunchConfig).launchConfigEnabled usesLaunchConfig = s.launchConfigEnabled usesLaunchConfig := rfl
  have hpos : (s.reachable usesLaunchConfig).literalArgPositions = s.literalArgPositions := rfl
  simp only [State.resolve, State.find, hen, hpos]
  by_cases h : s.launchConfigEnabled usesLaunchConfig = true
  · simp only [h, if_true, State.reachable]
  · have hreq : s.requiresLaunchConfig = false := by
      rw [State.launchConfigEnabled, Bool.or_eq_true, not_or] at h
      exact Bool.not_eq_true _ ▸ h.1
    simp only [h, State.reachable, hreq, Bool.false_eq_true, if_false]

theorem reachable_reduce (s : State) : (s.reachable usesLaunchConfig).reduce usesLaunchConfig = s.reduce usesLaunchConfig := by
  have hen : (s.reachable usesLaunchConfig).launchConfigEnabled usesLaunchConfig = s.launchConfigEnabled usesLaunchConfig := rfl
  simp only [State.reduce, hen]
  cases hr : s.requiresLaunchConfig <;> cases he : s.launchConfigEnabled usesLaunchConfig <;> simp [State.reachable, hr, he]

end

/-- In a run that keeps results under the types of their signatures alone, a
dispatcher that cannot compile resolves every launch alike after it was pickled,
and is pickled alike again. -/
theorem pickled_resolves_alike (usesLaunchConfig : Bool) (normalize : List NumbaType → List NumbaType) {events : List Event} {s : State}
    (h : Runs.StepsOk (step usesLaunchConfig normalize) (SignatureIsKey usesLaunchConfig normalize) .init events)
    (hrun : Runs.run (step usesLaunchConfig normalize) .init events = some s) (hc : s.canCompile = false) :
    ∃ s', rebuild normalize (s.reduce usesLaunchConfig) = some s' ∧
      (∀ args config, s'.resolve usesLaunchConfig args config = s.resolve usesLaunchConfig args config) ∧
      s'.reduce usesLaunchConfig = s.reduce usesLaunchConfig := by
  have hok : TablesOk normalize s :=
    Runs.run_inv _ (fun s e s' hi hfits hs => TablesOk.step hi hfits hs) TablesOk.init h hrun
  exact ⟨s.reachable usesLaunchConfig, hok.rebuild hc, reachable_resolve s, reachable_reduce s⟩

section
variable (events : List Event)

/-- Pickling loses no specialisation of a dispatcher that these events lead to. -/
def keptByPickling (usesLaunchConfig : Bool) (normalize : List NumbaType → List NumbaType) : Prop :=
  ∀ s, Runs.run (step usesLaunchConfig normalize) .init events = some s → s.canCompile = false →
    ∃ s', rebuild normalize (s.reduce usesLaunchConfig) = some s' ∧
      (∀ args config, s'.resolve usesLaunchConfig args config = s.resolve usesLaunchConfig args config) ∧
      s'.reduce usesLaunchConfig = s.reduce usesLaunchConfig

end

def int32 : NumbaType := .scalar (.integer true .s4)

def boolean : NumbaType := .scalar .boolean

def float64 : NumbaType := .scalar (.float .s8)

/-- A kernel of two parameters, the first of which is annotated as an `int32`. -/
def annotated (argtypes : List NumbaType) : List NumbaType := int32 :: argtypes.tail

def oneBlock : LaunchConfig := ⟨(1, 1, 1), (32, 1, 1), some 0, none⟩

def launched (ty : NumbaType) : List Event := [.launch [⟨ty, none⟩, ⟨float64, none⟩] oneBlock none (.compiled false), .disableCompile]

theorem annotated_kept : keptByPickling (launched int32) true annotated := by
  intro s hrun hc
  have h : Runs.StepsOk (step true annotated) (SignatureIsKey true annotated) .init (launched int32) := by
    refine Runs.stepsOk_cons _ rfl (fun argtypes hlit _ _ => ?_) ⟨trivial, fun _ _ => trivial⟩
    obtain rfl := Option.some.inj hlit
    exact ⟨fun _ hs => (by cases hs), fun _ _ _ _ => rfl⟩
  exact pickled_resolves_alike true annotated h hrun hc

/-- The key of a boolean, which is no `int32` to an overload, is lost. -/
theorem annotated_lost : ¬ keptByPickling (launched boolean) true annotated := by
  intro h
  obtain ⟨s', hs', hres, -⟩ := h _ rfl rfl
  obtain rfl := Option.some.inj hs'
  exact absurd (hres [⟨boolean, none⟩, ⟨float64, none⟩] oneBlock) (by decide)

end DispatcherReduce

end NumbaCudaMlir

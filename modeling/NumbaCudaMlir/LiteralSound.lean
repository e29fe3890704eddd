import NumbaCudaMlir.KeySound

/-!
# Literal kernels found in the cache

The constants of a launch do not say at which positions they stand, and the
positions are those of the native arguments. Where the kernels of a family that
are specialised on as many literals are specialised at the same positions, and
tuples leave the literal positions in place, a kernel found in the cache was
compiled for the literals of the launch.
-/

namespace NumbaCudaMlir

open LaunchState Runs

/-! ## Literals of a launch -/

def DispatcherConfig.literals (literalArgFlags : List Bool) : DispatcherConfig :=
  ⟨List.replicate literalArgFlags.length false, literalArgFlags⟩

theorem constant_literals (flags : List Bool) : ∀ c ∈ (DispatcherConfig.literals flags).constantArgFlags, c = false :=
  fun _ hc => (List.mem_replicate.mp hc).2

def topLiteral (values : List LaunchValue) (p : Nat) : Option LiteralValue := values[p]?.bind literalFor

def nativeLiteral (args : List PyObj) (p : Nat) : Option LiteralValue :=
  args[p]?.bind fun arg => literalFor (.leaf arg)

theorem nativeLiteral_eq_some {args : List PyObj} {p : Nat} {v : LiteralValue} (h : nativeLiteral args p = some v) :
    ∃ arg, args[p]? = some arg ∧ literalFor (.leaf arg) = some v := Option.bind_eq_some_iff.mp h

def specialisedLiterals (args : List PyObj) (flags : List Bool) : List LiteralValue :=
  (args.zip flags).filterMap fun x => if x.2 then literalFor (.leaf x.1) else none

theorem specialisedLiterals_cons (arg : PyObj) (args : List PyObj) (f : Bool) (flags : List Bool) :
    specialisedLiterals (arg :: args) (f :: flags) =
      (if f then literalFor (.leaf arg) else none).toList ++ specialisedLiterals args flags := by
  rw [specialisedLiterals, List.zip_cons_cons, List.filterMap_cons]
  cases (if f then literalFor (.leaf arg) else none) <;> rfl

def HitsOnLiterals (log : List LogEntry) : Prop :=
  ∀ values profile kernel, .launched values profile kernel true ∈ log →
    ∀ p v, kernel.argtypes[p]? = some (.literal v) → topLiteral values p = some v

/-! ## Compiled literals -/

theorem literalize_literal {p : Nat} {v : LiteralValue} : ∀ {ls : List Bool} {vs : List LaunchValue}
    {ts : List NumbaType}, (literalize ls vs ts)[p]? = some (.literal v) →
    (ls[p]? = some true ∧ topLiteral vs p = some v) ∨ ts[p]? = some (.literal v)
  | [], _, _, h | _ :: _, [], _, h => by rw [literalize] at h; exact .inr h; all_goals nofun
  | _ :: _, _ :: _, [], h => by rw [literalize] at h; cases h; all_goals nofun
  | l :: ls, value :: vs, t :: ts, h => by
    rw [literalize] at h
    cases p with
    | succ p =>
      simp only [List.getElem?_cons_succ, topLiteral] at h ⊢
      exact literalize_literal h
    | zero =>
      simp only [List.getElem?_cons_zero, Option.some.injEq, topLiteral, Option.bind_some] at h ⊢
      cases l with
      | false => exact .inr h
      | true =>
        rw [if_pos rfl] at h
        cases hv : literalFor value with
        | none => rw [hv] at h; exact .inr h
        | some w => rw [hv] at h; cases h; exact .inl ⟨rfl, rfl⟩

theorem typeofAll_getElem? {p : Nat} {vs : List LaunchValue} {ts : List NumbaType}
    (h : LaunchValue.typeofAll vs = some ts) : ts[p]? = vs[p]?.bind LaunchValue.typeof := by
  induction vs generalizing p ts with
  | nil => cases h; rfl
  | cons value vs ih =>
    rw [LaunchValue.typeofAll, Option.bind_eq_some_iff] at h
    obtain ⟨t, ht, h⟩ := h
    obtain ⟨ts, hts, rfl⟩ := Option.map_eq_some_iff.mp h
    cases p with
    | zero => simp [ht]
    | succ p => simpa using ih hts

theorem mem_flattenAll {arg : PyObj} : ∀ {vs : List LaunchValue}, .leaf arg ∈ vs → arg ∈ LaunchValue.flattenAll vs
  | value :: vs, h => by
    rw [LaunchValue.flattenAll, List.mem_append]
    rcases List.mem_cons.mp h with rfl | h
    · exact .inl (List.mem_singleton.mpr rfl)
    · exact .inr (mem_flattenAll h)

def Undeclared (values : List LaunchValue) : Prop :=
  ∀ arg ∈ LaunchValue.flattenAll values, ∀ v, typeof arg ≠ some (.literal v)

theorem compileArgtypes_literal {flags : List Bool} {values : List LaunchValue} {argtypes : List NumbaType}
    (h : compileArgtypes flags values = some argtypes) (hu : Undeclared values) {p : Nat} {v : LiteralValue}
    (hp : argtypes[p]? = some (.literal v)) : flags[p]? = some true ∧ topLiteral values p = some v := by
  obtain ⟨ts, hts, h⟩ := Option.bind_eq_some_iff.mp h
  have hdeclared : ts[p]? ≠ some (.literal v) := by
    rw [typeofAll_getElem? hts]
    intro hv
    obtain ⟨value, hmem, hv⟩ := Option.bind_eq_some_iff.mp hv
    cases value with
    | leaf arg => exact hu arg (mem_flattenAll (List.mem_of_getElem? hmem)) v hv
    | tuple elems => obtain ⟨_, -, hv⟩ := Option.map_eq_some_iff.mp hv; cases hv
  rw [literalizeArgtypes] at h
  split at h
  · cases h; exact absurd hp hdeclared
  split at h
  · cases h
  split at h
  · cases h
  split at h
  · cases h
  · cases h
    exact (literalize_literal hp).resolve_right hdeclared

/-! ## Literals in the key -/

theorem literalFor_isSome (arg : PyObj) : (literalFor (.leaf arg)).isSome = literalEligible arg.type := by
  cases arg with
  | long cls => cases cls <;> rfl
  | npDatetime t => cases t <;> rfl
  | npVoid r => obtain ⟨isRecord, fs, n, p⟩ := r; cases isRecord <;> rfl
  | _ => rfl

theorem effective_getElem? (p : Nat) : ∀ (flags : List Bool) (types : List PyType),
    (effectiveConstantArgFlags (List.replicate flags.length false) flags types)[p]? =
      types[p]?.map fun ty => flags[p]?.getD false && literalEligible ty
  | flags, [] => by rw [effectiveConstantArgFlags]; rfl
  | [], ty :: types => by
    rw [effectiveConstantArgFlags]
    · cases p with
      | zero => rfl
      | succ p => simpa using effective_getElem? p [] types
    · intro _ _ _ _ h; cases h
  | l :: ls, ty :: types => by
    rw [List.length_cons, List.replicate_succ, effectiveConstantArgFlags]
    cases p with
    | zero => simp
    | succ p => simpa using effective_getElem? p ls types

theorem ArgBlocks.countP {args : List PyObj} : ∀ {flags : List Bool} {bs : List (List ConstantArg)},
    args.length = flags.length → ArgBlocks args flags bs →
    bs.flatten.countP ConstantArg.isHead =
      args.countP (fun arg => arg.type.isArray) + (specialisedLiterals args flags).length := by
  induction args with
  | nil => intro flags bs _ h; cases h; rfl
  | cons arg args ih =>
    intro flags bs hlen h
    cases flags with
    | nil => cases hlen
    | cons f flags =>
      cases h with
      | @cons _ b _ bs hb h =>
        have hrest := ih (Nat.succ.inj hlen) h
        have hb : ArgBlock arg f b := hb
        rw [List.flatten_cons, List.countP_append, hrest, List.countP_cons, specialisedLiterals_cons,
          List.length_append, ← arrayType_isSome]
        cases hb with
        | @array d n dl ha =>
          have hhead : (arrayConstants dl n (arg.identity d)).countP ConstantArg.isHead = 1 := by
            rw [arrayConstants]
            split <;> rfl
          have hnone : literalFor (.leaf arg) = none := by
            cases hv : literalFor (.leaf arg) with
            | none => rfl
            | some v => rw [arrayType_of_literal hv] at ha; cases ha
          simp only [hhead, ha, hnone, ite_self, Option.isSome_some, if_true, Option.toList_none, List.length_nil]
          omega
        | plain ha hf => simp [ha, hf]
        | @literal v hv hf =>
          have hhead : [literalConstant v].countP ConstantArg.isHead = 1 := by
            cases v with
            | int v => rw [literalConstant]; split <;> rfl
            | bool b => rfl
          simp only [hhead, arrayType_of_literal hv, hv, hf, if_true, Option.isSome_none, Bool.false_eq_true, if_false,
            Option.toList_some, List.length_singleton]
          omega

theorem ArgBlocks.literals {args : List PyObj} : ∀ {flags : List Bool} {bs : List (List ConstantArg)},
    args.length = flags.length → (∀ arg ∈ args, arg.type.isArray = false) → ArgBlocks args flags bs →
    bs.flatten = (specialisedLiterals args flags).map literalConstant := by
  induction args with
  | nil => intro flags bs _ _ h; cases h; rfl
  | cons arg args ih =>
    intro flags bs hlen hna h
    cases flags with
    | nil => cases hlen
    | cons f flags =>
      cases h with
      | @cons _ b _ bs hb h =>
        obtain ⟨hna, hnas⟩ := List.forall_mem_cons.mp hna
        have hb : ArgBlock arg f b := hb
        rw [List.flatten_cons, ih (Nat.succ.inj hlen) hnas h, specialisedLiterals_cons, List.map_append]
        cases hb with
        | array ha => rw [← arrayType_isSome, ha] at hna; cases hna
        | plain ha hf => simp [hf]
        | literal hv hf => simp [hv, hf]

/-! ## The condition -/

def specialisedFlags (cfg : DispatcherConfig) (values : List LaunchValue) : List Bool :=
  effectiveConstantArgFlags cfg.constantArgFlags cfg.literalArgFlags (pyargTypes values)

def keyLiterals (cfg : DispatcherConfig) (values : List LaunchValue) : List LiteralValue :=
  specialisedLiterals (LaunchValue.flattenAll values) (specialisedFlags cfg values)

/-- Launches specialised at other positions on as many literals; without arrays, on the same ones. -/
def Clash (cfg : DispatcherConfig) (values values' : List LaunchValue) : Prop :=
  specialisedFlags cfg values ≠ specialisedFlags cfg values' ∧
  (keyLiterals cfg values).length = (keyLiterals cfg values').length ∧
  ((∀ arg ∈ LaunchValue.flattenAll values, arg.type.isArray = false) → keyLiterals cfg values = keyLiterals cfg values')

/-- The literal positions hold the same literals before and after tuples are flattened. -/
def Aligned (literalArgFlags : List Bool) (values : List LaunchValue) : Prop :=
  ∀ p, literalArgFlags[p]? = some true → nativeLiteral (LaunchValue.flattenAll values) p = topLiteral values p

/-- A launch looks up its kernel only in a family whose kernels do not clash with it, and neither
it nor they have tuples that move a literal position. -/
def PositionsAgree (cfg : DispatcherConfig) (s : LaunchState) : LaunchEvent → Prop
  | .lookup i true =>
    match s.threads i with
    | .looking values profile _ => ∀ k ∈ s.kernels, k.1.1 = profile.family →
      Aligned cfg.literalArgFlags values ∧ Aligned cfg.literalArgFlags k.2.values ∧ Undeclared k.2.values ∧
        ¬ Clash cfg k.2.values values
    | _ => True
  | _ => True

section
variable {flags : List Bool}

theorem same_flags {values values' : List LaunchValue} {profile profile' : PythonArgProfile}
    {constants : List ConstantArg} (h : Keyed (.literals flags) values profile constants)
    (h' : Keyed (.literals flags) values' profile' constants) (hfam : profile.family = profile'.family)
    (hclash : ¬ Clash (.literals flags) values values') : profile.constantArgFlags = profile'.constantArgFlags := by
  have hcst := constant_literals flags
  obtain ⟨bs, hbs, hb⟩ := h.blocks hcst
  obtain ⟨cs, hcs, hc⟩ := h'.blocks hcst
  have hlen := (h.flags_length hcst).symm
  have hlen' := (h'.flags_length hcst).symm
  have harr := h.arrays_eq h' hfam
  have hflags : profile.constantArgFlags = specialisedFlags (.literals flags) values := h.classified.2
  have hflags' : profile'.constantArgFlags = specialisedFlags (.literals flags) values' := h'.classified.2
  have heq : bs.flatten = cs.flatten := by rw [← hbs, ← hcs]
  by_contra hne
  refine hclash ⟨hflags ▸ hflags' ▸ hne, ?_, ?_⟩
  · have hcount := congrArg (List.countP ConstantArg.isHead) heq
    have hnum : (LaunchValue.flattenAll values).countP (fun arg => arg.type.isArray) =
        (LaunchValue.flattenAll values').countP (fun arg => arg.type.isArray) := by
      have hid := congrArg (List.countP id) harr
      rw [List.countP_map, List.countP_map] at hid
      exact hid
    rw [hb.countP hlen, hc.countP hlen', hnum] at hcount
    rw [keyLiterals, keyLiterals, ← hflags, ← hflags']
    exact Nat.add_left_cancel hcount
  · intro hna
    have hna' : ∀ arg ∈ LaunchValue.flattenAll values', arg.type.isArray = false := by
      have hall : ∀ b ∈ (LaunchValue.flattenAll values).map (fun arg => arg.type.isArray), b = false :=
        List.forall_mem_map.mpr hna
      rw [harr] at hall
      exact List.forall_mem_map.mp hall
    rw [hb.literals hlen hna, hc.literals hlen' hna'] at heq
    rw [keyLiterals, keyLiterals, ← hflags, ← hflags']
    exact List.map_injective_iff.mpr (fun _ _ => literalConstant_inj) heq

theorem nativeLiteral_shared {values values' : List LaunchValue} {profile profile' : PythonArgProfile}
    {constants : List ConstantArg} (h : Keyed (.literals flags) values profile constants)
    (h' : Keyed (.literals flags) values' profile' constants) (hfam : profile.family = profile'.family)
    (hflags : profile.constantArgFlags = profile'.constantArgFlags) {p : Nat} {v : LiteralValue}
    (hp : flags[p]? = some true) (hv : nativeLiteral (LaunchValue.flattenAll values) p = some v) :
    nativeLiteral (LaunchValue.flattenAll values') p = some v := by
  obtain ⟨arg, harg, hv⟩ := nativeLiteral_eq_some hv
  have hspec : profile.constantArgFlags[p]? = some true := by
    have hel : literalEligible arg.type = true := by rw [← literalFor_isSome, hv]; rfl
    rw [h.classified.2]
    simp [DispatcherConfig.literals, effective_getElem?, pyargTypes, harg, hp, hel]
  have hzip : ((LaunchValue.flattenAll values).zip profile.constantArgFlags)[p]? = some (arg, true) :=
    List.getElem?_zip_eq_some.mpr ⟨harg, hspec⟩
  obtain ⟨⟨arg', f⟩, hzip', b, hb, hb'⟩ :=
    Blocks.forall₂_getElem? (h.same_blocks (constant_literals flags) h' hfam hflags) hzip
  obtain ⟨harg', hf⟩ := List.getElem?_zip_eq_some.mp hzip'
  rw [← hflags, hspec] at hf
  cases hf
  have hb : ArgBlock arg true b := hb
  have hb' : ArgBlock arg' true b := hb'
  cases hb with
  | array ha => rw [arrayType_of_literal hv] at ha; cases ha
  | plain _ hf => cases hf
  | @literal w hw =>
    rw [hv] at hw
    cases hw
    have harr := congrArg (fun l : List Bool => l[p]?) (h.arrays_eq h' hfam)
    simp only [List.getElem?_map, harg, harg', Option.map_some, Option.some.injEq, ← arrayType_isSome,
      arrayType_of_literal hv] at harr
    generalize hc : [literalConstant v] = c at hb'
    cases hb' with
    | array ha => rw [ha] at harr; cases harr
    | plain _ hf => cases hf
    | literal hw =>
      cases literalConstant_inj (List.singleton_inj.mp hc)
      rw [nativeLiteral, harg']
      exact hw

/-- **Literal kernels.** In every run whose lookups all meet `PositionsAgree`, every kernel found
without compilation has at each position no literal type, or that of the literal launched there. -/
theorem hits_on_literals {es : List LaunchEvent} {s : LaunchState}
    (hok : StepsOk (step (.literals flags)) (PositionsAgree (.literals flags)) .init es)
    (hr : run (step (.literals flags)) .init es = some s) : HitsOnLiterals s.log := by
  refine hits_run ?_ hok hr
  intro s i values profile constants kernel hinv hok hi hl p v hp
  have hkeyed : PcOk (.literals flags) (s.threads i) := hinv.threads i
  simp only [PositionsAgree, hi] at hok
  rw [hi] at hkeyed
  have hmem := mem_of_lookup hl
  obtain ⟨halign, halign', hu, hclash⟩ := hok _ hmem rfl
  obtain ⟨⟨profile', hfam, hkeyed'⟩, hargs⟩ := hinv.kernels _ hmem
  obtain ⟨hflag, hv⟩ := compileArgtypes_literal hargs hu hp
  rw [← halign' p hflag] at hv
  rw [← halign p hflag]
  exact nativeLiteral_shared hkeyed' hkeyed hfam (same_flags hkeyed' hkeyed hfam hclash) hflag hv

end

def npInt64 : PyObj := .npInteger ⟨true, .s8, 7, by decide⟩

def launchAfterLiteral (values : List LaunchValue) (classified : List LaunchEvent) : List LaunchEvent :=
  [.begin 0 [.leaf (.long .int 5), .leaf npInt64], .classify 0, .extract 0 .idle .empty, .lookup 0 true,
    .compiled 0 (some false), .begin 1 values] ++ classified ++ [.extract 1 .idle .empty, .lookup 1 true]

/-- The kernel of the literal 5 and a NumPy integer is found by a NumPy integer and 5. -/
theorem literal_kernel_runs_swapped : ∃ s,
    run (step (.literals [true, true])) .init
      (launchAfterLiteral [.leaf npInt64, .leaf (.long .int 5)] [.classify 1]) = some s ∧ ¬ HitsOnLiterals s.log := by
  refine ⟨_, rfl, ?_⟩
  intro h
  have h5 := h _ _ _ List.mem_cons_self 0 (.int 5) rfl
  cases h5

theorem literal_kernel_runs_again : ∃ s,
    run (step (.literals [true, true])) .init
      (launchAfterLiteral [.leaf (.long .int 5), .leaf npInt64] []) = some s ∧ HitsOnLiterals s.log := by
  have hok : StepsOk (step (.literals [true, true])) (PositionsAgree (.literals [true, true])) .init
      (launchAfterLiteral [.leaf (.long .int 5), .leaf npInt64] []) := by
    refine stepsOk_cons _ rfl trivial (stepsOk_cons _ rfl trivial (stepsOk_cons _ rfl trivial (stepsOk_cons _ rfl ?_
      (stepsOk_cons _ rfl trivial (stepsOk_cons _ rfl trivial (stepsOk_cons _ rfl trivial
        (stepsOk_cons _ rfl ?_ trivial)))))))
    · intro k hk
      cases hk
    · have halign : Aligned [true, true] [.leaf (.long .int 5), .leaf npInt64] := by
        intro p _
        match p with
        | 0 | 1 | p + 2 => rfl
      intro k hk _
      cases hk with
      | tail _ hk => cases hk
      | head =>
        refine ⟨halign, halign, ?_, fun hc => hc.1 rfl⟩
        intro arg ha v
        rcases List.mem_pair.mp ha with rfl | rfl <;> nofun
  exact ⟨_, rfl, hits_on_literals hok rfl⟩

end NumbaCudaMlir

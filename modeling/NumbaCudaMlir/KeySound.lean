import NumbaCudaMlir.ArrayKey
import NumbaCudaMlir.Blocks
import NumbaCudaMlir.ProfileSound

/-!
# The constants of a launch

The constants vector is the concatenation of one block for each argument: the
dtype and identity of an array, the value of a literal, nothing for any other
argument. Two launches of one family that specialise the same positions have
equal constants only if they have equal blocks.
-/

namespace NumbaCudaMlir

open CInt

/-! ## The block of an argument -/

/-- Identity strings follow the packed dtype of their array; every other constant starts a block. -/
def ConstantArg.isHead : ConstantArg → Bool
  | string _ => false
  | _ => true

def literalConstant : LiteralValue → ConstantArg
  | .int v => if InInt64 v then .int64 v else .uint64 v
  | .bool b => .bool b

theorem literalConstant_inj {v w : LiteralValue} (h : literalConstant v = literalConstant w) : v = w := by
  cases v with
  | int v =>
    cases w with
    | int w =>
      rw [literalConstant, literalConstant] at h
      split at h <;> split at h <;> cases h <;> rfl
    | bool b => rw [literalConstant, literalConstant] at h; split at h <;> cases h
  | bool b =>
    cases w with
    | int w => rw [literalConstant, literalConstant] at h; split at h <;> cases h
    | bool c => cases h; rfl

inductive ArgBlock (arg : PyObj) (isConstant : Bool) : List ConstantArg → Prop
  | array {d n dl} : arg.arrayType = some (d, n) → n < 2 ^ 32 → arg.launchDtype d = some dl →
      ArgBlock arg isConstant (arrayConstants dl n (arg.identity d))
  | plain : arg.arrayType = none → isConstant = false → ArgBlock arg isConstant []
  | literal {v} : literalFor (.leaf arg) = some v → isConstant = true → ArgBlock arg isConstant [literalConstant v]

theorem arrayType_isSome (arg : PyObj) : arg.arrayType.isSome = arg.type.isArray := by
  cases arg with
  | npDatetime t => cases t <;> rfl
  | npVoid r => obtain ⟨isRecord, fs, n, p⟩ := r; cases isRecord <;> rfl
  | _ => rfl

theorem arrayType_of_literal {arg : PyObj} {v : LiteralValue} (h : literalFor (.leaf arg) = some v) :
    arg.arrayType = none := by
  cases arg with
  | deviceArray | array => cases h
  | _ => rfl

theorem ArgBlock.isBlock {arg : PyObj} {f : Bool} {b : List ConstantArg} (h : ArgBlock arg f b) :
    Blocks.IsBlock ConstantArg.isHead b := by
  cases h with
  | array =>
    refine .cons _ rfl ?_
    intro x hx
    split at hx
    · cases hx
    · rw [List.mem_singleton] at hx; rw [hx]; rfl
  | plain => trivial
  | @literal v =>
    refine .cons _ ?_ (List.forall_mem_nil _)
    cases v with
    | int v => rw [literalConstant]; split <;> rfl
    | bool b => rfl

theorem ArgBlock.eq_nil_iff {arg : PyObj} {f : Bool} {b : List ConstantArg} (h : ArgBlock arg f b) :
    b = [] ↔ (arg.type.isArray || f) = false := by
  rw [← arrayType_isSome]
  cases h with
  | array ha => simp [arrayConstants, ha]
  | plain ha hf => simp [ha, hf]
  | literal _ hf => simp [hf]

theorem asUnsignedLongLong_ok {v u : Int} (h : asUnsignedLongLong v = .ok u) : InUInt64 v ∧ u = v := by
  rw [asUnsignedLongLong] at h
  split at h
  · cases h
  split at h
  · next hu => cases h; exact ⟨hu, rfl⟩
  · cases h

theorem extractPyLong_block {cls : LongClass} {v : Int} {isConstant : Bool} {helper helper' : LaunchHelper}
    (hf : isConstant = true → literalEligible (.long cls) = true)
    (h : extractPyLong (.long cls v) isConstant helper = .ok helper') :
    ∃ b, helper'.constants = helper.constants ++ b ∧ ArgBlock (.long cls v) isConstant b := by
  -- `c` is the constant that the extractor pushes where the argument is constant.
  have hblock {value : Int} {c : ConstantArg} (hh : helper' = helper.pushScalar [cudaArgI64 value] 0 (constantIf isConstant c))
      (hint : cls = .int → c = literalConstant (.int v)) (hbool : cls = .bool → c = literalConstant (.bool (v ≠ 0))) :
      ∃ b, helper'.constants = helper.constants ++ b ∧ ArgBlock (.long cls v) isConstant b := by
    rw [hh]
    cases isConstant with
    | false => exact ⟨[], rfl, .plain rfl rfl⟩
    | true =>
      refine ⟨[c], rfl, ?_⟩
      have hcls := hf rfl
      cases cls with
      | int => rw [hint rfl]; exact .literal rfl rfl
      | bool => rw [hbool rfl]; exact .literal rfl rfl
      | _ => cases hcls
  rw [extractPyLong] at h
  cases hs : asLongLong v with
  | ok value =>
    rw [hs] at h
    obtain ⟨hv, rfl⟩ := asLongLong_ok.mp hs
    cases h
    refine hblock rfl ?_ ?_
    · intro hi
      rw [hi, if_neg (by decide), literalConstant, if_pos hv]
    · intro hb
      rw [hb, if_pos rfl, literalConstant]
  | error e =>
    simp only [hs, bind_eq_ok] at h
    obtain ⟨u, hu, h⟩ := h
    obtain ⟨hv, rfl⟩ := asUnsignedLongLong_ok hu
    have hn : ¬ InInt64 u := by
      intro hn
      rw [asLongLong, if_pos hn] at hs
      cases hs
    cases h
    refine hblock rfl ?_ ?_
    · intro hi
      rw [hi, if_neg (by decide), literalConstant, if_neg hn]
    · intro hb
      have hge : 2 ^ 63 ≤ u := by unfold InInt64 at hn; unfold InUInt64 at hv; omega
      have hneg := wrap64_neg hge hv.2
      have h1 : wrap64 u ≠ 0 := by omega
      have h2 : u ≠ 0 := by omega
      rw [hb, if_pos rfl, literalConstant, decide_eq_true h1, decide_eq_true h2]

theorem extractCudaArg_block {driver : Driver} {kind : PythonArgKind} {arg : PyObj} {p : ParameterKind}
    {isConstant : Bool} {helper helper' : LaunchHelper} (hc : classifyArg arg = .ok (kind, p))
    (hf : isConstant = true → literalEligible arg.type = true)
    (h : extractCudaArg driver kind arg isConstant helper = .ok helper') :
    ∃ b, helper'.constants = helper.constants ++ b ∧ ArgBlock arg isConstant b := by
  cases ha : arg.arrayType with
  | some t =>
    obtain ⟨d, n⟩ := t
    obtain ⟨hn, dl, hdl, hk⟩ := extractCudaArg_array hc ha h
    exact ⟨_, hk, .array ha hn hdl⟩
  | none =>
    -- Only `int` and `bool` values are constant.
    have hplain (hne : literalEligible arg.type = false) (hk : isConstant = false → helper'.constants = helper.constants) :
        ∃ b, helper'.constants = helper.constants ++ b ∧ ArgBlock arg isConstant b := by
      have hfalse : isConstant = false := by
        cases isConstant with
        | false => rfl
        | true => rw [hf rfl] at hne; cases hne
      exact ⟨[], by rw [hk hfalse, List.append_nil], .plain ha hfalse⟩
    cases arg with
    | long cls v => cases hc; exact extractPyLong_block hf h
    | float | npFloat16 | npFloat32 | npComplex64 | complex =>
      cases hc; cases h
      exact hplain rfl fun hfalse => by simp [LaunchHelper.pushScalar, constantIf, hfalse]
    | enum cls value =>
      obtain ⟨rfl, -⟩ := classifyEnumValue_kind hc
      refine hplain rfl fun hfalse => ?_
      simp only [extractCudaArg, extractPyEnum] at h
      cases value with
      | int v =>
        obtain ⟨x, -, h⟩ := bind_eq_ok.mp h
        cases h
        simp [LaunchHelper.pushScalar, constantIf, hfalse]
      | bool b => cases h; simp [LaunchHelper.pushScalar, constantIf, hfalse]
      | float bits => cases h; simp [LaunchHelper.pushScalar, constantIf, hfalse]
      | other tpName => cases h
    | npDatetime t unit ticks =>
      have hk : kind = .npDatetime := by cases t <;> cases hc <;> rfl
      subst hk
      refine hplain (by cases t <;> rfl) fun hfalse => ?_
      obtain ⟨x, -, h⟩ := bind_eq_ok.mp h
      cases h
      simp [LaunchHelper.pushScalar, constantIf, hfalse]
    | npInteger n =>
      cases hc
      refine hplain rfl fun hfalse => ?_
      obtain ⟨x, -, h⟩ := bind_eq_ok.mp h
      cases h
      simp [LaunchHelper.pushScalar, constantIf, hfalse]
    | npVoid r =>
      rw [classifyArg_npVoid] at hc
      cases hc
      refine hplain (by obtain ⟨isRecord, fs, n, p⟩ := r; cases isRecord <;> rfl) fun _ => ?_
      obtain ⟨hostPtr, -, h⟩ := bind_eq_ok.mp h
      obtain ⟨size, -, h⟩ := bind_eq_ok.mp h
      split at h
      · cases h
      split at h
      · cases h
      split at h
      · cases h
      · cases h; exact List.append_nil _
    | object o =>
      refine hplain rfl fun _ => ?_
      rcases classifyArg_object hc with ⟨rfl, -⟩ | ⟨rfl, -⟩
      · rw [extractCudaArg, extractTmaDescriptor] at h
        split at h
        · obtain ⟨ptr, -, h⟩ := bind_eq_ok.mp h
          split at h
          · split at h
            · cases h
            · cases h; rfl
          · cases h
        · cases h
      · rw [extractCudaArg, extractDeviceRecord] at h
        split at h
        · obtain ⟨data, -, h⟩ := bind_eq_ok.mp h
          obtain ⟨ptr, -, h⟩ := bind_eq_ok.mp h
          cases h; exact List.append_nil _
        · cases h
    | deviceArray | array => cases ha

/-! ## The blocks of a launch -/

def FlaggedBlock (x : PyObj × Bool) (b : List ConstantArg) : Prop := ArgBlock x.1 x.2 b

def ArgBlocks (args : List PyObj) (flags : List Bool) (bs : List (List ConstantArg)) : Prop :=
  List.Forall₂ FlaggedBlock (args.zip flags) bs

theorem ArgBlocks.isBlock {args : List PyObj} {flags : List Bool} {bs : List (List ConstantArg)}
    (h : ArgBlocks args flags bs) : ∀ b ∈ bs, Blocks.IsBlock ConstantArg.isHead b :=
  Blocks.forall_right (fun _ _ hx => ArgBlock.isBlock hx) h

def blockKey : PyObj × Bool → Bool × Bool := Prod.map (fun arg => arg.type.isArray) id

theorem blockKey_nil {x y : PyObj × Bool} {b c : List ConstantArg} (hx : FlaggedBlock x b) (hy : FlaggedBlock y c)
    (h : blockKey x = blockKey y) : b = [] ↔ c = [] := by
  rw [blockKey, Prod.map, Prod.map, Prod.mk.injEq] at h
  have h₂ : x.2 = y.2 := h.2
  rw [ArgBlock.eq_nil_iff hx, ArgBlock.eq_nil_iff hy, h.1, h₂]

def FlagsEligible (flags : List Bool) (args : List PyObj) : Prop :=
  List.Forall₂ (fun f arg => f = true → literalEligible arg.type = true) flags args

theorem extractLoop_blocks {driver : Driver} {kinds : List PythonArgKind} {args : List PyObj}
    (hc : Classified kinds args) : ∀ {flags : List Bool} {helper helper' : LaunchHelper}, FlagsEligible flags args →
    extractLoop driver args kinds flags helper = .ok helper' →
    ∃ bs, helper'.constants = helper.constants ++ bs.flatten ∧ ArgBlocks args flags bs := by
  induction hc with
  | nil =>
    intro flags helper helper' _ h
    cases h
    exact ⟨[], (List.append_nil _).symm, .nil⟩
  | @cons kind arg kinds args hk _ ih =>
    intro flags helper helper' hf h
    obtain ⟨p, hk⟩ := hk
    cases hf with
    | @cons f _ flags _ hf hfs =>
      rw [extractLoop] at h
      obtain ⟨mid, hm, h⟩ := bind_eq_ok.mp h
      obtain ⟨b, hb, hblock⟩ := extractCudaArg_block hk hf hm
      obtain ⟨bs, hbs, hblocks⟩ := ih hfs h
      exact ⟨b :: bs, by rw [hbs, hb, List.flatten_cons, List.append_assoc], .cons hblock hblocks⟩

theorem fastArgs_blocks {kinds : List PythonArgKind} {args : List PyObj} (hc : FastArgs kinds args) :
    ∀ {flags : List Bool} {exs : List ScalarExtractor}, scalarExtractors kinds flags = some exs →
    ∃ bs, bs.flatten = [] ∧ ArgBlocks args flags bs := by
  have step {kind : PythonArgKind} {arg : PyObj} {kinds : List PythonArgKind} {args : List PyObj}
      (ha : arg.arrayType = none)
      (ih : ∀ {flags : List Bool} {exs : List ScalarExtractor}, scalarExtractors kinds flags = some exs →
        ∃ bs, bs.flatten = [] ∧ ArgBlocks args flags bs)
      {flags : List Bool} {exs : List ScalarExtractor} (h : scalarExtractors (kind :: kinds) flags = some exs) :
      ∃ bs, bs.flatten = [] ∧ ArgBlocks (arg :: args) flags bs := by
    obtain ⟨hf, _, rest, -, hr, -⟩ := scalarExtractors_cons h
    obtain ⟨bs, hbs, hblocks⟩ := ih hr
    cases flags with
    | nil => exact ⟨[], rfl, .nil⟩
    | cons f flags => exact ⟨[] :: bs, hbs, .cons (.plain ha hf) hblocks⟩
  induction hc with
  | nil => intro flags exs _; exact ⟨[], rfl, .nil⟩
  | long _ ih | npInteger _ ih | float _ ih | npFloat32 _ ih => intro flags exs h; exact step rfl ih h

theorem effective_eligible : ∀ {cs ls : List Bool} {args : List PyObj}, (∀ c ∈ cs, c = false) →
    FlagsEligible (effectiveConstantArgFlags cs ls (args.map PyObj.type)) args
  | _, _, [], _ => by rw [List.map_nil, effectiveConstantArgFlags]; exact .nil
  | [], _, arg :: args, hc => by
    rw [List.map_cons, effectiveConstantArgFlags]
    · exact .cons nofun (effective_eligible hc)
    · intro _ _ _ _ h; cases h
  | _ :: _, [], arg :: args, _ => by
    rw [List.map_cons, effectiveConstantArgFlags]
    · exact .cons nofun (effective_eligible (List.forall_mem_nil _))
    · intro _ _ _ _ _ h; cases h
  | c :: cs, l :: ls, arg :: args, hc => by
    obtain ⟨rfl, hcs⟩ := List.forall_mem_cons.mp hc
    rw [List.map_cons, effectiveConstantArgFlags]
    refine .cons ?_ (effective_eligible hcs)
    intro h
    rw [Bool.false_or, Bool.and_eq_true] at h
    exact h.2

section
variable {cfg : DispatcherConfig}

theorem Keyed.blocks (hcst : ∀ c ∈ cfg.constantArgFlags, c = false) {values : List LaunchValue}
    {profile : PythonArgProfile} {constants : List ConstantArg} (h : Keyed cfg values profile constants) :
    ∃ bs, constants = bs.flatten ∧ ArgBlocks (LaunchValue.flattenAll values) profile.constantArgFlags bs := by
  obtain ⟨hc, hflags⟩ := h.classified
  obtain ⟨-, driver, stale, params, hx, rfl⟩ := h
  have hf : FlagsEligible profile.constantArgFlags (LaunchValue.flattenAll values) :=
    hflags ▸ effective_eligible hcst
  rw [prepareParams] at hx
  split at hx
  · rw [standardPath] at hx
    obtain ⟨helper, hl, hp⟩ := bind_eq_ok.mp hx
    cases hp
    obtain ⟨bs, hbs, hblocks⟩ := extractLoop_blocks hc hf hl
    exact ⟨bs, hbs, hblocks⟩
  · next hne =>
    rw [List.isEmpty_iff] at hne
    obtain ⟨exs, he⟩ := scalarExtractors_of_fast hne
    obtain ⟨bs, hbs, hblocks⟩ := fastArgs_blocks (fastArgs_of_classified hc he) he
    rw [fastPath] at hx
    obtain ⟨cuargs, -, hp⟩ := bind_eq_ok.mp hx
    cases hp
    exact ⟨bs, hbs.symm, hblocks⟩

theorem Keyed.family {values : List LaunchValue} {profile : PythonArgProfile} {constants : List ConstantArg}
    (h : Keyed cfg values profile constants) :
    profile.family.map (fun p => decide (p = .array)) = (pyargTypes values).map PyType.isArray := by
  have hone {arg : PyObj} {c : PythonArgKind × ParameterKind} (hc : classifyArg arg = .ok c) :
      decide (c.2 = .array) = arg.type.isArray := by
    obtain ⟨k, p⟩ := c
    cases arg with
    | enum cls value => exact decide_eq_false (classifyEnumValue_kind hc).2
    | npDatetime t => cases t <;> cases hc <;> rfl
    | npVoid r => rw [classifyArg_npVoid] at hc; cases hc; obtain ⟨isRecord, fs, n, p⟩ := r; cases isRecord <;> rfl
    | array ary => exact decide_eq_true (classifyArg_array hc).1
    | object o => rcases classifyArg_object hc with ⟨-, rfl⟩ | ⟨-, rfl⟩ <;> rfl
    | _ => cases hc; rfl
  obtain ⟨⟨done, args, ht, hd, rfl⟩, -⟩ := h
  rw [← ht, newProfile]
  clear ht
  induction hd with
  | nil => rfl
  | cons hc _ ih =>
    simp only [List.map_cons, List.map_map] at ih ⊢
    rw [hone hc, ih]

theorem Keyed.flags_length (hcst : ∀ c ∈ cfg.constantArgFlags, c = false) {values : List LaunchValue}
    {profile : PythonArgProfile} {constants : List ConstantArg} (h : Keyed cfg values profile constants) :
    profile.constantArgFlags.length = (LaunchValue.flattenAll values).length := by
  rw [h.classified.2, pyargTypes]
  exact (effective_eligible hcst).length_eq

theorem Keyed.arrays_eq {values values' : List LaunchValue} {profile profile' : PythonArgProfile}
    {constants constants' : List ConstantArg} (h : Keyed cfg values profile constants)
    (h' : Keyed cfg values' profile' constants') (hfam : profile.family = profile'.family) :
    (LaunchValue.flattenAll values).map (fun arg => arg.type.isArray) =
      (LaunchValue.flattenAll values').map (fun arg => arg.type.isArray) := by
  have hf := h.family
  rw [hfam, h'.family, pyargTypes, pyargTypes, List.map_map, List.map_map] at hf
  exact hf.symm

/-- **Equal keys.** Two launches of one family that specialise the same positions share their blocks. -/
theorem Keyed.same_blocks (hcst : ∀ c ∈ cfg.constantArgFlags, c = false) {values values' : List LaunchValue}
    {profile profile' : PythonArgProfile} {constants : List ConstantArg} (h : Keyed cfg values profile constants)
    (h' : Keyed cfg values' profile' constants) (hfam : profile.family = profile'.family)
    (hflags : profile.constantArgFlags = profile'.constantArgFlags) :
    List.Forall₂ (fun x y => ∃ b, FlaggedBlock x b ∧ FlaggedBlock y b)
      ((LaunchValue.flattenAll values).zip profile.constantArgFlags)
      ((LaunchValue.flattenAll values').zip profile'.constantArgFlags) := by
  have harr := h.arrays_eq h' hfam
  obtain ⟨bs, hbs, hb⟩ := h.blocks hcst
  obtain ⟨cs, hcs, hc⟩ := h'.blocks hcst
  have hkey : ((LaunchValue.flattenAll values).zip profile.constantArgFlags).map blockKey =
      ((LaunchValue.flattenAll values').zip profile'.constantArgFlags).map blockKey := by
    unfold blockKey
    rw [← List.zip_map, ← List.zip_map, harr, hflags]
  have hempty := Blocks.emptiness_of_map_eq (P := FlaggedBlock) (g := blockKey) blockKey_nil hb hc hkey
  have hbc := Blocks.flatten_inj ConstantArg.isHead hb.isBlock hc.isBlock hempty (hbs ▸ hcs)
  subst hbc
  exact Blocks.forall₂_share hb hc

end

end NumbaCudaMlir

import NumbaCudaMlir.Libnvvm

/-!
# What the passes do to instructions

A pass replaces the calls of some intrinsics and keeps every other call. What
it puts in their place calls no lifetime intrinsic and carries no attribute.
-/

namespace NumbaCudaMlir.Libnvvm

/-! ## Verified modules -/

def isIntrinsic (name : String) : Bool := "llvm.".toList.isPrefixOf name.toList

/-- In any address space. -/
def isLifetime (name : String) : Bool :=
  "llvm.lifetime.start.".toList.isPrefixOf name.toList || "llvm.lifetime.end.".toList.isPrefixOf name.toList

def insertedNames : List String :=
  ["llvm.nvvm.barrier0", "llvm.nvvm.bar.sync", BarrierReduction.and.newName, BarrierReduction.or.newName,
    BarrierReduction.popc.newName, "__nv_trunc", "__nv_truncf"]

/-- An intrinsic is declared, called and not used otherwise. -/
structure Sane (m : Module) : Prop where
  declared : ∀ i ∈ m.instructions, ∀ c, i.op = .call c → ∀ name, c.callee = .function name →
    (m.functions.get name).isSome
  intrinsicCall : ∀ i ∈ m.instructions, ∀ c, i.op = .call c → ∀ name, c.callee = .function name →
    isIntrinsic name → c.callInst
  intrinsicOperand : ∀ i ∈ m.instructions, ∀ name, isIntrinsic name → Value.function name ∉ i.op.operands
  lifetimeArity : ∀ i ∈ m.instructions, ∀ c, i.op = .call c → ∀ name, c.callee = .function name → isLifetime name →
    ∀ f, m.functions.get name = some f → c.args.length = f.params.length
  asmArity : ∀ i ∈ m.instructions, ∀ c, i.op = .call c → ∀ a ∈ asmIntrinsics, c.callee = .function a.name →
    c.args.length = a.fnTy.params.length
  lifetimeBlocks : ∀ name, isLifetime name → ∀ f, m.functions.get name = some f → f.blocks = []

theorem isIntrinsic_of_isLifetime {name : String} (h : isLifetime name) : isIntrinsic name := by
  have hpre : ∀ pre : List Char, "llvm.".toList.isPrefixOf pre → pre.isPrefixOf name.toList → isIntrinsic name :=
    fun pre h1 h2 => by
      rw [List.isPrefixOf_iff_prefix] at h1 h2
      exact List.isPrefixOf_iff_prefix.mpr (h1.trans h2)
  rw [isLifetime, Bool.or_eq_true] at h
  rcases h with h | h
  · exact hpre _ (by decide) h
  · exact hpre _ (by decide) h

theorem lifetime_of_mem {name : String} (h : name ∈ lifetimeNames) : isLifetime name := by
  revert name
  decide

theorem not_lifetime_of_inserted {name : String} (h : name ∈ insertedNames) : ¬ isLifetime name := by
  revert name
  decide

theorem isIntrinsic_asm : ∀ a ∈ asmIntrinsics, isIntrinsic a.name := by decide

theorem not_inserted_of_asm : ∀ a ∈ asmIntrinsics, a.name ∉ insertedNames := by decide

/-! ## Rewriting -/

/-- The bundle operands of a call are no arguments. -/
def Strict (api : Api) : Prop := ∀ c, api.asmArgs c = c.args

def Typed (i : Instruction) : Prop :=
  ∀ c, i.op = .call c → ∀ asm, c.callee = .inlineAsm asm → c.args.length = c.fnTy.params.length

/-- The instruction `j` may stand for `i` in the module. -/
structure Fits (api : Api) (m : Module) (i j : Instruction) : Prop where
  operands : ∀ name, Value.function name ∈ j.op.operands → Value.function name ∈ i.op.operands
  call : ∀ c, j.op = .call c → c.callInst ∧ c.attrs.all = [] ∧ c.bundles = [] ∧
    ∀ name, c.callee = .function name → name ∈ insertedNames ∧ (m.functions.get name).isSome
  typed : Strict api → Typed j

/-- The calls that are hit make way for instructions that fit, every other call stays. -/
structure Rewrites (api : Api) (hit : CallBase → Prop) (m m' : Module) : Prop where
  keep : ∀ i ∈ m.instructions, ∀ c, i.op = .call c → ¬ hit c → i ∈ m'.instructions
  origin : ∀ j ∈ m'.instructions,
    (∃ i ∈ m.instructions, Fits api m' i j) ∨ j ∈ m.instructions ∧ ∀ c, j.op = .call c → ¬ hit c
  declared : ∀ name, (m.functions.get name).isSome → (m'.functions.get name).isSome ∨
    isLifetime name ∧ ∀ i ∈ m.instructions, ∀ c, i.op = .call c → c.callee = .function name → hit c
  lifetimes : ∀ name, isLifetime name → ∀ f', m'.functions.get name = some f' →
    ∃ f, m.functions.get name = some f ∧ f.params.length = f'.params.length ∧ (f.blocks = [] → f'.blocks = [])

section
variable {api : Api}

theorem Rewrites.fits_mono {hit : CallBase → Prop} {m m' : Module} (h : Rewrites api hit m m') {i j : Instruction}
    (hf : Fits api m i j) : Fits api m' i j := by
  refine ⟨hf.operands, fun c hc => ?_, hf.typed⟩
  obtain ⟨h1, h2, h3, h4⟩ := hf.call c hc
  refine ⟨h1, h2, h3, fun name hname => ?_⟩
  obtain ⟨hins, hsome⟩ := h4 name hname
  rcases h.declared name hsome with hd | ⟨hl, -⟩
  · exact ⟨hins, hd⟩
  · exact absurd hl (not_lifetime_of_inserted hins)

theorem Rewrites.of_imp {hit hit' : CallBase → Prop} {m m' : Module} (h : Rewrites api hit m m')
    (himp : ∀ i ∈ m.instructions, ∀ c, i.op = .call c → (hit c ↔ hit' c)) : Rewrites api hit' m m' where
  keep i hi c hc hn := h.keep i hi c hc fun hh => hn ((himp i hi c hc).mp hh)
  origin j hj := by
    rcases h.origin j hj with hf | ⟨hm, hn⟩
    · exact .inl hf
    · exact .inr ⟨hm, fun c hc hh => hn c hc ((himp j hm c hc).mpr hh)⟩
  declared name hsome := by
    rcases h.declared name hsome with hd | ⟨hl, hall⟩
    · exact .inl hd
    · exact .inr ⟨hl, fun i hi c hc hcallee => (himp i hi c hc).mp (hall i hi c hc hcallee)⟩
  lifetimes := h.lifetimes

theorem Rewrites.trans {hit hit' : CallBase → Prop} {m m' m'' : Module} (h : Rewrites api hit m m')
    (h' : Rewrites api hit' m' m'') : Rewrites api (fun c => hit c ∨ hit' c) m m'' where
  keep i hi c hc hn :=
    h'.keep i (h.keep i hi c hc fun hh => hn (.inl hh)) c hc fun hh => hn (.inr hh)
  origin j hj := by
    rcases h'.origin j hj with ⟨i, hi, hf⟩ | ⟨hj', hn'⟩
    · left
      rcases h.origin i hi with ⟨i0, hi0, hf0⟩ | ⟨hi0, -⟩
      · exact ⟨i0, hi0, fun name hname => hf0.operands name (hf.operands name hname), hf.call, hf.typed⟩
      · exact ⟨i, hi0, hf⟩
    · rcases h.origin j hj' with ⟨i, hi, hf⟩ | ⟨hj0, hn⟩
      · exact .inl ⟨i, hi, h'.fits_mono hf⟩
      · refine .inr ⟨hj0, fun c hc hh => ?_⟩
        rcases hh with hh | hh
        · exact hn c hc hh
        · exact hn' c hc hh
  declared name hsome := by
    rcases h.declared name hsome with hd | ⟨hl, hall⟩
    · rcases h'.declared name hd with hd' | ⟨hl, hall⟩
      · exact .inl hd'
      · refine .inr ⟨hl, fun i hi c hc hcallee => ?_⟩
        by_cases hh : hit c
        · exact .inl hh
        · exact .inr (hall i (h.keep i hi c hc hh) c hc hcallee)
    · exact .inr ⟨hl, fun i hi c hc hcallee => .inl (hall i hi c hc hcallee)⟩
  lifetimes name hl f'' hf'' := by
    obtain ⟨f', hf', hlen', hblocks'⟩ := h'.lifetimes name hl f'' hf''
    obtain ⟨f, hf, hlen, hblocks⟩ := h.lifetimes name hl f' hf'
    exact ⟨f, hf, hlen.trans hlen', fun h => hblocks' (hblocks h)⟩

theorem Rewrites.sane {hit : CallBase → Prop} {m m' : Module} (h : Rewrites api hit m m') (hs : Sane m) : Sane m' where
  declared j hj c hc name hname := by
    rcases h.origin j hj with ⟨i, -, hf⟩ | ⟨hj0, hn⟩
    · exact ((hf.call c hc).2.2.2 name hname).2
    · rcases h.declared name (hs.declared j hj0 c hc name hname) with hd | ⟨-, hall⟩
      · exact hd
      · exact absurd (hall j hj0 c hc hname) (hn c hc)
  intrinsicCall j hj c hc name hname hintr := by
    rcases h.origin j hj with ⟨i, -, hf⟩ | ⟨hj0, -⟩
    · exact (hf.call c hc).1
    · exact hs.intrinsicCall j hj0 c hc name hname hintr
  intrinsicOperand j hj name hintr hmem := by
    rcases h.origin j hj with ⟨i, hi, hf⟩ | ⟨hj0, -⟩
    · exact hs.intrinsicOperand i hi name hintr (hf.operands name hmem)
    · exact hs.intrinsicOperand j hj0 name hintr hmem
  lifetimeArity j hj c hc name hname hl f' hf' := by
    rcases h.origin j hj with ⟨i, -, hf⟩ | ⟨hj0, -⟩
    · exact absurd hl (not_lifetime_of_inserted ((hf.call c hc).2.2.2 name hname).1)
    · obtain ⟨f, hget, hlen, -⟩ := h.lifetimes name hl f' hf'
      rw [hs.lifetimeArity j hj0 c hc name hname hl f hget, hlen]
  asmArity j hj c hc a ha hname := by
    rcases h.origin j hj with ⟨i, -, hf⟩ | ⟨hj0, -⟩
    · exact absurd ((hf.call c hc).2.2.2 a.name hname).1 (not_inserted_of_asm a ha)
    · exact hs.asmArity j hj0 c hc a ha hname
  lifetimeBlocks name hl f' hf' := by
    obtain ⟨f, hget, -, hblocks⟩ := h.lifetimes name hl f' hf'
    exact hblocks (hs.lifetimeBlocks name hl f hget)

theorem Rewrites.mem_iff {hit : CallBase → Prop} {m m' : Module} (h : Rewrites api hit m m') {i : Instruction} {c : CallBase}
    (hc : i.op = .call c) (hold : c.attrs.all ≠ [] ∨ c.bundles ≠ [] ∨ ∃ name, c.callee = .function name ∧ name ∉ insertedNames) :
    i ∈ m'.instructions ↔ i ∈ m.instructions ∧ ¬ hit c := by
  constructor
  · intro hi
    rcases h.origin i hi with ⟨i0, -, hf⟩ | ⟨hi0, hn⟩
    · obtain ⟨-, hattrs, hbundles, hcallee⟩ := hf.call c hc
      rcases hold with hold | hold | ⟨name, hname, hins⟩
      · exact absurd hattrs hold
      · exact absurd hbundles hold
      · exact absurd (hcallee name hname).1 hins
    · exact ⟨hi0, hn c hc⟩
  · rintro ⟨hi, hn⟩
    exact h.keep i hi c hc hn

theorem Rewrites.typed {hit : CallBase → Prop} {m m' : Module} (h : Rewrites api hit m m') (hstrict : Strict api)
    (ht : ∀ i ∈ m.instructions, Typed i) : ∀ j ∈ m'.instructions, Typed j := by
  intro j hj
  rcases h.origin j hj with ⟨i, -, hf⟩ | ⟨hj0, -⟩
  · exact hf.typed hstrict
  · exact ht j hj0

end

/-! ## Instructions of a module -/

theorem mem_instructions {m : Module} {i : Instruction} :
    i ∈ m.instructions ↔ ∃ name f, m.functions.get name = some f ∧ ∃ b ∈ f.blocks, i ∈ b := by
  simp only [Module.instructions, Dict.values, List.mem_flatMap, List.mem_map, Prod.exists, List.mem_flatten,
    Dict.get_eq_some_iff]
  constructor
  · rintro ⟨f, ⟨name, f', hmem, rfl⟩, hb⟩
    exact ⟨name, f', hmem, hb⟩
  · rintro ⟨name, f, hmem, hb⟩
    exact ⟨f, ⟨name, f, hmem, rfl⟩, hb⟩

theorem mem_instructions_mapInstructions {m : Module} {g : Instruction → List Instruction} {j : Instruction} :
    j ∈ (m.mapInstructions g).instructions ↔ ∃ i ∈ m.instructions, j ∈ g i := by
  simp only [mem_instructions, Module.mapInstructions, Module.mapFunctions, Dict.get_mapValues, Option.map_eq_some_iff]
  constructor
  · rintro ⟨name, f', ⟨f, hf, rfl⟩, b', hb', hj⟩
    obtain ⟨b, hb, rfl⟩ := List.mem_map.mp hb'
    obtain ⟨i, hi, hj⟩ := List.mem_flatMap.mp hj
    exact ⟨i, ⟨name, f, hf, b, hb, hi⟩, hj⟩
  · rintro ⟨i, ⟨name, f, hf, b, hb, hi⟩, hj⟩
    exact ⟨name, _, ⟨f, hf, rfl⟩, _, List.mem_map_of_mem hb, List.mem_flatMap.mpr ⟨i, hi, hj⟩⟩

theorem isSome_mapFunctions (m : Module) (g : Function → Function) (name : String) :
    ((m.mapFunctions g).functions.get name).isSome = (m.functions.get name).isSome := by
  simp [Module.mapFunctions]

section
variable {llvm : Llvm} {api : Api}

theorem rewrites_of_functions {m m' : Module} (h : m'.functions = m.functions) : Rewrites api (fun _ => False) m m' := by
  have hinstr : m'.instructions = m.instructions := by rw [Module.instructions, h, Module.instructions]
  refine ⟨fun i hi c hc hn => hinstr ▸ hi, fun j hj => .inr ⟨hinstr ▸ hj, fun _ _ h => h⟩, fun name hsome => .inl (h ▸ hsome),
    fun name hl f' hf' => ⟨f', h ▸ hf', rfl, id⟩⟩

theorem get_getOrAdd (llvm : Llvm) (m : Module) (name name' : String) (ty : FunctionType) :
    ∃ f, f.callingConv = 0 ∧ f.params.length = ty.params.length ∧ (∀ p ∈ f.params, p.attrs = []) ∧ f.blocks = [] ∧
      (getOrAddFunction llvm m name ty).functions.get name' =
        if name' = name then some ((m.functions.get name).getD f) else m.functions.get name' :=
  ⟨_, rfl, List.length_map _, fun p hp => by obtain ⟨_, -, rfl⟩ := List.mem_map.mp hp; rfl, rfl, Dict.get_setDefault ..⟩

theorem rewrites_getOrAdd (llvm : Llvm) (api : Api) (m : Module) (name : String) (ty : FunctionType) (hname : ¬ isLifetime name) :
    Rewrites api (fun _ => False) m (getOrAddFunction llvm m name ty) := by
  have hinstr : ∀ {i}, i ∈ (getOrAddFunction llvm m name ty).instructions ↔ i ∈ m.instructions := fun {i} => by
    simp only [mem_instructions]
    constructor
    · rintro ⟨name', f', hf', b, hb, hi⟩
      obtain ⟨f, -, -, -, hblocks, hget⟩ := get_getOrAdd llvm m name name' ty
      rw [hget] at hf'
      split at hf'
      · next heq =>
        cases h : m.functions.get name with
        | none =>
          rw [h] at hf'
          cases hf'
          rw [Option.getD_none, hblocks] at hb
          cases hb
        | some f0 =>
          rw [h] at hf'
          cases hf'
          exact ⟨name, f0, h, b, hb, hi⟩
      · exact ⟨name', f', hf', b, hb, hi⟩
    · rintro ⟨name', f', hf', b, hb, hi⟩
      obtain ⟨f, -, -, -, -, hget⟩ := get_getOrAdd llvm m name name' ty
      refine ⟨name', f', ?_, b, hb, hi⟩
      rw [hget]
      split
      · next heq => rw [← heq, hf']; rfl
      · exact hf'
  refine ⟨fun i hi c hc hn => hinstr.mpr hi, fun j hj => .inr ⟨hinstr.mp hj, fun _ _ h => h⟩, fun name' hsome => .inl ?_,
    fun name' hl f' hf' => ⟨f', ?_, rfl, id⟩⟩
  · obtain ⟨f, -, -, -, -, hget⟩ := get_getOrAdd llvm m name name' ty
    rw [hget]
    split
    · rfl
    · exact hsome
  · obtain ⟨f, -, -, -, -, hget⟩ := get_getOrAdd llvm m name name' ty
    rw [hget, if_neg] at hf'
    · exact hf'
    · rintro rfl
      exact hname hl

/-- Both implementations find the calls of an intrinsic. -/
def Finds (api : Api) : Prop := ∀ c, c.callInst → api.isCallUser c

theorem rewrites_replaceCalls {m : Module} {name : String} {g : Instruction → CallBase → List Instruction}
    (hs : Sane m) (hapi : Finds api) (hname : isIntrinsic name)
    (hfits : ∀ i ∈ m.instructions, ∀ c, i.op = .call c → c.callee = .function name → ∀ j ∈ g i c, Fits api m i j) :
    Rewrites api (fun c => c.callee = .function name) m (replaceCalls api m name g) := by
  have hsome : ∀ name', ((replaceCalls api m name g).functions.get name').isSome = (m.functions.get name').isSome :=
    isSome_mapFunctions _ _
  have hfits' : ∀ {i j : Instruction}, Fits api m i j → Fits api (replaceCalls api m name g) i j := fun h =>
    ⟨h.operands, fun c hc => by
      obtain ⟨h1, h2, h3, h4⟩ := h.call c hc
      exact ⟨h1, h2, h3, fun n hn => by rw [hsome]; exact h4 n hn⟩, h.typed⟩
  refine ⟨fun i hi c hc hn => ?_, fun j hj => ?_, fun name' h => .inl (hsome name' ▸ h), fun name' hl f' hf' => ?_⟩
  · refine mem_instructions_mapInstructions.mpr ⟨i, hi, ?_⟩
    simp only [hc, hn, false_and, if_false, List.mem_singleton]
  · obtain ⟨i, hi, hj⟩ := mem_instructions_mapInstructions.mp hj
    cases hop : i.op with
    | call c =>
      simp only [hop] at hj
      split at hj
      · next hcall => exact .inl ⟨i, hi, hfits' (hfits i hi c hop hcall.1 j hj)⟩
      · next hcall =>
        rw [List.mem_singleton] at hj
        subst hj
        refine .inr ⟨hi, fun c' hc' hcallee => hcall ?_⟩
        cases hop.symm.trans hc'
        exact ⟨hcallee, hapi c (hs.intrinsicCall j hi c hop name hcallee hname)⟩
    | _ =>
      simp only [hop, List.mem_singleton] at hj
      subst hj
      exact .inr ⟨hi, fun c hc => by simp [hop] at hc⟩
  · simp only [replaceCalls, Module.mapInstructions, Module.mapFunctions, Dict.get_mapValues,
      Option.map_eq_some_iff] at hf'
    obtain ⟨f, hf, rfl⟩ := hf'
    exact ⟨f, hf, rfl, fun h => by rw [h]; rfl⟩

theorem rewrites_of_undeclared {m : Module} {name : String} (hs : Sane m) (hnone : m.functions.get name = none) :
    Rewrites api (fun c => c.callee = .function name) m m := by
  apply (rewrites_of_functions rfl).of_imp
  intro i hi c hc
  refine ⟨False.elim, fun hcallee => ?_⟩
  have := hs.declared i hi c hc name hcallee
  simp [hnone] at this

/-! ## The instructions that passes insert -/

theorem fits_value {m : Module} {i : Instruction} {id : ValueId} {ty : LlvmType} {op : Op} (hop : ∀ c, op ≠ .call c)
    (h : ∀ name, Value.function name ∈ op.operands → Value.function name ∈ i.op.operands) : Fits api m i ⟨id, ty, op⟩ :=
  ⟨h, fun c hc => absurd hc (hop c), fun _ c hc => absurd hc (hop c)⟩

theorem fits_call {m : Module} {i : Instruction} {id : ValueId} {ty : LlvmType} {fnTy : FunctionType} {callee : Value}
    {args : List Value}
    (hargs : ∀ name, Value.function name ∈ args → Value.function name ∈ i.op.operands)
    (hcallee : ∀ name, callee = .function name → name ∈ insertedNames ∧ (m.functions.get name).isSome)
    (htyped : Strict api → ∀ asm, callee = .inlineAsm asm → args.length = fnTy.params.length) :
    Fits api m i ⟨id, ty, buildCall fnTy callee args⟩ := by
  refine ⟨?_, fun c hc => ?_, fun hstrict c hc => ?_⟩
  · intro name h
    rw [buildCall, Op.operands, CallBase.bundleOperands, List.flatMap_nil, List.append_nil] at h
    exact hargs name h
  · cases hc
    exact ⟨rfl, rfl, rfl, hcallee⟩
  · cases hc
    exact htyped hstrict

theorem getOperand_mem {i : Instruction} {c : CallBase} (hc : i.op = .call c) (k : Nat) (name : String)
    (h : Value.function name = c.getOperand k) : Value.function name ∈ i.op.operands := by
  rw [hc, Op.operands, List.mem_append]
  left
  rw [CallBase.getOperand, List.getD_eq_getElem?_getD] at h
  cases hk : c.args[k]? with
  | none => simp [hk] at h
  | some v =>
    rw [hk, Option.getD_some] at h
    rw [h]
    exact List.mem_of_getElem? hk

/-! ## The passes -/

theorem isSome_getOrAdd_self (m : Module) (name : String) (ty : FunctionType) :
    ((getOrAddFunction llvm m name ty).functions.get name).isSome := by
  obtain ⟨f, -, -, -, -, hget⟩ := get_getOrAdd llvm m name name ty
  rw [hget, if_pos rfl]
  rfl

theorem isSome_getOrAdd {m : Module} {name name' : String} (ty : FunctionType) (h : (m.functions.get name').isSome) :
    ((getOrAddFunction llvm m name ty).functions.get name').isSome := by
  obtain ⟨f, -, -, -, -, hget⟩ := get_getOrAdd llvm m name name' ty
  rw [hget]
  split
  · rfl
  · exact h

variable {m : Module} (hs : Sane m) (hapi : Finds api)

include hs hapi

theorem rewrites_guarded {m1 : Module} {name : String} {g : Instruction → CallBase → List Instruction}
    (hname : isIntrinsic name) (h1 : Rewrites api (fun _ => False) m m1)
    (hfits : ∀ i ∈ m1.instructions, ∀ c, i.op = .call c → c.callee = .function name → ∀ j ∈ g i c, Fits api m1 i j) :
    Rewrites api (fun c => c.callee = .function name) m
      (match m.functions.get name with
      | none => m
      | some _ => replaceCalls api m1 name g) := by
  cases hget : m.functions.get name with
  | none => exact rewrites_of_undeclared hs hget
  | some f =>
    apply (h1.trans (rewrites_replaceCalls (h1.sane hs) hapi hname hfits)).of_imp
    intro i _ c _
    exact iff_of_eq (false_or _)

variable (llvm) in
theorem rewrites_barrierSync :
    Rewrites api (fun c => c.callee = .function "llvm.nvvm.barrier.cta.sync.aligned.all") m (adaptBarrierSync llvm api m) := by
  have h0 := rewrites_getOrAdd llvm api m "llvm.nvvm.barrier0" barrier0Ty (by decide)
  have h1 := h0.trans (rewrites_getOrAdd llvm api _ "llvm.nvvm.bar.sync" barSyncTy (by decide))
  apply rewrites_guarded hs hapi (by decide) (h1.of_imp fun _ _ _ _ => or_self_iff)
  intro i hi c hc hcall j hj
  dsimp only at hj
  split at hj <;> cases List.mem_singleton.mp hj
  · refine fits_call (by simp) ?_ (by rintro _ _ ⟨⟩)
    rintro _ ⟨⟩
    exact ⟨by decide, isSome_getOrAdd _ (isSome_getOrAdd_self _ _ _)⟩
  · refine fits_call (fun name h => getOperand_mem hc 0 name (List.mem_singleton.mp h)) ?_ (by rintro _ _ ⟨⟩)
    rintro _ ⟨⟩
    exact ⟨by decide, isSome_getOrAdd_self _ _ _⟩

variable (llvm) in
theorem rewrites_reduction (op : BarrierReduction) :
    Rewrites api (fun c => c.callee = .function op.oldName) m (adaptReduction llvm api m op) := by
  have h1 := rewrites_getOrAdd llvm api m op.newName redTy (by cases op <;> decide)
  apply rewrites_guarded hs hapi (by cases op <;> decide) h1
  intro i hi c hc hcall j hj
  simp only [List.mem_append, List.mem_cons, List.not_mem_nil, or_false] at hj
  rcases hj with (rfl | rfl) | hj
  · apply fits_value (by rintro _ ⟨⟩)
    intro name h
    exact getOperand_mem hc 1 name (List.mem_singleton.mp h)
  · refine fits_call (by simp) ?_ (by rintro _ _ ⟨⟩)
    rintro _ ⟨⟩
    exact ⟨by cases op <;> decide, isSome_getOrAdd_self _ _ _⟩
  · split at hj
    · cases List.mem_singleton.mp hj
      exact fits_value (by rintro _ ⟨⟩) (by simp [Op.operands])
    · cases hj

theorem rewrites_asm {a : AsmIntrinsic} (ha : a ∈ asmIntrinsics)
    (hargs : ∀ c, ∀ v ∈ api.asmArgs c, v ∈ c.args ++ c.bundleOperands) :
    Rewrites api (fun c => c.callee = .function a.name) m (replaceIntrinsicWithAsm api m a) := by
  apply rewrites_guarded hs hapi (isIntrinsic_asm a ha) (rewrites_of_functions rfl)
  intro i hi c hc hcall j hj
  cases List.mem_singleton.mp hj
  refine fits_call (fun name h => ?_) (by rintro _ ⟨⟩) fun hstrict asm _ => ?_
  · rw [hc]
    exact hargs c _ h
  · rw [hstrict]
    exact hs.asmArity i hi c hc a ha hcall

variable (llvm) in
theorem rewrites_trunc (t : TruncMapping) (ht : t ∈ truncMappings) :
    Rewrites api (fun c => c.callee = .function t.intrinsic) m (adaptTruncMapping llvm api m t) := by
  have hnames : isIntrinsic t.intrinsic ∧ t.libdevice ∈ insertedNames := by
    revert t
    decide
  have h1 := rewrites_getOrAdd llvm api m t.libdevice t.libFnTy (not_lifetime_of_inserted hnames.2)
  apply rewrites_guarded hs hapi hnames.1 h1
  intro i hi c hc hcall j hj
  have hlib : ∀ name, Value.function t.libdevice = .function name →
      name ∈ insertedNames ∧ ((getOrAddFunction llvm m t.libdevice t.libFnTy).functions.get name).isSome := by
    rintro _ ⟨⟩
    exact ⟨hnames.2, isSome_getOrAdd_self _ _ _⟩
  have harg : ∀ name, Value.function name ∈ [c.getOperand 0] → Value.function name ∈ i.op.operands := fun name h =>
    getOperand_mem hc 0 name (List.mem_singleton.mp h)
  dsimp only at hj
  split at hj
  · simp only [List.mem_cons, List.not_mem_nil, or_false] at hj
    rcases hj with rfl | rfl | rfl
    · exact fits_value (by rintro _ ⟨⟩) harg
    · exact fits_call (by simp) hlib (by rintro _ _ ⟨⟩)
    · exact fits_value (by rintro _ ⟨⟩) (by simp [Op.operands])
  · cases List.mem_singleton.mp hj
    exact fits_call harg hlib (by rintro _ _ ⟨⟩)

omit hs hapi in
theorem fits_atomicrmwAt (m : Module) (i : Instruction) : adaptAtomicrmwAt i = i ∨ Fits api m i (adaptAtomicrmwAt i) := by
  obtain ⟨id, ty, op⟩ := i
  unfold adaptAtomicrmwAt
  split
  · next hop =>
    cases hop
    exact .inr (fits_value (by rintro _ ⟨⟩) fun _ h => h)
  · next hop =>
    cases hop
    exact .inr (fits_value (by rintro _ ⟨⟩) fun _ h => h)
  · next ptr val _ hop =>
    cases hop
    unfold lowerFadd
    split
    · exact .inl rfl
    · exact .inr (fits_call (fun _ h => h) (by rintro _ ⟨⟩) fun _ _ _ => rfl)
  · exact .inl rfl

omit hs hapi in
theorem rewrites_atomicrmw : Rewrites api (fun _ => False) m (adaptAtomicrmw m) := by
  refine ⟨fun i hi c hc _ => ?_, fun j hj => ?_, fun name h => .inl ((isSome_mapFunctions m _ name).symm ▸ h),
    fun name _ f' hf' => ?_⟩
  · refine mem_instructions_mapInstructions.mpr ⟨i, hi, ?_⟩
    simp only [adaptAtomicrmwAt, hc, List.mem_singleton]
  · obtain ⟨i, hi, hj⟩ := mem_instructions_mapInstructions.mp hj
    rw [List.mem_singleton] at hj
    subst hj
    rcases fits_atomicrmwAt (adaptAtomicrmw m) i with h | h
    · exact .inr ⟨h.symm ▸ hi, fun _ _ h => h⟩
    · exact .inl ⟨i, hi, h⟩
  · simp only [adaptAtomicrmw, Module.mapInstructions, Module.mapFunctions, Dict.get_mapValues,
      Option.map_eq_some_iff] at hf'
    obtain ⟨f, hf, rfl⟩ := hf'
    exact ⟨f, hf, rfl, fun h => by rw [h]; rfl⟩

theorem rewrites_eraseCalls {name : String} (hname : name ∈ lifetimeNames) {f : Function}
    (hget : m.functions.get name = some f) (hlen : f.params.length ≠ 2) :
    Rewrites api (fun c => c.callee = .function name ∧ c.args.length ≠ 2) m (replaceCalls api m name fun _ _ => []) := by
  have hl := lifetime_of_mem hname
  apply (rewrites_replaceCalls hs hapi (isIntrinsic_of_isLifetime hl) fun i _ c _ _ j hj => by cases hj).of_imp
  intro i hi c hc
  exact ⟨fun h => ⟨h, by rw [hs.lifetimeArity i hi c hc name h hl f hget]; exact hlen⟩, And.left⟩

end

theorem rewrites_delete {m : Module} {name : String} (hl : isLifetime name)
    (hdecl : ∀ i ∈ m.instructions, ∀ c, i.op = .call c → c.callee ≠ .function name) (hs : Sane m) :
    Rewrites api (fun _ => False) m (Launcher.deleteFunction m name) := by
  have hinstr : ∀ {i}, i ∈ (Launcher.deleteFunction m name).instructions ↔ i ∈ m.instructions := fun {i} => by
    simp only [mem_instructions, Launcher.deleteFunction, Dict.get_erase]
    constructor
    · rintro ⟨name', f, hf, hb⟩
      split at hf
      · cases hf
      · exact ⟨name', f, hf, hb⟩
    · rintro ⟨name', f, hf, b, hb, hi⟩
      refine ⟨name', f, ?_, b, hb, hi⟩
      rw [if_neg]
      · exact hf
      · rintro rfl
        rw [hs.lifetimeBlocks _ hl f hf] at hb
        cases hb
  refine ⟨fun i hi c hc _ => hinstr.mpr hi, fun j hj => .inr ⟨hinstr.mp hj, fun _ _ h => h⟩, fun name' hsome => ?_,
    fun name' _ f' hf' => ⟨f', ?_, rfl, id⟩⟩
  · by_cases heq : name' = name
    · subst heq
      exact .inr ⟨hl, fun i hi c hc hcallee => hdecl i hi c hc hcallee⟩
    · left
      rw [Launcher.deleteFunction, Dict.get_erase_ne _ heq]
      exact hsome
  · simp only [Launcher.deleteFunction, Dict.get_erase] at hf'
    split at hf'
    · cases hf'
    · exact hf'

def Deletes (api : Api) : Prop :=
  ∀ m name, api.deleteFunction m name = m ∨ api.deleteFunction m name = Launcher.deleteFunction m name

section
variable {llvm : Llvm} {api : Api} (hapi : Finds api) (hdel : Deletes api)

include hapi in
theorem not_called_of_erased {m : Module} (hs : Sane m) {name : String} (hname : name ∈ lifetimeNames) {f : Function}
    (hget : m.functions.get name = some f) (hlen : f.params.length ≠ 2) :
    ∀ i ∈ (replaceCalls api m name fun _ _ => []).instructions, ∀ c, i.op = .call c → c.callee ≠ .function name := by
  intro i hi c hc hcallee
  have hl := lifetime_of_mem hname
  have hr := rewrites_eraseCalls hs hapi hname hget hlen
  obtain ⟨hi0, hn⟩ := (hr.mem_iff hc (.inr (.inr ⟨name, hcallee, fun h => not_lifetime_of_inserted h hl⟩))).mp hi
  exact hn ⟨hcallee, by rw [hs.lifetimeArity i hi0 c hc name hcallee hl f hget]; exact hlen⟩

include hapi hdel

theorem rewrites_lifetimeOf {m : Module} (hs : Sane m) {name : String} (hname : name ∈ lifetimeNames) :
    Rewrites api (fun c => c.callee = .function name ∧ c.args.length ≠ 2) m (downgradeLifetimeOf api m name) := by
  have hl := lifetime_of_mem hname
  unfold downgradeLifetimeOf
  cases hget : m.functions.get name with
  | none =>
    apply (rewrites_of_undeclared hs hget).of_imp
    intro i hi c hc
    refine ⟨fun h => ?_, And.left⟩
    have := hs.declared i hi c hc name h
    simp [hget] at this
  | some f =>
    dsimp only
    split
    · next hlen =>
      apply (rewrites_of_functions rfl).of_imp
      intro i hi c hc
      refine ⟨False.elim, fun h => h.2 ?_⟩
      rw [hs.lifetimeArity i hi c hc name h.1 hl f hget, hlen]
    · next hlen =>
      have hr := rewrites_eraseCalls hs hapi hname hget hlen
      rcases hdel (replaceCalls api m name fun _ _ => []) name with h | h
      · rw [h]
        exact hr
      · rw [h]
        have hd : Rewrites api _ _ _ := rewrites_delete hl (not_called_of_erased hapi hs hname hget hlen) (hr.sane hs)
        exact (hr.trans hd).of_imp fun _ _ _ _ => iff_of_eq (or_false _)

theorem rewrites_lifetime {m : Module} (hs : Sane m) :
    Rewrites api (fun c => ∃ name ∈ lifetimeNames, c.callee = .function name ∧ c.args.length ≠ 2) m (downgradeLifetime api m) := by
  have h1 := rewrites_lifetimeOf hapi hdel hs (show "llvm.lifetime.start.p0" ∈ lifetimeNames by decide)
  have h2 := rewrites_lifetimeOf hapi hdel (h1.sane hs) (show "llvm.lifetime.end.p0" ∈ lifetimeNames by decide)
  apply (h1.trans h2).of_imp
  intro i _ c _
  simp [lifetimeNames]

omit hapi hdel in
theorem rewrites_attributes (llvm : Llvm) (api : Api) (ctkMajor : Int) (m : Module) :
    Rewrites api (fun _ => False) m (downgradeAttributes llvm api ctkMajor m) := by
  have hinstr : ∀ {i}, i ∈ (downgradeAttributes llvm api ctkMajor m).instructions ↔ i ∈ m.instructions := fun {i} => by
    simp only [mem_instructions, downgradeAttributes, Module.mapFunctions, Dict.get_mapValues, Option.map_eq_some_iff]
    constructor
    · rintro ⟨name, _, ⟨f, hf, rfl⟩, hb⟩
      exact ⟨name, f, hf, hb⟩
    · rintro ⟨name, f, hf, hb⟩
      exact ⟨name, _, ⟨f, hf, rfl⟩, hb⟩
  refine ⟨fun i hi c hc _ => hinstr.mpr hi, fun j hj => .inr ⟨hinstr.mp hj, fun _ _ h => h⟩,
    fun name h => .inl ((isSome_mapFunctions m _ name).symm ▸ h), fun name _ f' hf' => ?_⟩
  simp only [downgradeAttributes, Module.mapFunctions, Dict.get_mapValues, Option.map_eq_some_iff] at hf'
  obtain ⟨f, hf, rfl⟩ := hf'
  exact ⟨f, hf, (List.length_map _).symm, id⟩

end

end NumbaCudaMlir.Libnvvm

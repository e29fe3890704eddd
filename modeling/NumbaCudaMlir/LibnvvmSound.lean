import NumbaCudaMlir.LibnvvmMetadata

/-!
# Completeness of the downgrade

Which modules leave both implementations without the attributes and calls that
libNVVM rejects and with every kernel and grid constant annotated.
-/

namespace NumbaCudaMlir.Libnvvm

/-! ## What the downgrade promises -/

structure Meets (llvm : Llvm) (ctkMajor : Int) (m : Module) : Prop where
  functionAttrs : ∀ name f, m.functions.get name = some f → ∀ a ∈ f.attrs ++ f.ret.attrs ++ f.params.flatMap (·.attrs),
    ¬ removedAttr llvm ctkMajor a
  callAttrs : ∀ i ∈ m.instructions, ∀ c, i.op = .call c → ∀ a ∈ c.attrs.all, ¬ removedAttr llvm ctkMajor a
  lifetimes : ∀ i ∈ m.instructions, ∀ c, i.op = .call c → ∀ name, c.callee = .function name → isLifetime name →
    c.args.length ≠ 1
  kernels : ∀ name f, m.functions.get name = some f → f.callingConv = ptxKernel →
    kernelAnnotations m name = 1 ∧ InUsed m name
  gridConstants : ∀ name f, m.functions.get name = some f → ∀ k ∈ gridIndices f, listings m name k = 1

/-- Both implementations meet it with one module. -/
structure Complete (llvm : Llvm) (v : NvvmIrVersion) (ctkMajor : Int) (m : Module) : Prop where
  launcher : Meets llvm ctkMajor (Launcher.run llvm v ctkMajor m)
  modernBridge : Meets llvm ctkMajor (ModernBridge.run llvm v ctkMajor m)
  agree : Launcher.run llvm v ctkMajor m = ModernBridge.run llvm v ctkMajor m

structure Verified (m : Module) : Prop extends Sane m where
  initialized : Initialized m
  intrinsicKernel : ∀ name f, m.functions.get name = some f → isIntrinsic name → f.callingConv ≠ ptxKernel
  typed : ∀ i ∈ m.instructions, Typed i

structure Covered (llvm : Llvm) (ctkMajor : Int) (m : Module) : Prop where
  callAttrs : ∀ i ∈ m.instructions, ∀ c, i.op = .call c → ∀ a ∈ c.attrs.all, removedAttr llvm ctkMajor a → Rewritten c
  lifetimes : ∀ i ∈ m.instructions, ∀ c, i.op = .call c → ∀ name, c.callee = .function name → isLifetime name →
    c.args.length = 1 → name ∈ lifetimeNames
  kernels : ∀ name f, m.functions.get name = some f → f.callingConv = ptxKernel →
    (m.annotations ≠ [] → kernelAnnotations m name = 1) ∧ (InUsed m name ∨ m.annotations = [] ∧ ¬ UsedTaken m)
  gridConstants : ∀ name f, m.functions.get name = some f → ¬ (name ∈ lifetimeNames ∧ f.params.length ≠ 2) →
    ∀ k ∈ gridIndices f, listings m name k = if f.callingConv = ptxKernel then 0 else 1
  noBundles : NoBundles m
  annotated : m.hasAnnotations ∨ ∃ name f, m.functions.get name = some f ∧ f.callingConv = ptxKernel

theorem isKernel_iff {m : Module} {name : String} :
    IsKernel m name ↔ ∃ f, m.functions.get name = some f ∧ f.callingConv = ptxKernel := by
  simp only [IsKernel, Module.header, Option.map_eq_some_iff]
  constructor
  · rintro ⟨_, ⟨f, hf, rfl⟩, hk⟩
    exact ⟨f, hf, hk⟩
  · rintro ⟨f, hf, hk⟩
    exact ⟨_, ⟨f, hf, rfl⟩, hk⟩

/-! ## The launcher's module -/

section
variable (llvm : Llvm) (v : NvvmIrVersion) (ctkMajor : Int) {m : Module} (hv : Verified m)

def downgraded (m : Module) : Module :=
  downgradeAttributes llvm Launcher.api ctkMajor (downgradeLifetime Launcher.api (adaptForLibnvvm llvm Launcher.api v m))

theorem launcher_run_eq (m : Module) : Launcher.run llvm v ctkMajor m =
    (downgraded llvm v ctkMajor m).functions.entries.foldl downgradeGridConstantOf (downgraded llvm v ctkMajor m) := rfl

theorem header_adapt (m : Module) (name : String) :
    (adaptForLibnvvm llvm Launcher.api v m).header name = (adaptCode llvm Launcher.api m).header name := by
  rw [Module.header, adaptForLibnvvm_eq, functions_adaptMetadata]
  rfl

theorem erased_adapt (m : Module) (name : String) :
    Erased (adaptForLibnvvm llvm Launcher.api v m) name ↔ Erased m name := by
  rw [Erased, Erased, header_adapt]
  refine and_congr_right fun hl => ?_
  rcases (frame_adaptCode llvm Launcher.api m).header name with h | ⟨hn, -⟩
  · rw [h]
  · exact absurd (lifetime_of_mem hl) (not_lifetime_of_inserted hn)

theorem header_downgraded (m : Module) (name : String) :
    (downgraded llvm v ctkMajor m).header name = m.header name ∧ ¬ Erased m name ∨
      (∀ h, (downgraded llvm v ctkMajor m).header name = some h → h.callingConv ≠ ptxKernel ∧ h.gridIndices = []) ∧
        (Erased m name ∨ m.header name = none) := by
  rw [downgraded, header_downgradeAttributes]
  obtain ⟨h1, h2⟩ := header_lifetime (adaptForLibnvvm llvm Launcher.api v m) name
  rw [erased_adapt, header_adapt] at *
  by_cases he : Erased m name
  · right
    rw [h1 he]
    exact ⟨fun _ h => (by cases h), .inl he⟩
  · rw [h2 he]
    rcases (frame_adaptCode llvm Launcher.api m).header name with h | ⟨-, h0, n, h⟩
    · exact .inl ⟨h, he⟩
    · right
      rw [h]
      refine ⟨fun _ h => ?_, .inr h0⟩
      cases h
      exact ⟨show 0 ≠ ptxKernel by decide, rfl⟩

theorem isKernel_adaptCode (m : Module) (name : String) : IsKernel (adaptCode llvm Launcher.api m) name ↔ IsKernel m name := by
  rw [IsKernel, IsKernel]
  rcases (frame_adaptCode llvm Launcher.api m).header name with h | ⟨-, h0, n, h⟩
  · rw [h]
  · rw [h, h0]
    simp [ptxKernel]

theorem kernelFns_isEmpty (m : Module) :
    (kernelFns (adaptCode llvm Launcher.api m)).isEmpty = true ↔ ∀ name, ¬ IsKernel m name := by
  rw [List.isEmpty_iff, List.eq_nil_iff_forall_not_mem]
  exact forall_congr' fun name => by rw [mem_kernelFns, isKernel_adaptCode]

theorem data_downgraded (m : Module) :
    (downgraded llvm v ctkMajor m).globals = (adaptForLibnvvm llvm Launcher.api v m).globals ∧
      (downgraded llvm v ctkMajor m).namedMetadata = (adaptForLibnvvm llvm Launcher.api v m).namedMetadata := by
  have h := data_lifetime (adaptForLibnvvm llvm Launcher.api v m)
  rw [downgraded, downgradeAttributes_eq]
  generalize downgradeLifetime Launcher.api (adaptForLibnvvm llvm Launcher.api v m) = m' at h
  exact h

theorem usedTaken_adaptCode (m : Module) : UsedTaken (adaptCode llvm Launcher.api m) ↔ UsedTaken m := by
  have hf := frame_adaptCode llvm Launcher.api m
  have hkey : ∀ m : Module, "llvm.used" ∈ m.functions.keys ↔ (m.header "llvm.used").isSome := fun m => by
    rw [Dict.mem_keys_iff, Module.header, Option.isSome_map, Option.isSome_iff_exists]
  rw [UsedTaken, UsedTaken, List.mem_append, List.mem_append, hf.globals, hkey, hkey]
  rcases hf.header "llvm.used" with h | ⟨hn, -⟩
  · rw [h]
  · exact absurd hn (by decide)

theorem annotations_adaptCode (m : Module) :
    (adaptCode llvm Launcher.api m).annotations = m.annotations ∧
      (adaptCode llvm Launcher.api m).hasAnnotations = m.hasAnnotations ∧
      ∀ fn, InUsed (adaptCode llvm Launcher.api m) fn ↔ InUsed m fn := by
  have hf := frame_adaptCode llvm Launcher.api m
  obtain ⟨h1, h2⟩ := annotations_of_get (congrArg (·.get "nvvm.annotations") hf.namedMetadata)
  exact ⟨h1, h2, fun fn => by rw [InUsed, hf.globals, InUsed]⟩

theorem annotations_run (m : Module) :
    (Launcher.run llvm v ctkMajor m).annotations =
      (if m.annotations = [] then (kernelFns (adaptCode llvm Launcher.api m)).map kernelNode else m.annotations) ++
        (downgraded llvm v ctkMajor m).functions.entries.flatMap gridNodes := by
  have ha := annotated_adaptMetadata v (adaptCode llvm Launcher.api m)
  obtain ⟨h1, -, -⟩ := annotations_adaptCode llvm m
  obtain ⟨-, hd⟩ := data_downgraded llvm v ctkMajor m
  have he := (annotations_of_get (congrArg (·.get "nvvm.annotations") hd)).1
  rw [launcher_run_eq, (annotations_gridConstants _ _).1, he, adaptForLibnvvm_eq, ha.annotations, h1]

theorem inUsed_run (m : Module) {fn : String} (hk : IsKernel m fn) :
    InUsed (Launcher.run llvm v ctkMajor m) fn ↔ InUsed m fn ∨ m.annotations = [] ∧ ¬ UsedTaken m := by
  have ha := annotated_adaptMetadata v (adaptCode llvm Launcher.api m)
  obtain ⟨h1, -, h3⟩ := annotations_adaptCode llvm m
  rw [← h1, ← usedTaken_adaptCode llvm, ← h3, ← ha.used fn ((isKernel_adaptCode llvm m fn).mpr hk), InUsed, launcher_run_eq,
    (annotations_gridConstants _ _).2.1, (data_downgraded llvm v ctkMajor m).1]
  rfl

theorem functions_run (m : Module) : (Launcher.run llvm v ctkMajor m).functions = (downgraded llvm v ctkMajor m).functions :=
  functions_gridConstants _ _

theorem header_run (m : Module) (name : String) :
    (Launcher.run llvm v ctkMajor m).header name = (downgraded llvm v ctkMajor m).header name := by
  rw [Module.header, functions_run]
  rfl

theorem kernelAnnotations_run (m : Module) {fn : String} (hk : IsKernel m fn) :
    kernelAnnotations (Launcher.run llvm v ctkMajor m) fn = if m.annotations = [] then 1 else kernelAnnotations m fn := by
  rw [kernelAnnotations, annotations_run, pairsOf_append, List.countP_append, kernelPairs_gridNodes, Nat.add_zero]
  split
  · rw [pairsOf_kernelNodes]
    obtain ⟨f, hf, hcc⟩ := isKernel_iff.mp ((isKernel_adaptCode llvm m fn).mpr hk)
    rw [hf, Option.elim_some, if_pos hcc]
    decide
  · rfl

theorem listings_run (m : Module) {fn : String} {h : Header} (hh : (downgraded llvm v ctkMajor m).header fn = some h) {k : Nat}
    (hk : k ∈ h.gridIndices) : listings (Launcher.run llvm v ctkMajor m) fn k =
      listings m fn k + if h.callingConv = ptxKernel then 1 else 0 := by
  rw [listings, annotations_run, pairsOf_append, List.flatMap_append, List.count_append, listings_gridNodes _ hh hk, listings,
    Nat.add_right_cancel_iff]
  split
  · next hnil =>
    rw [hnil, pairsOf_kernelNodes]
    cases (adaptCode llvm Launcher.api m).functions.get fn with
    | none => rfl
    | some f =>
      rw [Option.elim_some]
      split <;> rfl
  · rfl

theorem functionAttrs_run (m : Module) (name : String) (f : Function)
    (hf : (Launcher.run llvm v ctkMajor m).functions.get name = some f) :
    ∀ a ∈ f.attrs ++ f.ret.attrs ++ f.params.flatMap (·.attrs), ¬ removedAttr llvm ctkMajor a := by
  rw [functions_run, downgraded, downgradeAttributes_eq, Module.mapFunctions, Dict.get_mapValues, Option.map_eq_some_iff] at hf
  obtain ⟨f0, -, rfl⟩ := hf
  intro a ha
  simp only [List.mem_append, List.mem_flatMap, List.mem_map, exists_exists_and_eq_and, List.mem_filter,
    Bool.not_eq_true'] at ha
  rcases ha with (⟨-, h⟩ | ⟨-, h⟩) | ⟨p, -, -, h⟩ <;> simp [h]

theorem hasAnnotations_downgraded (m : Module) : (downgraded llvm v ctkMajor m).hasAnnotations =
    (m.hasAnnotations || !(kernelFns (adaptCode llvm Launcher.api m)).isEmpty) := by
  have ha := annotated_adaptMetadata v (adaptCode llvm Launcher.api m)
  obtain ⟨-, h2, -⟩ := annotations_adaptCode llvm m
  have he := (annotations_of_get (congrArg (·.get "nvvm.annotations") (data_downgraded llvm v ctkMajor m).2)).2
  rw [he, adaptForLibnvvm_eq, ha.hasAnnotations, h2]

/-! ## Agreement of the runs -/

theorem annotations_of_hasAnnotations {m : Module} (h : m.hasAnnotations) : ModernBridge.annotations m = m := by
  rw [ModernBridge.annotations, Dict.setDefault, if_pos (show (m.namedMetadata.get "nvvm.annotations").isSome from h)]

include hv

theorem initialized_adapt : Initialized (adaptForLibnvvm llvm Launcher.api v m) := by
  intro g hg name hintr hmem
  have ha := annotated_adaptMetadata v (adaptCode llvm Launcher.api m)
  rcases ha.initializers g hg with hold | hnew
  · rw [(frame_adaptCode llvm Launcher.api m).globals] at hold
    exact hv.initialized g hold name hintr hmem
  · rw [hnew, List.mem_map] at hmem
    obtain ⟨name', hk, heq⟩ := hmem
    cases heq
    obtain ⟨f, hf, hcc⟩ := isKernel_iff.mp ((isKernel_adaptCode llvm m name).mp (mem_kernelFns.mp hk))
    exact hv.intrinsicKernel name f hf hintr hcc

theorem run_agree (hb : NoBundles m) (hann : (downgraded llvm v ctkMajor m).hasAnnotations) :
    Launcher.run llvm v ctkMajor m = ModernBridge.run llvm v ctkMajor m := by
  have hs := (rewrites_adapt llvm launcher_faithful hv.toSane v).sane hv.toSane
  have hadapt : adaptForLibnvvm llvm ModernBridge.api v m = adaptForLibnvvm llvm Launcher.api v m := by
    rw [adaptForLibnvvm_eq, adaptForLibnvvm_eq, adaptCode_agree hv.toSane hb]
  have hdown : downgradeAttributes llvm ModernBridge.api ctkMajor
      (downgradeLifetime ModernBridge.api (adaptForLibnvvm llvm ModernBridge.api v m)) = downgraded llvm v ctkMajor m := by
    rw [hadapt, ← lifetime_agree hs (initialized_adapt llvm v hv), ← downgradeAttributes_agree]
    rfl
  rw [launcher_run_eq, ModernBridge.run, downgradeForLibnvvm, hdown, downgradeGridConstant, show ModernBridge.api.annotations = ModernBridge.annotations from rfl,
    annotations_of_hasAnnotations hann]

omit hv in
theorem Rewrites.keep_illTyped {api : Api} {hit : CallBase → Prop} {m m' : Module} (h : Rewrites api hit m m')
    (hhit : ∀ c asm, c.callee = .inlineAsm asm → ¬ hit c) {j : Instruction} (hj : j ∈ m.instructions) (ht : ¬ Typed j) :
    j ∈ m'.instructions := by
  simp only [Typed, not_forall] at ht
  obtain ⟨c, hc, asm, hcallee, -⟩ := ht
  exact h.keep j hj c hc (hhit c asm hcallee)

omit hv in
theorem illTyped_foldl {l : List AsmIntrinsic} (hl : ∀ a ∈ l, a ∈ asmIntrinsics) {m : Module} (hs : Sane m) {i : Instruction}
    (hi : i ∈ m.instructions) {c : CallBase} (hc : i.op = .call c) {a : AsmIntrinsic} (ha : a ∈ l)
    (hcallee : c.callee = .function a.name) (hb : c.bundleOperands ≠ []) :
    ∃ j ∈ (l.foldl (replaceIntrinsicWithAsm Launcher.api) m).instructions, ¬ Typed j := by
  induction l generalizing m with
  | nil => cases ha
  | cons b l ih =>
    have hbmem := hl b List.mem_cons_self
    have hl' : ∀ a ∈ l, a ∈ asmIntrinsics := fun a ha => hl a (List.mem_cons_of_mem _ ha)
    have hr := rewrites_asm hs launcher_faithful.finds hbmem launcher_faithful.asmArgs
    rw [List.foldl_cons]
    by_cases hname : c.callee = .function b.name
    · -- The call is hit here, and no later pass changes inline assembly.
      have hget := hs.declared i hi c hc b.name hname
      obtain ⟨f, hf⟩ := Option.isSome_iff_exists.mp hget
      let j : Instruction := ⟨i.id, b.fnTy.ret, buildCall b.fnTy (.inlineAsm b.asm) (c.args ++ c.bundleOperands)⟩
      have hj : j ∈ (replaceIntrinsicWithAsm Launcher.api m b).instructions := by
        have hcall : Launcher.api.isCallUser c = true :=
          hs.intrinsicCall i hi c hc b.name hname (isIntrinsic_asm b hbmem)
        rw [replaceIntrinsicWithAsm, hf]
        refine mem_instructions_mapInstructions.mpr ⟨i, hi, ?_⟩
        rw [hc]
        dsimp only
        rw [if_pos ⟨hname, hcall⟩]
        exact List.mem_singleton_self _
      have hill : ¬ Typed j := fun ht => by
        have hlen : (c.args ++ c.bundleOperands).length = b.fnTy.params.length := ht _ rfl b.asm rfl
        rw [List.length_append, hs.asmArity i hi c hc b hbmem hname] at hlen
        have := List.length_pos_iff.mpr hb
        omega
      have hrest := rewrites_foldl (fun a ha m hs => rewrites_asm hs launcher_faithful.finds (hl' a ha)
        launcher_faithful.asmArgs) (hr.sane hs)
      refine ⟨j, hrest.keep_illTyped ?_ hj hill, hill⟩
      rintro c asm hasm ⟨a, -, hfn⟩
      cases hasm.symm.trans hfn
    · have ha' : a ∈ l := by
        rcases List.mem_cons.mp ha with rfl | ha'
        · exact absurd hcallee hname
        · exact ha'
      exact ih hl' (hr.sane hs) (hr.keep i hi c hc hname) ha'

omit hv in
theorem asm_not_hit : ∀ a ∈ asmIntrinsics, a.name ≠ "llvm.nvvm.barrier.cta.sync.aligned.all" ∧
    ∀ op ∈ reductions, a.name ≠ op.oldName := by
  decide

theorem noBundles_of_agree (hagree : Launcher.run llvm v ctkMajor m = ModernBridge.run llvm v ctkMajor m) : NoBundles m := by
  intro i hi c hc a ha hcallee
  by_contra hb
  have hf := launcher_faithful
  have hs := hv.toSane
  have h1 := rewrites_barrierSync llvm hs hf.finds
  have h2 := h1.trans (rewrites_foldl (fun op (_ : op ∈ reductions) (m : Module) (hs : Sane m) =>
    rewrites_reduction llvm hs hf.finds op) (h1.sane hs))
  obtain ⟨hsync, hred⟩ := asm_not_hit a ha
  have hi2 := h2.keep i hi c hc fun hhit => by
    rcases hhit with h | ⟨op, hop, h⟩
    · exact hsync (by simpa using hcallee.symm.trans h)
    · exact hred op hop (by simpa using hcallee.symm.trans h)
  obtain ⟨j, hj, hill⟩ := illTyped_foldl (fun _ h => h) (h2.sane hs) hi2 hc ha hcallee hb
  have h3 := h2.trans (rewrites_foldl (fun _ ha (m : Module) (hs : Sane m) => rewrites_asm hs hf.finds ha hf.asmArgs)
    (h2.sane hs))
  have h4 := @rewrites_atomicrmw Launcher.api (adaptInlineAsmIntrinsics Launcher.api
    (adaptBarrierReduction llvm Launcher.api (adaptBarrierSync llvm Launcher.api m)))
  have h5 := rewrites_foldl (fun t ht (m : Module) (hs : Sane m) => rewrites_trunc llvm hs hf.finds t ht)
    (h4.sane (h3.sane hs))
  have hj5 := h5.keep_illTyped (by rintro c asm hasm ⟨t, -, hfn⟩; cases hasm.symm.trans hfn)
    (h4.keep_illTyped (fun _ _ _ h => h) hj hill) hill
  have hmeta : Rewrites Launcher.api _ (adaptCode llvm Launcher.api m) (adaptForLibnvvm llvm Launcher.api v m) :=
    rewrites_of_functions (functions_adaptMetadata v _)
  have hj6 := hmeta.keep_illTyped (fun _ _ _ h => h) hj5 hill
  have h7 := rewrites_downgrade llvm hf ((rewrites_adapt llvm hf hs v).sane hs) ctkMajor
  have hj7 : j ∈ (Launcher.run llvm v ctkMajor m).instructions :=
    h7.keep_illTyped (by rintro c asm hasm ⟨n, -, hfn, -⟩; cases hasm.symm.trans hfn) hj6 hill
  have hbridge := rewrites_run llvm modernBridge_faithful hs v ctkMajor
  rw [hagree] at hj7
  exact hill (hbridge.typed (fun _ => rfl) hv.typed j hj7)

omit hv in
theorem annotated_of_agree (hagree : Launcher.run llvm v ctkMajor m = ModernBridge.run llvm v ctkMajor m) :
    m.hasAnnotations ∨ ∃ name, IsKernel m name := by
  have hinsert : ∀ m : Module, (ModernBridge.annotations m).hasAnnotations = true := fun m => by
    rw [Module.hasAnnotations, ModernBridge.annotations, Dict.get_setDefault, if_pos rfl]
    rfl
  have hbridge : (ModernBridge.run llvm v ctkMajor m).hasAnnotations = true := by
    have h := hinsert (downgradeAttributes llvm ModernBridge.api ctkMajor
      (downgradeLifetime ModernBridge.api (adaptForLibnvvm llvm ModernBridge.api v m)))
    refine (annotations_gridConstants _ _).2.2.trans ?_
    rw [show ModernBridge.api.annotations = ModernBridge.annotations from rfl, h, Bool.true_or]
  rw [← hagree, launcher_run_eq, (annotations_gridConstants _ _).2.2, hasAnnotations_downgraded, Bool.or_eq_true,
    Bool.or_eq_true, Bool.not_eq_true'] at hbridge
  rcases hbridge with (h | h) | h
  · exact .inl h
  · right
    by_contra hnone
    have hempty := (kernelFns_isEmpty llvm m).mpr fun name hk => hnone ⟨name, hk⟩
    rw [h] at hempty
    cases hempty
  · right
    simp only [Bool.not_eq_true', List.isEmpty_eq_false_iff, ne_eq, List.flatMap_eq_nil_iff, not_forall] at h
    obtain ⟨e, he, hne⟩ := h
    have hgrid : e.2.callingConv = ptxKernel ∧ gridIndices e.2 ≠ [] := by
      by_contra hnot
      exact hne (if_neg hnot)
    have hhead : (downgraded llvm v ctkMajor m).header e.1 = some e.2.header := by
      rw [Module.header, Dict.get_eq_some_iff.mpr he]
      rfl
    rcases header_downgraded llvm v ctkMajor m e.1 with ⟨h0, -⟩ | ⟨h0, -⟩
    · exact ⟨e.1, e.2.header, h0.symm.trans hhead, hgrid.1⟩
    · exact absurd hgrid.1 (h0 _ hhead).1

/-! ## Completeness -/

omit hv in
theorem not_rewritten_of_lifetime {c : CallBase} {name : String} (hcallee : c.callee = .function name) (hl : isLifetime name)
    (hn : name ∉ lifetimeNames) : ¬ Rewritten c := by
  have hreplaced : ∀ name ∈ replacedNames, ¬ isLifetime name := by decide
  rintro (⟨name', hmem, h⟩ | ⟨name', hmem, h, -⟩) <;> cases hcallee.symm.trans h
  · exact hreplaced name hmem hl
  · exact hn hmem

omit hv in
theorem erased_iff {f : Function} {name : String} (hf : m.functions.get name = some f) :
    Erased m name ↔ name ∈ lifetimeNames ∧ f.params.length ≠ 2 := by
  simp [Erased, Module.header, hf, Function.header]

theorem not_erased_of_kernel {name : String} {f : Function} (hf : m.functions.get name = some f)
    (hk : f.callingConv = ptxKernel) : ¬ Erased m name := fun he =>
  hv.intrinsicKernel name f hf (isIntrinsic_of_isLifetime (lifetime_of_mem he.1)) hk

omit hv in
theorem exists_run {name : String} {f : Function} (hf : m.functions.get name = some f) (he : ¬ Erased m name) :
    ∃ f', (Launcher.run llvm v ctkMajor m).functions.get name = some f' ∧ f'.header = f.header := by
  have hhead : m.header name = some f.header := by rw [Module.header, hf]; rfl
  rcases header_downgraded llvm v ctkMajor m name with ⟨h, -⟩ | ⟨-, h | h⟩
  · rw [← header_run, hhead, Module.header, Option.map_eq_some_iff] at h
    exact h
  · exact absurd h he
  · cases hhead.symm.trans h

theorem covered_of_complete (hc : Complete llvm v ctkMajor m) : Covered llvm ctkMajor m := by
  have hr := rewrites_run llvm launcher_faithful hv.toSane v ctkMajor
  refine ⟨fun i hi c hop a ha hrem => ?_, fun i hi c hop name hcallee hl hone => ?_, fun name f hf hk => ?_,
    fun name f hf he k hk => ?_, noBundles_of_agree llvm v ctkMajor hv hc.agree, ?_⟩
  · by_contra hn
    exact hc.launcher.callAttrs i (hr.keep i hi c hop hn) c hop a ha hrem
  · by_contra hn
    exact hc.launcher.lifetimes i (hr.keep i hi c hop (not_rewritten_of_lifetime hcallee hl hn)) c hop name hcallee hl hone
  · have hker : IsKernel m name := isKernel_iff.mpr ⟨f, hf, hk⟩
    obtain ⟨f', hf', hhead⟩ := exists_run llvm v ctkMajor hf (not_erased_of_kernel hv hf hk)
    have hk' : f'.callingConv = ptxKernel := (congrArg Header.callingConv hhead).trans hk
    obtain ⟨hone, hused⟩ := hc.launcher.kernels name f' hf' hk'
    rw [kernelAnnotations_run llvm v ctkMajor m hker] at hone
    rw [inUsed_run llvm v ctkMajor m hker] at hused
    exact ⟨fun hne => by rwa [if_neg hne] at hone, hused⟩
  · have he' : ¬ Erased m name := fun h => he ((erased_iff hf).mp h)
    obtain ⟨f', hf', hhead⟩ := exists_run llvm v ctkMajor hf he'
    have hdown : (downgraded llvm v ctkMajor m).header name = some f.header := by
      rw [← header_run, Module.header, hf', ← hhead]
      rfl
    have hk' : k ∈ gridIndices f' := by rw [show gridIndices f' = gridIndices f from congrArg Header.gridIndices hhead]; exact hk
    have hone := hc.launcher.gridConstants name f' hf' k hk'
    rw [listings_run llvm v ctkMajor m hdown hk] at hone
    rw [show f.header.callingConv = f.callingConv from rfl] at hone
    split <;> simp_all
  · rcases annotated_of_agree llvm v ctkMajor hc.agree with h | ⟨name, hk⟩
    · exact .inl h
    · exact .inr ⟨name, isKernel_iff.mp hk⟩

theorem meets_of_covered (hc : Covered llvm ctkMajor m) : Meets llvm ctkMajor (Launcher.run llvm v ctkMajor m) := by
  have hr := rewrites_run llvm launcher_faithful hv.toSane v ctkMajor
  have hold : ∀ name f', (Launcher.run llvm v ctkMajor m).functions.get name = some f' →
      (∃ f, m.functions.get name = some f ∧ f.header = f'.header ∧ ¬ Erased m name) ∨
        f'.callingConv ≠ ptxKernel ∧ gridIndices f' = [] := by
    intro name f' hf'
    have hhead : (downgraded llvm v ctkMajor m).header name = some f'.header := by
      rw [← header_run, Module.header, hf']
      rfl
    rcases header_downgraded llvm v ctkMajor m name with ⟨h, he⟩ | ⟨h, -⟩
    · left
      rw [hhead, Module.header, eq_comm, Option.map_eq_some_iff] at h
      obtain ⟨f, hf, hh⟩ := h
      exact ⟨f, hf, hh, he⟩
    · exact .inr (h _ hhead)
  refine ⟨functionAttrs_run llvm v ctkMajor m, fun i hi c hop a ha hrem => ?_, fun i hi c hop name hcallee hl hone => ?_,
    fun name f' hf' hk => ?_, fun name f' hf' k hk => ?_⟩
  · obtain ⟨hi0, hn⟩ := (hr.mem_iff hop (.inl (List.ne_nil_of_mem ha))).mp hi
    exact hn (hc.callAttrs i hi0 c hop a ha hrem)
  · have hins : name ∉ insertedNames := fun h => not_lifetime_of_inserted h hl
    obtain ⟨hi0, hn⟩ := (hr.mem_iff hop (.inr (.inr ⟨name, hcallee, hins⟩))).mp hi
    exact hn (.inr ⟨name, hc.lifetimes i hi0 c hop name hcallee hl hone, hcallee, by rw [hone]; decide⟩)
  · rcases hold name f' hf' with ⟨f, hf, hhead, -⟩ | ⟨hnot, -⟩
    · have hkf : f.callingConv = ptxKernel := (congrArg Header.callingConv hhead).trans hk
      have hker : IsKernel m name := isKernel_iff.mpr ⟨f, hf, hkf⟩
      obtain ⟨hone, hused⟩ := hc.kernels name f hf hkf
      refine ⟨?_, (inUsed_run llvm v ctkMajor m hker).mpr hused⟩
      rw [kernelAnnotations_run llvm v ctkMajor m hker]
      split
      · rfl
      · next hne => exact hone hne
    · exact absurd hk hnot
  · rcases hold name f' hf' with ⟨f, hf, hhead, he⟩ | ⟨-, hnil⟩
    · have hk0 : k ∈ gridIndices f := by rw [show gridIndices f = gridIndices f' from congrArg Header.gridIndices hhead]; exact hk
      have hdown : (downgraded llvm v ctkMajor m).header name = some f.header := by
        rw [← header_run, Module.header, hf', hhead]
        rfl
      rw [listings_run llvm v ctkMajor m hdown hk0, hc.gridConstants name f hf (fun h => he ((erased_iff hf).mpr h)) k hk0,
        show f.header.callingConv = f.callingConv from rfl]
      split <;> rfl
    · rw [hnil] at hk
      cases hk

/-- **The downgrade is complete** exactly on the modules it covers. -/
theorem downgrade_complete_iff : Complete llvm v ctkMajor m ↔ Covered llvm ctkMajor m := by
  refine ⟨covered_of_complete llvm v ctkMajor hv, fun hc => ?_⟩
  have hann : (downgraded llvm v ctkMajor m).hasAnnotations = true := by
    rw [hasAnnotations_downgraded, Bool.or_eq_true]
    rcases hc.annotated with h | h
    · exact .inl h
    · right
      obtain ⟨name, h⟩ := h
      rw [Bool.not_eq_true', Bool.eq_false_iff]
      exact fun hempty => (kernelFns_isEmpty llvm m).mp hempty name (isKernel_iff.mpr h)
  have hagree := run_agree llvm v ctkMajor hv hc.noBundles hann
  have hmeets := meets_of_covered llvm v ctkMajor hv hc
  exact ⟨hmeets, hagree ▸ hmeets, hagree⟩

end

/-! ## A kernel -/

def llvm23 : Llvm where
  enumAttributeKind name := if name = "nocreateundeforpoison" then 1 else if name = "captures" then 2 else 0
  intrinsicAttributes _ := []

def pointerTy : LlvmType := .pointer 0

/-- A call of a function of one pointer parameter. -/
def callOf (name : String) (attrs : AttributeList) : CallBase :=
  ⟨true, ⟨.void, [pointerTy]⟩, .function name, [.argument 0 pointerTy], [], attrs⟩

def declaration (attrs : List Attribute) : Function := ⟨0, ⟨.void, []⟩, [⟨pointerTy, []⟩], attrs, []⟩

/-- A kernel with a grid constant that makes one call. -/
def kernelCalling (c : CallBase) : Function :=
  ⟨ptxKernel, ⟨.void, []⟩, [⟨pointerTy, [.string "nvvm.grid_constant" ""]⟩], [], [[⟨.inst 0, .void, .call c⟩]]⟩

def moduleOf (callee : String) (attrs : AttributeList) (annotations : List MDNode) : Module where
  functions := (Dict.empty.set "kernel" (kernelCalling (callOf callee attrs))).set callee (declaration [.enum 1 0])
  globals := Dict.empty
  namedMetadata := Dict.empty.set "nvvm.annotations" annotations
  lastUnique := 0

theorem verified_moduleOf {callee : String} (attrs : AttributeList)
    (hasm : ∀ a ∈ asmIntrinsics, a.name ≠ callee) (annotations : List MDNode) :
    Verified (moduleOf callee attrs annotations) := by
  have hget : ∀ name, (moduleOf callee attrs annotations).functions.get name =
      if name = callee then some (declaration [.enum 1 0])
      else if name = "kernel" then some (kernelCalling (callOf callee attrs)) else none := by
    intro name
    simp only [moduleOf, Dict.get_set, Dict.get_empty]
  have hinstr : ∀ i ∈ (moduleOf callee attrs annotations).instructions, i = ⟨.inst 0, .void, .call (callOf callee attrs)⟩ := by
    intro i hi
    obtain ⟨name, f, hf, b, hb, hi⟩ := mem_instructions.mp hi
    rw [hget] at hf
    split at hf
    · cases hf
      cases hb
    · split at hf
      · cases hf
        cases List.mem_singleton.mp hb
        exact List.mem_singleton.mp hi
      · cases hf
  refine {
    declared := ?_, intrinsicCall := ?_, intrinsicOperand := ?_, lifetimeArity := ?_, asmArity := ?_, lifetimeBlocks := ?_
    initialized := ?_, intrinsicKernel := ?_, typed := ?_ }
  · rintro i hi c hc name hname
    cases hinstr i hi
    cases hc
    cases hname
    rw [hget, if_pos rfl]
    rfl
  · rintro i hi c hc name - -
    cases hinstr i hi
    cases hc
    rfl
  · rintro i hi name - hmem
    cases hinstr i hi
    simp [Op.operands, callOf, CallBase.bundleOperands] at hmem
  · rintro i hi c hc name hname - f hf
    cases hinstr i hi
    cases hc
    cases hname
    rw [hget, if_pos rfl] at hf
    cases hf
    rfl
  · rintro i hi c hc a ha hname
    cases hinstr i hi
    cases hc
    exact absurd (Value.function.inj hname).symm (hasm a ha)
  · rintro name hl f hf
    rw [hget] at hf
    split at hf
    · cases hf
      rfl
    · split at hf
      · next hkernel =>
        subst hkernel
        exact absurd hl (by decide)
      · cases hf
  · rintro g hg
    cases hg
  · rintro name f hf hintr
    rw [hget] at hf
    split at hf
    · cases hf
      show 0 ≠ ptxKernel
      decide
    · split at hf
      · next hkernel =>
        subst hkernel
        exact absurd hintr (by decide)
      · cases hf
  · rintro i hi c hc asm hasm'
    cases hinstr i hi
    cases hc
    cases hasm'

/-- A kernel of a module without annotations. -/
theorem downgrade_complete_kernel :
    Complete llvm23 {} 12 (moduleOf "llvm.lifetime.start.p0" {} []) ↔
      Covered llvm23 12 (moduleOf "llvm.lifetime.start.p0" {} []) :=
  downgrade_complete_iff llvm23 {} 12 (verified_moduleOf {} (by decide) [])

/-- A kernel that calls a lifetime intrinsic of another address space with an attribute, in a module with an annotation. -/
def annotatedModule : Module :=
  moduleOf "llvm.lifetime.start.p5" { params := [[.enum 2 0]] }
    [[.value (.function "kernel"), .string "maxntidx", .value (.constantInt i32 128)]]

theorem annotated_module_incomplete :
    Verified annotatedModule ∧ ¬ Complete llvm23 {} 12 annotatedModule ∧
      kernelAnnotations (Launcher.run llvm23 {} 12 annotatedModule) "kernel" = 0 ∧
      (Launcher.run llvm23 {} 12 annotatedModule).instructions =
        [⟨.inst 0, .void, .call (callOf "llvm.lifetime.start.p5" { params := [[.enum 2 0]] })⟩] := by
  have hnone : kernelAnnotations (Launcher.run llvm23 {} 12 annotatedModule) "kernel" = 0 := by decide
  refine ⟨verified_moduleOf _ (by decide) _, fun hc => ?_, hnone, rfl⟩
  obtain ⟨f, hf, hk⟩ : ∃ f, (Launcher.run llvm23 {} 12 annotatedModule).functions.get "kernel" = some f ∧
      f.callingConv = ptxKernel := ⟨_, rfl, rfl⟩
  have hone := (hc.launcher.kernels "kernel" f hf hk).1
  rw [hnone] at hone
  cases hone

end NumbaCudaMlir.Libnvvm

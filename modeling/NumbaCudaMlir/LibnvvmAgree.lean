import NumbaCudaMlir.LibnvvmRewrite

/-!
# Runs of the passes

The passes one after another hit the calls of the intrinsics they replace. The
two implementations do the same where no such call brings operand bundles.
-/

namespace NumbaCudaMlir.Libnvvm

/-! ## Runs -/

/-- What both implementations do with the calls they find. -/
structure Faithful (api : Api) : Prop where
  finds : Finds api
  deletes : Deletes api
  asmArgs : ∀ c, ∀ v ∈ api.asmArgs c, v ∈ c.args ++ c.bundleOperands
  annotations : ∀ m, (api.annotations m).functions = m.functions

theorem launcher_faithful : Faithful Launcher.api :=
  ⟨fun _ h => h, fun _ _ => .inr rfl, fun _ _ h => h, fun _ => rfl⟩

theorem modernBridge_faithful : Faithful ModernBridge.api := by
  refine ⟨fun _ _ => rfl, fun m name => ?_, fun _ _ h => List.mem_append_left _ h, fun _ => rfl⟩
  show ModernBridge.deleteFunction m name = m ∨ ModernBridge.deleteFunction m name = Launcher.deleteFunction m name
  unfold ModernBridge.deleteFunction
  split
  · exact .inr rfl
  · exact .inl rfl

def replacedNames : List String :=
  "llvm.nvvm.barrier.cta.sync.aligned.all" :: (reductions.map (·.oldName) ++ asmIntrinsics.map (·.name) ++
    truncMappings.map (·.intrinsic))

/-- The calls that the passes replace or erase. -/
def Rewritten (c : CallBase) : Prop :=
  (∃ name ∈ replacedNames, c.callee = .function name) ∨
    ∃ name ∈ lifetimeNames, c.callee = .function name ∧ c.args.length ≠ 2

instance (c : CallBase) : Decidable (Rewritten c) := by unfold Rewritten; infer_instance

theorem rewrites_foldl {api : Api} {α : Type} {pass : Module → α → Module} {hit : α → CallBase → Prop} :
    ∀ {l : List α}, (∀ a ∈ l, ∀ m, Sane m → Rewrites api (hit a) m (pass m a)) → ∀ {m}, Sane m →
      Rewrites api (fun c => ∃ a ∈ l, hit a c) m (l.foldl pass m)
  | [], _, m, _ => (rewrites_of_functions rfl).of_imp fun _ _ _ _ => by simp
  | a :: l, h, m, hs => by
    have h1 := h a List.mem_cons_self m hs
    have h2 := rewrites_foldl (fun b hb => h b (List.mem_cons_of_mem _ hb)) (h1.sane hs)
    apply (h1.trans h2).of_imp
    intro i _ c _
    simp

section
variable {llvm : Llvm} {api : Api}

theorem functions_addOperands (fns : List String) (m : Module) :
    (fns.foldl (fun m fn => m.addNamedMetadataOperand "nvvm.annotations" (kernelNode fn)) m).functions = m.functions := by
  induction fns generalizing m with
  | nil => rfl
  | cons fn fns ih => rw [List.foldl_cons, ih]; rfl

theorem functions_adaptNvvmAnnotations (m : Module) : (adaptNvvmAnnotations m).functions = m.functions := by
  unfold adaptNvvmAnnotations
  split
  · rfl
  · dsimp only
    split
    · rfl
    · exact functions_addOperands _ _

theorem functions_adaptNvvmirVersion (v : NvvmIrVersion) (m : Module) :
    (adaptNvvmirVersion v m).functions = m.functions := by
  unfold adaptNvvmirVersion
  split <;> rfl

theorem functions_adaptDebugInfoVersion (m : Module) : (adaptDebugInfoVersion m).functions = m.functions := by
  unfold adaptDebugInfoVersion
  split <;> rfl

theorem functions_gridConstants (es : List (String × Function)) (m : Module) :
    (es.foldl downgradeGridConstantOf m).functions = m.functions := by
  induction es generalizing m with
  | nil => rfl
  | cons e es ih =>
    rw [List.foldl_cons, ih, downgradeGridConstantOf]
    split
    · rfl
    · split <;> rfl

def adaptCode (llvm : Llvm) (api : Api) (m : Module) : Module :=
  adaptTrunc llvm api (adaptAtomicrmw (adaptInlineAsmIntrinsics api (adaptBarrierReduction llvm api
    (adaptBarrierSync llvm api m))))

def adaptMetadata (v : NvvmIrVersion) (m : Module) : Module :=
  adaptDebugInfoVersion (adaptNvvmirVersion v (adaptNvvmAnnotations m))

theorem adaptForLibnvvm_eq (v : NvvmIrVersion) (m : Module) :
    adaptForLibnvvm llvm api v m = adaptMetadata v (adaptCode llvm api m) := rfl

theorem functions_adaptMetadata (v : NvvmIrVersion) (m : Module) : (adaptMetadata v m).functions = m.functions := by
  rw [adaptMetadata, functions_adaptDebugInfoVersion, functions_adaptNvvmirVersion, functions_adaptNvvmAnnotations]

variable (hapi : Faithful api) {m : Module} (hs : Sane m)

include hapi hs

variable (llvm) in
theorem rewrites_adaptCode :
    Rewrites api (fun c => ∃ name ∈ replacedNames, c.callee = .function name) m (adaptCode llvm api m) := by
  have h1 := rewrites_barrierSync llvm hs hapi.finds
  have h2 := h1.trans (rewrites_foldl (fun op (_ : op ∈ reductions) m hs =>
    rewrites_reduction llvm hs hapi.finds op) (h1.sane hs))
  have h3 := h2.trans (rewrites_foldl (fun _ ha m hs => rewrites_asm hs hapi.finds ha hapi.asmArgs) (h2.sane hs))
  have h4 := h3.trans rewrites_atomicrmw
  have h5 := h4.trans (rewrites_foldl (fun t ht m hs => rewrites_trunc llvm hs hapi.finds t ht) (h4.sane hs))
  apply h5.of_imp
  intro i _ c _
  simp only [replacedNames, List.mem_cons, List.mem_append, List.mem_map, or_assoc, or_false, exists_eq_left, or_and_right,
    exists_or, exists_exists_and_eq_and]

variable (llvm) in
theorem rewrites_adapt (v : NvvmIrVersion) :
    Rewrites api (fun c => ∃ name ∈ replacedNames, c.callee = .function name) m (adaptForLibnvvm llvm api v m) := by
  have h := (rewrites_adaptCode llvm hapi hs).trans (rewrites_of_functions (functions_adaptMetadata v _))
  exact h.of_imp fun _ _ _ _ => iff_of_eq (or_false _)

variable (llvm) in
theorem rewrites_downgrade (ctkMajor : Int) :
    Rewrites api (fun c => ∃ name ∈ lifetimeNames, c.callee = .function name ∧ c.args.length ≠ 2) m
      (downgradeForLibnvvm llvm api ctkMajor m) := by
  have h1 := rewrites_lifetime hapi.finds hapi.deletes hs
  have h2 := h1.trans (rewrites_attributes llvm api ctkMajor _)
  have h3 : Rewrites api _ m (downgradeForLibnvvm llvm api ctkMajor m) := h2.trans (rewrites_of_functions ((functions_gridConstants _ _).trans (hapi.annotations _)))
  exact h3.of_imp fun _ _ _ _ => by simp

variable (llvm) in
theorem rewrites_run (v : NvvmIrVersion) (ctkMajor : Int) :
    Rewrites api Rewritten m (downgradeForLibnvvm llvm api ctkMajor (adaptForLibnvvm llvm api v m)) := by
  have h := rewrites_adapt llvm hapi hs v
  exact h.trans (rewrites_downgrade llvm hapi (h.sane hs) ctkMajor)

end

/-! ## Agreement -/

/-- The calls that become inline assembly bring no bundle operands. -/
def NoBundles (m : Module) : Prop :=
  ∀ i ∈ m.instructions, ∀ c, i.op = .call c → ∀ a ∈ asmIntrinsics, c.callee = .function a.name → c.bundleOperands = []

theorem Rewrites.noBundles {api : Api} {hit : CallBase → Prop} {m m' : Module} (h : Rewrites api hit m m')
    (hb : NoBundles m) : NoBundles m' := by
  intro i hi c hc a ha hcallee
  have hold := (h.mem_iff hc (.inr (.inr ⟨a.name, hcallee, not_inserted_of_asm a ha⟩))).mp hi
  exact hb i hold.1 c hc a ha hcallee

theorem mapInstructions_congr {m : Module} {g g' : Instruction → List Instruction}
    (h : ∀ i ∈ m.instructions, g i = g' i) : m.mapInstructions g = m.mapInstructions g' := by
  unfold Module.mapInstructions Module.mapFunctions
  congr 1
  apply Dict.mapValues_congr
  intro name f hf
  dsimp only
  congr 1
  apply List.map_congr_left; intro b hb
  apply List.flatMap_congr; intro i hi
  exact h i (mem_instructions.mpr ⟨name, f, hf, b, hb, hi⟩)

theorem replaceCalls_agree {m : Module} {name : String} {g g' : Instruction → CallBase → List Instruction} (hs : Sane m)
    (hname : isIntrinsic name)
    (hg : ∀ i ∈ m.instructions, ∀ c, i.op = .call c → c.callee = .function name → g i c = g' i c) :
    replaceCalls Launcher.api m name g = replaceCalls ModernBridge.api m name g' := by
  apply mapInstructions_congr; intro i hi
  cases hop : i.op with
  | call c =>
    dsimp only
    by_cases hcallee : c.callee = .function name
    · have h1 : Launcher.api.isCallUser c = true := hs.intrinsicCall i hi c hop name hcallee hname
      have h2 : ModernBridge.api.isCallUser c = true := rfl
      rw [if_pos ⟨hcallee, h1⟩, if_pos ⟨hcallee, h2⟩, hg i hi c hop hcallee]
    · rw [if_neg fun h => hcallee h.1, if_neg fun h => hcallee h.1]
  | _ => rfl

theorem guarded_agree {m m1 : Module} {name : String} {g g' : Instruction → CallBase → List Instruction} (hs1 : Sane m1)
    (hname : isIntrinsic name)
    (hg : ∀ i ∈ m1.instructions, ∀ c, i.op = .call c → c.callee = .function name → g i c = g' i c) :
    (match m.functions.get name with
    | none => m
    | some _ => replaceCalls Launcher.api m1 name g) =
      match m.functions.get name with
      | none => m
      | some _ => replaceCalls ModernBridge.api m1 name g' := by
  cases m.functions.get name with
  | none => rfl
  | some f => exact replaceCalls_agree hs1 hname hg

section
variable (llvm : Llvm) {m : Module} (hs : Sane m)

include hs

theorem getOrAdd_sane {name : String} (ty : FunctionType) (hname : name ∈ insertedNames) :
    Sane (getOrAddFunction llvm m name ty) :=
  (rewrites_getOrAdd llvm Launcher.api m name ty (not_lifetime_of_inserted hname)).sane hs

theorem barrierSync_agree : adaptBarrierSync llvm Launcher.api m = adaptBarrierSync llvm ModernBridge.api m :=
  guarded_agree (getOrAdd_sane llvm (getOrAdd_sane llvm hs _ (by decide)) _ (by decide)) (by decide) fun _ _ _ _ _ => rfl

theorem reduction_agree (op : BarrierReduction) :
    adaptReduction llvm Launcher.api m op = adaptReduction llvm ModernBridge.api m op :=
  guarded_agree (getOrAdd_sane llvm hs _ (by cases op <;> decide)) (by cases op <;> decide) fun _ _ _ _ _ => rfl

theorem trunc_agree (t : TruncMapping) (ht : t ∈ truncMappings) :
    adaptTruncMapping llvm Launcher.api m t = adaptTruncMapping llvm ModernBridge.api m t := by
  have hnames : isIntrinsic t.intrinsic ∧ t.libdevice ∈ insertedNames := by
    revert t
    decide
  exact guarded_agree (getOrAdd_sane llvm hs _ hnames.2) hnames.1 fun _ _ _ _ _ => rfl

theorem asm_agree (hb : NoBundles m) {a : AsmIntrinsic} (ha : a ∈ asmIntrinsics) :
    replaceIntrinsicWithAsm Launcher.api m a = replaceIntrinsicWithAsm ModernBridge.api m a := by
  apply guarded_agree hs (isIntrinsic_asm a ha)
  intro i hi c hc hcallee
  have hargs : Launcher.asmArgs c = ModernBridge.asmArgs c := by
    rw [Launcher.asmArgs, hb i hi c hc a ha hcallee, List.append_nil]
    rfl
  rw [show Launcher.api.asmArgs c = ModernBridge.api.asmArgs c from hargs]

end

theorem agree_foldl {α : Type} {pass pass' : Module → α → Module} {hit : α → CallBase → Prop} :
    ∀ {l : List α}, (∀ a ∈ l, ∀ m, Sane m → Rewrites Launcher.api (hit a) m (pass m a)) →
      (∀ a ∈ l, ∀ m, Sane m → NoBundles m → pass m a = pass' m a) → ∀ {m}, Sane m → NoBundles m →
      l.foldl pass m = l.foldl pass' m
  | [], _, _, _, _, _ => rfl
  | a :: l, hr, h, m, hs, hb => by
    have h1 := hr a List.mem_cons_self m hs
    rw [List.foldl_cons, List.foldl_cons, ← h a List.mem_cons_self m hs hb]
    exact agree_foldl (fun b hb => hr b (List.mem_cons_of_mem _ hb)) (fun b hb => h b (List.mem_cons_of_mem _ hb))
      (h1.sane hs) (h1.noBundles hb)

theorem adaptCode_agree {llvm : Llvm} {m : Module} (hs : Sane m) (hb : NoBundles m) :
    adaptCode llvm Launcher.api m = adaptCode llvm ModernBridge.api m := by
  have hf := launcher_faithful
  have h1 := rewrites_barrierSync llvm hs hf.finds
  have r2 := fun op (_ : op ∈ reductions) (m : Module) (hs : Sane m) => rewrites_reduction llvm hs hf.finds op
  have h2 := h1.trans (rewrites_foldl r2 (h1.sane hs))
  have r3 := fun a (ha : a ∈ asmIntrinsics) (m : Module) (hs : Sane m) => rewrites_asm hs hf.finds ha hf.asmArgs
  have h3 := h2.trans (rewrites_foldl r3 (h2.sane hs))
  have h4 := h3.trans rewrites_atomicrmw
  have r5 := fun t (ht : t ∈ truncMappings) (m : Module) (hs : Sane m) => rewrites_trunc llvm hs hf.finds t ht
  have e1 := barrierSync_agree llvm hs
  have e2 := agree_foldl r2 (fun op _ m hs _ => reduction_agree llvm hs op) (h1.sane hs) (h1.noBundles hb)
  have e3 := agree_foldl r3 (fun a ha m hs hb => asm_agree hs hb ha) (h2.sane hs) (h2.noBundles hb)
  have e5 := agree_foldl r5 (fun t ht m hs _ => trunc_agree llvm hs t ht) (h4.sane hs) (h4.noBundles hb)
  simp only [adaptCode, adaptTrunc, adaptInlineAsmIntrinsics, adaptBarrierReduction] at *
  rw [e5, e3, e2, e1]

end NumbaCudaMlir.Libnvvm

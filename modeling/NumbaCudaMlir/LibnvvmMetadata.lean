import NumbaCudaMlir.LibnvvmFrame

/-!
# Annotations and lifetimes

How often the annotations name a kernel or list a grid constant after the
metadata passes, and which functions the lifetime pass deletes.
-/

namespace NumbaCudaMlir.Libnvvm

/-! ## Annotations -/

def annotationPairs : List Metadata → List (String × Metadata)
  | .string key :: value :: rest => (key, value) :: annotationPairs rest
  | _ => []

def nodePairs (fn : String) : MDNode → List (String × Metadata)
  | .value (.function g) :: rest => if g = fn then annotationPairs rest else []
  | _ => []

def pairsOf (nodes : List MDNode) (fn : String) : List (String × Metadata) := nodes.flatMap (nodePairs fn)

def isKernelPair (p : String × Metadata) : Bool :=
  p.1 = "kernel" && match p.2 with
    | .value (.constantInt _ n) => n = 1
    | _ => false

def constInt? : Metadata → Option Nat
  | .value (.constantInt _ n) => some n
  | _ => none

def gridPair (p : String × Metadata) : List Nat :=
  match p.2 with
  | .node ops => if p.1 = "grid_constant" then ops.filterMap constInt? else []
  | _ => []

def Module.annotations (m : Module) : List MDNode := m.namedOperands "nvvm.annotations"

/-- How often the function is annotated as a kernel. -/
def kernelAnnotations (m : Module) (fn : String) : Nat := (pairsOf m.annotations fn).countP isKernelPair

/-- How often the parameter is listed as a grid constant. -/
def listings (m : Module) (fn : String) (k : Nat) : Nat := ((pairsOf m.annotations fn).flatMap gridPair).count k

def InUsed (m : Module) (fn : String) : Prop := ∃ g, m.globals.get "llvm.used" = some g ∧ Value.function fn ∈ g.initializer

theorem pairsOf_append (xs ys : List MDNode) (fn : String) : pairsOf (xs ++ ys) fn = pairsOf xs fn ++ pairsOf ys fn :=
  List.flatMap_append

theorem pairsOf_entries {α : Type} {nodes : String × α → List MDNode}
    (hnodes : ∀ e, ∀ node ∈ nodes e, ∃ rest, node = .value (.function e.1) :: rest) (fn : String) :
    ∀ {es : List (String × α)}, (es.map (·.1)).Nodup →
      pairsOf (es.flatMap nodes) fn = (es.lookup fn).elim [] fun a => pairsOf (nodes (fn, a)) fn
  | [], _ => rfl
  | e :: es, hnodup => by
    rw [List.map_cons, List.nodup_cons] at hnodup
    have hother : ∀ {e : String × α}, e.1 ≠ fn → pairsOf (nodes e) fn = [] := by
      intro e hne
      rw [pairsOf, List.flatMap_eq_nil_iff]
      intro node hmem
      obtain ⟨rest, rfl⟩ := hnodes e node hmem
      exact if_neg hne
    rw [List.flatMap_cons, pairsOf_append, pairsOf_entries hnodes fn hnodup.2]
    by_cases heq : e.1 = fn
    · subst heq
      have hnone : es.lookup e.1 = none := by
        rw [List.lookup_eq_none_iff]
        intro e' he'
        rw [bne_iff_ne]
        intro h
        exact hnodup.1 (h ▸ List.mem_map_of_mem he')
      rw [hnone, List.lookup_cons, beq_self_eq_true]
      exact List.append_nil _
    · rw [hother heq, List.lookup_cons, beq_eq_false_iff_ne.mpr fun h => heq h.symm]
      rfl

/-! ## The metadata passes -/

/-- The module has the named metadata, with operands or without. -/
def Module.hasAnnotations (m : Module) : Bool := (m.namedMetadata.get "nvvm.annotations").isSome

theorem annotations_of_get {m m' : Module}
    (h : m'.namedMetadata.get "nvvm.annotations" = m.namedMetadata.get "nvvm.annotations") :
    m'.annotations = m.annotations ∧ m'.hasAnnotations = m.hasAnnotations := by
  rw [Module.annotations, Module.namedOperands, Module.hasAnnotations, h]
  exact ⟨rfl, rfl⟩

theorem annotations_add (m : Module) (node : MDNode) :
    (m.addNamedMetadataOperand "nvvm.annotations" node).annotations = m.annotations ++ [node] ∧
      (m.addNamedMetadataOperand "nvvm.annotations" node).hasAnnotations = true := by
  simp [Module.annotations, Module.namedOperands, Module.hasAnnotations, Module.addNamedMetadataOperand]

theorem annotations_addOperands (fns : List String) (m : Module) :
    let m' := fns.foldl (fun m fn => m.addNamedMetadataOperand "nvvm.annotations" (kernelNode fn)) m
    m'.annotations = m.annotations ++ fns.map kernelNode ∧ m'.hasAnnotations = (m.hasAnnotations || !fns.isEmpty) ∧
      m'.globals = m.globals := by
  induction fns generalizing m with
  | nil => simp
  | cons fn fns ih =>
    obtain ⟨h1, h2, h3⟩ := ih (m.addNamedMetadataOperand "nvvm.annotations" (kernelNode fn))
    obtain ⟨a1, a2⟩ := annotations_add m (kernelNode fn)
    rw [a1, List.append_assoc] at h1
    rw [a2, Bool.true_or] at h2
    exact ⟨h1, by rw [List.isEmpty_cons, Bool.not_false, Bool.or_true]; exact h2, h3⟩

theorem uniqueName_of_fresh {m : Module} {name : String} (h : name ∉ m.functions.keys ++ m.globals.keys) :
    m.uniqueName name = name :=
  if_neg h

theorem uniqueName_ne {m : Module} {name : String} (h : name ∈ m.functions.keys ++ m.globals.keys) :
    m.uniqueName name ≠ name := by
  have hlong : ∀ suffix : String, name ++ "." ++ suffix ≠ name := fun suffix he => by
    have := congrArg String.length he
    rw [String.length_append, String.length_append] at this
    have hdot : ".".length = 1 := by decide
    omega
  rw [Module.uniqueName, if_pos h]
  cases hfind : (((List.range ((m.functions.keys ++ m.globals.keys).length + 1)).map fun k =>
      name ++ "." ++ toString (m.lastUnique + 1 + k)).find? (· ∉ m.functions.keys ++ m.globals.keys)) with
  | none => exact hlong _
  | some found =>
    obtain ⟨k, -, rfl⟩ := List.mem_map.mp (List.mem_of_find?_eq_some hfind)
    exact hlong _

def IsKernel (m : Module) (fn : String) : Prop := ∃ h, m.header fn = some h ∧ h.callingConv = ptxKernel

theorem mem_kernelFns {m : Module} {fn : String} : fn ∈ kernelFns m ↔ IsKernel m fn := by
  simp only [kernelFns, IsKernel, List.mem_map, List.mem_filter, decide_eq_true_eq, Module.header, Option.map_eq_some_iff,
    Dict.get_eq_some_iff]
  constructor
  · rintro ⟨⟨name, f⟩, ⟨hmem, hcc⟩, rfl⟩
    exact ⟨f.header, ⟨f, hmem, rfl⟩, hcc⟩
  · rintro ⟨h, ⟨f, hmem, rfl⟩, hcc⟩
    exact ⟨(fn, f), ⟨hmem, hcc⟩, rfl⟩

/-- The name `llvm.used` is taken. -/
def UsedTaken (m : Module) : Prop := "llvm.used" ∈ m.functions.keys ++ m.globals.keys

structure Annotated (m m' : Module) : Prop where
  annotations : m'.annotations = if m.annotations = [] then (kernelFns m).map kernelNode else m.annotations
  hasAnnotations : m'.hasAnnotations = (m.hasAnnotations || !(kernelFns m).isEmpty)
  used : ∀ fn, IsKernel m fn → (InUsed m' fn ↔ InUsed m fn ∨ m.annotations = [] ∧ ¬ UsedTaken m)
  initializers : ∀ g ∈ m'.globals.values, g ∈ m.globals.values ∨ g.initializer = (kernelFns m).map .function

theorem annotated_adaptNvvmAnnotations (m : Module) : Annotated m (adaptNvvmAnnotations m) := by
  unfold adaptNvvmAnnotations
  split
  · next hlen =>
    have hne : m.annotations ≠ [] := List.length_pos_iff.mp hlen
    have hhas : m.hasAnnotations = true := by
      cases h : m.namedMetadata.get "nvvm.annotations" with
      | none => simp [Module.annotations, Module.namedOperands, h] at hne
      | some nodes => rw [Module.hasAnnotations, h]; rfl
    exact ⟨(if_neg hne).symm, by rw [hhas]; rfl, fun fn _ => by simp [hne], fun g hg => .inl hg⟩
  · next hlen =>
    have hnil : m.annotations = [] := List.length_eq_zero_iff.mp (Nat.eq_zero_of_not_pos hlen)
    dsimp only
    split
    · next hfns =>
      refine ⟨by rw [if_pos hnil, hfns, hnil]; rfl, by rw [hfns]; simp, fun fn hk => ?_, fun g hg => .inl hg⟩
      rw [← mem_kernelFns, hfns] at hk
      cases hk
    · next hfns =>
      obtain ⟨h1, h2, h3⟩ := annotations_addOperands (kernelFns m) m
      refine ⟨by rw [if_pos hnil]; rw [hnil] at h1; exact h1, h2, fun fn hk => ?_, fun g hg => ?_⟩
      · have htaken : ∀ m' : Module, m'.functions = m.functions → m'.globals = m.globals → (UsedTaken m' ↔ UsedTaken m) :=
          fun m' h h' => by rw [UsedTaken, UsedTaken, h, h']
        have ht := htaken _ (functions_addOperands (kernelFns m) m) h3
        rw [InUsed, Module.addGlobal]
        by_cases hu : UsedTaken m
        · simp only [hu, not_true_eq_false, and_false, or_false, InUsed]
          rw [Dict.get_set_ne _ _ (uniqueName_ne (ht.mpr hu)).symm, h3]
        · rw [uniqueName_of_fresh fun h => hu (ht.mp h)]
          simp only [Dict.get_set_self, Option.some.injEq, exists_eq_left', hnil, hu, not_false_eq_true, and_self, or_true,
            iff_true]
          exact List.mem_map_of_mem (mem_kernelFns.mpr hk)
      · obtain ⟨e, he, rfl⟩ := List.mem_map.mp hg
        rcases Dict.mem_set_iff.mp he with rfl | ⟨hmem, -⟩
        · exact .inr rfl
        · rw [h3] at hmem
          exact .inl (List.mem_map_of_mem hmem)

theorem annotated_adaptMetadata (v : NvvmIrVersion) (m : Module) : Annotated m (adaptMetadata v m) := by
  have hversion : ∀ m, (adaptNvvmirVersion v m).namedMetadata.get "nvvm.annotations" =
      m.namedMetadata.get "nvvm.annotations" ∧ (adaptNvvmirVersion v m).globals = m.globals := by
    intro m
    unfold adaptNvvmirVersion
    split
    · exact ⟨rfl, rfl⟩
    · exact ⟨Dict.get_set_ne _ _ (by decide), rfl⟩
  have hdebug : ∀ m, (adaptDebugInfoVersion m).namedMetadata.get "nvvm.annotations" =
      m.namedMetadata.get "nvvm.annotations" ∧ (adaptDebugInfoVersion m).globals = m.globals := by
    intro m
    unfold adaptDebugInfoVersion
    split
    · exact ⟨rfl, rfl⟩
    · exact ⟨Dict.get_set_ne _ _ (by decide), rfl⟩
  have hget := (hdebug (adaptNvvmirVersion v (adaptNvvmAnnotations m))).1.trans (hversion (adaptNvvmAnnotations m)).1
  have hglobals := (hdebug (adaptNvvmirVersion v (adaptNvvmAnnotations m))).2.trans (hversion (adaptNvvmAnnotations m)).2
  obtain ⟨h1, h2, h3, h4⟩ := annotated_adaptNvvmAnnotations m
  obtain ⟨e1, e2⟩ := annotations_of_get hget
  refine ⟨e1.trans h1, e2.trans h2, fun fn hk => ?_, fun g hg => h4 g (hglobals ▸ hg)⟩
  rw [← h3 fn hk, InUsed, adaptMetadata, hglobals]
  rfl

/-! ## Grid constants -/

def gridNodes (e : String × Function) : List MDNode :=
  if e.2.callingConv = ptxKernel ∧ gridIndices e.2 ≠ [] then [gridNode e.1 (gridIndices e.2)] else []

theorem annotations_gridConstants (es : List (String × Function)) (m : Module) :
    (es.foldl downgradeGridConstantOf m).annotations = m.annotations ++ es.flatMap gridNodes ∧
      (es.foldl downgradeGridConstantOf m).globals = m.globals ∧
      ((es.foldl downgradeGridConstantOf m).hasAnnotations = (m.hasAnnotations || !(es.flatMap gridNodes).isEmpty)) := by
  induction es generalizing m with
  | nil => simp
  | cons e es ih =>
    obtain ⟨h1, h2, h3⟩ := ih (downgradeGridConstantOf m e)
    have hone : (downgradeGridConstantOf m e).annotations = m.annotations ++ gridNodes e ∧
        (downgradeGridConstantOf m e).globals = m.globals ∧
        (downgradeGridConstantOf m e).hasAnnotations = (m.hasAnnotations || !(gridNodes e).isEmpty) := by
      unfold downgradeGridConstantOf gridNodes
      by_cases hk : e.2.callingConv = ptxKernel
      · by_cases hi : gridIndices e.2 = []
        · simp [hk, hi]
        · obtain ⟨a1, a2⟩ := annotations_add m (gridNode e.1 (gridIndices e.2))
          simp only [hk, hi, ne_eq, not_true_eq_false, not_false_eq_true, and_self, if_true, if_false]
          exact ⟨a1, rfl, by rw [a2]; simp⟩
      · simp [hk]
    rw [List.foldl_cons, List.flatMap_cons, ← List.append_assoc, ← hone.1, h2, h3, hone.2.1, hone.2.2]
    refine ⟨h1, rfl, ?_⟩
    cases gridNodes e <;> simp

theorem gridIndices_nodup (f : Function) : (gridIndices f).Nodup := by
  apply List.Nodup.filterMap _ List.nodup_range
  intro i j k hi hj
  cases hpi : f.params[i]? with
  | none => simp [hpi] at hi
  | some p =>
    cases hpj : f.params[j]? with
    | none => simp [hpj] at hj
    | some q =>
      simp only [hpi, hpj, Option.mem_def, Option.ite_none_right_eq_some, Option.some.injEq] at hi hj
      omega

theorem pairsOf_gridNodes (m : Module) (fn : String) :
    pairsOf (m.functions.entries.flatMap gridNodes) fn =
      (m.functions.get fn).elim [] fun f => pairsOf (gridNodes (fn, f)) fn := by
  refine pairsOf_entries (fun e node hnode => ?_) fn m.functions.nodup
  unfold gridNodes at hnode
  split at hnode
  · cases List.mem_singleton.mp hnode
    exact ⟨_, rfl⟩
  · cases hnode

theorem pairsOf_gridNode (fn : String) (f : Function) (hk : f.callingConv = ptxKernel) (hi : gridIndices f ≠ []) :
    pairsOf (gridNodes (fn, f)) fn =
      [("grid_constant", .node ((gridIndices f).map fun k => .value (.constantInt i32 k)))] := by
  rw [gridNodes, if_pos ⟨hk, hi⟩]
  simp [pairsOf, gridNode, nodePairs, annotationPairs]

theorem kernelPairs_gridNodes (m : Module) (fn : String) :
    (pairsOf (m.functions.entries.flatMap gridNodes) fn).countP isKernelPair = 0 := by
  rw [pairsOf_gridNodes]
  cases m.functions.get fn with
  | none => rfl
  | some f =>
    rw [Option.elim_some]
    by_cases h : f.callingConv = ptxKernel ∧ gridIndices f ≠ []
    · rw [pairsOf_gridNode fn f h.1 h.2]
      simp [isKernelPair]
    · rw [gridNodes, if_neg h]
      rfl

theorem listings_gridNodes (m : Module) {fn : String} {h : Header} (hh : m.header fn = some h) {k : Nat}
    (hk : k ∈ h.gridIndices) :
    ((pairsOf (m.functions.entries.flatMap gridNodes) fn).flatMap gridPair).count k =
      if h.callingConv = ptxKernel then 1 else 0 := by
  rw [Module.header, Option.map_eq_some_iff] at hh
  obtain ⟨f, hf, rfl⟩ := hh
  have hne : gridIndices f ≠ [] := List.ne_nil_of_mem hk
  rw [pairsOf_gridNodes, hf, Option.elim_some]
  by_cases hcc : f.callingConv = ptxKernel
  · rw [pairsOf_gridNode fn f hcc hne, if_pos (show f.header.callingConv = ptxKernel from hcc)]
    have hids : ∀ l : List Nat, (l.map fun k => Metadata.value (.constantInt i32 k)).filterMap constInt? = l := by
      intro l
      rw [List.filterMap_map]
      exact List.filterMap_some
    simp only [List.flatMap_cons, List.flatMap_nil, List.append_nil, gridPair, if_true, hids]
    exact List.count_eq_one_of_mem (gridIndices_nodup f) hk
  · rw [gridNodes, if_neg fun h => hcc h.1]
    exact (if_neg hcc).symm

theorem pairsOf_kernelNodes (m : Module) (fn : String) :
    pairsOf ((kernelFns m).map kernelNode) fn = (m.functions.get fn).elim [] fun f =>
      if f.callingConv = ptxKernel then [("kernel", .value (.constantInt i32 1))] else [] := by
  have hmap : (kernelFns m).map kernelNode = m.functions.entries.flatMap fun e =>
      if e.2.callingConv = ptxKernel then [kernelNode e.1] else [] := by
    rw [kernelFns, List.map_map]
    induction m.functions.entries with
    | nil => rfl
    | cons e es ih =>
      rw [List.flatMap_cons, ← ih, List.filter_cons]
      by_cases h : e.2.callingConv = ptxKernel <;> simp [h]
  rw [hmap, pairsOf_entries (fun e node hnode => ?_) fn m.functions.nodup]
  · show (m.functions.get fn).elim _ _ = _
    cases m.functions.get fn with
    | none => rfl
    | some f =>
      rw [Option.elim_some, Option.elim_some]
      split <;> simp [pairsOf, kernelNode, nodePairs, annotationPairs]
  · split at hnode
    · cases List.mem_singleton.mp hnode
      exact ⟨_, rfl⟩
    · cases hnode

/-! ## Lifetimes -/

/-- The function is a lifetime intrinsic that the downgrade deletes. -/
def Erased (m : Module) (name : String) : Prop :=
  name ∈ lifetimeNames ∧ ∃ h, m.header name = some h ∧ h.paramCount ≠ 2

theorem header_lifetimeOf (m : Module) (name name' : String) :
    let m' := downgradeLifetimeOf Launcher.api m name
    ((name' = name ∧ ∃ h, m.header name = some h ∧ h.paramCount ≠ 2) → m'.header name' = none) ∧
      (¬ (name' = name ∧ ∃ h, m.header name = some h ∧ h.paramCount ≠ 2) → m'.header name' = m.header name') := by
  simp only [downgradeLifetimeOf, Module.header]
  cases hget : m.functions.get name with
  | none => simp
  | some f =>
    by_cases hlen : f.params.length = 2
    · simp [hlen, Function.header]
    · simp only [hlen, if_false]
      show (_ → Option.map _ ((Dict.erase _ name).get name') = none) ∧ (_ → Option.map _ ((Dict.erase _ name).get name') = _)
      rw [Dict.get_erase]
      constructor
      · rintro ⟨rfl, -⟩
        rw [if_pos rfl]
        rfl
      · intro h
        rw [if_neg fun heq => h ⟨heq, f.header, rfl, hlen⟩]
        exact header_mapInstructions m _ name'

theorem header_lifetime (m : Module) (name : String) :
    (Erased m name → (downgradeLifetime Launcher.api m).header name = none) ∧
      (¬ Erased m name → (downgradeLifetime Launcher.api m).header name = m.header name) := by
  have h1 := fun name' => header_lifetimeOf m "llvm.lifetime.start.p0" name'
  have h2 := header_lifetimeOf (downgradeLifetimeOf Launcher.api m "llvm.lifetime.start.p0") "llvm.lifetime.end.p0" name
  have hend := (h1 "llvm.lifetime.end.p0").2 fun h => absurd h.1 (by decide)
  simp only [hend] at h2
  simp only [Erased, lifetimeNames, List.mem_cons, List.not_mem_nil, or_false]
  constructor
  · rintro ⟨rfl | rfl, hlong⟩
    · exact (h2.2 fun h => absurd h.1 (by decide)).trans ((h1 _).1 ⟨rfl, hlong⟩)
    · exact h2.1 ⟨rfl, hlong⟩
  · intro hn
    rw [downgradeLifetime, lifetimeNames, List.foldl_cons, List.foldl_cons, List.foldl_nil]
    rw [h2.2 fun h => hn ⟨.inr h.1, h.1 ▸ h.2⟩, (h1 name).2 fun h => hn ⟨.inl h.1, h.1 ▸ h.2⟩]

theorem data_lifetimeOf (m : Module) (name : String) :
    (downgradeLifetimeOf Launcher.api m name).globals = m.globals ∧
      (downgradeLifetimeOf Launcher.api m name).namedMetadata = m.namedMetadata := by
  unfold downgradeLifetimeOf
  split
  · exact ⟨rfl, rfl⟩
  · split <;> exact ⟨rfl, rfl⟩

theorem data_lifetime (m : Module) :
    (downgradeLifetime Launcher.api m).globals = m.globals ∧
      (downgradeLifetime Launcher.api m).namedMetadata = m.namedMetadata := by
  simp only [downgradeLifetime, lifetimeNames, List.foldl_cons, List.foldl_nil]
  obtain ⟨s1, s2⟩ := data_lifetimeOf m "llvm.lifetime.start.p0"
  obtain ⟨e1, e2⟩ := data_lifetimeOf (downgradeLifetimeOf Launcher.api m "llvm.lifetime.start.p0") "llvm.lifetime.end.p0"
  exact ⟨e1.trans s1, e2.trans s2⟩

/-- No global variable is initialized with an intrinsic. -/
def Initialized (m : Module) : Prop :=
  ∀ g ∈ m.globals.values, ∀ name, isIntrinsic name → Value.function name ∉ g.initializer

theorem lifetimeOf_agree {m : Module} (hs : Sane m) (hinit : Initialized m) {name : String} (hname : name ∈ lifetimeNames) :
    downgradeLifetimeOf Launcher.api m name = downgradeLifetimeOf ModernBridge.api m name := by
  have hl := lifetime_of_mem hname
  have hintr := isIntrinsic_of_isLifetime hl
  unfold downgradeLifetimeOf
  cases hget : m.functions.get name with
  | none => rfl
  | some f =>
    dsimp only
    by_cases hlen : f.params.length = 2
    · rw [if_pos hlen, if_pos hlen]
    · rw [if_neg hlen, if_neg hlen, ← replaceCalls_agree hs hintr fun _ _ _ _ _ => rfl]
      have hnone := not_called_of_erased launcher_faithful.finds hs hname hget hlen
      have hs' := (rewrites_eraseCalls hs launcher_faithful.finds hname hget hlen).sane hs
      have huse : (replaceCalls Launcher.api m name fun _ _ => []).useEmpty name = true := by
        rw [Module.useEmpty, Bool.and_eq_true, List.all_eq_true, List.all_eq_true]
        refine ⟨fun i hi => ?_, fun g hg => ?_⟩
        · rw [decide_eq_true_eq]
          intro hmem
          cases hop : i.op with
          | call c =>
            rw [hop, Op.uses, List.mem_cons] at hmem
            rcases hmem with hcallee | hmem
            · exact hnone i hi c hop hcallee.symm
            · exact hs'.intrinsicOperand i hi name hintr (by rw [hop]; exact hmem)
          | _ =>
            rw [hop] at hmem
            exact hs'.intrinsicOperand i hi name hintr (by rw [hop]; exact hmem)
        · rw [decide_eq_true_eq]
          exact hinit g hg name hintr
      show Launcher.deleteFunction _ name = ModernBridge.deleteFunction _ name
      rw [ModernBridge.deleteFunction, if_pos huse]
      rfl

theorem lifetime_agree {m : Module} (hs : Sane m) (hinit : Initialized m) :
    downgradeLifetime Launcher.api m = downgradeLifetime ModernBridge.api m := by
  have hstart : "llvm.lifetime.start.p0" ∈ lifetimeNames := by decide
  have hend : "llvm.lifetime.end.p0" ∈ lifetimeNames := by decide
  have h1 := rewrites_lifetimeOf launcher_faithful.finds launcher_faithful.deletes hs hstart
  have hinit1 : Initialized (downgradeLifetimeOf Launcher.api m "llvm.lifetime.start.p0") := by
    rw [Initialized, (data_lifetimeOf m _).1]
    exact hinit
  simp only [downgradeLifetime, lifetimeNames, List.foldl_cons, List.foldl_nil]
  rw [← lifetimeOf_agree hs hinit hstart, lifetimeOf_agree (h1.sane hs) hinit1 hend]

end NumbaCudaMlir.Libnvvm

import NumbaCudaMlir.LibnvvmAgree

/-!
# What the passes keep

The passes over instructions keep global variables, metadata and the calling
conventions and grid constants of functions. The metadata passes append to the
annotations.
-/

namespace NumbaCudaMlir.Libnvvm

/-! ## Functions -/

structure Header where
  callingConv : Nat
  paramCount : Nat
  gridIndices : List Nat

def Function.header (f : Function) : Header := ⟨f.callingConv, f.params.length, gridIndices f⟩

def Module.header (m : Module) (name : String) : Option Header := (m.functions.get name).map Function.header

structure Frame (m m' : Module) : Prop where
  globals : m'.globals = m.globals
  namedMetadata : m'.namedMetadata = m.namedMetadata
  header : ∀ name, m'.header name = m.header name ∨
    name ∈ insertedNames ∧ m.header name = none ∧ ∃ n, m'.header name = some ⟨0, n, []⟩

theorem Frame.refl (m : Module) : Frame m m := ⟨rfl, rfl, fun _ => .inl rfl⟩

theorem Frame.trans {m m' m'' : Module} (h : Frame m m') (h' : Frame m' m'') : Frame m m'' where
  globals := h'.globals.trans h.globals
  namedMetadata := h'.namedMetadata.trans h.namedMetadata
  header name := by
    rcases h.header name with e | ⟨hn, e0, e1⟩
    · rw [← e]
      exact h'.header name
    · obtain ⟨n, e1⟩ := e1
      rcases h'.header name with e' | ⟨-, e', -⟩
      · exact .inr ⟨hn, e0, n, e'.trans e1⟩
      · cases e1.symm.trans e'

theorem Frame.foldl {α : Type} {pass : Module → α → Module} :
    ∀ {l : List α}, (∀ a ∈ l, ∀ m, Frame m (pass m a)) → ∀ m, Frame m (l.foldl pass m)
  | [], _, m => Frame.refl m
  | a :: _, h, m => (h a List.mem_cons_self m).trans (Frame.foldl (fun b hb => h b (List.mem_cons_of_mem _ hb)) _)

theorem header_mapFunctions {m : Module} {g : Function → Function} (hg : ∀ f, (g f).header = f.header) (name : String) :
    (m.mapFunctions g).header name = m.header name := by
  rw [Module.header, Module.header, Module.mapFunctions, Dict.get_mapValues, Option.map_map]
  apply Option.map_congr; intro f _
  exact hg f

theorem header_mapInstructions (m : Module) (g : Instruction → List Instruction) (name : String) :
    (m.mapInstructions g).header name = m.header name := by
  unfold Module.mapInstructions
  apply header_mapFunctions
  exact fun _ => rfl

theorem frame_mapInstructions (m : Module) (g : Instruction → List Instruction) : Frame m (m.mapInstructions g) :=
  ⟨rfl, rfl, fun name => .inl (header_mapInstructions m g name)⟩

theorem gridIndices_of_params {f : Function} (h : ∀ p ∈ f.params, p.attrs = []) : gridIndices f = [] := by
  rw [gridIndices, List.filterMap_eq_nil_iff]
  intro i _
  cases hp : f.params[i]? with
  | none => rfl
  | some p => simp [h p (List.mem_of_getElem? hp)]

theorem frame_getOrAdd (llvm : Llvm) (m : Module) {name : String} (ty : FunctionType) (hname : name ∈ insertedNames) :
    Frame m (getOrAddFunction llvm m name ty) := by
  refine ⟨rfl, rfl, fun name' => ?_⟩
  obtain ⟨f, hcc, -, hattrs, -, hget⟩ := get_getOrAdd llvm m name name' ty
  rw [Module.header, hget, Module.header]
  split
  · next heq =>
    rw [heq]
    cases m.functions.get name with
    | none => exact .inr ⟨hname, rfl, f.params.length, by simp [Function.header, hcc, gridIndices_of_params hattrs]⟩
    | some f0 => exact .inl rfl
  · exact .inl rfl

section
variable (llvm : Llvm) (api : Api) (m : Module)

theorem frame_guarded {m1 : Module} (name : String) {g : Instruction → CallBase → List Instruction} (h : Frame m m1) :
    Frame m (match m.functions.get name with
      | none => m
      | some _ => replaceCalls api m1 name g) := by
  cases m.functions.get name with
  | none => exact Frame.refl m
  | some f => exact h.trans (frame_mapInstructions _ _)

theorem frame_adaptCode : Frame m (adaptCode llvm api m) := by
  have h1 : Frame m (adaptBarrierSync llvm api m) :=
    frame_guarded api m _ ((frame_getOrAdd llvm m _ (by decide)).trans (frame_getOrAdd llvm _ _ (by decide)))
  have h2 := h1.trans (Frame.foldl (fun op (_ : op ∈ reductions) m =>
    (frame_guarded api m _ (frame_getOrAdd llvm m _ (by cases op <;> decide)) : Frame m (adaptReduction llvm api m op))) _)
  have h3 := h2.trans (Frame.foldl (fun a (_ : a ∈ asmIntrinsics) m =>
    (frame_guarded api m _ (Frame.refl m) : Frame m (replaceIntrinsicWithAsm api m a))) _)
  have h4 : Frame m (adaptAtomicrmw _) := h3.trans (frame_mapInstructions _ _)
  have hlib : ∀ t ∈ truncMappings, t.libdevice ∈ insertedNames := by decide
  exact h4.trans (Frame.foldl (fun t ht m =>
    (frame_guarded api m _ (frame_getOrAdd llvm m _ (hlib t ht)) : Frame m (adaptTruncMapping llvm api m t))) _)

end

/-! ## Attributes -/

def isRemoved (nocupKind capturesKind : Nat) (downgradeCaptures : Bool) : Attribute → Bool
  | .enum kind _ => kind = nocupKind ∧ nocupKind ≠ 0 ∨ downgradeCaptures ∧ kind = capturesKind ∧ capturesKind ≠ 0
  | _ => false

theorem modernBridge_process (nocupKind capturesKind : Nat) (downgradeCaptures : Bool) (attrs : List Attribute) :
    ModernBridge.process nocupKind capturesKind downgradeCaptures attrs =
      attrs.filter (!isRemoved nocupKind capturesKind downgradeCaptures ·) := by
  have hstep : ∀ (kind : Nat) (on : Prop) [Decidable on] (l : List Attribute),
      (if on ∧ l.any (hasKind kind) then removeKind kind l else l) = l.filter fun a => !(decide on && hasKind kind a) := by
    intro kind on _ l
    by_cases hon : on
    · by_cases hany : l.any (hasKind kind)
      · simp [hon, hany, removeKind]
      · rw [if_neg fun h => hany h.2, eq_comm, List.filter_eq_self]
        intro a ha
        simp only [List.any_eq_true, not_exists, not_and] at hany
        simp [hany a ha]
    · simp [hon]
  rw [ModernBridge.process]
  simp only [← and_assoc]
  rw [hstep nocupKind (nocupKind ≠ 0), hstep capturesKind (downgradeCaptures ∧ capturesKind ≠ 0), List.filter_filter]
  apply List.filter_congr; intro a _
  cases a with
  | enum kind value =>
    simp only [hasKind, isRemoved]
    by_cases h1 : nocupKind = 0 <;> by_cases h2 : capturesKind = 0 <;> cases downgradeCaptures <;>
      by_cases h3 : kind = nocupKind <;> by_cases h4 : kind = capturesKind <;> simp [h1, h2, h3, h4]
  | _ => simp [hasKind, isRemoved]

/-- The attribute `b` is to go, and `a` has its kind. -/
def takes (nocupKind capturesKind : Nat) (downgradeCaptures : Bool) (b a : Attribute) : Bool :=
  isRemoved nocupKind capturesKind downgradeCaptures b &&
    match b with
    | .enum kind _ => hasKind kind a
    | _ => false

theorem processAttr_eq (nocupKind capturesKind : Nat) (downgradeCaptures : Bool) (acc : List Attribute) (b : Attribute) :
    Launcher.processAttr nocupKind capturesKind downgradeCaptures acc b =
      acc.filter (!takes nocupKind capturesKind downgradeCaptures b ·) := by
  cases b with
  | enum kind value =>
    simp only [Launcher.processAttr, takes, isRemoved]
    by_cases h1 : kind = nocupKind ∧ nocupKind ≠ 0
    · simp [h1, removeKind]
    · rw [if_neg h1]
      by_cases h2 : downgradeCaptures ∧ kind = capturesKind ∧ capturesKind ≠ 0
      · rw [if_pos h2]
        simp [h2, removeKind]
      · rw [if_neg h2]
        simp [h1, h2]
  | _ => simp [Launcher.processAttr, takes]

theorem launcher_process (nocupKind capturesKind : Nat) (downgradeCaptures : Bool) (attrs : List Attribute) :
    Launcher.process nocupKind capturesKind downgradeCaptures attrs =
      attrs.filter (!isRemoved nocupKind capturesKind downgradeCaptures ·) := by
  have hfold : ∀ l acc : List Attribute, l.foldl (Launcher.processAttr nocupKind capturesKind downgradeCaptures) acc =
      acc.filter fun a => l.all fun b => !takes nocupKind capturesKind downgradeCaptures b a := by
    intro l
    induction l with
    | nil => intro acc; simp
    | cons b l ih =>
      intro acc
      rw [List.foldl_cons, ih, processAttr_eq, List.filter_filter]
      apply List.filter_congr; intro a _
      rw [List.all_cons, Bool.and_comm]
  rw [Launcher.process, hfold]
  apply List.filter_congr; intro a ha
  cases hg : isRemoved nocupKind capturesKind downgradeCaptures a with
  | true =>
    rw [Bool.not_true, List.all_eq_false]
    refine ⟨a, ha, ?_⟩
    cases a with
    | enum kind value => simp [takes, hg, hasKind]
    | _ => simp [isRemoved] at hg
  | false =>
    rw [Bool.not_false, List.all_eq_true]
    intro b _
    cases b with
    | enum kind value =>
      cases a with
      | enum kind' value' =>
        by_cases hk : kind' = kind
        · subst hk
          have : isRemoved nocupKind capturesKind downgradeCaptures (.enum kind' value) = false := hg
          simp [takes, this]
        · simp [takes, hasKind, hk]
      | _ => simp [takes, hasKind]
    | _ => simp [takes]

/-- The attributes that the downgrade is meant to remove. -/
def removedAttr (llvm : Llvm) (ctkMajor : Int) : Attribute → Bool :=
  isRemoved (llvm.enumAttributeKind "nocreateundeforpoison") (llvm.enumAttributeKind "captures") (ctkMajor < 13)

theorem downgradeAttributes_agree (llvm : Llvm) (ctkMajor : Int) (m : Module) :
    downgradeAttributes llvm Launcher.api ctkMajor m = downgradeAttributes llvm ModernBridge.api ctkMajor m := by
  have h : Launcher.api.process = ModernBridge.api.process := by
    funext nocupKind capturesKind downgradeCaptures attrs
    exact (launcher_process ..).trans (modernBridge_process ..).symm
  rw [downgradeAttributes, downgradeAttributes, h]

theorem gridIndices_filter {f f' : Function} {g : Attribute → Bool} (hg : ∀ a, isGridConstant a → g a)
    (hparams : f'.params = f.params.map fun p => { p with attrs := p.attrs.filter g }) : gridIndices f' = gridIndices f := by
  have hany : ∀ attrs : List Attribute, (attrs.filter g).any isGridConstant = attrs.any isGridConstant := by
    intro attrs
    rw [List.any_filter]
    congr 1
    funext a
    cases h : isGridConstant a with
    | true => simp [hg a h]
    | false => simp
  simp only [gridIndices, hparams, List.length_map, List.getElem?_map]
  apply List.filterMap_congr; intro i _
  cases f.params[i]? with
  | none => rfl
  | some p => simp [hany]

theorem downgradeAttributes_eq (llvm : Llvm) (ctkMajor : Int) (m : Module) :
    downgradeAttributes llvm Launcher.api ctkMajor m = m.mapFunctions fun f =>
      let keep (attrs : List Attribute) := attrs.filter (!removedAttr llvm ctkMajor ·)
      { f with
        ret := { f.ret with attrs := keep f.ret.attrs }
        params := f.params.map fun p => { p with attrs := keep p.attrs }
        attrs := keep f.attrs } := by
  have h : Launcher.api.process (llvm.enumAttributeKind "nocreateundeforpoison") (llvm.enumAttributeKind "captures")
      (ctkMajor < 13) = fun attrs => attrs.filter (!removedAttr llvm ctkMajor ·) := by
    funext attrs
    exact launcher_process ..
  rw [downgradeAttributes, h]

theorem header_downgradeAttributes (llvm : Llvm) (ctkMajor : Int) (m : Module) (name : String) :
    (downgradeAttributes llvm Launcher.api ctkMajor m).header name = m.header name := by
  rw [downgradeAttributes_eq]
  apply header_mapFunctions; intro f
  simp only [Function.header, List.length_map, Header.mk.injEq, true_and]
  refine gridIndices_filter (fun a ha => ?_) rfl
  cases a with
  | string key value => rfl
  | _ => simp [isGridConstant] at ha

end NumbaCudaMlir.Libnvvm

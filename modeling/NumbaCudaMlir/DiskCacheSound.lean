import NumbaCudaMlir.DiskCache

/-!
# What the disk cache keeps

A rebuilt result launches like the compiled one when the latter needs no
cooperative launch, no dynamic shared memory of its own and no callbacks.
A hit means equal options where the key has them.
-/

namespace NumbaCudaMlir.DiskCache

open CacheFile

/-! ## Rebuilt results -/

section
variable (payload : Payload)

theorem rebuild_get_none {k : String} (h : k ∉ ["cubin", "ptx", "ltoir", "func_name", "mlir_module_optimized",
    "needs_nrt", "nrt_inline", "targetoptions", "gpu_target"]) : (rebuild payload).metadata.get k = none := by
  simp only [List.mem_cons, List.not_mem_nil, or_false, not_or] at h
  obtain ⟨h1, h2, h3, h4, h5, h6, h7, h8, h9⟩ := h
  unfold rebuild
  simp only
  rw [Dict.get_set_ne _ _ h9, Dict.get_set_ne _ _ h8, Dict.get_set_ne _ _ h7, Dict.get_set_ne _ _ h6,
    Dict.get_set_ne _ _ h5, Dict.get_set_ne _ _ h4, Dict.get_set_ne _ _ h3, Dict.get_set_ne _ _ h2,
    Dict.get_set_ne _ _ h1, Dict.get_empty]

theorem rebuild_getD {k : String} (dflt : MetadataValue) (h : k ∉ ["cubin", "ptx", "ltoir", "func_name",
    "mlir_module_optimized", "needs_nrt", "nrt_inline", "targetoptions", "gpu_target"]) :
    (rebuild payload).metadata.getD k dflt = dflt := by
  unfold Metadata.getD
  rw [rebuild_get_none payload h]
  rfl

theorem rebuild_cubin : (rebuild payload).metadata.get "cubin" = some payload.cubin := by
  simp [rebuild, Dict.get_set]

theorem rebuild_funcName : (rebuild payload).metadata.get "func_name" = some payload.funcName := by
  simp [rebuild, Dict.get_set]

theorem rebuild_result :
    result (rebuild payload).metadata = some (payload.cubin, payload.funcName, .bool false) := by
  unfold result
  rw [rebuild_cubin, rebuild_funcName, rebuild_getD payload _ (by decide)]
  rfl

end

theorem result_eq (cres : CompileResult) :
    result cres.metadata =
      some ((reduce cres).cubin, (reduce cres).funcName, cres.metadata.getD "use_cooperative" (.bool false)) := by
  obtain ⟨code, hc⟩ := cres.cubin
  obtain ⟨name, hn⟩ := cres.funcName
  unfold result reduce Metadata.getD
  rw [hc, hn]
  rfl

/-! ## Launches -/

/-- Launching the rebuilt result is launching the compiled one, in every
dispatcher, and each read gives the same. -/
structure SameLaunch (m m' : Metadata) : Prop where
  result : result m' = result m
  requiredDynamicSharedMemory : requiredDynamicSharedMemory m' = requiredDynamicSharedMemory m
  setup : setupCallbacks m' = setupCallbacks m
  teardown : teardownCallbacks m' = teardownCallbacks m
  attributes : ∀ c, afterHit c m' = afterCompile c m

def PlainLaunch (m : Metadata) : Prop :=
  m.getD "use_cooperative" (.bool false) = .bool false ∧ requiredDynamicSharedMemory m = .int 0 ∧
    setupCallbacks m = .callbacks [] ∧ teardownCallbacks m = .callbacks []

theorem propagateCompileCallbacks_nil {m : Metadata} (hs : setupCallbacks m = .callbacks [])
    (ht : teardownCallbacks m = .callbacks []) (c : ModuleCallbacks) : propagateCompileCallbacks m c = c := by
  unfold propagateCompileCallbacks
  rw [hs, ht]
  rfl

theorem sameLaunch_of_plain {cres : CompileResult} (h : PlainLaunch cres.metadata) :
    SameLaunch cres.metadata (rebuild (reduce cres)).metadata := by
  obtain ⟨hc, hd, hs, ht⟩ := h
  have hres : result (rebuild (reduce cres)).metadata = result cres.metadata := by
    rw [rebuild_result, result_eq, hc]
  have hdyn : requiredDynamicSharedMemory (rebuild (reduce cres)).metadata = requiredDynamicSharedMemory cres.metadata := by
    rw [hd]; exact rebuild_getD _ _ (by decide)
  refine ⟨hres, hdyn, ?_, ?_, ?_⟩
  · rw [hs]; exact rebuild_getD _ _ (by decide)
  · rw [ht]; exact rebuild_getD _ _ (by decide)
  · intro c
    unfold afterHit afterCompile launchAttributes
    rw [propagateCompileCallbacks_nil hs ht, hres, hdyn]

theorem plain_of_sameLaunch {cres : CompileResult} (h : SameLaunch cres.metadata (rebuild (reduce cres)).metadata) :
    PlainLaunch cres.metadata := by
  refine ⟨?_, ?_, ?_, ?_⟩
  · have := h.result
    rw [rebuild_result, result_eq] at this
    simp only [Option.some.injEq, Prod.mk.injEq, true_and] at this
    exact this.symm
  · rw [← h.requiredDynamicSharedMemory]; exact rebuild_getD _ _ (by decide)
  · rw [← h.setup]; exact rebuild_getD _ _ (by decide)
  · rw [← h.teardown]; exact rebuild_getD _ _ (by decide)

theorem checkCachable_eq {cres : CompileResult} {o : TargetOptions}
    (h : cres.metadata.get "targetoptions" = some (.options o)) :
    checkCachable cres =
      if linksFiles o then .error "Cannot pickle CUDACodeLibrary with linking files" else .ok true := by
  unfold checkCachable Metadata.getD
  rw [h]
  rfl

def Links (cres : CompileResult) : Prop :=
  ∃ o, cres.metadata.get "targetoptions" = some (.options o) ∧ linksFiles o = true

theorem checkCachable_ok_iff (cres : CompileResult) : checkCachable cres = .ok true ↔ ¬ Links cres := by
  obtain ⟨o, ho⟩ := cres.targetoptions
  rw [checkCachable_eq ho]
  unfold Links
  simp only [ho, Option.some.injEq, MetadataValue.options.injEq, exists_eq_left']
  split
  · next h => simp [h]
  · next h => simp [h]

/-- **A saved result** launches like the compiled one, or is not saved, exactly
when it links files or asks for no more than the data file has. -/
theorem rebuild_reduce_launch (cres : CompileResult) :
    (checkCachable cres = .ok true → SameLaunch cres.metadata (rebuild (reduce cres)).metadata) ↔
      Links cres ∨ PlainLaunch cres.metadata := by
  rw [checkCachable_ok_iff]
  constructor
  · intro h
    by_cases hl : Links cres
    · left; exact hl
    · right; exact plain_of_sameLaunch (h hl)
  · rintro (hl | hp) hn
    · exact absurd hl hn
    · exact sameLaunch_of_plain hp

/-- A kernel that calls `grid.sync()`: lowering marks it cooperative. -/
def gridSync : CompileResult :=
  compile ⟨[], .scalar (.named "none")⟩ (Dict.empty.set "use_cooperative" (.bool true)) .empty .none .none
    ⟨false, "module", [], "ptx", [1], "kernel"⟩

theorem rebuild_gridSync :
    checkCachable gridSync = .ok true ∧ ¬ SameLaunch gridSync.metadata (rebuild (reduce gridSync)).metadata := by
  refine ⟨rfl, ?_⟩
  intro h
  have h := h.result
  rw [rebuild_result, result_eq] at h
  simp only [Option.some.injEq, Prod.mk.injEq, true_and] at h
  have hc : gridSync.metadata.getD "use_cooperative" (.bool false) = .bool true := rfl
  rw [hc] at h
  cases h

/-! ## Options of a hit -/

def AgreeOn (names : List (String × Reading)) (o o' : TargetOptions) : Prop :=
  ∀ r ∈ names, o.consult r.1 r.2 = o'.consult r.1 r.2

theorem agreeOn_append {xs ys : List (String × Reading)} {o o' : TargetOptions} :
    AgreeOn (xs ++ ys) o o' ↔ AgreeOn xs o o' ∧ AgreeOn ys o o' := by
  simp only [AgreeOn, List.mem_append, or_imp, forall_and]

structure SameKeyed (host host' : Host) (o o' : TargetOptions) : Prop where
  sameHost : host = host'
  ltoExplicit : (o.getD "_lto_explicit" (.bool false)).norm = (o'.getD "_lto_explicit" (.bool false)).norm
  lto : (o.getD "lto" .none).norm = (o'.getD "lto" .none).norm
  chip : (resolveChip host.arch o).norm = (resolveChip host'.arch o').norm
  launchBounds : (o.getD "launch_bounds" .none).norm = (o'.getD "launch_bounds" .none).norm

theorem truthy_norm (v : OptionValue) : v.norm.truthy = v.truthy := by
  cases v with
  | bool b => cases b <;> rfl
  | _ => rfl

theorem truthy_getD_false (o : TargetOptions) (name : String) :
    (o.getD name (.bool false)).truthy = (o.getD name .none).truthy := by
  unfold TargetOptions.getD
  cases Dict.get o name with
  | none => rfl
  | some v => rfl

theorem truthy_congr {v w : OptionValue} (h : v.norm = w.norm) : v.truthy = w.truthy := by
  rw [← truthy_norm v, ← truthy_norm w, h]

section
variable (arch : String) (o : TargetOptions)

theorem resolve_getD {name : String} (h : name ≠ "chip") (dflt : OptionValue) :
    (resolveTargetOptions arch o).getD name dflt = o.getD name dflt := by
  unfold resolveTargetOptions TargetOptions.getD
  rw [Dict.get_set_ne _ _ h]

theorem resolve_consult {name : String} (h : name ≠ "chip") (r : Reading) :
    (resolveTargetOptions arch o).consult name r = o.consult name r := by
  cases r with
  | truth => simp only [TargetOptions.consult, resolve_getD arch o h]
  | value dflt => simp only [TargetOptions.consult, resolve_getD arch o h]

theorem resolve_chip : (resolveTargetOptions arch o).getD "chip" .none = resolveChip arch o := by
  unfold resolveTargetOptions TargetOptions.getD
  rw [Dict.get_set_self]
  rfl

theorem resolveChip_resolve : resolveChip arch (resolveTargetOptions arch o) = resolveChip arch o := by
  have hdef : resolveChip arch (resolveTargetOptions arch o) =
      if (resolveChip arch o).truthy then resolveChip arch o else .str arch := by
    rw [← resolve_chip arch o]; rfl
  rw [hdef]
  split
  · rfl
  · next h =>
    unfold resolveChip at h ⊢
    split
    · next h' => rw [if_pos h'] at h; exact absurd h' h
    · rfl

end

theorem agreeOn_keyed {host host' : Host} {o o' : TargetOptions} (h : SameKeyed host host' o o') :
    AgreeOn keyedOptions (resolveTargetOptions host.arch o) (resolveTargetOptions host'.arch o') := by
  intro r hr
  simp only [keyedOptions, List.mem_cons, List.not_mem_nil, or_false] at hr
  rcases hr with rfl | rfl | rfl | rfl
  · rw [resolve_consult _ _ (by decide), resolve_consult _ _ (by decide)]
    simp only [TargetOptions.consult, ← truthy_getD_false, truthy_congr h.ltoExplicit]
  · rw [resolve_consult _ _ (by decide), resolve_consult _ _ (by decide)]
    simp only [TargetOptions.consult, truthy_congr h.lto]
  · simp only [TargetOptions.consult, resolve_chip]
    exact h.chip
  · rw [resolve_consult _ _ (by decide), resolve_consult _ _ (by decide)]
    exact h.launchBounds

theorem agreeOn_unkeyed (arch arch' : String) (o o' : TargetOptions) :
    AgreeOn unkeyedOptions (resolveTargetOptions arch o) (resolveTargetOptions arch' o') ↔
      AgreeOn unkeyedOptions o o' := by
  have hne : ∀ r ∈ unkeyedOptions, r.1 ≠ "chip" := by decide
  constructor
  · intro h r hr
    have := h r hr
    rwa [resolve_consult _ _ (hne r hr), resolve_consult _ _ (hne r hr)] at this
  · intro h r hr
    rw [resolve_consult _ _ (hne r hr), resolve_consult _ _ (hne r hr)]
    exact h r hr

/-! ## Hits -/

section
variable {τ : Type} [DecidableEq τ]

def dispatcherCache (file : IndexDataCacheFile τ) (hashes : String × String) (host : Host) (o : TargetOptions) :
    MLIRCache τ :=
  ⟨file, host, hashes, resolveTargetOptions host.arch o⟩

/-- The second dispatcher loads what the first one has just saved. -/
def Hit (first second : MLIRCache τ) (sig : Signature) (cres : CompileResult) (disk : Files τ IndexKey Payload) : Prop :=
  ∃ disk', saveOverload first sig cres disk = .ok disk' ∧
    loadOverload second sig disk' = some (rebuild (reduce cres)) ∧
    loadOverload second sig disk ≠ some (rebuild (reduce cres))

theorem indexKey_eq_iff {host host' : Host} {hashes : String × String} {o o' : TargetOptions} {sig : Signature} :
    indexKey host hashes (resolveTargetOptions host.arch o) sig =
      indexKey host' hashes (resolveTargetOptions host'.arch o') sig ↔ SameKeyed host host' o o' := by
  unfold indexKey
  simp only [IndexKey.mk.injEq, Prod.mk.injEq, resolveChip_resolve,
    resolve_getD _ _ (show "_lto_explicit" ≠ "chip" by decide), resolve_getD _ _ (show "lto" ≠ "chip" by decide),
    resolve_getD _ _ (show "launch_bounds" ≠ "chip" by decide), true_and]
  constructor
  · rintro ⟨⟨hr, ha⟩, h1, h2, h3, h4⟩
    refine ⟨?_, h1, h2, h3, h4⟩
    cases host; cases host'
    simp only at hr ha
    rw [hr, ha]
  · rintro ⟨rfl, h1, h2, h3, h4⟩
    exact ⟨⟨rfl, rfl⟩, h1, h2, h3, h4⟩

variable {file : IndexDataCacheFile τ} {hashes : String × String} {host host' : Host} {o o' : TargetOptions}
  {sig : Signature}

theorem saveOverload_ok {first : MLIRCache τ} {cres : CompileResult} {disk disk' : Files τ IndexKey Payload}
    (h : saveOverload first sig cres disk = .ok disk') :
    (∃ b, checkCachable cres = .ok b) ∧
      disk' =
        stoppedSave first.file (indexKey first.host first.hashes first.targetoptions sig) (reduce cres) disk .afterData := by
  unfold saveOverload at h
  cases hc : checkCachable cres with
  | error e => rw [hc] at h; cases h
  | ok b =>
    rw [hc] at h
    cases h
    exact ⟨⟨b, rfl⟩, rfl⟩

theorem key_eq_of_hit {first second : MLIRCache τ} {cres : CompileResult} {disk : Files τ IndexKey Payload}
    (hr : Reachable disk) (h : Hit first second sig cres disk) :
    indexKey first.host first.hashes first.targetoptions sig =
      indexKey second.host second.hashes second.targetoptions sig := by
  obtain ⟨disk', hs, hl, hn⟩ := h
  obtain ⟨-, rfl⟩ := saveOverload_ok hs
  have hstale : ¬ LeavesStale first.file (indexKey first.host first.hashes first.targetoptions sig) (reduce cres)
      disk .afterData := fun h => by cases h.1
  have hstop := loadOk_of_not_leavesStale hr hstale second.file
    (indexKey second.host second.hashes second.targetoptions sig)
  unfold loadOverload at hl hn
  rcases hstop with hsame | hnone | ⟨hkey, -⟩
  · rw [hsame] at hl
    exact absurd hl hn
  · rw [hnone] at hl
    cases hl
  · exact hkey.symm

theorem hit_of_key_eq {first second : MLIRCache τ} {cres : CompileResult} (hc : checkCachable cres = .ok true)
    (hfile : first.file = second.file)
    (hkey : indexKey first.host first.hashes first.targetoptions sig =
      indexKey second.host second.hashes second.targetoptions sig) : Hit first second sig cres .empty := by
  refine ⟨save first.file (indexKey first.host first.hashes first.targetoptions sig) (reduce cres) .empty, ?_, ?_, ?_⟩
  · unfold saveOverload
    rw [hc]
    rfl
  · unfold loadOverload
    rw [← hkey, ← hfile, load_save]
    rfl
  · intro h
    cases h

end

def dispatcherResult (host : Host) (o : TargetOptions) (sig : Signature) (lowered : Metadata)
    (gpuTarget transformedSource : MetadataValue) (g : Codegen) : CompileResult :=
  compile sig lowered (resolveTargetOptions host.arch o) gpuTarget transformedSource g

theorem compile_targetoptions (sig : Signature) (lowered : Metadata) (o : TargetOptions)
    (gpuTarget transformedSource : MetadataValue) (g : Codegen) :
    (compile sig lowered o gpuTarget transformedSource g).metadata.get "targetoptions" = some (.options o) := by
  unfold compile
  simp only
  rw [optimize_targetoptions]
  unfold compileMlir
  rw [Dict.get_set_ne _ _ (by decide), Dict.get_set_ne _ _ (by decide), Dict.get_set_self]

theorem checkCachable_dispatcherResult (host : Host) (o : TargetOptions) (sig : Signature) (lowered : Metadata)
    (gpuTarget transformedSource : MetadataValue) (g : Codegen) :
    checkCachable (dispatcherResult host o sig lowered gpuTarget transformedSource g) =
      if linksFiles o then .error "Cannot pickle CUDACodeLibrary with linking files" else .ok true := by
  have hlinks : linksFiles (resolveTargetOptions host.arch o) = linksFiles o := by
    unfold linksFiles
    rw [resolve_getD _ _ (by decide)]
  unfold dispatcherResult
  rw [checkCachable_eq (compile_targetoptions ..), hlinks]

/-- **A hit** means options that agree exactly when the first dispatcher links
files, the keyed options differ or the others agree. -/
theorem hit_options_agree {τ : Type} [DecidableEq τ] (file : IndexDataCacheFile τ) (hashes : String × String)
    (host host' : Host) (o o' : TargetOptions) (sig sig' : Signature) (lowered : Metadata)
    (gpuTarget transformedSource : MetadataValue) (g : Codegen) :
    (∀ disk, Reachable disk →
      Hit (dispatcherCache file hashes host o) (dispatcherCache file hashes host' o') sig
        (dispatcherResult host o sig' lowered gpuTarget transformedSource g) disk →
      AgreeOn (keyedOptions ++ unkeyedOptions) (resolveTargetOptions host.arch o)
        (resolveTargetOptions host'.arch o')) ↔
      linksFiles o = true ∨ ¬ SameKeyed host host' o o' ∨ AgreeOn unkeyedOptions o o' := by
  constructor
  · intro h
    by_cases hl : linksFiles o = true
    · left; exact hl
    · right
      by_cases hk : SameKeyed host host' o o'
      · right
        have hc : checkCachable (dispatcherResult host o sig' lowered gpuTarget transformedSource g) = .ok true := by
          rw [checkCachable_dispatcherResult, if_neg hl]
        have hit := h .empty .empty (hit_of_key_eq hc rfl (indexKey_eq_iff.mpr hk))
        exact (agreeOn_unkeyed _ _ o o').mp (agreeOn_append.mp hit).2
      · left; exact hk
  · intro h disk hr hit
    have hk : SameKeyed host host' o o' := indexKey_eq_iff.mp (key_eq_of_hit hr hit)
    have hl : ¬ linksFiles o = true := by
      obtain ⟨disk', hs, -⟩ := hit
      obtain ⟨⟨b, hb⟩, -⟩ := saveOverload_ok hs
      intro hl
      rw [checkCachable_dispatcherResult, if_pos hl] at hb
      cases hb
    rcases h with h | h | h
    · exact absurd h hl
    · exact absurd hk h
    · exact agreeOn_append.mpr ⟨agreeOn_keyed hk, (agreeOn_unkeyed _ _ o o').mpr h⟩

/-- The second dispatcher compiles with fast math, the first without. -/
theorem hit_fastmath :
    ∃ disk, Reachable disk ∧
      Hit (dispatcherCache ⟨"0.1", 0⟩ ("code", "closure") ⟨"12.9", "sm_90"⟩ .empty)
        (dispatcherCache ⟨"0.1", 0⟩ ("code", "closure") ⟨"12.9", "sm_90"⟩ (Dict.empty.set "fastmath" (.bool true)))
        ⟨[], .scalar (.named "none")⟩
        (dispatcherResult ⟨"12.9", "sm_90"⟩ .empty ⟨[], .scalar (.named "none")⟩ .empty .none .none
          ⟨false, "module", [], "ptx", [1], "kernel"⟩) disk ∧
      ¬ AgreeOn (keyedOptions ++ unkeyedOptions) (resolveTargetOptions "sm_90" .empty)
        (resolveTargetOptions "sm_90" (Dict.empty.set "fastmath" (.bool true))) := by
  refine ⟨(.empty : Files Nat IndexKey Payload), .empty, hit_of_key_eq rfl rfl rfl, ?_⟩
  intro h
  have := h ("fastmath", .truth) (by simp [keyedOptions, unkeyedOptions])
  cases this

end NumbaCudaMlir.DiskCache

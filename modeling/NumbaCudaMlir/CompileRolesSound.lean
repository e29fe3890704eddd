import NumbaCudaMlir.CompileRoles
import NumbaCudaMlir.OverloadSound

/-!
# Each request gets a result of its role

A kernel's dispatcher whose requests keep device functions and values out of its
overloads has kernels alone to launch. The dispatchers of device functions have
device functions alone, in any run.
-/

namespace NumbaCudaMlir

namespace CompileRoles

/-! ## Roles -/

/-- A device function, which has the name that it was compiled under for a caller. -/
def IsDeviceFunction (cres : CompileResult) : Prop :=
  cres.device = true ∧ ∀ name, cres.deviceCalleeAbiName = some name → cres.abiInfo = some (some name)

def IsKernel (cres : CompileResult) : Prop := cres.kernel = true ∧ cres.linked = true

/-- What the overloads of a dispatcher are there for. -/
def HasRole (device : Bool) (cres : CompileResult) : Prop := if device then IsDeviceFunction cres else IsKernel cres

/-- The result satisfies the role and the options that a request asks for; a
`compile` without `abi_info` or `output` asks for the dispatcher's own. -/
def Answers (own : TargetOptions) (cres : CompileResult) : Request → Prop
  | .launch _ | .launchBound _ => IsKernel cres
  | .compile _ abiInfo output => cres.abiInfo = abiInfo.or own.abiInfo ∧ cres.output = output.or own.output
  | .compileDevice _ | .getCallTemplate _ => cres.device = true
  | .compileAsDeviceCallee _ abiName => cres.device = true ∧ ∀ name, abiName = some name → cres.abiInfo = some (some name)
  | .call _ funcName => cres.device = true ∧ cres.abiInfo = some (some funcName)
  | _ => True

section
variable (returnsVoid : Signature → Bool) (fails : TargetOptions → Signature → Bool) (resolveChip : Option String → String)
  (normalize : List NumbaType → List NumbaType)

/-- The result that the request is answered by is one that it asks for. -/
def Answered (own : TargetOptions) (d : DispatcherState) (r : Request) : Prop :=
  ∀ cres, (d.perform returnsVoid fails resolveChip normalize r).2 = some cres → Answers own cres r

/-! ## Requests that the table fits -/

/-- A kernel is lowered where an output kind lets a value be returned only if it returns none. -/
def NoValue (own : TargetOptions) (output : Option OutputKind) (sig : Signature) : Prop :=
  own.device = false → output ≠ none → returnsVoid sig = true

/-- The argument types of the overloads that a launch may take. -/
def Reaches (d : DispatcherState) (l : Launch) (argtypes : List NumbaType) : Prop :=
  canReuseOverloads argtypes l.argtypes = true ∨
    d.canCompile = false ∧ (SigCache.rateOverload argtypes (l.argtypes.map some)).isSome = true

/-- None of the overloads that a launch may take was added by a device request. -/
def NoneAdded (d : DispatcherState) (l : Launch) : Prop :=
  ∀ argtypes cres, d.overloads.get argtypes = some cres → Reaches d l argtypes → cres.device = false

def found (d : DispatcherState) (sig : Signature) (output : Option OutputKind) : Option CompileResult :=
  (d.overloads.get sig.args).or ((d.toCompileTable.setOutput output).load sig)

def Fits (own : TargetOptions) (d : DispatcherState) : Request → Prop
  | .launch l =>
    own.device = false ∧ NoValue returnsVoid own d.options.output ⟨normalize l.argtypes, none⟩ ∧ (l.config = none → NoneAdded d l)
  | .compile sig abiInfo output =>
    NoValue returnsVoid own (output.or d.options.output) sig ∧
      match found d sig output with
      | some cres => cres.abiInfo = abiInfo.or own.abiInfo ∧ cres.output = output.or own.output
      | none => (abiInfo = none → d.options.abiInfo = own.abiInfo) ∧ (output = none → d.options.output = own.output)
  | _ => True

end

/-! ## Tables -/

/-- A result in the overloads: of the dispatcher's role, or added to those of a
kernel by a device request. -/
def MayHold (device : Bool) (cres : CompileResult) : Prop := device = false ∧ cres.device = true ∨ HasRole device cres

theorem MayHold.isDeviceFunction {cres : CompileResult} (h : MayHold true cres) : IsDeviceFunction cres := by
  obtain ⟨hd, -⟩ | h := h
  · cases hd
  · exact h

theorem MayHold.isKernel {cres : CompileResult} (h : MayHold false cres) (hc : cres.device = false) : IsKernel cres := by
  obtain ⟨-, hd⟩ | h := h
  · rw [hc] at hd
    cases hd
  · exact h

structure TableOk (device : Bool) (t : CompileTable) : Prop where
  options : t.options.device = device
  overloads : ∀ {k cres}, t.overloads.get k = some cres → MayHold device cres
  cache : ∀ {c k cres}, t.cache = some c → c.get k = some cres → HasRole device cres

theorem TableOk.init (o : TargetOptions) (cached : Bool) : TableOk o.device (.init o cached) where
  options := rfl
  overloads h := by cases h
  cache hc h := by
    cases cached <;> cases hc
    cases h

section
variable {device : Bool} {t : CompileTable}

theorem TableOk.withOptions (h : TableOk device t) {o : TargetOptions} (ho : o.device = device) : TableOk device { t with options := o } :=
  ⟨ho, h.overloads, h.cache⟩

theorem TableOk.setOutput (h : TableOk device t) (output : Option OutputKind) : TableOk device (t.setOutput output) := by
  cases output with
  | none => exact h
  | some k => exact h.withOptions h.options

theorem TableOk.setAbiInfo (h : TableOk device t) (abiInfo : Option AbiInfo) : TableOk device (t.setAbiInfo abiInfo) := by
  cases abiInfo with
  | none => exact h
  | some a => exact h.withOptions h.options

theorem TableOk.resolveTargetOptions (h : TableOk device t) (resolveChip : Option String → String) :
    TableOk device (t.resolveTargetOptions resolveChip) :=
  h.withOptions h.options

theorem TableOk.store (h : TableOk device t) {argtypes : List NumbaType} {cres : CompileResult} (hc : MayHold device cres) :
    TableOk device (t.store argtypes cres) where
  options := h.options
  overloads hk := by
    obtain ⟨-, rfl⟩ | hk := Dict.get_of_set hk
    · exact hc
    · exact h.overloads hk
  cache := h.cache

theorem TableOk.load (h : TableOk device t) {sig : Signature} {cres : CompileResult} (hl : t.load sig = some cres) : HasRole device cres := by
  obtain ⟨c, hc, hk⟩ := Option.bind_eq_some_iff.mp hl
  exact h.cache hc hk

theorem HasRole.saved {cres : CompileResult} (h : HasRole device cres) : HasRole device { cres with deviceCalleeAbiName := none } := by
  cases device with
  | false => exact h
  | true => exact ⟨h.1, fun name hn => by cases hn⟩

theorem TableOk.save (h : TableOk device t) {sig : Signature} {cres : CompileResult} (hc : HasRole device cres) :
    TableOk device (t.save sig cres) where
  options := h.options
  overloads := h.overloads
  cache hs hk := by
    obtain ⟨c, hc', rfl⟩ := Option.map_eq_some_iff.mp hs
    obtain ⟨-, rfl⟩ | hk := Dict.get_of_set hk
    · exact hc.saved
    · exact h.cache hc' hk

end

section
variable {returnsVoid : Signature → Bool} {fails : TargetOptions → Signature → Bool} {resolveChip : Option String → String}
  {normalize : List NumbaType → List NumbaType} {device : Bool} {t : CompileTable} {sig : Signature} {cres : CompileResult}

theorem compileMlir_eq {o : TargetOptions} (h : compileMlir returnsVoid fails o sig = some cres) :
    cres = ⟨sig.args, o.device, !o.device && returnsVoid sig, o.abiInfo, o.output, none, false⟩ ∧
      (o.device = false → o.output = none → returnsVoid sig = true) := by
  unfold compileMlir at h
  by_cases hf : fails o sig = true
  · rw [if_pos hf] at h
    cases h
  · rw [if_neg hf] at h
    by_cases hv : (!o.device && !returnsVoid sig && o.output.isNone) = true
    · rw [if_pos hv] at h
      cases h
    · rw [if_neg hv] at h
      refine ⟨(Option.some.inj h).symm, fun hd ho => ?_⟩
      simpa [hd, ho] using hv

theorem compileMlir_role {o : TargetOptions} (h : compileMlir returnsVoid fails o sig = some cres)
    (hvalue : o.device = false → o.output ≠ none → returnsVoid sig = true) : HasRole o.device (optimize cres) := by
  obtain ⟨rfl, hnone⟩ := compileMlir_eq h
  cases hd : o.device with
  | true => exact ⟨rfl, fun name hn => by cases hn⟩
  | false =>
    have hvoid : returnsVoid sig = true := by
      by_cases ho : o.output = none
      · exact hnone hd ho
      · exact hvalue hd ho
    exact ⟨by simp [optimize, hvoid], rfl⟩

theorem compilePublic_role (ht : TableOk device t) {abiInfo : Option AbiInfo} {output : Option OutputKind}
    (hvalue : device = false → output.or t.options.output ≠ none → returnsVoid sig = true) :
    TableOk device (compilePublic returnsVoid fails resolveChip t sig abiInfo output).1 ∧
      ∀ cres, (compilePublic returnsVoid fails resolveChip t sig abiInfo output).2 = some cres → MayHold device cres := by
  have hout : (t.setOutput output).options.output = output.or t.options.output := by cases output <;> rfl
  have ht₁ := ht.setOutput output
  have ht₂ := ht₁.resolveTargetOptions resolveChip
  have ht₃ := ht₂.setAbiInfo abiInfo
  have houtput : (((t.setOutput output).resolveTargetOptions resolveChip).setAbiInfo abiInfo).options.output =
      output.or t.options.output := by rw [← hout]; cases abiInfo <;> rfl
  simp only [compilePublic]
  split
  · next cres hget => exact ⟨ht₁, fun r hr => Option.some.inj hr ▸ ht₁.overloads hget⟩
  · split
    · next cres hload =>
      have hrole := ht₂.load hload
      exact ⟨ht₂.store (.inr hrole), fun r hr => Option.some.inj hr ▸ .inr hrole⟩
    · split
      · exact ⟨ht₃, fun r hr => by cases hr⟩
      · next cres hc =>
        have hrole := compileMlir_role hc (by rw [ht₃.options, houtput]; exact hvalue)
        rw [ht₃.options] at hrole
        exact ⟨(ht₃.save hrole).store (.inr hrole), fun r hr => Option.some.inj hr ▸ .inr hrole⟩

theorem compileDeviceCallee_role (ht : TableOk true t) (abiName : Option String) :
    TableOk true (compileDeviceCallee returnsVoid fails resolveChip t sig abiName).1 ∧
      ∀ cres, (compileDeviceCallee returnsVoid fails resolveChip t sig abiName).2 = some cres →
        IsDeviceFunction cres ∧ ∀ name, abiName = some name → cres.abiInfo = some (some name) := by
  have ht₁ := ht.resolveTargetOptions resolveChip
  simp only [compileDeviceCallee]
  split
  · next cres hcached =>
    obtain ⟨hget, hname⟩ := Option.filter_eq_some_iff.mp hcached
    have hrole := (ht.overloads hget).isDeviceFunction
    refine ⟨ht, fun r hr => ?_⟩
    obtain rfl := Option.some.inj hr
    refine ⟨hrole, ?_⟩
    rintro name rfl
    exact hrole.2 name (by simpa using hname)
  · split
    · exact ⟨ht₁, fun r hr => by cases hr⟩
    · next cres hc =>
      obtain ⟨rfl, -⟩ := compileMlir_eq hc
      refine ⟨ht₁.store (.inr ⟨?_, ?_⟩), fun r hr => ?_⟩
      · cases abiName <;> exact ht.options
      · rintro name rfl
        rfl
      · obtain rfl := Option.some.inj hr
        refine ⟨⟨?_, ?_⟩, ?_⟩
        · cases abiName <;> exact ht.options
        · rintro name rfl
          rfl
        · rintro name rfl
          rfl

theorem compilePublic_device (abiInfo : Option AbiInfo) (output : Option OutputKind) :
    (compilePublic returnsVoid fails resolveChip t sig abiInfo output).1.options.device = t.options.device := by
  have hout : (t.setOutput output).options.device = t.options.device := by cases output <;> rfl
  simp only [compilePublic]
  split
  · exact hout
  · split
    · exact hout
    · split <;> cases abiInfo <;> exact hout

theorem compilePublic_options {abiInfo : Option AbiInfo} {output : Option OutputKind}
    (hget : t.overloads.get sig.args = none) (hload : (t.setOutput output).load sig = none)
    (h : (compilePublic returnsVoid fails resolveChip t sig abiInfo output).2 = some cres) :
    cres.abiInfo = abiInfo.or t.options.abiInfo ∧ cres.output = output.or t.options.output := by
  have hget' : (t.setOutput output).overloads.get sig.args = none := by cases output <;> exact hget
  have hload' : ((t.setOutput output).resolveTargetOptions resolveChip).load sig = none := hload
  simp only [compilePublic, hget', hload'] at h
  split at h
  · cases h
  · next r hc =>
    obtain ⟨rfl, -⟩ := compileMlir_eq hc
    obtain rfl := Option.some.inj h
    cases abiInfo <;> cases output <;> exact ⟨rfl, rfl⟩

theorem compilePublic_found {abiInfo : Option AbiInfo} {output : Option OutputKind} {r : CompileResult}
    (hfound : (t.overloads.get sig.args).or ((t.setOutput output).load sig) = some r)
    (h : (compilePublic returnsVoid fails resolveChip t sig abiInfo output).2 = some cres) : cres = r := by
  have hset : (t.setOutput output).overloads.get sig.args = t.overloads.get sig.args := by cases output <;> rfl
  cases hget : t.overloads.get sig.args with
  | some r' =>
    rw [hget] at hfound
    simp only [compilePublic, hset, hget] at h
    exact Option.some.inj (h.symm.trans hfound)
  | none =>
    rw [hget] at hfound
    have hload' : ((t.setOutput output).resolveTargetOptions resolveChip).load sig = some r := hfound
    simp only [compilePublic, hset, hget, hload'] at h
    exact (Option.some.inj h).symm

end

/-! ## States -/

structure StateOk (own : TargetOptions) (d : DispatcherState) : Prop where
  table : TableOk own.device d.toCompileTable
  deviceDispatcher : ∀ {t}, d.deviceDispatcher = some t → TableOk true t
  launchConfig : ∀ {k cres}, d.launchConfigOverloads.get k = some cres → IsKernel cres
  bound : ∀ {cres}, cres ∈ d.bound → IsKernel cres

theorem StateOk.init (own : TargetOptions) (cached : Bool) : StateOk own (.init own cached) where
  table := TableOk.init own cached
  deviceDispatcher h := by cases h
  launchConfig h := by cases h
  bound h := by cases h

section
variable {own : TargetOptions} {d : DispatcherState}

theorem StateOk.withTable (h : StateOk own d) {t : CompileTable} (ht : TableOk own.device t) : StateOk own { d with toCompileTable := t } :=
  ⟨ht, h.deviceDispatcher, h.launchConfig, h.bound⟩

theorem StateOk.deviceTable (h : StateOk own d) : TableOk true d.deviceTable := by
  unfold DispatcherState.deviceTable
  split
  · next t ht =>
    split
    · exact h.deviceDispatcher ht
    · exact TableOk.init (asDevice d.options) false
  · exact TableOk.init (asDevice d.options) false

theorem StateOk.compileAsDevice (h : StateOk own d) {argtypes : List NumbaType}
    {compile : CompileTable → CompileTable × Option CompileResult} {P : CompileResult → Prop}
    (hP : ∀ cres, P cres → cres.device = true)
    (hcompile : ∀ t, TableOk true t → TableOk true (compile t).1 ∧ ∀ cres, (compile t).2 = some cres → P cres) :
    StateOk own (d.compileAsDevice argtypes compile).1 ∧ ∀ cres, (d.compileAsDevice argtypes compile).2 = some cres → P cres := by
  unfold DispatcherState.compileAsDevice
  by_cases hd : d.options.device = true
  · rw [if_pos hd]
    have hown : own.device = true := h.table.options.symm.trans hd
    have htable : TableOk true { d.toCompileTable with options := asDevice d.options } := (hown ▸ h.table).withOptions rfl
    obtain ⟨ht, hres⟩ := hcompile _ htable
    exact ⟨h.withTable (hown ▸ ht), hres⟩
  · rw [if_neg hd]
    obtain ⟨ht, hres⟩ := hcompile _ h.deviceTable
    have hown : own.device = false := by
      rw [← h.table.options]
      exact Bool.not_eq_true _ ▸ hd
    have h' : StateOk own { d with deviceDispatcher := some (compile d.deviceTable).1 } :=
      ⟨h.table, fun hs => Option.some.inj hs ▸ ht, h.launchConfig, h.bound⟩
    simp only
    split
    · next cres hc =>
      refine ⟨⟨⟨h.table.options, fun hk => ?_, h.table.cache⟩, h'.deviceDispatcher, h.launchConfig, h.bound⟩, fun r hr => hres r (hc.trans hr)⟩
      obtain ⟨-, rfl⟩ | hk := Dict.get_of_setDefault hk
      · exact .inl ⟨hown, hP _ (hres _ hc)⟩
      · exact h.table.overloads hk
    · exact ⟨h', fun r hr => by cases hr⟩

end

/-! ## Launches -/

section
variable {returnsVoid : Signature → Bool} {fails : TargetOptions → Signature → Bool} {resolveChip : Option String → String}
  {normalize : List NumbaType → List NumbaType} {own : TargetOptions} {d : DispatcherState} {l : Launch}

theorem StateOk.compileLaunch (h : StateOk own d) (hown : own.device = false)
    (hvalue : NoValue returnsVoid own d.options.output ⟨normalize l.argtypes, none⟩) :
    StateOk own (d.compileLaunch returnsVoid fails resolveChip normalize l).1 ∧
      ∀ cres, (d.compileLaunch returnsVoid fails resolveChip normalize l).2 = some cres → IsKernel cres := by
  have ht := h.table.resolveTargetOptions resolveChip
  have h₁ := h.withTable ht
  simp only [DispatcherState.compileLaunch]
  split
  · next cres hload =>
    have hrole : HasRole own.device cres := by
      split at hload
      · exact ht.load hload
      · cases hload
    have hkernel : IsKernel cres := by rwa [hown] at hrole
    exact ⟨h.withTable (ht.store (.inr hrole)), fun r hr => Option.some.inj hr ▸ hkernel⟩
  · split
    · exact ⟨h₁, fun r hr => by cases hr⟩
    · next cres hc =>
      obtain ⟨r, hr, rfl⟩ := Option.map_eq_some_iff.mp hc
      have hrole := compileMlir_role hr fun hd => hvalue (h.table.options ▸ hd)
      have hkernel : IsKernel (optimize r) := by
        have hd : d.options.device = false := h.table.options.trans hown
        have := hrole
        rwa [show ((d.toCompileTable.resolveTargetOptions resolveChip).options).device = false from hd] at this
      split
      · next key _ =>
        split
        · next existing hexisting =>
          refine ⟨h₁, fun r hr => ?_⟩
          obtain rfl := Option.some.inj hr
          obtain hf | ⟨-, hf⟩ := Option.or_eq_some_iff.mp hexisting
          · obtain ⟨k, hk⟩ := mem_of_findLaunchConfigOverload hf
            exact h.launchConfig hk
          · obtain ⟨k, hk⟩ := mem_of_findLaunchConfigOverload hf
            exact h.launchConfig hk
        · refine ⟨⟨ht, h.deviceDispatcher, fun hk => ?_, h.bound⟩, fun r hr => Option.some.inj hr ▸ hkernel⟩
          obtain ⟨-, rfl⟩ | hk := Dict.get_of_setDefault hk
          · exact hkernel
          · obtain ⟨-, rfl⟩ | hk := Dict.get_of_setDefault hk
            · exact hkernel
            · exact h.launchConfig hk
      · have hrole' : HasRole own.device (optimize r) := by rwa [hown]
        exact ⟨h.withTable ((ht.store (.inr hrole')).save hrole'), fun r hr => Option.some.inj hr ▸ hkernel⟩

theorem StateOk.compileImpl (h : StateOk own d) (hown : own.device = false)
    (hvalue : NoValue returnsVoid own d.options.output ⟨normalize l.argtypes, none⟩) (hadded : l.config = none → NoneAdded d l) :
    StateOk own (d.compileImpl returnsVoid fails resolveChip normalize l).1 ∧
      ∀ cres, (d.compileImpl returnsVoid fails resolveChip normalize l).2 = some cres → IsKernel cres := by
  have hkernel : ∀ {k cres}, l.config = none → d.overloads.get k = some cres → Reaches d l k → IsKernel cres := by
    intro k cres hc hk hr
    have hhold := h.table.overloads hk
    rw [hown] at hhold
    exact hhold.isKernel (hadded hc k cres hk hr)
  simp only [DispatcherState.compileImpl]
  split
  · next cres hreusable =>
    refine ⟨h, fun r hr => ?_⟩
    obtain rfl := Option.some.inj hr
    split at hreusable
    · obtain ⟨k, hk⟩ := mem_of_findLaunchConfigOverload hreusable
      exact h.launchConfig hk
    · next hc =>
      obtain ⟨k, hk, hreuse⟩ := reusable_of_firstReusable hreusable
      exact hkernel hc hk (.inl hreuse)
  · by_cases hcan : d.canCompile = true
    · rw [if_pos hcan]
      exact h.compileLaunch hown hvalue
    · rw [if_neg hcan]
      refine ⟨h, fun r hr => ?_⟩
      simp only at hr
      split at hr
      · obtain ⟨k, hk⟩ := mem_of_resolveLaunchConfigResult hr
        exact h.launchConfig hk
      · next hc =>
        obtain ⟨k, hk, hrate⟩ := rated_of_resolveResult hr
        exact hkernel hc hk (.inr ⟨by simpa using hcan, hrate⟩)

theorem StateOk.launch (h : StateOk own d) (hown : own.device = false)
    (hvalue : NoValue returnsVoid own d.options.output ⟨normalize l.argtypes, none⟩) (hadded : l.config = none → NoneAdded d l) :
    StateOk own (d.launch returnsVoid fails resolveChip normalize l).1 ∧
      ∀ cres, (d.launch returnsVoid fails resolveChip normalize l).2 = some cres → IsKernel cres := by
  obtain ⟨h₁, hres⟩ : StateOk own (d.compileImpl returnsVoid fails resolveChip normalize l).1 ∧ _ := h.compileImpl hown hvalue hadded
  simp only [DispatcherState.launch]
  split
  · next d' cres heq =>
    rw [heq] at h₁ hres
    have hkernel := hres cres rfl
    refine ⟨⟨h₁.table, h₁.deviceDispatcher, h₁.launchConfig, fun hb => ?_⟩, fun r hr => Option.some.inj hr ▸ hkernel⟩
    split at hb
    · obtain hb | hb := List.mem_append.mp hb
      · exact h₁.bound hb
      · exact List.mem_singleton.mp hb ▸ hkernel
    · exact h₁.bound hb
  · next d' heq =>
    rw [heq] at h₁
    exact ⟨h₁, fun r hr => by cases hr⟩

/-! ## Runs -/

theorem StateOk.call (h : StateOk own d) (sig : Signature) (funcName : String) :
    StateOk own (d.call returnsVoid fails resolveChip sig funcName).1 ∧
      ∀ cres, (d.call returnsVoid fails resolveChip sig funcName).2 = some cres →
        cres.device = true ∧ cres.abiInfo = some (some funcName) := by
  have hcallee : ∀ t, TableOk true t →
      TableOk true (compileDeviceCallee returnsVoid fails resolveChip t sig (some funcName)).1 ∧
        ∀ cres, (compileDeviceCallee returnsVoid fails resolveChip t sig (some funcName)).2 = some cres →
          cres.device = true ∧ cres.abiInfo = some (some funcName) := by
    intro t ht
    obtain ⟨ht', hres⟩ := compileDeviceCallee_role ht (some funcName)
    exact ⟨ht', fun cres hc => ⟨(hres cres hc).1.1, (hres cres hc).2 funcName rfl⟩⟩
  unfold DispatcherState.call
  by_cases hd : d.options.device = true
  · rw [if_pos hd]
    exact h.compileAsDevice (fun cres hc => hc.1) hcallee
  · rw [if_neg hd]
    have htable : TableOk true (d.deviceDispatcher.getD (.init { d.options with device := true } false)) := by
      cases ht : d.deviceDispatcher with
      | none => exact TableOk.init { d.options with device := true } false
      | some t => exact h.deviceDispatcher ht
    obtain ⟨ht, hres⟩ := hcallee _ (htable.withOptions (show (asDevice _).device = true from rfl))
    exact ⟨⟨h.table, fun hs => Option.some.inj hs ▸ ht, h.launchConfig, h.bound⟩, hres⟩

theorem StateOk.specialize (h : StateOk own d) (args : List NumbaType) :
    StateOk own (d.specialize returnsVoid fails resolveChip args).1 := by
  unfold DispatcherState.specialize
  by_cases hs : d.specialized = true
  · rw [if_pos hs]
    exact h
  · rw [if_neg hs]
    split
    · exact h
    · have hdevice : (compilePublic returnsVoid fails resolveChip (.init d.options false) ⟨args, some .none⟩ none none).1.options.device =
          d.options.device := compilePublic_device none none
      have ht := h.table.withOptions (hdevice.trans h.table.options)
      simp only
      split
      · exact ⟨ht, h.deviceDispatcher, h.launchConfig, h.bound⟩
      · exact h.withTable ht

theorem StateOk.compile (h : StateOk own d) {sig : Signature} {abiInfo : Option AbiInfo} {output : Option OutputKind}
    (hfits : Fits returnsVoid normalize own d (.compile sig abiInfo output)) :
    StateOk own { d with toCompileTable := (compilePublic returnsVoid fails resolveChip d.toCompileTable sig abiInfo output).1 } ∧
      ∀ cres, (compilePublic returnsVoid fails resolveChip d.toCompileTable sig abiInfo output).2 = some cres →
        cres.abiInfo = abiInfo.or own.abiInfo ∧ cres.output = output.or own.output := by
  obtain ⟨hvalue, hopts⟩ := hfits
  refine ⟨h.withTable (compilePublic_role h.table hvalue).1, fun cres hc => ?_⟩
  cases hf : found d sig output with
  | some r =>
    rw [hf] at hopts
    exact compilePublic_found hf hc ▸ hopts
  | none =>
    rw [hf] at hopts
    obtain ⟨hget, hload⟩ := Option.or_eq_none_iff.mp hf
    obtain ⟨habi, hout⟩ := compilePublic_options hget hload hc
    rw [habi, hout]
    cases abiInfo <;> cases output <;> simp_all

theorem StateOk.perform (h : StateOk own d) {r : Request} (hfits : Fits returnsVoid normalize own d r) :
    StateOk own (d.perform returnsVoid fails resolveChip normalize r).1 ∧
      Answered returnsVoid fails resolveChip normalize own d r := by
  cases r with
  | launch l => exact h.launch hfits.1 hfits.2.1 hfits.2.2
  | launchBound kernel => exact ⟨h, fun cres hc => h.bound (List.mem_of_getElem? hc)⟩
  | compile sig abiInfo output => exact h.compile hfits
  | compileDevice sig =>
    refine h.compileAsDevice (fun cres hc => hc) fun t ht => ?_
    obtain ⟨ht', hres⟩ := compilePublic_role ht fun hd => by cases hd
    exact ⟨ht', fun cres hc => (hres cres hc).isDeviceFunction.1⟩
  | compileAsDeviceCallee sig abiName =>
    refine h.compileAsDevice (fun cres hc => hc.1) fun t ht => ?_
    obtain ⟨ht', hres⟩ := compileDeviceCallee_role ht abiName
    exact ⟨ht', fun cres hc => ⟨(hres cres hc).1.1, (hres cres hc).2⟩⟩
  | getCallTemplate args =>
    simp only [Answered, DispatcherState.perform]
    by_cases hcan : d.canCompile = true
    · rw [if_pos hcan]
      refine h.compileAsDevice (fun cres hc => hc) fun t ht => ?_
      obtain ⟨ht', hres⟩ := compileDeviceCallee_role ht none
      exact ⟨ht', fun cres hc => (hres cres hc).1.1⟩
    · rw [if_neg hcan]
      exact ⟨h, fun cres hc => by cases hc⟩
  | call args funcName => exact h.call ⟨args, none⟩ funcName
  | specialize args => exact ⟨h.specialize args, fun _ _ => trivial⟩
  | disableCompile =>
    refine ⟨?_, fun _ _ => trivial⟩
    simp only [DispatcherState.perform]
    split
    · exact h
    · exact ⟨h.table, h.deviceDispatcher, h.launchConfig, h.bound⟩
  | recordLiteralArgPositions =>
    refine ⟨⟨⟨h.table.options, fun hk => ?_, h.table.cache⟩, h.deviceDispatcher, fun hk => ?_, h.bound⟩, fun _ _ => trivial⟩
    · cases hk
    · cases hk
  | evictLaunchConfig key =>
    exact ⟨⟨h.table, h.deviceDispatcher, fun hk => h.launchConfig (Dict.get_of_filter hk), h.bound⟩, fun _ _ => trivial⟩
  | recompile =>
    refine ⟨⟨⟨h.table.options, fun hk => ?_, fun hc hk => ?_⟩, h.deviceDispatcher, fun hk => ?_, h.bound⟩, fun _ _ => trivial⟩
    · cases hk
    · obtain ⟨c, -, rfl⟩ := Option.map_eq_some_iff.mp hc
      cases hk
    · cases hk

end

/-- In a run whose requests all fit the table, each is answered by a result of
its role and options. -/
theorem requests_answered (returnsVoid : Signature → Bool) (fails : TargetOptions → Signature → Bool)
    (resolveChip : Option String → String) (normalize : List NumbaType → List NumbaType) (own : TargetOptions) (cached : Bool)
    {requests : List Request}
    (h : Runs.StepsOk (step returnsVoid fails resolveChip normalize) (Fits returnsVoid normalize own) (.init own cached) requests) :
    Runs.StepsOk (step returnsVoid fails resolveChip normalize) (Answered returnsVoid fails resolveChip normalize own)
      (.init own cached) requests := by
  refine Runs.stepsOk_of_inv _ (fun d r d' hi hfits hstep => ?_) (fun d r hi hfits => (hi.perform hfits).2) (StateOk.init own cached) h
  obtain rfl := Option.some.inj hstep
  exact (hi.perform hfits).1

def kernelOptions : TargetOptions := ⟨false, false, none, none, none⟩

def int32 : List NumbaType := [.scalar (.integer true .s4)]

section
variable (requests : List Request)

/-- Runs of a kernel that returns nothing and always compiles. -/
def fitting : Prop :=
  Runs.StepsOk (step (fun _ => true) (fun _ _ => false) (·.getD "sm_90") id) (Fits (fun _ => true) id kernelOptions)
    (.init kernelOptions false) requests

def answered : Prop :=
  Runs.StepsOk (step (fun _ => true) (fun _ _ => false) (·.getD "sm_90") id)
    (Answered (fun _ => true) (fun _ _ => false) (·.getD "sm_90") id kernelOptions) (.init kernelOptions false) requests

end

theorem launch_before_call : answered [.launch ⟨int32, none, none, false⟩, .getCallTemplate int32, .compile ⟨int32, none⟩ none none] := by
  have h : fitting [.launch ⟨int32, none, none, false⟩, .getCallTemplate int32, .compile ⟨int32, none⟩ none none] := by
    refine Runs.stepsOk_cons _ rfl ⟨rfl, fun _ _ => rfl, fun _ _ _ hk => by cases hk⟩ (Runs.stepsOk_cons _ rfl trivial ?_)
    exact Runs.stepsOk_cons _ rfl ⟨fun _ _ => rfl, rfl, rfl⟩ trivial
  exact requests_answered (fun _ => true) (fun _ _ => false) (·.getD "sm_90") id kernelOptions false h

/-- The callee is left in the overloads, and the launch takes it. -/
theorem call_before_launch : ¬ answered [.getCallTemplate int32, .launch ⟨int32, none, none, false⟩] := by
  intro h
  have hlaunch := (h.2 _ rfl).1 _ rfl
  exact absurd hlaunch.1 (by decide)

end CompileRoles

end NumbaCudaMlir

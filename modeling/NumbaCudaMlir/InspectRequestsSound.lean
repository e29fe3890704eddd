import NumbaCudaMlir.InspectRequests
import NumbaCudaMlir.OverloadSound

/-!
# Inspection leaves no trace

A request whose options are those of the dispatcher, and that adds no device
function to the overloads of a kernel, leaves every later request the result that
a dispatcher without a history gives it.
-/

namespace NumbaCudaMlir.InspectRequests

open CompileRoles (OutputKind AbiInfo Signature)

section
variable {υ : Type} {fails : Options υ → Signature → Bool} {host : Option String} {parses : String → Bool}
  {normalize : List NumbaType → List NumbaType} {own : Options υ}

/-! ## Options -/

def Resolved (host : Option String) (parses : String → Bool) (o o' : Options υ) : Prop :=
  ∃ chip, resolveChip host parses o.chip = some chip ∧ o' = { o with chip := some chip }

/-- The options of a dispatcher: its own, with their chip once there was a compilation. -/
def Settled (host : Option String) (parses : String → Bool) (o o' : Options υ) : Prop := o' = o ∨ Resolved host parses o o'

theorem resolveChip_again {a : Option String} {chip chip' : String} (h : resolveChip host parses a = some chip)
    (h' : resolveChip host parses (some chip) = some chip') : chip' = chip := by
  by_cases hc : chip = ""
  · subst hc
    have hhost : host = some "" := by
      cases a with
      | none => exact h
      | some c =>
        unfold resolveChip at h
        simp only at h
        split at h
        · exact h
        · next hne =>
          split at h
          · exact absurd (Option.some.inj h) hne
          · cases h
    rw [resolveChip, if_pos rfl, hhost] at h'
    exact (Option.some.inj h').symm
  · rw [resolveChip, if_neg hc] at h'
    split at h'
    · exact (Option.some.inj h').symm
    · cases h'

theorem Resolved.unique {o a b : Options υ} (ha : Resolved host parses o a) (hb : Resolved host parses o b) : a = b := by
  obtain ⟨chip, h, rfl⟩ := ha
  obtain ⟨chip', h', rfl⟩ := hb
  rw [Option.some.inj (h.symm.trans h')]

theorem Settled.asDevice {o o' : Options υ} (h : Settled host parses o o') : Settled host parses o.asDevice o'.asDevice := by
  obtain rfl | ⟨chip, hchip, rfl⟩ := h
  · exact .inl rfl
  · exact .inr ⟨chip, hchip, rfl⟩

theorem Settled.device {o o' : Options υ} (h : Settled host parses o o') : o'.device = o.device := by
  obtain rfl | ⟨chip, -, rfl⟩ := h <;> rfl

theorem resolveTargetOptions_settled {o : Options υ} {t t' : Table υ} (h : Settled host parses o t.options)
    (ht : resolveTargetOptions host parses t = some t') : ∃ o', Resolved host parses o o' ∧ t' = t.withOptions o' := by
  obtain ⟨chip, hchip, rfl⟩ := Option.map_eq_some_iff.mp ht
  obtain h | ⟨chip', hchip', h⟩ := h
  · rw [h] at hchip ⊢
    exact ⟨_, ⟨chip, hchip, rfl⟩, rfl⟩
  · rw [h] at hchip ⊢
    obtain rfl := resolveChip_again hchip' hchip
    exact ⟨_, ⟨chip, hchip', rfl⟩, rfl⟩

/-! ## Requests that keep the options -/

def AbiKept (o : Options υ) (abiInfo : Option AbiInfo) : Prop := ∀ a, abiInfo = some a → o.abiInfo = some a

def OutputKept (o : Options υ) (output : Option OutputKind) : Prop := ∀ k, output = some k → o.output = some k ∧ o.lto = decide (k = .ltoir)

structure GivenKept (o : Options υ) (g : Given υ) : Prop where
  device : ∀ b, g.device = some b → o.device = b
  lto : ∀ b, g.lto = some b → o.lto = b
  abiInfo : ∀ a, g.abiInfo = some a → o.abiInfo = a
  chip : ∀ c, g.chip = some c → o.chip = c
  other : ∀ e ∈ g.other.entries, o.other.get e.1 = some e.2

theorem set_eq_self {κ α : Type} [DecidableEq κ] {d : Dict κ α} {k : κ} {v : α} (h : d.get k = some v) : d.set k v = d := by
  have hk : k ∈ d.keys := Dict.mem_keys_iff.mpr ⟨v, h⟩
  have hmap : (d.entries.map fun e => if e.1 = k then (k, v) else e) = d.entries := by
    refine List.map_congr_left (fun e he => ?_) |>.trans d.entries.map_id
    split
    · next heq =>
      have hget : d.get k = some e.2 := Dict.get_eq_some_iff.mpr (heq ▸ he)
      rw [Option.some.inj (h.symm.trans hget), ← heq]
      rfl
    · rfl
  unfold Dict.set
  rw [dif_pos hk]
  cases d
  congr

theorem update_eq_self {κ α : Type} [DecidableEq κ] {d : Dict κ α} : ∀ {es : List (κ × α)}, (∀ e ∈ es, d.get e.1 = some e.2) →
    es.foldl (fun d e => d.set e.1 e.2) d = d
  | [], _ => rfl
  | e :: es, h => by
    rw [List.foldl_cons, set_eq_self (h e (List.mem_cons_self ..))]
    exact update_eq_self fun e' he => h e' (List.mem_cons_of_mem _ he)

theorem getD_eq_of_forall {α : Type} {x : Option α} {a : α} (h : ∀ b, x = some b → a = b) : x.getD a = a := by
  cases x with
  | none => rfl
  | some b => exact (h b rfl).symm

theorem GivenKept.update_eq {o : Options υ} {g : Given υ} (h : GivenKept o g) (chip : Option String) :
    ({ o with chip := chip } : Options υ).update g = { o with chip := g.chip.getD chip } := by
  have hother : o.other.update g.other = o.other := update_eq_self h.other
  unfold Options.update
  rw [getD_eq_of_forall h.device, getD_eq_of_forall h.lto, getD_eq_of_forall h.abiInfo, hother]

theorem GivenKept.settled {o o' : Options υ} {g : Given υ} (h : GivenKept o g) (ho : Settled host parses o o') :
    Settled host parses o (o'.update g) := by
  obtain rfl | ⟨chip, hchip, rfl⟩ := ho
  · have hkept : o'.update g = o' := (h.update_eq o'.chip).trans (by rw [getD_eq_of_forall h.chip])
    exact .inl hkept
  · rw [h.update_eq]
    cases hg : g.chip with
    | none => exact .inr ⟨chip, hchip, rfl⟩
    | some c =>
      left
      rw [Option.getD_some, ← h.chip c hg]

theorem Settled.outputKept {o o' : Options υ} (h : Settled host parses o o') {output : Option OutputKind} (hk : OutputKept o output) :
    OutputKept o' output := by
  obtain rfl | ⟨chip, -, rfl⟩ := h <;> exact hk

theorem Settled.abiKept {o o' : Options υ} (h : Settled host parses o o') {abiInfo : Option AbiInfo} (hk : AbiKept o abiInfo) :
    AbiKept o' abiInfo := by
  obtain rfl | ⟨chip, -, rfl⟩ := h <;> exact hk

theorem setOutput_kept {t : Table υ} {output : Option OutputKind} (h : OutputKept t.options output) : t.setOutput output = t := by
  cases output with
  | none => rfl
  | some k =>
    obtain ⟨hout, hlto⟩ := h k rfl
    have hsame : { t.options with output := some k, lto := decide (k = .ltoir) } = t.options := by rw [← hout, ← hlto]
    exact congrArg t.withOptions hsame

theorem setAbiInfo_kept {t : Table υ} {abiInfo : Option AbiInfo} (h : AbiKept t.options abiInfo) : t.setAbiInfo abiInfo = t := by
  cases abiInfo with
  | none => rfl
  | some a =>
    have hsame : { t.options with abiInfo := some a } = t.options := by rw [← h a rfl]
    exact congrArg t.withOptions hsame

/-! ## Results -/

/-- The options of a device callee that is compiled under a name. -/
def Options.named (o : Options υ) : Option String → Options υ
  | some name => { o with abiInfo := some (some name) }
  | none => o

/-- The result was compiled with these options, but for the name of a callee, which a kernel is not. -/
structure CompiledAs (host : Option String) (parses : String → Bool) (o : Options υ) (cres : Compiled υ) : Prop where
  options : Resolved host parses (o.named cres.deviceCalleeAbiName) cres.options
  kernel : o.device = false → cres.deviceCalleeAbiName = none

theorem Resolved.named {o o' : Options υ} (h : Resolved host parses o o') (name : Option String) :
    Resolved host parses (o.named name) (o'.named name) := by
  obtain ⟨chip, hchip, rfl⟩ := h
  cases name with
  | none => exact ⟨chip, hchip, rfl⟩
  | some name => exact ⟨chip, hchip, rfl⟩

theorem CompiledAs.unnamed {o : Options υ} {cres : Compiled υ} (h : CompiledAs host parses o cres)
    (hname : cres.deviceCalleeAbiName = none) : Resolved host parses o cres.options := by
  have hopts := h.options
  rwa [hname] at hopts

theorem compileMlir_eq {o : Options υ} {sig : Signature} {cres : Compiled υ} (h : compileMlir fails o sig = some cres) :
    cres = ⟨sig.args, o, none, false⟩ := by
  unfold compileMlir at h
  split at h
  · cases h
  · exact (Option.some.inj h).symm

/-! ## Tables -/

structure TableOk (host : Option String) (parses : String → Bool) (o : Options υ) (t : Table υ) : Prop where
  options : Settled host parses o t.options
  overloads : ∀ {args cres}, t.overloads.get args = some cres → CompiledAs host parses o cres
  cache : ∀ {c k cres}, t.cache = some c → c.get k = some cres → cres.deviceCalleeAbiName = none ∧ Resolved host parses o cres.options

/-- The overload of these types, if there is one, was not compiled under a callee's name. -/
def Unnamed (t : Table υ) (args : List NumbaType) : Prop := ∀ cres, t.overloads.get args = some cres → cres.deviceCalleeAbiName = none

theorem TableOk.init (o : Options υ) (cached : Bool) : TableOk host parses o (.init o cached) where
  options := .inl rfl
  overloads h := by cases h
  cache hc hk := by
    unfold Table.init at hc
    split at hc
    · obtain rfl := Option.some.inj hc
      cases hk
    · cases hc

section
variable {o : Options υ} {t : Table υ}

theorem TableOk.withOptions (h : TableOk host parses o t) {o' : Options υ} (ho : Settled host parses o o') :
    TableOk host parses o (t.withOptions o') := ⟨ho, h.overloads, h.cache⟩

theorem TableOk.store (h : TableOk host parses o t) {args : List NumbaType} {cres : Compiled υ} (hc : CompiledAs host parses o cres) :
    TableOk host parses o (t.store args cres) := by
  refine ⟨h.options, fun hget => ?_, h.cache⟩
  obtain ⟨-, rfl⟩ | hget := Dict.get_of_set hget
  · exact hc
  · exact h.overloads hget

theorem TableOk.load (h : TableOk host parses o t) {sig : Signature} {cres : Compiled υ} (hl : t.load sig = some cres) :
    cres.deviceCalleeAbiName = none ∧ Resolved host parses o cres.options := by
  obtain ⟨c, hc, hget⟩ := Option.bind_eq_some_iff.mp hl
  exact h.cache hc hget

theorem TableOk.save (h : TableOk host parses o t) {sig : Signature} {cres : Compiled υ} (hc : Resolved host parses o cres.options) :
    TableOk host parses o (t.save sig cres) := by
  refine ⟨h.options, h.overloads, fun hcache hget => ?_⟩
  obtain ⟨c, hc', rfl⟩ := Option.map_eq_some_iff.mp hcache
  obtain ⟨-, rfl⟩ | hget := Dict.get_of_set hget
  · exact ⟨rfl, hc⟩
  · exact h.cache hc' hget

theorem CompiledAs.ofUnnamed {cres : Compiled υ} (hname : cres.deviceCalleeAbiName = none) (h : Resolved host parses o cres.options) :
    CompiledAs host parses o cres := ⟨by rwa [hname], fun _ => hname⟩

theorem compilePublic_ok (ht : TableOk host parses o t) {sig : Signature} {abiInfo : Option AbiInfo} {output : Option OutputKind}
    (habi : AbiKept o abiInfo) (hout : OutputKept o output) (hname : Unnamed t sig.args) :
    TableOk host parses o (compilePublic fails host parses t sig abiInfo output).1 ∧
      ∀ cres, (compilePublic fails host parses t sig abiInfo output).2 = some cres →
        cres.deviceCalleeAbiName = none ∧ Resolved host parses o cres.options := by
  have hset : t.setOutput output = t := setOutput_kept (ht.options.outputKept hout)
  simp only [compilePublic]
  rw [hset]
  split
  · next cres hget =>
    refine ⟨ht, fun r hr => ?_⟩
    obtain rfl := Option.some.inj hr
    exact ⟨hname _ hget, (ht.overloads hget).unnamed (hname _ hget)⟩
  · split
    · exact ⟨ht, fun r hr => by cases hr⟩
    · next t' ht' =>
      obtain ⟨o', ho', rfl⟩ := resolveTargetOptions_settled ht.options ht'
      have ht₁ := ht.withOptions (.inr ho')
      split
      · next cres hload =>
        have hres := ht₁.load hload
        exact ⟨ht₁.store (.ofUnnamed hres.1 hres.2), fun r hr => Option.some.inj hr ▸ hres⟩
      · have hkept : (t.withOptions o').setAbiInfo abiInfo = t.withOptions o' := setAbiInfo_kept (ht₁.options.abiKept habi)
        rw [hkept]
        split
        · exact ⟨ht₁, fun r hr => by cases hr⟩
        · next cres hc =>
          obtain rfl := compileMlir_eq hc
          exact ⟨(ht₁.save ho').store (.ofUnnamed rfl ho'), fun r hr => Option.some.inj hr ▸ ⟨rfl, ho'⟩⟩

theorem compileDeviceCallee_ok (ht : TableOk host parses o t) (ho : o.device = true) {sig : Signature} {abiName : Option String}
    (hname : abiName = none → Unnamed t sig.args) :
    TableOk host parses o (compileDeviceCallee fails host parses t sig abiName).1 ∧
      ∀ cres, (compileDeviceCallee fails host parses t sig abiName).2 = some cres → Resolved host parses (o.named abiName) cres.options := by
  simp only [compileDeviceCallee]
  split
  · next cres hcached =>
    obtain ⟨hget, hfits⟩ := Option.filter_eq_some_iff.mp hcached
    refine ⟨ht, fun r hr => ?_⟩
    obtain rfl := Option.some.inj hr
    have heq : cres.deviceCalleeAbiName = abiName := by
      cases abiName with
      | none => exact hname rfl _ hget
      | some name => simpa using hfits
    rw [← heq]
    exact (ht.overloads hget).options
  · split
    · exact ⟨ht, fun r hr => by cases hr⟩
    · next t' ht' =>
      obtain ⟨o', ho', rfl⟩ := resolveTargetOptions_settled ht.options ht'
      have ht₁ := ht.withOptions (.inr ho')
      have hdevice : o.device ≠ false := by simp [ho]
      split
      · exact ⟨ht₁, fun r hr => by cases hr⟩
      · next cres hc =>
        obtain rfl := compileMlir_eq hc
        have hres : Resolved host parses (o.named abiName) (o'.named abiName) := ho'.named abiName
        cases abiName <;> exact ⟨ht₁.store ⟨hres, fun hf => absurd hf hdevice⟩, fun r hr => Option.some.inj hr ▸ hres⟩

end

/-! ## States -/

structure StateOk (host : Option String) (parses : String → Bool) (own : Options υ) (d : Dispatcher υ) : Prop where
  table : TableOk host parses own d.toTable
  callees : ∀ {t}, d.deviceDispatcher = some t → TableOk host parses own.asDevice t
  configs : ∀ {k cres}, d.launchConfigOverloads.get k = some cres → Resolved host parses own cres.options
  bound : ∀ {cres}, cres ∈ d.bound → Resolved host parses own cres.options

theorem StateOk.init (own : Options υ) (cached : Bool) : StateOk host parses own (.init own cached) where
  table := TableOk.init own cached
  callees h := by cases h
  configs h := by cases h
  bound h := by cases h

section
variable {d : Dispatcher υ}

theorem StateOk.device (h : StateOk host parses own d) : d.options.device = own.device := h.table.options.device

theorem StateOk.withTable (h : StateOk host parses own d) {t : Table υ} (ht : TableOk host parses own t) :
    StateOk host parses own (d.withTable t) := ⟨ht, h.callees, h.configs, h.bound⟩

section
variable [DecidableEq υ]

theorem StateOk.deviceTable (h : StateOk host parses own d) : TableOk host parses own.asDevice d.deviceTable := by
  have hnew : TableOk host parses own.asDevice (.init d.options.asDevice false) :=
    ⟨h.table.options.asDevice, fun h => (by cases h), (TableOk.init own.asDevice false : TableOk host parses _ _).cache⟩
  unfold Dispatcher.deviceTable
  split
  · next t ht =>
    split
    · exact h.callees ht
    · exact hnew
  · exact hnew

/-- A device function's options turn into those of a device function; a kernel's overloads take what they already have. -/
def DeviceKept (own : Options υ) (d : Dispatcher υ) (args : List NumbaType) : Prop :=
  if own.device then own.lto = false else (d.overloads.get args).isSome = true

theorem StateOk.compileAsDevice (h : StateOk host parses own d) {args : List NumbaType} (hkept : DeviceKept own d args)
    {compile : Table υ → Table υ × Option (Compiled υ)} {P : Compiled υ → Prop}
    (hcompile : ∀ t, TableOk host parses own.asDevice t → t.overloads = d.calleeTable.overloads →
      TableOk host parses own.asDevice (compile t).1 ∧ ∀ cres, (compile t).2 = some cres → P cres) :
    StateOk host parses own (d.compileAsDevice args compile).1 ∧ ∀ cres, (d.compileAsDevice args compile).2 = some cres → P cres := by
  unfold Dispatcher.compileAsDevice
  by_cases hd : d.options.device = true
  · have hown : own.device = true := h.device.symm.trans hd
    have hlto : own.lto = false := by simpa [DeviceKept, hown] using hkept
    have hsame : own.asDevice = own := by
      unfold Options.asDevice
      rw [← hown, ← hlto]
    have htable : TableOk host parses own.asDevice (d.toTable.withOptions d.options.asDevice) := by
      have hset := h.table.options.asDevice
      rw [hsame] at hset ⊢
      exact h.table.withOptions hset
    obtain ⟨ht, hres⟩ := hcompile _ htable (by rw [Dispatcher.calleeTable, if_pos hd]; rfl)
    rw [if_pos hd]
    exact ⟨h.withTable (hsame ▸ ht), hres⟩
  · have hown : own.device = false := by
      rw [← h.device]
      exact Bool.not_eq_true _ ▸ hd
    have hsome : (d.overloads.get args).isSome = true := by simpa [DeviceKept, hown] using hkept
    obtain ⟨w, hw⟩ := Option.isSome_iff_exists.mp hsome
    obtain ⟨ht, hres⟩ := hcompile _ h.deviceTable (by rw [Dispatcher.calleeTable, if_neg hd])
    have hstate : StateOk host parses own { d with deviceDispatcher := some (compile d.deviceTable).1 } :=
      ⟨h.table, fun hs => Option.some.inj hs ▸ ht, h.configs, h.bound⟩
    rw [if_neg hd]
    simp only
    split
    · next cres hc =>
      refine ⟨?_, fun r hr => hres r (hc.trans hr)⟩
      rw [Dict.setDefault_bound hw]
      exact hstate
    · exact ⟨hstate, fun r hr => by cases hr⟩

theorem StateOk.call (h : StateOk host parses own d) (hkept : own.device = true → own.lto = false) (sig : Signature) (funcName : String) :
    StateOk host parses own (d.call fails host parses sig funcName).1 ∧
      ∀ cres, (d.call fails host parses sig funcName).2 = some cres →
        Resolved host parses (own.asDevice.named (some funcName)) cres.options := by
  have hcallee : ∀ t, TableOk host parses own.asDevice t →
      TableOk host parses own.asDevice (compileDeviceCallee fails host parses t sig (some funcName)).1 ∧
        ∀ cres, (compileDeviceCallee fails host parses t sig (some funcName)).2 = some cres →
          Resolved host parses (own.asDevice.named (some funcName)) cres.options :=
    fun t ht => compileDeviceCallee_ok ht rfl fun hn => by cases hn
  unfold Dispatcher.call
  by_cases hd : d.options.device = true
  · rw [if_pos hd]
    have hown : own.device = true := h.device.symm.trans hd
    exact h.compileAsDevice (by simpa [DeviceKept, hown] using hkept hown) fun t ht _ => hcallee t ht
  · rw [if_neg hd]
    have htable : TableOk host parses own.asDevice
        (let t := d.deviceDispatcher.getD (.init { d.options with device := true } false); t.withOptions t.options.asDevice) := by
      cases ht : d.deviceDispatcher with
      | none => exact ⟨h.table.options.asDevice, fun hget => (by cases hget), fun hc => (by cases hc)⟩
      | some t => exact (h.callees ht).withOptions (h.callees ht).options.asDevice
    obtain ⟨ht, hres⟩ := hcallee _ htable
    exact ⟨⟨h.table, fun hs => Option.some.inj hs ▸ ht, h.configs, h.bound⟩, hres⟩

end

/-! ## Launches -/

/-- A launch of a device function finds no overload that was compiled under a callee's name. -/
def LaunchKept (own : Options υ) (d : Dispatcher υ) : Prop := own.device = true → ∀ args, Unnamed d.toTable args

theorem StateOk.unnamed (h : StateOk host parses own d) (hl : LaunchKept own d) (args : List NumbaType) : Unnamed d.toTable args := by
  cases hd : own.device with
  | true => exact hl hd args
  | false => exact fun cres hget => (h.table.overloads hget).kernel hd

theorem StateOk.compileLaunch (h : StateOk host parses own d) (l : Launch) :
    StateOk host parses own (d.compileLaunch fails host parses normalize l).1 ∧
      ∀ cres, (d.compileLaunch fails host parses normalize l).2 = some cres → Resolved host parses own cres.options := by
  simp only [Dispatcher.compileLaunch]
  split
  · exact ⟨h, fun r hr => by cases hr⟩
  · next t' ht' =>
    obtain ⟨o', ho', rfl⟩ := resolveTargetOptions_settled h.table.options ht'
    have ht := h.table.withOptions (.inr ho')
    split
    · next cres hload =>
      have hres : cres.deviceCalleeAbiName = none ∧ Resolved host parses own cres.options := by
        split at hload
        · exact ht.load hload
        · cases hload
      exact ⟨h.withTable (ht.store (.ofUnnamed hres.1 hres.2)), fun r hr => Option.some.inj hr ▸ hres.2⟩
    · split
      · exact ⟨h.withTable ht, fun r hr => by cases hr⟩
      · next cres hc =>
        obtain rfl := compileMlir_eq hc
        split
        · refine ⟨⟨ht, h.callees, fun hk => ?_, h.bound⟩, fun r hr => Option.some.inj hr ▸ ho'⟩
          obtain ⟨-, rfl⟩ | hk := Dict.get_of_setDefault hk
          · exact ho'
          · obtain ⟨-, rfl⟩ | hk := Dict.get_of_setDefault hk
            · exact ho'
            · exact h.configs hk
        · exact ⟨h.withTable ((ht.store (.ofUnnamed rfl ho')).save ho'), fun r hr => Option.some.inj hr ▸ ho'⟩

theorem StateOk.compileImpl (h : StateOk host parses own d) (hl : LaunchKept own d) (l : Launch) :
    StateOk host parses own (d.compileImpl fails host parses normalize l).1 ∧
      ∀ cres, (d.compileImpl fails host parses normalize l).2 = some cres → Resolved host parses own cres.options := by
  simp only [Dispatcher.compileImpl]
  split
  · next cres hreusable =>
    refine ⟨h, fun r hr => ?_⟩
    obtain rfl := Option.some.inj hr
    split at hreusable
    · obtain ⟨k, hk⟩ := mem_of_findLaunchConfigOverload hreusable
      exact h.configs hk
    · obtain ⟨k, hk⟩ := mem_of_firstReusable hreusable
      exact (h.table.overloads hk).unnamed (h.unnamed hl k _ hk)
  · exact h.compileLaunch l

theorem StateOk.launch (h : StateOk host parses own d) (hl : LaunchKept own d) (l : Launch) :
    StateOk host parses own (d.launch fails host parses normalize l).1 ∧
      ∀ cres, (d.launch fails host parses normalize l).2 = some cres → Resolved host parses own cres.options := by
  obtain ⟨h₁, hres⟩ : StateOk host parses own (d.compileImpl fails host parses normalize l).1 ∧ _ := h.compileImpl hl l
  simp only [Dispatcher.launch]
  split
  · next d' cres heq =>
    rw [heq] at h₁ hres
    refine ⟨⟨h₁.table, h₁.callees, h₁.configs, fun hb => ?_⟩, fun r hr => Option.some.inj hr ▸ hres cres rfl⟩
    split at hb
    · obtain hb | hb := List.mem_append.mp hb
      · exact h₁.bound hb
      · exact List.mem_singleton.mp hb ▸ hres cres rfl
    · exact h₁.bound hb
  · next d' heq =>
    rw [heq] at h₁
    exact ⟨h₁, fun r hr => by cases hr⟩

/-! ## Requests -/

/-- `compile` sets what the options already are, and finds no device callee. -/
def CompileKept (own : Options υ) (t : Table υ) (sig : Option Signature) (abiInfo : Option AbiInfo) (output : Option OutputKind) : Prop :=
  ∀ s, sig = some s → AbiKept own abiInfo ∧ OutputKept own output ∧ Unnamed t s.args

/-- The requests that leave the dispatcher as it would be without them. -/
def Kept [DecidableEq υ] (own : Options υ) (d : Dispatcher υ) : Request υ → Prop
  | .launch _ => LaunchKept own d
  | .launchBound _ => True
  | .compile sig abiInfo output => CompileKept own d.toTable sig abiInfo output
  | .compileWith sig given => GivenKept own given ∧ CompileKept own d.toTable sig given.abiInfo.join given.output
  | .compileOnly _ => True
  | .compileDevice sig => DeviceKept own d sig.args ∧ Unnamed d.calleeTable sig.args
  | .compileAsDeviceCallee sig abiName => DeviceKept own d sig.args ∧ (abiName = none → Unnamed d.calleeTable sig.args)
  | .call _ _ => own.device = true → own.lto = false

def asked (own : Options υ) : Request υ → Options υ
  | .compileDevice _ => own.asDevice
  | .compileAsDeviceCallee _ abiName => own.asDevice.named abiName
  | .call _ funcName => own.asDevice.named (some funcName)
  | _ => own

theorem StateOk.compile (h : StateOk host parses own d) {sig : Option Signature} {abiInfo : Option AbiInfo} {output : Option OutputKind}
    (hk : CompileKept own d.toTable sig abiInfo output) :
    StateOk host parses own (d.compile fails host parses sig abiInfo output).1 ∧
      ∀ cres, (d.compile fails host parses sig abiInfo output).2 = some cres → Resolved host parses own cres.options := by
  cases sig with
  | none => exact ⟨h, fun r hr => by cases hr⟩
  | some sig =>
    obtain ⟨habi, hout, hname⟩ := hk sig rfl
    refine ⟨h.withTable (compilePublic_ok h.table habi hout hname).1, fun cres hc => ?_⟩
    exact ((compilePublic_ok h.table habi hout hname).2 cres hc).2

theorem StateOk.compileOnly (h : StateOk host parses own d) (sig : Option Signature) :
    StateOk host parses own (d.compileOnly fails host parses sig).1 ∧
      ∀ cres, (d.compileOnly fails host parses sig).2 = some cres → Resolved host parses own cres.options := by
  cases sig with
  | none => exact ⟨h, fun r hr => by cases hr⟩
  | some sig =>
    simp only [Dispatcher.compileOnly]
    split
    · exact ⟨h, fun r hr => by cases hr⟩
    · next t' ht' =>
      obtain ⟨o', ho', rfl⟩ := resolveTargetOptions_settled h.table.options ht'
      refine ⟨h.withTable (h.table.withOptions (.inr ho')), fun r hr => ?_⟩
      obtain rfl := compileMlir_eq hr
      exact ho'

theorem StateOk.perform [DecidableEq υ] (h : StateOk host parses own d) {r : Request υ} (hk : Kept own d r) :
    StateOk host parses own (d.perform fails host parses normalize r).1 ∧
      ∀ cres, (d.perform fails host parses normalize r).2 = some cres → Resolved host parses (asked own r) cres.options := by
  cases r with
  | launch l => exact h.launch hk l
  | launchBound kernel => exact ⟨h, fun cres hc => h.bound (List.mem_of_getElem? hc)⟩
  | compile sig abiInfo output => exact h.compile hk
  | compileWith sig given =>
    have hopts := hk.1.settled h.table.options
    exact (h.withTable (h.table.withOptions hopts)).compile hk.2
  | compileOnly sig => exact h.compileOnly sig
  | compileDevice sig =>
    refine h.compileAsDevice hk.1 fun t ht hover => ?_
    have hname : Unnamed t sig.args := by
      unfold Unnamed
      rw [hover]
      exact hk.2
    have habi : AbiKept own.asDevice none := fun _ ha => by cases ha
    have hout : OutputKept own.asDevice none := fun _ ho => by cases ho
    exact ⟨(compilePublic_ok ht habi hout hname).1, fun cres hc => ((compilePublic_ok ht habi hout hname).2 cres hc).2⟩
  | compileAsDeviceCallee sig abiName =>
    refine h.compileAsDevice hk.1 fun t ht hover => compileDeviceCallee_ok ht rfl fun hn => ?_
    unfold Unnamed
    rw [hover]
    exact hk.2 hn
  | call args funcName => exact h.call hk ⟨args, none⟩ funcName

/-! ## Launches that succeed -/

theorem resolveChip_stable (hhost : ∀ chip, host = some chip → parses chip = true) {a : Option String} {chip : String}
    (h : resolveChip host parses a = some chip) : resolveChip host parses (some chip) = some chip := by
  have hdevice : host = some chip → resolveChip host parses (some chip) = some chip := by
    intro hc
    simp [resolveChip, hc, hhost chip hc]
  cases a with
  | none => exact hdevice h
  | some c =>
    by_cases hc : c = ""
    · rw [resolveChip, if_pos hc] at h
      exact hdevice h
    · rw [resolveChip, if_neg hc] at h
      split at h
      · next hparses =>
        obtain rfl := Option.some.inj h
        rw [resolveChip, if_neg hc, if_pos hparses]
      · cases h

theorem resolveTargetOptions_isSome (hhost : ∀ chip, host = some chip → parses chip = true) {o o' : Options υ} {t : Table υ}
    (ht : Settled host parses o t.options) (h : Resolved host parses o o') : ∃ t', resolveTargetOptions host parses t = some t' := by
  obtain ⟨chip, hchip, -⟩ := h
  have hagain : resolveChip host parses t.options.chip = some chip := by
    obtain h | ⟨chip', hchip', h⟩ := ht
    · rwa [h]
    · rw [h]
      obtain rfl := Option.some.inj (hchip.symm.trans hchip')
      exact resolveChip_stable hhost hchip
  unfold resolveTargetOptions
  rw [hagain]
  exact ⟨_, rfl⟩

theorem launch_answer (d : Dispatcher υ) (l : Launch) :
    (d.launch fails host parses normalize l).2 = (d.compileImpl fails host parses normalize l).2 := by
  unfold Dispatcher.launch
  split
  · next heq => rw [heq]
  · next heq => rw [heq]

theorem compileImpl_init (own : Options υ) (cached : Bool) (l : Launch) :
    (Dispatcher.init own cached).compileImpl fails host parses normalize l =
      (Dispatcher.init own cached).compileLaunch fails host parses normalize l := by
  obtain ⟨argtypes, _ | key⟩ := l <;> rfl

theorem compiles_of_init {own : Options υ} {cached : Bool} {l : Launch} {cres : Compiled υ}
    (h : ((Dispatcher.init own cached).launch fails host parses normalize l).2 = some cres) :
    ∃ o', Resolved host parses own o' ∧ fails o' ⟨normalize l.argtypes, none⟩ = false := by
  rw [launch_answer, compileImpl_init] at h
  simp only [Dispatcher.compileLaunch] at h
  split at h
  · cases h
  · next t ht =>
    obtain ⟨o', ho', rfl⟩ := resolveTargetOptions_settled (.inl rfl : Settled host parses own (Dispatcher.init own cached).options) ht
    have hload : (if l.config.isNone then
        (((Dispatcher.init own cached).toTable.withOptions o').load ⟨l.argtypes, some .none⟩) else none) = none := by
      split
      · cases cached <;> rfl
      · rfl
    rw [hload] at h
    simp only at h
    split at h
    · cases h
    · next hc =>
      refine ⟨o', ho', ?_⟩
      unfold compileMlir at hc
      split at hc
      · cases hc
      · next hf => exact Bool.not_eq_true _ ▸ hf

theorem StateOk.launch_isSome (hhost : ∀ chip, host = some chip → parses chip = true) (h : StateOk host parses own d) {l : Launch}
    {o' : Options υ} (ho' : Resolved host parses own o') (hf : fails o' ⟨normalize l.argtypes, none⟩ = false) :
    ((d.launch fails host parses normalize l).2).isSome = true := by
  rw [launch_answer]
  simp only [Dispatcher.compileImpl]
  split
  · rfl
  · obtain ⟨t', ht'⟩ := resolveTargetOptions_isSome hhost h.table.options ho'
    obtain ⟨o'', ho'', rfl⟩ := resolveTargetOptions_settled h.table.options ht'
    obtain rfl := ho'.unique ho''
    have hcompile : compileMlir fails o' ⟨normalize l.argtypes, none⟩ = some ⟨normalize l.argtypes, o', none, false⟩ := by
      rw [compileMlir, if_neg (by simp [hf])]
    simp only [Dispatcher.compileLaunch, ht']
    split
    · rfl
    · have hoptions : (d.toTable.withOptions o').options = o' := rfl
      rw [hoptions, hcompile]
      simp only
      split <;> rfl

end

/-! ## Runs -/

/-- Two runs of one dispatcher, of requests that keep its options, give the request that follows the same
target options, ABI and output kind, and a launch that compiles without a history compiles after one. -/
theorem inspection_keeps_options [DecidableEq υ] (fails : Options υ → Signature → Bool) (host : Option String) (parses : String → Bool)
    (normalize : List NumbaType → List NumbaType) (own : Options υ) (cached : Bool)
    (hhost : ∀ chip, host = some chip → parses chip = true) {rs rs' : List (Request υ)} {d d' : Dispatcher υ}
    (h : Runs.StepsOk (step fails host parses normalize) (Kept own) (.init own cached) rs)
    (h' : Runs.StepsOk (step fails host parses normalize) (Kept own) (.init own cached) rs')
    (hd : Runs.run (step fails host parses normalize) (.init own cached) rs = some d)
    (hd' : Runs.run (step fails host parses normalize) (.init own cached) rs' = some d')
    {r : Request υ} (hr : Kept own d r) (hr' : Kept own d' r) :
    (∀ cres cres', (d.perform fails host parses normalize r).2 = some cres →
      (d'.perform fails host parses normalize r).2 = some cres' → cres'.options = cres.options) ∧
    ∀ l, r = .launch l → (((Dispatcher.init own cached).launch fails host parses normalize l).2).isSome = true →
      ((d.launch fails host parses normalize l).2).isSome = true := by
  have hrun : ∀ {rs d}, Runs.StepsOk (step fails host parses normalize) (Kept own) (.init own cached) rs →
      Runs.run (step fails host parses normalize) (.init own cached) rs = some d → StateOk host parses own d := by
    intro rs d hok hrun
    refine Runs.run_inv _ (fun d r d' hi hk hstep => ?_) (StateOk.init own cached) hok hrun
    obtain rfl := Option.some.inj hstep
    exact (hi.perform hk).1
  refine ⟨fun cres cres' hc hc' => ?_, fun l _ hl => ?_⟩
  · exact (((hrun h' hd').perform hr').2 cres' hc').unique (((hrun h hd).perform hr).2 cres hc)
  · obtain ⟨cres, hcres⟩ := Option.isSome_iff_exists.mp hl
    obtain ⟨o', ho', hf⟩ := compiles_of_init hcres
    exact (hrun h hd).launch_isSome hhost ho' hf

end

/-! A kernel without options, which always compiles. -/

def plainOptions : Options Unit := ⟨false, false, none, none, none, .empty⟩

def narrow : List NumbaType := [.scalar (.integer true .s4)]

def wide : List NumbaType := [.scalar (.integer true .s8)]

/-- What a launch with a wide argument was compiled with, after these requests. -/
def launched (requests : List (Request Unit)) : Option (Options Unit) :=
  (Runs.run (step (fun _ _ => false) (some "sm_90") (fun _ => true) id) (.init plainOptions false) requests).bind fun d =>
    (d.perform (fun _ _ => false) (some "sm_90") (fun _ => true) id (.launch ⟨wide, none⟩)).2.map (·.options)

theorem inspected_before_launch :
    launched [.launch ⟨narrow, none⟩, .compileDevice ⟨narrow, none⟩, .compile (some ⟨wide, none⟩) none none] = launched [] := by
  have hkernel : ∀ d : Dispatcher Unit, LaunchKept plainOptions d := fun d hd => by cases hd
  have hkept : Runs.StepsOk (step (fun _ _ => false) (some "sm_90") (fun _ => true) id) (Kept plainOptions) (.init plainOptions false)
      [.launch ⟨narrow, none⟩, .compileDevice ⟨narrow, none⟩, .compile (some ⟨wide, none⟩) none none] := by
    refine Runs.stepsOk_cons _ rfl (hkernel _) (Runs.stepsOk_cons _ rfl ⟨rfl, fun _ h => by cases h⟩ ?_)
    refine Runs.stepsOk_cons _ rfl (fun s hs => ?_) trivial
    obtain rfl := Option.some.inj hs
    exact ⟨fun _ h => (by cases h), fun _ h => (by cases h), fun _ h => (by cases h)⟩
  have hnone : Runs.StepsOk (step (fun _ _ => false) (some "sm_90") (fun _ => true) id) (Kept plainOptions) (.init plainOptions false) [] :=
    trivial
  have hsame := inspection_keeps_options (fun _ _ => false) (some "sm_90") (fun _ => true) id plainOptions false (fun _ _ => rfl) hnone hkept
    rfl rfl (r := .launch ⟨wide, none⟩) (hkernel _) (hkernel _)
  exact congrArg some (hsame.1 _ _ rfl rfl)

/-- An output kind stays set, a kernel's overloads take a device function, and
options are merged before a signature turns out to be none. -/
theorem launch_after_inspection :
    launched [.compile (some ⟨narrow, none⟩) none (some .ltoir)] ≠ launched [] ∧
      launched [.compileDevice ⟨wide, none⟩] ≠ launched [] ∧
      launched [.compileWith none ⟨some true, none, none, none, none, .empty⟩] ≠ launched [] := by
  have hlto : (launched [.compile (some ⟨narrow, none⟩) none (some .ltoir)]).map (·.lto) ≠ (launched []).map (·.lto) := by decide
  have hdevice : (launched [.compileDevice ⟨wide, none⟩]).map (·.device) ≠ (launched []).map (·.device) := by decide
  have hmerged : (launched [.compileWith none ⟨some true, none, none, none, none, .empty⟩]).map (·.device) ≠
      (launched []).map (·.device) := by decide
  exact ⟨fun h => hlto (by rw [h]), fun h => hdevice (by rw [h]), fun h => hmerged (by rw [h])⟩

end NumbaCudaMlir.InspectRequests

import NumbaCudaMlir.RecordBuffers

/-!
# Buffers are freed once

The buffers in a helper are live, no two of them are the same, and those in a helper
that a launch has cleaned up are the buffers of this launch.
-/

namespace NumbaCudaMlir.RecordBuffers

open Runs

/-! ## Safe logs -/

/-- Whether the event is fine after those of the log. -/
def Event.Ok (log : List Event) : Event → Prop
  | .alloc _ _ => True
  | .free p => ∃ i, owner log p = some i
  | .kernelArg i param => ∃ p, param = cudaArgDevicePtr p ∧ owner log p = some i
  | .copyBack i p => owner log p = some i

def Safe : List Event → Prop
  | [] => True
  | e :: log => e.Ok log ∧ Safe log

/-- Between two releases of an address it is allocated. -/
def FreedOnce (log : List Event) : Prop :=
  ∀ p after between before, log = after ++ .free p :: (between ++ .free p :: before) → ∃ i, .alloc i p ∈ between

theorem owner_of_not_alloc {p : Int} {before : List Event} : ∀ {between : List Event}, (∀ i, .alloc i p ∉ between) →
    owner (between ++ .free p :: before) p = none
  | [], _ => by rw [List.nil_append, owner, if_pos rfl]
  | e :: between, h => by
    have ih := @owner_of_not_alloc p before between fun i hm => h i (List.mem_cons_of_mem e hm)
    cases e with
    | alloc i ptr =>
      have hne : ptr ≠ p := fun heq => h i (heq ▸ List.mem_cons_self)
      rw [List.cons_append, owner, if_neg fun heq => hne heq.symm]
      exact ih
    | free ptr =>
      rw [List.cons_append, owner]
      split
      · rfl
      · exact ih
    | kernelArg | copyBack => exact ih

theorem Safe.tail {after log : List Event} (h : Safe (after ++ log)) : Safe log := by
  induction after with
  | nil => exact h
  | cons e after ih => exact ih h.2

theorem Safe.freedOnce {log : List Event} (h : Safe log) : FreedOnce log := by
  intro p after between before heq
  by_contra hno
  rw [heq] at h
  obtain ⟨⟨i, hi⟩, -⟩ := h.tail
  rw [owner_of_not_alloc fun i hm => hno ⟨i, hm⟩] at hi
  cases hi

/-! ## Releases -/

theorem frees_cons (info : RecordCopyInfo) (copies : List RecordCopyInfo) (log : List Event) :
    (freeRecords (info :: copies)).reverse ++ log =
      (freeRecords copies).reverse ++ if info.devicePtr ≠ 0 then .free info.devicePtr :: log else log := by
  unfold freeRecords
  by_cases h : info.devicePtr ≠ 0
  · rw [List.filter_cons_of_pos (by rw [decide_eq_true h]), List.map_cons, List.reverse_cons, List.append_assoc, List.singleton_append, if_pos h]
  · rw [List.filter_cons_of_neg (by rw [decide_eq_false h]; nofun), if_neg h]

theorem owner_frees {p : Int} : ∀ {copies : List RecordCopyInfo} {log : List Event}, (∀ info ∈ copies, info.devicePtr ≠ p) →
    owner ((freeRecords copies).reverse ++ log) p = owner log p
  | [], _, _ => rfl
  | info :: copies, log, h => by
    rw [frees_cons, owner_frees fun other hm => h other (List.mem_cons_of_mem info hm)]
    split
    · rw [owner, if_neg fun heq => h info List.mem_cons_self heq.symm]
    · rfl

theorem safe_frees : ∀ {copies : List RecordCopyInfo} {log : List Event}, Safe log → (∀ info ∈ copies, (owner log info.devicePtr).isSome) →
    (copies.map (·.devicePtr)).Nodup → Safe ((freeRecords copies).reverse ++ log)
  | [], _, hs, _, _ => hs
  | info :: copies, log, hs, hlive, hnodup => by
    obtain ⟨hnew, hnodup⟩ := List.nodup_cons.mp hnodup
    rw [frees_cons]
    refine safe_frees ?_ (fun other hm => ?_) hnodup
    · split
      · exact ⟨Option.isSome_iff_exists.mp (hlive info List.mem_cons_self), hs⟩
      · exact hs
    · have hne : other.devicePtr ≠ info.devicePtr := fun heq => hnew (List.mem_map.mpr ⟨other, hm, heq⟩)
      have hother := hlive other (List.mem_cons_of_mem info hm)
      split
      · rw [owner, if_neg hne]
        exact hother
      · exact hother

/-! ## The invariant -/

def copies (pooled : PooledHelper) : List RecordCopyInfo := pooled.helper.recordCopies

/-- The buffers in the helper are those of the launch. -/
def Mine (log : List Event) (i : Nat) (pooled : PooledHelper) : Prop := ∀ info ∈ copies pooled, owner log info.devicePtr = some i

/-- The records among the arguments so far have parameters with their buffers. -/
structure Passed (kinds : List PythonArgKind) (helper : LaunchHelper) : Prop where
  length : kinds.length = helper.argMetadata.length
  buffer : ∀ kind m, (kind, m) ∈ kinds.zip helper.argMetadata → kind = .numpyVoid →
    m.kind = .scalar ∧ ∃ info ∈ helper.recordCopies, helper.cuargs[m.startIdx]? = some (cudaArgDevicePtr info.devicePtr)

def PhaseOk (log : List Event) (i : Nat) (pooled : PooledHelper) : Phase → Prop
  | .idle | .returned | .started .. => True
  | .extracting _ done .. => Mine log i pooled ∧ Passed done pooled.helper
  | .fast _ kinds .. => Mine log i pooled ∧ .numpyVoid ∉ kinds
  | .ready _ kinds fast => Mine log i pooled ∧ if fast then .numpyVoid ∉ kinds else Passed kinds pooled.helper
  | .launched _ => Mine log i pooled
  | .copying _ infos => Mine log i pooled ∧ ∀ info ∈ infos, info ∈ copies pooled

structure Inv (s : State) : Prop where
  nodup : s.freelist.Nodup
  free_lt : ∀ h ∈ s.freelist, h < s.created
  held : ∀ i h, (s.launches i).helper = some h → h < s.created ∧ h ∉ s.freelist
  unique : KeysUnique Phase.helper s.launches
  live : ∀ h, ∀ info ∈ copies (s.helpers h), (owner s.log info.devicePtr).isSome
  distinct : ∀ h, ((copies (s.helpers h)).map (·.devicePtr)).Nodup
  apart : ∀ h h', ∀ info ∈ copies (s.helpers h), ∀ info' ∈ copies (s.helpers h'), info.devicePtr = info'.devicePtr → h = h'
  phase : ∀ i h, (s.launches i).helper = some h → PhaseOk s.log i (s.helpers h) (s.launches i)
  safe : Safe s.log

theorem inv_init : Inv .init where
  nodup := List.nodup_nil
  free_lt := nofun
  held := nofun
  unique := nofun
  live := nofun
  distinct _ := List.nodup_nil
  apart := nofun
  phase := nofun
  safe := trivial

theorem Mine.mono {log log' : List Event} {i : Nat} {pooled : PooledHelper} (h : Mine log i pooled)
    (hlog : ∀ info ∈ copies pooled, owner log' info.devicePtr = owner log info.devicePtr) : Mine log' i pooled :=
  fun info hm => (hlog info hm).trans (h info hm)

theorem PhaseOk.mono {log log' : List Event} {i : Nat} {pooled : PooledHelper} {phase : Phase} (h : PhaseOk log i pooled phase)
    (hlog : ∀ info ∈ copies pooled, owner log' info.devicePtr = owner log info.devicePtr) : PhaseOk log' i pooled phase := by
  cases phase with
  | idle | returned | started => trivial
  | launched => exact Mine.mono h hlog
  | extracting | fast | ready | copying => exact ⟨h.1.mono hlog, h.2⟩

/-! ## What keeps it -/

section
variable {s : State} (hi : Inv s) {i h : Nat} (hh : (s.launches i).helper = some h)
include hi hh

theorem Inv.update {pooled : PooledHelper} {events : List Event} {phase : Phase} (hphase : phase.helper = some h)
    (hsafe : Safe (events.reverse ++ s.log))
    (hothers : ∀ p, (∀ info ∈ copies (s.helpers h), info.devicePtr ≠ p) → (owner s.log p).isSome → owner (events.reverse ++ s.log) p = owner s.log p)
    (hlive : ∀ info ∈ copies pooled, (owner (events.reverse ++ s.log) info.devicePtr).isSome)
    (hdistinct : ((copies pooled).map (·.devicePtr)).Nodup)
    (hapart : ∀ info ∈ copies pooled, info ∈ copies (s.helpers h) ∨ owner s.log info.devicePtr = none)
    (hok : PhaseOk (events.reverse ++ s.log) i pooled phase) : Inv (((s.logged events).setHelper h pooled).setPhase i phase) := by
  -- the buffers of the other helpers stay as they are
  have hkeep : ∀ h' ≠ h, ∀ info ∈ copies (s.helpers h'), owner (events.reverse ++ s.log) info.devicePtr = owner s.log info.devicePtr :=
    fun h' hne info hm => hothers _ (fun info' hm' heq => hne (hi.apart h h' info' hm' info hm heq).symm) (hi.live h' info hm)
  have hforeign : ∀ h' ≠ h, ∀ info ∈ copies pooled, ∀ info' ∈ copies (s.helpers h'), info.devicePtr ≠ info'.devicePtr := by
    intro h' hne info hm info' hm' heq
    rcases hapart info hm with hold | hnone
    · exact hne (hi.apart h h' info hold info' hm' heq).symm
    · have hsome := hi.live h' info' hm'
      rw [← heq, hnone] at hsome
      cases hsome
  refine ⟨hi.nodup, hi.free_lt, ?_, ?_, ?_, ?_, ?_, ?_, hsafe⟩
  · intro j h' hj
    change (setAt s.launches i phase j).helper = some h' at hj
    by_cases hji : j = i
    · subst hji
      rw [setAt_self, hphase] at hj
      cases hj
      exact hi.held j h hh
    · rw [setAt_ne _ _ hji] at hj
      exact hi.held j h' hj
  · refine hi.unique.setAt fun k hk j hji hj => hji ?_
    rw [hphase] at hk
    cases hk
    exact hi.unique j i h hj hh
  · exact setAt_forall (P := fun h' pooled => ∀ info ∈ copies pooled, (owner s.log info.devicePtr).isSome)
      (Q := fun h' pooled => ∀ info ∈ copies pooled, (owner (events.reverse ++ s.log) info.devicePtr).isSome) hlive hi.live
      fun h' hne hp info hm => by rw [hkeep h' hne info hm]; exact hp info hm
  · exact setAt_forall (P := fun _ pooled => ((copies pooled).map (·.devicePtr)).Nodup)
      (Q := fun _ pooled => ((copies pooled).map (·.devicePtr)).Nodup) hdistinct hi.distinct fun _ _ hp => hp
  · intro a b info hm info' hm' heq
    change info ∈ copies (setAt s.helpers h pooled a) at hm
    change info' ∈ copies (setAt s.helpers h pooled b) at hm'
    by_cases ha : a = h <;> by_cases hb : b = h
    · rw [ha, hb]
    · subst ha
      rw [setAt_self] at hm
      rw [setAt_ne _ _ hb] at hm'
      exact absurd heq (hforeign b hb info hm info' hm')
    · subst hb
      rw [setAt_ne _ _ ha] at hm
      rw [setAt_self] at hm'
      exact absurd heq.symm (hforeign a ha info' hm' info hm)
    · rw [setAt_ne _ _ ha] at hm
      rw [setAt_ne _ _ hb] at hm'
      exact hi.apart a b info hm info' hm' heq
  · intro j h' hj
    change (setAt s.launches i phase j).helper = some h' at hj
    change PhaseOk (events.reverse ++ s.log) j (setAt s.helpers h pooled h') (setAt s.launches i phase j)
    by_cases hji : j = i
    · subst hji
      rw [setAt_self] at hj ⊢
      rw [hphase] at hj
      cases hj
      rw [setAt_self]
      exact hok
    · rw [setAt_ne _ _ hji] at hj ⊢
      have hne : h' ≠ h := fun heq => hji (hi.unique j i h (heq ▸ hj) hh)
      rw [setAt_ne _ _ hne]
      exact (hi.phase j h' hj).mono (hkeep h' hne)

theorem Inv.put {events : List Event} (hsafe : Safe (events.reverse ++ s.log))
    (hkeep : ∀ p, (owner s.log p).isSome → owner (events.reverse ++ s.log) p = owner s.log p) : Inv ((s.logged events).putHelper i h) := by
  obtain ⟨hlt, hout⟩ := hi.held i h hh
  have hother : ∀ j h', (setAt s.launches i .returned j).helper = some h' → j ≠ i ∧ (s.launches j).helper = some h' := by
    intro j h' hj
    by_cases hji : j = i
    · rw [hji, setAt_self] at hj
      cases hj
    · rw [setAt_ne _ _ hji] at hj
      exact ⟨hji, hj⟩
  refine ⟨List.nodup_cons.mpr ⟨hout, hi.nodup⟩, List.forall_mem_cons.mpr ⟨hlt, hi.free_lt⟩, ?_, ?_, ?_, hi.distinct, hi.apart, ?_, hsafe⟩
  · intro j h' hj
    obtain ⟨hji, hj⟩ := hother j h' hj
    refine ⟨(hi.held j h' hj).1, fun hm => ?_⟩
    rcases List.mem_cons.mp hm with heq | hm
    · exact hji (hi.unique j i h (heq ▸ hj) hh)
    · exact (hi.held j h' hj).2 hm
  · exact hi.unique.setAt nofun
  · intro h' info hm
    change (owner (events.reverse ++ s.log) info.devicePtr).isSome
    rw [hkeep _ (hi.live h' info hm)]
    exact hi.live h' info hm
  · intro j h' hj
    obtain ⟨hji, hj'⟩ := hother j h' hj
    change PhaseOk (events.reverse ++ s.log) j (s.helpers h') (setAt s.launches i .returned j)
    rw [setAt_ne _ _ hji]
    exact (hi.phase j h' hj').mono fun info hm => hkeep _ (hi.live h' info hm)

theorem Inv.move {events : List Event} {phase : Phase} (hphase : phase.helper = some h) (hsafe : Safe (events.reverse ++ s.log))
    (hkeep : ∀ p, owner (events.reverse ++ s.log) p = owner s.log p) (hok : PhaseOk s.log i (s.helpers h) phase) :
    Inv ((s.logged events).setPhase i phase) := by
  have hsame : ((s.logged events).setHelper h (s.helpers h)).setPhase i phase = (s.logged events).setPhase i phase := by
    have hhelpers : setAt s.helpers h (s.helpers h) = s.helpers := by
      funext h'
      by_cases hne : h' = h
      · rw [hne, setAt_self]
      · rw [setAt_ne _ _ hne]
    rw [State.setHelper, State.logged, hhelpers]
  rw [← hsame]
  refine hi.update hh hphase hsafe (fun p _ _ => hkeep p) (fun info hm => ?_) (hi.distinct h) (fun _ hm => .inl hm) (hok.mono fun _ _ => hkeep _)
  rw [hkeep]
  exact hi.live h info hm

end

theorem Inv.begin {s : State} (hi : Inv s) (i : Nat) (args : List PyObj) : Inv (s.getHelper i args) := by
  -- the new helper is neither free nor drawn
  have hdraw : ∀ {h created : Nat} {freelist : List Nat}, freelist.Nodup → (∀ h' ∈ freelist, h' < created) → h < created → h ∉ freelist →
      (∀ h', h' ∈ freelist → h' ∈ s.freelist) → s.created ≤ created → (∀ j, (s.launches j).helper ≠ some h) →
      Inv ({ s with created := created, freelist := freelist }.setPhase i (.started h args)) := by
    intro h created freelist hnodup hfree hlt hout hsub hle hnew
    refine ⟨hnodup, hfree, ?_, ?_, hi.live, hi.distinct, hi.apart, ?_, hi.safe⟩
    · intro j h' hj
      change (setAt s.launches i (.started h args) j).helper = some h' at hj
      by_cases hji : j = i
      · rw [hji, setAt_self] at hj
        cases hj
        exact ⟨hlt, hout⟩
      · rw [setAt_ne _ _ hji] at hj
        obtain ⟨hlt', hout'⟩ := hi.held j h' hj
        exact ⟨Nat.lt_of_lt_of_le hlt' hle, fun hm => hout' (hsub h' hm)⟩
    · refine hi.unique.setAt fun k hk j _ hj => ?_
      cases hk
      exact hnew j hj
    · intro j h' hj
      change (setAt s.launches i (.started h args) j).helper = some h' at hj
      change PhaseOk s.log j (s.helpers h') (setAt s.launches i (.started h args) j)
      by_cases hji : j = i
      · rw [hji, setAt_self]
        trivial
      · rw [setAt_ne _ _ hji] at hj ⊢
        exact hi.phase j h' hj
  unfold State.getHelper
  cases hf : s.freelist with
  | nil =>
    exact @hdraw s.created (s.created + 1) [] List.nodup_nil nofun (Nat.lt_succ_self _) nofun nofun (Nat.le_succ _)
      fun j hj => Nat.lt_irrefl _ (hi.held j _ hj).1
  | cons h freelist =>
    have hnodup := hi.nodup
    rw [hf, List.nodup_cons] at hnodup
    have hmem : ∀ h' ∈ freelist, h' ∈ s.freelist := fun h' hm => hf ▸ List.mem_cons_of_mem h hm
    have hhead : h ∈ s.freelist := hf ▸ List.mem_cons_self
    exact hdraw hnodup.2 (fun h' hm => hi.free_lt h' (hmem h' hm)) (hi.free_lt h hhead) hnodup.1 hmem (Nat.le_refl _)
      fun j hj => (hi.held j h hj).2 hhead

/-! ## Driver calls -/

theorem numpyVoidCalls_error {driver : Driver} {arg : PyObj} (i : Nat) {helper : LaunchHelper} {e : Fail}
    (h : extractNumpyVoid driver arg helper = .error e) : numpyVoidCalls i driver arg = [] ∨
      ∃ size p, driver.memAlloc size = .ok p ∧ numpyVoidCalls i driver arg = [.alloc i p, .free p] := by
  cases arg with
  | npVoid r =>
    simp only [numpyVoidCalls]
    simp only [extractNumpyVoid] at h
    generalize pylongAsInt r.hostPtr = host at h ⊢
    generalize pylongAsInt r.itemsize = size at h ⊢
    cases host with
    | error e => exact .inl rfl
    | ok hostPtr =>
      cases size with
      | error e => exact .inl rfl
      | ok recordSize =>
        change (if recordSize ≤ 0 then _ else _) = _ at h
        by_cases hpos : recordSize ≤ 0
        · exact .inl (if_pos hpos)
        · simp only [if_neg hpos] at h ⊢
          cases halloc : driver.memAlloc recordSize with
          | error name => exact .inl rfl
          | ok p =>
            cases hcopy : driver.memcpyHtoD p hostPtr recordSize with
            | error name => exact .inr ⟨recordSize, p, halloc, by simp only [hcopy]⟩
            | ok u =>
              simp only [halloc, hcopy] at h
              cases h
  | _ => exact .inl rfl

theorem numpyVoidCalls_ok {driver : Driver} {arg : PyObj} (i : Nat) {helper own : LaunchHelper} (h : extractNumpyVoid driver arg helper = .ok own) :
    ∃ info size, own.recordCopies = helper.recordCopies ++ [info] ∧ driver.memAlloc size = .ok info.devicePtr ∧
      numpyVoidCalls i driver arg = [.alloc i info.devicePtr] := by
  cases arg with
  | npVoid r =>
    unfold numpyVoidCalls
    obtain ⟨hostPtr, hp, h⟩ := bind_eq_ok.mp h
    obtain ⟨recordSize, hsize, h⟩ := bind_eq_ok.mp h
    split at h
    · cases h
    · next hpos =>
      split at h
      · cases h
      · next p halloc =>
        split at h
        · cases h
        · next hcopy =>
          cases h
          exact ⟨⟨hostPtr, p, recordSize⟩, recordSize, rfl, halloc, by simp only [hp, hsize, if_neg hpos, halloc, hcopy]⟩
  | _ => cases h

theorem extractCalls_error {driver : Driver} {kind : PythonArgKind} {arg : PyObj} (i : Nat) {flag : Bool} {helper : LaunchHelper} {e : Fail}
    (h : extractCudaArg driver kind arg flag helper = .error e) : extractCalls i driver kind arg = [] ∨
      ∃ size p, driver.memAlloc size = .ok p ∧ extractCalls i driver kind arg = [.alloc i p, .free p] := by
  unfold extractCalls
  by_cases hk : kind = .numpyVoid
  · subst hk
    rw [if_pos rfl]
    exact numpyVoidCalls_error i h
  · exact .inl (if_neg hk)

theorem kernelArgs_cons (i : Nat) (v : CudaArg) (params : List CudaArg) (log : List Event) :
    ((v :: params).map (Event.kernelArg i)).reverse ++ log = (params.map (.kernelArg i)).reverse ++ .kernelArg i v :: log := by
  rw [List.map_cons, List.reverse_cons, List.append_assoc, List.singleton_append]

theorem owner_kernelArgs (i : Nat) (p : Int) : ∀ (params : List CudaArg) (log : List Event),
    owner ((params.map (.kernelArg i)).reverse ++ log) p = owner log p
  | [], _ => rfl
  | v :: params, log => by
    rw [kernelArgs_cons, owner_kernelArgs i p params]
    rfl

theorem safe_kernelArgs {i : Nat} : ∀ {params : List CudaArg} {log : List Event}, Safe log →
    (∀ v ∈ params, ∃ p, v = cudaArgDevicePtr p ∧ owner log p = some i) → Safe ((params.map (.kernelArg i)).reverse ++ log)
  | [], _, hs, _ => hs
  | v :: params, log, hs, hp => by
    rw [kernelArgs_cons]
    exact safe_kernelArgs ⟨hp v List.mem_cons_self, hs⟩ fun w hw => hp w (List.mem_cons_of_mem v hw)

/-! ## Parameters of records -/

theorem passed_append {done : List PythonArgKind} {driver : Driver} {kind : PythonArgKind} {arg : PyObj} {flag : Bool} {helper own : LaunchHelper}
    (hp : Passed done helper) (hx : Extracted driver kind arg flag own) : Passed (done ++ [kind]) (helper.append own) := by
  have hmetas : (helper.append own).argMetadata = helper.argMetadata ++ [argRecord kind arg helper.cuargs.length] := by
    rw [LaunchHelper.append, hx.record]
    rfl
  constructor
  · rw [hmetas, List.length_append, List.length_append, hp.length]
    rfl
  · intro k m hm hk
    rw [hmetas, List.zip_append hp.length] at hm
    rcases List.mem_append.mp hm with hold | hnew
    · obtain ⟨hscalar, info, hinfo, hentry⟩ := hp.buffer k m hold hk
      refine ⟨hscalar, info, List.mem_append_left _ hinfo, ?_⟩
      rw [LaunchHelper.append, List.getElem?_append_left (List.getElem?_eq_some_iff.mp hentry).1]
      exact hentry
    · obtain ⟨rfl, rfl⟩ := Prod.mk.inj (List.mem_singleton.mp hnew)
      subst hk
      obtain ⟨info, hcopies, hcuargs⟩ := hx.buffer rfl
      refine ⟨rfl, info, List.mem_append_right _ (hcopies ▸ List.mem_singleton_self info), ?_⟩
      rw [LaunchHelper.append, hcuargs]
      exact List.getElem?_concat_length

theorem recordParams_mem {kinds : List PythonArgKind} {helper : LaunchHelper} (hp : Passed kinds helper) {v : CudaArg}
    (hv : v ∈ recordParams kinds helper) : ∃ info ∈ helper.recordCopies, v = cudaArgDevicePtr info.devicePtr := by
  obtain ⟨⟨kind, m⟩, hm, hv⟩ := List.mem_flatMap.mp hv
  simp only at hv
  split at hv
  · next hk =>
    obtain ⟨hscalar, info, hinfo, hentry⟩ := hp.buffer kind m hm hk
    have hpointers : m.pointers helper.cuargs = [.slot m.startIdx] := by rw [ArgMetadata.pointers, hscalar]
    rw [hpointers, List.map_singleton, List.mem_singleton, paramValue, List.getD_eq_getElem?_getD, hentry] at hv
    exact ⟨info, hinfo, hv⟩
  · exact absurd hv List.not_mem_nil

theorem recordParamsFast_eq_nil {kinds : List PythonArgKind} (h : .numpyVoid ∉ kinds) (pooled : PooledHelper) : recordParamsFast kinds pooled = [] := by
  refine List.flatMap_eq_nil_iff.mpr fun (kind, param) hm => ?_
  have hk : kind ≠ .numpyVoid := fun hk => h (hk ▸ (List.of_mem_zip hm).1)
  simp only [if_neg hk]

/-! ## Steps keep the invariant -/

/-- `cuMemAlloc` gives no buffer that is still in use. -/
def Fresh (s : State) : Action → Prop
  | .extract _ driver => ∀ size p, driver.memAlloc size = .ok p → owner s.log p = none
  | _ => True

theorem scalarExtractors_kinds : ∀ {kinds : List PythonArgKind} {flags : List Bool} {exs : List ScalarExtractor},
    scalarExtractors kinds flags = some exs → .numpyVoid ∉ kinds
  | [], _, _, _ => List.not_mem_nil
  | kind :: kinds, flags, exs, h => by
    rw [scalarExtractors] at h
    split at h
    · cases h
    · split at h
      · cases h
      · next ex hex =>
        obtain ⟨rest, hrest, -⟩ := Option.map_eq_some_iff.mp h
        intro hm
        rcases List.mem_cons.mp hm with rfl | hm
        · cases hex
        · exact scalarExtractors_kinds hrest hm

section
variable {s s' : State} (hi : Inv s) {i h : Nat}
include hi

theorem prepare_inv {args : List PyObj} (hp : s.launches i = .started h args) (profile : PythonArgProfile) : Inv (prepare s i h args profile) := by
  have hh : (s.launches i).helper = some h := by rw [hp]; rfl
  have hsafe := safe_frees hi.safe (hi.live h) (hi.distinct h)
  unfold prepare
  by_cases hfast : profile.fastExtractors.isEmpty
  · simp only [if_pos hfast]
    exact hi.update hh rfl hsafe (fun p hne _ => owner_frees hne) (List.forall_mem_nil _) List.nodup_nil (List.forall_mem_nil _)
      ⟨List.forall_mem_nil _, rfl, nofun⟩
  · simp only [if_neg hfast]
    refine hi.update hh rfl hsafe (fun p hne _ => owner_frees hne) (List.forall_mem_nil _) List.nodup_nil (List.forall_mem_nil _)
      ⟨List.forall_mem_nil _, ?_⟩
    cases hexs : scalarExtractors profile.argKinds profile.constantArgFlags with
    | none =>
      rw [PythonArgProfile.fastExtractors, hexs] at hfast
      exact absurd rfl hfast
    | some exs => exact scalarExtractors_kinds hexs

theorem extract_inv {done : List PythonArgKind} {args : List PyObj} {kinds : List PythonArgKind} {flags : List Bool} {driver : Driver}
    (hp : s.launches i = .extracting h done args kinds flags) (hfresh : ∀ size p, driver.memAlloc size = .ok p → owner s.log p = none)
    (hs : extract s i h done driver args kinds flags = some s') : Inv s' := by
  have hh : (s.launches i).helper = some h := by rw [hp]; rfl
  have hok := hi.phase i h hh
  rw [hp] at hok
  obtain ⟨hmine, hpassed⟩ := hok
  -- a new buffer takes the place of no other
  have hkeep : ∀ {size p}, driver.memAlloc size = .ok p → ∀ q, (owner s.log q).isSome → q ≠ p := by
    intro size p halloc q hq heq
    rw [heq, hfresh size p halloc] at hq
    cases hq
  match args, kinds with
  | [], kinds =>
    cases hs
    exact @Inv.move s hi i h hh [] _ rfl hi.safe (fun _ => rfl) ⟨hmine, hpassed⟩
  | _ :: _, [] => cases hs
  | arg :: args, kind :: kinds =>
    rw [extract] at hs
    cases hrun : extractCudaArg driver kind arg (flags.headD false) (s.helpers h).helper with
    | error e =>
      rw [hrun] at hs
      cases e with
      | undefined => cases hs
      | raised exc =>
        cases hs
        rcases extractCalls_error i hrun with hnone | ⟨size, p, halloc, hcalls⟩
        · rw [hnone]
          exact hi.put hh hi.safe fun _ _ => rfl
        · rw [hcalls]
          refine hi.put hh ⟨⟨i, if_pos rfl⟩, trivial, hi.safe⟩ fun q hq => ?_
          exact (if_neg (hkeep halloc q hq)).trans (if_neg (hkeep halloc q hq))
    | ok helper' =>
      rw [hrun] at hs
      cases hs
      rw [extractCudaArg_append] at hrun
      cases hown : extractCudaArg driver kind arg (flags.headD false) .empty with
      | error e => rw [hown] at hrun; cases hrun
      | ok own =>
        rw [hown] at hrun
        cases hrun
        have hx := extractCudaArg_extracted hown
        have hpassed' := passed_append hpassed hx
        by_cases hk : kind = .numpyVoid
        · subst hk
          obtain ⟨info, size, hcopies, halloc, hcalls⟩ := numpyVoidCalls_ok i hown
          have hevents : extractCalls i driver .numpyVoid arg = [.alloc i info.devicePtr] := hcalls
          have hnew : ∀ info' ∈ copies { s.helpers h with helper := (s.helpers h).helper.append own },
              info' ∈ copies (s.helpers h) ∨ info' = info := by
            intro info' hm
            rcases List.mem_append.mp hm with hold | hm
            · exact .inl hold
            · rw [hcopies] at hm
              exact .inr (List.mem_singleton.mp hm)
          have hmine' : Mine (.alloc i info.devicePtr :: s.log) i { s.helpers h with helper := (s.helpers h).helper.append own } := by
            intro info' hm
            rcases hnew info' hm with hold | rfl
            · exact (if_neg (hkeep halloc _ (hi.live h info' hold))).trans (hmine info' hold)
            · exact if_pos rfl
          rw [hevents]
          refine hi.update hh rfl ⟨trivial, hi.safe⟩ (fun q _ hq => if_neg (hkeep halloc q hq)) (fun info' hm => ?_) ?_ (fun info' hm => ?_)
            ⟨hmine', hpassed'⟩
          · exact Option.isSome_iff_exists.mpr ⟨i, hmine' info' hm⟩
          · have hmap : (copies { s.helpers h with helper := (s.helpers h).helper.append own }).map (·.devicePtr) =
                (copies (s.helpers h)).map (·.devicePtr) ++ [info.devicePtr] := by
              change ((s.helpers h).helper.recordCopies ++ own.recordCopies).map (·.devicePtr) = _
              rw [hcopies, List.map_append]
              rfl
            rw [hmap, List.nodup_append]
            refine ⟨hi.distinct h, List.pairwise_singleton _ _, fun p hp q hq => ?_⟩
            obtain ⟨info', hold, rfl⟩ := List.mem_map.mp hp
            rw [List.mem_singleton.mp hq]
            exact hkeep halloc _ (hi.live h info' hold)
          · rcases hnew info' hm with hold | rfl
            · exact .inl hold
            · exact .inr (hfresh size _ halloc)
        · have hevents : extractCalls i driver kind arg = [] := if_neg hk
          have hsame : copies { s.helpers h with helper := (s.helpers h).helper.append own } = copies (s.helpers h) := by
            change (s.helpers h).helper.recordCopies ++ own.recordCopies = _
            rw [hx.copies hk, List.append_nil]
            rfl
          have hmine' : Mine s.log i { s.helpers h with helper := (s.helpers h).helper.append own } := fun info hm => hmine info (hsame ▸ hm)
          rw [hevents]
          refine hi.update hh rfl hi.safe (fun _ _ _ => rfl) ?_ ?_ ?_ ⟨hmine', hpassed'⟩
          · rw [hsame]
            exact hi.live h
          · rw [hsame]
            exact hi.distinct h
          · rw [hsame]
            exact fun _ hm => .inl hm

theorem store_inv {pooled : PooledHelper} {phase : Phase} (hh : (s.launches i).helper = some h) (hphase : phase.helper = some h)
    (hsame : copies pooled = copies (s.helpers h)) (hok : PhaseOk s.log i pooled phase) : Inv ((s.setHelper h pooled).setPhase i phase) := by
  refine @Inv.update s hi i h hh pooled [] phase hphase hi.safe (fun _ _ _ => rfl) ?_ ?_ ?_ hok
  · rw [hsame]
    exact hi.live h
  · rw [hsame]
    exact hi.distinct h
  · rw [hsame]
    exact fun _ hm => .inl hm

theorem extractFast_inv {kinds : List PythonArgKind} {k : Nat} {args : List PyObj} {exs : List ScalarExtractor}
    (hp : s.launches i = .fast h kinds k args exs) (hs : extractFast s i h kinds k args exs = some s') : Inv s' := by
  have hh : (s.launches i).helper = some h := by rw [hp]; rfl
  have hok := hi.phase i h hh
  rw [hp] at hok
  match args, exs with
  | args, [] =>
    cases args <;> cases hs <;> exact store_inv hi hh rfl rfl hok
  | [], _ :: _ => cases hs
  | arg :: args, ex :: exs =>
    rw [extractFast] at hs
    split at hs
    · cases hs
      exact store_inv hi hh rfl rfl hok
    · cases hs
      exact @Inv.put s hi i h hh [] hi.safe fun _ _ => rfl
    · cases hs

theorem launch_inv {kinds : List PythonArgKind} {fast : Bool} (hp : s.launches i = .ready h kinds fast) : Inv (launch s i h kinds fast) := by
  have hh : (s.launches i).helper = some h := by rw [hp]; rfl
  have hok := hi.phase i h hh
  rw [hp] at hok
  obtain ⟨hmine, hok⟩ := hok
  have hlaunch : ∀ {pooled : PooledHelper} {params : List CudaArg}, copies pooled = copies (s.helpers h) →
      (∀ v ∈ params, ∃ p, v = cudaArgDevicePtr p ∧ owner s.log p = some i) →
      Inv (((s.logged (params.map (.kernelArg i))).setHelper h pooled).setPhase i (.launched h)) := by
    intro pooled params hsame hparams
    have hkeep := fun p => owner_kernelArgs i p params s.log
    refine hi.update hh rfl (safe_kernelArgs hi.safe hparams) (fun p _ _ => hkeep p) ?_ ?_ ?_ ?_
    · intro info hm
      rw [hkeep]
      exact hi.live h info (hsame ▸ hm)
    · rw [hsame]
      exact hi.distinct h
    · rw [hsame]
      exact fun _ hm => .inl hm
    · intro info hm
      rw [hkeep]
      exact hmine info (hsame ▸ hm)
  cases fast with
  | true => exact hlaunch rfl (by rw [if_pos rfl, if_pos rfl, recordParamsFast_eq_nil hok]; exact List.forall_mem_nil _)
  | false =>
    refine hlaunch rfl fun v hv => ?_
    obtain ⟨info, hinfo, rfl⟩ := recordParams_mem hok hv
    exact ⟨info.devicePtr, rfl, hmine info hinfo⟩

end

theorem step_inv {s s' : State} {a : Action} (hi : Inv s) (hfresh : Fresh s a) (hs : step s a = some s') : Inv s' := by
  cases a with
  | begin i args =>
    simp only [step] at hs
    split at hs
    · cases hs
      exact hi.begin i args
    · cases hs
  | prepare i profile =>
    simp only [step] at hs
    split at hs
    · next h args hp =>
      cases hs
      exact prepare_inv hi hp profile
    · cases hs
  | extract i driver =>
    simp only [step] at hs
    split at hs
    · next hp => exact extract_inv hi hp hfresh hs
    · cases hs
  | extractFast i =>
    simp only [step] at hs
    split at hs
    · next hp => exact extractFast_inv hi hp hs
    · cases hs
  | launch i =>
    simp only [step] at hs
    split at hs
    · next hp =>
      cases hs
      exact launch_inv hi hp
    · cases hs
  | synchronize i =>
    simp only [step] at hs
    split at hs
    · next h hp =>
      cases hs
      have hh : (s.launches i).helper = some h := by rw [hp]; rfl
      have hok := hi.phase i h hh
      rw [hp] at hok
      exact @Inv.move s hi i h hh [] _ rfl hi.safe (fun _ => rfl) ⟨hok, fun _ hm => hm⟩
    · cases hs
  | copyBack i =>
    simp only [step] at hs
    split at hs
    · next h info infos hp =>
      cases hs
      have hh : (s.launches i).helper = some h := by rw [hp]; rfl
      have hok := hi.phase i h hh
      rw [hp] at hok
      obtain ⟨hmine, hinfos⟩ := hok
      exact hi.move hh rfl ⟨hmine info (hinfos info List.mem_cons_self), hi.safe⟩ (fun _ => rfl)
        ⟨hmine, fun info' hm => hinfos info' (List.mem_cons_of_mem info hm)⟩
    · cases hs
  | finish i =>
    simp only [step] at hs
    split at hs
    · next h hp =>
      cases hs
      exact @Inv.put s hi i h (by rw [hp]; rfl) [] hi.safe fun _ _ => rfl
    · cases hs
  | fail i =>
    obtain ⟨h, hh, rfl⟩ := Option.map_eq_some_iff.mp hs
    exact @Inv.put s hi i h hh [] hi.safe fun _ _ => rfl

/-- Launches in any order, nested or in threads, and each may fail at any step. -/
theorem record_buffers_safe {actions : List Action} {s : State} (hfresh : StepsOk step Fresh .init actions)
    (h : run step .init actions = some s) : Safe s.log ∧ FreedOnce s.log ∧
      (∀ i j helper, (s.launches i).helper = some helper → (s.launches j).helper = some helper → i = j) ∧
      ∀ i helper, (s.launches i).helper = some helper → helper ∉ s.freelist := by
  have hi : Inv s := run_inv step (fun _ _ _ hi hok hs => step_inv hi hok hs) inv_init hfresh h
  exact ⟨hi.safe, hi.safe.freedOnce, hi.unique, fun i helper hh => (hi.held i helper hh).2⟩

def oneAddress : Driver := ⟨fun _ => none, fun _ => .ok 4096, fun _ _ _ => .ok (), none⟩

def recordProfile : PythonArgProfile := ⟨[.record], [.numpyVoid], [false]⟩

def recordArg : PyObj := .npVoid ⟨false, "x", 8, 16⟩

/-- A launch that completes, then one that fails after its buffer got the address of the first. -/
def twoLaunches : List Action :=
  [.begin 0 [recordArg], .prepare 0 recordProfile, .extract 0 oneAddress, .extract 0 .idle, .launch 0, .synchronize 0, .copyBack 0, .finish 0,
    .begin 1 [recordArg], .prepare 1 recordProfile, .extract 1 oneAddress, .fail 1]

theorem twoLaunches_safe : ∃ s, run step .init twoLaunches = some s ∧
    s.log = [.alloc 1 4096, .free 4096, .copyBack 0 4096, .kernelArg 0 4096, .alloc 0 4096] ∧ Safe s.log ∧ FreedOnce s.log ∧
    (∀ i j helper, (s.launches i).helper = some helper → (s.launches j).helper = some helper → i = j) ∧
    ∀ i helper, (s.launches i).helper = some helper → helper ∉ s.freelist := by
  have hfresh : StepsOk step Fresh .init twoLaunches := by
    have hone : ∀ {log : List Event}, owner log 4096 = none → ∀ (size p : Int), oneAddress.memAlloc size = .ok p → owner log p = none := by
      intro log hlog size p h
      cases h
      exact hlog
    refine stepsOk_cons step rfl trivial (stepsOk_cons step rfl trivial (stepsOk_cons step rfl (hone rfl) (stepsOk_cons step rfl nofun ?_)))
    refine stepsOk_cons step rfl trivial (stepsOk_cons step rfl trivial (stepsOk_cons step rfl trivial (stepsOk_cons step rfl trivial ?_)))
    exact stepsOk_cons step rfl trivial (stepsOk_cons step rfl trivial (stepsOk_cons step rfl (hone rfl) (stepsOk_cons step rfl trivial trivial)))
  exact ⟨_, rfl, rfl, record_buffers_safe hfresh rfl⟩

end NumbaCudaMlir.RecordBuffers

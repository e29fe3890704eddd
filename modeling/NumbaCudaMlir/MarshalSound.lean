import NumbaCudaMlir.Marshal
import Mathlib.Data.List.Nodup

/-!
# Copy-backs

The list of copy-backs is shared by all calls on a marshaller. As long as every
call finds only its own callbacks there, when it runs one and when it clears the
list, each call that returns has run its own callbacks, in order, after its
launch. Calls in sequence do so unless one of them raises with callbacks in the
list; concurrent calls do not.
-/

namespace NumbaCudaMlir.Marshal

open Runs MarshalState

def CallPc.isActive : CallPc → Bool
  | preparing .. | cached _ | copying .. | clearing _ => true
  | _ => false

section
variable (exts : List Extension)

/-! ## The steps -/

inductive Step (s : MarshalState) : CallEvent → MarshalState → Prop
  | begun {i args} : s.calls i = .idle → Step s (.begin i args false) (s.setPc i (.preparing args 0))
  | begunCached {i args} : s.calls i = .idle → ownCallbacks exts i args = [] →
      Step s (.begin i args true) (s.setPc i (.cached args))
  | registered {i args n cb} : s.calls i = .preparing args n → (ownCallbacks exts i args)[n]? = some cb →
      Step s (.register i) ((s.append cb).setPc i (.preparing args (n + 1)))
  | launched {i args} : s.calls i = .preparing args (ownCallbacks exts i args).length →
      Step s (.launch i) ((s.logEntry (.launched i)).setPc i (.copying args 0))
  | launchedCached {i args} : s.calls i = .cached args →
      Step s (.launch i) (((s.logEntry (.launched i)).logEntry (.returned i args)).setPc i (.returned args))
  | ran {i args pos cb} : s.calls i = .copying args pos → s.callbacks[pos]? = some cb →
      Step s (.next i) ((s.logEntry (.ran i cb)).setPc i (.copying args (pos + 1)))
  | ended {i args pos} : s.calls i = .copying args pos → s.callbacks[pos]? = none →
      Step s (.next i) (s.setPc i (.clearing args))
  | cleared {i args} : s.calls i = .clearing args →
      Step s (.clear i) ((s.clearAll.logEntry (.returned i args)).setPc i (.returned args))
  | raised {i} : (s.calls i).isActive = true → Step s (.raise i) (s.setPc i .raised)

theorem registrations_of_passThrough {args : List HostValue} (h : args.all (·.passThrough) = true) :
    registrations [] args = [] := by
  rw [List.all_eq_true] at h
  rw [registrations, List.flatMap_eq_nil_iff]
  intro arg ha
  have hc := HostValue.copyBacks_of_passThrough (h arg ha)
  simp [prepareArg, hc]

theorem step_cases {s s' : MarshalState} {e : CallEvent} (h : step exts s e = some s') : Step exts s e s' := by
  unfold step at h
  cases e with
  | begin i args cached =>
    cases hp : s.calls i with
    | idle =>
      simp only [hp] at h
      cases cached with
      | false => cases h; exact .begun hp
      | true =>
        rw [if_neg (by decide)] at h
        split at h
        · next hc =>
          obtain ⟨he, ha⟩ := hc
          rw [List.isEmpty_iff] at he
          cases h
          exact .begunCached hp (by rw [ownCallbacks, he, registrations_of_passThrough ha]; rfl)
        · cases h
    | _ => simp only [hp] at h; cases h
  | register i =>
    cases hp : s.calls i with
    | preparing args n =>
      simp only [hp, Option.map_eq_some_iff] at h
      obtain ⟨cb, hcb, rfl⟩ := h
      exact .registered hp hcb
    | _ => simp only [hp] at h; cases h
  | launch i =>
    cases hp : s.calls i with
    | preparing args n =>
      simp only [hp] at h
      split at h
      · next hn => cases h; exact .launched (hn ▸ hp)
      · cases h
    | cached args => simp only [hp] at h; cases h; exact .launchedCached hp
    | _ => simp only [hp] at h; cases h
  | next i =>
    cases hp : s.calls i with
    | copying args pos =>
      simp only [hp] at h
      cases hc : s.callbacks[pos]? with
      | some cb => rw [hc] at h; cases h; exact .ran hp hc
      | none => rw [hc] at h; cases h; exact .ended hp hc
    | _ => simp only [hp] at h; cases h
  | clear i =>
    cases hp : s.calls i with
    | clearing args => simp only [hp] at h; cases h; exact .cleared hp
    | _ => simp only [hp] at h; cases h
  | raise i =>
    cases hp : s.calls i with
    | idle | returned | raised => simp only [hp] at h; cases h
    | _ => simp only [hp] at h; cases h; exact .raised (by rw [hp]; rfl)

/-! ## What the calls ran -/

def CallEntry.ranBy? (i : Nat) : CallEntry → Option Callback
  | .ran j cb => if j = i then some cb else none
  | _ => none

def ranBy (i : Nat) (log : List CallEntry) : List Callback := (log.filterMap (CallEntry.ranBy? i)).reverse

/-- Every call ran only its own callbacks, and a call that returned all of them, in order. -/
def OwnCopyBacks (log : List CallEntry) : Prop :=
  (∀ i cb, .ran i cb ∈ log → cb.call = i) ∧
  ∀ i args, .returned i args ∈ log → ranBy i log = ownCallbacks exts i args

/-- Every callback runs once, after the launch of its call and before its call returns. -/
def CopiedOnce : List CallEntry → Prop
  | [] => True
  | .launched _ :: log => CopiedOnce log
  | .ran _ cb :: log => .launched cb.call ∈ log ∧ (∀ j, .ran j cb ∉ log) ∧ CopiedOnce log
  | .returned i args :: log => (∀ cb ∈ ownCallbacks exts i args, ∃ j, .ran j cb ∈ log) ∧ CopiedOnce log

@[simp] theorem ranBy_nil (i : Nat) : ranBy i [] = [] := rfl

@[simp] theorem ranBy_launched (i j : Nat) (log : List CallEntry) : ranBy i (.launched j :: log) = ranBy i log := rfl

@[simp] theorem ranBy_returned (i j : Nat) (args : List HostValue) (log : List CallEntry) :
    ranBy i (.returned j args :: log) = ranBy i log := rfl

theorem ranBy_self (i : Nat) (cb : Callback) (log : List CallEntry) :
    ranBy i (.ran i cb :: log) = ranBy i log ++ [cb] := by simp [ranBy, CallEntry.ranBy?]

theorem ranBy_ne {i j : Nat} (h : j ≠ i) (cb : Callback) (log : List CallEntry) :
    ranBy i (.ran j cb :: log) = ranBy i log := by simp [ranBy, CallEntry.ranBy?, h]

theorem mem_ranBy {i : Nat} {cb : Callback} {log : List CallEntry} : cb ∈ ranBy i log ↔ .ran i cb ∈ log := by
  rw [ranBy, List.mem_reverse, List.mem_filterMap]
  constructor
  · rintro ⟨e, he, hcb⟩
    cases e with
    | ran j c =>
      rw [CallEntry.ranBy?] at hcb
      split at hcb
      · next hj => cases hcb; exact hj ▸ he
      · cases hcb
    | _ => cases hcb
  · intro h
    exact ⟨_, h, if_pos rfl⟩

/-! ## Own callbacks -/

theorem ownCallbacks_call {i : Nat} {args : List HostValue} {cb : Callback} (h : cb ∈ ownCallbacks exts i args) :
    cb.call = i := by
  rw [ownCallbacks, List.mem_mapIdx] at h
  obtain ⟨k, hk, rfl⟩ := h
  rfl

theorem ownCallbacks_nodup (i : Nat) (args : List HostValue) : (ownCallbacks exts i args).Nodup := by
  rw [List.nodup_iff_injective_getElem]
  intro a b hab
  simp only [ownCallbacks, List.getElem_mapIdx, Callback.mk.injEq] at hab
  exact Fin.ext hab.2.1

def ownPart (i : Nat) (callbacks : List Callback) : List Callback := callbacks.filter fun cb => cb.call = i

theorem ownPart_append (i : Nat) (callbacks : List Callback) (cb : Callback) :
    ownPart i (callbacks ++ [cb]) = ownPart i callbacks ++ if cb.call = i then [cb] else [] := by
  rw [ownPart, List.filter_append, ← ownPart]
  by_cases h : cb.call = i <;> simp [h]

theorem ownPart_eq_self {i : Nat} {callbacks : List Callback} (h : ∀ cb ∈ callbacks, cb.call = i) :
    ownPart i callbacks = callbacks := List.filter_eq_self.mpr fun cb hcb => decide_eq_true (h cb hcb)

theorem ownPart_eq_nil {i j : Nat} {callbacks : List Callback} (h : ∀ cb ∈ callbacks, cb.call = i) (hne : j ≠ i) :
    ownPart j callbacks = [] := by
  refine List.filter_eq_nil_iff.mpr ?_
  intro cb hcb hj
  exact hne ((of_decide_eq_true hj).symm.trans (h cb hcb))

/-! ## The invariant -/

/-- A call runs only its own callbacks, and clears the list only when nothing else is in it. -/
def OwnOnly (s : MarshalState) : CallEvent → Prop
  | .next i =>
    match s.calls i with
    | .copying _ pos => ∀ cb, s.callbacks[pos]? = some cb → cb.call = i
    | _ => True
  | .clear i => ∀ cb ∈ s.callbacks, cb.call = i
  | _ => True

def CallOk (callbacks : List Callback) (log : List CallEntry) (i : Nat) : CallPc → Prop
  | .idle => ownPart i callbacks = [] ∧ ranBy i log = []
  | .preparing args n => ownPart i callbacks = (ownCallbacks exts i args).take n ∧ ranBy i log = []
  | .cached args => ownPart i callbacks = [] ∧ ranBy i log = [] ∧ ownCallbacks exts i args = []
  | .copying args pos => ownPart i callbacks = ownCallbacks exts i args ∧ ranBy i log = callbacks.take pos ∧
      pos ≤ callbacks.length ∧ .launched i ∈ log
  | .clearing args => ownPart i callbacks = ownCallbacks exts i args ∧ ranBy i log = ownCallbacks exts i args
  | .returned args => ownPart i callbacks = [] ∧ ranBy i log = ownCallbacks exts i args
  | .raised => True

structure Inv (s : MarshalState) : Prop where
  calls : ∀ i, CallOk exts s.callbacks s.log i (s.calls i)
  own : ∀ i cb, .ran i cb ∈ s.log → cb.call = i
  returned : ∀ i args, .returned i args ∈ s.log → s.calls i = .returned args
  once : CopiedOnce exts s.log

theorem inv_init : Inv exts .init where
  calls _ := ⟨rfl, rfl⟩
  own := nofun
  returned := nofun
  once := trivial

variable {exts}

theorem CallOk.frame {callbacks callbacks' : List Callback} {log log' : List CallEntry} {j : Nat} {pc : CallPc}
    (h : CallOk exts callbacks log j pc) (hown : ownPart j callbacks' = ownPart j callbacks)
    (hran : ranBy j log' = ranBy j log)
    (hpos : ∀ args pos, pc = .copying args pos → pos ≤ callbacks.length → ranBy j log = callbacks.take pos →
      callbacks'.take pos = callbacks.take pos ∧ pos ≤ callbacks'.length)
    (hlog : .launched j ∈ log → .launched j ∈ log') : CallOk exts callbacks' log' j pc := by
  cases pc with
  | copying args pos =>
    obtain ⟨ho, hr, hle, hl⟩ := h
    obtain ⟨htake, hle'⟩ := hpos args pos rfl hle hr
    exact ⟨hown ▸ ho, by rw [hran, hr, htake], hle', hlog hl⟩
  | raised => trivial
  | _ =>
    simp only [CallOk] at h ⊢
    rw [hown, hran]
    exact h

theorem Inv.move {s : MarshalState} (h : Inv exts s) {i : Nat} {pc : CallPc} {callbacks : List Callback}
    {log : List CallEntry} (hi : CallOk exts callbacks log i pc)
    (hframe : ∀ j, j ≠ i → CallOk exts s.callbacks s.log j (s.calls j) → CallOk exts callbacks log j (s.calls j))
    (hown : ∀ j cb, .ran j cb ∈ log → cb.call = j)
    (hret : ∀ j args, .returned j args ∈ log → .returned j args ∈ s.log ∧ j ≠ i ∨ j = i ∧ pc = .returned args)
    (honce : CopiedOnce exts log) : Inv exts ⟨callbacks, setAt s.calls i pc, log⟩ where
  calls := setAt_forall hi h.calls hframe
  own := hown
  returned := by
    intro j args hm
    rcases hret j args hm with ⟨hm, hne⟩ | ⟨rfl, rfl⟩
    · exact (setAt_ne s.calls pc hne).trans (h.returned j args hm)
    · exact setAt_self s.calls j _
  once := honce

theorem Inv.not_returned {s : MarshalState} (h : Inv exts s) {i : Nat}
    (hi : (s.calls i).isActive = true ∨ s.calls i = .idle) {j : Nat} {args : List HostValue} (hm : .returned j args ∈ s.log) : j ≠ i := by
  intro hj
  subst hj
  rw [h.returned j args hm] at hi
  rcases hi with hi | hi <;> cases hi

theorem Inv.setPc {s : MarshalState} (h : Inv exts s) {i : Nat} {pc : CallPc}
    (hi : (s.calls i).isActive = true ∨ s.calls i = .idle) (hpc : CallOk exts s.callbacks s.log i pc) :
    Inv exts (s.setPc i pc) :=
  h.move hpc (fun _ _ hj => hj) h.own (fun _ _ hm => .inl ⟨hm, h.not_returned hi hm⟩) h.once

theorem inv_step {s s' : MarshalState} {e : CallEvent} (h : Inv exts s) (hok : OwnOnly s e) (hs : Step exts s e s') :
    Inv exts s' := by
  have hcall {i : Nat} {pc : CallPc} (hi : s.calls i = pc) : CallOk exts s.callbacks s.log i pc := hi ▸ h.calls i
  have hactive {i : Nat} {pc : CallPc} (hi : s.calls i = pc) (ha : pc.isActive = true ∨ pc = .idle) :
      (s.calls i).isActive = true ∨ s.calls i = .idle := by rw [hi]; exact ha
  cases hs with
  | begun hi =>
    obtain ⟨ho, hr⟩ := hcall hi
    exact h.setPc (.inr hi) ⟨ho, hr⟩
  | begunCached hi hnone =>
    obtain ⟨ho, hr⟩ := hcall hi
    exact h.setPc (.inr hi) ⟨ho, hr, hnone⟩
  | @registered i args n cb hi hcb =>
    obtain ⟨ho, hr⟩ := hcall hi
    have hcb_call := ownCallbacks_call exts (List.mem_of_getElem? hcb)
    refine h.move ⟨?_, hr⟩ ?_ h.own ?_ h.once
    · rw [MarshalState.append, ownPart_append, ho, if_pos hcb_call, List.take_add_one, hcb]
      rfl
    · intro j hj hjok
      refine hjok.frame ?_ rfl ?_ id
      · rw [MarshalState.append, ownPart_append, if_neg (fun hc => hj (hc.symm.trans hcb_call)), List.append_nil]
      · intro args pos _ hle _
        refine ⟨List.take_append_of_le_length hle, ?_⟩
        rw [MarshalState.append, List.length_append]
        exact Nat.le_add_right_of_le hle
    · intro j args hm
      exact .inl ⟨hm, h.not_returned (hactive hi (.inl rfl)) hm⟩
  | @launched i args hi =>
    obtain ⟨ho, hr⟩ := hcall hi
    rw [List.take_length] at ho
    refine h.move ⟨ho, hr, Nat.zero_le _, List.mem_cons_self⟩ ?_ ?_ ?_ h.once
    · intro j _ hjok
      exact hjok.frame rfl rfl (fun _ _ _ hle _ => ⟨rfl, hle⟩) (List.mem_cons_of_mem _)
    · intro j cb hm
      cases hm with
      | tail _ hm => exact h.own j cb hm
    · intro j args hm
      cases hm with
      | tail _ hm => exact .inl ⟨hm, h.not_returned (hactive hi (.inl rfl)) hm⟩
  | @launchedCached i args hi =>
    obtain ⟨ho, hr, hnone⟩ := hcall hi
    refine h.move ⟨ho, hr.trans hnone.symm⟩ ?_ ?_ ?_ ⟨?_, h.once⟩
    · intro j _ hjok
      exact hjok.frame rfl rfl (fun _ _ _ hle _ => ⟨rfl, hle⟩)
        fun hl => List.mem_cons_of_mem _ (List.mem_cons_of_mem _ hl)
    · intro j cb hm
      cases hm with
      | tail _ hm => cases hm with
        | tail _ hm => exact h.own j cb hm
    · intro j args' hm
      cases hm with
      | head => exact .inr ⟨rfl, rfl⟩
      | tail _ hm => cases hm with
        | tail _ hm => exact .inl ⟨hm, h.not_returned (hactive hi (.inl rfl)) hm⟩
    · rw [hnone]
      exact List.forall_mem_nil _
  | @ran i args pos cb hi hcb =>
    obtain ⟨ho, hr, -, hl⟩ := hcall hi
    simp only [OwnOnly, hi] at hok
    have hcb_call := hok cb hcb
    have htake : s.callbacks.take (pos + 1) = s.callbacks.take pos ++ [cb] := by rw [List.take_add_one, hcb]; rfl
    refine h.move ⟨ho, ?_, (List.getElem?_eq_some_iff.mp hcb).1, List.mem_cons_of_mem _ hl⟩ ?_ ?_ ?_
      ⟨hcb_call ▸ hl, ?_, h.once⟩
    · refine (ranBy_self i cb s.log).trans ?_
      rw [hr]
      exact htake.symm
    · intro j hj hjok
      exact hjok.frame rfl (ranBy_ne (Ne.symm hj) cb s.log) (fun _ _ _ hle _ => ⟨rfl, hle⟩) (List.mem_cons_of_mem _)
    · intro j cb' hm
      cases hm with
      | head => exact hcb_call
      | tail _ hm => exact h.own j cb' hm
    · intro j args' hm
      cases hm with
      | tail _ hm => exact .inl ⟨hm, h.not_returned (hactive hi (.inl rfl)) hm⟩
    · intro j hm
      obtain rfl : j = i := (h.own j cb hm).symm.trans hcb_call
      -- The list up to this callback is a part of the call's own callbacks, which are distinct.
      have hall : ∀ c ∈ s.callbacks.take pos ++ [cb], c.call = j := by
        refine List.forall_mem_append.mpr ⟨?_, List.forall_mem_singleton.mpr hcb_call⟩
        intro c hc
        exact h.own j c (mem_ranBy.mp (hr ▸ hc))
      have hsub : (s.callbacks.take pos ++ [cb]).Sublist (ownCallbacks exts j args) := by
        have hfilter : (ownPart j (s.callbacks.take (pos + 1))).Sublist (ownPart j s.callbacks) :=
          (List.take_sublist (pos + 1) s.callbacks).filter _
        rw [htake, ownPart_eq_self hall, ho] at hfilter
        exact hfilter
      have hnodup := (ownCallbacks_nodup exts j args).sublist hsub
      have hnot : cb ∉ s.callbacks.take pos := by
        intro hc
        exact (List.nodup_append.mp hnodup).2.2 cb hc cb (List.mem_singleton.mpr rfl) rfl
      exact hnot (hr ▸ mem_ranBy.mpr hm)
  | @ended i args pos hi hnone =>
    obtain ⟨ho, hr, -, -⟩ := hcall hi
    rw [List.take_of_length_le (List.getElem?_eq_none_iff.mp hnone)] at hr
    have hself : ownPart i s.callbacks = s.callbacks :=
      ownPart_eq_self fun cb hcb => h.own i cb (mem_ranBy.mp (hr ▸ hcb))
    exact h.setPc (hactive hi (.inl rfl)) ⟨ho, by rw [hr, ← hself, ho]⟩
  | @cleared i args hi =>
    obtain ⟨ho, hr⟩ := hcall hi
    have hok : ∀ cb ∈ s.callbacks, cb.call = i := hok
    refine h.move ⟨rfl, hr⟩ ?_ ?_ ?_ ⟨?_, h.once⟩
    · intro j hj hjok
      refine hjok.frame (ownPart_eq_nil hok hj).symm rfl ?_ (List.mem_cons_of_mem _)
      intro args' pos _ hle hrj
      -- Nothing of another call is in the list, so that call is at its start.
      have htake : s.callbacks.take pos = [] := by
        refine List.eq_nil_iff_forall_not_mem.mpr ?_
        intro cb hcb
        have hcb_call := h.own j cb (mem_ranBy.mp (hrj ▸ hcb))
        exact hj (hcb_call.symm.trans (hok cb (List.mem_of_mem_take hcb)))
      have hzero := congrArg List.length htake
      rw [List.length_take, List.length_nil, Nat.min_eq_left hle] at hzero
      exact ⟨by rw [htake]; exact List.take_nil, hzero.le⟩
    · intro j cb hm
      cases hm with
      | tail _ hm => exact h.own j cb hm
    · intro j args' hm
      cases hm with
      | head => exact .inr ⟨rfl, rfl⟩
      | tail _ hm => exact .inl ⟨hm, h.not_returned (hactive hi (.inl rfl)) hm⟩
    · intro cb hcb
      exact ⟨i, mem_ranBy.mp (hr ▸ hcb)⟩
  | raised hi => exact h.setPc (.inl hi) trivial

theorem Inv.ownCopyBacks {s : MarshalState} (h : Inv exts s) : OwnCopyBacks exts s.log := by
  refine ⟨h.own, ?_⟩
  intro i args hm
  have hcall := h.calls i
  rw [h.returned i args hm] at hcall
  exact hcall.2

/-! ## Concurrent calls -/

/-- **Concurrent calls.** In every run whose calls run and clear only their own callbacks, every
callback runs once, after the launch of its call and before that call returns. -/
theorem copied_back_once {es : List CallEvent} {s : MarshalState} (hok : StepsOk (step exts) OwnOnly .init es)
    (hr : run (step exts) .init es = some s) : CopiedOnce exts s.log :=
  (run_inv (step exts) (fun _ _ _ hi hok hs => inv_step hi hok (step_cases exts hs)) (inv_init exts) hok hr).once

def hostCall (i : Nat) : CallEvent :=
  .begin i [.hostArray ⟨i, ⟨.numeric .float .s4, [1], [4], rfl, 0⟩⟩] false

def mixedCalls : List CallEvent :=
  [hostCall 0, .register 0, hostCall 1, .register 1, .launch 0, .next 0, .next 0, .next 0, .clear 0,
    .launch 1, .next 1, .clear 1]

theorem concurrent_calls_mix_copy_backs : ∃ s, run (step []) .init mixedCalls = some s ∧ ¬ CopiedOnce [] s.log := by
  refine ⟨_, rfl, ?_⟩
  intro h
  have hran := h.2.2.1
  rcases List.mem_pair.mp hran with hl | hl <;> cases hl

/-- A call of device arrays begins and ends while another call prepares a host array. -/
def nestedCalls : List CallEvent :=
  [hostCall 0, .begin 1 [] false, .launch 1, .next 1, .clear 1, .register 0, .launch 0, .next 0, .next 0, .clear 0]

theorem nested_call_copied_back : ∃ s, run (step []) .init nestedCalls = some s ∧ CopiedOnce [] s.log := by
  have hok : StepsOk (step []) OwnOnly .init nestedCalls := by
    refine stepsOk_cons _ rfl trivial (stepsOk_cons _ rfl trivial (stepsOk_cons _ rfl trivial (stepsOk_cons _ rfl ?_
      (stepsOk_cons _ rfl ?_ (stepsOk_cons _ rfl trivial (stepsOk_cons _ rfl trivial (stepsOk_cons _ rfl ?_
        (stepsOk_cons _ rfl ?_ (stepsOk_cons _ rfl ?_ trivial)))))))))
    · intro cb hcb; cases hcb
    · intro cb hcb; cases hcb
    · intro cb hcb; cases hcb; rfl
    · intro cb hcb; cases hcb
    · intro cb hcb; rw [List.mem_singleton.mp hcb]
  exact ⟨_, rfl, copied_back_once hok rfl⟩

/-! ## Calls in sequence -/

/-- A call begins when no other is active, and a call that raises leaves the list empty. -/
def CleanSequence (s : MarshalState) : CallEvent → Prop
  | .begin _ _ _ => ∀ j, (s.calls j).isActive = false
  | .raise _ => s.callbacks = []
  | _ => True

/-- The list has callbacks of the one active call. -/
structure Sequential (s : MarshalState) : Prop where
  active : ∀ cb ∈ s.callbacks, (s.calls cb.call).isActive = true
  alone : ∀ i j, (s.calls i).isActive = true → (s.calls j).isActive = true → i = j

theorem Sequential.own {s : MarshalState} (h : Sequential s) {i : Nat} (hi : (s.calls i).isActive = true) :
    ∀ cb ∈ s.callbacks, cb.call = i :=
  fun cb hcb => h.alone _ _ (h.active cb hcb) hi

theorem Sequential.move {s : MarshalState} (h : Sequential s) {i : Nat} (hi : (s.calls i).isActive = true)
    {pc : CallPc} {callbacks : List Callback} {log : List CallEntry}
    (hcb : ∀ cb ∈ callbacks, cb ∈ s.callbacks ∨ cb.call = i) (hpc : pc.isActive = true ∨ callbacks = []) :
    Sequential ⟨callbacks, setAt s.calls i pc, log⟩ := by
  have hother : ∀ j, (setAt s.calls i pc j).isActive = true → j = i := by
    intro j hj
    by_cases hji : j = i
    · exact hji
    · rw [setAt_ne s.calls pc hji] at hj
      exact h.alone j i hj hi
  refine ⟨?_, fun j k hj hk => (hother j hj).trans (hother k hk).symm⟩
  intro cb hm
  have hcall : cb.call = i := (hcb cb hm).elim (h.own hi cb) id
  rcases hpc with hpc | hpc
  · rw [hcall]
    exact (congrArg CallPc.isActive (setAt_self s.calls i pc)).trans hpc
  · rw [hpc] at hm
    cases hm

theorem ownOnly_of_sequential {s s' : MarshalState} {e : CallEvent} (h : Sequential s) (hs : Step exts s e s') :
    OwnOnly s e := by
  cases hs with
  | ran hi | ended hi =>
    simp only [OwnOnly, hi]
    exact fun cb hcb => h.own (by rw [hi]; rfl) cb (List.mem_of_getElem? hcb)
  | cleared hi => exact h.own (by rw [hi]; rfl)
  | _ => trivial

theorem sequential_step {s s' : MarshalState} {e : CallEvent} (hinv : Inv exts s) (h : Sequential s)
    (hok : CleanSequence s e) (hs : Step exts s e s') : Sequential s' := by
  have hbegin {i : Nat} {pc : CallPc} (hok : ∀ j, (s.calls j).isActive = false) : Sequential (s.setPc i pc) := by
    refine ⟨?_, ?_⟩
    · intro cb hcb
      have hcb := h.active cb hcb
      rw [hok] at hcb
      cases hcb
    · have hother : ∀ j, (setAt s.calls i pc j).isActive = true → j = i := by
        intro j hj
        by_contra hji
        rw [setAt_ne s.calls pc hji, hok] at hj
        cases hj
      exact fun j k hj hk => (hother j hj).trans (hother k hk).symm
  cases hs with
  | begun | begunCached => exact hbegin hok
  | @registered i args n cb hi hcb =>
    refine h.move (by rw [hi]; rfl) ?_ (.inl rfl)
    intro c hc
    rcases List.mem_append.mp hc with hc | hc
    · exact .inl hc
    · rw [List.mem_singleton.mp hc]
      exact .inr (ownCallbacks_call exts (List.mem_of_getElem? hcb))
  | launched hi | ran hi | ended hi => exact h.move (by rw [hi]; rfl) (fun _ => .inl) (.inl rfl)
  | @launchedCached i args hi =>
    -- A cached call has nothing in the list, and the others are not active.
    have hnone : s.callbacks = [] := by
      have hcall := hinv.calls i
      rw [hi] at hcall
      rw [← ownPart_eq_self (h.own (i := i) (by rw [hi]; rfl))]
      exact hcall.1
    exact h.move (by rw [hi]; rfl) (fun _ => .inl) (.inr hnone)
  | cleared hi => exact h.move (by rw [hi]; rfl) (List.forall_mem_nil _) (.inr rfl)
  | raised hi => exact h.move hi (fun _ => .inl) (.inr hok)

/-- **Calls in sequence.** In every sequence of calls of which each raises only while the list is
empty, every call runs only its own callbacks, and each that returns has run them all, in order. -/
theorem calls_run_own {es : List CallEvent} {s : MarshalState} (hok : StepsOk (step exts) CleanSequence .init es)
    (hr : run (step exts) .init es = some s) : OwnCopyBacks exts s.log := by
  have hstep : ∀ s e s', Inv exts s ∧ Sequential s → CleanSequence s e → step exts s e = some s' →
      Inv exts s' ∧ Sequential s' := by
    intro s e s' ⟨hi, h⟩ hok hs
    have hs := step_cases exts hs
    exact ⟨inv_step hi (ownOnly_of_sequential h hs) hs, sequential_step hi h hok hs⟩
  have hinit : Sequential .init := ⟨List.forall_mem_nil _, fun _ _ hi => by cases hi⟩
  exact (run_inv (step exts) hstep ⟨inv_init exts, hinit⟩ hok hr).1.ownCopyBacks

end

def launchedAfterFailure : List CallEvent :=
  [hostCall 0, .register 0, .raise 0, hostCall 1, .register 1, .launch 1, .next 1, .next 1, .next 1, .clear 1]

/-- The second call writes to the host array of the first. -/
theorem failed_call_copied_back_later : ∃ s,
    run (step []) .init launchedAfterFailure = some s ∧ ¬ OwnCopyBacks [] s.log := by
  refine ⟨_, rfl, ?_⟩
  intro h
  have hcall := h.1 1 ⟨0, 0, .copyBack 0⟩ (List.mem_cons_of_mem _ (List.mem_cons_of_mem _ List.mem_cons_self))
  cases hcall

def launchedAfterEarlyFailure : List CallEvent :=
  [hostCall 0, .raise 0, hostCall 1, .register 1, .launch 1, .next 1, .next 1, .clear 1]

theorem early_failure_runs_own : ∃ s,
    run (step []) .init launchedAfterEarlyFailure = some s ∧ OwnCopyBacks [] s.log := by
  have hok : StepsOk (step []) CleanSequence .init launchedAfterEarlyFailure := by
    refine stepsOk_cons _ rfl ?_ (stepsOk_cons _ rfl rfl (stepsOk_cons _ rfl ?_ (stepsOk_cons _ rfl trivial
      (stepsOk_cons _ rfl trivial (stepsOk_cons _ rfl trivial (stepsOk_cons _ rfl trivial
        (stepsOk_cons _ rfl trivial trivial)))))))
    · intro j; rfl
    · intro j
      match j with
      | 0 | j + 1 => rfl
  exact ⟨_, rfl, calls_run_own hok rfl⟩

end NumbaCudaMlir.Marshal

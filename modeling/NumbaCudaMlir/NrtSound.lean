import NumbaCudaMlir.Nrt

/-!
# Objects are destroyed once

In every run each object is destroyed at the decref that brings its count to
zero, and what its destruction frees is freed once. An object of variable size
leaks its data where the second allocation fails, and an element destructor is
never called.
-/

namespace NumbaCudaMlir.Nrt

open Runs

/-! ## Laws -/

def Pc.target : Pc → Option Ptr
  | idle => none
  | callDtor mi | invoke mi _ | varsizeDtor mi .. | varsizeFree mi _ | destroy mi => some mi

/-- The steps that a thread needs at most to end a destruction. -/
def Pc.rank : Pc → Nat
  | idle => 0
  | destroy _ => 1
  | varsizeFree .. => 2
  | varsizeDtor .. => 3
  | invoke .. => 4
  | callDtor _ => 5

section
variable (varsizeDtor : Ptr)

def Constructor.IsVarsize : Constructor → Prop
  | newVarsize _ | newVarsizeDtor .. => True
  | new .. | allocAligned .. => False

/-- What the destruction of an object has to do. -/
def destruction (mi : Ptr) (o : Object) : List Event :=
  match o.made with
  | .new data size dtor _ => (if dtor = 0 then [] else [.dtor dtor data size]) ++ [.free mi]
  | .newVarsize size => [.dtor varsizeDtor o.data size, .free o.data, .free mi]
  | .newVarsizeDtor size dtor =>
    .dtor varsizeDtor o.data size :: (if dtor = 0 then [] else [.element dtor o.data]) ++ [.free o.data, .free mi]
  | .allocAligned .. => [.free mi]

def pending (mi : Ptr) (o : Object) : List Event := (destruction varsizeDtor mi o).drop o.trace.length

structure ObjectLaw (s : State) (mi : Ptr) (o : Object) : Prop where
  /-- The destructor runs at the decref that brings the count to zero. -/
  once : o.destructions = if o.decrefs = 1 + o.increfs then 1 else 0
  untouched : o.destructions = 0 → o.trace = []
  ordered : o.trace <+: destruction varsizeDtor mi o
  complete : o.destructions = 1 → (∀ t, (s.threads t).target ≠ some mi) → o.trace = destruction varsizeDtor mi o

structure Law (s : State) : Prop where
  objects : ∀ mi o, s.objects mi = some o → ObjectLaw varsizeDtor s mi o
  /-- What an object is still to free is in use. -/
  held : ∀ mi o b, s.objects mi = some o → .free b ∈ pending varsizeDtor mi o → b ∈ s.heap.live
  /-- Every block belongs to an object that is still to free it. -/
  kept : ∀ b ∈ s.heap.live, ∃ mi o, s.objects mi = some o ∧ .free b ∈ pending varsizeDtor mi o

/-! ## Conditions -/

def Constructor.Ok : Constructor → Prop
  | new _ _ dtor _ => dtor ≠ varsizeDtor
  | newVarsize _ | newVarsizeDtor .. | allocAligned .. => True

def StepOk (s : State) : Action → Prop
  | .construct c result₁ result₂ => c.Ok varsizeDtor ∧ (c.IsVarsize → result₁ ≠ 0 → result₂ ≠ 0)
  | .incref _ mi => mi ≠ 0 → ∃ o, s.objects mi = some o ∧ o.decrefs < 1 + o.increfs ∧ 2 + o.increfs - o.decrefs < 2 ^ 64
  | .decref _ mi => mi ≠ 0 → ∃ o, s.objects mi = some o ∧ o.decrefs < 1 + o.increfs ∧
      (o.decrefs = o.increfs → ∀ size dtor, o.made = .newVarsizeDtor size dtor → dtor = 0)
  | .resume _ => True

/-! ## Invariants -/

def InfoOk (info : MemInfo) (o : Object) : Prop :=
  match o.made with
  | .new data size dtor _ => info.dtor = dtor ∧ info.data = data ∧ info.size = size ∧ dtor ≠ varsizeDtor
  | .newVarsize size | .newVarsizeDtor size _ => info.dtor = varsizeDtor ∧ info.data = o.data ∧ info.size = size
  | .allocAligned .. => info.dtor = 0

def remaining (info : Ptr → MemInfo) : Pc → List Event
  | .idle => []
  | .callDtor mi =>
    (if (info mi).dtor = 0 then [] else
      .dtor (info mi).dtor (info mi).data (info mi).size :: if (info mi).dtor = varsizeDtor then [.free (info mi).data] else []) ++ [.free mi]
  | .invoke mi dtor =>
    .dtor dtor (info mi).data (info mi).size :: (if dtor = varsizeDtor then [.free (info mi).data] else []) ++ [.free mi]
  | .varsizeDtor mi data info => (if info = 0 then [] else [.element info data]) ++ [.free data, .free mi]
  | .varsizeFree mi data => [.free data, .free mi]
  | .destroy mi => [.free mi]

structure Active (s : State) (mi : Ptr) (o : Object) : Prop where
  trace : o.trace = []
  decrefs : o.decrefs < 1 + o.increfs
  count : (s.heap.info mi).refct = BitVec.ofNat 64 (1 + o.increfs - o.decrefs)
  small : 1 + o.increfs - o.decrefs < 2 ^ 64
  idle : ∀ t, (s.threads t).target ≠ some mi

structure Destroyed (s : State) (mi : Ptr) (o : Object) : Prop where
  once : o.destructions = 1
  decrefs : o.decrefs = 1 + o.increfs
  rest : (∃ t, (s.threads t).target = some mi ∧ remaining varsizeDtor s.heap.info (s.threads t) = pending varsizeDtor mi o) ∨
    pending varsizeDtor mi o = [] ∧ ∀ t, (s.threads t).target ≠ some mi

structure Inv (s : State) : Prop where
  nonnull : ∀ mi o, s.objects mi = some o → mi ≠ 0
  ordered : ∀ mi o, s.objects mi = some o → o.trace <+: destruction varsizeDtor mi o
  blocks : ∀ mi o, s.objects mi = some o → (pending varsizeDtor mi o).Nodup
  held : ∀ mi o b, s.objects mi = some o → .free b ∈ pending varsizeDtor mi o → b ∈ s.heap.live
  unique : ∀ mi mi' o o' b, s.objects mi = some o → s.objects mi' = some o' → .free b ∈ pending varsizeDtor mi o →
    .free b ∈ pending varsizeDtor mi' o' → mi = mi'
  kept : ∀ b ∈ s.heap.live, ∃ mi o, s.objects mi = some o ∧ .free b ∈ pending varsizeDtor mi o
  nodup : s.heap.live.Nodup
  info : ∀ mi o, s.objects mi = some o → pending varsizeDtor mi o ≠ [] → InfoOk varsizeDtor (s.heap.info mi) o
  phase : ∀ mi o, s.objects mi = some o → o.destructions = 0 ∧ Active s mi o ∨ Destroyed varsizeDtor s mi o
  threads : KeysUnique Pc.target s.threads
  targets : ∀ t mi, (s.threads t).target = some mi → ∃ o, s.objects mi = some o

end

/-! ## Destructions -/

section
variable {varsizeDtor : Ptr}

theorem destruction_eq_append (mi : Ptr) (o : Object) : ∃ es, destruction varsizeDtor mi o = es ++ [.free mi] := by
  cases h : o.made with
  | new data size dtor dtorInfo => exact ⟨if dtor = 0 then [] else [.dtor dtor data size], by simp only [destruction, h]⟩
  | newVarsize size => exact ⟨[.dtor varsizeDtor o.data size, .free o.data], by simp [destruction, h]⟩
  | newVarsizeDtor size dtor =>
    exact ⟨.dtor varsizeDtor o.data size :: (if dtor = 0 then [] else [.element dtor o.data]) ++ [.free o.data], by simp [destruction, h]⟩
  | allocAligned => exact ⟨[], by simp [destruction, h]⟩

theorem pending_of_trace {mi : Ptr} {o : Object} (h : o.trace = []) : pending varsizeDtor mi o = destruction varsizeDtor mi o := by
  rw [pending, h]
  rfl

theorem free_mem_pending {mi : Ptr} {o : Object} (h : pending varsizeDtor mi o ≠ []) : .free mi ∈ pending varsizeDtor mi o := by
  obtain ⟨es, hes⟩ := @destruction_eq_append varsizeDtor mi o
  rw [pending, hes] at h ⊢
  have hle : o.trace.length ≤ es.length := by
    by_contra hlt
    exact h (List.drop_eq_nil_of_le (by rw [List.length_append]; exact Nat.lt_of_not_le hlt))
  rw [List.drop_append_of_le_length hle]
  simp

theorem trace_append_pending {mi : Ptr} {o : Object} (h : o.trace <+: destruction varsizeDtor mi o) :
    o.trace ++ pending varsizeDtor mi o = destruction varsizeDtor mi o := by
  obtain ⟨es, hes⟩ := h
  rw [pending, ← hes, List.drop_left]

theorem remaining_ne_nil {info : Ptr → MemInfo} {pc : Pc} {mi : Ptr} (h : pc.target = some mi) : remaining varsizeDtor info pc ≠ [] := by
  cases pc with
  | idle => cases h
  | callDtor | invoke | varsizeDtor | varsizeFree | destroy => simp [remaining]

theorem remaining_congr {info info' : Ptr → MemInfo} {pc : Pc} (h : ∀ mi, pc.target = some mi → info mi = info' mi) :
    remaining varsizeDtor info pc = remaining varsizeDtor info' pc := by
  cases pc with
  | callDtor mi | invoke mi => simp only [remaining, h mi rfl]
  | idle | varsizeDtor | varsizeFree | destroy => rfl

theorem remaining_callDtor {info : Ptr → MemInfo} {mi : Ptr} {o : Object} (hv : varsizeDtor ≠ 0) (h : InfoOk varsizeDtor (info mi) o)
    (helement : ∀ size dtor, o.made = .newVarsizeDtor size dtor → dtor = 0) :
    remaining varsizeDtor info (.callDtor mi) = destruction varsizeDtor mi o := by
  rw [remaining]
  cases hmade : o.made with
  | new data size dtor dtorInfo =>
    simp only [InfoOk, hmade] at h
    obtain ⟨hdtor, hdata, hsize, hne⟩ := h
    simp only [destruction, hmade, hdtor, hdata, hsize, if_neg hne]
  | newVarsize size =>
    simp only [InfoOk, hmade] at h
    obtain ⟨hdtor, hdata, hsize⟩ := h
    simp only [destruction, hmade, hdtor, hdata, hsize, if_neg hv, if_true]
    rfl
  | newVarsizeDtor size dtor =>
    simp only [InfoOk, hmade] at h
    obtain ⟨hdtor, hdata, hsize⟩ := h
    simp only [destruction, hmade, hdtor, hdata, hsize, helement size dtor hmade, if_neg hv, if_true]
    rfl
  | allocAligned =>
    simp only [InfoOk, hmade] at h
    simp only [destruction, hmade, h, if_true]
    rfl

end

/-! ## Steps -/

section
variable {varsizeDtor : Ptr} {s : State} (hi : Inv varsizeDtor s)
include hi

theorem Inv.destroying {t : Nat} {mi : Ptr} (ht : (s.threads t).target = some mi) :
    ∃ o, s.objects mi = some o ∧ o.destructions = 1 ∧ o.decrefs = 1 + o.increfs ∧
      remaining varsizeDtor s.heap.info (s.threads t) = pending varsizeDtor mi o := by
  obtain ⟨o, ho⟩ := hi.targets t mi ht
  rcases hi.phase mi o ho with ⟨-, hactive⟩ | hdestroyed
  · exact absurd ht (hactive.idle t)
  · rcases hdestroyed.rest with ⟨t', ht', hrest⟩ | ⟨-, hnone⟩
    · obtain rfl := hi.threads t t' mi ht ht'
      exact ⟨o, ho, hdestroyed.once, hdestroyed.decrefs, hrest⟩
    · exact absurd ht (hnone t)

theorem Inv.finished {mi : Ptr} {o : Object} (ho : s.objects mi = some o) (hfree : mi ∉ s.heap.live) :
    pending varsizeDtor mi o = [] ∧ ∀ t, (s.threads t).target ≠ some mi := by
  have hnil : pending varsizeDtor mi o = [] := by
    by_contra hne
    exact hfree (hi.held mi o mi ho (free_mem_pending hne))
  rcases hi.phase mi o ho with ⟨-, hactive⟩ | hdestroyed
  · rw [pending_of_trace hactive.trace] at hnil
    obtain ⟨es, hes⟩ := @destruction_eq_append varsizeDtor mi o
    rw [hes] at hnil
    simp at hnil
  · rcases hdestroyed.rest with ⟨t, ht, hrest⟩ | hdone
    · rw [hnil] at hrest
      exact absurd hrest (remaining_ne_nil ht)
    · exact hdone

theorem Inv.target_ne {mi : Ptr} (hfree : mi ∉ s.heap.live) (t : Nat) : (s.threads t).target ≠ some mi := by
  intro ht
  obtain ⟨o, ho⟩ := hi.targets t mi ht
  exact (hi.finished ho hfree).2 t ht

theorem Inv.create {mi : Ptr} {o : Object} {blocks : List Ptr} {info : MemInfo} (hmi : mi ≠ 0) (hnew : ∀ b ∈ blocks, b ∉ s.heap.live)
    (hnodup : blocks.Nodup) (hmem : mi ∈ blocks) (htrace : o.trace = []) (hcounts : o.increfs = 0 ∧ o.decrefs = 0 ∧ o.destructions = 0)
    (hfrees : ∀ b, .free b ∈ destruction varsizeDtor mi o ↔ b ∈ blocks) (hdistinct : (destruction varsizeDtor mi o).Nodup)
    (hinfo : InfoOk varsizeDtor info o) (hcount : info.refct = 1) :
    Inv varsizeDtor ⟨⟨blocks ++ s.heap.live, setAt s.heap.info mi info⟩, s.threads, setAt s.objects mi (some o)⟩ := by
  have htarget := hi.target_ne (hnew mi hmem)
  have hobjects : ∀ a p, setAt s.objects mi (some o) a = some p → a = mi ∧ p = o ∨ a ≠ mi ∧ s.objects a = some p := by
    intro a p h
    by_cases ha : a = mi
    · rw [ha, setAt_self, Option.some_inj] at h
      exact .inl ⟨ha, h.symm⟩
    · rw [setAt_ne _ _ ha] at h
      exact .inr ⟨ha, h⟩
  have hpending : pending varsizeDtor mi o = destruction varsizeDtor mi o := pending_of_trace htrace
  have hremaining : ∀ t, remaining varsizeDtor (setAt s.heap.info mi info) (s.threads t) = remaining varsizeDtor s.heap.info (s.threads t) :=
    fun t => remaining_congr fun a ha => setAt_ne _ _ (by rintro rfl; exact htarget t ha)
  constructor
  · intro a p h
    rcases hobjects a p h with ⟨rfl, rfl⟩ | ⟨-, h⟩
    · exact hmi
    · exact hi.nonnull a p h
  · intro a p h
    rcases hobjects a p h with ⟨rfl, rfl⟩ | ⟨-, h⟩
    · rw [htrace]
      exact List.nil_prefix
    · exact hi.ordered a p h
  · intro a p h
    rcases hobjects a p h with ⟨rfl, rfl⟩ | ⟨-, h⟩
    · rwa [hpending]
    · exact hi.blocks a p h
  · intro a p b h hb
    rcases hobjects a p h with ⟨rfl, rfl⟩ | ⟨-, h⟩
    · rw [hpending, hfrees] at hb
      exact List.mem_append_left _ hb
    · exact List.mem_append_right _ (hi.held a p b h hb)
  · intro a a' p p' b h h' hb hb'
    rcases hobjects a p h with ⟨ha, hp⟩ | ⟨-, hold⟩ <;> rcases hobjects a' p' h' with ⟨ha', hp'⟩ | ⟨-, hold'⟩
    · rw [ha, ha']
    · rw [ha, hp, hpending, hfrees] at hb
      exact absurd (hi.held a' p' b hold' hb') (hnew b hb)
    · rw [ha', hp', hpending, hfrees] at hb'
      exact absurd (hi.held a p b hold hb) (hnew b hb')
    · exact hi.unique a a' p p' b hold hold' hb hb'
  · intro b hb
    rcases List.mem_append.mp hb with hb | hb
    · exact ⟨mi, o, setAt_self .., by rwa [hpending, hfrees]⟩
    · obtain ⟨a, p, h, hp⟩ := hi.kept b hb
      have ha : a ≠ mi := by
        rintro rfl
        rw [(hi.finished h (hnew a hmem)).1] at hp
        cases hp
      exact ⟨a, p, (setAt_ne _ _ ha).trans h, hp⟩
  · exact List.nodup_append.mpr ⟨hnodup, hi.nodup, fun b hb c hc he => hnew b hb (he ▸ hc)⟩
  · intro a p h hp
    rcases hobjects a p h with ⟨rfl, rfl⟩ | ⟨ha, h⟩
    · simpa using hinfo
    · simpa [setAt_ne _ _ ha] using hi.info a p h hp
  · intro a p h
    rcases hobjects a p h with ⟨rfl, rfl⟩ | ⟨ha, h⟩
    · obtain ⟨hinc, hdec, hdes⟩ := hcounts
      exact .inl ⟨hdes, htrace, by omega, by simp [hinc, hdec, hcount], by simp [hinc, hdec], htarget⟩
    · rcases hi.phase a p h with ⟨hdes, hact⟩ | hdes
      · exact .inl ⟨hdes, hact.trace, hact.decrefs, by simpa [setAt_ne _ _ ha] using hact.count, hact.small, hact.idle⟩
      · refine .inr ⟨hdes.once, hdes.decrefs, hdes.rest.imp_left fun ⟨t, ht, hrest⟩ => ⟨t, ht, ?_⟩⟩
        rw [hremaining, hrest]
  · exact hi.threads
  · intro t a ha
    obtain ⟨p, hp⟩ := hi.targets t a ha
    have hne : a ≠ mi := by
      rintro rfl
      exact htarget t ha
    exact ⟨p, (setAt_ne _ _ hne).trans hp⟩

theorem Inv.touch {mi : Ptr} {o o' : Object} (ho : s.objects mi = some o) (hact : Active s mi o) {n : BitVec 64} {threads : Nat → Pc}
    (hsame : o'.made = o.made ∧ o'.data = o.data ∧ o'.trace = o.trace)
    (hthreads : ∀ t, threads t = s.threads t ∨ (s.threads t).target = none ∧ (threads t).target = some mi)
    (hkeys : KeysUnique Pc.target threads)
    (hphase : o'.destructions = 0 ∧
        Active ⟨⟨s.heap.live, setAt s.heap.info mi { s.heap.info mi with refct := n }⟩, threads, setAt s.objects mi (some o')⟩ mi o' ∨
      Destroyed varsizeDtor ⟨⟨s.heap.live, setAt s.heap.info mi { s.heap.info mi with refct := n }⟩, threads, setAt s.objects mi (some o')⟩
        mi o') :
    Inv varsizeDtor ⟨⟨s.heap.live, setAt s.heap.info mi { s.heap.info mi with refct := n }⟩, threads, setAt s.objects mi (some o')⟩ := by
  obtain ⟨hmade, hdata, htrace⟩ := hsame
  have hdestruction : destruction varsizeDtor mi o' = destruction varsizeDtor mi o := by simp only [destruction, hmade, hdata]
  have hpending : pending varsizeDtor mi o' = pending varsizeDtor mi o := by rw [pending, pending, hdestruction, htrace]
  -- the objects keep their traces
  have hback : ∀ a p, setAt s.objects mi (some o') a = some p → ∃ q, s.objects a = some q ∧ p.trace = q.trace ∧
      destruction varsizeDtor a p = destruction varsizeDtor a q ∧ pending varsizeDtor a p = pending varsizeDtor a q := by
    intro a p h
    by_cases ha : a = mi
    · subst ha
      rw [setAt_self, Option.some_inj] at h
      subst h
      exact ⟨o, ho, htrace, hdestruction, hpending⟩
    · rw [setAt_ne _ _ ha] at h
      exact ⟨p, h, rfl, rfl, rfl⟩
  have hother : ∀ t a, a ≠ mi → (threads t).target = some a → threads t = s.threads t := by
    intro t a ha ht
    rcases hthreads t with h | ⟨-, h⟩
    · exact h
    · rw [h, Option.some_inj] at ht
      exact absurd ht.symm ha
  constructor
  · intro a p h
    obtain ⟨q, hq, -⟩ := hback a p h
    exact hi.nonnull a q hq
  · intro a p h
    obtain ⟨q, hq, htr, hde, -⟩ := hback a p h
    rw [htr, hde]
    exact hi.ordered a q hq
  · intro a p h
    obtain ⟨q, hq, -, -, hpe⟩ := hback a p h
    rw [hpe]
    exact hi.blocks a q hq
  · intro a p b h hb
    obtain ⟨q, hq, -, -, hpe⟩ := hback a p h
    exact hi.held a q b hq (hpe ▸ hb)
  · intro a a' p p' b h h' hb hb'
    obtain ⟨q, hq, -, -, hpe⟩ := hback a p h
    obtain ⟨q', hq', -, -, hpe'⟩ := hback a' p' h'
    exact hi.unique a a' q q' b hq hq' (hpe ▸ hb) (hpe' ▸ hb')
  · intro b hb
    obtain ⟨a, q, hq, hp⟩ := hi.kept b hb
    by_cases ha : a = mi
    · subst ha
      cases Option.some_inj.mp (ho.symm.trans hq)
      exact ⟨a, o', setAt_self .., by rwa [hpending]⟩
    · exact ⟨a, q, (setAt_ne _ _ ha).trans hq, hp⟩
  · exact hi.nodup
  · intro a p h hp
    by_cases ha : a = mi
    · subst ha
      have hinfo := hi.info a o ho (by rw [← hpending]; rwa [← Option.some_inj.mp ((setAt_self ..).symm.trans h)] at hp)
      rw [← Option.some_inj.mp ((setAt_self ..).symm.trans h)]
      simpa [InfoOk, hmade, hdata] using hinfo
    · simpa [setAt_ne _ _ ha] using hi.info a p ((setAt_ne _ _ ha).symm.trans h) hp
  · intro a p h
    by_cases ha : a = mi
    · subst ha
      rw [← Option.some_inj.mp ((setAt_self ..).symm.trans h)]
      exact hphase
    · rcases hi.phase a p ((setAt_ne _ _ ha).symm.trans h) with ⟨hdes, hact'⟩ | hdes
      · refine .inl ⟨hdes, hact'.trace, hact'.decrefs, by simpa [setAt_ne _ _ ha] using hact'.count, hact'.small, fun t ht => ?_⟩
        exact hact'.idle t (hother t a ha ht ▸ ht)
      · refine .inr ⟨hdes.once, hdes.decrefs, hdes.rest.imp (fun ⟨t, ht, hrest⟩ => ⟨t, ?_⟩) fun ⟨hnil, hnone⟩ => ⟨hnil, fun t ht => ?_⟩⟩
        · have hkeep : threads t = s.threads t := (hthreads t).resolve_right fun hnew => by simp [hnew.1] at ht
          refine ⟨(congrArg Pc.target hkeep).trans ht, ?_⟩
          change remaining varsizeDtor (setAt s.heap.info mi { s.heap.info mi with refct := n }) (threads t) = _
          rw [hkeep, ← hrest]
          refine remaining_congr fun c hc => setAt_ne _ _ ?_
          rintro rfl
          exact ha (Option.some_inj.mp (ht.symm.trans hc))
        · exact hnone t (hother t a ha ht ▸ ht)
  · exact hkeys
  · intro t a ht
    by_cases ha : a = mi
    · exact ⟨o', by rw [ha]; exact setAt_self ..⟩
    · obtain ⟨q, hq⟩ := hi.targets t a (hother t a ha ht ▸ ht)
      exact ⟨q, (setAt_ne _ _ ha).trans hq⟩

theorem Inv.move {t : Nat} {mi : Ptr} {pc : Pc} (ht : (s.threads t).target = some mi) (hpc : pc.target = some mi)
    (hrest : remaining varsizeDtor s.heap.info pc = remaining varsizeDtor s.heap.info (s.threads t)) :
    Inv varsizeDtor (s.setPc t pc) := by
  have htargets : ∀ u, (setAt s.threads t pc u).target = (s.threads u).target := fun u => by
    by_cases hu : u = t
    · rw [hu, setAt_self, hpc, ht]
    · rw [setAt_ne _ _ hu]
  have hremaining : ∀ u, remaining varsizeDtor s.heap.info (setAt s.threads t pc u) = remaining varsizeDtor s.heap.info (s.threads u) :=
    fun u => by
      by_cases hu : u = t
      · rw [hu, setAt_self, hrest]
      · rw [setAt_ne _ _ hu]
  refine ⟨hi.nonnull, hi.ordered, hi.blocks, hi.held, hi.unique, hi.kept, hi.nodup, hi.info, fun a p h => ?_, ?_, fun u a h => ?_⟩
  · rcases hi.phase a p h with ⟨hdes, hact⟩ | hdes
    · exact .inl ⟨hdes, hact.trace, hact.decrefs, hact.count, hact.small, fun u hu => hact.idle u (htargets u ▸ hu)⟩
    · refine .inr ⟨hdes.once, hdes.decrefs, hdes.rest.imp (fun ⟨u, hu, hr⟩ => ⟨u, ?_, ?_⟩) fun ⟨hnil, hnone⟩ => ⟨hnil, fun u hu => ?_⟩⟩
      · exact (htargets u).trans hu
      · exact (hremaining u).trans hr
      · exact hnone u (htargets u ▸ hu)
  · intro u v k hu hv
    exact hi.threads u v k (htargets u ▸ hu) (htargets v ▸ hv)
  · exact hi.targets u a (htargets u ▸ h)

theorem Inv.emit {t : Nat} {mi : Ptr} {pc : Pc} {e : Event} {live : List Ptr} (ht : (s.threads t).target = some mi)
    (hrest : remaining varsizeDtor s.heap.info (s.threads t) = e :: remaining varsizeDtor s.heap.info pc)
    (hpc : pc.target = some mi ∨ pc = .idle)
    (hlive : (∃ p, e = .free p ∧ live = s.heap.live.erase p) ∨ (∀ p, e ≠ .free p) ∧ live = s.heap.live) :
    Inv varsizeDtor (({ s with heap := { s.heap with live := live } }.emit mi e).setPc t pc) := by
  obtain ⟨o, ho, honce, hcount, hpending⟩ := hi.destroying ht
  rw [hrest] at hpending
  obtain ⟨o', ho'⟩ : ∃ o', o' = { o with trace := o.trace ++ [e] } := ⟨_, rfl⟩
  have hdestruction : destruction varsizeDtor mi o' = destruction varsizeDtor mi o := by rw [ho']; rfl
  have hpending' : pending varsizeDtor mi o' = remaining varsizeDtor s.heap.info pc := by
    rw [pending, hdestruction, show o'.trace.length = o.trace.length + 1 by rw [ho']; simp, ← List.drop_drop]
    rw [pending] at hpending
    rw [← hpending]
    rfl
  have hrecord : setAt s.objects mi ((s.objects mi).map fun o => { o with trace := o.trace ++ [e] }) = setAt s.objects mi (some o') := by
    rw [ho, ho']
    rfl
  have hsub : ∀ x ∈ pending varsizeDtor mi o', x ∈ pending varsizeDtor mi o := fun x hx => by
    rw [← hpending]
    exact List.mem_cons_of_mem e (hpending' ▸ hx)
  have hnodup : e ∉ pending varsizeDtor mi o' ∧ (pending varsizeDtor mi o').Nodup := by
    have := hi.blocks mi o ho
    rw [← hpending, List.nodup_cons] at this
    rwa [hpending']
  have hstate : ({ s with heap := { s.heap with live := live } }.emit mi e).setPc t pc =
      ⟨⟨live, s.heap.info⟩, setAt s.threads t pc, setAt s.objects mi (some o')⟩ := by
    rw [State.emit, State.record, State.setPc]
    exact congrArg (State.mk ⟨live, s.heap.info⟩ (setAt s.threads t pc)) hrecord
  rw [hstate]
  have hback : ∀ a p, setAt s.objects mi (some o') a = some p → a = mi ∧ p = o' ∨ a ≠ mi ∧ s.objects a = some p := by
    intro a p h
    by_cases ha : a = mi
    · rw [ha, setAt_self, Option.some_inj] at h
      exact .inl ⟨ha, h.symm⟩
    · rw [setAt_ne _ _ ha] at h
      exact .inr ⟨ha, h⟩
  -- only the object itself loses a block
  have hmem : ∀ b, b ∈ live ↔ b ∈ s.heap.live ∧ e ≠ .free b := by
    intro b
    rcases hlive with ⟨p, rfl, rfl⟩ | ⟨hne, rfl⟩
    · rw [hi.nodup.mem_erase_iff, ne_eq, ne_eq, Event.free.injEq, and_comm, eq_comm]
    · exact ⟨fun h => ⟨h, hne b⟩, And.left⟩
  have hown : ∀ {a p b}, a ≠ mi → s.objects a = some p → .free b ∈ pending varsizeDtor a p → e ≠ .free b := by
    rintro a p b ha h hb rfl
    exact ha (hi.unique a mi p o b h ho hb (hpending ▸ List.mem_cons_self))
  have htargets : ∀ u a, a ≠ mi → ((setAt s.threads t pc u).target = some a ↔ (s.threads u).target = some a) := by
    intro u a ha
    by_cases hu : u = t
    · rw [hu, setAt_self, ht]
      rcases hpc with h | rfl
      · rw [h]
      · simp [Pc.target, Ne.symm ha]
    · rw [setAt_ne _ _ hu]
  have honly : ∀ u, u ≠ t → (s.threads u).target ≠ some mi := fun u hu h => hu (hi.threads u t mi h ht)
  constructor
  · intro a p h
    rcases hback a p h with ⟨rfl, -⟩ | ⟨-, h⟩
    · exact hi.nonnull a o ho
    · exact hi.nonnull a p h
  · intro a p h
    rcases hback a p h with ⟨rfl, rfl⟩ | ⟨-, h⟩
    · rw [hdestruction, ← trace_append_pending (hi.ordered a o ho), ← hpending, ho']
      exact ⟨remaining varsizeDtor s.heap.info pc, by simp⟩
    · exact hi.ordered a p h
  · intro a p h
    rcases hback a p h with ⟨rfl, rfl⟩ | ⟨-, h⟩
    · exact hnodup.2
    · exact hi.blocks a p h
  · intro a p b h hb
    rw [hmem]
    rcases hback a p h with ⟨rfl, rfl⟩ | ⟨ha, h⟩
    · exact ⟨hi.held a o b ho (hsub _ hb), fun he => hnodup.1 (he ▸ hb)⟩
    · exact ⟨hi.held a p b h hb, hown ha h hb⟩
  · intro a a' p p' b h h' hb hb'
    rcases hback a p h with ⟨ha, hp⟩ | ⟨-, hold⟩ <;> rcases hback a' p' h' with ⟨ha', hp'⟩ | ⟨-, hold'⟩
    · rw [ha, ha']
    · subst ha hp
      exact hi.unique _ a' o p' b ho hold' (hsub _ hb) hb'
    · subst ha' hp'
      exact hi.unique a _ p o b hold ho hb (hsub _ hb')
    · exact hi.unique a a' p p' b hold hold' hb hb'
  · intro b hb
    obtain ⟨hb, hne⟩ := (hmem b).mp hb
    obtain ⟨a, p, h, hp⟩ := hi.kept b hb
    by_cases ha : a = mi
    · subst ha
      cases Option.some_inj.mp (ho.symm.trans h)
      refine ⟨a, o', setAt_self .., ?_⟩
      rw [← hpending, List.mem_cons] at hp
      rw [hpending']
      exact hp.resolve_left (Ne.symm hne)
    · exact ⟨a, p, (setAt_ne _ _ ha).trans h, hp⟩
  · rcases hlive with ⟨p, -, rfl⟩ | ⟨-, rfl⟩
    · exact hi.nodup.erase p
    · exact hi.nodup
  · intro a p h hp
    rcases hback a p h with ⟨rfl, rfl⟩ | ⟨-, h⟩
    · have := hi.info a o ho (by rw [← hpending]; exact List.cons_ne_nil _ _)
      rw [ho']
      exact this
    · exact hi.info a p h hp
  · intro a p h
    rcases hback a p h with ⟨rfl, rfl⟩ | ⟨ha, h⟩
    · refine .inr ⟨by rw [ho']; exact honce, by rw [ho']; exact hcount, ?_⟩
      rcases hpc with hpc | rfl
      · exact .inl ⟨t, (congrArg Pc.target (setAt_self ..)).trans hpc,
          (congrArg (remaining varsizeDtor s.heap.info) (setAt_self ..)).trans hpending'.symm⟩
      · refine .inr ⟨hpending', fun u (hu : (setAt s.threads t .idle u).target = some a) => ?_⟩
        by_cases hut : u = t
        · rw [hut, setAt_self] at hu
          cases hu
        · rw [setAt_ne _ _ hut] at hu
          exact honly u hut hu
    · rcases hi.phase a p h with ⟨hdes, hact⟩ | hdes
      · exact .inl ⟨hdes, hact.trace, hact.decrefs, hact.count, hact.small, fun u hu => hact.idle u ((htargets u a ha).mp hu)⟩
      · refine .inr ⟨hdes.once, hdes.decrefs, hdes.rest.imp (fun ⟨u, hu, hr⟩ => ⟨u, (htargets u a ha).mpr hu, ?_⟩)
          fun ⟨hnil, hnone⟩ => ⟨hnil, fun u hu => hnone u ((htargets u a ha).mp hu)⟩⟩
        have hut : u ≠ t := by
          rintro rfl
          exact ha (Option.some_inj.mp (hu.symm.trans ht))
        exact (congrArg (remaining varsizeDtor s.heap.info) (setAt_ne _ _ hut)).trans hr
  · intro u v k (hu : (setAt s.threads t pc u).target = some k) (hv : (setAt s.threads t pc v).target = some k)
    by_cases hk : k = mi
    · subst hk
      by_cases hut : u = t
      · by_cases hvt : v = t
        · rw [hut, hvt]
        · rw [setAt_ne _ _ hvt] at hv
          exact absurd hv (honly v hvt)
      · rw [setAt_ne _ _ hut] at hu
        exact absurd hu (honly u hut)
    · exact hi.threads u v k ((htargets u k hk).mp hu) ((htargets v k hk).mp hv)
  · intro u a h
    by_cases ha : a = mi
    · exact ⟨o', by rw [ha]; exact setAt_self ..⟩
    · obtain ⟨p, hp⟩ := hi.targets u a ((htargets u a ha).mp h)
      exact ⟨p, (setAt_ne _ _ ha).trans hp⟩

end

/-! ## Runs -/

section
variable {varsizeDtor : Ptr}

theorem malloc_cases {result p : Ptr} {h h' : Heap} (hm : malloc result h = some (p, h')) :
    result = 0 ∧ p = 0 ∧ h' = h ∨ result ≠ 0 ∧ p = result ∧ result ∉ h.live ∧ h' = { h with live := result :: h.live } := by
  rw [malloc] at hm
  split at hm
  · cases hm
    exact .inl ⟨‹_›, rfl, rfl⟩
  · split at hm
    · cases hm
    · cases hm
      exact .inr ⟨‹_›, rfl, ‹_›, rfl⟩

theorem inv_initial : Inv varsizeDtor initial := by
  constructor <;> simp [initial, KeysUnique, Pc.target]

theorem setAt_setAt {α : Type} (f : Ptr → α) (mi : Ptr) (i i' : α) : setAt (setAt f mi i) mi i' = setAt f mi i' := by
  funext a
  by_cases h : a = mi
  · rw [h, setAt_self, setAt_self]
  · rw [setAt_ne _ _ h, setAt_ne _ _ h, setAt_ne _ _ h]

theorem memInfoNewVarsize_cases {size : BitVec 64} {result₁ result₂ mi : Ptr} {h h' : Heap}
    (hc : memInfoNewVarsize varsizeDtor size result₁ result₂ h = some (mi, h')) (hleak : result₁ ≠ 0 → result₂ ≠ 0) :
    mi = 0 ∧ h' = h ∨ mi ≠ 0 ∧ result₁ ∉ h.live ∧ mi ∉ result₁ :: h.live ∧
      h' = ⟨mi :: result₁ :: h.live, setAt h.info mi ⟨1, varsizeDtor, 0, result₁, size⟩⟩ := by
  rw [memInfoNewVarsize, Option.bind_eq_bind, Option.bind_eq_some_iff] at hc
  obtain ⟨⟨data, h₁⟩, hm, hc⟩ := hc
  rcases malloc_cases hm with ⟨-, rfl, rfl⟩ | ⟨hne, rfl, hfresh, rfl⟩
  · cases hc
    exact .inl ⟨rfl, rfl⟩
  · simp only [if_pos hne, Option.bind_eq_some_iff] at hc
    obtain ⟨⟨mi', h₂⟩, hm₂, hc⟩ := hc
    rcases malloc_cases hm₂ with ⟨h0, -, -⟩ | ⟨hne₂, rfl, hfresh₂, rfl⟩
    · exact absurd h0 (hleak hne)
    · simp only [if_pos hne₂] at hc
      cases hc
      exact .inr ⟨hne₂, hfresh, hfresh₂, rfl⟩

theorem single_cases {data : Ptr → Ptr} {size : BitVec 64} {dtor dtorInfo result mi : Ptr} {h h' : Heap}
    (hc : (do
      let (mi, h) ← malloc result h
      if mi ≠ 0 then some (mi, memInfoInit mi (data mi) size dtor dtorInfo h) else some (0, h)) = some (mi, h')) :
    mi = 0 ∧ h' = h ∨ mi ≠ 0 ∧ mi ∉ h.live ∧ h' = ⟨[mi] ++ h.live, setAt h.info mi ⟨1, dtor, dtorInfo, data mi, size⟩⟩ := by
  rw [Option.bind_eq_bind, Option.bind_eq_some_iff] at hc
  obtain ⟨⟨p, h₁⟩, hm, hc⟩ := hc
  rcases malloc_cases hm with ⟨-, rfl, rfl⟩ | ⟨hne, rfl, hfresh, rfl⟩
  · cases hc
    exact .inl ⟨rfl, rfl⟩
  · simp only [if_pos hne] at hc
    cases hc
    exact .inr ⟨hne, hfresh, rfl⟩

theorem construct_cases {c : Constructor} {result₁ result₂ mi : Ptr} {h h' : Heap} (hc : construct varsizeDtor c result₁ result₂ h = some (mi, h'))
    (hok : c.Ok varsizeDtor) (hleak : c.IsVarsize → result₁ ≠ 0 → result₂ ≠ 0) :
    mi = 0 ∧ h' = h ∨ ∃ (blocks : List Ptr) (info : MemInfo), mi ≠ 0 ∧ (∀ b ∈ blocks, b ∉ h.live) ∧ blocks.Nodup ∧ mi ∈ blocks ∧
      h' = ⟨blocks ++ h.live, setAt h.info mi info⟩ ∧ info.refct = 1 ∧
      ∀ o : Object, o.made = c → o.data = info.data → InfoOk varsizeDtor info o ∧ (destruction varsizeDtor mi o).Nodup ∧
        ∀ b, .free b ∈ destruction varsizeDtor mi o ↔ b ∈ blocks := by
  cases c with
  | new data size dtor dtorInfo =>
    rcases @single_cases (fun _ => data) _ _ _ _ _ _ _ hc with hfail | ⟨hne, hfresh, rfl⟩
    · exact .inl hfail
    · refine .inr ⟨[mi], _, hne, by simpa using hfresh, by simp, by simp, rfl, rfl, fun o hmade _ => ?_⟩
      simp only [InfoOk, destruction, hmade]
      refine ⟨⟨trivial, trivial, trivial, hok⟩, ?_⟩
      split
      · simp
      · simp
  | allocAligned size align =>
    rcases @single_cases (fun base => alignedData base (align.setWidth 64)) _ _ _ _ _ _ _ hc with hfail | ⟨hne, hfresh, rfl⟩
    · exact .inl hfail
    · refine .inr ⟨[mi], _, hne, by simpa using hfresh, by simp, by simp, rfl, rfl, fun o hmade _ => ?_⟩
      refine ⟨by simp [InfoOk, hmade], ?_, fun b => ?_⟩ <;> simp [destruction, hmade]
  | newVarsize size =>
    rcases memInfoNewVarsize_cases hc (hleak trivial) with hfail | ⟨hne, hfresh, hfresh₂, rfl⟩
    · exact .inl hfail
    · rw [List.mem_cons, not_or] at hfresh₂
      refine .inr ⟨[mi, result₁], _, hne, by simpa using ⟨hfresh₂.2, hfresh⟩, by simpa using hfresh₂.1, by simp, rfl, rfl,
        fun o hmade hdata => ?_⟩
      refine ⟨by simp [InfoOk, hmade, hdata], ?_, fun b => ?_⟩
      · simpa [destruction, hmade, hdata] using Ne.symm hfresh₂.1
      · simp [destruction, hmade, hdata, or_comm]
  | newVarsizeDtor size dtor =>
    rw [construct, memInfoNewVarsizeDtor, Option.bind_eq_bind, Option.bind_eq_some_iff] at hc
    obtain ⟨⟨mi', h₁⟩, hm, hc⟩ := hc
    rcases memInfoNewVarsize_cases hm (hleak trivial) with ⟨rfl, rfl⟩ | ⟨hne, hfresh, hfresh₂, rfl⟩
    · cases hc
      exact .inl ⟨rfl, rfl⟩
    · simp only [if_pos hne, setAt_setAt, setAt_self] at hc
      cases hc
      rw [List.mem_cons, not_or] at hfresh₂
      refine .inr ⟨[mi, result₁], _, hne, by simpa using ⟨hfresh₂.2, hfresh⟩, by simpa using hfresh₂.1, by simp, rfl, rfl,
        fun o hmade hdata => ?_⟩
      simp only [InfoOk, destruction, hmade, hdata]
      refine ⟨⟨trivial, trivial, trivial⟩, ?_⟩
      split
      · simp [Ne.symm hfresh₂.1, or_comm]
      · simp [Ne.symm hfresh₂.1, or_comm]

theorem Inv.construct {s s' : State} (hi : Inv varsizeDtor s) {c : Constructor} {result₁ result₂ : Ptr}
    (hstep : s.create varsizeDtor c result₁ result₂ = some s') (hok : StepOk varsizeDtor s (.construct c result₁ result₂)) :
    Inv varsizeDtor s' := by
  rw [State.create, Option.bind_eq_bind, Option.bind_eq_some_iff] at hstep
  obtain ⟨⟨mi, h⟩, hc, hstep⟩ := hstep
  rcases construct_cases hc hok.1 hok.2 with ⟨rfl, rfl⟩ | ⟨blocks, info, hne, hfresh, hnodup, hmem, rfl, hcount, hall⟩
  · cases hstep
    exact hi
  · simp only [if_neg hne, setAt_self] at hstep
    cases hstep
    obtain ⟨hinfo, hdistinct, hfrees⟩ := hall ⟨c, info.data, 0, 0, 0, []⟩ rfl rfl
    exact hi.create hne hfresh hnodup hmem rfl ⟨rfl, rfl, rfl⟩ hfrees hdistinct hinfo hcount

theorem Inv.active {s : State} (hi : Inv varsizeDtor s) {mi : Ptr} {o : Object} (ho : s.objects mi = some o) (h : o.decrefs < 1 + o.increfs) :
    o.destructions = 0 ∧ Active s mi o := by
  rcases hi.phase mi o ho with hact | hdes
  · exact hact
  · have := hdes.decrefs
    omega

theorem Active.pending_ne_nil {s : State} {mi : Ptr} {o : Object} (hact : Active s mi o) : pending varsizeDtor mi o ≠ [] := by
  obtain ⟨es, hes⟩ := @destruction_eq_append varsizeDtor mi o
  rw [pending_of_trace hact.trace, hes]
  exact List.append_ne_nil_of_right_ne_nil es (List.cons_ne_nil _ _)

theorem Inv.counted {s : State} (hi : Inv varsizeDtor s) {mi : Ptr} {o o' : Object} (ho : s.objects mi = some o) (hact : Active s mi o)
    {n : BitVec 64} (hdes : o'.destructions = 0) (hsame : o'.made = o.made ∧ o'.data = o.data ∧ o'.trace = o.trace) (hlt : o'.decrefs < 1 + o'.increfs)
    (hcount : n = BitVec.ofNat 64 (1 + o'.increfs - o'.decrefs)) (hsmall : 1 + o'.increfs - o'.decrefs < 2 ^ 64) :
    Inv varsizeDtor ⟨⟨s.heap.live, setAt s.heap.info mi { s.heap.info mi with refct := n }⟩, s.threads, setAt s.objects mi (some o')⟩ := by
  refine hi.touch ho hact hsame (fun _ => .inl rfl) hi.threads (.inl ⟨hdes, hsame.2.2.trans hact.trace, hlt, ?_, hsmall, hact.idle⟩)
  exact (congrArg MemInfo.refct (setAt_self ..)).trans hcount

theorem Inv.incref {s s' : State} (hi : Inv varsizeDtor s) {t : Nat} {mi : Ptr} (hstep : incref s t mi = some s')
    (hok : StepOk varsizeDtor s (.incref t mi)) : Inv varsizeDtor s' := by
  unfold Nrt.incref at hstep
  split at hstep
  · split at hstep
    · rename_i hne
      obtain ⟨o, ho, hlt, hsmall⟩ := hok hne
      obtain ⟨hdes, hact⟩ := hi.active ho hlt
      cases hstep
      simp only [State.record, State.setRefct, ho, Option.map_some]
      refine hi.counted ho hact hdes ⟨rfl, rfl, rfl⟩ (by simp only; omega) ?_ (by simp only; omega)
      rw [hact.count, show (1 : BitVec 64) = BitVec.ofNat 64 1 from rfl, ← BitVec.ofNat_add]
      congr 1
      simp only
      omega
    · cases hstep
      exact hi
  · cases hstep

theorem Inv.decref {s s' : State} (hi : Inv varsizeDtor s) (hv : varsizeDtor ≠ 0) {t : Nat} {mi : Ptr} (hstep : decref s t mi = some s')
    (hok : StepOk varsizeDtor s (.decref t mi)) : Inv varsizeDtor s' := by
  unfold Nrt.decref at hstep
  split at hstep
  · rename_i hidle
    split at hstep
    · rename_i hne
      obtain ⟨o, ho, hlt, helement⟩ := hok hne
      obtain ⟨hdes, hact⟩ := hi.active ho hlt
      have hsmall := hact.small
      have hcount : (s.heap.info mi).refct = 1 ↔ o.decrefs = o.increfs := by
        rw [hact.count, ← BitVec.toNat_inj, BitVec.toNat_ofNat, Nat.mod_eq_of_lt hsmall, show (1 : BitVec 64).toNat = 1 from rfl]
        omega
      have htarget : ∀ u, u ≠ t → (s.threads u).target ≠ some mi := fun u _ => hact.idle u
      by_cases hlast : o.decrefs = o.increfs
      · rw [if_pos (hcount.mpr hlast)] at hstep
        cases hstep
        simp only [State.record, State.setRefct, State.setPc, ho, Option.map_some, setAt_self, setAt_setAt]
        refine hi.touch ho hact ⟨rfl, rfl, rfl⟩ (fun u => ?_) (hi.threads.setAt fun k hk u hu => ?_) (.inr ⟨?_, ?_, .inl ⟨t, ?_, ?_⟩⟩)
        · by_cases hu : u = t
          · rw [hu, setAt_self, hidle]
            exact .inr ⟨rfl, rfl⟩
          · exact .inl (setAt_ne _ _ hu)
        · cases hk
          exact htarget u hu
        · simp only [hdes]
        · simp only
          omega
        · exact congrArg Pc.target (setAt_self ..)
        · refine (congrArg (remaining varsizeDtor _) (setAt_self ..)).trans ?_
          have hinfo : InfoOk varsizeDtor (s.heap.info mi) o := hi.info mi o ho hact.pending_ne_nil
          refine (remaining_callDtor hv ?_ (helement hlast)).trans (pending_of_trace hact.trace).symm
          exact (congrArg (fun info => InfoOk varsizeDtor info o) (setAt_self ..)).mpr hinfo
      · rw [if_neg (mt hcount.mp hlast)] at hstep
        cases hstep
        simp only [State.record, State.setRefct, ho, Option.map_some]
        refine hi.counted ho hact hdes ⟨rfl, rfl, rfl⟩ (by simp only; omega) ?_ (by simp only; omega)
        rw [hact.count, ← BitVec.toNat_inj, BitVec.toNat_sub, BitVec.toNat_ofNat, BitVec.toNat_ofNat, Nat.mod_eq_of_lt hsmall,
          show (1 : BitVec 64).toNat = 1 from rfl]
        simp only
        omega
    · cases hstep
      exact hi
  · cases hstep

theorem Inv.resume {s s' : State} (hi : Inv varsizeDtor s) {t : Nat} (hstep : resume varsizeDtor s t = some s') : Inv varsizeDtor s' := by
  unfold Nrt.resume at hstep
  cases hpc : s.threads t with
  | idle =>
    rw [hpc] at hstep
    cases hstep
  | callDtor mi =>
    rw [hpc] at hstep
    have ht : (s.threads t).target = some mi := by rw [hpc]; rfl
    simp only at hstep
    by_cases h0 : (s.heap.info mi).dtor = 0
    · rw [if_neg (not_not_intro h0)] at hstep
      cases hstep
      exact hi.move ht rfl (by simp only [remaining, hpc, if_pos h0]; rfl)
    · rw [if_pos h0] at hstep
      cases hstep
      exact hi.move ht rfl (by simp only [remaining, hpc, if_neg h0])
  | invoke mi dtor =>
    rw [hpc] at hstep
    have ht : (s.threads t).target = some mi := by rw [hpc]; rfl
    simp only at hstep
    by_cases hd : dtor = varsizeDtor
    · rw [if_pos hd] at hstep
      cases hstep
      exact hi.emit ht (by simp only [remaining, hpc, if_pos hd]; rfl) (.inl rfl) (.inr ⟨fun _ => by simp, rfl⟩)
    · rw [if_neg hd] at hstep
      cases hstep
      exact hi.emit ht (by simp only [remaining, hpc, if_neg hd]; rfl) (.inl rfl) (.inr ⟨fun _ => by simp, rfl⟩)
  | varsizeDtor mi data info =>
    rw [hpc] at hstep
    have ht : (s.threads t).target = some mi := by rw [hpc]; rfl
    simp only at hstep
    by_cases h0 : info = 0
    · rw [if_neg (not_not_intro h0)] at hstep
      cases hstep
      exact hi.move ht rfl (by simp only [remaining, hpc, if_pos h0]; rfl)
    · rw [if_pos h0] at hstep
      cases hstep
      exact hi.emit ht (by simp only [remaining, hpc, if_neg h0]; rfl) (.inl rfl) (.inr ⟨fun _ => by simp, rfl⟩)
  | varsizeFree mi data =>
    rw [hpc] at hstep
    cases hstep
    exact hi.emit (by rw [hpc]; rfl) (by simp only [remaining, hpc]) (.inl rfl) (.inl ⟨data, rfl, rfl⟩)
  | destroy mi =>
    rw [hpc] at hstep
    cases hstep
    exact hi.emit (by rw [hpc]; rfl) (by simp only [remaining, hpc]) (.inr rfl) (.inl ⟨mi, rfl, rfl⟩)

theorem inv_step (hv : varsizeDtor ≠ 0) (s : State) (action : Action) (s' : State) (hi : Inv varsizeDtor s) (hok : StepOk varsizeDtor s action)
    (hstep : step varsizeDtor s action = some s') : Inv varsizeDtor s' := by
  cases action with
  | construct c result₁ result₂ => exact hi.construct hstep hok
  | incref t mi => exact hi.incref hstep hok
  | decref t mi => exact hi.decref hv hstep hok
  | resume t => exact hi.resume hstep

theorem law_of_inv {s : State} (hi : Inv varsizeDtor s) : Law varsizeDtor s := by
  refine ⟨fun mi o ho => ?_, hi.held, hi.kept⟩
  have hordered := hi.ordered mi o ho
  rcases hi.phase mi o ho with ⟨hdes, hact⟩ | hdestroyed
  · refine ⟨?_, fun _ => hact.trace, hordered, fun h => ?_⟩
    · have := hact.decrefs
      rw [hdes, if_neg (by omega)]
    · rw [hdes] at h
      cases h
  · have honce := hdestroyed.once
    refine ⟨?_, fun h => ?_, hordered, fun _ hnone => ?_⟩
    · rw [honce, if_pos hdestroyed.decrefs]
    · rw [honce] at h
      cases h
    · rcases hdestroyed.rest with ⟨t, ht, -⟩ | ⟨hnil, -⟩
      · exact absurd ht (hnone t)
      · rw [← trace_append_pending hordered, hnil, List.append_nil]

theorem resume_rank {s : State} {t : Nat} (h : (s.threads t).rank ≠ 0) :
    ∃ s', resume varsizeDtor s t = some s' ∧ (s'.threads t).rank < (s.threads t).rank := by
  unfold Nrt.resume
  cases hpc : s.threads t with
  | idle => exact absurd (by rw [hpc]; rfl) h
  | callDtor mi =>
    by_cases h0 : (s.heap.info mi).dtor = 0
    · exact ⟨_, if_neg (not_not_intro h0), by simp [State.setPc, Pc.rank]⟩
    · exact ⟨_, if_pos h0, by simp [State.setPc, Pc.rank]⟩
  | invoke mi dtor =>
    by_cases hd : dtor = varsizeDtor
    · exact ⟨_, if_pos hd, by simp [State.setPc, Pc.rank]⟩
    · exact ⟨_, if_neg hd, by simp [State.setPc, Pc.rank]⟩
  | varsizeDtor mi data info =>
    by_cases h0 : info = 0
    · exact ⟨_, if_neg (not_not_intro h0), by simp [State.setPc, Pc.rank]⟩
    · exact ⟨_, if_pos h0, by simp [State.setPc, Pc.rank]⟩
  | varsizeFree mi data => exact ⟨_, rfl, by simp [State.setPc, Pc.rank]⟩
  | destroy mi => exact ⟨_, rfl, by simp [State.setPc, Pc.rank]⟩

theorem resume_ends (s : State) (t : Nat) :
    ∃ n s', run (step varsizeDtor) s (.replicate n (.resume t)) = some s' ∧ (s'.threads t).target = none := by
  induction hn : (s.threads t).rank using Nat.strong_induction_on generalizing s with
  | h n ih =>
    by_cases h0 : (s.threads t).rank = 0
    · refine ⟨0, s, rfl, ?_⟩
      cases hpc : s.threads t with
      | idle => rfl
      | callDtor | invoke | varsizeDtor | varsizeFree | destroy => simp [hpc, Pc.rank] at h0
    · obtain ⟨m, hm, hlt⟩ := @resume_rank varsizeDtor _ _ h0
      obtain ⟨k, s', hrun, hidle⟩ := ih _ (hn ▸ hlt) m rfl
      exact ⟨k + 1, s', by rw [List.replicate_succ, run, step, hm]; exact hrun, hidle⟩

/-- Every object is destroyed once, at the decref that brings its count to zero, and a destruction that began ends. -/
theorem nrt_objects_destroyed_once (hv : varsizeDtor ≠ 0) {actions : List Action} {s : State}
    (hok : StepsOk (step varsizeDtor) (StepOk varsizeDtor) initial actions) (h : run (step varsizeDtor) initial actions = some s) :
    Law varsizeDtor s ∧
      ∀ t, ∃ n s', run (step varsizeDtor) s (.replicate n (.resume t)) = some s' ∧ (s'.threads t).target = none :=
  ⟨law_of_inv (run_inv _ (inv_step hv) inv_initial hok h), resume_ends s⟩

end

/-- Two threads share an object, and the second one destroys it. -/
def sharing : List Action :=
  [.construct (.newVarsize 8) 64 128, .incref 1 128, .decref 0 128, .decref 1 128] ++ .replicate 5 (.resume 1)

theorem nrt_objects_destroyed_once_shared :
    ∃ s, run (step 16) initial sharing = some s ∧ s.heap.live = [] ∧
      Law 16 s ∧ ∀ t, ∃ n s', run (step 16) s (.replicate n (.resume t)) = some s' ∧ (s'.threads t).target = none := by
  refine ⟨_, rfl, rfl, @nrt_objects_destroyed_once _ (by decide) sharing _ ?_ rfl⟩
  refine stepsOk_cons _ rfl ⟨trivial, fun _ _ => by decide⟩ (stepsOk_cons _ rfl (fun _ => ⟨_, rfl, by decide, by decide⟩) ?_)
  refine stepsOk_cons _ rfl (fun _ => ⟨_, rfl, by decide, fun h => by cases h⟩) ?_
  refine stepsOk_cons _ rfl (fun _ => ⟨_, rfl, by decide, fun _ size dtor h => by cases h⟩) ?_
  exact stepsOk_cons _ rfl trivial (stepsOk_cons _ rfl trivial (stepsOk_cons _ rfl trivial (stepsOk_cons _ rfl trivial
    (stepsOk_cons _ rfl trivial trivial))))

/-- The second allocation fails and the data stay; an element destructor is not called. -/
theorem varsize_destruction_incomplete :
    (∃ s, run (step 16) initial [.construct (.newVarsize 8) 64 0] = some s ∧ s.heap.live = [64] ∧ ¬ Law 16 s) ∧
      ∃ s, run (step 16) initial ([.construct (.newVarsizeDtor 8 32) 64 128, .decref 0 128] ++ .replicate 5 (.resume 0)) = some s ∧
        (s.objects 128).map Object.trace = some [.dtor 16 64 8, .free 64, .free 128] ∧ (s.threads 0).target = none ∧ ¬ Law 16 s := by
  refine ⟨⟨_, rfl, rfl, fun h => ?_⟩, _, rfl, rfl, rfl, fun h => ?_⟩
  · obtain ⟨mi, o, ho, -⟩ := h.kept 64 (by decide)
    cases ho
  · have hobject := (h.objects 128 _ rfl).ordered
    exact absurd hobject (by decide)

end NumbaCudaMlir.Nrt

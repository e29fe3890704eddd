import NumbaCudaMlir.CacheFile

/-!
# Processes that share the cache files

A save reads the index, writes it with a new name and then writes the data
file; a load reads the index and then the data file. Each of these steps is one
event. Two saves that read the same index choose the same name.
-/

namespace NumbaCudaMlir.CacheFile

variable {τ κ δ : Type}

inductive CallPc (τ κ δ : Type) where
  | idle
  | indexing (f : IndexDataCacheFile τ) (overloads : Dict κ Nat) (key : κ) (data : δ)
  | writing (key : κ) (data : δ) (name : Nat)
  | reading (key : κ) (name : Nat)

structure Written (κ δ : Type) where
  name : Nat
  key : κ
  data : δ

structure ShareState (τ κ δ : Type) where
  disk : Files τ κ δ
  calls : Nat → CallPc τ κ δ
  written : List (Written κ δ)
  loaded : List (κ × Option δ)

inductive ShareEvent (τ κ δ : Type) where
  | save (i : Nat) (f : IndexDataCacheFile τ) (key : κ) (data : δ)
  | saveIndex (i : Nat)
  | saveData (i : Nat)
  | load (i : Nat) (f : IndexDataCacheFile τ) (key : κ)
  | loadData (i : Nat)

def ShareState.init : ShareState τ κ δ := ⟨.empty, fun _ => .idle, [], []⟩

def ShareState.setPc (s : ShareState τ κ δ) (i : Nat) (pc : CallPc τ κ δ) : ShareState τ κ δ :=
  { s with calls := Runs.setAt s.calls i pc }

section
variable [DecidableEq τ] [DecidableEq κ]

def shareStep (s : ShareState τ κ δ) : ShareEvent τ κ δ → Option (ShareState τ κ δ)
  | .save i f key data =>
    match s.calls i with
    | .idle =>
      let overloads := loadIndex f s.disk
      match overloads.get key with
      | some name => some (s.setPc i (.writing key data name))
      | none => some (s.setPc i (.indexing f overloads key data))
    | _ => none
  | .saveIndex i =>
    match s.calls i with
    | .indexing f overloads key data =>
      let name := firstFree overloads.values
      some { s.setPc i (.writing key data name) with disk := saveIndex f (overloads.set key name) s.disk }
    | _ => none
  | .saveData i =>
    match s.calls i with
    | .writing key data name =>
      some { s.setPc i .idle with disk := saveData name data s.disk, written := ⟨name, key, data⟩ :: s.written }
    | _ => none
  | .load i f key =>
    match s.calls i with
    | .idle =>
      match (loadIndex f s.disk).get key with
      | none => some { s with loaded := (key, none) :: s.loaded }
      | some name => some (s.setPc i (.reading key name))
    | _ => none
  | .loadData i =>
    match s.calls i with
    | .reading key name =>
      some { s.setPc i .idle with loaded := (key, loadData name s.disk) :: s.loaded }
    | _ => none

/-- When an index is saved, the name that it adds is no other key's: no save under
another key has written that file or is about to. -/
def NameUnused (s : ShareState τ κ δ) : ShareEvent τ κ δ → Prop
  | .saveIndex i =>
    match s.calls i with
    | .indexing _ overloads key _ =>
      (∀ w ∈ s.written, w.name = firstFree overloads.values → w.key = key) ∧
      ∀ j key' data', s.calls j = .writing key' data' (firstFree overloads.values) → key' = key
    | _ => True
  | _ => True

/-! ## Owners of names -/

def OwnedBy (own : Nat → Option κ) (overloads : Dict κ Nat) : Prop :=
  ∀ k n, overloads.get k = some n → own n = some k

def CallOwned (own : Nat → Option κ) : CallPc τ κ δ → Prop
  | .idle => True
  | .indexing _ overloads _ _ => OwnedBy own overloads
  | .writing key _ name | .reading key name => own name = some key

def Used (s : ShareState τ κ δ) (n : Nat) : Prop :=
  (∃ w ∈ s.written, w.name = n) ∨ ∃ i key data, s.calls i = .writing key data n

def LoadedOwn (s : ShareState τ κ δ) : Prop :=
  ∀ key data, (key, some data) ∈ s.loaded → ∃ w ∈ s.written, w.key = key ∧ w.data = data

structure Inv (own : Nat → Option κ) (s : ShareState τ κ δ) : Prop where
  index : ∀ f, OwnedBy own (loadIndex f s.disk)
  data : ∀ n x, loadData n s.disk = some x → ∃ w ∈ s.written, w.name = n ∧ w.data = x
  written : ∀ w ∈ s.written, own w.name = some w.key
  calls : ∀ i, CallOwned own (s.calls i)
  used : ∀ n k, own n = some k → Used s n
  loaded : LoadedOwn s

theorem ownedBy_empty (own : Nat → Option κ) : OwnedBy own .empty := by
  intro k n h
  rw [Dict.get_empty] at h
  cases h

theorem inv_init : Inv (fun _ => none) (.init : ShareState τ κ δ) where
  index f := ownedBy_empty _
  data n x h := by cases h
  written w h := by cases h
  calls i := trivial
  used n k h := by cases h
  loaded key data h := by cases h

/-! ## More owners -/

theorem OwnedBy.mono {own own' : Nat → Option κ} (h : ∀ n k, own n = some k → own' n = some k)
    {overloads : Dict κ Nat} (ho : OwnedBy own overloads) : OwnedBy own' overloads :=
  fun k n hk => h n k (ho k n hk)

omit [DecidableEq τ] in
theorem CallOwned.mono {own own' : Nat → Option κ} (h : ∀ n k, own n = some k → own' n = some k)
    {pc : CallPc τ κ δ} (hc : CallOwned own pc) : CallOwned own' pc := by
  cases pc with
  | idle => trivial
  | indexing f overloads key data => exact OwnedBy.mono h hc
  | writing key data name => exact h name key hc
  | reading key name => exact h name key hc

omit [DecidableEq κ] in
theorem owner_take {own : Nat → Option κ} {name : Nat} {key : κ} (hn : ∀ k, own name = some k → k = key) :
    ∀ n k, own n = some k → Runs.setAt own name (some key) n = some k := by
  intro n k hk
  by_cases h : n = name
  · subst h
    rw [Runs.setAt_self, hn k hk]
  · rw [Runs.setAt_ne _ _ h, hk]

theorem OwnedBy.set {own : Nat → Option κ} {overloads : Dict κ Nat} {key : κ} {name : Nat} (ho : OwnedBy own overloads)
    (hn : ∀ k, own name = some k → k = key) : OwnedBy (Runs.setAt own name (some key)) (overloads.set key name) := by
  intro k n hk
  rcases Dict.get_of_set hk with ⟨rfl, rfl⟩ | hk
  · exact Runs.setAt_self _ _ _
  · exact owner_take hn n k (ho k n hk)

/-! ## Steps -/

section
variable {own : Nat → Option κ} {s : ShareState τ κ δ}

theorem Inv.owner_of_unused (hi : Inv own s) {name : Nat} {key : κ} (hw : ∀ w ∈ s.written, w.name = name → w.key = key)
    (hc : ∀ j key' data', s.calls j = .writing key' data' name → key' = key) {k : κ} (hk : own name = some k) :
    k = key := by
  rcases hi.used name k hk with ⟨w, hmem, hname⟩ | ⟨i, key', data', hcall⟩
  · have := hi.written w hmem
    rw [hname, hk] at this
    cases this
    exact hw w hmem hname
  · have := hi.calls i
    rw [hcall] at this
    have hown : own name = some key' := this
    rw [hk] at hown
    cases hown
    exact hc i _ data' hcall

omit [DecidableEq τ] [DecidableEq κ] in
theorem Used.setPc {i n : Nat} {pc : CallPc τ κ δ} (h : Used s n) (hnot : ∀ key data, s.calls i ≠ .writing key data n) :
    Used (s.setPc i pc) n := by
  rcases h with h | ⟨j, key, data, hj⟩
  · left; exact h
  · right
    refine ⟨j, key, data, ?_⟩
    have hne : j ≠ i := fun e => hnot key data (e ▸ hj)
    exact (Runs.setAt_ne _ _ hne).trans hj

theorem Inv.move (hi : Inv own s) {i : Nat} {pc : CallPc τ κ δ} (hpc : CallOwned own pc)
    (hnot : ∀ key data n, s.calls i ≠ .writing key data n) : Inv own (s.setPc i pc) where
  index := hi.index
  data := hi.data
  written := hi.written
  calls := Runs.setAt_forall (P := fun _ => CallOwned own) hpc hi.calls fun _ _ h => h
  used n k h := (hi.used n k h).setPc fun key data => hnot key data n
  loaded := hi.loaded

theorem Inv.saveIndex (hi : Inv own s) {i : Nat} {f : IndexDataCacheFile τ} {overloads : Dict κ Nat} {key : κ}
    {data : δ} (hpc : s.calls i = .indexing f overloads key data) {name : Nat}
    (hn : ∀ k, own name = some k → k = key) :
    Inv (Runs.setAt own name (some key))
      { s.setPc i (.writing key data name) with disk := CacheFile.saveIndex f (overloads.set key name) s.disk } := by
  have hmono := owner_take hn
  have ho : OwnedBy own overloads := by
    have := hi.calls i
    rw [hpc] at this
    exact this
  refine ⟨?_, hi.data, fun w hw => hmono _ _ (hi.written w hw), ?_, ?_, hi.loaded⟩
  · intro g
    show OwnedBy _ (loadIndex g (CacheFile.saveIndex f (overloads.set key name) s.disk))
    rw [loadIndex_saveIndex]
    split
    · exact ho.set hn
    · exact ownedBy_empty _
  · apply Runs.setAt_forall (P := fun _ => CallOwned own) (Q := fun _ => CallOwned (Runs.setAt own name (some key)))
    · exact Runs.setAt_self _ _ _
    · exact hi.calls
    · intro j _ h; exact h.mono hmono
  · intro n k hk
    by_cases h : n = name
    · subst h
      right; exact ⟨i, key, data, Runs.setAt_self _ _ _⟩
    · rw [Runs.setAt_ne _ _ h] at hk
      exact (hi.used n k hk).setPc fun key' data' e => by rw [hpc] at e; cases e

theorem Inv.saveData (hi : Inv own s) {i : Nat} {key : κ} {data : δ} {name : Nat}
    (hpc : s.calls i = .writing key data name) :
    Inv own { s.setPc i .idle with
      disk := CacheFile.saveData name data s.disk, written := ⟨name, key, data⟩ :: s.written } where
  index := hi.index
  data n x hx := by
    by_cases h : n = name
    · subst h
      rw [loadData_saveData] at hx
      cases hx
      exact ⟨_, List.mem_cons_self, rfl, rfl⟩
    · rw [loadData_saveData_ne _ _ h] at hx
      obtain ⟨w, hw, hw'⟩ := hi.data n x hx
      exact ⟨w, List.mem_cons_of_mem _ hw, hw'⟩
  written w hw := by
    rcases List.mem_cons.mp hw with rfl | hw
    · have := hi.calls i
      rw [hpc] at this
      exact this
    · exact hi.written w hw
  calls := Runs.setAt_forall (P := fun _ => CallOwned own) trivial hi.calls fun _ _ h => h
  used n k hk := by
    rcases hi.used n k hk with ⟨w, hw, hn⟩ | ⟨j, key', data', hj⟩
    · left; exact ⟨w, List.mem_cons_of_mem _ hw, hn⟩
    · by_cases h : j = i
      · left
        rw [h, hpc] at hj
        cases hj
        exact ⟨_, List.mem_cons_self, rfl⟩
      · right; exact ⟨j, key', data', (Runs.setAt_ne _ _ h).trans hj⟩
  loaded key' data' h := by
    obtain ⟨w, hw, hw'⟩ := hi.loaded key' data' h
    exact ⟨w, List.mem_cons_of_mem _ hw, hw'⟩

theorem Inv.log (hi : Inv own s) {key : κ} {r : Option δ}
    (hr : ∀ data, r = some data → ∃ w ∈ s.written, w.key = key ∧ w.data = data) :
    Inv own { s with loaded := (key, r) :: s.loaded } := by
  refine ⟨hi.index, hi.data, hi.written, hi.calls, hi.used, ?_⟩
  intro key' data' h
  rcases List.mem_cons.mp h with h | h
  · cases h
    exact hr data' rfl
  · exact hi.loaded key' data' h

theorem inv_step {s' : ShareState τ κ δ} {e : ShareEvent τ κ δ} (hi : Inv own s) (hok : NameUnused s e)
    (h : shareStep s e = some s') : ∃ own', Inv own' s' := by
  cases e with
  | save i f key data =>
    simp only [shareStep] at h
    split at h
    · next hpc =>
      have hnot : ∀ key data n, s.calls i ≠ .writing key data n := fun _ _ _ e => by rw [hpc] at e; cases e
      split at h
      · next name hget =>
        cases h
        exact ⟨own, hi.move (hi.index f key name hget) hnot⟩
      · cases h
        exact ⟨own, hi.move (hi.index f) hnot⟩
    · cases h
  | saveIndex i =>
    simp only [shareStep] at h
    split at h
    · next f overloads key data hpc =>
      cases h
      simp only [NameUnused, hpc] at hok
      exact ⟨_, hi.saveIndex hpc fun k => hi.owner_of_unused hok.1 hok.2⟩
    · cases h
  | saveData i =>
    simp only [shareStep] at h
    split at h
    · next key data name hpc =>
      cases h
      exact ⟨own, hi.saveData hpc⟩
    · cases h
  | load i f key =>
    simp only [shareStep] at h
    split at h
    · next hpc =>
      have hnot : ∀ key data n, s.calls i ≠ .writing key data n := fun _ _ _ e => by rw [hpc] at e; cases e
      split at h
      · cases h
        exact ⟨own, hi.log fun data h => by cases h⟩
      · next name hget =>
        cases h
        exact ⟨own, hi.move (hi.index f key name hget) hnot⟩
    · cases h
  | loadData i =>
    simp only [shareStep] at h
    split at h
    · next key name hpc =>
      cases h
      have hown : own name = some key := by
        have := hi.calls i
        rw [hpc] at this
        exact this
      have hidle : Inv own (s.setPc i .idle) := hi.move trivial fun _ _ _ e => by rw [hpc] at e; cases e
      refine ⟨own, hidle.log ?_⟩
      intro data hdata
      obtain ⟨w, hw, hname, hd⟩ := hi.data name data hdata
      refine ⟨w, hw, ?_, hd⟩
      have := hi.written w hw
      rw [hname, hown] at this
      exact (Option.some.inj this).symm
    · cases h

end

/-- **Shared cache files.** Where no save takes a name of another key, every load
returns nothing or data that was saved under its key. -/
theorem shared_loads_own {es : List (ShareEvent τ κ δ)} {s : ShareState τ κ δ}
    (hok : Runs.StepsOk shareStep NameUnused .init es) (h : Runs.run shareStep .init es = some s) : LoadedOwn s := by
  have hstep : ∀ (s : ShareState τ κ δ) e s', (∃ own, Inv own s) → NameUnused s e → shareStep s e = some s' →
      ∃ own, Inv own s' := by
    rintro s e s' ⟨own, hi⟩ hok h
    exact inv_step hi hok h
  obtain ⟨own, hi⟩ := Runs.run_inv shareStep hstep ⟨_, inv_init⟩ hok h
  exact hi.loaded

end

/-! ## Two saves -/

/-- Both saves read the empty index and choose name 1. -/
def sharedName : List (ShareEvent Nat Nat Nat) :=
  [.save 0 ⟨"0.1", 0⟩ 1 10, .save 1 ⟨"0.1", 0⟩ 2 20, .saveIndex 0, .saveIndex 1, .saveData 1, .saveData 0,
   .load 0 ⟨"0.1", 0⟩ 2, .loadData 0]

theorem shared_loads_other :
    ∃ s, Runs.run shareStep .init sharedName = some s ∧ (2, some 10) ∈ s.loaded ∧ ¬ LoadedOwn s := by
  refine ⟨_, rfl, List.mem_cons_self, ?_⟩
  intro h
  obtain ⟨w, hw, hk, hd⟩ := h 2 10 List.mem_cons_self
  rcases List.mem_cons.mp hw with rfl | hw
  · cases hk
  · rcases List.mem_cons.mp hw with rfl | hw
    · cases hd
    · cases hw

def ownNames : List (ShareEvent Nat Nat Nat) :=
  [.save 0 ⟨"0.1", 0⟩ 1 10, .saveIndex 0, .save 1 ⟨"0.1", 0⟩ 2 20, .saveIndex 1, .saveData 1, .saveData 0,
   .load 0 ⟨"0.1", 0⟩ 2, .loadData 0]

theorem shared_loads_own_names :
    ∃ s, Runs.run shareStep .init ownNames = some s ∧ (2, some 20) ∈ s.loaded ∧ LoadedOwn s := by
  refine ⟨_, rfl, List.mem_cons_self, ?_⟩
  refine @shared_loads_own Nat Nat Nat _ _ ownNames _ ?_ rfl
  unfold ownNames
  apply Runs.stepsOk_cons _ rfl trivial
  apply Runs.stepsOk_cons _ rfl
  · refine ⟨fun w hw => (by cases hw), ?_⟩
    intro j key' data' h
    by_cases hj : j = 0 <;> simp [ShareState.setPc, ShareState.init, Runs.setAt, hj] at h
  apply Runs.stepsOk_cons _ rfl trivial
  apply Runs.stepsOk_cons _ rfl
  · refine ⟨fun w hw => (by cases hw), ?_⟩
    -- the only save in progress writes name 1
    intro j key' data' h
    by_cases hj : j = 1
    · simp [ShareState.setPc, ShareState.init, Runs.setAt, hj] at h
    · by_cases hj' : j = 0
      · subst hj'
        have h : CallPc.writing 1 10 1 = CallPc.writing key' data' 2 := h
        cases h
      · simp [ShareState.setPc, ShareState.init, Runs.setAt, hj, hj'] at h
  apply Runs.stepsOk_cons _ rfl trivial
  apply Runs.stepsOk_cons _ rfl trivial
  apply Runs.stepsOk_cons _ rfl trivial
  apply Runs.stepsOk_cons _ rfl trivial
  trivial

end NumbaCudaMlir.CacheFile

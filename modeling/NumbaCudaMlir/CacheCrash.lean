import NumbaCudaMlir.CacheFile

/-!
# Saves that stop halfway

The index names a data file before the file is written. A save that stops in
between leaves the name to whatever the file holds, which may be data of
another source stamp.
-/

namespace NumbaCudaMlir.CacheFile

variable {τ κ δ : Type} [DecidableEq τ] [DecidableEq κ]

/-! ## Names of one index -/

/-- No two keys have one data file. -/
def DistinctNames (overloads : Dict κ Nat) : Prop :=
  ∀ k k' n, overloads.get k = some n → overloads.get k' = some n → k = k'

theorem distinctNames_empty : DistinctNames (.empty : Dict κ Nat) := by
  intro k k' n h
  rw [Dict.get_empty] at h
  cases h

theorem DistinctNames.set {overloads : Dict κ Nat} (h : DistinctNames overloads) {key : κ} {name : Nat}
    (hn : name ∉ overloads.values) : DistinctNames (overloads.set key name) := by
  intro k k' n hk hk'
  rcases Dict.get_of_set hk with ⟨rfl, rfl⟩ | hold
  · rcases Dict.get_of_set hk' with ⟨rfl, -⟩ | hold'
    · rfl
    · exact absurd (Dict.mem_values_of_get hold') hn
  · rcases Dict.get_of_set hk' with ⟨rfl, rfl⟩ | hold'
    · exact absurd (Dict.mem_values_of_get hold) hn
    · exact h k k' n hold hold'

/-! ## Reachable files -/

/-- The files after any saves, complete or stopped, and flushes, by processes of
any version and source stamp. -/
inductive Reachable : Files τ κ δ → Prop where
  | empty : Reachable .empty
  | save {disk : Files τ κ δ} (f : IndexDataCacheFile τ) (key : κ) (data : δ) (stop : Stop) :
      Reachable disk → Reachable (stoppedSave f key data disk stop)
  | flush {disk : Files τ κ δ} (f : IndexDataCacheFile τ) : Reachable disk → Reachable (flush f disk)

def IndexOk (disk : Files τ κ δ) : Prop := ∀ f, DistinctNames (loadIndex f disk)

theorem IndexOk.saveIndex {disk : Files τ κ δ} {overloads : Dict κ Nat} (h : DistinctNames overloads)
    (f : IndexDataCacheFile τ) : IndexOk (saveIndex f overloads disk) := by
  intro g
  rw [loadIndex_saveIndex]
  split
  · exact h
  · exact distinctNames_empty

theorem IndexOk.saveData {disk : Files τ κ δ} (h : IndexOk disk) (name : Nat) (data : δ) :
    IndexOk (saveData name data disk) :=
  fun g => h g

theorem IndexOk.add {disk : Files τ κ δ} (h : IndexOk disk) (f : IndexDataCacheFile τ) (key : κ) :
    IndexOk (CacheFile.saveIndex f ((loadIndex f disk).set key (firstFree (loadIndex f disk).values)) disk) :=
  .saveIndex ((h f).set (firstFree_not_mem _)) f

theorem IndexOk.stoppedSave {disk : Files τ κ δ} (h : IndexOk disk) (f : IndexDataCacheFile τ) (key : κ) (data : δ)
    (stop : Stop) : IndexOk (stoppedSave f key data disk stop) := by
  cases stop with
  | beforeIndex => exact h
  | beforeData =>
    simp only [CacheFile.stoppedSave]
    split
    · exact h
    · exact h.add f key
  | afterData =>
    simp only [CacheFile.stoppedSave, save]
    split
    · exact h.saveData _ _
    · exact (h.add f key).saveData _ _

theorem Reachable.indexOk {disk : Files τ κ δ} (h : Reachable disk) : IndexOk disk := by
  induction h with
  | empty => intro f; exact distinctNames_empty
  | save f key data stop _ ih => exact ih.stoppedSave f key data stop
  | flush f _ ih => exact .saveIndex distinctNames_empty f

/-! ## Loads after a stopped save -/

/-- What a load may return after a save of `data` under `key` stopped: what it
returned before, nothing, or the new data. -/
def LoadOk (key : κ) (data : δ) (before after : Files τ κ δ) (g : IndexDataCacheFile τ) (k : κ) : Prop :=
  load g k after = load g k before ∨ load g k after = none ∨ k = key ∧ load g k after = some data

/-- The save stops before its data is written, under a new name of which a data
file with other contents is left. -/
def LeavesStale (f : IndexDataCacheFile τ) (key : κ) (data : δ) (disk : Files τ κ δ) (stop : Stop) : Prop :=
  stop = .beforeData ∧ (loadIndex f disk).get key = none ∧
    ∃ n stale, IsFirstFree (loadIndex f disk).values n ∧ loadData n disk = some stale ∧ stale ≠ data

section
variable {f : IndexDataCacheFile τ} {key : κ} {data : δ} {disk : Files τ κ δ}

theorem loadOk_overwrite (hd : DistinctNames (loadIndex f disk)) {name : Nat}
    (hk : (loadIndex f disk).get key = some name) (g : IndexDataCacheFile τ) (k : κ) :
    LoadOk key data disk (saveData name data disk) g k := by
  cases hgk : (loadIndex g disk).get k with
  | none => right; left; exact load_of_get_none hgk
  | some m =>
    unfold LoadOk
    rw [load_of_get (show (loadIndex g (saveData name data disk)).get k = some m from hgk), load_of_get hgk]
    by_cases hm : m = name
    · subst hm
      obtain rfl := eq_of_get hgk hk
      right; right
      exact ⟨hd k key m hgk hk, loadData_saveData _ _ _⟩
    · left; exact loadData_saveData_ne _ _ hm

theorem loadOk_add {name : Nat} {after : Files τ κ δ} (hn : name ∉ (loadIndex f disk).values)
    (ha : ∀ g, loadIndex g after = if g = f then (loadIndex f disk).set key name else .empty)
    (hdata : ∀ m, m ≠ name → loadData m after = loadData m disk)
    (hname : loadData name after = none ∨ loadData name after = some data) (g : IndexDataCacheFile τ) (k : κ) :
    LoadOk key data disk after g k := by
  by_cases hg : g = f
  · subst hg
    have hi := ha g
    rw [if_pos rfl] at hi
    by_cases hk : k = key
    · subst hk
      have hget : (loadIndex g after).get k = some name := by rw [hi, Dict.get_set_self]
      unfold LoadOk
      rw [load_of_get hget]
      rcases hname with h | h
      · right; left; exact h
      · right; right; exact ⟨rfl, h⟩
    · have hget : (loadIndex g after).get k = (loadIndex g disk).get k := by rw [hi, Dict.get_set_ne _ _ hk]
      cases hgk : (loadIndex g disk).get k with
      | none => right; left; exact load_of_get_none (hget.trans hgk)
      | some m =>
        left
        rw [load_of_get (hget.trans hgk), load_of_get hgk]
        apply hdata
        rintro rfl
        exact hn (Dict.mem_values_of_get hgk)
  · right; left
    apply load_of_get_none
    rw [ha g, if_neg hg, Dict.get_empty]

theorem loadOk_of_not_leavesStale (hr : Reachable disk) {stop : Stop} (h : ¬ LeavesStale f key data disk stop)
    (g : IndexDataCacheFile τ) (k : κ) : LoadOk key data disk (stoppedSave f key data disk stop) g k := by
  cases stop with
  | beforeIndex => left; rfl
  | beforeData =>
    simp only [stoppedSave]
    split
    · left; rfl
    · next hnone =>
      apply loadOk_add (firstFree_not_mem _) fun g => loadIndex_saveIndex f g _ disk
      · intro m _; rfl
      · rw [loadData_saveIndex]
        cases hs : loadData (firstFree (loadIndex f disk).values) disk with
        | none => left; rfl
        | some stale =>
          right
          by_contra hne
          exact h ⟨rfl, hnone, _, stale, isFirstFree_firstFree _, hs, fun e => hne (e ▸ rfl)⟩
  | afterData =>
    simp only [stoppedSave, save]
    split
    · next name hk => exact loadOk_overwrite (hr.indexOk f) hk g k
    · next hnone =>
      apply loadOk_add (firstFree_not_mem _)
      · intro g; exact loadIndex_saveIndex f g _ disk
      · intro m hm; exact loadData_saveData_ne _ _ hm
      · right; exact loadData_saveData _ _ _

theorem not_loadOk_of_leavesStale {stop : Stop} (h : LeavesStale f key data disk stop) :
    ¬ LoadOk key data disk (stoppedSave f key data disk stop) f key := by
  obtain ⟨rfl, hnone, n, stale, hn, hs, hne⟩ := h
  obtain rfl := isFirstFree_unique hn (isFirstFree_firstFree _)
  have hafter : load f key (stoppedSave f key data disk .beforeData) = some stale := by
    simp only [stoppedSave, hnone]
    refine Eq.trans (load_of_get ?_) hs
    rw [loadIndex_saveIndex, if_pos rfl, Dict.get_set_self]
  unfold LoadOk
  rw [hafter, load_of_get_none hnone]
  rintro (h | h | ⟨-, h⟩)
  · cases h
  · cases h
  · exact hne (Option.some.inj h)

/-- **A stopped save** changes no load but its own key's, which returns nothing
or the new data, exactly when it doesn't leave a stale file under its name. -/
theorem stoppedSave_loads (hr : Reachable disk) (stop : Stop) :
    (∀ g k, LoadOk key data disk (stoppedSave f key data disk stop) g k) ↔ ¬ LeavesStale f key data disk stop := by
  constructor
  · intro h hs
    exact not_loadOk_of_leavesStale hs (h f key)
  · intro h g k
    exact loadOk_of_not_leavesStale hr h g k

end

/-! ## A stamp change -/

def savedAtStamp0 : Files Nat Nat Nat := stoppedSave ⟨"0.1", 0⟩ 1 10 .empty .afterData

/-- The next stamp's save of 20 under key 2 stops before its data: key 2 loads 10. -/
theorem stoppedSave_loads_stale :
    Reachable savedAtStamp0 ∧
      ¬ ∀ g k, LoadOk 2 20 savedAtStamp0 (stoppedSave ⟨"0.1", 1⟩ 2 20 savedAtStamp0 .beforeData) g k := by
  refine ⟨.save _ _ _ _ .empty, ?_⟩
  intro h
  have := h ⟨"0.1", 1⟩ 2
  unfold LoadOk at this
  have hafter : load ⟨"0.1", 1⟩ 2 (stoppedSave ⟨"0.1", 1⟩ 2 20 savedAtStamp0 .beforeData) = some 10 := rfl
  have hbefore : load ⟨"0.1", 1⟩ 2 savedAtStamp0 = none := rfl
  rw [hafter, hbefore] at this
  simp at this

theorem stoppedSave_loads_fresh :
    Reachable savedAtStamp0 ∧
      ∀ g k, LoadOk 2 20 savedAtStamp0 (stoppedSave ⟨"0.1", 0⟩ 2 20 savedAtStamp0 .beforeData) g k := by
  have hr : Reachable savedAtStamp0 := .save _ _ _ _ .empty
  refine ⟨hr, (stoppedSave_loads hr .beforeData).mpr ?_⟩
  rintro ⟨-, -, n, stale, hn, hs, -⟩
  rw [isFirstFree_unique hn (isFirstFree_firstFree _)] at hs
  cases hs

end NumbaCudaMlir.CacheFile

import NumbaCudaMlir.Dict
import NumbaCudaMlir.Runs
import Mathlib.Data.List.Range
import Mathlib.Data.List.Perm.Subperm

/-!
# The files of the disk cache

One index file maps keys to the numbers of data files. The process that reads
it takes it as empty when its version or source stamp is another; data files
are never removed. A file is replaced at once, so a save that stops has done
some of its replacements.
-/

namespace NumbaCudaMlir

/-- `IndexDataCacheFile`, less its paths: all of one `filename_base` in one
directory name the same files. -/
structure IndexDataCacheFile (τ : Type) where
  version : String
  sourceStamp : τ
deriving DecidableEq

namespace CacheFile

structure IndexFile (τ κ : Type) where
  version : String
  stamp : τ
  overloads : Dict κ Nat

structure Files (τ κ δ : Type) where
  index : Option (IndexFile τ κ)
  data : Nat → Option δ

variable {τ κ δ : Type}

def Files.empty : Files τ κ δ := ⟨none, fun _ => none⟩

/-! ## Reads and writes -/

def loadIndex [DecidableEq τ] (f : IndexDataCacheFile τ) (disk : Files τ κ δ) : Dict κ Nat :=
  match disk.index with
  | none => .empty
  | some i =>
    if i.version ≠ f.version then .empty
    else if i.stamp ≠ f.sourceStamp then .empty
    else i.overloads

def saveIndex (f : IndexDataCacheFile τ) (overloads : Dict κ Nat) (disk : Files τ κ δ) : Files τ κ δ :=
  { disk with index := some ⟨f.version, f.sourceStamp, overloads⟩ }

def loadData (name : Nat) (disk : Files τ κ δ) : Option δ := disk.data name

def saveData (name : Nat) (data : δ) (disk : Files τ κ δ) : Files τ κ δ :=
  { disk with data := Runs.setAt disk.data name (some data) }

/-- `itertools.count(1)`, up to the first number that no entry has. -/
def firstFree (existing : List Nat) : Nat :=
  ((List.range' 1 (existing.length + 1)).find? fun i => i ∉ existing).getD 0

/-! ## The calls -/

def flush (f : IndexDataCacheFile τ) (disk : Files τ κ δ) : Files τ κ δ := saveIndex f .empty disk

section
variable [DecidableEq τ] [DecidableEq κ]

def save (f : IndexDataCacheFile τ) (key : κ) (data : δ) (disk : Files τ κ δ) : Files τ κ δ :=
  let overloads := loadIndex f disk
  match overloads.get key with
  | some name => saveData name data disk
  | none =>
    let name := firstFree overloads.values
    saveData name data (saveIndex f (overloads.set key name) disk)

def load (f : IndexDataCacheFile τ) (key : κ) (disk : Files τ κ δ) : Option δ :=
  match (loadIndex f disk).get key with
  | none => none
  | some name => loadData name disk

/-- Where a save raises or its process stops. `_dump` of the data raises after
the index is saved. -/
inductive Stop where
  | beforeIndex
  | beforeData
  | afterData
deriving DecidableEq

def stoppedSave (f : IndexDataCacheFile τ) (key : κ) (data : δ) (disk : Files τ κ δ) : Stop → Files τ κ δ
  | .beforeIndex => disk
  | .beforeData =>
    let overloads := loadIndex f disk
    match overloads.get key with
    | some _ => disk
    | none => saveIndex f (overloads.set key (firstFree overloads.values)) disk
  | .afterData => save f key data disk

end

/-! ## The first free number -/

theorem exists_free (existing : List Nat) : ∃ i ∈ List.range' 1 (existing.length + 1), i ∉ existing := by
  by_contra h
  push Not at h
  have hs : List.Subperm (List.range' 1 (existing.length + 1)) existing :=
    List.subperm_of_subset List.nodup_range' h
  have := hs.length_le
  rw [List.length_range'] at this
  omega

theorem firstFree_eq_some (existing : List Nat) :
    (List.range' 1 (existing.length + 1)).find? (fun i => i ∉ existing) = some (firstFree existing) := by
  obtain ⟨i, hi, hf⟩ := exists_free existing
  have : ((List.range' 1 (existing.length + 1)).find? fun i => i ∉ existing).isSome := by
    rw [List.find?_isSome]
    exact ⟨i, hi, by simpa using hf⟩
  obtain ⟨n, hn⟩ := Option.isSome_iff_exists.mp this
  unfold firstFree
  rw [hn]; rfl

theorem firstFree_not_mem (existing : List Nat) : firstFree existing ∉ existing := by
  have := List.find?_some (firstFree_eq_some existing)
  simpa using this

def IsFirstFree (existing : List Nat) (n : Nat) : Prop :=
  1 ≤ n ∧ n ∉ existing ∧ ∀ m, 1 ≤ m → m < n → m ∈ existing

theorem isFirstFree_unique {existing : List Nat} {m n : Nat} (hm : IsFirstFree existing m)
    (hn : IsFirstFree existing n) : m = n := by
  rcases Nat.lt_trichotomy m n with h | h | h
  · exact absurd (hn.2.2 m hm.1 h) hm.2.1
  · exact h
  · exact absurd (hm.2.2 n hn.1 h) hn.2.1

theorem isFirstFree_firstFree (existing : List Nat) : IsFirstFree existing (firstFree existing) := by
  have hf := firstFree_eq_some existing
  have hmem := List.mem_range'_1.mp (List.mem_of_find?_eq_some hf)
  refine ⟨hmem.1, firstFree_not_mem existing, ?_⟩
  intro m h1 hlt
  obtain ⟨-, i, hi, hget, hbefore⟩ := List.find?_eq_some_iff_getElem.mp hf
  have hi' : firstFree existing = 1 + i := by
    rw [← hget, List.getElem_range']
    omega
  have := hbefore (m - 1) (by omega)
  rw [List.getElem_range'] at this
  have hm : 1 + 1 * (m - 1) = m := by omega
  rw [hm] at this
  simpa using this

/-! ## What the calls change -/

@[simp] theorem loadIndex_saveData [DecidableEq τ] (f : IndexDataCacheFile τ) (name : Nat) (data : δ) (disk : Files τ κ δ) :
    loadIndex f (saveData name data disk) = loadIndex f disk := rfl

@[simp] theorem loadData_saveIndex (f : IndexDataCacheFile τ) (overloads : Dict κ Nat) (name : Nat)
    (disk : Files τ κ δ) : loadData name (saveIndex f overloads disk) = loadData name disk := rfl

@[simp] theorem loadData_saveData (name : Nat) (data : δ) (disk : Files τ κ δ) :
    loadData name (saveData name data disk) = some data :=
  Runs.setAt_self _ _ _

theorem loadData_saveData_ne {m name : Nat} (data : δ) (disk : Files τ κ δ) (h : m ≠ name) :
    loadData m (saveData name data disk) = loadData m disk :=
  Runs.setAt_ne _ _ h

theorem loadIndex_saveIndex [DecidableEq τ] (f g : IndexDataCacheFile τ) (overloads : Dict κ Nat) (disk : Files τ κ δ) :
    loadIndex g (saveIndex f overloads disk) = if g = f then overloads else .empty := by
  unfold loadIndex saveIndex
  obtain ⟨v, s⟩ := f
  obtain ⟨v', s'⟩ := g
  simp only [IndexDataCacheFile.mk.injEq, ne_eq]
  by_cases hv : v' = v
  · by_cases hs : s' = s
    · simp [hv, hs]
    · simp [hv, hs, Ne.symm hs]
  · simp [hv, Ne.symm hv]

theorem loadIndex_cases [DecidableEq τ] (f : IndexDataCacheFile τ) (disk : Files τ κ δ) :
    loadIndex f disk = .empty ∨
      ∃ overloads, loadIndex f disk = overloads ∧ disk.index = some ⟨f.version, f.sourceStamp, overloads⟩ := by
  unfold loadIndex
  split
  · left; rfl
  · next i hi =>
    obtain ⟨v, t, o⟩ := i
    by_cases hv : v = f.version
    · by_cases ht : t = f.sourceStamp
      · right; subst hv ht; exact ⟨o, by simp, hi⟩
      · left; simp [hv, ht]
    · left; simp [hv]

section
variable [DecidableEq τ] [DecidableEq κ]

theorem eq_of_get {f g : IndexDataCacheFile τ} {disk : Files τ κ δ} {k k' : κ} {m n : Nat}
    (hf : (loadIndex f disk).get k = some m) (hg : (loadIndex g disk).get k' = some n) : f = g := by
  obtain ⟨v, t⟩ := f
  obtain ⟨v', t'⟩ := g
  rcases loadIndex_cases ⟨v, t⟩ disk with h | ⟨o, -, h⟩
  · rw [h, Dict.get_empty] at hf; cases hf
  · rcases loadIndex_cases ⟨v', t'⟩ disk with h' | ⟨o', -, h'⟩
    · rw [h', Dict.get_empty] at hg; cases hg
    · rw [h] at h'
      cases h'; rfl

theorem load_of_get {f : IndexDataCacheFile τ} {key : κ} {disk : Files τ κ δ} {name : Nat}
    (h : (loadIndex f disk).get key = some name) : load f key disk = loadData name disk := by
  unfold load
  rw [h]

theorem load_of_get_none {f : IndexDataCacheFile τ} {key : κ} {disk : Files τ κ δ}
    (h : (loadIndex f disk).get key = none) : load f key disk = none := by
  unfold load
  rw [h]

theorem load_save (f : IndexDataCacheFile τ) (key : κ) (data : δ) (disk : Files τ κ δ) :
    load f key (save f key data disk) = some data := by
  unfold save
  simp only
  split
  · next name hget =>
    exact (load_of_get (show (loadIndex f (saveData name data disk)).get key = some name from hget)).trans
      (loadData_saveData _ _ _)
  · refine Eq.trans (load_of_get ?_) (loadData_saveData (firstFree (loadIndex f disk).values) _ _)
    rw [loadIndex_saveData, loadIndex_saveIndex, if_pos rfl, Dict.get_set_self]

end

end CacheFile

end NumbaCudaMlir

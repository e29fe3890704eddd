import Mathlib.Data.List.Nodup
import Mathlib.Data.Option.Basic

/-!
# Dictionaries in insertion order

A dictionary is a list of entries whose keys differ. Setting a bound key keeps
its place; a new key goes to the end.
-/

structure Dict (κ α : Type) where
  entries : List (κ × α)
  nodup : (entries.map (·.1)).Nodup

namespace Dict

variable {κ α : Type}

def empty : Dict κ α := ⟨[], by simp⟩

def keys (d : Dict κ α) : List κ := d.entries.map (·.1)

def values (d : Dict κ α) : List α := d.entries.map (·.2)

def length (d : Dict κ α) : Nat := d.entries.length

variable [DecidableEq κ]

def get (d : Dict κ α) (k : κ) : Option α := d.entries.lookup k

def erase (d : Dict κ α) (k : κ) : Dict κ α :=
  ⟨d.entries.filter fun e => e.1 ≠ k, d.nodup.sublist ((List.filter_sublist).map _)⟩

def popFirst (d : Dict κ α) : Dict κ α :=
  ⟨d.entries.tail, d.nodup.sublist ((List.tail_sublist _).map _)⟩

def filter (d : Dict κ α) (p : κ → α → Bool) : Dict κ α :=
  ⟨d.entries.filter fun e => p e.1 e.2, d.nodup.sublist ((List.filter_sublist).map _)⟩

theorem fst_update (k : κ) (v : α) (es : List (κ × α)) :
    (es.map fun e => if e.1 = k then (k, v) else e).map (·.1) = es.map (·.1) := by
  rw [List.map_map]
  apply List.map_congr_left; intro e _
  by_cases h : e.1 = k <;> simp [h]

def set (d : Dict κ α) (k : κ) (v : α) : Dict κ α :=
  if h : k ∈ d.keys then
    ⟨d.entries.map fun e => if e.1 = k then (k, v) else e, by rw [fst_update]; exact d.nodup⟩
  else
    ⟨d.entries ++ [(k, v)], by
      simp only [List.map_append, List.map_cons, List.map_nil]
      refine List.nodup_append.mpr ⟨d.nodup, by simp, ?_⟩
      intro a ha b hb e
      rw [List.mem_singleton] at hb
      subst hb; subst e
      exact h ha⟩

def mapValues {β : Type} (d : Dict κ α) (f : κ → α → β) : Dict κ β :=
  ⟨d.entries.map fun e => (e.1, f e.1 e.2), by rw [List.map_map]; exact d.nodup⟩

def update (d d' : Dict κ α) : Dict κ α := d'.entries.foldl (fun d e => d.set e.1 e.2) d

/-- `setdefault`: a bound key keeps its value. -/
def setDefault (d : Dict κ α) (k : κ) (v : α) : Dict κ α := if (d.get k).isSome then d else d.set k v

/-- The entry of a bound key, moved behind the others. -/
def moveToEnd (d : Dict κ α) (k : κ) : Dict κ α :=
  match d.get k with
  | some v => (d.erase k).set k v
  | none => d

/-! ## Lookup -/

theorem mem_of_get {d : Dict κ α} {k : κ} {v : α} (h : d.get k = some v) : (k, v) ∈ d.entries := by
  unfold get at h
  obtain ⟨l, r, hl, -⟩ := List.lookup_eq_some_iff.mp h
  rw [hl]; simp

theorem lookup_of_mem {k : κ} {v : α} : ∀ {es : List (κ × α)}, (es.map (·.1)).Nodup → (k, v) ∈ es →
    es.lookup k = some v
  | e :: es, hn, h => by
    rw [List.map_cons, List.nodup_cons] at hn
    rcases List.mem_cons.mp h with rfl | h
    · simp
    · have hne : (k == e.1) = false := by
        rw [beq_eq_false_iff_ne]
        rintro rfl
        exact hn.1 (List.mem_map_of_mem (f := (·.1)) h)
      rw [List.lookup_cons, hne]
      exact lookup_of_mem hn.2 h

theorem get_eq_some_iff {d : Dict κ α} {k : κ} {v : α} : d.get k = some v ↔ (k, v) ∈ d.entries :=
  ⟨mem_of_get, lookup_of_mem d.nodup⟩

theorem mem_keys_iff {d : Dict κ α} {k : κ} : k ∈ d.keys ↔ ∃ v, d.get k = some v := by
  simp only [get_eq_some_iff, keys, List.mem_map, Prod.exists]
  constructor
  · rintro ⟨_, v, h, rfl⟩; exact ⟨v, h⟩
  · rintro ⟨v, h⟩; exact ⟨k, v, h, rfl⟩

theorem mem_values_of_get {d : Dict κ α} {k : κ} {v : α} (h : d.get k = some v) : v ∈ d.values :=
  List.mem_map_of_mem (f := (·.2)) (mem_of_get h)

@[simp] theorem get_empty (k : κ) : (empty : Dict κ α).get k = none := rfl

theorem mem_set_iff {d : Dict κ α} {k : κ} {v : α} {e : κ × α} :
    e ∈ (d.set k v).entries ↔ e = (k, v) ∨ e ∈ d.entries ∧ e.1 ≠ k := by
  unfold set
  split
  · next hk =>
    simp only [List.mem_map]
    constructor
    · rintro ⟨e', he, rfl⟩
      by_cases h : e'.1 = k
      · left; rw [if_pos h]
      · right; rw [if_neg h]; exact ⟨he, h⟩
    · rintro (rfl | ⟨he, hne⟩)
      · obtain ⟨e', he, hk⟩ := List.mem_map.mp hk
        exact ⟨e', he, if_pos hk⟩
      · exact ⟨e, he, if_neg hne⟩
  · next hk =>
    simp only [List.mem_append, List.mem_singleton]
    constructor
    · rintro (he | rfl)
      · right; exact ⟨he, fun h => hk (h ▸ List.mem_map_of_mem he)⟩
      · left; rfl
    · rintro (rfl | ⟨he, -⟩)
      · exact .inr rfl
      · exact .inl he

theorem get_ext {d d' : Dict κ α} {k : κ} (h : ∀ v, d.get k = some v ↔ d'.get k = some v) :
    d.get k = d'.get k :=
  Option.ext h

@[simp] theorem get_set_self (d : Dict κ α) (k : κ) (v : α) : (d.set k v).get k = some v :=
  get_eq_some_iff.mpr (mem_set_iff.mpr (.inl rfl))

theorem get_set_ne (d : Dict κ α) {k k' : κ} (v : α) (h : k' ≠ k) : (d.set k v).get k' = d.get k' := by
  apply get_ext; intro w
  simp only [get_eq_some_iff, mem_set_iff, Prod.mk.injEq, h, false_and, false_or, ne_eq, not_false_eq_true, and_true]

theorem get_set (d : Dict κ α) (k k' : κ) (v : α) :
    (d.set k v).get k' = if k' = k then some v else d.get k' := by
  by_cases h : k' = k
  · subst h; simp
  · rw [get_set_ne d v h, if_neg h]

theorem get_foldl_set (k : κ) : ∀ (es : List (κ × α)) (d : Dict κ α), (es.map (·.1)).Nodup →
    (es.foldl (fun d e => d.set e.1 e.2) d).get k = (es.lookup k).or (d.get k)
  | [], d, _ => by simp
  | e :: es, d, hn => by
    rw [List.map_cons, List.nodup_cons] at hn
    rw [List.foldl_cons, get_foldl_set k es _ hn.2, get_set, List.lookup_cons]
    by_cases h : k = e.1
    · have hnone : es.lookup k = none := by
        rw [List.lookup_eq_none_iff]
        intro e' he'
        rw [bne_iff_ne]
        intro hk
        apply hn.1
        rw [← h, hk]
        exact List.mem_map_of_mem he'
      rw [hnone, if_pos h, beq_iff_eq.mpr h]
      rfl
    · rw [if_neg h, beq_eq_false_iff_ne.mpr h]

theorem get_update (d d' : Dict κ α) (k : κ) : (d.update d').get k = (d'.get k).or (d.get k) :=
  get_foldl_set k d'.entries d d'.nodup

theorem mem_erase_iff {d : Dict κ α} {k : κ} {e : κ × α} :
    e ∈ (d.erase k).entries ↔ e ∈ d.entries ∧ e.1 ≠ k := by
  simp [erase]

@[simp] theorem get_erase_self (d : Dict κ α) (k : κ) : (d.erase k).get k = none := by
  apply Option.eq_none_iff_forall_ne_some.mpr
  intro v h
  exact (mem_erase_iff.mp (mem_of_get h)).2 rfl

theorem get_erase_ne (d : Dict κ α) {k k' : κ} (h : k' ≠ k) : (d.erase k).get k' = d.get k' := by
  apply get_ext; intro v
  simp only [get_eq_some_iff, mem_erase_iff, ne_eq, h, not_false_eq_true, and_true]

theorem get_erase (d : Dict κ α) (k k' : κ) : (d.erase k).get k' = if k' = k then none else d.get k' := by
  by_cases h : k' = k
  · subst h; simp
  · rw [get_erase_ne d h, if_neg h]

omit [DecidableEq κ] in
theorem mem_mapValues_iff {β : Type} {d : Dict κ α} {f : κ → α → β} {e : κ × β} :
    e ∈ (d.mapValues f).entries ↔ ∃ v, (e.1, v) ∈ d.entries ∧ e.2 = f e.1 v := by
  simp only [mapValues, List.mem_map, Prod.exists]
  constructor
  · rintro ⟨k, v, h, rfl⟩; exact ⟨v, h, rfl⟩
  · rintro ⟨v, h, he⟩; exact ⟨e.1, v, h, by rw [← he]⟩

omit [DecidableEq κ] in
@[simp] theorem keys_mapValues {β : Type} (d : Dict κ α) (f : κ → α → β) : (d.mapValues f).keys = d.keys := by
  simp [keys, mapValues]

@[simp] theorem get_mapValues {β : Type} (d : Dict κ α) (f : κ → α → β) (k : κ) :
    (d.mapValues f).get k = (d.get k).map (f k) := by
  apply Option.ext; intro w
  simp only [get_eq_some_iff, mem_mapValues_iff, Option.map_eq_some_iff]
  exact exists_congr fun v => and_congr_right fun _ => eq_comm

theorem mapValues_congr {β : Type} {d : Dict κ α} {f g : κ → α → β} (h : ∀ k v, d.get k = some v → f k v = g k v) :
    d.mapValues f = d.mapValues g := by
  unfold mapValues
  congr 1
  apply List.map_congr_left; intro e he
  rw [h e.1 e.2 (get_eq_some_iff.mpr he)]

@[simp] theorem get_moveToEnd (d : Dict κ α) (k k' : κ) : (d.moveToEnd k).get k' = d.get k' := by
  unfold moveToEnd
  split
  · next v hv =>
    rw [get_set]
    by_cases h : k' = k
    · subst h; rw [if_pos rfl, hv]
    · rw [if_neg h, get_erase_ne d h]
  · rfl

theorem get_of_popFirst {d : Dict κ α} {k : κ} {v : α} (h : d.popFirst.get k = some v) : d.get k = some v :=
  get_eq_some_iff.mpr (List.mem_of_mem_tail (mem_of_get h))

theorem get_of_filter {d : Dict κ α} {p : κ → α → Bool} {k : κ} {v : α} (h : (d.filter p).get k = some v) :
    d.get k = some v :=
  get_eq_some_iff.mpr (List.mem_of_mem_filter (mem_of_get h))

theorem get_of_set {d : Dict κ α} {k k' : κ} {v w : α} (h : (d.set k v).get k' = some w) :
    k' = k ∧ w = v ∨ d.get k' = some w := by
  rw [get_set] at h
  split at h
  · next hk => left; cases h; exact ⟨hk, rfl⟩
  · right; exact h

theorem get_setDefault (d : Dict κ α) (k k' : κ) (v : α) :
    (d.setDefault k v).get k' = if k' = k then some ((d.get k).getD v) else d.get k' := by
  unfold setDefault
  split
  · next h =>
    obtain ⟨w, hw⟩ := Option.isSome_iff_exists.mp h
    split
    · next hk => rw [hk, hw]; rfl
    · rfl
  · next h => rw [get_set, Option.not_isSome_iff_eq_none.mp h]; rfl

theorem get_of_setDefault {d : Dict κ α} {k k' : κ} {v w : α} (h : (d.setDefault k v).get k' = some w) :
    k' = k ∧ w = v ∨ d.get k' = some w := by
  unfold setDefault at h
  split at h
  · right; exact h
  · exact get_of_set h

theorem get_eq_none_iff {d : Dict κ α} {k : κ} : d.get k = none ↔ k ∉ d.keys := by
  rw [mem_keys_iff, Option.eq_none_iff_forall_ne_some, not_exists]

theorem entries_set_new {d : Dict κ α} {k : κ} (h : d.get k = none) (v : α) : (d.set k v).entries = d.entries ++ [(k, v)] := by
  unfold set
  rw [dif_neg (get_eq_none_iff.mp h)]

theorem setDefault_bound {d : Dict κ α} {k : κ} {w : α} (h : d.get k = some w) (v : α) : d.setDefault k v = d := by
  rw [setDefault, h, Option.isSome_some, if_pos rfl]

theorem setDefault_new {d : Dict κ α} {k : κ} (h : d.get k = none) (v : α) : d.setDefault k v = d.set k v := by
  rw [setDefault, h]
  rfl

/-! ## Length -/

theorem length_set_new {d : Dict κ α} {k : κ} (h : d.get k = none) (v : α) : (d.set k v).length = d.length + 1 := by
  unfold length
  rw [entries_set_new h, List.length_append, List.length_singleton]

theorem length_set_bound {d : Dict κ α} {k : κ} {w : α} (h : d.get k = some w) (v : α) : (d.set k v).length = d.length := by
  unfold length set
  rw [dif_pos (mem_keys_iff.mpr ⟨w, h⟩), List.length_map]

theorem keys_erase (d : Dict κ α) (k : κ) : (d.erase k).keys = d.keys.erase k := by
  have h : d.keys.Nodup := d.nodup
  rw [h.erase_eq_filter k]
  unfold keys erase
  rw [List.filter_map]
  congr 1
  apply List.filter_congr; intro e _
  by_cases he : e.1 = k <;> simp [he]

theorem length_moveToEnd (d : Dict κ α) (k : κ) : (d.moveToEnd k).length = d.length := by
  unfold moveToEnd
  split
  · next v hv =>
    rw [length_set_new (get_erase_self d k)]
    have hlen : ∀ d : Dict κ α, d.length = d.keys.length := fun d => (List.length_map ..).symm
    have hk : k ∈ d.keys := mem_keys_iff.mpr ⟨v, hv⟩
    have hpos : 0 < d.keys.length := List.length_pos_of_mem hk
    rw [hlen, hlen d, keys_erase, List.length_erase_of_mem hk]
    omega
  · rfl

omit [DecidableEq κ] in
theorem length_popFirst (d : Dict κ α) : d.popFirst.length = d.length - 1 := List.length_tail

theorem get_popFirst_ne {d : Dict κ α} {e : κ × α} {es : List (κ × α)} (h : d.entries = e :: es) {k : κ} (hk : k ≠ e.1) :
    d.popFirst.get k = d.get k := by
  change d.entries.tail.lookup k = d.entries.lookup k
  rw [h, List.tail_cons, List.lookup_cons, beq_false_of_ne hk]

omit [DecidableEq κ] in
theorem eq_of_entries {d d' : Dict κ α} (h : d.entries = d'.entries) : d = d' := by
  cases d
  cases d'
  cases h
  rfl

end Dict

import Mathlib.Data.List.Nodup

/-!
# Tables of named definitions

Definitions found by name, over any names and any contents. A table takes another
one's definitions by name and keeps what it has; it then means what was linked
exactly where one name never stands for two things.
-/

namespace SymbolTable

variable {ν ω : Type}

/-- A definition: its name, what it defines, and the names it uses with what each of them is to be. -/
structure Definition (ν ω : Type) where
  name : ν
  origin : ω
  refs : List (ν × ω)
  deriving DecidableEq, Repr

def names (t : List (Definition ν ω)) : List ν := t.map (·.name)

@[simp] theorem names_nil : names ([] : List (Definition ν ω)) = [] := rfl

@[simp] theorem names_cons (d : Definition ν ω) (t : List (Definition ν ω)) : names (d :: t) = d.name :: names t := rfl

@[simp] theorem names_append (t u : List (Definition ν ω)) : names (t ++ u) = names t ++ names u := List.map_append

theorem mem_names {t : List (Definition ν ω)} {n : ν} : n ∈ names t ↔ ∃ d ∈ t, d.name = n := List.mem_map

/-- What a naming makes of a table: every name used stands for what was meant. -/
structure Sound (t : List (Definition ν ω)) : Prop where
  nodup : (names t).Nodup
  resolves : ∀ d ∈ t, ∀ r ∈ d.refs, ∃ e ∈ t, e.name = r.1 ∧ e.origin = r.2

/-- `t` keeps to a naming: no definition and no use outside it, and no use of an absent name. -/
structure Agrees (named : ν → ω → Prop) (t : List (Definition ν ω)) : Prop where
  nodup : (names t).Nodup
  definitions : ∀ d ∈ t, named d.name d.origin
  refs : ∀ d ∈ t, ∀ r ∈ d.refs, named r.1 r.2 ∧ r.1 ∈ names t

def Functional (named : ν → ω → Prop) : Prop := ∀ n o o', named n o → named n o' → o = o'

theorem Agrees.mono {named named' : ν → ω → Prop} {t : List (Definition ν ω)} (h : Agrees named t)
    (hmono : ∀ n o, named n o → named' n o) : Agrees named' t :=
  ⟨h.nodup, fun d hd => hmono _ _ (h.definitions d hd), fun d hd r hr =>
    ⟨hmono _ _ (h.refs d hd r hr).1, (h.refs d hd r hr).2⟩⟩

theorem Agrees.sound {named : ν → ω → Prop} {t : List (Definition ν ω)} (h : Agrees named t) (hf : Functional named) :
    Sound t := by
  refine ⟨h.nodup, fun d hd r hr => ?_⟩
  obtain ⟨hr, hn⟩ := h.refs d hd r hr
  obtain ⟨e, he, hname⟩ := mem_names.mp hn
  exact ⟨e, he, hname, hf _ _ _ (hname ▸ h.definitions e he) hr⟩

theorem Agrees.named_of_mem {named : ν → ω → Prop} {t : List (Definition ν ω)} (h : Agrees named t) {n : ν}
    (hn : n ∈ names t) : ∃ o, named n o := by
  obtain ⟨d, hd, rfl⟩ := mem_names.mp hn
  exact ⟨d.origin, h.definitions d hd⟩

theorem Agrees.cons {named : ν → ω → Prop} {t : List (Definition ν ω)} (h : Agrees named t) {d : Definition ν ω}
    (hfresh : d.name ∉ names t) (hd : named d.name d.origin) (hrefs : ∀ r ∈ d.refs, named r.1 r.2 ∧ r.1 ∈ names t) :
    Agrees named (d :: t) := by
  refine ⟨List.nodup_cons.mpr ⟨hfresh, h.nodup⟩, ?_, ?_⟩
  · simpa using ⟨hd, h.definitions⟩
  · intro e he r hr
    obtain rfl | he := List.mem_cons.mp he
    · exact ⟨(hrefs r hr).1, List.mem_cons_of_mem _ (hrefs r hr).2⟩
    · exact ⟨(h.refs e he r hr).1, List.mem_cons_of_mem _ (h.refs e he r hr).2⟩

theorem Agrees.perm {named : ν → ω → Prop} {t u : List (Definition ν ω)} (h : Agrees named t) (hp : t.Perm u) :
    Agrees named u := by
  have hnames : (names t).Perm (names u) := hp.map _
  refine ⟨hnames.nodup_iff.mp h.nodup, fun d hd => h.definitions d (hp.mem_iff.mpr hd), fun d hd r hr => ?_⟩
  obtain ⟨hr, hn⟩ := h.refs d (hp.mem_iff.mpr hd) r hr
  exact ⟨hr, hnames.mem_iff.mp hn⟩

theorem Agrees.use {named : ν → ω → Prop} {d : Definition ν ω} {t : List (Definition ν ω)} (h : Agrees named (d :: t))
    {r : ν × ω} (hr : named r.1 r.2) (hn : r.1 ∈ names (d :: t)) :
    Agrees named ({d with refs := d.refs ++ [r]} :: t) := by
  refine ⟨h.nodup, ?_, ?_⟩
  · simpa using h.definitions
  · intro e he s hs
    obtain rfl | he := List.mem_cons.mp he
    · obtain hs | hs := List.mem_append.mp hs
      · exact h.refs d (by simp) s hs
      · rw [List.mem_singleton.mp hs]
        exact ⟨hr, hn⟩
    · exact h.refs e (by simp [he]) s hs

/-! ## Linking -/

section
variable [DecidableEq ν]

def find (t : List (Definition ν ω)) (n : ν) : Option (Definition ν ω) := t.find? fun d => d.name = n

theorem find_eq_none {t : List (Definition ν ω)} {n : ν} (h : find t n = none) : n ∉ names t := by
  rw [find, List.find?_eq_none] at h
  simpa [names] using h

theorem find_eq_some {t : List (Definition ν ω)} {n : ν} {d : Definition ν ω} (h : find t n = some d) :
    d ∈ t ∧ d.name = n := ⟨List.mem_of_find?_eq_some h, by simpa using List.find?_some h⟩

/-- What `t` takes of `ds`, and for each definition skipped the one kept in its place. -/
def linkInto (t : List (Definition ν ω)) : List (Definition ν ω) → List (Definition ν ω) × List (ω × ω)
  | [] => ([], [])
  | d :: ds =>
    match find t d.name with
    | some e => ((linkInto t ds).1, (e.origin, d.origin) :: (linkInto t ds).2)
    | none => (d :: (linkInto (d :: t) ds).1, (linkInto (d :: t) ds).2)

theorem subset_linkInto {ds : List (Definition ν ω)} :
    ∀ {t : List (Definition ν ω)}, ∀ d ∈ (linkInto t ds).1, d ∈ ds := by
  induction ds with
  | nil => simp [linkInto]
  | cons e ds ih =>
    intro t d hd
    rw [linkInto] at hd
    split at hd
    · exact List.mem_cons_of_mem _ (ih d hd)
    · obtain rfl | hd := List.mem_cons.mp hd
      · exact List.mem_cons_self
      · exact List.mem_cons_of_mem _ (ih d hd)

theorem mem_names_linkInto {ds : List (Definition ν ω)} :
    ∀ {t : List (Definition ν ω)} {n : ν}, n ∈ names t ∨ n ∈ names (linkInto t ds).1 ↔ n ∈ names t ∨ n ∈ names ds := by
  induction ds with
  | nil => simp [linkInto]
  | cons d ds ih =>
    intro t n
    rw [linkInto]
    split
    · next e he =>
      obtain ⟨he, hname⟩ := find_eq_some he
      have hd : n = d.name → n ∈ names t := by
        rintro rfl
        exact mem_names.mpr ⟨e, he, hname⟩
      have := ih (t := t) (n := n)
      simp only [names_cons, List.mem_cons]
      tauto
    · have := ih (t := d :: t) (n := n)
      simp only [names_cons, List.mem_cons] at this ⊢
      tauto

theorem nodup_linkInto {ds : List (Definition ν ω)} :
    ∀ {t : List (Definition ν ω)}, (names t).Nodup → (names (t ++ (linkInto t ds).1)).Nodup := by
  induction ds with
  | nil => simp [linkInto]
  | cons d ds ih =>
    intro t ht
    rw [linkInto]
    split
    · exact ih ht
    · next h =>
      have hnodup := ih (t := d :: t) (List.nodup_cons.mpr ⟨find_eq_none h, ht⟩)
      have hperm : (names (d :: t ++ (linkInto (d :: t) ds).1)).Perm (names (t ++ d :: (linkInto (d :: t) ds).1)) := by
        simpa using List.perm_middle.symm
      exact hperm.nodup_iff.mp hnodup

theorem skips_linkInto {named : ν → ω → Prop} {ds : List (Definition ν ω)} :
    ∀ {t : List (Definition ν ω)}, (∀ d ∈ t, named d.name d.origin) → (∀ d ∈ ds, named d.name d.origin) →
      ∀ s ∈ (linkInto t ds).2, ∃ n, named n s.1 ∧ named n s.2 := by
  induction ds with
  | nil => simp [linkInto]
  | cons d ds ih =>
    intro t ht hds s hs
    have hd := hds d (by simp)
    have htail : ∀ e ∈ ds, named e.name e.origin := fun e he => hds e (by simp [he])
    rw [linkInto] at hs
    split at hs
    · next e he =>
      obtain ⟨he, hname⟩ := find_eq_some he
      obtain rfl | hs := List.mem_cons.mp hs
      · exact ⟨d.name, hname ▸ ht e he, hd⟩
      · exact ih ht htail s hs
    · exact ih (by simpa using ⟨hd, ht⟩) htail s hs

theorem Agrees.link {named : ν → ω → Prop} {t u : List (Definition ν ω)} (ht : Agrees named t)
    (hu : ∀ d ∈ u, named d.name d.origin) (hrefs : ∀ d ∈ u, ∀ r ∈ d.refs, named r.1 r.2 ∧ r.1 ∈ names u) :
    Agrees named (t ++ (linkInto t u).1) := by
  refine ⟨nodup_linkInto ht.nodup, ?_, ?_⟩
  · intro d hd
    obtain hd | hd := List.mem_append.mp hd
    · exact ht.definitions d hd
    · exact hu d (subset_linkInto d hd)
  · intro d hd r hr
    rw [names_append, List.mem_append]
    obtain hd | hd := List.mem_append.mp hd
    · exact ⟨(ht.refs d hd r hr).1, .inl (ht.refs d hd r hr).2⟩
    · obtain ⟨hr, hn⟩ := hrefs d (subset_linkInto d hd) r hr
      exact ⟨hr, mem_names_linkInto.mpr (.inr hn)⟩

theorem skips_of_functional {named : ν → ω → Prop} (hf : Functional named) {t u : List (Definition ν ω)}
    (ht : ∀ d ∈ t, named d.name d.origin) (hu : ∀ d ∈ u, named d.name d.origin) :
    ∀ s ∈ (linkInto t u).2, s.1 = s.2 := by
  intro s hs
  obtain ⟨n, h1, h2⟩ := skips_linkInto ht hu s hs
  exact hf n _ _ h1 h2

end

end SymbolTable

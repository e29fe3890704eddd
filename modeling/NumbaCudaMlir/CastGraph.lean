import NumbaCudaMlir.Bottleneck
import NumbaCudaMlir.Dict
import NumbaCudaMlir.NumberTyping
import NumbaCudaMlir.Runs

/-!
# The graph of casting rules

`TypeGraph` of `castgraph.py` keeps, for each type, the best conversion to every
type that it reaches, while rules come in one after the other. Every change is
passed on to the type manager that the compiled code asks.
-/

namespace NumbaCudaMlir.CastGraph

open NumberTyping (Conversion)
open Bottleneck Function

/-- `Conversion` without its internal value `nil`, which is a missing entry. -/
def code : Conversion → Nat
  | .exact => 1
  | .promote => 2
  | .safe => 3
  | .unsafeConvert => 4

theorem code_injective : Injective code := by
  intro a b h
  cases a <;> cases b <;> first | rfl | cases h

instance : LinearOrder Conversion := LinearOrder.lift' code code_injective

structure TypeGraph (τ : Type) [DecidableEq τ] where
  forwards : τ → Dict τ Conversion
  backwards : τ → List τ
  compatible : Dict (τ × τ) Conversion

namespace TypeGraph

section
variable {τ : Type} [DecidableEq τ] (g : TypeGraph τ)

def setCompatible (a b : τ) (rel : Conversion) : TypeGraph τ := { g with compatible := g.compatible.set (a, b) rel }

def update (a b : τ) (rel : Conversion) : Option (TypeGraph τ) := if rel = .exact then none else some (g.setCompatible a b rel)

/-- What `CastSet.insert` stores. -/
def better (a b : τ) (rel : Conversion) : Conversion := ((g.forwards a).get b).elim rel (min rel)

/-- `_forwards[a].insert(b, rel)` and `_backwards[b].add(a)`. -/
def insert (a b : τ) (rel : Conversion) : TypeGraph τ :=
  { g with
    forwards := Function.update g.forwards a ((g.forwards a).set b (g.better a b rel))
    backwards := Function.update g.backwards b ((g.backwards b).insert a) }

/-- An insertion that calls back when the entry changes. -/
def relate (a b : τ) (rel : Conversion) : Option (TypeGraph τ) :=
  if (g.forwards a).get b = some (g.better a b rel) then some (g.insert a b rel) else (g.insert a b rel).update a b rel

/-- The nodes that lead to `a` are related to `child`. -/
def relateBack (a child : τ) (rel : Conversion) (g : TypeGraph τ) (backnode : τ) : Option (TypeGraph τ) :=
  if backnode = child then some g
  else ((g.forwards backnode).get a).bind fun r => g.relate backnode child (max rel r)

def relateChild (a b : τ) (baserel : Conversion) (g : TypeGraph τ) (child : τ) : Option (TypeGraph τ) :=
  ((g.forwards b).get child).bind fun r =>
    (if a = child then some g else g.relate a child (max baserel r)).bind fun g =>
      (g.backwards a).foldlM (relateBack a child (max baserel r)) g

def propagate (a b : τ) (baserel : Conversion) : Option (TypeGraph τ) :=
  ((g.forwards b).keys.foldlM (relateChild a b baserel) g).bind fun g => (g.backwards a).foldlM (relateBack a b baserel) g

def insertRule (rule : τ × τ × Conversion) : Option (TypeGraph τ) :=
  ((g.insert rule.1 rule.2.1 rule.2.2).update rule.1 rule.2.1 rule.2.2).bind fun g => g.propagate rule.1 rule.2.1 rule.2.2

def empty : TypeGraph τ := ⟨fun _ => .empty, fun _ => [], .empty⟩

/-- The rules of a `TypeCastingRules`, in the order in which they are given. -/
def insertRules (rules : List (τ × τ × Conversion)) : Option (TypeGraph τ) := Runs.run insertRule empty rules

def checkCompatible (x y : τ) : Option Conversion := if x = y then some .exact else g.compatible.get (x, y)

/-! ## What a change does -/

/-- The entry from `x` to `y` is `r` or better. -/
def Within (r : Conversion) (x y : τ) : Prop := ∃ v, (g.forwards x).get y = some v ∧ v ≤ r

structure WellFormed : Prop where
  irrefl : ∀ x, (g.forwards x).get x = none
  mirror : ∀ x y, x ∈ g.backwards y ↔ ∃ v, (g.forwards x).get y = some v

/-- The type manager knows what the graph knows. -/
def Agrees : Prop := ∀ x y, x ≠ y → g.compatible.get (x, y) = (g.forwards x).get y

variable {g : TypeGraph τ} {a b x y : τ} {rel r : Conversion}

theorem get_insert (g : TypeGraph τ) (a b : τ) (rel : Conversion) (x y : τ) :
    ((g.insert a b rel).forwards x).get y = if x = a ∧ y = b then some (g.better a b rel) else (g.forwards x).get y := by
  by_cases hx : x = a
  · subst hx
    simp [insert, Dict.get_set]
  · simp [insert, hx]

theorem WellFormed.insert (h : g.WellFormed) (hne : a ≠ b) (rel : Conversion) : (g.insert a b rel).WellFormed := by
  constructor
  · intro x
    rw [get_insert, if_neg fun hx => hne (hx.1.symm.trans hx.2)]
    exact h.irrefl x
  · intro x y
    rw [get_insert]
    by_cases hy : y = b
    · subst hy
      by_cases hx : x = a
      · simp [TypeGraph.insert, hx]
      · simpa [TypeGraph.insert, hx] using h.mirror x y
    · simpa [TypeGraph.insert, hy] using h.mirror x y

theorem within_insert : (g.insert a b rel).Within r x y ↔ g.Within r x y ∨ x = a ∧ y = b ∧ rel ≤ r := by
  unfold Within
  rw [get_insert]
  by_cases hxy : x = a ∧ y = b
  · obtain ⟨rfl, rfl⟩ := hxy
    cases hold : (g.forwards x).get y with
    | none => simp [better, hold]
    | some v => simp [better, hold, or_comm]
  · rw [if_neg hxy]
    simp only [← and_assoc, hxy, false_and, or_false]

theorem Agrees.insert (h : g.Agrees) (hbetter : g.better a b rel = rel) : ((g.insert a b rel).setCompatible a b rel).Agrees := by
  intro x y hxy
  refine Eq.trans ?_ (get_insert g a b rel x y).symm
  by_cases hab : x = a ∧ y = b
  · rw [if_pos hab, hbetter, hab.1, hab.2]
    exact Dict.get_set_self ..
  · rw [if_neg hab, ← h x y hxy]
    exact Dict.get_set_ne _ _ fun he => hab (Prod.mk.inj he)

theorem relate_spec (h : g.WellFormed) (hne : a ≠ b) (hrel : rel ≠ .exact) : ∃ g', g.relate a b rel = some g' ∧ g'.WellFormed ∧
    (∀ r x y, g'.Within r x y ↔ g.Within r x y ∨ x = a ∧ y = b ∧ rel ≤ r) ∧ (g.Agrees → g'.Agrees) := by
  unfold relate
  by_cases hsame : (g.forwards a).get b = some (g.better a b rel)
  · refine ⟨_, if_pos hsame, h.insert hne rel, fun _ _ _ => within_insert, fun hag x y hxy => ?_⟩
    rw [get_insert]
    by_cases hab : x = a ∧ y = b
    · rw [if_pos hab, ← hsame, ← hab.1, ← hab.2]
      exact hag x y hxy
    · rw [if_neg hab]
      exact hag x y hxy
  · have hnew : g.better a b rel = rel := by
      cases hold : (g.forwards a).get b with
      | none => simp [better, hold]
      | some v =>
        rcases min_choice rel v with hm | hm
        · simpa [better, hold] using hm
        · exact absurd (by simp [better, hold, hm]) hsame
    exact ⟨(g.insert a b rel).setCompatible a b rel, by rw [if_neg hsame, update, if_neg hrel],
      ⟨(h.insert hne rel).irrefl, (h.insert hne rel).mirror⟩, fun _ _ _ => within_insert, fun hag => hag.insert hnew⟩

/-! ## One rule -/

/-- The conversion from `x` to `y` is as good as `r`, perhaps by way of the new rule. -/
def Through (g : TypeGraph τ) (a b : τ) (rel r : Conversion) (x y : τ) : Prop :=
  g.Within r x y ∨ x ≠ y ∧ rel ≤ r ∧ (x = a ∨ g.Within r x a) ∧ (b = y ∨ g.Within r b y)

/-- A state of the propagation of the rule from `a` to `b` through `g₀`. -/
structure Between (g₀ : TypeGraph τ) (a b : τ) (rel : Conversion) (g : TypeGraph τ) : Prop where
  wf : g.WellFormed
  grown : ∀ r x y, g₀.Within r x y → g.Within r x y
  sound : ∀ r x y, g.Within r x y → g₀.Through a b rel r x y
  agrees : g₀.Agrees → (∀ v, (g₀.forwards a).get b = some v → rel ≤ v) → g.Agrees

theorem Within.mono {s : Conversion} (h : g.Within r x y) (hr : r ≤ s) : g.Within s x y := h.imp fun _ hv => ⟨hv.1, hv.2.trans hr⟩

variable {g₀ : TypeGraph τ}

/-- The rows of `b` and the entries to `a` do not change on the way. -/
theorem Between.row (h : Between g₀ a b rel g) (hw : g.Within r b y) : g₀.Within r b y := by
  rcases h.sound r b y hw with hw | ⟨hne, -, -, heq | hw⟩
  · exact hw
  · exact absurd heq hne
  · exact hw

theorem Between.column (h : Between g₀ a b rel g) (hw : g.Within r x a) : g₀.Within r x a := by
  rcases h.sound r x a hw with hw | ⟨hne, -, heq | hw, -⟩
  · exact hw
  · exact absurd heq hne
  · exact hw

theorem Between.relate (h : Between g₀ a b rel g) (hrel : rel ≠ .exact) {s : Conversion} (hs : rel ≤ s) (hne : x ≠ y)
    (hx : x = a ∨ g₀.Within s x a) (hy : b = y ∨ g₀.Within s b y) :
    ∃ g', g.relate x y s = some g' ∧ Between g₀ a b rel g' ∧ (∀ r x y, g.Within r x y → g'.Within r x y) ∧ g'.Within s x y := by
  have hexact : s ≠ .exact := by
    rintro rfl
    exact hrel (le_antisymm hs (by cases rel <;> exact Nat.le_of_ble_eq_true rfl))
  obtain ⟨g', hg', hwf, hwithin, hagrees⟩ := relate_spec h.wf hne hexact
  refine ⟨g', hg', ⟨hwf, fun r x y hw => (hwithin r x y).mpr (.inl (h.grown r x y hw)), ?_, fun ha hl => hagrees (h.agrees ha hl)⟩,
    fun r x y hw => (hwithin r x y).mpr (.inl hw), (hwithin s x y).mpr (.inr ⟨rfl, rfl, le_rfl⟩)⟩
  intro r u v hw
  rcases (hwithin r u v).mp hw with hw | ⟨rfl, rfl, hsr⟩
  · exact h.sound r u v hw
  · exact .inr ⟨hne, hs.trans hsr, hx.imp_right fun hw => hw.mono hsr, hy.imp_right fun hw => hw.mono hsr⟩

theorem foldlM_spec {σ α : Type} {f : σ → α → Option σ} {P : σ → Prop} {G : σ → σ → Prop} {D : α → σ → Prop} (hrefl : ∀ s, G s s)
    (htrans : ∀ s t u, G s t → G t u → G s u) (hkeep : ∀ c s t, G s t → D c s → D c t) (l : List α)
    (hstep : ∀ c ∈ l, ∀ s, P s → ∃ t, f s c = some t ∧ P t ∧ G s t ∧ D c t) (s : σ) (hs : P s) :
    ∃ t, l.foldlM f s = some t ∧ P t ∧ G s t ∧ ∀ c ∈ l, D c t := by
  induction l generalizing s with
  | nil => exact ⟨s, rfl, hs, hrefl s, by simp⟩
  | cons c l ih =>
    obtain ⟨t, ht, hPt, hst, hDt⟩ := hstep c (List.mem_cons_self ..) s hs
    obtain ⟨u, hu, hPu, htu, hDu⟩ := ih (fun d hd => hstep d (List.mem_cons_of_mem _ hd)) t hPt
    refine ⟨u, by simp [ht, hu], hPu, htrans s t u hst htu, fun d hd => ?_⟩
    rcases List.mem_cons.mp hd with rfl | hd
    · exact hkeep d t u htu hDt
    · exact hDu d hd

/-- A fold of changes: what each of them relates stays related. -/
theorem relations_spec {α : Type} {f : TypeGraph τ → α → Option (TypeGraph τ)} {D : α → Conversion → τ → τ → Prop} (l : List α)
    (hstep : ∀ c ∈ l, ∀ g, Between g₀ a b rel g → ∃ g', f g c = some g' ∧ Between g₀ a b rel g' ∧
      (∀ r x y, g.Within r x y → g'.Within r x y) ∧ ∀ r x y, D c r x y → g'.Within r x y)
    (hg : Between g₀ a b rel g) : ∃ g', l.foldlM f g = some g' ∧ Between g₀ a b rel g' ∧
      (∀ r x y, g.Within r x y → g'.Within r x y) ∧ ∀ c ∈ l, ∀ r x y, D c r x y → g'.Within r x y :=
  foldlM_spec (G := fun g g' : TypeGraph τ => ∀ r x y, g.Within r x y → g'.Within r x y) (fun _ _ _ _ h => h)
    (fun _ _ _ h h' r x y hw => h' r x y (h r x y hw)) (fun _ _ _ h hd r x y hD => h r x y (hd r x y hD)) l hstep g hg

theorem relateBacks_spec (h : Between g₀ a b rel g) (hrel : rel ≠ .exact) {s : Conversion} (hs : rel ≤ s) {child : τ}
    (hchild : b = child ∨ g₀.Within s b child) : ∃ g', (g.backwards a).foldlM (relateBack a child s) g = some g' ∧ Between g₀ a b rel g' ∧
      (∀ r x y, g.Within r x y → g'.Within r x y) ∧ ∀ r x, x ≠ child → s ≤ r → g₀.Within r x a → g'.Within r x child := by
  obtain ⟨g', hg', hb, hgrow, hall⟩ := relations_spec (f := relateBack a child s) (g.backwards a)
    (D := fun c r x y => x = c ∧ y = child ∧ x ≠ child ∧ s ≤ r ∧ g₀.Within r x a) (fun c hc g₁ hb₁ => by
      unfold relateBack
      by_cases hcc : c = child
      · exact ⟨g₁, if_pos hcc, hb₁, fun _ _ _ hw => hw, fun r x y hD => absurd (hD.1.trans hcc) hD.2.2.1⟩
      · obtain ⟨v, hv⟩ := (h.wf.mirror c a).mp hc
        obtain ⟨w, hw, -⟩ := hb₁.grown v c a (h.column ⟨v, hv, le_rfl⟩)
        have hwa : g₀.Within w c a := hb₁.column ⟨w, hw, le_rfl⟩
        obtain ⟨g₂, hg₂, hb₂, hgrow, hwithin⟩ := hb₁.relate hrel (s := max s w) (hs.trans (le_max_left s w)) hcc
          (.inr (hwa.mono (le_max_right s w))) (hchild.imp_right fun hx => hx.mono (le_max_left s w))
        refine ⟨g₂, by rw [if_neg hcc, hw]; exact hg₂, hb₂, hgrow, ?_⟩
        rintro r x y ⟨rfl, rfl, -, hsr, hx⟩
        obtain ⟨u, hu, hur⟩ := hb₁.grown r x a hx
        have hwr : w ≤ r := Option.some.inj (hw.symm.trans hu) ▸ hur
        exact hwithin.mono (max_le hsr hwr)) h
  refine ⟨g', hg', hb, hgrow, fun r x hx hsr hxa => ?_⟩
  obtain ⟨v, hv, -⟩ := h.grown r x a hxa
  exact hall x ((h.wf.mirror x a).mpr ⟨v, hv⟩) r x child ⟨rfl, rfl, hx, hsr, hxa⟩

theorem relateChild_spec (h : Between g₀ a b rel g) (hrel : rel ≠ .exact) (hab : a ≠ b) {child : τ} {v₀ : Conversion}
    (hv₀ : (g₀.forwards b).get child = some v₀) : ∃ g', relateChild a b rel g child = some g' ∧ Between g₀ a b rel g' ∧
      (∀ r x y, g.Within r x y → g'.Within r x y) ∧
      ∀ r x y, y = child ∧ x ≠ y ∧ rel ≤ r ∧ (x = a ∨ g₀.Within r x a) ∧ g₀.Within r b y → g'.Within r x y := by
  obtain ⟨v, hv, -⟩ := h.grown v₀ b child ⟨v₀, hv₀, le_rfl⟩
  have hvb : g₀.Within v b child := h.row ⟨v, hv, le_rfl⟩
  have hs : rel ≤ max rel v := le_max_left rel v
  have hbest : ∀ {r}, rel ≤ r → g₀.Within r b child → max rel v ≤ r := by
    intro r hr hw
    obtain ⟨u, hu, hur⟩ := h.grown r b child hw
    exact max_le hr (Option.some.inj (hv.symm.trans hu) ▸ hur)
  obtain ⟨g₁, hg₁, hb₁, hgrow₁, hwithin⟩ : ∃ g₁, (if a = child then some g else g.relate a child (max rel v)) = some g₁ ∧
      Between g₀ a b rel g₁ ∧ (∀ r x y, g.Within r x y → g₁.Within r x y) ∧ (a ≠ child → g₁.Within (max rel v) a child) := by
    by_cases hac : a = child
    · exact ⟨g, if_pos hac, h, fun _ _ _ hw => hw, fun hne => absurd hac hne⟩
    · obtain ⟨g₁, hg₁, hb₁, hgrow, hw⟩ := h.relate hrel hs hac (.inl rfl) (.inr (hvb.mono (le_max_right rel v)))
      exact ⟨g₁, by rw [if_neg hac, hg₁], hb₁, hgrow, fun _ => hw⟩
  obtain ⟨g₂, hg₂, hb₂, hgrow₂, hback⟩ := relateBacks_spec hb₁ hrel hs (.inr (hvb.mono (le_max_right rel v)))
  refine ⟨g₂, by rw [relateChild, hv, Option.bind_some, hg₁, Option.bind_some, hg₂], hb₂, fun r x y hw => hgrow₂ r x y (hgrow₁ r x y hw), ?_⟩
  rintro r x y ⟨rfl, hxy, hr, hx, hy⟩
  rcases hx with rfl | hx
  · exact hgrow₂ r x y ((hwithin hxy).mono (hbest hr hy))
  · exact hback r x hxy (hbest hr hy) hx

/-- **One rule.** The graph relates what it related, and what the rule connects. -/
theorem insertRule_spec (h : g.WellFormed) (hab : a ≠ b) (hrel : rel ≠ .exact) : ∃ g', g.insertRule (a, b, rel) = some g' ∧
    g'.WellFormed ∧ (∀ r x y, g'.Within r x y ↔ g.Through a b rel r x y) ∧
    (g.Agrees → (∀ v, (g.forwards a).get b = some v → rel ≤ v) → g'.Agrees) := by
  let g₁ := (g.insert a b rel).setCompatible a b rel
  have hwithin : ∀ r x y, g₁.Within r x y ↔ g.Within r x y ∨ x = a ∧ y = b ∧ rel ≤ r := fun r x y => within_insert
  have hb₁ : Between g a b rel g₁ := by
    refine ⟨⟨(h.insert hab rel).irrefl, (h.insert hab rel).mirror⟩, fun r x y hw => (hwithin r x y).mpr (.inl hw), ?_, ?_⟩
    · intro r x y hw
      rcases (hwithin r x y).mp hw with hw | ⟨rfl, rfl, hr⟩
      · exact .inl hw
      · exact .inr ⟨hab, hr, .inl rfl, .inl rfl⟩
    · intro hag htight
      refine hag.insert ?_
      cases hold : (g.forwards a).get b with
      | none => simp [better, hold]
      | some v => simp [better, hold, htight v hold]
  have hkeys : ∀ {c}, c ∈ (g₁.forwards b).keys → ∃ v, (g.forwards b).get c = some v := by
    intro c hc
    obtain ⟨v, hv⟩ := Dict.mem_keys_iff.mp hc
    obtain ⟨w, hw, -⟩ := hb₁.row ⟨v, hv, le_rfl⟩
    exact ⟨w, hw⟩
  obtain ⟨g₂, hg₂, hb₂, hgrow₂, hall₂⟩ := relations_spec (g₁.forwards b).keys
    (D := fun c r x y => y = c ∧ x ≠ y ∧ rel ≤ r ∧ (x = a ∨ g.Within r x a) ∧ g.Within r b y) (fun c hc g' hb' => by
      obtain ⟨v, hv⟩ := hkeys hc
      exact relateChild_spec hb' hrel hab hv) hb₁
  obtain ⟨g₃, hg₃, hb₃, hgrow₃, hback⟩ := relateBacks_spec hb₂ hrel le_rfl (.inl rfl)
  refine ⟨g₃, ?_, hb₃.wf, fun r x y => ⟨hb₃.sound r x y, ?_⟩, hb₃.agrees⟩
  · simp only [insertRule, update, if_neg hrel, Option.bind_some, propagate]
    rw [show (g₁.forwards b).keys.foldlM (relateChild a b rel) g₁ = some g₂ from hg₂, Option.bind_some, hg₃]
  · intro hthrough
    rcases hthrough with hw | ⟨hxy, hr, hx, hy⟩
    · exact hb₃.grown r x y hw
    · by_cases hby : b = y
      · subst hby
        rcases hx with rfl | hx
        · exact hgrow₃ r x b (hgrow₂ r x b ((hwithin r x b).mpr (.inr ⟨rfl, rfl, hr⟩)))
        · exact hback r x hxy hr hx
      · have hy := hy.resolve_left hby
        obtain ⟨v, hv, -⟩ := hb₁.grown r b y hy
        exact hgrow₃ r x y (hall₂ y (Dict.mem_keys_iff.mpr ⟨v, hv⟩) r x y ⟨rfl, hxy, hr, hx, hy⟩)

/-! ## All rules -/

/-- What `promote`, `safe` and `unsafe` pass on. -/
def IsRule (rule : τ × τ × Conversion) : Prop := rule.1 ≠ rule.2.1 ∧ rule.2.2 ≠ .exact

/-- The rule is not worse than the entry that it meets. -/
def Tight (g : TypeGraph τ) (rule : τ × τ × Conversion) : Prop := ∀ v, (g.forwards rule.1).get rule.2.1 = some v → rule.2.2 ≤ v

variable {rules : List (τ × τ × Conversion)}

omit [DecidableEq τ] in
theorem through_reach : (x ≠ y ∧ Reach rules r x y ∨ x ≠ y ∧ rel ≤ r ∧ (x = a ∨ x ≠ a ∧ Reach rules r x a) ∧
    (b = y ∨ b ≠ y ∧ Reach rules r b y)) ↔ x ≠ y ∧ Reach ((a, b, rel) :: rules) r x y := by
  have hrefl : ∀ u v : τ, (u = v ∨ u ≠ v ∧ Reach rules r u v) ↔ Reach rules r u v := by
    intro u v
    by_cases huv : u = v
    · simp [huv, show Reach rules r v v from .refl]
    · simp [huv]
  rw [hrefl, hrefl, ← and_or_left, reach_cons]

theorem run_spec (rest : List (τ × τ × Conversion)) (hrest : ∀ rule ∈ rest, IsRule rule) (hwf : g.WellFormed)
    (hg : ∀ r x y, g.Within r x y ↔ x ≠ y ∧ Reach rules r x y) : ∃ g', Runs.run insertRule g rest = some g' ∧
      (∀ r x y, g'.Within r x y ↔ x ≠ y ∧ Reach (rest.reverse ++ rules) r x y) ∧
      (g.Agrees → Runs.StepsOk insertRule Tight g rest → g'.Agrees) := by
  induction rest generalizing g rules with
  | nil => exact ⟨g, rfl, hg, fun hag _ => hag⟩
  | cons rule rest ih =>
    obtain ⟨a, b, rel⟩ := rule
    obtain ⟨hne, hrel⟩ := hrest (a, b, rel) (List.mem_cons_self ..)
    obtain ⟨g₁, hg₁, hwf₁, hwithin, hagrees⟩ := insertRule_spec hwf hne hrel
    have hg' : ∀ r x y, g₁.Within r x y ↔ x ≠ y ∧ Reach ((a, b, rel) :: rules) r x y := by
      intro r x y
      rw [hwithin, Through, hg, hg, hg, through_reach]
    obtain ⟨g₂, hg₂, hclosed, hagrees₂⟩ := ih (fun rule h => hrest rule (List.mem_cons_of_mem _ h)) hwf₁ hg'
    refine ⟨g₂, by rw [Runs.run, hg₁, Option.bind_some, hg₂], by simpa using hclosed, fun hag hok => ?_⟩
    exact hagrees₂ (hagrees hag hok.1) (hok.2 g₁ hg₁)

theorem insertRules_spec (hrules : ∀ rule ∈ rules, IsRule rule) : ∃ g, insertRules rules = some g ∧
    (∀ r x y, x ≠ y → (g.Within r x y ↔ Reach rules r x y)) ∧ (Runs.StepsOk insertRule Tight empty rules → g.Agrees) := by
  have hnone : ∀ r x y, ¬ (empty : TypeGraph τ).Within r x y := by
    rintro r x y ⟨v, hv, -⟩
    cases hv
  have hempty : ∀ r (x y : τ), (empty : TypeGraph τ).Within r x y ↔ x ≠ y ∧ Reach [] r x y := by
    refine fun r x y => iff_of_false (hnone r x y) fun h => h.1 ?_
    have hreach := h.2
    induction hreach with
    | refl => rfl
    | tail _ hstep => obtain ⟨s, -, hmem⟩ := hstep; cases hmem
  obtain ⟨g, hg, hclosed, hagrees⟩ := run_spec rules hrules ⟨fun _ => rfl, fun x y => by simp [empty]⟩ hempty
  refine ⟨g, hg, fun r x y hxy => ?_, fun hok => hagrees (fun _ _ _ => rfl) hok⟩
  rw [hclosed, and_iff_right hxy]
  constructor
  · exact Reach.mono le_rfl (by simp)
  · exact Reach.mono le_rfl (by simp)

/-- **The graph is the closure of its rules**, in whatever order they come: an entry
is the best conversion along a chain of rules, and a chain is as good as its worst rule. -/
theorem insertRules_closure (rules : List (τ × τ × Conversion)) (hrules : ∀ rule ∈ rules, rule.1 ≠ rule.2.1 ∧ rule.2.2 ≠ .exact) :
    ∃ g, insertRules rules = some g ∧ ∀ x y, x ≠ y → ∀ r, (∃ v, (g.forwards x).get y = some v ∧ v ≤ r) ↔ Reach rules r x y := by
  obtain ⟨g, hg, hclosed, -⟩ := insertRules_spec hrules
  exact ⟨g, hg, fun x y hxy r => hclosed r x y hxy⟩

def backAndForth : List (Bool × Bool × Conversion) := [(false, true, .promote), (true, false, .unsafeConvert)]

theorem insertRules_backAndForth : ∃ g, insertRules backAndForth = some g ∧
    ∀ x y, x ≠ y → ∀ r, (∃ v, (g.forwards x).get y = some v ∧ v ≤ r) ↔ Reach backAndForth r x y :=
  insertRules_closure _ (by decide)

/-- **The type manager knows the closure**, when no rule is worse than the entry that
it meets. `insert_rule` calls back even when the old entry stays. -/
theorem typeManager_closure (rules : List (τ × τ × Conversion)) (hrules : ∀ rule ∈ rules, rule.1 ≠ rule.2.1 ∧ rule.2.2 ≠ .exact)
    (htight : Runs.StepsOk insertRule Tight empty rules) : ∃ g, insertRules rules = some g ∧
      ∀ x y, x ≠ y → ∀ r, (∃ v, g.checkCompatible x y = some v ∧ v ≤ r) ↔ Reach rules r x y := by
  obtain ⟨g, hg, hclosed, hagrees⟩ := insertRules_spec hrules
  refine ⟨g, hg, fun x y hxy r => ?_⟩
  rw [checkCompatible, if_neg hxy, hagrees htight x y hxy]
  exact hclosed r x y hxy

theorem typeManager_backAndForth : ∃ g, insertRules backAndForth = some g ∧
    ∀ x y, x ≠ y → ∀ r, (∃ v, g.checkCompatible x y = some v ∧ v ≤ r) ↔ Reach backAndForth r x y := by
  refine typeManager_closure _ (by decide) ⟨fun v hv => ?_, fun g hg => ⟨fun v hv => ?_, fun _ _ => trivial⟩⟩
  · cases hv
  · cases hg
    cases hv

/-- The entry stays a promotion, but the type manager is told of the looser rule. -/
example : (insertRules [(false, true, .promote), (false, true, .unsafeConvert)]).map (fun g => ((g.forwards false).get true,
    g.checkCompatible false true)) = some (some .promote, some .unsafeConvert) := rfl

end

end TypeGraph

end NumbaCudaMlir.CastGraph

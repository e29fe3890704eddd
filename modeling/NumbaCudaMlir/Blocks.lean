import Mathlib.Data.List.Forall2

/-!
# Flat lists of blocks

A block is empty, or one head followed by elements that are no heads. A flat
list of blocks determines them, given which of them are empty.
-/

namespace Blocks

variable {α : Type} (head : α → Bool)

/-- Empty, or a head and then no further head. -/
def IsBlock : List α → Prop
  | [] => True
  | h :: t => head h = true ∧ ∀ x ∈ t, head x = false

theorem IsBlock.cons {h : α} {t : List α} (hh : head h = true) (ht : ∀ x ∈ t, head x = false) :
    IsBlock head (h :: t) := ⟨hh, ht⟩

theorem takeWhile_block {t : List α} {bs : List (List α)} (ht : ∀ x ∈ t, head x = false)
    (hb : ∀ b ∈ bs, IsBlock head b) : (t ++ bs.flatten).takeWhile (fun x => !head x) = t := by
  rw [List.takeWhile_append_of_pos (by intro x hx; simp [ht x hx])]
  induction bs with
  | nil => simp
  | cons b bs ih =>
    obtain ⟨hb, hbs⟩ := List.forall_mem_cons.mp hb
    cases b with
    | nil => exact ih hbs
    | cons h u =>
      have hh : head h = true := hb.1
      rw [List.flatten_cons, List.cons_append, List.takeWhile_cons_of_neg (by simp [hh]), List.append_nil]

theorem flatten_inj : ∀ {bs cs : List (List α)}, (∀ b ∈ bs, IsBlock head b) → (∀ c ∈ cs, IsBlock head c) →
    List.Forall₂ (fun b c => b = [] ↔ c = []) bs cs → bs.flatten = cs.flatten → bs = cs
  | [], _, _, _, he, _ => (List.forall₂_nil_left_iff.mp he).symm
  | _ :: _, [], _, _, he, _ => by cases he
  | b :: bs, c :: cs, hb, hc, he, h => by
    obtain ⟨hbc, hrest⟩ := List.forall₂_cons.mp he
    obtain ⟨hb, hbs⟩ := List.forall_mem_cons.mp hb
    obtain ⟨hc, hcs⟩ := List.forall_mem_cons.mp hc
    cases b with
    | nil =>
      obtain rfl := hbc.mp rfl
      rw [flatten_inj hbs hcs hrest h]
    | cons x t =>
      cases c with
      | nil => exact absurd (hbc.mpr rfl) (List.cons_ne_nil x t)
      | cons y u =>
        simp only [List.flatten_cons, List.cons_append, List.cons.injEq] at h
        obtain ⟨rfl, h⟩ := h
        have htu : t = u := by
          rw [← takeWhile_block head hb.2 hbs, h, takeWhile_block head hc.2 hcs]
        rw [htu, List.append_cancel_left_eq] at h
        rw [htu, flatten_inj hbs hcs hrest h]

/-! ## Lists with their blocks -/

section
variable {β γ : Type} {P : β → List α → Prop}

theorem forall_right {Q : List α → Prop} (hQ : ∀ x b, P x b → Q b) {xs : List β} {bs : List (List α)}
    (h : List.Forall₂ P xs bs) : ∀ b ∈ bs, Q b := by
  induction h with
  | nil => exact List.forall_mem_nil _
  | cons hx _ ih => exact List.forall_mem_cons.mpr ⟨hQ _ _ hx, ih⟩

theorem emptiness_of_map_eq {g : β → γ}
    (hP : ∀ {x y b c}, P x b → P y c → g x = g y → (b = [] ↔ c = [])) {xs : List β} {bs : List (List α)}
    (hb : List.Forall₂ P xs bs) : ∀ {ys : List β} {cs : List (List α)}, List.Forall₂ P ys cs →
    xs.map g = ys.map g →
    List.Forall₂ (fun b c => b = [] ↔ c = []) bs cs := by
  induction hb with
  | nil =>
    intro ys cs hc h
    cases hc with
    | nil => exact .nil
    | cons => cases h
  | cons hx _ ih =>
    intro ys cs hc h
    cases hc with
    | nil => cases h
    | cons hy hc =>
      rw [List.map_cons, List.map_cons, List.cons.injEq] at h
      exact .cons (hP hx hy h.1) (ih hc h.2)

theorem forall₂_share {xs : List β} {bs : List (List α)} (hb : List.Forall₂ P xs bs) :
    ∀ {ys : List β}, List.Forall₂ P ys bs → List.Forall₂ (fun x y => ∃ b, P x b ∧ P y b) xs ys := by
  induction hb with
  | nil =>
    intro ys hc
    cases hc
    exact .nil
  | cons hx _ ih =>
    intro ys hc
    cases hc with
    | cons hy hc => exact .cons ⟨_, hx, hy⟩ (ih hc)

end

theorem forall₂_getElem? {β γ : Type} {R : β → γ → Prop} {xs : List β} {ys : List γ} (h : List.Forall₂ R xs ys) :
    ∀ {p : Nat} {x : β}, xs[p]? = some x → ∃ y, ys[p]? = some y ∧ R x y := by
  induction h with
  | nil => intro p x hx; cases hx
  | cons hr _ ih =>
    intro p x hx
    cases p with
    | zero => cases hx; exact ⟨_, rfl, hr⟩
    | succ p => exact ih hx

theorem forall₂_unzip {β κ : Type} {R : β × κ → β × κ → Prop} {ks : List κ} : ∀ {xs ys : List β},
    ks.length = xs.length → ks.length = ys.length → List.Forall₂ R (xs.zip ks) (ys.zip ks) →
    List.Forall₂ (fun x y => ∃ k, R (x, k) (y, k)) xs ys := by
  induction ks with
  | nil =>
    intro xs ys hx hy _
    rw [List.length_eq_zero_iff.mp hx.symm, List.length_eq_zero_iff.mp hy.symm]
    exact .nil
  | cons k ks ih =>
    intro xs ys hx hy h
    cases xs with
    | nil => cases hx
    | cons x xs =>
      cases ys with
      | nil => cases hy
      | cons y ys =>
        rw [List.zip_cons_cons, List.zip_cons_cons] at h
        obtain ⟨h, hs⟩ := List.forall₂_cons.mp h
        exact .cons ⟨k, h⟩ (ih (Nat.succ.inj hx) (Nat.succ.inj hy) hs)

end Blocks

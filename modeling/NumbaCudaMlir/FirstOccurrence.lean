import Mathlib.Data.List.Induction
import Mathlib.Data.List.Basic

/-!
# Leaving out repetitions of some elements

`keepFirst p xs` is `xs` without the repetitions of the elements that meet `p`;
the others stay as often as they are there.
-/

namespace FirstOccurrence

variable {α : Type} [DecidableEq α] (p : α → Bool)

def keep (out : List α) (x : α) : List α := if p x = true ∧ x ∈ out then out else out ++ [x]

def keepFirst (xs : List α) : List α := xs.foldl (keep p) []

@[simp] theorem keepFirst_nil : keepFirst p [] = [] := rfl

theorem keepFirst_snoc (xs : List α) (x : α) : keepFirst p (xs ++ [x]) = keep p (keepFirst p xs) x := by
  simp [keepFirst]

theorem mem_keep {out : List α} {x y : α} : y ∈ keep p out x ↔ y ∈ out ∨ y = x := by
  unfold keep
  split_ifs with h
  · exact ⟨.inl, fun hy => hy.elim id fun he => he ▸ h.2⟩
  · simp

theorem mem_keepFirst {xs : List α} {x : α} : x ∈ keepFirst p xs ↔ x ∈ xs := by
  induction xs using List.reverseRecOn with
  | nil => simp
  | append_singleton xs y ih => rw [keepFirst_snoc, mem_keep, ih, List.mem_append, List.mem_singleton]

theorem keep_new {out : List α} {x : α} (h : x ∉ out) : keep p out x = out ++ [x] := if_neg fun h' => h h'.2

theorem keep_free {out : List α} {x : α} (h : p x = false) : keep p out x = out ++ [x] := if_neg fun h' => by simp [h] at h'

theorem keep_seen {out : List α} {x : α} (hp : p x = true) (h : x ∈ out) : keep p out x = out := if_pos ⟨hp, h⟩

theorem keepFirst_filter (q : α → Bool) (xs : List α) : (keepFirst p xs).filter q = keepFirst p (xs.filter q) := by
  induction xs using List.reverseRecOn with
  | nil => rfl
  | append_singleton xs x ih =>
    rw [keepFirst_snoc, List.filter_append]
    by_cases hq : q x = true
    · rw [List.filter_cons_of_pos hq, List.filter_nil, keepFirst_snoc, ← ih]
      by_cases hx : x ∈ keepFirst p xs
      · have hx' : x ∈ (keepFirst p xs).filter q := List.mem_filter.mpr ⟨hx, hq⟩
        cases hp : p x with
        | true => rw [keep_seen p hp hx, keep_seen p hp hx']
        | false => rw [keep_free p hp, keep_free p hp, List.filter_append, List.filter_cons_of_pos hq, List.filter_nil]
      · have hx' : x ∉ (keepFirst p xs).filter q := fun h => hx (List.mem_filter.mp h).1
        rw [keep_new p hx, keep_new p hx', List.filter_append, List.filter_cons_of_pos hq, List.filter_nil]
    · rw [List.filter_cons_of_neg hq, List.filter_nil, List.append_nil, ← ih]
      unfold keep
      split_ifs with h
      · rfl
      · rw [List.filter_append, List.filter_cons_of_neg hq, List.filter_nil, List.append_nil]

theorem count_keepFirst_le {x : α} (hp : p x = true) (xs : List α) : (keepFirst p xs).count x ≤ 1 := by
  induction xs using List.reverseRecOn with
  | nil => simp
  | append_singleton xs y ih =>
    rw [keepFirst_snoc]
    by_cases hy : y = x
    · subst hy
      by_cases hmem : y ∈ keepFirst p xs
      · rw [keep_seen p hp hmem]
        exact ih
      · rw [keep_new p hmem, List.count_append, List.count_eq_zero_of_not_mem hmem]
        simp
    · unfold keep
      split_ifs with h
      · exact ih
      · rw [List.count_append, List.count_singleton]
        simpa [hy] using ih

theorem keepFirst_sublist (xs : List α) : (keepFirst p xs).Sublist xs := by
  induction xs using List.reverseRecOn with
  | nil => exact List.Sublist.refl _
  | append_singleton xs x ih =>
    rw [keepFirst_snoc]
    unfold keep
    split_ifs
    · exact ih.trans (List.sublist_append_left xs [x])
    · exact ih.append (List.Sublist.refl _)

theorem keepFirst_eq_self {xs : List α} (h : ∀ x, p x = true → xs.count x ≤ 1) : keepFirst p xs = xs := by
  induction xs using List.reverseRecOn with
  | nil => rfl
  | append_singleton xs x ih =>
    have hxs : ∀ y, p y = true → xs.count y ≤ 1 := fun y hy =>
      Nat.le_trans (by rw [List.count_append]; exact Nat.le_add_right _ _) (h y hy)
    rw [keepFirst_snoc, ih hxs]
    cases hp : p x with
    | false => exact keep_free p hp
    | true =>
      have hone := h x hp
      rw [List.count_append, List.count_singleton_self] at hone
      exact keep_new p (List.count_eq_zero.mp (by omega))

theorem keepFirst_idem (xs : List α) : keepFirst p (keepFirst p xs) = keepFirst p xs :=
  keepFirst_eq_self p fun _ hx => count_keepFirst_le p hx xs

theorem keepFirst_append (xs ys : List α) : keepFirst p (xs ++ ys) = ys.foldl (keep p) (keepFirst p xs) := by
  rw [keepFirst, List.foldl_append]
  rfl

theorem keepFirst_append_congr {xs xs' : List α} (h : keepFirst p xs = keepFirst p xs') (ys : List α) :
    keepFirst p (xs ++ ys) = keepFirst p (xs' ++ ys) := by
  rw [keepFirst_append, keepFirst_append, h]

theorem keepFirst_snoc_seen {xs : List α} {x : α} (hp : p x = true) (h : x ∈ xs) : keepFirst p (xs ++ [x]) = keepFirst p xs := by
  rw [keepFirst_snoc, keep_seen p hp ((mem_keepFirst p).mpr h)]

theorem keepFirst_append_keepFirst (xs ys : List α) : keepFirst p (xs ++ keepFirst p ys) = keepFirst p (xs ++ ys) := by
  induction ys using List.reverseRecOn with
  | nil => rfl
  | append_singleton ys y ih =>
    rw [keepFirst_snoc, ← List.append_assoc, keepFirst_snoc, ← ih]
    by_cases hseen : p y = true ∧ y ∈ keepFirst p ys
    · rw [keep_seen p hseen.1 hseen.2, keep_seen p hseen.1 ((mem_keepFirst p).mpr (List.mem_append_right xs hseen.2))]
    · rw [keep, if_neg hseen, ← List.append_assoc, keepFirst_snoc]

theorem head?_keepFirst (xs : List α) : (keepFirst p xs).head? = xs.head? := by
  induction xs using List.reverseRecOn with
  | nil => rfl
  | append_singleton xs x ih =>
    rw [keepFirst_snoc]
    unfold keep
    split_ifs with h
    · rw [ih, List.head?_append_of_ne_nil]
      rintro rfl
      exact absurd h.2 List.not_mem_nil
    · rw [List.head?_append, List.head?_append, ih]

end FirstOccurrence

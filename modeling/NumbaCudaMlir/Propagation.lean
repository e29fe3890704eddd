import Mathlib.Data.Finset.Prod
import NumbaCudaMlir.WhileLoop

/-!
# Sets pushed along edges

Every node of a graph has a set. A sweep merges, edge by edge, what passes of one
set into the other, until a whole sweep changes nothing. Whatever the order of
the edges, the sets end as the least ones that are closed under the merges.
-/

namespace Propagation

open WhileLoop

section
variable {β ν : Type} [DecidableEq β] [DecidableEq ν]

structure State (β ν : Type) where
  sets : β → Finset ν
  changed : Bool

variable (passes : β → ν → Bool) (edges : List (β × β))

def merged (s : State β ν) (e : β × β) : Finset ν := s.sets e.2 ∪ (s.sets e.1).filter (passes e.2 ·)

def push (s : State β ν) (e : β × β) : State β ν :=
  if merged passes s e = s.sets e.2 then s else ⟨Function.update s.sets e.2 (merged passes s e), true⟩

def sweep (s : State β ν) : State β ν := edges.foldl (push passes) ⟨s.sets, false⟩

def propagate (fuel : Nat) (seeds : β → Finset ν) : Option (β → Finset ν) :=
  (whileLoop (·.changed) (fun s => some (sweep passes edges s)) fuel ⟨seeds, true⟩).map (·.sets)

/-- What the sets have to hold. -/
inductive Derived (seeds : β → Finset ν) : β → ν → Prop where
  | seed {b : β} {x : ν} : x ∈ seeds b → Derived seeds b x
  | step {b c : β} {x : ν} : Derived seeds b x → (b, c) ∈ edges → passes c x = true → Derived seeds c x

def missing (all : Finset ν) (s : State β ν) : Nat :=
  (((edges.map (·.2)).toFinset ×ˢ all).filter fun p => p.2 ∉ s.sets p.1).card

structure Sound (seeds : β → Finset ν) (s : State β ν) : Prop where
  derived : ∀ b x, x ∈ s.sets b → Derived passes edges seeds b x
  seeds : ∀ b x, x ∈ seeds b → x ∈ s.sets b

variable {passes} {edges} {seeds : β → Finset ν} {all : Finset ν} {s : State β ν}

omit [DecidableEq β] [DecidableEq ν] in
theorem Derived.mem_all (hall : ∀ b, seeds b ⊆ all) {b : β} {x : ν} (h : Derived passes edges seeds b x) : x ∈ all := by
  induction h with
  | seed hx => exact hall _ hx
  | step _ _ _ ih => exact ih

/-- **The step of a sweep.** -/
theorem push_spec (hall : ∀ b, seeds b ⊆ all) (h : Sound passes edges seeds s) {e : β × β} (he : e ∈ edges) :
    (push passes s e = s ∧ ∀ x ∈ s.sets e.1, passes e.2 x = true → x ∈ s.sets e.2) ∨
      Sound passes edges seeds (push passes s e) ∧ (push passes s e).changed = true ∧
        missing edges all (push passes s e) < missing edges all s := by
  unfold push
  by_cases hsame : merged passes s e = s.sets e.2
  · rw [if_pos hsame]
    refine .inl ⟨rfl, fun x hx hp => ?_⟩
    rw [← hsame]
    exact Finset.mem_union_right _ (Finset.mem_filter.mpr ⟨hx, hp⟩)
  · rw [if_neg hsame]
    have hmerged : ∀ x ∈ merged passes s e, Derived passes edges seeds e.2 x := by
      intro x hx
      rcases Finset.mem_union.mp hx with hx | hx
      · exact h.derived _ x hx
      · obtain ⟨hx, hp⟩ := Finset.mem_filter.mp hx
        exact .step (h.derived _ x hx) he hp
    have hget : ∀ b, (Function.update s.sets e.2 (merged passes s e) b = s.sets b ∨ b = e.2) ∧
        ∀ x ∈ s.sets b, x ∈ Function.update s.sets e.2 (merged passes s e) b := by
      intro b
      by_cases hb : b = e.2
      · subst hb
        rw [Function.update_self]
        exact ⟨.inr rfl, fun x hx => Finset.mem_union_left _ hx⟩
      · rw [Function.update_of_ne hb]
        exact ⟨.inl rfl, fun x hx => hx⟩
    refine .inr ⟨⟨fun b x hx => ?_, fun b x hx => (hget b).2 x (h.seeds b x hx)⟩, rfl, ?_⟩
    · change x ∈ Function.update s.sets e.2 (merged passes s e) b at hx
      rcases (hget b).1 with hb | rfl
      · exact h.derived b x (hb ▸ hx)
      · rw [Function.update_self] at hx
        exact hmerged x hx
    · obtain ⟨x, hx, hnew⟩ : ∃ x ∈ merged passes s e, x ∉ s.sets e.2 := by
        by_contra hnone
        refine hsame (Finset.Subset.antisymm (fun x hx => ?_) Finset.subset_union_left)
        by_contra hmem
        exact hnone ⟨x, hx, hmem⟩
      refine Finset.card_lt_card (Finset.ssubset_iff_of_subset ?_ |>.mpr ⟨(e.2, x), ?_, ?_⟩)
      · intro p hp
        rw [Finset.mem_filter] at hp ⊢
        exact ⟨hp.1, fun hmem => hp.2 ((hget p.1).2 p.2 hmem)⟩
      · rw [Finset.mem_filter, Finset.mem_product]
        exact ⟨⟨List.mem_toFinset.mpr (List.mem_map_of_mem he), (hmerged x hx).mem_all hall⟩, hnew⟩
      · rw [Finset.mem_filter]
        exact fun hmem => hmem.2 (by simpa using hx)

theorem pushes_spec (hall : ∀ b, seeds b ⊆ all) (rest : List (β × β)) (hrest : ∀ e ∈ rest, e ∈ edges)
    (h : Sound passes edges seeds s) : (rest.foldl (push passes) s = s ∧ ∀ e ∈ rest, ∀ x ∈ s.sets e.1, passes e.2 x = true → x ∈ s.sets e.2) ∨
      Sound passes edges seeds (rest.foldl (push passes) s) ∧ (rest.foldl (push passes) s).changed = true ∧
        missing edges all (rest.foldl (push passes) s) < missing edges all s := by
  induction rest generalizing s with
  | nil => exact .inl ⟨rfl, by simp⟩
  | cons e rest ih =>
    have hmem := fun e h => hrest e (List.mem_cons_of_mem _ h)
    rw [List.foldl_cons]
    rcases push_spec hall h (hrest e (List.mem_cons_self ..)) with ⟨hsame, hclosed⟩ | ⟨hsound, hchanged, hlt⟩
    · rw [hsame]
      refine (ih hmem h).imp_left fun hih => ⟨hih.1, fun e' he' => ?_⟩
      rcases List.mem_cons.mp he' with rfl | he'
      · exact hclosed
      · exact hih.2 e' he'
    · rcases ih hmem hsound with ⟨hsame, -⟩ | ⟨hsound', hchanged', hlt'⟩
      · rw [hsame]
        exact .inr ⟨hsound, hchanged, hlt⟩
      · exact .inr ⟨hsound', hchanged', hlt'.trans hlt⟩

/-- **The sets are the least closed ones**, after finitely many sweeps. -/
theorem propagate_spec (hall : ∀ b, seeds b ⊆ all) {fuel : Nat} (hfuel : 2 * missing edges all ⟨seeds, true⟩ + 1 < fuel) :
    ∃ sets, propagate passes edges fuel seeds = some sets ∧ ∀ b x, x ∈ sets b ↔ Derived passes edges seeds b x := by
  obtain ⟨s, hs, ⟨hsound, hclosed⟩, hguard⟩ := whileLoop_total (·.changed) (fun s => some (sweep passes edges s))
    (I := fun s => Sound passes edges seeds s ∧
      (s.changed = false → ∀ e ∈ edges, ∀ x ∈ s.sets e.1, passes e.2 x = true → x ∈ s.sets e.2))
    (μ := fun s => 2 * missing edges all s + if s.changed then 1 else 0) (fun s hs hchanged => by
      have hstart : Sound passes edges seeds ⟨s.sets, false⟩ := ⟨hs.1.derived, hs.1.seeds⟩
      refine ⟨_, rfl, ?_⟩
      unfold sweep
      rcases pushes_spec hall edges (fun _ he => he) hstart with ⟨hsame, hclosed⟩ | ⟨hsound, hchanged', hlt⟩
      · rw [hsame]
        exact ⟨⟨hstart, fun _ => hclosed⟩, by simp [hchanged, missing]⟩
      · refine ⟨⟨hsound, fun hfalse => by rw [hchanged'] at hfalse; cases hfalse⟩, ?_⟩
        have : missing edges all ⟨s.sets, false⟩ = missing edges all s := rfl
        simp only [hchanged, hchanged', if_true]
        omega) (s := ⟨seeds, true⟩)
    ⟨⟨fun _ _ hx => .seed hx, fun _ _ hx => hx⟩, by simp⟩ (show _ < fuel by simpa using hfuel)
  refine ⟨s.sets, by rw [propagate, hs]; rfl, fun b x => ⟨hsound.derived b x, fun hd => ?_⟩⟩
  induction hd with
  | seed hx => exact hsound.seeds _ _ hx
  | step _ he hp ih => exact hclosed hguard _ he _ ih hp

end

end Propagation

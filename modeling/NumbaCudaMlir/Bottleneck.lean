import Mathlib.Logic.Relation
import Mathlib.Order.Lattice

/-!
# Paths below a threshold

`Reach rules r x y`: `y` is reached from `x` by rules that are rated `r` or better.
The best rating of a path from `x` to `y` is the least such `r`.
-/

namespace Bottleneck

open Relation

section
variable {τ ρ : Type} [LinearOrder ρ]

def Reach (rules : List (τ × τ × ρ)) (r : ρ) : τ → τ → Prop := ReflTransGen fun x y => ∃ s ≤ r, (x, y, s) ∈ rules

variable {rules rules' : List (τ × τ × ρ)} {r s : ρ} {a b x y : τ}

theorem Reach.mono (hr : r ≤ s) (hrules : ∀ rule ∈ rules, rule ∈ rules') (h : Reach rules r x y) : Reach rules' s x y :=
  ReflTransGen.mono (fun _ _ ⟨t, ht, hmem⟩ => ⟨t, ht.trans hr, hrules _ hmem⟩) x y h

theorem reach_cons : Reach ((a, b, s) :: rules) r x y ↔ Reach rules r x y ∨ s ≤ r ∧ Reach rules r x a ∧ Reach rules r b y := by
  have hkeep : ∀ {x y}, Reach rules r x y → Reach ((a, b, s) :: rules) r x y :=
    Reach.mono le_rfl fun _ h => List.mem_cons_of_mem _ h
  constructor
  · intro h
    induction h with
    | refl => exact .inl .refl
    | @tail y z _ hyz ih =>
      obtain ⟨t, ht, hmem⟩ := hyz
      rcases List.mem_cons.mp hmem with heq | hmem
      · cases heq
        rcases ih with hxa | hxa
        · exact .inr ⟨ht, hxa, .refl⟩
        · exact .inr ⟨ht, hxa.2.1, .refl⟩
      · have hyz : Reach rules r y z := .single ⟨t, ht, hmem⟩
        rcases ih with hxy | ⟨hs, hxa, hby⟩
        · exact .inl (hxy.trans hyz)
        · exact .inr ⟨hs, hxa, hby.trans hyz⟩
  · intro h
    rcases h with h | ⟨hs, hxa, hby⟩
    · exact hkeep h
    · exact (ReflTransGen.tail (hkeep hxa) ⟨s, hs, List.mem_cons_self ..⟩).trans (hkeep hby)

end

end Bottleneck

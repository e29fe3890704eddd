import Mathlib.Data.Option.Basic

/-!
# While loops with a measure

`whileLoop guard body fuel s` runs the body as long as the guard holds, for fewer
than `fuel` turns. It returns `none` when the body raises or the turns run out.
-/

namespace WhileLoop

section
variable {σ : Type} (guard : σ → Bool) (body : σ → Option σ)

def whileLoop : Nat → σ → Option σ
  | 0, _ => none
  | fuel + 1, s => if guard s then (body s).bind (whileLoop fuel) else some s

/-- **Total correctness.** An invariant that every turn keeps while a measure
falls holds at the end, and there is an end. -/
theorem whileLoop_total {I : σ → Prop} {μ : σ → Nat}
    (hbody : ∀ s, I s → guard s = true → ∃ s', body s = some s' ∧ I s' ∧ μ s' < μ s) {s : σ} (hs : I s)
    {fuel : Nat} (hfuel : μ s < fuel) : ∃ s', whileLoop guard body fuel s = some s' ∧ I s' ∧ guard s' = false := by
  induction fuel generalizing s with
  | zero => exact absurd hfuel (Nat.not_lt_zero _)
  | succ fuel ih =>
    by_cases hg : guard s = true
    · obtain ⟨s', hb, hi, hμ⟩ := hbody s hs hg
      have hs' : whileLoop guard body (fuel + 1) s = whileLoop guard body fuel s' := by simp [whileLoop, hg, hb]
      rw [hs']
      exact ih hi (by omega)
    · exact ⟨s, by simp [whileLoop, hg], hs, by simpa using hg⟩

end

end WhileLoop

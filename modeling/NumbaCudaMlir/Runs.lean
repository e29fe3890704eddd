import Mathlib.Data.Option.Basic

/-!
# Runs of an executable transition system

A system is a partial step function on labelled events. `run` folds it over a
list of events; `StepsOk ok` says that every step of that fold is taken in a
state that meets `ok`. An invariant that only the steps meeting `ok` keep holds
after every run whose steps all meet it (`run_inv`).
-/

namespace Runs

section
variable {σ ε : Type} (step : σ → ε → Option σ)

/-- The state after the events; `none` when one of them is not enabled. -/
def run (s : σ) : List ε → Option σ
  | [] => some s
  | e :: es => (step s e).bind fun s' => run s' es

/-- Every event of the run is taken in a state that meets `ok`. -/
def StepsOk (ok : σ → ε → Prop) : σ → List ε → Prop
  | _, [] => True
  | s, e :: es => ok s e ∧ ∀ s', step s e = some s' → StepsOk ok s' es

theorem run_cons_some {s s' : σ} {e : ε} {es : List ε} (h : run step s (e :: es) = some s') :
    ∃ m, step s e = some m ∧ run step m es = some s' := by
  rw [run, Option.bind_eq_some_iff] at h
  exact h

theorem run_append (s : σ) (es fs : List ε) :
    run step s (es ++ fs) = (run step s es).bind fun m => run step m fs := by
  induction es generalizing s with
  | nil => rfl
  | cons e es ih =>
    simp only [List.cons_append, run]
    cases step s e with
    | none => rfl
    | some m => simpa using ih m

/-- **Invariant rule, for conditioned runs.** -/
theorem run_inv {ok : σ → ε → Prop} {Inv : σ → Prop}
    (hstep : ∀ s e s', Inv s → ok s e → step s e = some s' → Inv s') :
    ∀ {es s s'}, Inv s → StepsOk step ok s es → run step s es = some s' → Inv s'
  | [], s, s', hi, _, h => by
    simp only [run, Option.some.injEq] at h
    exact h ▸ hi
  | e :: es, s, s', hi, hok, h => by
    obtain ⟨m, hm, hr⟩ := run_cons_some step h
    exact run_inv hstep (hstep s e m hi hok.1 hm) (hok.2 m hm) hr

theorem stepsOk_cons {ok : σ → ε → Prop} {s m : σ} {e : ε} {es : List ε} (hm : step s e = some m) (hok : ok s e)
    (h : StepsOk step ok m es) : StepsOk step ok s (e :: es) :=
  ⟨hok, fun s' hs => by rw [hm] at hs; cases hs; exact h⟩

theorem stepsOk_true : ∀ (es : List ε) (s : σ), StepsOk step (fun _ _ => True) s es
  | [], _ => trivial
  | _ :: es, _ => ⟨trivial, fun s' _ => stepsOk_true es s'⟩

theorem run_inv_all {Inv : σ → Prop} (hstep : ∀ s e s', Inv s → step s e = some s' → Inv s')
    {es : List ε} {s s' : σ} (hi : Inv s) (h : run step s es = some s') : Inv s' :=
  run_inv step (fun s e s' hi _ => hstep s e s' hi) hi (stepsOk_true step es s) h

theorem stepsOk_of_inv {ok P : σ → ε → Prop} {Inv : σ → Prop} (hstep : ∀ s e s', Inv s → ok s e → step s e = some s' → Inv s')
    (hP : ∀ s e, Inv s → ok s e → P s e) : ∀ {es s}, Inv s → StepsOk step ok s es → StepsOk step P s es
  | [], _, _, _ => trivial
  | e :: _, s, hi, hok => ⟨hP s e hi hok.1, fun m hm => stepsOk_of_inv hstep hP (hstep s e m hi hok.1 hm) (hok.2 m hm)⟩

end

/-! ## Threads over a shared state -/

def setAt {ι α : Type} [DecidableEq ι] (f : ι → α) (i : ι) (a : α) : ι → α :=
  fun j => if j = i then a else f j

section
variable {ι α : Type} [DecidableEq ι]

@[simp] theorem setAt_self (f : ι → α) (i : ι) (a : α) : setAt f i a i = a := by simp [setAt]

theorem setAt_ne (f : ι → α) {i j : ι} (a : α) (h : j ≠ i) : setAt f i a j = f j := by simp [setAt, h]

theorem setAt_forall {P Q : ι → α → Prop} {f : ι → α} {i : ι} {a : α} (hi : Q i a)
    (hf : ∀ j, P j (f j)) (hPQ : ∀ j, j ≠ i → P j (f j) → Q j (f j)) : ∀ j, Q j (setAt f i a j) := by
  intro j
  by_cases h : j = i
  · subst h; rw [setAt_self]; exact hi
  · rw [setAt_ne f a h]; exact hPQ j h (hf j)

def KeysUnique {κ : Type} (key : α → Option κ) (f : ι → α) : Prop :=
  ∀ i j k, key (f i) = some k → key (f j) = some k → i = j

theorem KeysUnique.setAt {κ : Type} {key : α → Option κ} {f : ι → α} (h : KeysUnique key f) {i : ι} {a : α}
    (ha : ∀ k, key a = some k → ∀ j, j ≠ i → key (f j) ≠ some k) : KeysUnique key (setAt f i a) := by
  intro j l k hj hl
  by_cases hji : j = i
  · by_cases hli : l = i
    · rw [hji, hli]
    · rw [hji, setAt_self] at hj
      rw [setAt_ne f a hli] at hl
      exact absurd hl (ha k hj l hli)
  · rw [setAt_ne f a hji] at hj
    by_cases hli : l = i
    · rw [hli, setAt_self] at hl
      exact absurd hj (ha k hl j hji)
    · rw [setAt_ne f a hli] at hl
      exact h j l k hj hl

end

end Runs

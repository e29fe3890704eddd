import Mathlib.Logic.Basic
import Mathlib.Data.Option.Basic

/-!
# Partial computations on a state

`Returns` is about the results of one computation. `Refines` compares two
computations on the same states, `Sim` two computations on different states:
what the first one returns, the second one returns too.
-/

namespace Partial

abbrev Run (σ α : Type) := StateT σ Option α

variable {σ τ α β : Type}

def ofOption (o : Option α) : Run σ α := fun s => o.map (·, s)

def stop : Run σ α := fun _ => none

theorem bind_eq_some {x : Run σ α} {f : α → Run σ β} {s : σ} {r : β × σ} :
    (x >>= f) s = some r ↔ ∃ a s', x s = some (a, s') ∧ f a s' = some r := by
  show (x s).bind (fun p => f p.1 p.2) = some r ↔ _
  rw [Option.bind_eq_some_iff]
  constructor
  · rintro ⟨⟨a, s'⟩, hx, hf⟩; exact ⟨a, s', hx, hf⟩
  · rintro ⟨a, s', hx, hf⟩; exact ⟨(a, s'), hx, hf⟩

theorem bind_of_eq {x : Run σ α} {f : α → Run σ β} {s s' : σ} {a : α} {r : β × σ} (hx : x s = some (a, s'))
    (hf : f a s' = some r) : (x >>= f) s = some r :=
  bind_eq_some.mpr ⟨a, s', hx, hf⟩

@[simp] theorem pure_eq_some {a : α} {s : σ} {r : α × σ} : (pure a : Run σ α) s = some r ↔ r = (a, s) := by
  show some (a, s) = some r ↔ _
  rw [Option.some.injEq, eq_comm]

@[simp] theorem ofOption_eq_some {o : Option α} {s : σ} {r : α × σ} :
    (ofOption o : Run σ α) s = some r ↔ ∃ a, o = some a ∧ r = (a, s) := by
  unfold ofOption
  rw [Option.map_eq_some_iff]
  constructor
  · rintro ⟨a, ha, rfl⟩; exact ⟨a, ha, rfl⟩
  · rintro ⟨a, ha, rfl⟩; exact ⟨a, ha, rfl⟩

@[simp] theorem modify_eq_some {f : σ → σ} {s : σ} {r : PUnit × σ} :
    (modify f : Run σ PUnit) s = some r ↔ r = (⟨⟩, f s) := by
  show some (_, f s) = some r ↔ _
  rw [Option.some.injEq, eq_comm]

@[simp] theorem get_eq_some {s : σ} {r : σ × σ} : (get : Run σ σ) s = some r ↔ r = (s, s) := by
  show some (s, s) = some r ↔ _
  rw [Option.some.injEq, eq_comm]

/-! ## Results -/

def Returns (x : Run σ α) (p : α → Prop) : Prop := ∀ s a s', x s = some (a, s') → p a

theorem Returns.pure {a : α} {p : α → Prop} (h : p a) : Returns (pure a : Run σ α) p := by
  intro s b s' hb
  rw [pure_eq_some, Prod.mk.injEq] at hb
  rw [hb.1]; exact h

theorem Returns.bind {x : Run σ α} {f : α → Run σ β} {p : α → Prop} {q : β → Prop} (hx : Returns x p)
    (hf : ∀ a, p a → Returns (f a) q) : Returns (x >>= f) q := by
  intro s b s' h
  obtain ⟨a, s₁, ha, hb⟩ := bind_eq_some.mp h
  exact hf a (hx s a s₁ ha) s₁ b s' hb

theorem Returns.seq {x : Run σ α} {f : α → Run σ β} {q : β → Prop} (hf : ∀ a, Returns (f a) q) :
    Returns (x >>= f) q :=
  Returns.bind (p := fun _ => True) (fun _ _ _ _ => trivial) fun a _ => hf a

/-! ## Refinement -/

def Refines (x y : Run σ α) : Prop := ∀ s r, x s = some r → y s = some r

theorem Refines.refl (x : Run σ α) : Refines x x := fun _ _ h => h

theorem Refines.stop (y : Run σ α) : Refines Partial.stop y := fun _ _ h => nomatch h

theorem Refines.bind {x y : Run σ α} {f g : α → Run σ β} (hx : Refines x y) (hf : ∀ a, Refines (f a) (g a)) :
    Refines (x >>= f) (y >>= g) := by
  intro s r h
  obtain ⟨a, s', ha, hr⟩ := bind_eq_some.mp h
  exact bind_of_eq (hx _ _ ha) (hf a _ _ hr)

theorem Refines.mapM {f g : α → Run σ β} : ∀ {l : List α}, (∀ a ∈ l, Refines (f a) (g a)) →
    Refines (l.mapM f) (l.mapM g)
  | [], _ => Refines.refl _
  | a :: l, h => by
    rw [List.mapM_cons, List.mapM_cons]
    apply Refines.bind (h a List.mem_cons_self); intro b
    apply Refines.bind (Refines.mapM fun c hc => h c (List.mem_cons_of_mem _ hc)); intro bs
    exact Refines.refl _

/-! ## Simulation -/

/-- From states related by `R`, what `x` returns `y` returns too, and `Q` relates the states after. -/
def Sim (R : σ → τ → Prop) (x : Run σ α) (y : Run τ α) (Q : α → σ → τ → Prop) : Prop :=
  ∀ s t, R s t → ∀ a s', x s = some (a, s') → ∃ t', y t = some (a, t') ∧ Q a s' t'

namespace Sim

variable {R M : σ → τ → Prop} {Q N : α → σ → τ → Prop} {S : β → σ → τ → Prop}

theorem pure {a : α} (h : ∀ s t, R s t → Q a s t) : Sim R (pure a) (pure a) Q := by
  intro s t hR b s' hb
  rw [pure_eq_some, Prod.mk.injEq] at hb
  obtain ⟨rfl, rfl⟩ := hb
  exact ⟨t, rfl, h s' t hR⟩

theorem bind {x : Run σ α} {y : Run τ α} {f : α → Run σ β} {g : α → Run τ β} (hx : Sim R x y Q)
    (hf : ∀ a, Sim (Q a) (f a) (g a) S) : Sim R (x >>= f) (y >>= g) S := by
  intro s t hR b s' h
  obtain ⟨a, s₁, ha, hb⟩ := bind_eq_some.mp h
  obtain ⟨t₁, ht, hQ⟩ := hx s t hR a s₁ ha
  obtain ⟨t', ht', hS⟩ := hf a s₁ t₁ hQ b s' hb
  exact ⟨t', bind_of_eq ht ht', hS⟩

theorem conseq {x : Run σ α} {y : Run τ α} (h : Sim R x y Q) (hR : ∀ s t, M s t → R s t)
    (hQ : ∀ a s t, Q a s t → N a s t) : Sim M x y N := by
  intro s t hs a s' ha
  obtain ⟨t', ht, hq⟩ := h s t (hR s t hs) a s' ha
  exact ⟨t', ht, hQ a s' t' hq⟩

theorem pre {x : Run σ α} {y : Run τ α} (h : Sim R x y Q) (hR : ∀ s t, M s t → R s t) : Sim M x y Q :=
  h.conseq hR fun _ _ _ hq => hq

theorem ofOption {o : Option α} (h : ∀ a s t, o = some a → R s t → Q a s t) :
    Sim R (ofOption o) (Partial.ofOption o) Q := by
  intro s t hR a s' ha
  rw [ofOption_eq_some] at ha
  obtain ⟨b, hb, he⟩ := ha
  cases he
  exact ⟨t, ofOption_eq_some.mpr ⟨a, hb, rfl⟩, h a s t hb hR⟩

theorem modify {f : σ → σ} {g : τ → τ} {Q : PUnit → σ → τ → Prop} (h : ∀ s t, R s t → Q ⟨⟩ (f s) (g t)) :
    Sim R (modify f) (modify g) Q := by
  intro s t hR a s' ha
  rw [modify_eq_some, Prod.mk.injEq] at ha
  obtain ⟨rfl, rfl⟩ := ha
  exact ⟨g t, rfl, h s t hR⟩

theorem get {f : σ → Run σ α} {g : τ → Run τ α}
    (h : ∀ s t, R s t → Sim (fun s' t' => s' = s ∧ t' = t) (f s) (g t) Q) :
    Sim R (MonadState.get >>= f) (MonadState.get >>= g) Q := by
  intro s t hR a s' ha
  exact h s t hR s t ⟨rfl, rfl⟩ a s' ha

theorem and_left {x : Run σ α} {y : Run τ α} {p : α → Prop} (h : Sim R x y Q)
    (hp : Returns x p) : Sim R x y fun a s t => p a ∧ Q a s t := by
  intro s t hR a s' ha
  obtain ⟨t', ht, hq⟩ := h s t hR a s' ha
  exact ⟨t', ht, hp s a s' ha, hq⟩

theorem of_and {x : Run σ α} {y : Run τ α} {p : Prop} (h : p → Sim R x y Q) :
    Sim (fun s t => p ∧ R s t) x y Q :=
  fun s t hR => h hR.1 s t hR.2

theorem of_false {x : Run σ α} {y : Run τ α} (h : ∀ s, x s = none) : Sim R x y Q := by
  intro s t _ a s' ha
  rw [h s] at ha
  cases ha

theorem left {x : Run σ α} {f : α → Run σ β} {y : Run τ β}
    (hx : ∀ s t, R s t → ∀ a s', x s = some (a, s') → Q a s' t) (hf : ∀ a, Sim (Q a) (f a) y S) :
    Sim R (x >>= f) y S := by
  intro s t hR b s' h
  obtain ⟨a, s₁, ha, hb⟩ := bind_eq_some.mp h
  exact hf a s₁ t (hx s t hR a s₁ ha) b s' hb

theorem right {x : Run σ β} {y : Run τ α} {g : α → Run τ β} (a : α)
    (hy : ∀ s t, R s t → ∃ t', y t = some (a, t') ∧ M s t') (hg : Sim M x (g a) S) : Sim R x (y >>= g) S := by
  intro s t hR b s' h
  obtain ⟨t₁, ht, hM⟩ := hy s t hR
  obtain ⟨t', ht', hS⟩ := hg s t₁ hM b s' h
  exact ⟨t', bind_of_eq ht ht', hS⟩

end Sim
end Partial

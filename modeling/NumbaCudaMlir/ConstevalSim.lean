import NumbaCudaMlir.ConstevalExpr
import NumbaCudaMlir.ConstevalWalk

/-!
# Rewritten statements

`exec_rewritten`: from related states, what a watched run of a statement returns
the rewritten statement returns too, and the states after are related.
-/

namespace NumbaCudaMlir.Consteval

open Partial

variable {ν μ : Type} (P : Python ν μ) (scope : Name → Bool)

/-- `σ` is a state of a watched run, `τ` the state of the rewritten body. `off`
are the variables of a loop that is left but not yet settled. -/
structure Inv (off : List Name) (A : Name → Option (Const ν)) (θ : Subst ν) (T : Table ν) (σ τ : State ν μ) : Prop where
  active : σ.active = A
  memory : τ.memory = σ.memory
  frame : τ.frame = σ.late
  stands : Stands θ A
  known : Known T σ.seen σ.frame
  inScope : Scoped T scope
  funcs : FuncsSim P scope σ.funcs τ.funcs
  idle : ∀ f, (A f).isSome → σ.funcs f = none
  sync : ∀ y, A y = none → y ∉ off → σ.late y = σ.frame y

def Post (A : Name → Option (Const ν)) (θ : Subst ν) (T : Table ν) (o : Outcome ν) (σ τ : State ν μ) : Prop :=
  match o with
  | .ret _ => τ.memory = σ.memory
  | _ => Inv P scope [] A θ T σ τ

variable {P scope} {scope' : Name → Bool} {off : List Name} {A : Name → Option (Const ν)} {θ : Subst ν}
  {T T' : Table ν} {σ τ : State ν μ}

namespace Inv

theorem env (h : Inv P scope off A θ T σ τ) : EnvSim P scope θ T σ.env τ.env :=
  ⟨rfl, h.frame, by rw [show σ.env.active = A from h.active]; exact h.stands, h.known, h.inScope, h.funcs⟩

theorem withMemory (h : Inv P scope off A θ T σ τ) (m : μ) :
    Inv P scope off A θ T { σ with memory := m } { τ with memory := m } :=
  ⟨h.active, rfl, h.frame, h.stands, h.known, h.inScope, h.funcs, h.idle, h.sync⟩

theorem of_right {τ' : State ν μ} (h : Inv P scope off A θ T σ τ) (hf : τ'.frame = τ.frame)
    (hfs : τ'.funcs = τ.funcs) (hm : τ'.memory = τ.memory) : Inv P scope off A θ T σ τ' :=
  ⟨h.active, hm.trans h.memory, hf.trans h.frame, h.stands, h.known, h.inScope, hfs ▸ h.funcs, h.idle, h.sync⟩

theorem store (h : Inv P scope off A θ T σ τ) (bs : Dict Name ν) :
    Inv P scope off A θ T (σ.store bs) (τ.store bs) where
  active := h.active
  memory := h.memory
  frame := by
    show (fun y => (bs.get y).or (τ.frame y)) = _
    rw [h.frame]; rfl
  stands := h.stands
  known := by
    intro y hy
    simp only [State.store, Bool.and_eq_true, Option.isNone_iff_eq_none] at hy ⊢
    rw [hy.2]
    exact h.known y hy.1
  inScope := h.inScope
  funcs := by
    intro f clo hf
    simp only [State.store] at hf ⊢
    split at hf
    · cases hf
    · next hb => rw [if_neg hb]; exact h.funcs f clo hf
  idle := by
    intro f hf
    simp only [State.store]
    split
    · rfl
    · exact h.idle f hf
  sync := by
    intro y hy ho
    show (bs.get y).or (σ.late y) = (bs.get y).or (σ.frame y)
    rw [h.sync y hy ho]

theorem drop (h : Inv P scope off A θ T σ τ) {xs : List Name} (hxs : ∀ y, y ∉ xs → T'.get y = T.get y)
    (hT : Scoped T' scope) : Inv P scope off A θ T' (σ.drop xs) τ where
  active := h.active
  memory := h.memory
  frame := h.frame
  stands := h.stands
  known := by
    intro y hy
    simp only [State.drop, Bool.and_eq_true, Bool.not_eq_true', List.contains_eq_mem, decide_eq_false_iff_not] at hy ⊢
    rw [hxs y hy.2]
    exact h.known y hy.1
  inScope := hT
  funcs := h.funcs
  idle := h.idle
  sync := h.sync

theorem withSeen (h : Inv P scope off A θ T σ τ) {out : Name → Bool} (ho : Known T' out σ.frame)
    (hT : Scoped T' scope) : Inv P scope off A θ T' { σ with seen := out } τ :=
  ⟨h.active, h.memory, h.frame, h.stands, ho, hT, h.funcs, h.idle, h.sync⟩

theorem know (h : Inv P scope off A θ T σ τ) {x : Name} {v : ν} (hx : σ.frame x = some v) (hs : scope x = true) :
    Inv P scope off A θ (T.set x (.val v)) (σ.know x) τ where
  active := h.active
  memory := h.memory
  frame := h.frame
  stands := h.stands
  known := by
    intro y hy
    show ∃ w, _ ∧ σ.frame y = some w
    rw [Dict.get_set]
    by_cases hyx : y = x
    · subst hyx; exact ⟨v, if_pos rfl, hx⟩
    · rw [if_neg hyx]
      simp only [State.know, Function.update_of_ne hyx] at hy
      exact h.known y hy
  inScope := by
    intro y c hc
    rw [Dict.get_set] at hc
    split at hc
    · next hyx => rw [hyx]; exact hs
    · exact h.inScope y c hc
  funcs := h.funcs
  idle := h.idle
  sync := h.sync

theorem define (h : Inv P scope off A θ T σ τ) {f : Name} (hf : A f = none) (x : Name) {e e' : Expr ν}
    (he : Rewritten P true θ T e e') :
    Inv P scope off A θ T (σ.define f x e) (τ.define f x e') where
  active := h.active
  memory := h.memory
  frame := by
    show Function.update τ.frame f none = Function.update σ.late f none
    rw [h.frame]
  stands := h.stands
  known := by
    intro y hy
    simp only [State.define] at hy ⊢
    by_cases hyf : y = f
    · subst hyf; simp at hy
    · rw [Function.update_of_ne hyf] at hy ⊢
      exact h.known y hy
  inScope := h.inScope
  funcs := by
    intro g clo hg
    simp only [State.define] at hg ⊢
    by_cases hgf : g = f
    · subst hgf
      rw [Function.update_self] at hg ⊢
      cases hg
      exact ⟨_, rfl, rfl, θ, T, h.active ▸ h.stands, h.known, h.inScope, he⟩
    · rw [Function.update_of_ne hgf] at hg ⊢
      exact h.funcs g clo hg
  idle := by
    intro g hg
    simp only [State.define]
    by_cases hgf : g = f
    · subst hgf; rw [hf] at hg; cases hg
    · rw [Function.update_of_ne hgf]; exact h.idle g hg
  sync := by
    intro y hy ho
    simp only [State.define]
    by_cases hyf : y = f
    · subst hyf; rw [Function.update_self, Function.update_self]
    · rw [Function.update_of_ne hyf, Function.update_of_ne hyf]
      exact h.sync y hy ho

end Inv

/-! ## Steps -/

theorem Post.memory {o : Outcome ν} (h : Post P scope A θ T o σ τ) : τ.memory = σ.memory := by
  cases o with
  | ret v => exact h
  | _ => exact Inv.memory h

theorem Post.withMemory {o : Outcome ν} (h : Post P scope A θ T o σ τ) (m : μ) :
    Post P scope A θ T o { σ with memory := m } { τ with memory := m } := by
  cases o with
  | ret v => rfl
  | _ => exact Inv.withMemory h m

theorem onMemory_sim {α : Type} {R : State ν μ → State ν μ → Prop} (hR : ∀ σ τ, R σ τ → τ.memory = σ.memory)
    (hm : ∀ σ τ m, R σ τ → R { σ with memory := m } { τ with memory := m }) (x : Run μ α) :
    Sim R (Python.onMemory x) (Python.onMemory x) fun _ => R := by
  intro σ τ h v σ' hr
  obtain ⟨⟨w, m⟩, hx, heq⟩ := Option.map_eq_some_iff.mp hr
  cases heq
  refine ⟨{ τ with memory := m }, ?_, hm σ τ m h⟩
  unfold Python.onMemory
  rw [hR σ τ h, hx]
  rfl

theorem bindTo_sim (t : Target) (v : ν) :
    Sim (Inv P scope off A θ T) (P.bindTo t v) (P.bindTo t v) fun _ => Inv P scope off A θ T := by
  apply Sim.bind (Sim.ofOption fun _ _ _ _ h => h); intro bs
  exact Sim.modify fun _ _ h => h.store bs

theorem bindAs_sim (x : Option Name) (v : ν) :
    Sim (Inv P scope off A θ T) (P.bindAs x v) (P.bindAs x v) fun _ => Inv P scope off A θ T := by
  cases x with
  | none => exact Sim.pure fun _ _ h => h
  | some x => exact bindTo_sim (.name x) v

theorem guard_sim {R : State ν μ → State ν μ → Prop} (b b' : State ν μ → Bool) :
    Sim R (Python.guardWatched .watched b) (Python.guardWatched .library b') fun _ σ τ => R σ τ ∧ b σ = true := by
  intro σ τ h v σ' hr
  unfold Python.guardWatched at hr
  split at hr
  · cases hr
  · next hb =>
    cases hr
    exact ⟨τ, rfl, h, readOk_of_ne hb⟩

/-! ## Loops -/

section
variable {Tb : Table ν} {xs ys : List Name} (hxs : ∀ y, y ∉ xs → Tb.get y = T.get y) (hT : Scoped T scope)
  (hTb : Scoped Tb scope)
include hxs hT hTb

omit hTb in
theorem afterBody_sim {f : (Name → Bool) → Run (State ν μ) (Outcome ν)}
    {g : (Name → Bool) → Run (State ν μ) (Outcome ν)} {Q : Outcome ν → State ν μ → State ν μ → Prop}
    (h : ∀ out out', Sim (fun σ τ => Inv P scope off A θ T σ τ ∧ Known Tb out σ.frame) (f out) (g out') Q) :
    Sim (Inv P scope off A θ Tb) (do let σ ← get; modify (State.drop · xs); f σ.seen)
      (do let τ ← get; modify (State.drop · ys); g τ.seen) Q := by
  apply Sim.get; intro σ τ hσ
  apply Sim.bind (Q := fun _ σ' τ' => Inv P scope off A θ T σ' τ' ∧ Known Tb σ.seen σ'.frame)
  · apply Sim.modify
    rintro _ _ ⟨rfl, rfl⟩
    exact ⟨(hσ.drop (fun y hy => (hxs y hy).symm) hT).of_right rfl rfl rfl, hσ.known⟩
  · intro _; exact h _ _

theorem whileLoop_sim {test test' : Run (State ν μ) Bool} {body body' : Run (State ν μ) (Outcome ν)}
    (htest : ∀ out, Sim (fun σ τ => Inv P scope [] A θ T σ τ ∧ Known Tb out σ.frame) test test'
      fun _ σ τ => Inv P scope [] A θ T σ τ ∧ Known Tb out σ.frame)
    (hbody : Sim (Inv P scope [] A θ T) body body' (Post P scope A θ Tb)) (n : Nat) :
    ∀ out out', Sim (fun σ τ => Inv P scope [] A θ T σ τ ∧ Known Tb out σ.frame)
      (Python.whileLoop test body xs n out) (Python.whileLoop test' body' ys n out') (Post P scope A θ Tb) := by
  induction n with
  | zero => intro out out'; exact Sim.of_false fun _ => rfl
  | succ n ih =>
    intro out out'
    apply Sim.bind (htest out); intro b
    cases b with
    | false =>
      apply Sim.bind (Q := fun _ => Inv P scope [] A θ Tb)
      · exact Sim.modify fun _ _ h => (h.1.withSeen h.2 hTb).of_right rfl rfl rfl
      · intro _; exact Sim.pure fun _ _ h => h
    | true =>
      apply Sim.bind (hbody.pre fun _ _ h => h.1); intro o
      cases o with
      | normal | cont => exact afterBody_sim hxs hT ih
      | brk => exact Sim.pure fun _ _ h => h
      | ret v => exact Sim.pure fun _ _ h => h

theorem forLoop_sim {body body' : ν → Run (State ν μ) (Outcome ν)}
    (hbody : ∀ v, Sim (Inv P scope [] A θ T) (body v) (body' v) (Post P scope A θ Tb)) (vs : List ν) :
    ∀ out out', Sim (fun σ τ => Inv P scope [] A θ T σ τ ∧ Known Tb out σ.frame)
      (Python.forLoop body xs vs out) (Python.forLoop body' ys vs out') (Post P scope A θ Tb) := by
  induction vs with
  | nil =>
    intro out out'
    apply Sim.bind (Q := fun _ => Inv P scope [] A θ Tb)
    · exact Sim.modify fun _ _ h => (h.1.withSeen h.2 hTb).of_right rfl rfl rfl
    · intro _; exact Sim.pure fun _ _ h => h
  | cons v vs ih =>
    intro out out'
    apply Sim.bind ((hbody v).pre fun _ _ h => h.1); intro o
    cases o with
    | normal | cont => exact afterBody_sim hxs hT ih
    | brk => exact Sim.pure fun _ _ h => h
    | ret v => exact Sim.pure fun _ _ h => h

omit hxs hT hTb in
theorem elseClause_sim {orelse orelse' : Run (State ν μ) (Outcome ν)} {Te : Table ν} (hTe : Scoped Te scope)
    {zs zs' : List Name} (hzs : ∀ y, y ∉ zs → Te.get y = Tb.get y)
    (h : Sim (Inv P scope [] A θ Tb) orelse orelse' (Post P scope A θ Te)) (o : Outcome ν) :
    Sim (Post P scope A θ Tb o) (Python.elseClause orelse zs o) (Python.elseClause orelse' zs' o)
      (Post P scope A θ Te) := by
  cases o with
  | normal | cont => exact h
  | brk =>
    apply Sim.bind (Q := fun _ => Inv P scope [] A θ Te)
    · exact Sim.modify fun _ _ h => (h.drop hzs hTe).of_right rfl rfl rfl
    · intro _; exact Sim.pure fun _ _ h => h
  | ret v => exact Sim.pure fun _ _ h => h

end

/-! ## Expressions in statements -/

variable [DecidableEq ν]

section
variable {R : State ν μ → State ν μ → Prop} {n : Nat} (hsc : ∀ x, scope' x = true → scope x = true)
  (hR : ∀ σ τ, R σ τ → Inv P scope off A θ T σ τ)
  (hm : ∀ σ τ m, R σ τ → R { σ with memory := m } { τ with memory := m })
include hsc hR hm

theorem evalM_sim {e e' : Expr ν} (he : Rewritten P true θ T e e') :
    Sim R (P.evalM scope .watched n e) (P.evalM scope' .library n e') fun _ => R := by
  intro σ τ h v σ' hr
  obtain ⟨⟨w, m⟩, hx, heq⟩ := Option.map_eq_some_iff.mp hr
  cases heq
  refine ⟨{ τ with memory := m }, ?_, hm σ τ m h⟩
  have hy := eval_rewritten hsc n (hR σ τ h).env rfl he _ _ hx
  unfold Python.evalM
  rw [(hR σ τ h).memory, hy]
  rfl

theorem evalTest_sim {e e' : Expr ν} (he : Rewritten P true θ T e e') :
    Sim R (P.evalTest scope .watched n e) (P.evalTest scope' .library n e') fun _ => R := by
  apply Sim.bind (evalM_sim hsc hR hm he); intro v
  exact Sim.ofOption fun _ _ _ _ h => h

end

end NumbaCudaMlir.Consteval

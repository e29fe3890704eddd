import NumbaCudaMlir.ConstevalRun

/-!
# Rewritten expressions

`evalExpr_eq`: in a watched run the walk evaluates the argument of a `consteval`
to the value that the run gives it. `eval_rewritten`: the rewritten expression
has the value and the effects of the expression.
-/

namespace NumbaCudaMlir.Consteval

open Partial

variable {ν μ : Type} (P : Python ν μ)

/-! ## Unmarked expressions -/

theorem visit_of_unmarked (T : Table ν) : ∀ {e : Expr ν}, e.marked = false → P.visit T e = some e := by
  intro e
  induction e with
  | const v => intro _; rfl
  | name x => intro _; rfl
  | unary f e ih => intro h; simp only [Python.visit, ih h, Option.map_some]
  | binary f a b iha ihb =>
    intro h
    simp only [Expr.marked, Bool.or_eq_false_iff] at h
    simp only [Python.visit, iha h.1, ihb h.2]
    rfl
  | item e k ih => intro h; simp only [Python.visit, ih h, Option.map_some]
  | prim f e ih => intro h; simp only [Python.visit, ih h, Option.map_some]
  | consteval l e ih => intro h; cases h
  | call f e ih => intro h; simp only [Python.visit, ih h, Option.map_some]
  | app x b e ihb ihe =>
    intro h
    simp only [Expr.marked, Bool.or_eq_false_iff] at h
    simp only [Python.visit, ihb h.1, ihe h.2]
    rfl
  | comp elt x iter ihe ihi =>
    intro h
    simp only [Expr.marked, Bool.or_eq_false_iff] at h
    simp only [Python.visit, ihe h.1, ihi h.2]
    rfl

/-! ## Rewriting as a relation -/

/-- What the substitution `θ` does to an expression, and the walk with table
`T` if it visits all `consteval` calls. -/
inductive Rewritten (all : Bool) (θ : Subst ν) (T : Table ν) : Expr ν → Expr ν → Prop
  | const (v : ν) : Rewritten all θ T (.const v) (.const v)
  | name (x : Name) : Rewritten all θ T (.name x) ((θ x).getD (.name x))
  | unary {f e e'} : Rewritten all θ T e e' → Rewritten all θ T (.unary f e) (.unary f e')
  | binary {f a a' b b'} : Rewritten all θ T a a' → Rewritten all θ T b b' →
      Rewritten all θ T (.binary f a b) (.binary f a' b')
  | item {e e' k} : Rewritten all θ T e e' → Rewritten all θ T (.item e k) (.item e' k)
  | prim {f e e'} : Rewritten all θ T e e' → Rewritten all θ T (.prim f e) (.prim f e')
  | kept {l e e'} : all = false → Rewritten all θ T e e' → Rewritten all θ T (.consteval l e) (.consteval l e')
  | folded {l e e' c} : Rewritten all θ T e e' → P.evalConst T e' = some c →
      Rewritten all θ T (.consteval l e) c.toExpr
  | call {f e e'} : θ f = none → Rewritten all θ T e e' → Rewritten all θ T (.call f e) (.call f e')
  | applied {f r e e'} : θ f = some r → Rewritten all θ T (.call f e) e'
  | app {x b b' e e'} : Rewritten all θ T b b' → Rewritten all θ T e e' →
      Rewritten all θ T (.app x b e) (.app x b' e')
  | comp {elt elt' x iter iter'} : Rewritten all θ T elt elt' → Rewritten all θ T iter iter' →
      Rewritten all θ T (.comp elt x iter) (.comp elt' x iter')

variable {P}

theorem rewritten_subst (θ : Subst ν) (T : Table ν) : ∀ e : Expr ν, Rewritten P false θ T e (e.subst θ) := by
  intro e
  induction e with
  | const v => exact .const v
  | name x => exact .name x
  | unary f e ih => exact .unary ih
  | binary f a b iha ihb => exact .binary iha ihb
  | item e k ih => exact .item ih
  | prim f e ih => exact .prim ih
  | consteval l e ih => exact .kept rfl ih
  | call f e ih =>
    unfold Expr.subst
    cases hf : θ f with
    | none => exact .call hf ih
    | some r => exact .applied hf
  | app x b e ihb ihe => exact .app ihb ihe
  | comp elt x iter ihe ihi => exact .comp ihe ihi

theorem rewritten_visit {θ : Subst ν} (hθ : ∀ x r, θ x = some r → r.marked = false) {T : Table ν} :
    ∀ {e e' : Expr ν}, P.visit T (e.subst θ) = some e' → Rewritten P true θ T e e' := by
  intro e
  induction e with
  | const v => intro e' h; cases h; exact .const v
  | name x =>
    intro e' h
    have hm : ((θ x).getD (.name x)).marked = false := by
      cases hx : θ x with
      | none => rfl
      | some r => exact hθ x r hx
    unfold Expr.subst at h
    rw [visit_of_unmarked P T hm] at h
    cases h
    exact .name x
  | unary f e ih | item e k ih | prim f e ih =>
    intro e' h
    simp only [Expr.subst, Python.visit, Option.map_eq_some_iff] at h
    obtain ⟨a, ha, rfl⟩ := h
    first | exact .unary (ih ha) | exact .item (ih ha) | exact .prim (ih ha)
  | binary f a b iha ihb | app f a b iha ihb | comp a f b iha ihb =>
    intro e' h
    simp only [Expr.subst, Python.visit, Option.bind_eq_bind, Option.bind_eq_some_iff, Option.some.injEq] at h
    obtain ⟨a', ha, b', hb, rfl⟩ := h
    first | exact .binary (iha ha) (ihb hb) | exact .app (iha ha) (ihb hb) | exact .comp (iha ha) (ihb hb)
  | consteval l e ih =>
    intro e' h
    simp only [Expr.subst, Python.visit, Option.bind_eq_bind, Option.bind_eq_some_iff, Option.map_eq_some_iff] at h
    obtain ⟨a, ha, c, hc, rfl⟩ := h
    exact .folded (ih ha) hc
  | call f e ih =>
    intro e' h
    unfold Expr.subst at h
    cases hf : θ f with
    | none =>
      simp only [hf, Python.visit, Option.map_eq_some_iff] at h
      obtain ⟨a, ha, rfl⟩ := h
      exact .call hf (ih ha)
    | some r => exact .applied hf

theorem subst_marked {θ : Subst ν} (hθ : ∀ x r, θ x = some r → r.marked = false) :
    ∀ {e : Expr ν}, e.marked = false → (e.subst θ).marked = false := by
  intro e
  induction e with
  | const v => intro _; rfl
  | name x =>
    intro _
    unfold Expr.subst
    cases hx : θ x with
    | none => rfl
    | some r => exact hθ x r hx
  | unary f e ih | item e k ih | prim f e ih => exact ih
  | binary f a b iha ihb | app f a b iha ihb | comp a f b iha ihb =>
    intro h
    simp only [Expr.marked, Bool.or_eq_false_iff, Expr.subst] at h ⊢
    exact ⟨iha h.1, ihb h.2⟩
  | consteval l e ih => intro h; cases h
  | call f e ih =>
    intro h
    unfold Expr.subst
    cases hf : θ f with
    | none => exact ih h
    | some r =>
      simp only [Expr.marked, Bool.or_eq_false_iff]
      exact ⟨hθ f r hf, ih h⟩

/-! ## What the names stand for -/

structure Stands (θ : Subst ν) (active : Name → Option (Const ν)) : Prop where
  other : ∀ x, active x = none → θ x = none
  replaced : ∀ x, (active x).isSome → ∃ r, θ x = some r ∧ ∀ y, r ≠ .name y
  val : ∀ x v, active x = some (.val v) → θ x = some (.const v)
  element : ∀ x p k, active x = some (.element p k) → active p = none ∨ p = x →
    θ x = some (.item (.name p) k)
  plain : ∀ x r, θ x = some r → r.marked = false

def Known (T : Table ν) (seen : Name → Bool) (frame : Frame ν) : Prop :=
  ∀ x, seen x = true → ∃ v, T.get x = some (.val v) ∧ frame x = some v

def Scoped (T : Table ν) (scope : Name → Bool) : Prop := ∀ x c, T.get x = some c → scope x = true

variable {scope scope' : Name → Bool}

theorem scoped_update {T bs : Table ν} (hT : Scoped T scope) (hbs : ∀ x, (bs.get x).isSome → scope x = true) :
    Scoped (T.update bs) scope := by
  intro x c hx
  rw [Dict.get_update] at hx
  rcases Option.or_eq_some_iff.mp hx with hx | ⟨-, hx⟩
  · exact hbs x (by rw [hx]; rfl)
  · exact hT x c hx

theorem lookupIn_mono (hsc : ∀ x, scope' x = true → scope x = true) {frame inner : Frame ν} {x : Name} {v : ν}
    (h : P.lookupIn scope frame inner x = some v) : P.lookupIn scope' frame inner x = some v := by
  unfold Python.lookupIn at h ⊢
  cases hi : inner x with
  | some w => rw [hi] at h; exact h
  | none =>
    cases hf : frame x with
    | some w => rw [hi, hf] at h; exact h
    | none =>
      rw [hi, hf] at h
      simp only [Option.none_or] at h ⊢
      split at h
      · cases h
      · next hs => rw [if_neg fun h' => hs (hsc x h')]; exact h

/-! ## Compile time -/

structure Inside (θ : Subst ν) (T : Table ν) (σ : Env ν) (ζ : Name → Option (Const ν)) : Prop where
  stands : Stands θ σ.active
  known : Known T σ.seen σ.frame
  bound : ∃ xs, σ.inside = some xs ∧ ∀ x ∈ xs, ∃ v, σ.inner x = some v ∧ ζ x = some (.val v)
  free : ∀ x, σ.inner x = none → ζ x = none

theorem Inside.bind {θ : Subst ν} {T : Table ν} {σ : Env ν} {ζ : Name → Option (Const ν)} (h : Inside θ T σ ζ)
    (x : Name) (v : ν) : Inside θ T (σ.bind x v) (Function.update ζ x (some (.val v))) where
  stands := h.stands
  known := h.known
  bound := by
    obtain ⟨xs, hxs, hb⟩ := h.bound
    refine ⟨x :: xs, by simp [Env.bind, hxs], ?_⟩
    intro y hy
    by_cases hyx : y = x
    · subst hyx; exact ⟨v, by simp [Env.bind], by simp⟩
    · obtain ⟨w, hw, hz⟩ := hb y ((List.mem_cons.mp hy).resolve_left hyx)
      exact ⟨w, by simp [Env.bind, hyx, hw], by simp [hyx, hz]⟩
  free := by
    intro y hy
    by_cases hyx : y = x
    · subst hyx; simp [Env.bind] at hy
    · simp only [Env.bind, Function.update_of_ne hyx] at hy ⊢
      exact h.free y hy

theorem Inside.enterConst {θ : Subst ν} {T : Table ν} {σ : Env ν} {ζ : Name → Option (Const ν)}
    (hs : Stands θ σ.active) (hk : Known T σ.seen σ.frame) (hf : ∀ x, σ.inner x = none → ζ x = none) :
    Inside θ T σ.enterConst ζ :=
  ⟨hs, hk, ⟨[], rfl, by simp⟩, hf⟩

theorem mapM_evalExpr {f : ν → Run μ ν} {g : Const ν → Option (Const ν)}
    (hfg : ∀ v m w m' c, f v m = some (w, m') → g (.val v) = some c → c = .val w ∧ m' = m) :
    ∀ {vs : List ν} {m m' : μ} {ws : List ν} {cs : List (Const ν)}, vs.mapM f m = some (ws, m') →
      (vs.map Const.val).mapM g = some cs → cs = ws.map .val ∧ m' = m
  | [], m, m', ws, cs, hf, hg => by
    rw [List.mapM_nil, pure_eq_some, Prod.mk.injEq] at hf
    rw [List.map_nil, List.mapM_nil] at hg
    obtain ⟨rfl, rfl⟩ := hf
    cases hg
    exact ⟨rfl, rfl⟩
  | v :: vs, m, m', ws, cs, hf, hg => by
    rw [List.mapM_cons] at hf
    obtain ⟨w, m₁, hw, hf⟩ := bind_eq_some.mp hf
    obtain ⟨ws', m₂, hws, hf⟩ := bind_eq_some.mp hf
    rw [pure_eq_some, Prod.mk.injEq] at hf
    obtain ⟨rfl, rfl⟩ := hf
    simp only [List.map_cons, List.mapM_cons, Option.bind_eq_bind, Option.bind_eq_some_iff, Option.pure_def,
      Option.some.injEq] at hg
    obtain ⟨c, hc, cs', hcs, rfl⟩ := hg
    obtain ⟨rfl, rfl⟩ := hfg v m w m₁ c hw hc
    obtain ⟨rfl, rfl⟩ := mapM_evalExpr hfg hws hcs
    exact ⟨rfl, rfl⟩

variable [DecidableEq ν]

theorem evalExpr_name {θ : Subst ν} {T : Table ν} (hT : Scoped T scope) {σ : Env ν}
    {ζ : Name → Option (Const ν)} (hσ : Inside θ T σ ζ) {x : Name} (hok : P.readOk scope σ x = true) {v : ν}
    (hv : P.lookup scope σ x = some v) {c : Const ν} (hc : P.evalExpr T ((θ x).getD (.name x)) ζ = some c) :
    c = .val v := by
  obtain ⟨xs, hin, hb⟩ := hσ.bound
  unfold Python.readOk at hok
  simp only [hin] at hok
  unfold Python.readsConst at hok
  cases hx : σ.active x with
  | some d =>
    cases d with
    | element p k => simp [hx] at hok
    | val w =>
      simp only [hx, decide_eq_true_eq] at hok
      rw [hσ.stands.val x w hx] at hc
      cases hc
      rw [hv] at hok
      cases hok; rfl
  | none =>
    simp only [hx, decide_eq_true_eq] at hok
    rw [hσ.stands.other x hx] at hc
    simp only [Option.getD_none, Python.evalExpr] at hc
    unfold Python.lookup Python.lookupIn at hv
    rcases hok with hok | ⟨hinner, hpar, hok⟩
    · obtain ⟨w, hw, hz⟩ := hb x hok
      rw [hw] at hv
      rw [hz] at hc
      cases hv; cases hc; rfl
    · rw [hσ.free x hinner] at hc
      unfold Python.context at hc
      rw [hinner] at hv
      simp only [hpar, Option.isSome_none, Bool.false_eq_true, if_false, Option.none_or] at hc hv
      rcases hok with hseen | ⟨hsc, hframe⟩
      · obtain ⟨w, hw, hf⟩ := hσ.known x hseen
        rw [hw] at hc; rw [hf] at hv
        cases hc; cases hv; rfl
      · have hnone : T.get x = none := by
          cases ht : T.get x with
          | none => rfl
          | some d => rw [hT x d ht] at hsc; cases hsc
        rw [hnone] at hc
        rw [hframe, hsc] at hv
        simp only [Option.none_or, Bool.false_eq_true, if_false] at hc hv
        rw [hv] at hc
        cases hc; rfl

theorem evalExpr_eq {all : Bool} {θ : Subst ν} {T : Table ν} (hT : Scoped T scope)
    (call : Env ν → Expr ν → Run μ ν) {e e' : Expr ν} (h : Rewritten P all θ T e e') :
    ∀ {σ : Env ν} {ζ : Name → Option (Const ν)} {m m' : μ} {v : ν} {c : Const ν}, Inside θ T σ ζ →
      P.evalWith scope .watched call e σ m = some (v, m') → P.evalExpr T e' ζ = some c → c = .val v ∧ m' = m := by
  induction h with
  | const w =>
    intro σ ζ m m' v c _ hr hc
    rw [Python.evalWith, pure_eq_some] at hr
    cases hr; cases hc
    exact ⟨rfl, rfl⟩
  | name x =>
    intro σ ζ m m' v c hσ hr hc
    unfold Python.evalWith at hr
    split at hr
    · cases hr
    · next hok =>
      obtain ⟨w, hw, he⟩ := ofOption_eq_some.mp hr
      cases he
      have hok : P.readOk scope σ x = true := by
        cases hb : P.readOk scope σ x with
        | true => rfl
        | false => exact absurd ⟨rfl, hb⟩ hok
      exact ⟨evalExpr_name hT hσ hok hw hc, rfl⟩
  | @unary f e e' _ ih =>
    intro σ ζ m m' v c hσ hr hc
    obtain ⟨w, m₁, hw, hr₁⟩ := bind_eq_some.mp hr
    simp only [Python.evalExpr, Option.bind_eq_bind, Option.bind_eq_some_iff, Option.map_eq_some_iff] at hc
    obtain ⟨d, hd, u, hu, rfl⟩ := hc
    obtain ⟨rfl, rfl⟩ := ih hσ hw hd
    obtain ⟨u', hu', he⟩ := ofOption_eq_some.mp hr₁
    cases he
    rw [Python.object, hu'] at hu
    cases hu
    exact ⟨rfl, rfl⟩
  | @binary f a a' b b' _ _ iha ihb =>
    intro σ ζ m m' v c hσ hr hc
    obtain ⟨w₁, m₁, hw₁, hr₁⟩ := bind_eq_some.mp hr
    obtain ⟨w₂, m₂, hw₂, hr₂⟩ := bind_eq_some.mp hr₁
    simp only [Python.evalExpr, Option.bind_eq_bind, Option.bind_eq_some_iff, Option.map_eq_some_iff] at hc
    obtain ⟨d₁, hd₁, d₂, hd₂, u, hu, rfl⟩ := hc
    obtain ⟨rfl, rfl⟩ := iha hσ hw₁ hd₁
    obtain ⟨rfl, rfl⟩ := ihb hσ hw₂ hd₂
    obtain ⟨u', hu', he⟩ := ofOption_eq_some.mp hr₂
    cases he
    rw [Python.object, Python.object, hu'] at hu
    cases hu
    exact ⟨rfl, rfl⟩
  | @item e e' k _ ih =>
    intro σ ζ m m' v c hσ hr hc
    obtain ⟨w, m₁, hw, hr₁⟩ := bind_eq_some.mp hr
    simp only [Python.evalExpr, Option.bind_eq_bind, Option.bind_eq_some_iff, Option.map_eq_some_iff] at hc
    obtain ⟨d, hd, u, hu, rfl⟩ := hc
    obtain ⟨rfl, rfl⟩ := ih hσ hw hd
    obtain ⟨u', hu', he⟩ := ofOption_eq_some.mp hr₁
    cases he
    rw [Python.object, hu'] at hu
    cases hu
    exact ⟨rfl, rfl⟩
  | prim _ ih => intro σ ζ m m' v c _ _ hc; cases hc
  | @kept l e e' _ _ ih =>
    intro σ ζ m m' v c hσ hr hc
    unfold Python.evalExpr at hc
    cases l with
    | false => cases hc
    | true => exact ih (.enterConst hσ.stands hσ.known hσ.free) hr hc
  | @folded l e e' d _ hd ih =>
    intro σ ζ m m' v c hσ hr hc
    have hr : P.evalWith scope .watched call e σ.enterConst m = some (v, m') := by
      unfold Python.evalWith at hr
      rwa [if_neg (ne_and (by decide))] at hr
    obtain ⟨rfl, rfl⟩ := ih (.enterConst hσ.stands hσ.known fun _ _ => rfl) hr hd
    cases hc
    exact ⟨rfl, rfl⟩
  | call _ _ ih | applied _ =>
    intro σ ζ m m' v c hσ hr _
    obtain ⟨xs, hin, -⟩ := hσ.bound
    unfold Python.evalWith at hr
    rw [if_pos ⟨rfl, by simp [Env.callOk, hin]⟩] at hr
    cases hr
  | @app x b b' e e' _ _ ihb ihe =>
    intro σ ζ m m' v c hσ hr hc
    obtain ⟨w, m₁, hw, hr₁⟩ := bind_eq_some.mp hr
    simp only [Python.evalExpr, Option.bind_eq_bind, Option.bind_eq_some_iff] at hc
    obtain ⟨d, hd, hc₁⟩ := hc
    obtain ⟨rfl, rfl⟩ := ihe hσ hw hd
    exact ihb (hσ.bind x w) hr₁ hc₁
  | @comp elt elt' x iter iter' _ _ ihe ihi =>
    intro σ ζ m m' v c hσ hr hc
    obtain ⟨w, m₁, hw, hr₁⟩ := bind_eq_some.mp hr
    obtain ⟨vs, m₂, hvs, hr₂⟩ := bind_eq_some.mp hr₁
    obtain ⟨ws, m₃, hws, hr₃⟩ := bind_eq_some.mp hr₂
    simp only [Python.evalExpr, Option.bind_eq_bind, Option.bind_eq_some_iff, Option.some.injEq] at hc
    obtain ⟨d, hd, cs, hcs, ds, hds, rfl⟩ := hc
    obtain ⟨rfl, rfl⟩ := ihi hσ hw hd
    obtain ⟨vs', hvs', he⟩ := ofOption_eq_some.mp hvs
    cases he
    simp only [Python.constItems, hvs', Option.map_some, Option.some.injEq] at hcs
    subst cs
    obtain ⟨rfl, rfl⟩ := mapM_evalExpr (fun v m w m' c => ihe (hσ.bind x v)) hws hds
    rw [pure_eq_some] at hr₃
    cases hr₃
    refine ⟨?_, rfl⟩
    rw [List.map_map]
    show Const.val (P.list (ws.map fun w => w)) = _
    rw [List.map_id']

/-! ## Run time -/

variable (P scope)

structure ClosureSim (clo clo' : Closure ν) : Prop where
  param : clo'.param = clo.param
  body : ∃ θ T, Stands θ clo.active ∧ Known T clo.seen clo.snap ∧ Scoped T scope ∧
    Rewritten P true θ T clo.body clo'.body

def FuncsSim (fs fs' : Name → Option (Closure ν)) : Prop :=
  ∀ f clo, fs f = some clo → ∃ clo', fs' f = some clo' ∧ ClosureSim P scope clo clo'

/-- The rewritten body has the locals that the body would have if unrolled loops
assigned their variables at their end. -/
structure EnvSim (θ : Subst ν) (T : Table ν) (σ τ : Env ν) : Prop where
  inner : τ.inner = σ.inner
  frame : τ.frame = σ.late
  stands : Stands θ σ.active
  known : Known T σ.seen σ.frame
  inScope : Scoped T scope
  funcs : FuncsSim P scope σ.funcs τ.funcs

variable {P scope}

omit [DecidableEq ν] in
theorem EnvSim.bind {θ : Subst ν} {T : Table ν} {σ τ : Env ν} (h : EnvSim P scope θ T σ τ) (x : Name) (v : ν) :
    EnvSim P scope θ T (σ.bind x v) (τ.bind x v) :=
  ⟨by simp only [Env.bind, h.inner], h.frame, h.stands, h.known, h.inScope, h.funcs⟩

theorem EnvSim.call {θ θ' : Subst ν} {T T' : Table ν} {σ τ : Env ν} (h : EnvSim P scope θ T σ τ)
    {clo clo' : Closure ν} (hp : clo'.param = clo.param) (hs : Stands θ' clo.active)
    (hk : Known T' clo.seen clo.snap) (hsc : Scoped T' scope) (v : ν) :
    EnvSim P scope θ' T' (σ.call clo v) (τ.call clo' v) where
  inner := by simp only [Env.call, hp]
  frame := h.frame
  stands := hs
  known := by
    intro x hx
    simp only [Env.call, Bool.and_eq_true, decide_eq_true_eq] at hx ⊢
    rw [hx.2]
    exact hk x hx.1
  inScope := hsc
  funcs := h.funcs

theorem eval_name (hsc : ∀ x, scope' x = true → scope x = true) {θ : Subst ν} {T : Table ν} {σ τ : Env ν}
    (h : EnvSim P scope θ T σ τ) (hin : σ.inside = none) {x : Name} (hok : P.readOk scope σ x = true) {v : ν}
    (hv : P.lookup scope σ x = some v) (call : Env ν → Expr ν → Run μ ν) (m : μ) :
    P.evalWith scope' .library call ((θ x).getD (.name x)) τ m = some (v, m) := by
  have hname : ∀ y w, P.lookupIn scope σ.late σ.inner y = some w →
      P.evalWith scope' .library call (.name y) τ m = some (w, m) := by
    intro y w hw
    unfold Python.evalWith
    rw [if_neg (ne_and (by decide)), ofOption_eq_some]
    refine ⟨w, ?_, rfl⟩
    unfold Python.lookup
    rw [h.frame, h.inner]
    exact lookupIn_mono hsc hw
  unfold Python.readOk at hok
  simp only [hin] at hok
  cases hx : σ.active x with
  | none =>
    rw [h.stands.other x hx]
    apply hname
    rw [← hv]
    simp only [hx, decide_eq_true_eq] at hok
    unfold Python.lookup Python.lookupIn
    rcases hok with hi | hl
    · obtain ⟨w, hw⟩ := Option.isSome_iff_exists.mp hi
      rw [hw]; rfl
    · rw [hl]
  | some c =>
    simp only [hx] at hok
    cases c with
    | val w =>
      rw [h.stands.val x w hx]
      simp only [Python.stands, decide_eq_true_eq] at hok
      rw [hv] at hok
      cases hok; rfl
    | element p k =>
      simp only [Python.stands, decide_eq_true_eq] at hok
      rw [h.stands.element x p k hx hok.1]
      obtain ⟨w, hw, hk⟩ := Option.bind_eq_some_iff.mp (hok.2.2.trans hv)
      exact bind_of_eq (hname p w hw) (ofOption_eq_some.mpr ⟨v, hk, rfl⟩)

theorem readOk_of_ne {b : Bool} (h : ¬(Reading.watched = .watched ∧ b = false)) : b = true := by
  cases b with
  | true => rfl
  | false => exact absurd ⟨rfl, rfl⟩ h

theorem evalWith_rewritten (hsc : ∀ x, scope' x = true → scope x = true)
    {call call' : Env ν → Expr ν → Run μ ν}
    (hcall : ∀ {θ : Subst ν} {T : Table ν} {σ τ : Env ν} {e e' : Expr ν}, EnvSim P scope θ T σ τ →
      σ.inside = none → Rewritten P true θ T e e' → Refines (call σ e) (call' τ e'))
    {θ : Subst ν} {T : Table ν} {e e' : Expr ν} (he : Rewritten P true θ T e e') :
    ∀ {σ τ : Env ν}, EnvSim P scope θ T σ τ → σ.inside = none →
      Refines (P.evalWith scope .watched call e σ) (P.evalWith scope' .library call' e' τ) := by
  induction he with
  | const v => intro σ τ _ _; exact Refines.refl _
  | name x =>
    intro σ τ h hin m r hr
    unfold Python.evalWith at hr
    split at hr
    · cases hr
    · next hok =>
      obtain ⟨v, hv, rfl⟩ := ofOption_eq_some.mp hr
      exact eval_name hsc h hin (readOk_of_ne hok) hv call' m
  | unary _ ih | item _ ih | prim _ ih =>
    intro σ τ h hin
    apply Refines.bind (ih h hin); intro v
    exact Refines.refl _
  | binary _ _ iha ihb =>
    intro σ τ h hin
    apply Refines.bind (iha h hin); intro v
    apply Refines.bind (ihb h hin); intro w
    exact Refines.refl _
  | kept hf _ ih => cases hf
  | @folded l e e' c he' hc ih =>
    intro σ τ h hin m r hr
    unfold Python.evalWith at hr
    rw [if_neg (ne_and (by decide))] at hr
    obtain ⟨v, m'⟩ := r
    obtain ⟨rfl, rfl⟩ := evalExpr_eq h.inScope call he' (.enterConst h.stands h.known fun _ _ => rfl) hr hc
    rfl
  | @call f e e' hf _ ih =>
    intro σ τ h hin m r hr
    unfold Python.evalWith at hr ⊢
    split at hr
    · cases hr
    · rw [if_neg (ne_and (by decide))]
      obtain ⟨clo, m₁, hclo, hr₁⟩ := bind_eq_some.mp hr
      obtain ⟨v, m₂, hv, hr₂⟩ := bind_eq_some.mp hr₁
      obtain ⟨_, hfs, heq⟩ := ofOption_eq_some.mp hclo
      cases heq
      obtain ⟨clo', hclo', hp, θ', T', hs, hk, hsc', hb⟩ := h.funcs f clo hfs
      apply bind_of_eq (ofOption_eq_some.mpr ⟨clo', hclo', rfl⟩)
      apply bind_of_eq (ih h hin m (v, m₂) hv)
      exact hcall (h.call hp hs hk hsc' v) rfl hb m₂ r hr₂
  | @applied f r e e' hf =>
    intro σ τ h hin m s hr
    unfold Python.evalWith at hr
    split at hr
    · cases hr
    · next hok =>
      have hok := readOk_of_ne hok
      simp only [Env.callOk, Bool.and_eq_true, Option.isNone_iff_eq_none] at hok
      rw [h.stands.other f hok.2] at hf
      cases hf
  | app _ _ ihb ihe =>
    intro σ τ h hin
    apply Refines.bind (ihe h hin); intro v
    exact ihb (h.bind _ v) (by simp only [Env.bind, hin, Option.map_none])
  | comp _ _ ihe ihi =>
    intro σ τ h hin
    apply Refines.bind (ihi h hin); intro v
    apply Refines.bind (Refines.refl _); intro vs
    apply Refines.bind
    · apply Refines.mapM; intro w _
      exact ihe (h.bind _ w) (by simp only [Env.bind, hin, Option.map_none])
    · intro ws; exact Refines.refl _

theorem eval_rewritten (hsc : ∀ x, scope' x = true → scope x = true) (n : Nat) :
    ∀ {θ : Subst ν} {T : Table ν} {σ τ : Env ν} {e e' : Expr ν}, EnvSim P scope θ T σ τ → σ.inside = none →
      Rewritten P true θ T e e' → Refines (P.eval scope .watched n e σ) (P.eval scope' .library n e' τ) := by
  induction n with
  | zero =>
    intro θ T σ τ e e' h hin he
    exact evalWith_rewritten hsc (fun _ _ _ => Refines.stop _) he h hin
  | succ n ih =>
    intro θ T σ τ e e' h hin he
    exact evalWith_rewritten hsc (fun h' hin' he' => ih h' hin' he') he h hin

theorem eval_consteval (n : Nat) {θ : Subst ν} {T : Table ν} {σ τ : Env ν} (h : EnvSim P scope θ T σ τ) {l : Bool}
    {e : Expr ν} {m m' : μ} {v : ν} (hr : P.eval scope .watched n (.consteval l e) σ m = some (v, m')) {c : Const ν}
    (hc : P.evalConst T (e.subst θ) = some c) : c = .val v ∧ m' = m := by
  have hin : Inside θ T σ.enterConst fun _ => none := .enterConst h.stands h.known fun _ _ => rfl
  cases n with
  | zero =>
    unfold Python.eval Python.evalWith at hr
    rw [if_neg (ne_and (by decide))] at hr
    exact evalExpr_eq h.inScope _ (rewritten_subst θ T e) hin hr hc
  | succ n =>
    unfold Python.eval Python.evalWith at hr
    rw [if_neg (ne_and (by decide))] at hr
    exact evalExpr_eq h.inScope _ (rewritten_subst θ T e) hin hr hc

end NumbaCudaMlir.Consteval

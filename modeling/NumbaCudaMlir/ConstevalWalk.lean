import NumbaCudaMlir.ConstevalRun

/-!
# The walk over a body

`process_get`: the walk changes its table at the tracked names only.
`process_assigned`: the rewritten statement assigns no other names.
`process_subst`: a substitution may be carried out before the walk.
-/

namespace NumbaCudaMlir.Consteval

open Partial

variable {ν μ : Type}

/-! ## Targets -/

section
variable {α : Type} {items : α → Option (List α)}

mutual

theorem bindTarget_keys : ∀ (t : Target) {v : α} {bs : Dict Name α}, bindTarget items t v = some bs →
    ∀ y, (bs.get y).isSome ↔ y ∈ t.names
  | .name x, v, bs, h, y => by
    unfold bindTarget at h
    cases h
    unfold Target.names
    rw [Dict.get_set, List.mem_singleton]
    by_cases hy : y = x <;> simp [hy]
  | .tuple ts, v, bs, h, y => by
    unfold bindTarget at h
    obtain ⟨vs, -, h⟩ := Option.bind_eq_some_iff.mp h
    split at h
    · next hl => exact bindTargets_keys ts hl h y
    · cases h
  | .starred t, v, bs, h, y => nomatch h

theorem bindTargets_keys : ∀ (ts : List Target) {vs : List α} {bs : Dict Name α}, vs.length = ts.length →
    bindTargets items ts vs = some bs → ∀ y, (bs.get y).isSome ↔ y ∈ Target.listNames ts
  | [], vs, bs, hl, h, y => by
    unfold bindTargets at h
    cases h
    simp [Target.listNames]
  | t :: ts, [], bs, hl, h, y => nomatch hl
  | t :: ts, v :: vs, bs, hl, h, y => by
    unfold bindTargets at h
    simp only [Option.bind_eq_bind, Option.bind_eq_some_iff, Option.some.injEq] at h
    obtain ⟨b, hb, bs', hbs, rfl⟩ := h
    have ht := bindTarget_keys t hb y
    have hts := bindTargets_keys ts (Nat.succ.inj hl) hbs y
    rw [Dict.get_update, Target.listNames, List.mem_append, ← ht, ← hts, Option.isSome_or, Bool.or_eq_true]
    exact or_comm

end

mutual

theorem bindTarget_forall {q : α → Prop} (hq : ∀ v vs, q v → items v = some vs → ∀ w ∈ vs, q w) :
    ∀ (t : Target) {v : α} {bs : Dict Name α}, q v → bindTarget items t v = some bs →
      ∀ y w, bs.get y = some w → q w
  | .name x, v, bs, hv, h, y, w, hw => by
    unfold bindTarget at h
    cases h
    rw [Dict.get_set] at hw
    split at hw
    · cases hw; exact hv
    · cases hw
  | .tuple ts, v, bs, hv, h, y, w, hw => by
    unfold bindTarget at h
    obtain ⟨vs, hvs, h⟩ := Option.bind_eq_some_iff.mp h
    split at h
    · exact bindTargets_forall hq ts (hq v vs hv hvs) h y w hw
    · cases h
  | .starred t, v, bs, hv, h, y, w, hw => nomatch h

theorem bindTargets_forall {q : α → Prop} (hq : ∀ v vs, q v → items v = some vs → ∀ w ∈ vs, q w) :
    ∀ (ts : List Target) {vs : List α} {bs : Dict Name α}, (∀ w ∈ vs, q w) → bindTargets items ts vs = some bs →
      ∀ y w, bs.get y = some w → q w
  | [], vs, bs, hv, h, y, w, hw => by
    unfold bindTargets at h
    cases h
    cases hw
  | t :: ts, [], bs, hv, h, y, w, hw => by
    unfold bindTargets at h
    cases h
    cases hw
  | t :: ts, v :: vs, bs, hv, h, y, w, hw => by
    unfold bindTargets at h
    simp only [Option.bind_eq_bind, Option.bind_eq_some_iff, Option.some.injEq] at h
    obtain ⟨b, hb, bs', hbs, rfl⟩ := h
    rw [Dict.get_update] at hw
    rcases Option.or_eq_some_iff.mp hw with hw | ⟨-, hw⟩
    · exact bindTargets_forall hq ts (fun u hu => hv u (List.mem_cons_of_mem _ hu)) hbs y w hw
    · exact bindTarget_forall hq t (hv v List.mem_cons_self) hb y w hw

end

end

/-! ## Copies -/

theorem unroll_last {copy : Const ν → Option (Stmt ν × Table ν)} {Q : Table ν → Prop}
    (hQ : ∀ c r, copy c = some r → Q r.2) :
    ∀ {cs : List (Const ν)} {last : Table ν} {r : Stmt ν × Table ν}, Q last → unroll copy last cs = some r → Q r.2
  | [], last, r, hl, h => by
    unfold unroll at h
    cases h; exact hl
  | c :: cs, last, r, hl, h => by
    unfold unroll at h
    simp only [Option.bind_eq_bind, Option.bind_eq_some_iff, Option.some.injEq] at h
    obtain ⟨s, hs, r', hr, rfl⟩ := h
    have := unroll_last hQ (hQ c s hs) hr
    exact this

theorem unroll_assigned {copy : Const ν → Option (Stmt ν × Table ν)} {ys : List Name}
    (hy : ∀ c r, copy c = some r → ∀ y ∈ r.1.assigned, y ∈ ys) :
    ∀ {cs : List (Const ν)} {last : Table ν} {r : Stmt ν × Table ν}, unroll copy last cs = some r →
      ∀ y ∈ r.1.assigned, y ∈ ys
  | [], last, r, h, y, hr => by
    unfold unroll at h
    cases h; cases hr
  | c :: cs, last, r, h, y, hr => by
    unfold unroll at h
    simp only [Option.bind_eq_bind, Option.bind_eq_some_iff, Option.some.injEq] at h
    obtain ⟨s, hs, r', hr', rfl⟩ := h
    unfold Stmt.assigned at hr
    rcases List.mem_append.mp hr with hr | hr
    · exact hy c s hs y hr
    · exact unroll_assigned hy hr' y hr

theorem assignAll_assigned {y : Name} : ∀ {bs : List (Name × Const ν)}, y ∈ (assignAll bs).assigned →
    y ∈ bs.map (·.1)
  | [], h => nomatch h
  | (x, c) :: bs, h => by
    rw [assignAll, Stmt.assigned, List.mem_append] at h
    rw [List.map_cons, List.mem_cons]
    rcases h with h | h
    · left; simpa [Stmt.assigned, Target.names] using h
    · right; exact assignAll_assigned h

/-! ## The table -/

theorem constevalCall_eq_some {e a : Expr ν} {l : Bool} (h : e.constevalCall = some (l, a)) : e = .consteval l a := by
  cases e <;> cases h
  rfl

theorem toExpr_constevalCall (c : Const ν) : c.toExpr.constevalCall = none := by cases c <;> rfl

theorem visit_constevalCall {P : Python ν μ} {T : Table ν} {e e' : Expr ν} (h : P.visit T e = some e') :
    e'.constevalCall = none := by
  cases e with
  | const v => cases h; rfl
  | name x => cases h; rfl
  | unary f a | item a k | prim f a | call f a =>
    simp only [Python.visit, Option.map_eq_some_iff] at h
    obtain ⟨a', -, rfl⟩ := h
    rfl
  | binary f a b | app f a b | comp a f b =>
    simp only [Python.visit, Option.bind_eq_bind, Option.bind_eq_some_iff, Option.some.injEq] at h
    obtain ⟨a', -, b', -, rfl⟩ := h
    rfl
  | consteval l a =>
    simp only [Python.visit, Option.bind_eq_bind, Option.bind_eq_some_iff, Option.map_eq_some_iff] at h
    obtain ⟨a', -, c, -, rfl⟩ := h
    exact toExpr_constevalCall c

theorem tracked_subset : ∀ {s : Stmt ν} {y : Name}, y ∈ s.tracked → y ∈ s.assigned := by
  intro s
  induction s with
  | seq a b iha ihb | ite _ a b iha ihb | «while» _ a b iha ihb =>
    intro y h
    simp only [Stmt.tracked, Stmt.assigned, List.mem_append] at h ⊢
    exact h.imp iha ihb
  | assign t e =>
    intro y h
    unfold Stmt.tracked at h
    split at h
    · exact h
    · cases h
  | forIn t e a b iha ihb =>
    intro y h
    unfold Stmt.tracked at h
    simp only [Stmt.assigned, List.mem_append]
    split at h <;> simp only [List.mem_append] at h
    · exact h.imp id fun h => .inr (ihb h)
    · exact .inr (h.imp iha ihb)
  | withItem f e x a iha =>
    intro y h
    exact List.mem_append_right _ (iha h)
  | _ => intro y h; cases h

variable [DecidableEq ν] {P : Python ν μ}

theorem track_get {T : Table ν} {x y : Name} {c : Const ν} (h : y ≠ x) : (P.track T x c).get y = T.get y := by
  unfold Python.track
  split
  · split
    · rfl
    · exact Dict.get_set_ne _ _ h
  · rfl

structure Unrolled (P : Python ν μ) (t : Target) (arg : Expr ν) (body orelse : Stmt ν) (θ : Subst ν) (T : Table ν)
    (r : Stmt ν × Table ν) where
  items : List (Const ν)
  copies : Stmt ν × Table ν
  rest : Stmt ν × Table ν
  control : body.loopControl = false
  stores : ∀ x ∈ t.names, x ∉ body.stores
  items_eq : P.loopItems T (arg.subst θ) = some items
  copies_eq : unroll (fun c => do
    let bs ← bindTarget P.constItems t c
    let s ← P.process body (θ.comp (.ofTable bs)) (T.update bs)
    some (s.1, bs)) Dict.empty items = some copies
  rest_eq : P.process orelse θ (T.update copies.2) = some rest
  result : r = (.seq copies.1 (.seq (assignAll copies.2.entries) rest.1), rest.2)

/-- What `process` makes of a statement, by what it makes of its parts. -/
inductive Processed (P : Python ν μ) (θ : Subst ν) (T : Table ν) : Stmt ν → Stmt ν × Table ν → Prop
  | skip : Processed P θ T .skip (.skip, T)
  | seq {a b : Stmt ν} {ra rb : Stmt ν × Table ν} (ha : P.process a θ T = some ra) (hb : P.process b θ ra.2 = some rb) :
      Processed P θ T (.seq a b) (.seq ra.1 rb.1, rb.2)
  | known {x : Name} {l : Bool} {arg : Expr ν} {c : Const ν} (hc : P.evalConst T (arg.subst θ) = some c) :
      Processed P θ T (.assign (.name x) (.consteval l arg)) (.assign (.name x) c.toExpr, P.track T x c)
  | assign {t : Target} {e e' : Expr ν} (ht : tracks t e = false) (he : P.visit T (e.subst θ) = some e') :
      Processed P θ T (.assign t e) (.assign t e', T)
  | setitem {a i e a' i' e' : Expr ν} (ha : P.visit T (a.subst θ) = some a') (hi : P.visit T (i.subst θ) = some i')
      (he : P.visit T (e.subst θ) = some e') : Processed P θ T (.setitem a i e) (.setitem a' i' e', T)
  | expr {e e' : Expr ν} (he : P.visit T (e.subst θ) = some e') : Processed P θ T (.expr e) (.expr e', T)
  | ite {c c' : Expr ν} {a b : Stmt ν} {ra rb : Stmt ν × Table ν} (hc : P.visit T (c.subst θ) = some c')
      (ha : P.process a θ T = some ra) (hb : P.process b θ ra.2 = some rb) :
      Processed P θ T (.ite c a b) (.ite c' ra.1 rb.1, rb.2)
  | while {c c' : Expr ν} {a b : Stmt ν} {ra rb : Stmt ν × Table ν} (hc : P.visit T (c.subst θ) = some c')
      (ha : P.process a θ T = some ra) (hb : P.process b θ ra.2 = some rb) :
      Processed P θ T (.while c a b) (.while c' ra.1 rb.1, rb.2)
  | unrolled {t : Target} {l : Bool} {arg : Expr ν} {a b : Stmt ν} {r : Stmt ν × Table ν}
      (u : Unrolled P t arg a b θ T r) : Processed P θ T (.forIn t (.consteval l arg) a b) r
  | forIn {t : Target} {e e' : Expr ν} {a b : Stmt ν} {ra rb : Stmt ν × Table ν} (hnone : e.constevalCall = none)
      (he : P.visit T (e.subst θ) = some e') (ha : P.process a θ T = some ra) (hb : P.process b θ ra.2 = some rb) :
      Processed P θ T (.forIn t e a b) (.forIn t e' ra.1 rb.1, rb.2)
  | withItem {f : String} {e : Expr ν} {x : Option Name} {a : Stmt ν} {ra : Stmt ν × Table ν}
      (ha : P.process a θ T = some ra) : Processed P θ T (.withItem f e x a) (.withItem f (e.subst θ) x ra.1, ra.2)
  | bindFn {d : Bool} {f x : Name} {e e' : Expr ν} (he : P.visit T (e.subst θ) = some e') :
      Processed P θ T (.bindFn d f x e) (.bindFn d f x e', T)
  | break : Processed P θ T .break (.break, T)
  | continue : Processed P θ T .continue (.continue, T)
  | ret {e e' : Expr ν} (he : P.visit T (e.subst θ) = some e') : Processed P θ T (.ret e) (.ret e', T)

theorem process_cases {s : Stmt ν} {θ : Subst ν} {T : Table ν} {r : Stmt ν × Table ν} (h : P.process s θ T = some r) :
    Processed P θ T s r := by
  cases s with
  | forIn t e body orelse =>
    unfold Python.process at h
    cases he : e.constevalCall with
    | none =>
      simp only [he, Option.bind_eq_bind, Option.bind_eq_some_iff, Option.some.injEq] at h
      obtain ⟨e', he', ra, ha, rb, hb, rfl⟩ := h
      exact .forIn he he' ha hb
    | some la =>
      obtain rfl := constevalCall_eq_some he
      simp only [Expr.constevalCall] at h
      split at h
      · cases h
      · next hc =>
        split at h
        · cases h
        · next hs =>
          simp only [Option.bind_eq_bind, Option.bind_eq_some_iff, Option.some.injEq] at h
          obtain ⟨items, hi, copies, hcs, rest, hr, rfl⟩ := h
          refine .unrolled ⟨items, copies, rest, by simpa using hc, ?_, hi, hcs, hr, rfl⟩
          intro x hx hb
          exact hs (List.any_eq_true.mpr ⟨x, hx, by simpa using hb⟩)
  | assign t e =>
    unfold Python.process at h
    split at h
    · next x l arg he =>
      obtain rfl := constevalCall_eq_some he
      simp only [Option.bind_eq_bind, Option.bind_eq_some_iff, Option.some.injEq] at h
      obtain ⟨c, hc, rfl⟩ := h
      exact .known hc
    · next hne =>
      simp only [Option.bind_eq_bind, Option.bind_eq_some_iff, Option.some.injEq] at h
      obtain ⟨e', he', rfl⟩ := h
      refine .assign ?_ he'
      unfold tracks
      split
      · next x a hx => exact absurd hx (hne x a.1 a.2 rfl)
      · rfl
  | skip | «break» | «continue» =>
    cases h
    constructor
  | expr e | ret e | bindFn d f x e =>
    simp only [Python.process, Option.bind_eq_bind, Option.bind_eq_some_iff, Option.some.injEq] at h
    obtain ⟨e', he, rfl⟩ := h
    constructor; exact he
  | setitem a i e =>
    simp only [Python.process, Option.bind_eq_bind, Option.bind_eq_some_iff, Option.some.injEq] at h
    obtain ⟨a', ha, i', hi, e', he, rfl⟩ := h
    exact .setitem ha hi he
  | seq a b =>
    simp only [Python.process, Option.bind_eq_bind, Option.bind_eq_some_iff, Option.some.injEq] at h
    obtain ⟨ra, ha, rb, hb, rfl⟩ := h
    exact .seq ha hb
  | ite c a b | «while» c a b =>
    simp only [Python.process, Option.bind_eq_bind, Option.bind_eq_some_iff, Option.some.injEq] at h
    obtain ⟨c', hc, ra, ha, rb, hb, rfl⟩ := h
    constructor <;> assumption
  | withItem f e x a =>
    simp only [Python.process, Option.bind_eq_bind, Option.bind_eq_some_iff, Option.some.injEq] at h
    obtain ⟨ra, ha, rfl⟩ := h
    exact .withItem ha

theorem Unrolled.last_keys {t : Target} {arg : Expr ν} {body orelse : Stmt ν} {θ : Subst ν} {T : Table ν}
    {r : Stmt ν × Table ν} (u : Unrolled P t arg body orelse θ T r) {y : Name} (hy : (u.copies.2.get y).isSome) :
    y ∈ t.names := by
  revert hy
  refine unroll_last (Q := fun bs => (bs.get y).isSome → y ∈ t.names) ?_ (by simp) u.copies_eq
  intro c s hs
  simp only [Option.bind_eq_bind, Option.bind_eq_some_iff, Option.some.injEq] at hs
  obtain ⟨bs, hbs, s', -, rfl⟩ := hs
  exact (bindTarget_keys t hbs y).mp

theorem process_get : ∀ {s : Stmt ν} {θ : Subst ν} {T : Table ν} {r : Stmt ν × Table ν},
    P.process s θ T = some r → ∀ y, y ∉ s.tracked → r.2.get y = T.get y := by
  intro s
  induction s with
  | seq a b iha ihb =>
    intro θ T r h y hy
    rw [Stmt.tracked, List.mem_append, not_or] at hy
    cases process_cases h with
    | seq ha hb => exact (ihb hb y hy.2).trans (iha ha y hy.1)
  | ite c a b iha ihb =>
    intro θ T r h y hy
    rw [Stmt.tracked, List.mem_append, not_or] at hy
    cases process_cases h with
    | ite hc ha hb => exact (ihb hb y hy.2).trans (iha ha y hy.1)
  | «while» c a b iha ihb =>
    intro θ T r h y hy
    rw [Stmt.tracked, List.mem_append, not_or] at hy
    cases process_cases h with
    | «while» hc ha hb => exact (ihb hb y hy.2).trans (iha ha y hy.1)
  | assign t e =>
    intro θ T r h y hy
    cases process_cases h with
    | known hc =>
      apply track_get
      rintro rfl
      exact hy (by simp [Stmt.tracked, tracks, Expr.constevalCall, Target.names])
    | assign ht he => rfl
  | forIn t e a b iha ihb =>
    intro θ T r h y hy
    unfold Stmt.tracked at hy
    cases process_cases h with
    | unrolled u =>
      simp only [Expr.constevalCall, Option.isSome_some, if_true, List.mem_append, not_or] at hy
      rw [u.result]
      refine (ihb u.rest_eq y hy.2).trans ?_
      have hnone : u.copies.2.get y = none := by
        cases hl : u.copies.2.get y with
        | none => rfl
        | some c => exact absurd (u.last_keys (by rw [hl]; rfl)) hy.1
      rw [Dict.get_update, hnone, Option.none_or]
    | forIn hnone he ha hb =>
      simp only [hnone, Option.isSome_none, Bool.false_eq_true, if_false, List.mem_append, not_or] at hy
      exact (ihb hb y hy.2).trans (iha ha y hy.1)
  | withItem f e x a iha =>
    intro θ T r h y hy
    cases process_cases h with
    | withItem ha => exact iha ha y hy
  | _ =>
    intro θ T r h y hy
    cases process_cases h
    rfl

theorem process_assigned : ∀ {s : Stmt ν} {θ : Subst ν} {T : Table ν} {r : Stmt ν × Table ν},
    P.process s θ T = some r → ∀ y ∈ r.1.assigned, y ∈ s.assigned := by
  intro s
  induction s with
  | seq a b iha ihb =>
    intro θ T r h y hy
    cases process_cases h with
    | seq ha hb => exact List.mem_append.mpr ((List.mem_append.mp hy).imp (iha ha y) (ihb hb y))
  | ite c a b iha ihb =>
    intro θ T r h y hy
    cases process_cases h with
    | ite hc ha hb => exact List.mem_append.mpr ((List.mem_append.mp hy).imp (iha ha y) (ihb hb y))
  | «while» c a b iha ihb =>
    intro θ T r h y hy
    cases process_cases h with
    | «while» hc ha hb => exact List.mem_append.mpr ((List.mem_append.mp hy).imp (iha ha y) (ihb hb y))
  | forIn t e a b iha ihb =>
    intro θ T r h y hy
    simp only [Stmt.assigned, List.mem_append]
    cases process_cases h with
    | unrolled u =>
      rw [u.result] at hy
      simp only [Stmt.assigned, List.mem_append] at hy
      rcases hy with hy | hy | hy
      · right; left
        refine unroll_assigned ?_ u.copies_eq y hy
        intro c s hs
        simp only [Option.bind_eq_bind, Option.bind_eq_some_iff, Option.some.injEq] at hs
        obtain ⟨bs, -, s', hs', rfl⟩ := hs
        intro z hz
        exact iha hs' z hz
      · left
        apply u.last_keys
        obtain ⟨c, hc⟩ := Dict.mem_keys_iff.mp (assignAll_assigned hy)
        rw [hc]; rfl
      · right; right; exact ihb u.rest_eq y hy
    | forIn hnone he ha hb =>
      simp only [Stmt.assigned, List.mem_append] at hy
      exact hy.imp id (Or.imp (iha ha y) (ihb hb y))
  | withItem f e x a iha =>
    intro θ T r h y hy
    cases process_cases h with
    | withItem ha => exact List.mem_append.mpr ((List.mem_append.mp hy).imp id (iha ha y))
  | _ =>
    intro θ T r h y hy
    cases process_cases h
    all_goals exact hy

/-! ## Substitution before the walk -/

omit [DecidableEq ν] in
theorem subst_comp (θ θ' : Subst ν) : ∀ e : Expr ν, (e.subst θ).subst θ' = e.subst (θ.comp θ') := by
  intro e
  induction e with
  | const v => rfl
  | name x =>
    show ((θ x).getD (.name x)).subst θ' = ((θ.comp θ') x).getD (.name x)
    unfold Subst.comp
    cases θ x <;> rfl
  | unary f e ih | item e k ih | prim f e ih | consteval l e ih => simp only [Expr.subst, ih]
  | binary f a b iha ihb | app f a b iha ihb | comp a f b iha ihb => simp only [Expr.subst, iha, ihb]
  | call f e ih =>
    cases hf : θ f <;> simp only [Expr.subst, ih, Subst.comp, hf]

omit [DecidableEq ν] in
theorem comp_assoc (θ θ' θ'' : Subst ν) : (θ.comp θ').comp θ'' = θ.comp (θ'.comp θ'') := by
  funext x
  unfold Subst.comp
  cases θ x with
  | none => rfl
  | some e => exact congrArg some (subst_comp θ' θ'' e)

/-- What replaces a name holds no `consteval` and no target. -/
def Subst.Plain (θ : Subst ν) : Prop := ∀ x r, θ x = some r → r.marked = false ∧ r.stores = []

omit [DecidableEq ν] in
theorem ofTable_plain (bs : Table ν) : (Subst.ofTable bs).Plain := by
  intro x r h
  obtain ⟨c, -, rfl⟩ := Option.map_eq_some_iff.mp h
  cases c <;> exact ⟨rfl, rfl⟩

omit [DecidableEq ν] in
theorem constevalCall_subst {θ : Subst ν} (hθ : θ.Plain) (e : Expr ν) :
    (e.subst θ).constevalCall = e.constevalCall.map fun a => (a.1, a.2.subst θ) := by
  cases e with
  | name x =>
    show ((θ x).getD (.name x)).constevalCall = none
    cases hx : θ x with
    | none => rfl
    | some r =>
      have hm := (hθ x r hx).1
      cases r with
      | consteval l a => cases hm
      | _ => rfl
  | call f e =>
    unfold Expr.subst
    cases θ f <;> rfl
  | _ => rfl

omit [DecidableEq ν] in
theorem subst_stores {θ : Subst ν} (hθ : θ.Plain) : ∀ e : Expr ν, (e.subst θ).stores = e.stores := by
  intro e
  induction e with
  | const v => rfl
  | name x =>
    unfold Expr.subst
    cases hx : θ x with
    | none => rfl
    | some r => exact (hθ x r hx).2
  | unary f e ih | item e k ih | prim f e ih | consteval l e ih => exact ih
  | binary f a b iha ihb | app f a b iha ihb | comp a f b iha ihb => simp only [Expr.subst, Expr.stores, iha, ihb]
  | call f e ih =>
    unfold Expr.subst
    cases hf : θ f with
    | none => exact ih
    | some r => simp only [Expr.stores, (hθ f r hf).2, ih, List.nil_append]

omit [DecidableEq ν] in
theorem stmt_subst_stores {θ : Subst ν} (hθ : θ.Plain) : ∀ s : Stmt ν, (s.subst θ).stores = s.stores := by
  intro s
  induction s <;> simp only [Stmt.subst, Stmt.stores, subst_stores hθ, *]

omit [DecidableEq ν] in
theorem loopControl_subst (θ : Subst ν) : ∀ s : Stmt ν, (s.subst θ).loopControl = s.loopControl := by
  intro s
  induction s <;> simp only [Stmt.subst, Stmt.loopControl, *]

theorem process_subst {θ : Subst ν} (hθ : θ.Plain) : ∀ (s : Stmt ν) (θ' : Subst ν) (T : Table ν),
    P.process (s.subst θ) θ' T = P.process s (θ.comp θ') T := by
  intro s
  induction s with
  | seq a b iha ihb | ite c a b iha ihb | «while» c a b iha ihb =>
    intro θ' T
    simp only [Stmt.subst, Python.process, subst_comp, iha, ihb]
  | withItem f e x a iha =>
    intro θ' T
    simp only [Stmt.subst, Python.process, subst_comp, iha]
  | assign t e =>
    intro θ' T
    simp only [Stmt.subst, Python.process, constevalCall_subst hθ, subst_comp]
    cases t <;> cases e.constevalCall <;> simp only [Option.map_none, Option.map_some, subst_comp]
  | forIn t e a b iha ihb =>
    intro θ' T
    simp only [Stmt.subst, Python.process, constevalCall_subst hθ, loopControl_subst, stmt_subst_stores hθ,
      subst_comp]
    cases e.constevalCall with
    | none => simp only [Option.map_none, iha, ihb]
    | some la => simp only [Option.map_some, subst_comp, iha, ihb, comp_assoc]
  | _ =>
    intro θ' T
    simp only [Stmt.subst, Python.process, subst_comp]

/-! ## Loop control -/

variable {scope : Name → Bool} {R : Reading} {n : Nat}

omit [DecidableEq ν] in
theorem elseClause_loops {orelse : Run (State ν μ) (Outcome ν)} (h : Returns orelse fun o => o.loops = false)
    (xs : List Name) (o : Outcome ν) : Returns (Python.elseClause orelse xs o) fun o => o.loops = false := by
  cases o with
  | normal | cont => exact h
  | brk => exact .seq fun _ => .pure rfl
  | ret v => exact .pure rfl

theorem exec_loops : ∀ {s : Stmt ν}, s.loopControl = false →
    Returns (P.exec scope R n s) fun o => o.loops = false := by
  intro s
  induction s with
  | skip => exact fun _ => .pure rfl
  | seq a b iha ihb =>
    intro hc
    simp only [Stmt.loopControl, Bool.or_eq_false_iff] at hc
    unfold Python.exec
    refine Returns.bind (iha hc.1) fun o ho => ?_
    cases o with
    | normal => exact ihb hc.2
    | brk | cont => cases ho
    | ret v => exact .seq fun _ => .pure rfl
  | ite c a b iha ihb =>
    intro hc
    simp only [Stmt.loopControl, Bool.or_eq_false_iff] at hc
    unfold Python.exec
    refine Returns.seq fun v => ?_
    cases v with
    | true => exact .bind (iha hc.1) fun o ho => .seq fun _ => .pure ho
    | false => exact .seq fun _ => ihb hc.2
  | «while» c a b iha ihb =>
    intro hc
    exact .seq fun _ => .seq fun o => elseClause_loops (ihb hc) _ o
  | forIn t e a b iha ihb =>
    intro hc
    unfold Python.exec
    cases e.constevalCall with
    | some la => exact .seq fun _ => .seq fun _ => .seq fun o => elseClause_loops (ihb hc) _ o
    | none => exact .seq fun _ => .seq fun _ => .seq fun _ => .seq fun o => elseClause_loops (ihb hc) _ o
  | withItem f e x a iha =>
    intro hc
    exact .seq fun _ => .seq fun _ => .seq fun _ => .seq fun _ => .bind (iha hc) fun o ho => .seq fun _ => .pure ho
  | assign t e => exact fun _ => .seq fun _ => .seq fun _ => .seq fun _ => .pure rfl
  | setitem a i e => exact fun _ => .seq fun _ => .seq fun _ => .seq fun _ => .seq fun _ => .pure rfl
  | bindFn d f x e => exact fun _ => .seq fun _ => .seq fun _ => .pure rfl
  | expr e | ret e => exact fun _ => .seq fun _ => .pure rfl
  | «break» | «continue» => intro hc; cases hc

end NumbaCudaMlir.Consteval

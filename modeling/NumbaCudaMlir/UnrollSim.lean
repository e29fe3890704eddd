import NumbaCudaMlir.ConstevalSim

/-!
# Unrolled loops

`constLoop_sim`: the copies of a loop body do what the iterations do, but for
the variables of the loop. `assignAll_settles`: the assignments behind the
copies make up for these.
-/

namespace NumbaCudaMlir.Consteval

open Partial

variable {ν μ : Type} {P : Python ν μ} {scope scope' : Name → Bool} {off : List Name}
  {A : Name → Option (Const ν)} {θ : Subst ν} {T : Table ν} {σ τ : State ν μ}

def copyActive (cs : Table ν) (A : Name → Option (Const ν)) : Name → Option (Const ν) := fun y => (cs.get y).or (A y)

theorem subst_ne_name {e : Expr ν} (he : ∀ y, e ≠ .name y) (θ : Subst ν) : ∀ y, e.subst θ ≠ .name y := by
  intro y h
  cases e with
  | name x => exact he x rfl
  | call f a =>
    unfold Expr.subst at h
    split at h <;> cases h
  | _ => cases h

theorem toExpr_ne_name (c : Const ν) (y : Name) : c.toExpr ≠ .name y := by cases c <;> intro h <;> cases h

theorem Stands.comp (h : Stands θ A) (cs : Table ν) (hA : ∀ x, (cs.get x).isSome → A x = none) :
    Stands (θ.comp (.ofTable cs)) (copyActive cs A) where
  other := by
    intro x hx
    obtain ⟨hc, ha⟩ := Option.or_eq_none_iff.mp hx
    simp only [Subst.comp, h.other x ha, Subst.ofTable, hc, Option.map_none]
  replaced := by
    intro x hx
    cases hc : cs.get x with
    | some c =>
      refine ⟨c.toExpr, ?_, toExpr_ne_name c⟩
      simp only [Subst.comp, h.other x (hA x (by rw [hc]; rfl)), Subst.ofTable, hc, Option.map_some]
    | none =>
      obtain ⟨r, hr, hn⟩ := h.replaced x (by simpa [copyActive, hc] using hx)
      exact ⟨r.subst (.ofTable cs), by simp only [Subst.comp, hr], subst_ne_name hn _⟩
  val := by
    intro x v hx
    cases hc : cs.get x with
    | some c =>
      simp only [copyActive, hc, Option.some_or, Option.some.injEq] at hx
      subst c
      simp only [Subst.comp, h.other x (hA x (by rw [hc]; rfl)), Subst.ofTable, hc, Option.map_some, Const.toExpr]
    | none =>
      simp only [copyActive, hc, Option.none_or] at hx
      simp only [Subst.comp, h.val x v hx, Expr.subst]
  element := by
    intro x p k hx hp
    cases hc : cs.get x with
    | some c =>
      simp only [copyActive, hc, Option.some_or, Option.some.injEq] at hx
      subst c
      simp only [Subst.comp, h.other x (hA x (by rw [hc]; rfl)), Subst.ofTable, hc, Option.map_some, Const.toExpr]
    | none =>
      simp only [copyActive, hc, Option.none_or] at hx
      have hcp : cs.get p = none := by
        rcases hp with hp | rfl
        · exact (Option.or_eq_none_iff.mp hp).1
        · exact hc
      have hap : A p = none ∨ p = x := hp.imp (fun hp => (Option.or_eq_none_iff.mp hp).2) id
      simp only [Subst.comp, h.element x p k hx hap, Expr.subst, Subst.ofTable, hcp, Option.map_none, Option.getD_none]
  plain := by
    intro x r hr
    unfold Subst.comp at hr
    cases hx : θ x with
    | some e =>
      simp only [hx, Option.some.injEq] at hr
      subst r
      exact subst_marked (fun y r hy => (ofTable_plain cs y r hy).1) (h.plain x e hx)
    | none =>
      simp only [hx] at hr
      exact (ofTable_plain cs x r hr).1

/-! ## One copy -/

namespace Inv

theorem enterCopy (h : Inv P scope off A θ T σ τ) {bs : Dict Name ν} {cs : Table ν}
    (hbs : ∀ y, (bs.get y).isSome ↔ (cs.get y).isSome) (hoff : ∀ y ∈ off, (cs.get y).isSome)
    (hA : ∀ y, (cs.get y).isSome → A y = none) (hcs : ∀ y, (cs.get y).isSome → scope y = true) :
    Inv P scope [] (copyActive cs A) (θ.comp (.ofTable cs)) (T.update cs) (σ.enterCopy bs cs) τ where
  active := by
    show (fun y => (cs.get y).or (σ.active y)) = _
    rw [h.active]; rfl
  memory := h.memory
  frame := h.frame
  stands := h.stands.comp cs hA
  known := by
    intro y hy
    simp only [State.enterCopy, State.store, Bool.and_eq_true, Option.isNone_iff_eq_none] at hy ⊢
    have hc : cs.get y = none := by
      rw [← Option.not_isSome_iff_eq_none, ← hbs y, hy.2]
      simp
    rw [hy.2, Dict.get_update, hc]
    exact h.known y hy.1
  inScope := scoped_update h.inScope hcs
  funcs := by
    intro f clo hf
    simp only [State.enterCopy, State.store] at hf
    split at hf
    · cases hf
    · exact h.funcs f clo hf
  idle := by
    intro f hf
    simp only [State.enterCopy, State.store]
    split
    · rfl
    · next hb =>
      have hc : cs.get f = none := by
        rw [← Option.not_isSome_iff_eq_none, ← hbs f]
        exact hb
      exact h.idle f (by simpa [copyActive, hc] using hf)
  sync := by
    intro y hy _
    obtain ⟨hc, ha⟩ := Option.or_eq_none_iff.mp hy
    have hb : bs.get y = none := by
      rw [← Option.not_isSome_iff_eq_none, hbs y, hc]
      simp
    have hy : y ∉ off := fun ho => by have := hoff y ho; rw [hc] at this; cases this
    simp only [State.enterCopy, State.store, hb, Option.none_or]
    exact h.sync y ha hy

theorem leaveCopy {cs : Table ν} {θ' : Subst ν} {T' : Table ν} (h : Inv P scope [] (copyActive cs A) θ' T' σ τ)
    (hs : Stands θ A) (hT : Scoped T scope) {xs ys : List Name} (hxs : ∀ y, y ∉ xs → T'.get y = (T.update cs).get y)
    (hys : ∀ y, (cs.get y).isSome → y ∈ ys) :
    Inv P scope cs.keys A θ T (σ.leaveCopy A (ys ++ xs)) τ where
  active := rfl
  memory := h.memory
  frame := h.frame
  stands := hs
  known := by
    intro y hy
    simp only [State.leaveCopy, State.drop, Bool.and_eq_true, Bool.not_eq_true', List.contains_eq_mem,
      decide_eq_false_iff_not, List.mem_append, not_or] at hy ⊢
    have hc : cs.get y = none := by
      rw [← Option.not_isSome_iff_eq_none]
      exact fun hc => hy.2.1 (hys y hc)
    have hget : T.get y = T'.get y := by rw [hxs y hy.2.2, Dict.get_update, hc, Option.none_or]
    rw [hget]
    exact h.known y hy.1
  inScope := hT
  funcs := h.funcs
  idle := by
    intro f hf
    apply h.idle f
    unfold copyActive
    rw [Option.isSome_or, hf, Bool.or_true]
  sync := by
    intro y hy ho
    refine h.sync y ?_ (by simp)
    have hc : cs.get y = none := by
      cases hg : cs.get y with
      | none => rfl
      | some c => exact absurd (Dict.mem_keys_iff.mpr ⟨c, hg⟩) ho
    unfold copyActive
    rw [hc, hy]; rfl

end Inv

/-! ## All copies -/

variable (P scope)

def Between (last : Table ν) (A : Name → Option (Const ν)) (θ : Subst ν) (T : Table ν) (σ τ : State ν μ) : Prop :=
  Inv P scope last.keys A θ T σ τ ∧ ∀ f, (last.get f).isSome → σ.funcs f = none

variable [DecidableEq ν]

/-- After the loop, but the rewritten body has not assigned its variables yet. -/
def Unsettled (last : Table ν) (A : Name → Option (Const ν)) (θ : Subst ν) (T : Table ν) (σ τ : State ν μ) : Prop :=
  ∃ σ₀, σ = σ₀.settle last ∧ Between P scope last A θ T σ₀ τ ∧
    ∀ e ∈ last.entries, P.stands scope σ₀.env e.1 e.2 = true

def LoopPost (last : Table ν) (A : Name → Option (Const ν)) (θ : Subst ν) (T : Table ν) (o : Outcome ν)
    (σ τ : State ν μ) : Prop :=
  match o with
  | .normal => Unsettled P scope last A θ T σ τ
  | .ret _ => τ.memory = σ.memory
  | _ => False

/-- The code of a copy does what the body does. -/
def CopySim (n : Nat) (scope' : Name → Bool) (body : Run (State ν μ) (Outcome ν)) (xs : List Name)
    (A : Name → Option (Const ν)) (θ : Subst ν) (T : Table ν) (s : Stmt ν) (cs : Table ν) : Prop :=
  ∃ T', (∀ y, y ∉ xs → T'.get y = (T.update cs).get y) ∧
    Sim (Inv P scope [] (copyActive cs A) (θ.comp (.ofTable cs)) (T.update cs)) body
      (P.exec scope' .library n s)
      (fun o σ τ => o.loops = false ∧ Post P scope (copyActive cs A) (θ.comp (.ofTable cs)) T' o σ τ)

variable {P scope}

theorem constLoop_end {n : Nat} {t : Target} {body : Run (State ν μ) (Outcome ν)} {xs : List Name} {last : Table ν} :
    Sim (Between P scope last A θ T) (P.constLoop scope .watched t body xs A last [])
      (P.exec scope' .library n .skip) (LoopPost P scope last A θ T) := by
  apply Sim.left (Q := fun _ σ τ => Between P scope last A θ T σ τ ∧
    ∀ e ∈ last.entries, P.stands scope σ.env e.1 e.2 = true)
  · intro σ τ h _ σ' hr
    unfold Python.guardWatched at hr
    split at hr
    · cases hr
    · next hb =>
      cases hr
      exact ⟨h, List.all_eq_true.mp (readOk_of_ne hb)⟩
  · intro _
    apply Sim.left (Q := fun _ => Unsettled P scope last A θ T)
    · intro σ τ h _ σ' hr
      rw [modify_eq_some] at hr
      cases hr
      exact ⟨σ, rfl, h⟩
    · intro _; exact Sim.pure fun _ _ h => h

theorem constLoop_sim {n : Nat} {t : Target} {body : Run (State ν μ) (Outcome ν)} {xs : List Name}
    {copy : Const ν → Option (Stmt ν × Table ν)} (hs : Stands θ A) (hT : Scoped T scope)
    (ht : ∀ y ∈ t.names, A y = none ∧ scope y = true)
    (hcopy : ∀ c r, copy c = some r → bindTarget P.constItems t c = some r.2 ∧
      CopySim P scope n scope' body xs A θ T r.1 r.2) :
    ∀ (its : List (ν × Const ν)) {last : Table ν} {r : Stmt ν × Table ν}, (∀ y, (last.get y).isSome → y ∈ t.names) →
      unroll copy last (its.map (·.2)) = some r →
      Sim (Between P scope last A θ T) (P.constLoop scope .watched t body xs A last its)
        (P.exec scope' .library n r.1) (LoopPost P scope r.2 A θ T)
  | [], last, r, _, h => by
    unfold List.map unroll at h
    cases h
    exact constLoop_end
  | (v, c) :: its, last, r, hl, h => by
    rw [List.map_cons, unroll] at h
    simp only [Option.bind_eq_bind, Option.bind_eq_some_iff, Option.some.injEq] at h
    obtain ⟨s, hsc, r', hr', rfl⟩ := h
    obtain ⟨hbind, T', hT', hsim⟩ := hcopy c s hsc
    have hkeys := bindTarget_keys t hbind
    have ih := constLoop_sim hs hT ht hcopy its (fun y => (hkeys y).mp) hr'
    unfold Python.constLoop
    apply Sim.left (Q := fun bs σ τ => Between P scope last A θ T σ τ ∧ ∀ y, (bs.get y).isSome ↔ y ∈ t.names)
    · intro σ τ hσ bs σ' hb
      obtain ⟨_, hbs, heq⟩ := ofOption_eq_some.mp hb
      cases heq
      exact ⟨hσ, bindTarget_keys t hbs⟩
    · intro bs
      rw [hbind, Option.getD_some]
      apply Sim.left (Q := fun _ => Inv P scope [] (copyActive s.2 A) (θ.comp (.ofTable s.2)) (T.update s.2))
      · intro σ τ hσ _ σ' hm
        rw [modify_eq_some] at hm
        cases hm
        apply hσ.1.1.enterCopy
        · intro y; rw [hσ.2 y, hkeys y]
        · intro y hy
          obtain ⟨d, hd⟩ := Dict.mem_keys_iff.mp hy
          exact (hkeys y).mpr (hl y (by rw [hd]; rfl))
        · exact fun y hy => (ht y ((hkeys y).mp hy)).1
        · exact fun y hy => (ht y ((hkeys y).mp hy)).2
      · intro _
        apply Sim.bind hsim; intro o
        apply Sim.of_and; intro ho
        cases o with
        | brk | cont => cases ho
        | normal =>
          apply Sim.left (Q := fun _ => Between P scope s.2 A θ T)
          · intro σ τ hσ _ σ' hm
            rw [modify_eq_some] at hm
            cases hm
            refine ⟨Inv.leaveCopy hσ hs hT hT' fun y => (hkeys y).mp, ?_⟩
            intro f hf
            apply Inv.idle hσ f
            unfold copyActive
            rw [Option.isSome_or, hf, Bool.true_or]
          · intro _; exact ih
        | ret w =>
          apply Sim.bind (Q := fun _ σ τ => τ.memory = σ.memory)
          · exact Sim.modify fun _ _ h => h
          · intro _; exact Sim.pure fun _ _ h => h

/-! ## The variables of the loop -/

omit [DecidableEq ν] in
theorem bindTarget_consts {t : Target} {c : Const ν} {cs : Table ν} (h : bindTarget P.constItems t c = some cs) :
    (∀ e ∈ cs.entries, ∃ v, e.2 = .val v) ∨ cs.entries.length ≤ 1 := by
  cases c with
  | val v =>
    left
    intro e he
    refine bindTarget_forall (q := fun c => ∃ v, c = .val v) ?_ t ⟨v, rfl⟩ h e.1 e.2 (Dict.get_eq_some_iff.mpr he)
    rintro _ vs ⟨v, rfl⟩ hvs w hw
    obtain ⟨us, -, rfl⟩ := Option.map_eq_some_iff.mp hvs
    obtain ⟨u, -, rfl⟩ := List.mem_map.mp hw
    exact ⟨u, rfl⟩
  | element p k =>
    right
    cases t with
    | name x =>
      unfold bindTarget at h
      cases h
      exact Nat.le_refl 1
    | tuple ts => cases h
    | starred t => cases h

theorem Unrolled.last_consts {t : Target} {arg : Expr ν} {a b : Stmt ν} {r : Stmt ν × Table ν}
    (u : Unrolled P t arg a b θ T r) :
    (∀ e ∈ u.copies.2.entries, ∃ v, e.2 = .val v) ∨ u.copies.2.entries.length ≤ 1 := by
  refine unroll_last (Q := fun cs => (∀ e ∈ cs.entries, ∃ v, e.2 = .val v) ∨ cs.entries.length ≤ 1) ?_
    (by right; simp [Dict.empty]) u.copies_eq
  intro c s hs
  simp only [Option.bind_eq_bind, Option.bind_eq_some_iff, Option.some.injEq] at hs
  obtain ⟨bs, hbs, s', -, rfl⟩ := hs
  exact bindTarget_consts hbs

theorem evalM_const {R : Reading} {n : Nat} (v : ν) : P.evalM scope R n (.const v) τ = some (v, τ) := by
  cases n <;> rfl

theorem exec_assignAll {n : Nat} {w : Frame ν} : ∀ {bs : List (Name × Const ν)} {τ : State ν μ},
    (∀ e ∈ bs, ∃ v, w e.1 = some v ∧ P.evalM scope' .library n e.2.toExpr τ = some (v, τ)) →
    ((∀ e ∈ bs, ∃ v, e.2 = .val v) ∨ bs.length ≤ 1) →
    ∃ τ', P.exec scope' .library n (assignAll bs) τ = some (.normal, τ') ∧ τ'.memory = τ.memory ∧
      (∀ y, τ'.frame y = if y ∈ bs.map (·.1) then w y else τ.frame y) ∧
      (∀ f, τ'.funcs f = if f ∈ bs.map (·.1) then none else τ.funcs f)
  | [], τ, _, _ => ⟨τ, rfl, rfl, by simp, by simp⟩
  | (x, c) :: bs, τ, hw, hc => by
    obtain ⟨v, hx, hv⟩ := hw (x, c) List.mem_cons_self
    have hrest : ∀ e ∈ bs, ∃ u, w e.1 = some u ∧
        P.evalM scope' .library n e.2.toExpr (τ.store (Dict.empty.set x v)) = some (u, τ.store (Dict.empty.set x v)) := by
      intro e he
      rcases hc with hc | hc
      · obtain ⟨u, hu, heu⟩ := hw e (List.mem_cons_of_mem _ he)
        obtain ⟨u', hu'⟩ := hc e (List.mem_cons_of_mem _ he)
        rw [hu', Const.toExpr, evalM_const] at heu ⊢
        cases heu
        exact ⟨u, hu, rfl⟩
      · cases bs with
        | nil => cases he
        | cons d bs => simp at hc
    have hvals : (∀ e ∈ bs, ∃ v, e.2 = .val v) ∨ bs.length ≤ 1 :=
      hc.imp (fun h e he => h e (List.mem_cons_of_mem _ he)) fun h => by simp only [List.length_cons] at h; omega
    obtain ⟨τ', hr, hm, hf, hfs⟩ := exec_assignAll hrest hvals
    have hfirst : P.exec scope' .library n (.assign (.name x) c.toExpr) τ =
        some (.normal, τ.store (Dict.empty.set x v)) := by
      have hlearn : P.learn (.name x) c.toExpr v (τ.store (Dict.empty.set x v)) = τ.store (Dict.empty.set x v) := by
        simp [Python.learn, toExpr_constevalCall]
      refine bind_of_eq hv (bind_of_eq (bind_of_eq rfl rfl) (bind_of_eq (modify_eq_some.mpr rfl) ?_))
      rw [pure_eq_some, hlearn]
    have hmem : ∀ y, y ∈ ((x, c) :: bs).map (·.1) ↔ y = x ∨ y ∈ bs.map (·.1) := fun y => List.mem_cons
    refine ⟨τ', bind_of_eq hfirst hr, hm, ?_, ?_⟩
    · intro y
      rw [hf y]
      simp only [hmem, State.store, Dict.get_set, Dict.get_empty]
      by_cases hy : y ∈ bs.map (·.1)
      · rw [if_pos hy, if_pos (.inr hy)]
      · by_cases hyx : y = x
        · rw [if_neg hy, if_pos hyx, if_pos (.inl hyx), hyx, hx]; rfl
        · rw [if_neg hy, if_neg hyx, if_neg (not_or.mpr ⟨hyx, hy⟩)]; rfl
    · intro f
      rw [hfs f]
      simp only [hmem, State.store, Dict.get_set, Dict.get_empty]
      by_cases hf : f ∈ bs.map (·.1)
      · rw [if_pos hf, if_pos (.inr hf)]
      · by_cases hfx : f = x
        · simp only [if_neg hf, if_pos hfx, if_pos (Or.inl hfx), Option.isSome_some, if_true]
        · simp only [if_neg hf, if_neg hfx, if_neg (not_or.mpr ⟨hfx, hf⟩), Option.isSome_none, Bool.false_eq_true,
            if_false]

theorem evalM_of_stands (hsc : ∀ x, scope' x = true → scope x = true) {n : Nat} (h : Inv P scope off A θ T σ τ)
    {x : Name} (hx : scope x = true) {c : Const ν} (hc : P.stands scope σ.env x c = true) :
    ∃ v, σ.frame x = some v ∧ P.evalM scope' .library n c.toExpr τ = some (v, τ) := by
  have hlook : P.lookup scope σ.env x = σ.frame x := by
    show (σ.frame x).or (if scope x then none else P.globals x) = _
    rw [if_pos hx, Option.or_none]
  cases c with
  | val v =>
    simp only [Python.stands, decide_eq_true_eq] at hc
    exact ⟨v, hlook ▸ hc, evalM_const v⟩
  | element p k =>
    simp only [Python.stands, decide_eq_true_eq, hlook] at hc
    obtain ⟨-, hsome, hval⟩ := hc
    obtain ⟨v, hv⟩ := Option.isSome_iff_exists.mp hsome
    obtain ⟨w, hw, hk⟩ := Option.bind_eq_some_iff.mp (hval.trans hv)
    refine ⟨v, hv, ?_⟩
    have hp : P.lookup scope' τ.env p = some w := by
      show P.lookupIn scope' τ.frame _ p = _
      rw [h.frame]
      exact lookupIn_mono hsc hw
    have hname : ∀ call, P.evalWith scope' .library call (.item (.name p) k) τ.env τ.memory = some (v, τ.memory) := by
      intro call
      refine bind_of_eq ?_ (ofOption_eq_some.mpr ⟨v, hk, rfl⟩)
      unfold Python.evalWith
      rw [if_neg (ne_and (by decide))]
      exact ofOption_eq_some.mpr ⟨w, hp, rfl⟩
    unfold Python.evalM
    cases n <;> (unfold Python.eval Const.toExpr; rw [hname]; rfl)

theorem assignAll_settles (hsc : ∀ x, scope' x = true → scope x = true) {n : Nat} {last : Table ν}
    (hlast : ∀ y, (last.get y).isSome → scope y = true)
    (hc : (∀ e ∈ last.entries, ∃ v, e.2 = .val v) ∨ last.entries.length ≤ 1)
    (h : Unsettled P scope last A θ T σ τ) :
    ∃ τ', P.exec scope' .library n (assignAll last.entries) τ = some (.normal, τ') ∧
      Inv P scope [] A θ (T.update last) σ τ' := by
  obtain ⟨σ₀, rfl, ⟨hinv, hidle⟩, hstands⟩ := h
  have hkey : ∀ y, y ∈ last.entries.map (·.1) ↔ (last.get y).isSome := by
    intro y
    rw [Option.isSome_iff_exists]
    exact Dict.mem_keys_iff
  have hval : ∀ e ∈ last.entries, ∃ v, σ₀.frame e.1 = some v ∧
      P.evalM scope' .library n e.2.toExpr τ = some (v, τ) := by
    intro e he
    refine evalM_of_stands hsc hinv (hlast e.1 ?_) (hstands e he)
    exact (hkey e.1).mp (List.mem_map_of_mem he)
  obtain ⟨τ', hr, hm, hf, hfs⟩ := exec_assignAll hval hc
  refine ⟨τ', hr, ?_⟩
  constructor
  case active => exact hinv.active
  case memory => exact hm.trans hinv.memory
  case frame =>
    funext y
    rw [hf y, hinv.frame]
    show _ = if (last.get y).isSome then σ₀.frame y else σ₀.late y
    by_cases hy : (last.get y).isSome
    · rw [if_pos ((hkey y).mpr hy), if_pos hy]
    · rw [if_neg (fun h' => hy ((hkey y).mp h')), if_neg hy]
  case stands => exact hinv.stands
  case known =>
    intro y hy
    show ∃ v, _ ∧ σ₀.frame y = some v
    simp only [State.settle] at hy
    rw [Dict.get_update]
    cases hl : last.get y with
    | none =>
      rw [hl] at hy
      exact hinv.known y hy
    | some c =>
      cases c with
      | element p k => rw [hl] at hy; cases hy
      | val v =>
        refine ⟨v, rfl, ?_⟩
        have hs := hstands (y, .val v) (Dict.get_eq_some_iff.mp hl)
        obtain ⟨u, hu, he⟩ := evalM_of_stands (n := n) hsc hinv (hlast y (by rw [hl]; rfl)) hs
        rw [Const.toExpr, evalM_const] at he
        cases he
        exact hu
  case inScope => exact scoped_update hinv.inScope hlast
  case funcs =>
    intro f clo hclo
    rw [hfs f, if_neg]
    · exact hinv.funcs f clo hclo
    · intro hk
      have := hidle f ((hkey f).mp hk)
      rw [show (σ₀.settle last).funcs f = σ₀.funcs f from rfl, this] at hclo
      cases hclo
  case idle => exact hinv.idle
  case sync =>
    intro y hy _
    show (if (last.get y).isSome then σ₀.frame y else σ₀.late y) = σ₀.frame y
    by_cases hk : (last.get y).isSome
    · rw [if_pos hk]
    · rw [if_neg hk]
      exact hinv.sync y hy fun h' => hk ((hkey y).mp h')

/-! ## The items -/

omit [DecidableEq ν] in
theorem loopItems_of_not_param {e : Expr ν} (he : ∀ p, e = .name p → P.params p = none) :
    P.loopItems T e = (P.evalConst T e).bind P.constItems := by
  unfold Python.loopItems
  split
  · next p => rw [he p rfl]
  · rfl

omit [DecidableEq ν] in
theorem tupleParam_eq_some {e : Expr ν} {p : Name} {ty : ParamType} (h : P.tupleParam A e = some (p, ty)) :
    e = .name p ∧ A p = none ∧ P.params p = some ty := by
  unfold Python.tupleParam at h
  split at h
  · next q =>
    split at h
    · cases h
    · next hq =>
      obtain ⟨ty', hty, heq⟩ := Option.map_eq_some_iff.mp h
      cases heq
      exact ⟨rfl, Option.not_isSome_iff_eq_none.mp hq, hty⟩
  · cases h

omit [DecidableEq ν] in
theorem tupleParam_eq_none {e : Expr ν} (hs : Stands θ A) (h : P.tupleParam A e = none) :
    ∀ p, e.subst θ = .name p → P.params p = none := by
  intro p hp
  by_cases he : ∃ x, e = .name x
  · obtain ⟨x, rfl⟩ := he
    unfold Python.tupleParam at h
    cases hx : A x with
    | none =>
      rw [Expr.subst, hs.other x hx] at hp
      cases hp
      simpa [hx] using h
    | some c =>
      obtain ⟨r, hr, hn⟩ := hs.replaced x (by rw [hx]; rfl)
      rw [Expr.subst, hr] at hp
      exact absurd hp (hn p)
  · exact absurd hp (subst_ne_name (fun y hy => he ⟨y, hy⟩) θ p)

theorem evalM_name_state {R : Reading} {n : Nat} {x : Name} {v : ν} {σ' : State ν μ}
    (h : P.evalM scope R n (.name x) σ = some (v, σ')) : σ' = σ := by
  have hmem : ∀ call r, P.evalWith scope R call (.name x) σ.env σ.memory = some r → r.2 = σ.memory := by
    intro call r hr
    unfold Python.evalWith at hr
    split at hr
    · cases hr
    · obtain ⟨w, -, rfl⟩ := ofOption_eq_some.mp hr
      rfl
  obtain ⟨r, hr, heq⟩ := Option.map_eq_some_iff.mp h
  cases heq
  rw [show r.2 = σ.memory from by cases n <;> exact hmem _ r hr]

theorem iterItems_eq {n : Nat} (h : Inv P scope off A θ T σ τ) {l : Bool} {e : Expr ν} {items : List (Const ν)}
    (hi : P.loopItems T (e.subst θ) = some items) {its : List (ν × Const ν)} {σ' : State ν μ}
    (hr : P.iterItems scope .watched n l e σ = some (its, σ')) : σ' = σ ∧ its.map (·.2) = items := by
  unfold Python.iterItems at hr
  obtain ⟨_, _, hget, hr₁⟩ := bind_eq_some.mp hr
  rw [get_eq_some] at hget
  cases hget
  rw [h.active] at hr₁
  cases ht : P.tupleParam A e with
  | some w =>
    obtain ⟨p, ty⟩ := w
    obtain ⟨rfl, hp, hty⟩ := tupleParam_eq_some ht
    simp only [ht] at hr₁
    rw [if_neg (ne_and (by decide))] at hr₁
    obtain ⟨v, σ₁, hv, hr₂⟩ := bind_eq_some.mp hr₁
    obtain ⟨vs, σ₂, hvs, hr₃⟩ := bind_eq_some.mp hr₂
    obtain ⟨_, σ₃, hg, hr₄⟩ := bind_eq_some.mp hr₃
    rw [pure_eq_some] at hr₄
    cases hr₄
    obtain ⟨_, -, heq⟩ := ofOption_eq_some.mp hvs
    cases heq
    unfold Python.guardWatched at hg
    split at hg
    · cases hg
    · next hlen =>
      cases hg
      have hlen := readOk_of_ne hlen
      simp only [decide_eq_true_eq] at hlen
      refine ⟨evalM_name_state hv, ?_⟩
      rw [Expr.subst, h.stands.other p hp] at hi
      simp only [Option.getD_none, Python.loopItems, hty, hlen, Option.some.injEq] at hi
      rw [← hi, List.map_map]
      apply List.ext_getElem
      · simp
      · intro i _ _
        simp
  | none =>
    simp only [ht] at hr₁
    obtain ⟨v, σ₁, hv, hr₂⟩ := bind_eq_some.mp hr₁
    obtain ⟨vs, σ₂, hvs, hr₃⟩ := bind_eq_some.mp hr₂
    rw [pure_eq_some] at hr₃
    cases hr₃
    obtain ⟨_, hitems, heq⟩ := ofOption_eq_some.mp hvs
    cases heq
    rw [loopItems_of_not_param (tupleParam_eq_none h.stands ht)] at hi
    obtain ⟨c, hc, hi⟩ := Option.bind_eq_some_iff.mp hi
    obtain ⟨⟨w, m⟩, hx, heq⟩ := Option.map_eq_some_iff.mp hv
    cases heq
    obtain ⟨rfl, hm⟩ := eval_consteval n h.env hx hc
    simp only [Python.constItems, hitems, Option.map_some, Option.some.injEq] at hi
    refine ⟨by rw [hm], ?_⟩
    rw [← hi, List.map_map]
    rfl

end NumbaCudaMlir.Consteval

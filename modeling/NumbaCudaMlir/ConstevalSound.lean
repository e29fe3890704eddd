import NumbaCudaMlir.UnrollSim

/-!
# Soundness of the rewriting

`exec_rewritten`: what a watched run of a statement returns, the rewritten
statement returns. `transform_preserves` is the case of a whole body,
`unrolled_loop_preserves` that of one unrolled loop.
-/

namespace NumbaCudaMlir.Consteval

open Partial

variable {ν μ : Type} [DecidableEq ν] {P : Python ν μ} {scope scope' : Name → Bool}
  {A : Name → Option (Const ν)} {θ : Subst ν} {T : Table ν}

theorem scoped_process {s : Stmt ν} {r : Stmt ν × Table ν} (hT : Scoped T scope) (h : P.process s θ T = some r)
    (hs : ∀ y ∈ s.assigned, scope y = true) : Scoped r.2 scope := by
  intro y c hy
  by_cases ht : y ∈ s.tracked
  · exact hs y (tracked_subset ht)
  · rw [process_get h y ht] at hy
    exact hT y c hy

/-! ## Assignments -/

theorem assign_consteval_sim {n : Nat} {x : Name} (hx : scope x = true) {l : Bool} {arg : Expr ν}
    {c : Const ν} (hc : P.evalConst T (arg.subst θ) = some c) :
    Sim (Inv P scope [] A θ T) (P.exec scope .watched n (.assign (.name x) (.consteval l arg)))
      (P.exec scope' .library n (.assign (.name x) c.toExpr)) (Post P scope A θ (P.track T x c)) := by
  apply Sim.bind (Q := fun v σ τ => c = .val v ∧ Inv P scope [] A θ T σ τ)
  · intro σ τ h v σ' hr
    obtain ⟨⟨w, m⟩, hx, heq⟩ := Option.map_eq_some_iff.mp hr
    cases heq
    obtain ⟨rfl, hm⟩ := eval_consteval n h.env hx hc
    exact ⟨τ, evalM_const _, rfl, by rw [hm]; exact h⟩
  · intro v
    apply Sim.of_and; rintro rfl
    apply Sim.bind (Q := fun _ σ τ => Inv P scope [] A θ T σ τ ∧ σ.frame x = some v)
    · apply Sim.bind (Q := fun bs σ τ => bs = Dict.empty.set x v ∧ Inv P scope [] A θ T σ τ)
      · apply Sim.ofOption
        intro bs σ τ hb h
        cases hb
        exact ⟨rfl, h⟩
      · intro bs
        apply Sim.of_and; rintro rfl
        apply Sim.modify
        intro σ τ h
        refine ⟨h.store _, ?_⟩
        show ((Dict.empty.set x v).get x).or (σ.frame x) = some v
        rw [Dict.get_set_self]; rfl
    · intro _
      apply Sim.bind (Q := fun _ => Inv P scope [] A θ (P.track T x (.val v)))
      · apply Sim.modify
        rintro σ τ ⟨h, hf⟩
        have hr : P.learn (.name x) (Const.val v).toExpr v τ = τ := by simp [Python.learn, Const.toExpr, Expr.constevalCall]
        rw [hr]
        simp only [Python.learn, Python.track, Expr.constevalCall, Option.isSome_some, true_and]
        by_cases hv : v = P.none
        · rw [if_pos hv, if_neg (not_not.mpr hv)]; exact h
        · rw [if_neg hv, if_pos hv]; exact h.know hf hx
      · intro _; exact Sim.pure fun _ _ h => h

theorem assign_sim (hsc : ∀ x, scope' x = true → scope x = true) {n : Nat} {t : Target} {e e' : Expr ν}
    (he : Rewritten P true θ T e e') (ht : tracks t e = false) :
    Sim (Inv P scope [] A θ T) (P.exec scope .watched n (.assign t e)) (P.exec scope' .library n (.assign t e'))
      (Post P scope A θ T) := by
  apply Sim.bind (evalM_sim hsc (fun _ _ h => h) (fun _ _ m h => h.withMemory m) he); intro v
  apply Sim.bind (bindTo_sim t v); intro _
  apply Sim.bind (Q := fun _ => Inv P scope [] A θ T)
  · apply Sim.modify
    intro σ τ h
    have hl : P.learn t e v σ = σ := by
      unfold Python.learn
      cases t with
      | name x =>
        have hnone : e.constevalCall = none := by
          cases hc : e.constevalCall with
          | none => rfl
          | some a => simp [tracks, hc] at ht
        simp [hnone]
      | _ => rfl
    rw [hl]
    apply h.of_right <;> (unfold Python.learn; split <;> (try split) <;> rfl)
  · intro _; exact Sim.pure fun _ _ h => h

/-! ## Unrolled loops -/

theorem copySim_of_process {n : Nat} {t : Target} {a : Stmt ν} (hs : Stands θ A) (hT : Scoped T scope)
    (ht : ∀ y ∈ t.names, A y = none ∧ scope y = true) (ha : ∀ y ∈ a.assigned, scope y = true)
    (hst : ∀ y ∈ a.stores, A y = none) (hcontrol : a.loopControl = false) (hdisj : ∀ y ∈ t.names, y ∉ a.stores)
    (ih : ∀ {A : Name → Option (Const ν)} {θ : Subst ν} {T : Table ν} {r : Stmt ν × Table ν},
      P.process a θ T = some r → Stands θ A → Scoped T scope → (∀ y ∈ a.assigned, scope y = true) →
      (∀ y ∈ a.stores, A y = none) →
      Sim (Inv P scope [] A θ T) (P.exec scope .watched n a) (P.exec scope' .library n r.1) (Post P scope A θ r.2))
    (c : Const ν) (s : Stmt ν × Table ν)
    (h : (do
      let bs ← bindTarget P.constItems t c
      let s ← P.process a (θ.comp (.ofTable bs)) (T.update bs)
      some (s.1, bs)) = some s) :
    bindTarget P.constItems t c = some s.2 ∧
      CopySim P scope n scope' (P.exec scope .watched n a) a.tracked A θ T s.1 s.2 := by
  simp only [Option.bind_eq_bind, Option.bind_eq_some_iff, Option.some.injEq] at h
  obtain ⟨bs, hbs, s', hs', rfl⟩ := h
  have hkeys := bindTarget_keys t hbs
  refine ⟨hbs, s'.2, process_get hs', ?_⟩
  apply Sim.and_left
  · apply ih hs'
    · exact hs.comp bs fun y hy => (ht y ((hkeys y).mp hy)).1
    · exact scoped_update hT fun y hy => (ht y ((hkeys y).mp hy)).2
    · exact ha
    · intro y hy
      have hnone : bs.get y = none := by
        rw [← Option.not_isSome_iff_eq_none, hkeys y]
        exact fun hyt => hdisj y hyt hy
      unfold copyActive
      rw [hnone, hst y hy]; rfl
  · exact exec_loops hcontrol

theorem constFor_sim (hsc : ∀ x, scope' x = true → scope x = true) {n : Nat} {t : Target} {l : Bool}
    {arg : Expr ν} {a b : Stmt ν} {r : Stmt ν × Table ν} (u : Unrolled P t arg a b θ T r) (hs : Stands θ A)
    (hT : Scoped T scope) (ht : ∀ y ∈ t.names, A y = none ∧ scope y = true)
    (hcopy : ∀ c s, (do
      let bs ← bindTarget P.constItems t c
      let s ← P.process a (θ.comp (.ofTable bs)) (T.update bs)
      some (s.1, bs)) = some s → bindTarget P.constItems t c = some s.2 ∧
        CopySim P scope n scope' (P.exec scope .watched n a) a.tracked A θ T s.1 s.2)
    (horelse : Sim (Inv P scope [] A θ (T.update u.copies.2)) (P.exec scope .watched n b)
      (P.exec scope' .library n u.rest.1) (Post P scope A θ u.rest.2)) :
    Sim (Inv P scope [] A θ T) (P.exec scope .watched n (.forIn t (.consteval l arg) a b))
      (P.exec scope' .library n r.1) (Post P scope A θ r.2) := by
  rw [u.result]
  apply Sim.left (Q := fun its σ τ => its.map (·.2) = u.items ∧ Inv P scope [] A θ T σ τ)
  · intro σ τ hσ its σ' hr
    obtain ⟨rfl, hits⟩ := iterItems_eq hσ u.items_eq hr
    exact ⟨hits, hσ⟩
  intro its
  apply Sim.of_and; intro hits
  apply Sim.left (Q := fun σ₀ σ τ => σ₀.active = A ∧ Inv P scope [] A θ T σ τ)
  · intro σ τ hσ σ₀ σ' hg
    rw [get_eq_some] at hg
    cases hg
    exact ⟨hσ.active, hσ⟩
  intro σ₀
  apply Sim.of_and; intro hactive
  rw [hactive]
  have hloop := constLoop_sim hs hT ht hcopy its (by simp) (hits ▸ u.copies_eq)
  apply Sim.bind (hloop.pre fun σ τ h => ⟨h, by simp⟩); intro o
  cases o with
  | brk | cont => exact fun _ _ h => h.elim
  | normal =>
    apply Sim.right .normal (M := Inv P scope [] A θ (T.update u.copies.2))
    · intro σ τ h
      exact assignAll_settles hsc (fun y hy => (ht y (u.last_keys hy)).2) u.last_consts h
    · exact horelse
  | ret v =>
    apply Sim.right ⟨⟩ (M := fun σ τ => τ.memory = σ.memory)
    · exact fun σ τ h => ⟨_, rfl, h⟩
    · exact Sim.pure fun _ _ h => h

/-! ## Statements -/

theorem exec_rewritten (hsc : ∀ x, scope' x = true → scope x = true) (n : Nat) : ∀ {s : Stmt ν}
    {A : Name → Option (Const ν)} {θ : Subst ν} {T : Table ν} {r : Stmt ν × Table ν}, P.process s θ T = some r →
    Stands θ A → Scoped T scope → (∀ y ∈ s.assigned, scope y = true) → (∀ y ∈ s.stores, A y = none) →
    Sim (Inv P scope [] A θ T) (P.exec scope .watched n s) (P.exec scope' .library n r.1) (Post P scope A θ r.2) := by
  have hR : ∀ {A : Name → Option (Const ν)} {θ : Subst ν} {T : Table ν} (σ τ : State ν μ),
      Inv P scope [] A θ T σ τ → Inv P scope [] A θ T σ τ := fun _ _ h => h
  have hm : ∀ {A : Name → Option (Const ν)} {θ : Subst ν} {T : Table ν} (σ τ : State ν μ) (m : μ),
      Inv P scope [] A θ T σ τ → Inv P scope [] A θ T { σ with memory := m } { τ with memory := m } :=
    fun _ _ m h => h.withMemory m
  intro s
  induction s with
  | skip =>
    intro A θ T r h _ _ _ _
    cases h
    exact Sim.pure fun _ _ h => h
  | seq a b iha ihb =>
    intro A θ T r h hs hT ha hst
    cases process_cases h with
    | @seq _ _ ra rb hra hrb =>
      simp only [Stmt.assigned, Stmt.stores, List.mem_append] at ha hst
      have hTa := scoped_process hT hra fun y hy => ha y (.inl hy)
      have hTb := scoped_process hTa hrb fun y hy => ha y (.inr hy)
      apply Sim.bind (iha hra hs hT (fun y hy => ha y (.inl hy)) fun y hy => hst y (.inl hy)); intro o
      cases o with
      | normal => exact ihb hrb hs hTa (fun y hy => ha y (.inr hy)) fun y hy => hst y (.inr hy)
      | brk | cont =>
        apply Sim.bind (Q := fun _ => Inv P scope [] A θ rb.2)
        · exact Sim.modify fun _ _ h => (h.drop (process_get hrb) hTb).of_right rfl rfl rfl
        · intro _; exact Sim.pure fun _ _ h => h
      | ret v =>
        apply Sim.bind (Q := fun _ σ τ => τ.memory = σ.memory)
        · exact Sim.modify fun _ _ h => h
        · intro _; exact Sim.pure fun _ _ h => h
  | assign t e =>
    intro A θ T r h hs hT ha hst
    cases process_cases h with
    | known hc => exact assign_consteval_sim (ha _ (by simp [Stmt.assigned, Target.names])) hc
    | assign ht he => exact assign_sim hsc (rewritten_visit hs.plain he) ht
  | setitem a i e =>
    intro A θ T r h hs _ _ _
    cases process_cases h with
    | setitem ha' hi' he' =>
      apply Sim.bind (evalM_sim hsc hR hm (rewritten_visit hs.plain he')); intro v
      apply Sim.bind (evalM_sim hsc hR hm (rewritten_visit hs.plain ha')); intro a
      apply Sim.bind (evalM_sim hsc hR hm (rewritten_visit hs.plain hi')); intro i
      apply Sim.bind (onMemory_sim (fun _ _ h => h.memory) hm _); intro _
      exact Sim.pure fun _ _ h => h
  | expr e =>
    intro A θ T r h hs _ _ _
    cases process_cases h with
    | expr he' =>
      apply Sim.bind (evalM_sim hsc hR hm (rewritten_visit hs.plain he')); intro _
      exact Sim.pure fun _ _ h => h
  | ret e =>
    intro A θ T r h hs _ _ _
    cases process_cases h with
    | ret he' =>
      apply Sim.bind (evalM_sim hsc hR hm (rewritten_visit hs.plain he')); intro v
      exact Sim.pure fun _ _ h => h.memory
  | ite c a b iha ihb =>
    intro A θ T r h hs hT ha hst
    cases process_cases h with
    | @ite _ c' _ _ ra rb hc' hra hrb =>
      simp only [Stmt.assigned, Stmt.stores, List.mem_append] at ha hst
      have hTa := scoped_process hT hra fun y hy => ha y (.inl hy)
      have hTb := scoped_process hTa hrb fun y hy => ha y (.inr hy)
      apply Sim.bind (evalTest_sim hsc hR hm (rewritten_visit hs.plain hc')); intro b'
      cases b' with
      | true =>
        apply Sim.bind (iha hra hs hT (fun y hy => ha y (.inl hy)) fun y hy => hst y (.inr (.inl hy))); intro o
        apply Sim.bind (Q := fun _ => Post P scope A θ rb.2 o)
        · apply Sim.modify
          intro σ τ h
          cases o with
          | ret v => exact h
          | _ => exact (Inv.drop h (process_get hrb) hTb).of_right rfl rfl rfl
        · intro _; exact Sim.pure fun _ _ h => h
      | false =>
        apply Sim.bind (Q := fun _ => Inv P scope [] A θ ra.2)
        · exact Sim.modify fun _ _ h => (h.drop (process_get hra) hTa).of_right rfl rfl rfl
        · intro _
          exact ihb hrb hs hTa (fun y hy => ha y (.inr hy)) fun y hy => hst y (.inr (.inr hy))
  | «while» c a b iha ihb =>
    intro A θ T r h hs hT ha hst
    cases process_cases h with
    | @«while» _ c' _ _ ra rb hc' hra hrb =>
      simp only [Stmt.assigned, Stmt.stores, List.mem_append] at ha hst
      have hTa := scoped_process hT hra fun y hy => ha y (.inl hy)
      have hTb := scoped_process hTa hrb fun y hy => ha y (.inr hy)
      have hbody := iha hra hs hT (fun y hy => ha y (.inl hy)) fun y hy => hst y (.inr (.inl hy))
      have horelse := ihb hrb hs hTa (fun y hy => ha y (.inr hy)) fun y hy => hst y (.inr (.inr hy))
      apply Sim.get; intro σ τ hσ
      apply Sim.bind (Q := Post P scope A θ ra.2)
      · refine Sim.pre (whileLoop_sim (process_get hra) hT hTa ?_ hbody n _ _) ?_
        · intro out
          exact evalTest_sim hsc (fun _ _ h => h.1) (fun _ _ m h => ⟨h.1.withMemory m, h.2⟩)
            (rewritten_visit hs.plain hc')
        · rintro _ _ ⟨rfl, rfl⟩
          exact ⟨hσ, (hσ.drop (process_get hra) hTa).known⟩
      · intro o
        exact elseClause_sim hTb (process_get hrb) horelse o
  | forIn t e a b iha ihb =>
    intro A θ T r h hs hT ha hst
    simp only [Stmt.assigned, Stmt.stores, List.mem_append] at ha hst
    have hsa : ∀ y ∈ a.stores, A y = none := fun y hy => hst y (.inr (.inr (.inl hy)))
    have hsb : ∀ y ∈ b.stores, A y = none := fun y hy => hst y (.inr (.inr (.inr hy)))
    cases process_cases h with
    | @forIn _ _ e' _ _ ra rb he he' hra hrb =>
      have hTa := scoped_process hT hra fun y hy => ha y (.inr (.inl hy))
      have hTb := scoped_process hTa hrb fun y hy => ha y (.inr (.inr hy))
      have hbody := iha hra hs hT (fun y hy => ha y (.inr (.inl hy))) hsa
      have horelse := ihb hrb hs hTa (fun y hy => ha y (.inr (.inr hy))) hsb
      have hnone := visit_constevalCall he'
      simp only [Python.exec, he, hnone]
      apply Sim.bind (evalM_sim hsc hR hm (rewritten_visit hs.plain he')); intro v
      apply Sim.bind (Sim.ofOption fun _ _ _ _ h => h); intro vs
      apply Sim.get; intro σ τ hσ
      apply Sim.bind (Q := Post P scope A θ ra.2)
      · refine Sim.pre (forLoop_sim (process_get hra) hT hTa ?_ vs _ _) ?_
        · intro w
          apply Sim.bind (bindTo_sim t w); intro _
          exact hbody
        · rintro _ _ ⟨rfl, rfl⟩
          exact ⟨hσ, (hσ.drop (process_get hra) hTa).known⟩
      · intro o
        exact elseClause_sim hTb (process_get hrb) horelse o
    | unrolled u =>
      have ht : ∀ y ∈ t.names, A y = none ∧ scope y = true := fun y hy => ⟨hst y (.inl hy), ha y (.inl hy)⟩
      have hTl := scoped_update hT fun y hy => (ht y (u.last_keys hy)).2
      apply constFor_sim hsc u hs hT ht
      · exact copySim_of_process hs hT ht (fun y hy => ha y (.inr (.inl hy))) hsa u.control u.stores iha
      · exact ihb u.rest_eq hs hTl (fun y hy => ha y (.inr (.inr hy))) hsb
  | withItem f e x a iha =>
    intro A θ T r h hs hT ha hst
    cases process_cases h with
    | withItem hra =>
      simp only [Stmt.assigned, Stmt.stores, List.mem_append] at ha hst
      apply Sim.bind (guard_sim _ _); intro _
      refine Sim.pre (Sim.of_and (p := e.marked = false) (R := Inv P scope [] A θ T) ?_) fun σ τ h =>
        ⟨by simpa using h.2, h.1⟩
      intro hmark
      have hv := visit_of_unmarked P T (subst_marked hs.plain hmark)
      apply Sim.bind (evalM_sim hsc hR hm (rewritten_visit hs.plain hv)); intro v
      apply Sim.bind (onMemory_sim (fun _ _ h => h.memory) hm _); intro w
      apply Sim.bind (bindAs_sim x w); intro _
      apply Sim.bind (iha hra hs hT (fun y hy => ha y (.inr hy)) fun y hy => hst y (.inr (.inr hy))); intro o
      apply Sim.bind (onMemory_sim (fun _ _ h => h.memory) (fun _ _ m h => h.withMemory m) _); intro _
      exact Sim.pure fun _ _ h => h
  | bindFn d f x e =>
    intro A θ T r h hs _ _ _
    cases process_cases h with
    | bindFn he' =>
      apply Sim.bind (guard_sim _ _); intro _
      apply Sim.bind (Q := fun _ => Inv P scope [] A θ T)
      · apply Sim.modify
        rintro σ τ ⟨h, hf⟩
        rw [h.active] at hf
        exact h.define (Option.isNone_iff_eq_none.mp hf) x (rewritten_visit hs.plain he')
      · intro _; exact Sim.pure fun _ _ h => h
  | «break» | «continue» =>
    intro A θ T r h _ _ _ _
    cases h
    exact Sim.pure fun _ _ h => h

/-! ## Bodies -/

variable (P scope)

/-- Between two statements of a body and of the rewritten body. -/
structure Agree (T : Table ν) (σ τ : State ν μ) : Prop where
  memory : τ.memory = σ.memory
  frame : τ.frame = σ.frame
  late : σ.late = σ.frame
  active : σ.active = fun _ => none
  known : Known T σ.seen σ.frame
  inScope : Scoped T scope
  funcs : FuncsSim P scope σ.funcs τ.funcs

variable {P scope}

omit [DecidableEq ν] in
theorem stands_nothing : Stands (fun _ => none : Subst ν) fun _ => none :=
  ⟨fun _ _ => rfl, by simp, by simp, by simp, by simp⟩

omit [DecidableEq ν] in
theorem Agree.inv {σ τ : State ν μ} (h : Agree P scope T σ τ) :
    Inv P scope [] (fun _ => none) (fun _ => none) T σ τ :=
  ⟨h.active, h.memory, h.frame.trans h.late.symm, stands_nothing, h.known, h.inScope, h.funcs, by simp,
    fun y _ _ => congrFun h.late y⟩

omit [DecidableEq ν] in
theorem Inv.agree {σ τ : State ν μ} (h : Inv P scope [] (fun _ => none) (fun _ => none) T σ τ) :
    Agree P scope T σ τ := by
  have hlate : σ.late = σ.frame := funext fun y => h.sync y rfl (by simp)
  exact ⟨h.memory, h.frame.trans hlate, hlate, h.active, h.known, h.inScope, h.funcs⟩

theorem exec_agree (hsc : ∀ x, scope' x = true → scope x = true) (n : Nat) {s : Stmt ν} {r : Stmt ν × Table ν}
    (h : P.process s (fun _ => none) T = some r) (hs : ∀ y ∈ s.assigned, scope y = true) {σ τ : State ν μ}
    (hσ : Agree P scope T σ τ) {o : Outcome ν} {σ' : State ν μ} (hr : P.exec scope .watched n s σ = some (o, σ')) :
    P.exec scope .identity n s σ = some (o, σ') ∧ ∃ τ', P.exec scope' .library n r.1 τ = some (o, τ') ∧
      τ'.memory = σ'.memory ∧ ((∀ v, o ≠ .ret v) → Agree P scope r.2 σ' τ') := by
  refine ⟨exec_watched P scope n s _ _ hr, ?_⟩
  obtain ⟨τ', hτ, hpost⟩ :=
    exec_rewritten hsc n h stands_nothing hσ.inScope hs (fun _ _ => rfl) σ τ hσ.inv o σ' hr
  refine ⟨τ', hτ, hpost.memory, ?_⟩
  intro ho
  cases o with
  | ret v => exact absurd rfl (ho v)
  | _ => exact Inv.agree hpost

omit [DecidableEq ν] in
theorem start_agree (args : Frame ν) (m : μ) : Agree P scope Dict.empty (P.start args m) (P.start args m) :=
  ⟨rfl, rfl, rfl, rfl, (by intro x hx; cases hx), (by intro x c hx; cases hx), by intro f clo hf; cases hf⟩

/-- What a watched run of a body returns, the rewritten body returns too, with
the same memory and, unless it returns early, the same locals. -/
theorem transform_preserves (n : Nat) {body body' : Stmt ν} (h : P.transform body = some body') {args : Frame ν}
    {m : μ} {o : Outcome ν} {σ : State ν μ} (hr : P.run .watched n body args m = some (o, σ)) :
    P.run .identity n body args m = some (o, σ) ∧ ∃ τ, P.run .library n body' args m = some (o, τ) ∧
      τ.memory = σ.memory ∧ ((∀ v, o ≠ .ret v) → τ.frame = σ.frame) := by
  obtain ⟨r, hp, rfl⟩ := Option.map_eq_some_iff.mp h
  have hsc : ∀ x, P.locals r.1 x = true → P.locals body x = true := by
    intro x hx
    simp only [Python.locals, Bool.or_eq_true, List.contains_eq_mem, decide_eq_true_eq] at hx ⊢
    exact hx.imp id (process_assigned hp x)
  have hs : ∀ y ∈ body.assigned, P.locals body y = true := by
    intro y hy
    simp only [Python.locals, Bool.or_eq_true, List.contains_eq_mem, decide_eq_true_eq]
    exact .inr hy
  obtain ⟨hid, τ, hτ, hm, hagree⟩ := exec_agree hsc n hp hs (start_agree args m) hr
  exact ⟨hid, τ, hτ, hm, fun ho => (hagree ho).frame⟩

section Runs

inductive Num where
  | none
  | int (n : Int)
  | tuple (ns : List Int)
  deriving DecidableEq

/-- The memory is one array element; `p` is a parameter of two numbers. -/
def num : Python Num Num where
  none := .none
  truth v := match v with
    | .int n => some (n ≠ 0)
    | _ => .none
  list _ := .none
  items v := match v with
    | .tuple ns => some (ns.map .int)
    | _ => .none
  unary _ _ := .none
  binary f v w := match f, v, w with
    | "+", .int m, .int n => some (.int (m + n))
    | _, _, _ => .none
  prim _ _ _ := .none
  setitem _ _ v _ := some v
  enter _ v m := some (v, m)
  leave _ _ m := some m
  globals _ := .none
  params x := if x = "p" then some (.tuple 2) else if x = "c" ∨ x = "arr" then some .other else .none
  typeOf _ := .none
  node _ _ := .none

def arguments : Frame Num := fun x => some (if x = "p" then .tuple [5, 6] else .int 1)

def store (e : Expr Num) : Stmt Num := .setitem (.name "arr") (.const (.int 0)) e

/-- `for v in consteval(p): f = lambda z: z + v; y = f(5)`, then
`for w in consteval((1, 2)): y = y + consteval(w)`, then `arr[0] = y + consteval(w) + v`. -/
def sums : Stmt Num :=
  .seq (.forIn (.name "v") (.consteval false (.name "p"))
    (.seq (.bindFn false "f" "z" (.binary "+" (.name "z") (.name "v"))) (.assign (.name "y") (.call "f" (.const (.int 5)))))
    .skip)
  (.seq (.forIn (.name "w") (.consteval false (.const (.tuple [1, 2])))
    (.assign (.name "y") (.binary "+" (.name "y") (.consteval false (.name "w")))) .skip)
  (store (.binary "+" (.name "y") (.binary "+" (.consteval false (.name "w")) (.name "v")))))

theorem transform_preserves_sums : ∃ body τ, num.transform sums = some body ∧
    num.run .library 1 body arguments .none = some (.normal, τ) ∧ τ.memory = .int 22 := by
  obtain ⟨body, hb⟩ := Option.isSome_iff_exists.mp (by decide : (num.transform sums).isSome = true)
  have hrun : (num.run .watched 1 sums arguments .none).map (fun r => (r.1, r.2.memory)) =
      some (.normal, .int 22) := by decide +kernel
  obtain ⟨⟨o, σ⟩, hσ, ho⟩ := Option.map_eq_some_iff.mp hrun
  obtain ⟨rfl, hmem⟩ := Prod.mk.inj ho
  obtain ⟨-, τ, hτ, hm, -⟩ := transform_preserves 1 hb hσ
  exact ⟨body, τ, hb, hτ, hm.trans hmem⟩

/-- `if c: a = consteval(1)`, `else: a = consteval(2)`, then `arr[0] = consteval(a)`. -/
def branches : Stmt Num :=
  .seq (.ite (.name "c") (.assign (.name "a") (.consteval false (.const (.int 1))))
    (.assign (.name "a") (.consteval false (.const (.int 2)))))
  (store (.consteval false (.name "a")))

theorem branch_constant_overwritten :
    (num.run .identity 1 branches arguments .none).map (·.2.memory) = some (.int 1) ∧
    ((num.transform branches).bind fun body => (num.run .library 1 body arguments .none).map (·.2.memory)) =
      some (.int 2) := by decide

end Runs

/-- What a watched run of a loop over `consteval(e)` returns, the unrolled loop
returns too, from any states that agree, and the states after agree. -/
theorem unrolled_loop_preserves (hsc : ∀ x, scope' x = true → scope x = true) (n : Nat) {t : Target}
    {literally : Bool} {e : Expr ν} {body orelse : Stmt ν} {r : Stmt ν × Table ν}
    (h : P.process (.forIn t (.consteval literally e) body orelse) (fun _ => none) T = some r)
    (hs : ∀ y ∈ (Stmt.forIn t (.consteval literally e) body orelse).assigned, scope y = true) {σ τ : State ν μ}
    (hσ : Agree P scope T σ τ) {o : Outcome ν} {σ' : State ν μ}
    (hr : P.exec scope .watched n (.forIn t (.consteval literally e) body orelse) σ = some (o, σ')) :
    P.exec scope .identity n (.forIn t (.consteval literally e) body orelse) σ = some (o, σ') ∧
      ∃ τ', P.exec scope' .library n r.1 τ = some (o, τ') ∧ τ'.memory = σ'.memory ∧
        ((∀ v, o ≠ .ret v) → Agree P scope r.2 σ' τ') :=
  exec_agree hsc n h hs hσ hr

/-- `for v in consteval(p): arr[0] = v + consteval(1)`. -/
def elements : Stmt Num :=
  .forIn (.name "v") (.consteval false (.name "p")) (store (.binary "+" (.name "v") (.consteval false (.const (.int 1))))) .skip

theorem unrolled_loop_preserves_elements : ∃ r τ, num.process elements (fun _ => none) Dict.empty = some r ∧
    num.exec (num.locals r.1) .library 1 r.1 (num.start arguments .none) = some (.normal, τ) ∧ τ.memory = .int 7 := by
  obtain ⟨r, hp⟩ := Option.isSome_iff_exists.mp
    (by decide : (num.process elements (fun _ => none) Dict.empty).isSome = true)
  have hrun : (num.exec (fun _ => true) .watched 1 elements (num.start arguments .none)).map
      (fun r => (r.1, r.2.memory)) = some (.normal, .int 7) := by decide +kernel
  obtain ⟨⟨o, σ⟩, hσ, ho⟩ := Option.map_eq_some_iff.mp hrun
  obtain ⟨rfl, hmem⟩ := Prod.mk.inj ho
  have hstart : Agree num (fun _ => true) Dict.empty (num.start arguments .none) (num.start arguments .none) :=
    start_agree arguments Num.none
  have hloop := @unrolled_loop_preserves Num Num _ num (fun _ => true) (num.locals r.1) Dict.empty (fun _ _ => rfl) 1
    _ _ _ _ _ r hp (fun _ _ => rfl) _ _ hstart _ _ hσ
  obtain ⟨-, τ, hτ, hm, -⟩ := hloop
  exact ⟨r, τ, hp, hτ, hm.trans hmem⟩

/-- `a = consteval(10)`, then `for v in consteval((1, 2)): arr[0] = consteval(a); a = consteval(20)`. -/
def carried : Stmt Num :=
  .seq (.assign (.name "a") (.consteval false (.const (.int 10))))
  (.forIn (.name "v") (.consteval false (.const (.tuple [1, 2])))
    (.seq (store (.consteval false (.name "a"))) (.assign (.name "a") (.consteval false (.const (.int 20))))) .skip)

/-- `for v in consteval((1, 2)): arr[0] = (lambda v: v)(5)`. -/
def shadowed : Stmt Num :=
  .forIn (.name "v") (.consteval false (.const (.tuple [1, 2]))) (store (.app "v" (.name "v") (.const (.int 5)))) .skip

/-- A constant that one copy assigns is forgotten in the next one, and the
parameter of a lambda is replaced in its body. -/
theorem unrolled_loop_differs :
    (num.run .identity 1 carried arguments .none).map (·.2.memory) = some (.int 20) ∧
    ((num.transform carried).bind fun body => (num.run .library 1 body arguments .none).map (·.2.memory)) =
      some (.int 10) ∧
    (num.run .identity 1 shadowed arguments .none).map (·.2.memory) = some (.int 5) ∧
    ((num.transform shadowed).bind fun body => (num.run .library 1 body arguments .none).map (·.2.memory)) =
      some (.int 2) :=
  ⟨by decide +kernel, by decide +kernel, by decide +kernel, by decide +kernel⟩

end NumbaCudaMlir.Consteval

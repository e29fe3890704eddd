import NumbaCudaMlir.ConstevalBlocks

/-!
# Blocks run like one namespace

A block agrees with the plain run as long as no operation of it finds a name out of date
in the globals, and nested blocks bind new names only.
-/

namespace NumbaCudaMlir.ConstevalBlocks

open Runs

section
variable {ν σ : Type}

/-! ## Scopes -/

theorem Scope.update_some {a b : Scope ν} {x : Name} {v : ν} (h : b x = some v) : a.update b x = some v := by
  rw [Scope.update, h, Option.some_or]

theorem Scope.update_none {a b : Scope ν} {x : Name} (h : b x = none) : a.update b x = a x := by
  rw [Scope.update, h, Option.none_or]

theorem Context.visible_reserved (ctx : Context ν) {x : Name} (h : x ∈ ctx.reserved) (a b : Scope ν) : ctx.visible a x = ctx.visible b x := by
  unfold Context.visible Scope.update
  rcases h with h | h | h
  · obtain ⟨v, hv⟩ := Option.isSome_iff_exists.mp h
    simp only [hv, Option.some_or]
  · obtain ⟨v, hv⟩ := Option.isSome_iff_exists.mp h
    simp only [hv, Option.some_or]
  · obtain ⟨v, hv⟩ := Option.isSome_iff_exists.mp h
    simp only [hv, Option.some_or]

theorem Context.visible_of_not_reserved (ctx : Context ν) {x : Name} (h : x ∉ ctx.reserved) (a : Scope ν) :
    ctx.visible a x = (a x).or (ctx.base x) := by
  have hnone : ctx.targetOptions x = none ∧ ctx.paramTypeMap x = none ∧ ctx.storedValues x = none := by
    refine ⟨?_, ?_, ?_⟩ <;> refine Option.not_isSome_iff_eq_none.mp fun hs => h ?_
    · exact .inl hs
    · exact .inr (.inl hs)
    · exact .inr (.inr hs)
  simp only [Context.visible, Scope.update, hnone, Option.none_or]

theorem Context.visible_update (ctx : Context ν) (a : Scope ν) {b : Scope ν} (h : ∀ x v, b x = some v → x ∉ ctx.reserved) :
    ctx.visible (a.update b) = (ctx.visible a).update b := by
  funext x
  cases hb : b x with
  | none =>
    rw [Scope.update_none hb]
    unfold Context.visible
    simp only [Scope.update, hb, Option.none_or]
  | some v => rw [Scope.update_some hb, ctx.visible_of_not_reserved (h x v hb), Scope.update_some hb, Option.some_or]

theorem Context.visible_visible (ctx : Context ν) (a : Scope ν) : ctx.visible (ctx.visible a) = ctx.visible a := by
  funext x
  by_cases h : x ∈ ctx.reserved
  · exact ctx.visible_reserved h _ _
  · rw [ctx.visible_of_not_reserved h, ctx.visible_of_not_reserved h, Option.or_assoc, Option.or_self]

/-! ## The invariant -/

/-- In a statement of a block: what the globals and locals have to do with the plain run. -/
structure Mid (ctx : Context ν) (bd : Bounds ν) (s : World ν σ) (locals : Scope ν) (w : Watch ν σ) : Prop where
  heap : s.heap = w.plain.heap
  blocks : s.blocks = w.blocks
  block_lt : bd.block < s.blocks
  fresh : ∀ b < s.blocks, ∀ x ∉ w.stale b, s.globals b x = w.plain.names x
  bound : ∀ x v, locals x = some v → w.plain.names x = some v ∧ x ∉ bd.frozen ∧ x ∉ ctx.reserved
  rest : ∀ x, locals x = none → w.plain.names x = bd.start x
  seen : ∀ x, locals x = none → w.plain.names x ≠ none → x ∉ w.stale bd.block
  frozen : ∀ x ∈ bd.frozen, w.plain.names x = none → x ∈ w.stale bd.block
  closed : ctx.visible (s.globals bd.block) = s.globals bd.block

/-- Between the statements only deleted names are out of date. -/
structure Settled (ctx : Context ν) (bd : Bounds ν) (s : World ν σ) (locals : Scope ν) (w : Watch ν σ) : Prop extends Mid ctx bd s locals w where
  deleted : ∀ x ∈ w.stale bd.block, w.plain.names x = none

section
variable {ctx : Context ν} {bd : Bounds ν} {s : World ν σ} {locals : Scope ν} {w : Watch ν σ}

theorem Mid.lookup (h : Mid ctx bd s locals w) {x : Name} (hx : w.plain.names x = none → x ∉ w.stale bd.block) :
    (locals x).or (s.globals bd.block x) = w.plain.names x := by
  cases hl : locals x with
  | some v => rw [Option.some_or, (h.bound x v hl).1]
  | none =>
    rw [Option.none_or]
    refine h.fresh bd.block h.block_lt x ?_
    by_cases hn : w.plain.names x = none
    · exact hx hn
    · exact h.seen x hl hn

theorem Mid.store (h : Mid ctx bd s locals w) {x : Name} (hf : x ∉ bd.frozen) (hr : x ∉ ctx.reserved) (v : ν) :
    Mid ctx bd s (Function.update locals x (some v)) (w.set x (some v)) := by
  have hnames : ∀ y, y ≠ x → (w.set x (some v)).plain.names y = w.plain.names y := fun y hy => Function.update_of_ne hy ..
  have hself : (w.set x (some v)).plain.names x = some v := Function.update_self ..
  refine ⟨h.heap, h.blocks, h.block_lt, ?_, ?_, ?_, ?_, ?_, h.closed⟩
  · intro b hb y hy
    obtain ⟨hne, hy⟩ := not_or.mp hy
    rw [hnames y hne]
    exact h.fresh b hb y hy
  · intro y u hy
    by_cases hyx : y = x
    · subst hyx
      rw [Function.update_self] at hy
      exact ⟨hself.trans hy, hf, hr⟩
    · rw [Function.update_of_ne hyx] at hy
      rw [hnames y hyx]
      exact h.bound y u hy
  · intro y hy
    have hyx : y ≠ x := by
      rintro rfl
      rw [Function.update_self] at hy
      cases hy
    rw [Function.update_of_ne hyx] at hy
    rw [hnames y hyx]
    exact h.rest y hy
  · intro y hy hn
    have hyx : y ≠ x := by
      rintro rfl
      rw [Function.update_self] at hy
      cases hy
    rw [Function.update_of_ne hyx] at hy
    rw [hnames y hyx] at hn
    exact not_or.mpr ⟨hyx, h.seen y hy hn⟩
  · intro y hy hn
    have hyx : y ≠ x := fun heq => hf (heq ▸ hy)
    rw [hnames y hyx] at hn
    exact .inr (h.frozen y hy hn)

theorem Mid.delete (h : Mid ctx bd s locals w) {x : Name} (hx : bd.start x = none) (hf : x ∉ bd.frozen) :
    Mid ctx bd s (Function.update locals x none) (w.set x none) := by
  have hnames : ∀ y, y ≠ x → (w.set x none).plain.names y = w.plain.names y := fun y hy => Function.update_of_ne hy ..
  have hself : (w.set x none).plain.names x = none := Function.update_self ..
  refine ⟨h.heap, h.blocks, h.block_lt, ?_, ?_, ?_, ?_, ?_, h.closed⟩
  · intro b hb y hy
    obtain ⟨hne, hy⟩ := not_or.mp hy
    rw [hnames y hne]
    exact h.fresh b hb y hy
  · intro y u hy
    have hyx : y ≠ x := by
      rintro rfl
      rw [Function.update_self] at hy
      cases hy
    rw [Function.update_of_ne hyx] at hy
    rw [hnames y hyx]
    exact h.bound y u hy
  · intro y hy
    by_cases hyx : y = x
    · rw [hyx, hself, hx]
    · rw [Function.update_of_ne hyx] at hy
      rw [hnames y hyx]
      exact h.rest y hy
  · intro y hy hn
    have hyx : y ≠ x := by
      rintro rfl
      exact hn hself
    rw [Function.update_of_ne hyx] at hy
    rw [hnames y hyx] at hn
    exact not_or.mpr ⟨hyx, h.seen y hy hn⟩
  · intro y hy hn
    have hyx : y ≠ x := fun heq => hf (heq ▸ hy)
    rw [hnames y hyx] at hn
    exact .inr (h.frozen y hy hn)

theorem Mid.settle (h : Mid ctx bd s locals w) :
    Settled ctx bd (s.setGlobals bd.block ((s.globals bd.block).update locals)) locals (w.settle bd.block) := by
  have hstale : (w.settle bd.block).stale bd.block = { x ∈ w.stale bd.block | w.plain.names x = none } := setAt_self ..
  have hglobals : (s.setGlobals bd.block ((s.globals bd.block).update locals)).globals bd.block = (s.globals bd.block).update locals := setAt_self ..
  refine ⟨⟨h.heap, h.blocks, h.block_lt, ?_, h.bound, h.rest, ?_, ?_, ?_⟩, ?_⟩
  · intro b hb x hx
    by_cases hbd : b = bd.block
    · subst hbd
      rw [hstale] at hx
      rw [hglobals]
      refine h.lookup fun hn hm => hx ⟨hm, hn⟩
    · change x ∉ setAt w.stale bd.block _ b at hx
      change setAt s.globals bd.block _ b x = _
      rw [setAt_ne _ _ hbd] at hx ⊢
      exact h.fresh b hb x hx
  · intro x _ hn hm
    rw [hstale] at hm
    exact hn hm.2
  · intro x hx hn
    rw [hstale]
    exact ⟨h.frozen x hx hn, hn⟩
  · rw [hglobals, ctx.visible_update _ fun x v hv => (h.bound x v hv).2.2, h.closed]
  · intro x hx
    rw [hstale] at hx
    exact hx.2

end

/-! ## Statements -/

theorem Code.exec_follows {ctx : Context ν} {bd : Bounds ν} : ∀ {c : Code ν σ} {s : World ν σ} {locals : Scope ν} {w : Watch ν σ},
    Mid ctx bd s locals w → c.Meets ctx bd w → (c.watch w = none ∧ c.exec bd.block s locals = none) ∨
      ∃ w' s' locals', c.watch w = some w' ∧ c.exec bd.block s locals = some (s', locals') ∧ s'.globals = s.globals ∧
        s'.blocks = s.blocks ∧ Mid ctx bd s' locals' w' := by
  intro c
  induction c with
  | done => exact fun h _ => .inr ⟨_, _, _, rfl, rfl, rfl, rfl, h⟩
  | raise => exact fun _ _ => .inl ⟨rfl, rfl⟩
  | prim f k ih =>
    intro s locals w h hm
    rw [Code.exec, Code.watch, h.heap]
    exact ih _ ⟨rfl, h.blocks, h.block_lt, h.fresh, h.bound, h.rest, h.seen, h.frozen, h.closed⟩ hm
  | load x k ih =>
    intro s locals w h hm
    rw [Code.exec, Code.watch, h.lookup hm.1]
    exact ih _ h hm.2
  | store x v k ih =>
    intro s locals w h hm
    exact ih (h.store hm.1.1 hm.1.2 v) hm.2
  | delete x k ih =>
    intro s locals w h hm
    rw [Code.exec, Code.watch]
    rw [Code.Meets] at hm
    cases hn : w.plain.names x with
    | none =>
      rw [hn] at hm
      have hl : locals x = none := by
        cases hl : locals x with
        | none => rfl
        | some v =>
          rw [(h.bound x v hl).1] at hn
          cases hn
      rw [hl, if_neg nofun]
      exact ih _ h hm
    | some v =>
      rw [hn] at hm
      have hl : (locals x).isSome := by
        cases hl : locals x with
        | none =>
          rw [h.rest x hl, hm.1.1] at hn
          cases hn
        | some u => rfl
      rw [if_pos hl]
      exact ih _ (h.delete hm.1.1 hm.1.2) hm.2
  | loadGlobal b x k ih =>
    intro s locals w h hm
    rw [Code.exec, Code.watch, h.fresh b (h.blocks ▸ hm.1.1) x hm.1.2]
    exact ih _ h hm.2
  | storeGlobal | deleteGlobal => exact fun _ hm => hm.elim

/-! ## Blocks -/

section
variable {ctx : Context ν} {bd : Bounds ν} {s : World ν σ} {locals : Scope ν} {w : Watch ν σ}

theorem Settled.localConsts_eq (h : Settled ctx bd s locals w) : locals.update (s.globals bd.block) = s.globals bd.block := by
  funext x
  cases hg : s.globals bd.block x with
  | some v => exact Scope.update_some hg
  | none =>
    rw [Scope.update_none hg]
    cases hl : locals x with
    | none => rfl
    | some v =>
      have hn := (h.bound x v hl).1
      have hx : x ∉ w.stale bd.block := fun hm => nomatch (h.deleted x hm).symm.trans hn
      rw [h.fresh bd.block h.block_lt x hx, hn] at hg
      cases hg

theorem Settled.enter (h : Settled ctx bd s locals w) :
    Settled ctx (.nested w bd.block) (s.enter (ctx.visible (locals.update (s.globals bd.block)))) .empty (w.enter bd.block) := by
  rw [h.localConsts_eq, h.closed]
  have hstale : (w.enter bd.block).stale w.blocks = w.stale bd.block := setAt_self ..
  have hglobals : (s.enter (s.globals bd.block)).globals s.blocks = s.globals bd.block := setAt_self ..
  refine ⟨⟨h.heap, congrArg (· + 1) h.blocks, ?_, ?_, nofun, fun _ _ => rfl, ?_, ?_, ?_⟩, ?_⟩
  · rw [Bounds.nested, ← h.blocks]
    exact Nat.lt_succ_self _
  · intro b hb x hx
    by_cases hbd : b = s.blocks
    · rw [hbd, hglobals]
      rw [hbd, h.blocks, hstale] at hx
      exact h.fresh bd.block h.block_lt x hx
    · change x ∉ setAt w.stale w.blocks _ b at hx
      change setAt s.globals s.blocks _ b x = _
      rw [setAt_ne _ _ (h.blocks ▸ hbd)] at hx
      rw [setAt_ne _ _ hbd]
      exact h.fresh b (Nat.lt_of_le_of_ne (Nat.le_of_lt_succ hb) hbd) x hx
  · intro x _ hn
    rw [Bounds.nested, hstale]
    exact fun hm => hn (h.deleted x hm)
  · intro x hx hn
    rw [Bounds.nested, hstale]
    rcases hx with hx | hx
    · change (w.plain.names x).isSome at hx
      change w.plain.names x = none at hn
      rw [hn] at hx
      cases hx
    · exact hx
  · rw [Bounds.nested, ← h.blocks, hglobals]
    exact h.closed
  · intro x hx
    rw [Bounds.nested, hstale] at hx
    exact h.deleted x hx

theorem Settled.leave (h : Settled ctx bd s locals w) {s' : World ν σ} {inner : Scope ν} {w' : Watch ν σ}
    (hs : s'.globals bd.block = s.globals bd.block) (hle : s.blocks ≤ s'.blocks) (h' : Settled ctx (.nested w bd.block) s' inner w') :
    Settled ctx bd
      (s'.setGlobals bd.block ((s'.globals bd.block).update (((locals.update (s.globals bd.block)).update inner).without (s'.globals bd.block))))
      (locals.update (((locals.update (s.globals bd.block)).update inner).without (s'.globals bd.block))) (w'.leave bd.block (w.stale bd.block)) := by
  rw [hs, h.localConsts_eq]
  have hnew : ∀ x, (s.globals bd.block x).isSome = false → ((s.globals bd.block).update inner).without (s.globals bd.block) x = inner x := by
    intro x hx
    have hnone : s.globals bd.block x = none := Option.not_isSome_iff_eq_none.mp (by rw [hx]; nofun)
    rw [Scope.without, if_neg (by rw [hx]; nofun), Scope.update, hnone, Option.or_none]
  have hold : ∀ x, (s.globals bd.block x).isSome → ((s.globals bd.block).update inner).without (s.globals bd.block) x = none :=
    fun x hx => if_pos hx
  generalize ((s.globals bd.block).update inner).without (s.globals bd.block) = new at hnew hold
  have hstale : (w'.leave bd.block (w.stale bd.block)).stale bd.block = w.stale bd.block := setAt_self ..
  have hglobals : (s'.setGlobals bd.block ((s.globals bd.block).update new)).globals bd.block = (s.globals bd.block).update new := setAt_self ..
  -- names from outside have not changed
  have hkept : ∀ x, (w.plain.names x).isSome ∨ x ∈ w.stale bd.block → w'.plain.names x = w.plain.names x := by
    intro x hx
    refine h'.rest x ?_
    cases hi : inner x with
    | none => rfl
    | some v => exact absurd hx (h'.bound x v hi).2.1
  have hoff : ∀ x, s.globals bd.block x = none → locals x = none := by
    intro x hx
    cases hl : locals x with
    | none => rfl
    | some v =>
      have heq := congrFun h.localConsts_eq x
      rw [Scope.update_none hx, hl, hx] at heq
      cases heq
  -- the globals around it without a name: so has the plain run at the beginning
  have habsent : ∀ x, s.globals bd.block x = none → x ∉ w.stale bd.block → w.plain.names x = none := by
    intro x hx hm
    rw [← h.fresh bd.block h.block_lt x hm, hx]
  have hpresent : ∀ x, (s.globals bd.block x).isSome → (w.plain.names x).isSome ∨ x ∈ w.stale bd.block := by
    intro x hx
    by_cases hm : x ∈ w.stale bd.block
    · exact .inr hm
    · rw [h.fresh bd.block h.block_lt x hm] at hx
      exact .inl hx
  have hnewBound : ∀ x v, new x = some v → inner x = some v := by
    intro x v hx
    cases hg : (s.globals bd.block x).isSome with
    | true =>
      rw [hold x hg] at hx
      cases hx
    | false => rw [← hnew x hg, hx]
  have hreserved : ∀ x v, new x = some v → x ∉ ctx.reserved := fun x v hx => (h'.bound x v (hnewBound x v hx)).2.2
  refine ⟨⟨h'.heap, h'.blocks, Nat.lt_of_lt_of_le h.block_lt hle, ?_, ?_, ?_, ?_, ?_, ?_⟩, ?_⟩
  · intro b hb x hx
    by_cases hbd : b = bd.block
    · subst hbd
      rw [hstale] at hx
      rw [hglobals]
      change _ = w'.plain.names x
      cases hg : s.globals bd.block x with
      | some v =>
        have hsome : (s.globals bd.block x).isSome := by rw [hg]; rfl
        rw [Scope.update_none (hold x hsome), hkept x (hpresent x hsome), h.fresh bd.block h.block_lt x hx]
      | none =>
        have hnone : (s.globals bd.block x).isSome = false := by rw [hg]; rfl
        rw [Scope.update, hnew x hnone, hg, Option.or_none]
        cases hi : inner x with
        | some v => exact (h'.bound x v hi).1.symm
        | none => rw [h'.rest x hi]; exact (habsent x hg hx).symm
    · change x ∉ setAt w'.stale bd.block _ b at hx
      change setAt s'.globals bd.block _ b x = w'.plain.names x
      rw [setAt_ne _ _ hbd] at hx ⊢
      exact h'.fresh b hb x hx
  · intro x v hx
    change w'.plain.names x = some v ∧ _
    cases hn : new x with
    | some u =>
      rw [Scope.update_some hn] at hx
      obtain ⟨hname, hfrozen, hres⟩ := h'.bound x v (hnewBound x v (hn.trans hx))
      refine ⟨hname, fun hm => hfrozen ?_, hres⟩
      cases hp : w.plain.names x with
      | none => exact .inr (h.frozen x hm hp)
      | some u => exact .inl (show (w.plain.names x).isSome by rw [hp]; rfl)
    | none =>
      rw [Scope.update_none hn] at hx
      obtain ⟨hname, hrest⟩ := h.bound x v hx
      exact ⟨(hkept x (.inl (by rw [hname]; rfl))).trans hname, hrest⟩
  · intro x hx
    change w'.plain.names x = _
    cases hn : new x with
    | some u =>
      rw [Scope.update_some hn] at hx
      cases hx
    | none =>
      rw [Scope.update_none hn] at hx
      rw [← h.rest x hx]
      cases hg : (s.globals bd.block x).isSome with
      | true => exact hkept x (hpresent x hg)
      | false => exact h'.rest x ((hnew x hg).symm.trans hn)
  · intro x _ hn hm
    rw [hstale] at hm
    exact hn ((hkept x (.inr hm)).trans (h.deleted x hm))
  · intro x hx hn
    rw [hstale]
    cases hp : w.plain.names x with
    | none => exact h.frozen x hx hp
    | some v =>
      have heq : w'.plain.names x = some v := (hkept x (.inl (by rw [hp]; rfl))).trans hp
      exact nomatch heq.symm.trans hn
  · rw [hglobals, ctx.visible_update _ hreserved, h.closed]
  · intro x hx
    rw [hstale] at hx
    exact (hkept x (.inr hx)).trans (h.deleted x hx)

end

theorem Block.execute_follows {ctx : Context ν} : ∀ {body : Block ν σ} {bd : Bounds ν} {s : World ν σ} {locals : Scope ν} {w : Watch ν σ},
    Settled ctx bd s locals w → body.Meets ctx bd w → (body.watch bd.block w = none ∧ body.execute ctx bd.block s locals = none) ∨
      ∃ w' s' locals', body.watch bd.block w = some w' ∧ body.execute ctx bd.block s locals = some (s', locals') ∧
        (∀ b < s.blocks, b ≠ bd.block → s'.globals b = s.globals b) ∧ s.blocks ≤ s'.blocks ∧ Settled ctx bd s' locals' w' := by
  intro body
  induction body with
  | nil => exact fun h _ => .inr ⟨_, _, _, rfl, rfl, fun _ _ _ => rfl, Nat.le_refl _, h⟩
  | stmt c rest ih =>
    intro bd s locals w h hm
    rw [Block.watch, Block.execute]
    rcases Code.exec_follows h.toMid hm.1 with ⟨hw, hs⟩ | ⟨w₁, s₁, locals₁, hw, hs, hglobals, hblocks, hmid⟩
    · exact .inl ⟨by rw [hw]; rfl, by rw [hs]; rfl⟩
    · rw [hw, hs, Option.bind_some, Option.bind_some]
      rcases ih hmid.settle (hm.2 w₁ hw) with hraise | ⟨w₂, s₂, locals₂, hw₂, hs₂, hframe, hle, hsettled⟩
      · exact .inl hraise
      · refine .inr ⟨w₂, s₂, locals₂, hw₂, hs₂, fun b hb hbd => ?_, hblocks ▸ hle, hsettled⟩
        rw [hframe b (hblocks ▸ hb) hbd]
        exact (setAt_ne _ _ hbd).trans (congrFun hglobals b)
  | nested body rest ihBody ih =>
    intro bd s locals w h hm
    rw [Block.watch, Block.execute]
    have hblock : (Bounds.nested w bd.block).block = s.blocks := h.blocks.symm
    rcases ihBody h.enter hm.1 with ⟨hw, hs⟩ | ⟨w₁, s₁, inner, hw, hs, hframe, hle, hsettled⟩
    · rw [hblock] at hw hs
      exact .inl ⟨by rw [← h.blocks, hw]; rfl, by rw [hs]; rfl⟩
    · have hw' : body.watch w.blocks (w.enter bd.block) = some w₁ := hw
      rw [hblock] at hs hframe
      rw [hw', hs, Option.bind_some, Option.bind_some]
      have hsame : ∀ b < s.blocks, s₁.globals b = s.globals b := by
        intro b hb
        rw [hframe b (Nat.lt_succ_of_lt hb) (Nat.ne_of_lt hb)]
        exact setAt_ne _ _ (Nat.ne_of_lt hb)
      have hle' : s.blocks ≤ s₁.blocks := Nat.le_of_succ_le hle
      rcases ih (h.leave (hsame _ h.block_lt) hle' hsettled) (hm.2 w₁ hw') with hraise | ⟨w₂, s₂, locals₂, hw₂, hs₂, hframe₂, hle₂, hsettled₂⟩
      · exact .inl hraise
      · refine .inr ⟨w₂, s₂, locals₂, hw₂, hs₂, fun b hb hbd => ?_, Nat.le_trans hle' hle₂, hsettled₂⟩
        rw [hframe₂ b (Nat.lt_of_lt_of_le hb hle') hbd]
        exact (setAt_ne _ _ hbd).trans (hsame b hb)

/-! ## The plain run -/

theorem Code.watch_plain : ∀ (c : Code ν σ) (w : Watch ν σ), (c.watch w).map Watch.plain = c.plain w.plain := by
  intro c
  induction c with
  | done | raise => exact fun _ => rfl
  | prim f k ih => exact fun w => ih _ _
  | load x k ih | loadGlobal _ x k ih => exact fun w => ih _ w
  | store x v k ih | storeGlobal _ x v k ih => exact fun w => ih _
  | delete x k ih | deleteGlobal _ x k ih =>
    intro w
    unfold Code.watch Code.plain
    cases hn : w.plain.names x with
    | some v => exact ih true _
    | none =>
      have hset : w.plain.set x none = w.plain := by rw [Plain.set, Function.update_eq_self_iff.mpr hn.symm]
      rw [hset]
      exact ih false w

theorem Block.watch_plain : ∀ (body : Block ν σ) (b : Nat) (w : Watch ν σ), (body.watch b w).map Watch.plain = body.plain w.plain := by
  intro body
  induction body with
  | nil => exact fun _ _ => rfl
  | stmt c rest ih =>
    intro b w
    rw [Block.watch, Block.plain, ← Code.watch_plain c w]
    cases c.watch w with
    | none => rfl
    | some w' => exact ih b (w'.settle b)
  | nested body rest ihBody ih =>
    intro b w
    have hbody : (body.watch w.blocks (w.enter b)).map Watch.plain = body.plain w.plain := ihBody w.blocks (w.enter b)
    rw [Block.watch, Block.plain, ← hbody]
    cases body.watch w.blocks (w.enter b) with
    | none => rfl
    | some w' => exact ih b (w'.leave b (w.stale b))

/-! ## Whole blocks -/

theorem settled_start (ctx : Context ν) (s : World ν σ) (localConsts : Scope ν) :
    Settled ctx (.outermost ctx s localConsts) (s.enter (ctx.visible localConsts)) .empty (.start ctx s localConsts) := by
  have hstale : (Watch.start ctx s localConsts).stale s.blocks = ∅ :=
    setAt_self (fun b => { x | s.globals b x ≠ ctx.visible localConsts x }) s.blocks ∅
  have hglobals : (s.enter (ctx.visible localConsts)).globals s.blocks = ctx.visible localConsts := setAt_self ..
  refine ⟨⟨rfl, rfl, Nat.lt_succ_self _, ?_, nofun, fun _ _ => rfl, ?_, nofun, ?_⟩, ?_⟩
  · intro b hb x hx
    by_cases hbs : b = s.blocks
    · rw [hbs, hglobals]
      rfl
    · change x ∉ setAt (α := Set Name) (fun b => { x | s.globals b x ≠ ctx.visible localConsts x }) s.blocks ∅ b at hx
      change setAt s.globals s.blocks _ b x = _
      rw [setAt_ne _ _ hbs] at hx ⊢
      exact not_not.mp hx
  · intro x _ _
    rw [Bounds.outermost, hstale]
    exact Set.notMem_empty x
  · rw [Bounds.outermost, hglobals]
    exact ctx.visible_visible localConsts
  · intro x hx
    rw [Bounds.outermost, hstale] at hx
    exact hx.elim

/-- In every run whose operations meet the conditions, later calls see what one namespace would have. -/
theorem nested_blocks_plain {ctx : Context ν} {body : Block ν σ} {s : World ν σ} {localConsts : Scope ν}
    (h : body.Meets ctx (.outermost ctx s localConsts) (.start ctx s localConsts)) :
    (body.transform ctx s localConsts).map (fun (s', localConsts') => (⟨ctx.visible localConsts', s'.heap⟩ : Plain ν σ)) =
      body.plain ⟨ctx.visible localConsts, s.heap⟩ := by
  have hplain : (body.watch s.blocks (.start ctx s localConsts)).map Watch.plain = body.plain ⟨ctx.visible localConsts, s.heap⟩ :=
    body.watch_plain s.blocks (.start ctx s localConsts)
  rw [← hplain, Block.transform, Option.map_map]
  rcases Block.execute_follows (settled_start ctx s localConsts) h with ⟨hw, hs⟩ | ⟨w', s', locals', hw, hs, -, -, hsettled⟩
  · change body.watch s.blocks _ = none at hw
    change body.execute ctx s.blocks _ _ = none at hs
    rw [hw, hs]
    rfl
  · change body.watch s.blocks _ = some w' at hw
    change body.execute ctx s.blocks _ _ = some (s', locals') at hs
    rw [hw, hs]
    have hnames : ctx.visible (localConsts.update locals') = w'.plain.names := by
      rw [ctx.visible_update _ fun x v hx => (hsettled.bound x v hx).2.2]
      funext x
      cases hl : locals' x with
      | some v => rw [Scope.update_some hl, (hsettled.bound x v hl).1]
      | none => rw [Scope.update_none hl, hsettled.rest x hl]; rfl
    change some (Plain.mk (ctx.visible (localConsts.update locals')) s'.heap) = some w'.plain
    rw [hnames, hsettled.heap]

end

def bareContext : Context Nat := ⟨.empty, .empty, .empty, .empty⟩

def bareWorld : World Nat Unit := ⟨fun _ => .empty, 0, ()⟩

/-- `x = 1`, and in a nested block the given name is bound to 2. -/
def bindsInside (x : Name) : Block Nat Unit := .stmt (.store "x" 1 .done) (.nested (.stmt (.store x 2 .done) .nil) .nil)

theorem new_name_inside : ((bindsInside "y").transform bareContext bareWorld .empty).map
      (fun (s', localConsts') => (⟨bareContext.visible localConsts', s'.heap⟩ : Plain Nat Unit)) =
    (bindsInside "y").plain ⟨bareContext.visible .empty, ()⟩ := by
  have hreserved : ∀ x, x ∉ bareContext.reserved := by
    rintro x (h | h | h) <;> cases h
  refine nested_blocks_plain ⟨⟨⟨Set.notMem_empty _, hreserved _⟩, trivial⟩, fun w hw => ⟨⟨⟨⟨fun h => ?_, hreserved _⟩, trivial⟩, fun _ _ => trivial⟩,
    fun _ _ => trivial⟩⟩
  cases hw
  rcases h with h | ⟨h | h, -⟩
  · cases h
  · exact absurd h (by decide)
  · exact h.elim

/-- An update of a name from outside is lost. -/
theorem old_name_inside : ((bindsInside "x").transform bareContext bareWorld .empty).map (fun r => bareContext.visible r.2 "x") = some (some 1) ∧
    ((bindsInside "x").plain ⟨bareContext.visible .empty, ()⟩).map (fun p => p.names "x") = some (some 2) :=
  ⟨rfl, rfl⟩

end NumbaCudaMlir.ConstevalBlocks

import NumbaCudaMlir.Liveness

/-!
# Deletions

`compute_dead_maps` of `core/analysis.py`, and `_patch_var_dels` of `core/postproc.py`, which
deletes the variables after their last use. The lowering of a `Del` releases memory.
-/

namespace NumbaCudaMlir.Liveness

open ControlFlow Relation

section
variable {ν β : Type} [DecidableEq ν]

def Stmt.vars (s : Stmt ν) : Finset ν := (s.target.toList ++ s.reads).toFinset

def terminatorVars (body : List (Stmt ν)) : Finset ν := body.getLast?.elim ∅ Stmt.vars

structure DeadMaps (β ν : Type) where
  internal : β → Finset ν
  escaping : β → Finset ν

section
variable [DecidableEq β] (cfg : CFGraph β) (blocks : β → List (Stmt ν)) (live defmap : β → Finset ν)

def internalDead (b : β) : Finset ν := (live b ∪ defmap b) \ ((cfg.succs b).toFinset.sup live ∪ terminatorVars (blocks b))

def escapingDead (c : β) : Finset ν :=
  (cfg.preds c).toFinset.sup fun b => ((live b ∪ defmap b) \ internalDead cfg blocks live defmap b) \ (live c ∪ defmap c)

def deadVars : Finset ν :=
  let nodes := cfg.nodes.toFinset
  nodes.sup (internalDead cfg blocks live defmap) ∪ nodes.sup (escapingDead cfg blocks live defmap) ∪
    (nodes.filter (cfg.succs · = [])).sup (terminatorVars ∘ blocks)

/-- `none` where the check at the end raises. -/
def computeDeadMaps : Option (DeadMaps β ν) :=
  if cfg.nodes.toFinset.sup live ⊆ deadVars cfg blocks live defmap ∨ ∀ b ∈ cfg.nodes, cfg.succs b ≠ [] then
    some ⟨internalDead cfg blocks live defmap, escapingDead cfg blocks live defmap⟩
  else none

end

/-- The `Del`s between two statements are one instruction. -/
inductive Inst (ν : Type) where
  | stmt (s : Stmt ν)
  | del (xs : Finset ν)

def Inst.stmt? : Inst ν → Option (Stmt ν)
  | .stmt s => some s
  | .del _ => none

/-- What is not yet deleted, and the body from here on. -/
def patchStmt (s : Stmt ν) (p : Finset ν × List (Inst ν)) : Finset ν × List (Inst ν) :=
  (p.1 \ s.vars, .stmt s :: .del (s.vars ∩ p.1) :: p.2)

def patchBody (internal : Finset ν) (body : List (Stmt ν)) : List (Inst ν) :=
  (body.dropLast.foldr patchStmt (internal, body.getLast?.toList.map .stmt)).2

def patchVarDels (maps : DeadMaps β ν) (blocks : β → List (Stmt ν)) (b : β) : List (Inst ν) :=
  .del (maps.escaping b) :: patchBody (maps.internal b) (blocks b)

def insertVarDels [DecidableEq β] (fuel : Nat) (cfg : CFGraph β) (blocks : β → List (Stmt ν)) : Option (β → List (Inst ν)) := do
  let live ← liveMap fuel cfg blocks
  let maps ← computeDeadMaps cfg blocks live fun b => (computeUseDefs (blocks b)).defmap
  some (patchVarDels maps blocks)

/-! ## One block -/

/-- `x` is deleted, and not mentioned after that. -/
def DeletedLast (l : List (Inst ν)) (x : ν) : Prop :=
  ∃ pre xs post, l = pre ++ .del xs :: post ∧ x ∈ xs ∧ ¬ Mentions (post.filterMap Inst.stmt?) x

/-- What is deleted is in `internal`, and not mentioned after that. -/
def LastUses (internal : Finset ν) (l : List (Inst ν)) : Prop :=
  ∀ pre xs post, l = pre ++ .del xs :: post → ∀ x ∈ xs, x ∈ internal ∧ ¬ Mentions (post.filterMap Inst.stmt?) x

theorem mem_vars {s : Stmt ν} {x : ν} : x ∈ s.vars ↔ s.target = some x ∨ x ∈ s.reads := by simp [Stmt.vars]

omit [DecidableEq ν] in
theorem mentions_append {as bs : List (Stmt ν)} {x : ν} : Mentions (as ++ bs) x ↔ Mentions as x ∨ Mentions bs x := by
  simp [Mentions, or_and_right, exists_or]

theorem foldr_patch {internal : Finset ν} {tail : List (Stmt ν)} (htail : ∀ x ∈ internal, ¬ Mentions tail x) (body : List (Stmt ν)) :
    let p := body.foldr patchStmt (internal, tail.map .stmt)
    p.2.filterMap Inst.stmt? = body ++ tail ∧ (∀ x, x ∈ p.1 ↔ x ∈ internal ∧ ¬ Mentions body x) ∧
      (∀ x ∈ internal, Mentions body x → DeletedLast p.2 x) ∧ LastUses internal p.2 := by
  induction body with
  | nil =>
    refine ⟨?_, by simp [Mentions], by simp [Mentions], fun pre xs post h => ?_⟩
    · simp [List.filterMap_map, Function.comp_def, Inst.stmt?]
    · have hmem : Inst.del xs ∈ pre ++ .del xs :: post := by simp
      rw [← h] at hmem
      simp at hmem
  | cons s body ih =>
    obtain ⟨hstmts, hleft, hdel, hlast⟩ := ih
    have hcons : ∀ x, Mentions (s :: body) x ↔ x ∈ s.vars ∨ Mentions body x := by simp [Mentions, mem_vars]
    rw [List.foldr_cons]
    generalize body.foldr patchStmt (internal, tail.map .stmt) = p at *
    have hhere : ∀ x ∈ s.vars ∩ p.1, x ∈ internal ∧ ¬ Mentions (p.2.filterMap Inst.stmt?) x := by
      intro x hx
      obtain ⟨hi, hb⟩ := (hleft x).mp (Finset.mem_inter.mp hx).2
      rw [hstmts, mentions_append]
      exact ⟨hi, not_or.mpr ⟨hb, htail x hi⟩⟩
    refine ⟨congrArg (s :: ·) hstmts, fun x => ?_, fun x hx hm => ?_, fun pre xs post h x hx => ?_⟩
    · rw [hcons, patchStmt, Finset.mem_sdiff, hleft]
      tauto
    · by_cases hb : Mentions body x
      · obtain ⟨pre, xs, post, h, hx⟩ := hdel x hx hb
        exact ⟨.stmt s :: .del (s.vars ∩ p.1) :: pre, xs, post, by simp [patchStmt, h], hx⟩
      · have hmem := Finset.mem_inter.mpr ⟨((hcons x).mp hm).resolve_right hb, (hleft x).mpr ⟨hx, hb⟩⟩
        exact ⟨[.stmt s], _, p.2, rfl, hmem, (hhere x hmem).2⟩
    · rcases pre with - | ⟨_, - | ⟨_, pre⟩⟩
      · simp [patchStmt] at h
      · simp only [patchStmt, List.cons_append, List.nil_append, List.cons.injEq, Inst.del.injEq] at h
        obtain ⟨-, rfl, rfl⟩ := h
        exact hhere x hx
      · simp only [patchStmt, List.cons_append, List.cons.injEq] at h
        exact hlast pre xs post h.2.2 x hx

theorem patchBody_spec {internal : Finset ν} {body : List (Stmt ν)} (hterm : ∀ x ∈ internal, x ∉ terminatorVars body) :
    (patchBody internal body).filterMap Inst.stmt? = body ∧
      (∀ x ∈ internal, Mentions body x → DeletedLast (patchBody internal body) x) ∧ LastUses internal (patchBody internal body) := by
  have hsplit : body.dropLast ++ body.getLast?.toList = body := by
    rcases List.eq_nil_or_concat' body with rfl | ⟨l, s, rfl⟩ <;> simp
  have htail : ∀ x ∈ internal, ¬ Mentions body.getLast?.toList x := by
    rintro x hx ⟨s, hs, hm⟩
    refine hterm x hx ?_
    rw [terminatorVars, Option.mem_toList.mp hs]
    exact mem_vars.mpr hm
  obtain ⟨hstmts, -, hdel, hlast⟩ := foldr_patch htail body.dropLast
  refine ⟨hstmts.trans hsplit, fun x hx hm => hdel x hx ?_, hlast⟩
  rw [← hsplit, mentions_append] at hm
  exact hm.resolve_right (htail x hx)

/-! ## The dead maps -/

section
variable [DecidableEq β] {cfg : CFGraph β} {blocks : β → List (Stmt ν)} {live defmap : β → Finset ν}

theorem mem_internalDead {b : β} {x : ν} : x ∈ internalDead cfg blocks live defmap b ↔
    x ∈ live b ∪ defmap b ∧ (∀ c ∈ cfg.succs b, x ∉ live c) ∧ x ∉ terminatorVars (blocks b) := by
  simp [internalDead]

theorem mem_escapingDead {c : β} {x : ν} : x ∈ escapingDead cfg blocks live defmap c ↔
    (∃ b, c ∈ cfg.succs b ∧ x ∈ live b ∪ defmap b ∧ x ∉ internalDead cfg blocks live defmap b) ∧ x ∉ live c ∪ defmap c := by
  simp only [escapingDead, Finset.mem_sup, List.mem_toFinset, Finset.mem_sdiff, cfg.mirror]
  tauto

theorem mem_deadVars {x : ν} : x ∈ deadVars cfg blocks live defmap ↔
    (∃ b ∈ cfg.nodes, x ∈ internalDead cfg blocks live defmap b) ∨ (∃ b ∈ cfg.nodes, x ∈ escapingDead cfg blocks live defmap b) ∨
      ∃ b ∈ cfg.nodes, cfg.succs b = [] ∧ x ∈ terminatorVars (blocks b) := by
  simp only [deadVars, Finset.mem_union, Finset.mem_sup, List.mem_toFinset, Finset.mem_filter, and_assoc, or_assoc, Function.comp_apply]

/-- What a block holds dies on every way to an exit. -/
theorem deadVars_of_exit {x : ν} {b e : β} (hb : b ∈ cfg.nodes) (he : cfg.succs e = [])
    (hpath : ReflTransGen (fun a b => b ∈ cfg.succs a) b e) (hx : x ∈ live b ∪ defmap b) : x ∈ deadVars cfg blocks live defmap := by
  induction hpath using ReflTransGen.head_induction_on with
  | refl =>
    by_cases hterm : x ∈ terminatorVars (blocks e)
    · exact mem_deadVars.mpr (.inr (.inr ⟨e, hb, he, hterm⟩))
    · exact mem_deadVars.mpr (.inl ⟨e, hb, mem_internalDead.mpr ⟨hx, by simp [he], hterm⟩⟩)
  | @head b c hbc _ ih =>
    have hc := (cfg.closed b c hbc).2
    by_cases hi : x ∈ internalDead cfg blocks live defmap b
    · exact mem_deadVars.mpr (.inl ⟨b, hb, hi⟩)
    by_cases hheld : x ∈ live c ∪ defmap c
    · exact ih hc hheld
    · exact mem_deadVars.mpr (.inr (.inl ⟨c, hc, mem_escapingDead.mpr ⟨⟨b, hbc, hx, hi⟩, hheld⟩⟩))

theorem computeDeadMaps_isSome (hexit : ∀ b ∈ cfg.nodes, ∃ e, cfg.succs e = [] ∧ ReflTransGen (fun a b => b ∈ cfg.succs a) b e) :
    (computeDeadMaps cfg blocks live defmap).isSome := by
  refine Option.isSome_of_eq_some (if_pos (.inl fun x hx => ?_))
  obtain ⟨b, hb, hx⟩ := Finset.mem_sup.mp hx
  have hb := List.mem_toFinset.mp hb
  obtain ⟨e, he, hpath⟩ := hexit b hb
  exact deadVars_of_exit hb he hpath (Finset.mem_union_left _ hx)

end

/-! ## Paths -/

section
variable (cfg : CFGraph β) (blocks : β → List (Stmt ν))

/-- `x` is in the live map of `b`. -/
def Live (x : ν) (b : β) : Prop := Reaches cfg blocks x b ∧
  ∃ path, (b :: path).IsChain (fun a b => b ∈ cfg.succs a) ∧ readFirst x ((b :: path).flatMap blocks) = true

def Held (x : ν) (b : β) : Prop := Live cfg blocks x b ∨ Mentions (blocks b) x

structure DeadMaps.Exact (maps : DeadMaps β ν) : Prop where
  internal : ∀ b ∈ cfg.nodes, ∀ x, x ∈ maps.internal b ↔
    Held cfg blocks x b ∧ (∀ c ∈ cfg.succs b, ¬ Live cfg blocks x c) ∧ x ∉ terminatorVars (blocks b)
  escaping : ∀ c ∈ cfg.nodes, ∀ x, x ∈ maps.escaping c ↔
    (∃ b, c ∈ cfg.succs b ∧ Held cfg blocks x b ∧ x ∉ maps.internal b) ∧ ¬ Held cfg blocks x c

end

variable {cfg : CFGraph β} {blocks : β → List (Stmt ν)} {maps : DeadMaps β ν} {b c : β} {path : List β} {x : ν}

theorem Held.live (hx : Held cfg blocks x b) (hbc : c ∈ cfg.succs b) (hchain : (c :: path).IsChain (fun a b => b ∈ cfg.succs a))
    (hread : readFirst x ((c :: path).flatMap blocks) = true) : Live cfg blocks x c := by
  have hreaches : Reaches cfg blocks x b := hx.elim And.left (.of_mentions (cfg.closed b c hbc).1)
  exact ⟨hreaches.tail hbc, path, hchain, hread⟩

theorem Live.succ (hx : Live cfg blocks x b) (hm : ¬ Mentions (blocks b) x) : ∃ c ∈ cfg.succs b, Live cfg blocks x c := by
  obtain ⟨path, hchain, hread⟩ := hx.2
  rw [List.flatMap_cons, readFirst_append] at hread
  have hread := (hread.resolve_left fun hr => hm (mentions_of_readFirst hr)).2
  cases path with
  | nil => simp [readFirst] at hread
  | cons c path =>
    obtain ⟨hbc, hchain⟩ := List.isChain_cons_cons.mp hchain
    exact ⟨c, hbc, Held.live (.inl hx) hbc hchain hread⟩

theorem computeDeadMaps_exact [DecidableEq β] {live : β → Finset ν} (hlive : ∀ b ∈ cfg.nodes, ∀ x, x ∈ live b ↔ Live cfg blocks x b)
    (h : computeDeadMaps cfg blocks live (fun b => (computeUseDefs (blocks b)).defmap) = some maps) : maps.Exact cfg blocks := by
  obtain rfl := Option.some.inj (Option.ite_none_right_eq_some.mp h).2
  have hheld : ∀ b ∈ cfg.nodes, ∀ x, x ∈ live b ∪ (computeUseDefs (blocks b)).defmap ↔ Held cfg blocks x b := by
    intro b hb x
    rw [Finset.mem_union, hlive b hb, Held, mentions_iff]
    refine or_congr_right' fun hx => ⟨.inl, fun h => h.resolve_right fun hu => hx ?_⟩
    have hread := mem_usemap.mp hu
    exact ⟨.of_mentions hb (mentions_of_readFirst hread), [], by simp, by simpa using hread⟩
  constructor
  · intro b hb x
    rw [mem_internalDead, hheld b hb]
    exact and_congr_right fun _ => and_congr_left fun _ => forall₂_congr fun c hc => not_congr (hlive c (cfg.closed b c hc).2 x)
  · intro c hc x
    rw [mem_escapingDead, hheld c hc]
    exact and_congr_left fun _ => exists_congr fun b => and_congr_right fun hbc => and_congr_left fun _ => hheld b (cfg.closed b c hbc).1 x

theorem patchVarDels_spec (h : maps.Exact cfg blocks) (hb : b ∈ cfg.nodes) :
    (patchBody (maps.internal b) (blocks b)).filterMap Inst.stmt? = blocks b ∧
      (∀ x ∈ maps.internal b, Mentions (blocks b) x → DeletedLast (patchBody (maps.internal b) (blocks b)) x) ∧
      LastUses (maps.internal b) (patchBody (maps.internal b) (blocks b)) :=
  patchBody_spec fun x hx => ((h.internal b hb x).mp hx).2.2

theorem stmts_path (h : maps.Exact cfg blocks) (hnodes : ∀ b ∈ path, b ∈ cfg.nodes) :
    (path.flatMap (patchVarDels maps blocks)).filterMap Inst.stmt? = path.flatMap blocks := by
  rw [List.filterMap_flatMap]
  exact List.flatMap_congr fun b hb => (patchVarDels_spec h (hnodes b hb)).1

theorem not_read_deleted (h : maps.Exact cfg blocks) (hnodes : ∀ b ∈ path, b ∈ cfg.nodes)
    (hchain : path.IsChain (fun a b => b ∈ cfg.succs a)) {pre post : List (Inst ν)} {xs : Finset ν}
    (hpath : path.flatMap (patchVarDels maps blocks) = pre ++ .del xs :: post) (hx : x ∈ xs) :
    readFirst x (post.filterMap Inst.stmt?) = false := by
  induction path generalizing pre with
  | nil => simp at hpath
  | cons b path ih =>
    have hb := hnodes b (List.mem_cons_self ..)
    have hrest : ∀ c ∈ path, c ∈ cfg.nodes := fun c hc => hnodes c (List.mem_cons_of_mem _ hc)
    obtain ⟨hstmts, -, hlast⟩ := patchVarDels_spec h hb
    rw [List.flatMap_cons] at hpath
    rcases List.append_eq_append_iff.mp hpath with ⟨mid, -, hmid⟩ | ⟨- | ⟨_, mid⟩, hbody, hmid⟩
    · exact ih hrest hchain.tail hmid
    · have hmid : path.flatMap (patchVarDels maps blocks) = [] ++ .del xs :: post := hmid.symm
      exact ih hrest hchain.tail hmid
    -- the deletion stands in `b`
    obtain ⟨rfl, rfl⟩ := List.cons.inj (hmid.trans (List.cons_append ..))
    rw [List.filterMap_append, stmts_path h hrest]
    refine Bool.eq_false_iff.mpr fun hread => ?_
    rcases pre with - | ⟨_, pre⟩
    · obtain ⟨hesc, rfl⟩ := List.cons.inj hbody
      obtain rfl := Inst.del.inj hesc
      rw [hstmts] at hread
      obtain ⟨⟨a, hab, hheld, -⟩, hnot⟩ := (h.escaping b hb x).mp hx
      exact hnot (.inl (hheld.live hab hchain hread))
    · obtain ⟨hint, hnot⟩ := hlast pre xs mid (List.cons.inj hbody).2 x hx
      obtain ⟨hheld, hout, -⟩ := (h.internal b hb x).mp hint
      have hread := ((readFirst_append x _ _).mp hread).resolve_left fun hread => hnot (mentions_of_readFirst hread)
      cases path with
      | nil => simp [readFirst] at hread
      | cons c path =>
        obtain ⟨hbc, hchain⟩ := List.isChain_cons_cons.mp hchain
        exact hout c hbc (hheld.live hbc hchain hread.2)

theorem deletedLast_block (h : maps.Exact cfg blocks) (hb : b ∈ cfg.nodes) (hx : x ∈ maps.internal b)
    {rest : List (Inst ν)} (hrest : ¬ Mentions (rest.filterMap Inst.stmt?) x) : DeletedLast (patchVarDels maps blocks b ++ rest) x := by
  obtain ⟨hheld, hout, -⟩ := (h.internal b hb x).mp hx
  have hm : Mentions (blocks b) x := by
    by_contra hm
    obtain ⟨c, hc, hlive⟩ := (hheld.resolve_right hm).succ hm
    exact hout c hc hlive
  obtain ⟨pre, xs, post, hbody, hmem, hpost⟩ := (patchVarDels_spec h hb).2.1 x hx hm
  refine ⟨.del (maps.escaping b) :: pre, xs, post ++ rest, by simp [patchVarDels, hbody], hmem, ?_⟩
  rw [List.filterMap_append, mentions_append]
  exact not_or.mpr ⟨hpost, hrest⟩

theorem deletedLast_path (h : maps.Exact cfg blocks) (hnodes : ∀ c ∈ b :: path, c ∈ cfg.nodes)
    (hchain : (b :: path).IsChain (fun a b => b ∈ cfg.succs a)) {e : β} (he : e ∈ (b :: path).getLast?) (hexit : cfg.succs e = [])
    (hx : Held cfg blocks x b ∨ Mentions (path.flatMap blocks) x) :
    x ∈ terminatorVars (blocks e) ∨ DeletedLast ((b :: path).flatMap (patchVarDels maps blocks)) x := by
  induction path generalizing b with
  | nil =>
    obtain rfl : b = e := by simpa using he
    have hb := hnodes b (List.mem_cons_self ..)
    have hheld := hx.resolve_right (by simp [Mentions])
    by_cases hterm : x ∈ terminatorVars (blocks b)
    · exact .inl hterm
    · have hint := (h.internal b hb x).mpr ⟨hheld, by simp [hexit], hterm⟩
      exact .inr (deletedLast_block h hb hint (by simp [Mentions]))
  | cons c path ih =>
    obtain ⟨hbc, hchain⟩ := List.isChain_cons_cons.mp hchain
    obtain ⟨hb, hrest⟩ := List.forall_mem_cons.mp hnodes
    rw [List.flatMap_cons]
    by_cases hc : Held cfg blocks x c ∨ Mentions (path.flatMap blocks) x
    · refine (ih hrest hchain (by simpa using he) hc).imp_right fun hlast => ?_
      obtain ⟨pre, xs, post, hpath, hmem⟩ := hlast
      exact ⟨patchVarDels maps blocks b ++ pre, xs, post, by rw [hpath, List.append_assoc], hmem⟩
    obtain ⟨hheld, hm⟩ := not_or.mp hc
    have hnot : ¬ Mentions ((c :: path).flatMap blocks) x := by
      rw [List.flatMap_cons, mentions_append]
      exact not_or.mpr ⟨fun hc => hheld (.inr hc), hm⟩
    have hb' : Held cfg blocks x b := hx.resolve_right hnot
    by_cases hint : x ∈ maps.internal b
    · rw [← stmts_path h hrest] at hnot
      exact .inr (deletedLast_block h hb hint hnot)
    · refine .inr ⟨patchVarDels maps blocks b, maps.escaping c, _, rfl, ?_, ?_⟩
      · exact (h.escaping c (hrest c (List.mem_cons_self ..)) x).mpr ⟨⟨b, hbc, hb', hint⟩, hheld⟩
      · rwa [← stmts_path h hrest] at hnot

/-- **Deletions.** They are inserted in every function whose blocks lead to exits, and
leave the statements as they are. On no path is what was deleted read before it is
assigned again. On a path to an exit, what is mentioned is deleted after that, but for
what the terminator of the exit mentions. -/
theorem insertVarDels_safe [DecidableEq β] (cfg : CFGraph β) (blocks : β → List (Stmt ν)) : ∃ bound, ∀ fuel > bound,
    ((∀ b ∈ cfg.nodes, ∃ e, cfg.succs e = [] ∧ ReflTransGen (fun a b => b ∈ cfg.succs a) b e) → (insertVarDels fuel cfg blocks).isSome) ∧
      ∀ new, insertVarDels fuel cfg blocks = some new → (∀ b ∈ cfg.nodes, (new b).filterMap Inst.stmt? = blocks b) ∧
        ∀ path : List β, (∀ b ∈ path, b ∈ cfg.nodes) → path.IsChain (fun a b => b ∈ cfg.succs a) →
          (∀ pre xs post, path.flatMap new = pre ++ .del xs :: post → ∀ x ∈ xs, readFirst x (post.filterMap Inst.stmt?) = false) ∧
          ∀ e ∈ path.getLast?, cfg.succs e = [] → ∀ x, Mentions (path.flatMap blocks) x → x ∈ terminatorVars (blocks e) ∨
            ∃ pre xs post, path.flatMap new = pre ++ .del xs :: post ∧ x ∈ xs ∧ ¬ Mentions (post.filterMap Inst.stmt?) x := by
  obtain ⟨bound, hbound⟩ := liveMap_spec cfg blocks
  refine ⟨bound, fun fuel hfuel => ?_⟩
  obtain ⟨live, hrun, hlive⟩ := hbound fuel hfuel
  have hinsert : insertVarDels fuel cfg blocks =
      (computeDeadMaps cfg blocks live fun b => (computeUseDefs (blocks b)).defmap).map (patchVarDels · blocks) := by
    rw [insertVarDels, hrun, Option.map_eq_bind]
    rfl
  rw [hinsert]
  refine ⟨fun hexit => Option.isSome_map.trans (computeDeadMaps_isSome hexit), fun new hnew => ?_⟩
  obtain ⟨maps, hmaps, rfl⟩ := Option.map_eq_some_iff.mp hnew
  have h := computeDeadMaps_exact hlive hmaps
  refine ⟨fun b hb => (patchVarDels_spec h hb).1, fun path hnodes hchain => ⟨fun pre xs post hpath x hx => ?_, fun e he hexit x hm => ?_⟩⟩
  · exact not_read_deleted h hnodes hchain hpath hx
  · cases path with
    | nil => simp [Mentions] at hm
    | cons b path =>
      rw [List.flatMap_cons, mentions_append] at hm
      exact deletedLast_path h hnodes hchain he hexit (hm.imp_left .inr)

end

end NumbaCudaMlir.Liveness

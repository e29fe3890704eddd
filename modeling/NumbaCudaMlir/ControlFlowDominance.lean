import NumbaCudaMlir.ControlFlowDominators

/-!
# Dominator sets and dominance frontiers

What the tables that are read off the immediate dominators hold. The virtual root
of the search does not show: with one entry, the dominators are those of the graph.
-/

namespace NumbaCudaMlir.ControlFlow

open WhileLoop DominatorTree

section
variable {ν : Type} [DecidableEq ν] {roots nodes : List ν} {preds succs : ν → List ν} {fuel size : Nat} {idom : Dict ν (Option ν)}

/-! ## Dominator sets -/

omit [DecidableEq ν] in
theorem dominates_root {d n : ν} (hn : n ∈ roots) : Dominates (Edge roots succs) none (some d) (some n) ↔ d = n := by
  constructor
  · intro h
    simpa using h _ (Walk.root.step hn)
  · rintro rfl
    exact .refl _

omit [DecidableEq ν] in
theorem not_dominates_none (d : ν) : ¬ Dominates (Edge roots succs) none (some d) none := fun h => by cases h.eq_root

/-- What comes after a node in a chain of `_dominator_sets`. -/
def next (n : ν) (parent : Option ν) : Option ν := if parent = some n then none else parent

theorem IsIdomTable.dominates_iff (h : IsIdomTable roots succs size idom) {n d : ν} {p : Option ν} (hp : idom.get n = some p) :
    Dominates (Edge roots succs) none (some d) (some n) ↔
      d = n ∨ ∃ q, next n p = some q ∧ Dominates (Edge roots succs) none (some d) (some q) := by
  by_cases hn : n ∈ roots
  · simp [dominates_root hn, next, h.root n p hp hn]
  · have hidom := h.idom n p hp hn
    rw [hidom.dominates_iff, Option.some.injEq, next, if_neg hidom.2.1]
    cases p with
    | none => simp [not_dominates_none]
    | some q => simp

theorem IsIdomTable.reached_next (h : IsIdomTable roots succs size idom) {n q : ν} {p : Option ν} (hp : idom.get n = some p)
    (hq : next n p = some q) : q ∈ idom.keys := by
  have hreached := (h.keys n).mp (Dict.mem_keys_iff.mpr ⟨p, hp⟩)
  obtain ⟨l, hl⟩ := hreached
  have hdom := (h.dominates_iff hp).mpr (.inr ⟨q, hq, .refl _⟩)
  obtain ⟨l', hl', -⟩ := hl.upTo (hdom l hl)
  exact (h.keys q).mpr ⟨l', hl'⟩

/-- The sets that are known are right. -/
def Known (roots : List ν) (succs : ν → List ν) (doms : Dict ν (List ν)) : Prop :=
  ∀ n ds, doms.get n = some ds → Reached (Edge roots succs) none (some n) ∧
    ∀ d, d ∈ ds ↔ Dominates (Edge roots succs) none (some d) (some n)

/-- `base` is the set of `cur`, and empty at the end of the chain. -/
def IsBase (roots : List ν) (succs : ν → List ν) (base : List ν) (cur : Option ν) : Prop :=
  ∀ d, d ∈ base ↔ ∃ q, cur = some q ∧ Dominates (Edge roots succs) none (some d) (some q)

theorem chainOf_spec (h : IsIdomTable roots succs size idom) (hfuel : size + 1 < fuel) (doms : Dict ν (List ν)) {node : ν}
    (hnode : node ∈ idom.keys) : ∃ chain cur, chainOf fuel idom doms node = some (chain, cur) ∧
      (∀ c, cur = some c → (doms.get c).isSome = true) ∧ ∀ base, Known roots succs doms → IsBase roots succs base cur →
        Known roots succs (addChain doms base chain) ∧
        ∀ n, (doms.get n).isSome = true ∨ n = node → ((addChain doms base chain).get n).isSome = true := by
  obtain ⟨rank, hrank, hup⟩ := h.ranked
  obtain ⟨⟨chain, cur⟩, hrun, ⟨-, hempty, hadd⟩, hguard⟩ := whileLoop_total (fun s => s.2.any fun cur => (doms.get cur).isNone)
    (fun s => s.2.bind fun cur => (idom.get cur).map fun parent => (cur :: s.1, if parent = some cur then none else parent))
    (I := fun s => (∀ c, s.2 = some c → c ∈ idom.keys) ∧ (s.1 = [] → s.2 = some node) ∧
      ∀ doms base, Known roots succs doms → IsBase roots succs base s.2 → Known roots succs (addChain doms base s.1) ∧
        ∀ n, (doms.get n).isSome = true ∨ s.1 ≠ [] ∧ n = node → ((addChain doms base s.1).get n).isSome = true)
    (μ := fun s => s.2.elim 0 fun c => size + 1 - rank c) (fun s hs hguard => by
      obtain ⟨chain, cur⟩ := s
      obtain ⟨hkeys, hempty, hadd⟩ := hs
      cases cur with
      | none => cases hguard
      | some x =>
        obtain ⟨p, hp⟩ := Dict.mem_keys_iff.mp (hkeys x rfl)
        refine ⟨(x :: chain, next x p), by simp [hp, next], ⟨fun c hc => h.reached_next hp hc, by simp, ?_⟩, ?_⟩
        · intro doms base hknown hbase
          have hset : ∀ d, d ∈ x :: base ↔ Dominates (Edge roots succs) none (some d) (some x) := by
            intro d
            rw [List.mem_cons, hbase d, h.dominates_iff hp]
          have hknown' : Known roots succs (doms.set x (x :: base)) := by
            intro n ds hds
            by_cases hn : n = x
            · subst hn
              rw [Dict.get_set_self, Option.some.injEq] at hds
              exact hds ▸ ⟨(h.keys n).mp (hkeys n rfl), hset⟩
            · rw [Dict.get_set_ne _ _ hn] at hds
              exact hknown n ds hds
          obtain ⟨hk, hall⟩ := hadd (doms.set x (x :: base)) (x :: base) hknown' fun d => by simpa using hset d
          refine ⟨hk, fun n hn => hall n ?_⟩
          by_cases hnx : n = x
          · simp [hnx]
          · rcases hn with hn | hn
            · exact .inl (by rwa [Dict.get_set_ne _ _ hnx])
            · refine .inr ⟨fun hc => hnx ?_, hn.2⟩
              exact hn.2.trans (Option.some.inj (hempty hc)).symm
        · have hx := hrank x
          cases hq : next x p with
          | none => simp only [Option.elim]; omega
          | some q =>
            have hpq : p = some q ∧ q ≠ x := by
              by_cases hpx : p = some x
              · simp [next, hpx] at hq
              · rw [next, if_neg hpx] at hq
                exact ⟨hq, fun hqx => hpx (hqx ▸ hq)⟩
            have := hup x q (hpq.1 ▸ hp) hpq.2
            simp only [Option.elim]
            omega) (s := ([], some node))
    ⟨fun c hc => Option.some.inj hc ▸ hnode, fun _ => rfl, fun doms base hk _ => ⟨hk, by simp [addChain]⟩⟩
    (show _ < fuel by simp only [Option.elim]; omega)
  have hbound : ∀ c, cur = some c → (doms.get c).isSome = true := by
    intro c hc
    subst hc
    simpa [Option.isSome_iff_ne_none] using hguard
  refine ⟨chain, cur, hrun, hbound, fun base hknown hbase => ?_⟩
  obtain ⟨hk, hall⟩ := hadd doms base hknown hbase
  refine ⟨hk, fun n hn => hall n ?_⟩
  rcases hn with hn | rfl
  · exact .inl hn
  · by_cases hc : chain = []
    · exact .inl (hbound n (hempty hc))
    · exact .inr ⟨hc, rfl⟩

theorem get_foldl_setDefault {α : Type} (v : α) (k : ν) (ks : List ν) (d : Dict ν α) :
    (ks.foldl (fun d k => d.setDefault k v) d).get k = (d.get k).or (if k ∈ ks then some v else none) := by
  induction ks generalizing d with
  | nil => simp
  | cons j ks ih =>
    rw [List.foldl_cons, ih, Dict.get_setDefault]
    by_cases hj : k = j
    · subst hj; cases d.get k <;> simp
    · cases d.get k <;> simp [hj]

theorem dominatorSets_spec (h : IsIdomTable roots succs size idom) (hroots : ∀ r ∈ roots, r ∈ nodes)
    (hclosed : ∀ n ∈ nodes, ∀ m ∈ succs n, m ∈ nodes) (hfuel : size + 1 < fuel) :
    ∃ doms, dominatorSets fuel nodes idom = some doms ∧ ∀ n ∈ nodes, ∃ ds, doms.get n = some ds ∧
      ∀ d, d ∈ ds ↔ d ∈ nodes ∧ Dominates (Edge roots succs) none (some d) (some n) := by
  have hfold : ∀ (ks : List ν) (doms : Dict ν (List ν)), (∀ k ∈ ks, k ∈ idom.keys) → Known roots succs doms →
      ∃ doms', ks.foldlM (addDominators fuel idom) doms = some doms' ∧ Known roots succs doms' ∧
        ∀ n, (doms.get n).isSome = true ∨ n ∈ ks → (doms'.get n).isSome = true := by
    intro ks
    induction ks with
    | nil => intro doms _ hk; exact ⟨doms, rfl, hk, by simp⟩
    | cons k ks ih =>
      intro doms hks hk
      obtain ⟨chain, cur, hchain, hcur, hadd⟩ := chainOf_spec h hfuel doms (hks k (List.mem_cons_self ..))
      obtain ⟨base, hbase, hstep⟩ : ∃ base, IsBase roots succs base cur ∧ cur.elim (some []) doms.get = some base := by
        cases cur with
        | none => exact ⟨[], fun d => by simp, rfl⟩
        | some c =>
          obtain ⟨base, hb⟩ := Option.isSome_iff_exists.mp (hcur c rfl)
          exact ⟨base, fun d => by simpa using (hk c base hb).2 d, hb⟩
      obtain ⟨hk', hall⟩ := hadd base hk hbase
      obtain ⟨doms', hrun, hk'', hall'⟩ := ih (addChain doms base chain) (fun j hj => hks j (List.mem_cons_of_mem _ hj)) hk'
      refine ⟨doms', by simp [addDominators, hchain, hstep, hrun], hk'', fun n hn => hall' n ?_⟩
      rcases hn with hn | hn
      · exact .inl (hall n (.inl hn))
      · rcases List.mem_cons.mp hn with rfl | hn
        · exact .inl (hall n (.inr rfl))
        · exact .inr hn
  obtain ⟨doms, hdoms, hknown, hall⟩ := hfold idom.keys .empty (fun _ hk => hk) (by simp [Known])
  refine ⟨_, by rw [dominatorSets, hdoms]; rfl, fun n hn => ?_⟩
  rw [get_foldl_setDefault, if_pos hn]
  cases hds : doms.get n with
  | some ds =>
    refine ⟨ds, rfl, fun d => ?_⟩
    obtain ⟨⟨l, hl⟩, hds⟩ := hknown n ds hds
    rw [hds d]
    refine ⟨fun hd => ⟨?_, hd⟩, And.right⟩
    obtain ⟨l', hl', -⟩ := hl.upTo (hd l hl)
    exact mem_nodes hroots hclosed ⟨l', hl'⟩
  | none =>
    refine ⟨nodes, rfl, fun d => ⟨fun hd => ⟨hd, fun l hl => ?_⟩, And.left⟩⟩
    have := hall n (.inr ((h.keys n).mpr ⟨l, hl⟩))
    rw [hds] at this
    cases this

/-- **Dominators and post-dominators.** Every node's set holds the nodes that all
walks from the roots to it visit. The roots are the entry, or the exits with the
edges turned round. -/
theorem dominatorSets_complete (hroots : ∀ r ∈ roots, r ∈ nodes) (hclosed : ∀ n ∈ nodes, ∀ m ∈ succs n, m ∈ nodes)
    (hmirror : ∀ a b, a ∈ preds b ↔ b ∈ succs a) : ∃ bound, ∀ fuel > bound, ∃ doms,
      (immediateDominators fuel roots preds succs).bind (dominatorSets fuel nodes) = some doms ∧ ∀ n ∈ nodes, ∃ ds,
        doms.get n = some ds ∧ ∀ d, d ∈ ds ↔ d ∈ nodes ∧ Dominates (Edge roots succs) none (some d) (some n) := by
  obtain ⟨bound, h⟩ := immediateDominators_table hroots hclosed hmirror
  refine ⟨bound + nodes.length + 1, fun fuel hfuel => ?_⟩
  obtain ⟨table, htable, hspec⟩ := h fuel (by omega)
  obtain ⟨doms, hdoms, hall⟩ := dominatorSets_spec hspec hroots hclosed (show _ < fuel by omega)
  exact ⟨doms, by rw [htable, Option.bind_some, hdoms], hall⟩

def diamond : CFGraph (Fin 4) where
  nodes := [0, 1, 2, 3]
  preds := List.get [[], [0], [0], [1, 2]]
  succs := List.get [[1, 2], [3], [3], []]
  mirror := by decide
  closed := by decide

theorem dominatorSets_diamond : ∃ bound, ∀ fuel > bound, ∃ doms,
    (immediateDominators fuel [3] diamond.succs diamond.preds).bind (dominatorSets fuel diamond.nodes) = some doms ∧ ∀ n ∈ diamond.nodes,
      ∃ ds, doms.get n = some ds ∧ ∀ d, d ∈ ds ↔ d ∈ diamond.nodes ∧ Dominates (Edge [3] diamond.preds) none (some d) (some n) :=
  dominatorSets_complete (by decide) (by decide) fun a b => (diamond.mirror b a).symm

/-! ## One entry -/

variable {g : CFGraph ν} {entry : ν}

def CFGraph.Succ (g : CFGraph ν) (a b : ν) : Prop := b ∈ g.succs a

omit [DecidableEq ν] in
theorem walk_some {l : List ν} {n : ν} (h : Walk g.Succ entry l n) : Walk (Edge [entry] g.succs) none (l.map some ++ [none]) (some n) := by
  induction h with
  | root => exact Walk.root.step (List.mem_singleton_self entry)
  | step _ hE ih => exact ih.step hE

omit [DecidableEq ν] in
theorem exists_walk {l : List (Option ν)} {x : Option ν} (h : Walk (Edge [entry] g.succs) none l x) {n : ν} (hx : x = some n) :
    ∃ l', Walk g.Succ entry l' n ∧ l = l'.map some ++ [none] := by
  induction h generalizing n with
  | root => cases hx
  | @step l m k hl hE ih =>
    subst hx
    cases m with
    | none =>
      obtain rfl : n = entry := List.mem_singleton.mp hE
      cases hl with
      | root => exact ⟨[n], .root, rfl⟩
      | step _ hE' => cases ‹Option ν› <;> exact hE'.elim
    | some m =>
      obtain ⟨l', hl', rfl⟩ := ih rfl
      exact ⟨n :: l', hl'.step hE, rfl⟩

omit [DecidableEq ν] in
theorem reached_some {n : ν} : Reached (Edge [entry] g.succs) none (some n) ↔ Reached g.Succ entry n := by
  constructor
  · rintro ⟨l, hl⟩
    obtain ⟨l', hl', -⟩ := exists_walk hl rfl
    exact ⟨l', hl'⟩
  · rintro ⟨l, hl⟩
    exact ⟨_, walk_some hl⟩

omit [DecidableEq ν] in
theorem dominates_some {d n : ν} : Dominates (Edge [entry] g.succs) none (some d) (some n) ↔ Dominates g.Succ entry d n := by
  constructor
  · intro h l hl
    simpa using h _ (walk_some hl)
  · intro h l hl
    obtain ⟨l', hl', rfl⟩ := exists_walk hl rfl
    simpa using h l' hl'

omit [DecidableEq ν] in
theorem dominates_entry (n : ν) : Dominates g.Succ entry entry n := by
  intro l hl
  induction hl with
  | root => simp
  | step _ _ ih => exact List.mem_cons_of_mem _ ih

omit [DecidableEq ν] in
theorem isIdom_some {u : ν} {v : Option ν} (h : IsIdom (Edge [entry] g.succs) none v (some u)) (hu : u ≠ entry) :
    ∃ d, v = some d ∧ IsIdom g.Succ entry d u := by
  have hentry := h.2.2 (some entry) (dominates_some.mpr (dominates_entry u)) (by simpa using hu.symm)
  cases v with
  | none => exact absurd hentry (not_dominates_none entry)
  | some d =>
    refine ⟨d, rfl, dominates_some.mp h.1, by simpa using h.2.1, fun d' hd' hne => ?_⟩
    exact dominates_some.mp (h.2.2 (some d') (dominates_some.mpr hd') (by simpa using hne))

theorem IsIdomTable.of_entry (h : IsIdomTable [entry] g.succs size idom) {u : ν} (hu : Reached g.Succ entry u) :
    ∃ d, idom.get u = some (some d) ∧ Dominates g.Succ entry d u ∧ (u = entry → d = entry) ∧ (u ≠ entry → IsIdom g.Succ entry d u) := by
  obtain ⟨v, hv⟩ := Dict.mem_keys_iff.mp ((h.keys u).mpr (reached_some.mpr hu))
  by_cases hroot : u = entry
  · subst hroot
    refine ⟨u, by rw [hv, h.root u v hv (by simp)], .refl u, id, fun hne => absurd rfl hne⟩
  · obtain ⟨d, rfl, hd⟩ := isIdom_some (h.idom u v hv (by simpa using hroot)) hroot
    exact ⟨d, hv, hd.1, fun he => absurd he hroot, fun _ => hd⟩

/-- **The table of `_find_immediate_dominators`.** The search ends, in whatever order
the sets are iterated. The entry is its own parent, and every other node that is
reached has its immediate dominator as its parent. -/
theorem findImmediateDominators_correct (g : CFGraph ν) (entry : ν) (hentry : entry ∈ g.nodes) : ∃ bound, ∀ fuel > bound,
    ∃ idom, findImmediateDominators fuel g entry = some idom ∧ (∀ u, u ∈ idom.keys ↔ Reached g.Succ entry u) ∧
      idom.get entry = some (some entry) ∧
      ∀ u ≠ entry, Reached g.Succ entry u → ∃ d, idom.get u = some (some d) ∧ IsIdom g.Succ entry d u := by
  obtain ⟨bound, h⟩ := immediateDominators_table (show ∀ r ∈ [entry], r ∈ g.nodes by simpa using hentry) (fun n _ m hm => (g.closed n m hm).2) g.mirror
  refine ⟨bound, fun fuel hfuel => ?_⟩
  obtain ⟨idom, hidom, hspec⟩ := h fuel hfuel
  refine ⟨idom, hidom, fun u => (hspec.keys u).trans reached_some, ?_, ?_⟩
  · obtain ⟨d, hd, -, hroot, -⟩ := hspec.of_entry ⟨_, .root⟩
    rw [hd, hroot rfl]
  · intro u hu hreached
    obtain ⟨d, hd, -, -, hisIdom⟩ := hspec.of_entry hreached
    exact ⟨d, hd, hisIdom hu⟩

theorem findImmediateDominators_diamond : ∃ bound, ∀ fuel > bound, ∃ idom, findImmediateDominators fuel diamond 0 = some idom ∧
    (∀ u, u ∈ idom.keys ↔ Reached diamond.Succ 0 u) ∧ idom.get 0 = some (some 0) ∧
      ∀ u ≠ 0, Reached diamond.Succ 0 u → ∃ d, idom.get u = some (some d) ∧ IsIdom diamond.Succ 0 d u :=
  findImmediateDominators_correct diamond 0 (by decide)

example : (findImmediateDominators 40 diamond 0).map (·.get 3) = some (some (some 0)) := rfl

/-! ## Dominance frontiers -/

def Holds (df : Dict ν (List ν)) (n w : ν) : Prop := ∃ us, df.get n = some us ∧ w ∈ us

theorem holds_insert {df : Dict ν (List ν)} {x u : ν} {us : List ν} (hus : df.get x = some us) (n w : ν) :
    Holds (df.set x (us.insert u)) n w ↔ Holds df n w ∨ n = x ∧ w = u := by
  unfold Holds
  rw [Dict.get_set]
  by_cases hn : n = x
  · subst hn; simp [hus, or_comm]
  · simp [hn]

theorem climbFrontier_spec (h : IsIdomTable [entry] g.succs size idom) (hfuel : size < fuel) {df : Dict ν (List ν)}
    (hkeys : ∀ n, Reached g.Succ entry n → (df.get n).isSome = true) {d v : ν} (u : ν) (hv : Reached g.Succ entry v)
    (hdv : Dominates g.Succ entry d v) : ∃ df', climbFrontier fuel idom u (some d) df v = some df' ∧
      (∀ n, (df'.get n).isSome = (df.get n).isSome) ∧
      ∀ n w, Holds df' n w ↔ Holds df n w ∨ w = u ∧ Dominates g.Succ entry n v ∧ ¬ Dominates g.Succ entry n d := by
  obtain ⟨rank, hrank, hup⟩ := h.ranked
  obtain ⟨⟨df', cur⟩, hrun, ⟨x, hx, -, -, hsome, hmem⟩, hguard⟩ := whileLoop_total (fun s => s.2 ≠ some d)
    (fun s => s.2.bind fun v => (s.1.get v).bind fun us => (idom.get v).map fun p => (s.1.set v (us.insert u), p))
    (I := fun s => ∃ x, s.2 = some x ∧ Dominates g.Succ entry x v ∧ Dominates g.Succ entry d x ∧
      (∀ n, (s.1.get n).isSome = (df.get n).isSome) ∧
      ∀ n w, Holds s.1 n w ↔ Holds df n w ∨ w = u ∧ Dominates g.Succ entry n v ∧ ¬ Dominates g.Succ entry n x)
    (μ := fun s => s.2.elim 0 fun c => size - rank c) (fun s hs hguard => by
      obtain ⟨df₁, cur⟩ := s
      obtain ⟨x, rfl, hxv, hdx, hsome, hmem⟩ := hs
      have hxd : x ≠ d := by simpa using hguard
      obtain ⟨l, hl⟩ := hv
      obtain ⟨l', hl', -⟩ := hl.upTo (hxv l hl)
      have hx : Reached g.Succ entry x := ⟨l', hl'⟩
      have hroot : x ≠ entry := fun hroot => hxd (hroot.trans (hroot ▸ hdx).eq_root.symm)
      obtain ⟨q, hq, hqx, -, hidom⟩ := h.of_entry hx
      have hisIdom := hidom hroot
      obtain ⟨us, hus⟩ := Option.isSome_iff_exists.mp ((hsome x).trans (hkeys x hx))
      have hxq : ¬ Dominates g.Succ entry x q := fun hxq => hisIdom.2.1 (hqx.antisymm hxq hx)
      refine ⟨(df₁.set x (us.insert u), some q), by simp [show df₁.get x = some us from hus, hq],
        ⟨q, rfl, hqx.trans hxv, hisIdom.2.2 d hdx (Ne.symm hxd), ?_, ?_⟩, ?_⟩
      · intro n
        rw [← hsome n, Dict.get_set]
        by_cases hn : n = x
        · simp [hn, show df₁.get x = some us from hus]
        · simp [hn]
      · intro n w
        rw [holds_insert hus, hmem n w, hisIdom.dominates_iff (d := n)]
        by_cases hn : n = x
        · simp [hn, hxv, hxq]
        · simp [hn]
      · have := hup x q hq hisIdom.2.1
        have := hrank q
        simp only [Option.elim]
        omega) (s := (df, some v))
    ⟨v, rfl, .refl v, hdv, fun _ => rfl, fun n w => by simp⟩
    (show _ < fuel by simp only [Option.elim]; omega)
  obtain rfl : cur = some d := by simpa using hguard
  obtain rfl : d = x := Option.some.inj hx
  exact ⟨df', by rw [climbFrontier, hrun]; rfl, hsome, hmem⟩

theorem climbAll_spec (h : IsIdomTable [entry] g.succs size idom) (hfuel : size < fuel) {d : ν} (u : ν) (vs : List ν)
    (hvs : ∀ v ∈ vs, Reached g.Succ entry v ∧ Dominates g.Succ entry d v) {df : Dict ν (List ν)}
    (hkeys : ∀ n, Reached g.Succ entry n → (df.get n).isSome = true) : ∃ df', vs.foldlM (climbFrontier fuel idom u (some d)) df = some df' ∧
      (∀ n, (df'.get n).isSome = (df.get n).isSome) ∧ ∀ n w, Holds df' n w ↔ Holds df n w ∨
        w = u ∧ ∃ v ∈ vs, Dominates g.Succ entry n v ∧ ¬ Dominates g.Succ entry n d := by
  induction vs generalizing df with
  | nil => exact ⟨df, rfl, fun _ => rfl, fun n w => by simp⟩
  | cons v vs ih =>
    obtain ⟨hv, hdv⟩ := hvs v (List.mem_cons_self ..)
    obtain ⟨df₁, hdf₁, hsome₁, hmem₁⟩ := climbFrontier_spec h hfuel hkeys u hv hdv
    obtain ⟨df₂, hdf₂, hsome₂, hmem₂⟩ := ih (fun x hx => hvs x (List.mem_cons_of_mem _ hx)) fun n hn => (hsome₁ n).trans (hkeys n hn)
    refine ⟨df₂, by simp [hdf₁, hdf₂], fun n => (hsome₂ n).trans (hsome₁ n), fun n w => ?_⟩
    rw [hmem₂ n w, hmem₁ n w, or_assoc, ← and_or_left]
    simp

/-- `u` is in the frontier of `n`. -/
def InFrontier (g : CFGraph ν) (entry n u : ν) : Prop :=
  (∃ v ∈ g.preds u, Dominates g.Succ entry n v) ∧ ¬ (Dominates g.Succ entry n u ∧ n ≠ u)

/-- A node with one predecessor is in no frontier. -/
theorem two_le_of_inFrontier {n u : ν} (hreached : Reached g.Succ entry u) (hu : u ≠ entry) (h : InFrontier g entry n u) :
    2 ≤ (g.preds u).length := by
  obtain ⟨⟨v, hv, hnv⟩, hnot⟩ := h
  by_contra hlen
  have hone : g.preds u = [v] := by
    obtain ⟨w, hw⟩ := List.length_eq_one_iff.mp (show (g.preds u).length = 1 by have := List.length_pos_of_mem hv; omega)
    rw [hw] at hv ⊢
    rw [List.mem_singleton.mp hv]
  have hpred : ∀ m, g.Succ m u → m = v := by
    intro m hm
    simpa [hone] using (g.mirror m u).mpr hm
  have hdom : ∀ {x}, Dominates g.Succ entry x v → Dominates g.Succ entry x u := by
    intro x hx l hl
    cases hl with
    | root => exact absurd rfl hu
    | step hl hE => exact List.mem_cons_of_mem _ (hx _ (hpred _ hE ▸ hl))
  have hnu : n = u := by
    by_contra hne
    exact hnot ⟨hdom hnv, hne⟩
  have huv : u = v := (hnu ▸ hnv).antisymm (hdom (.refl v)) (by
    obtain ⟨l, hl⟩ := hreached
    cases hl with
    | root => exact absurd rfl hu
    | step hl hE => exact ⟨_, hpred _ hE ▸ hl⟩)
  -- a node that only follows itself is not reached
  obtain ⟨l, hl⟩ := hreached
  generalize hx : u = x at hl
  induction hl with
  | root => exact hu hx
  | @step l m k hl hE ih =>
    subst hx
    exact ih (huv.trans (hpred m hE).symm)

theorem frontiers_spec (h : IsIdomTable [entry] g.succs size idom) (hfuel : size < fuel)
    (hlive : ∀ u, Reached g.Succ entry u → ∀ v ∈ g.preds u, Reached g.Succ entry v) (ks : List ν)
    (hks : ∀ u ∈ ks, Reached g.Succ entry u) {df : Dict ν (List ν)} (hkeys : ∀ n, Reached g.Succ entry n → (df.get n).isSome = true) :
    ∃ df', ks.foldlM (fun df u => if (g.preds u).length < 2 then some df
        else (idom.get u).bind fun stop => (g.preds u).foldlM (climbFrontier fuel idom u stop) df) df = some df' ∧
      (∀ n, (df'.get n).isSome = (df.get n).isSome) ∧
      ∀ n u, u ≠ entry → (Holds df' n u ↔ Holds df n u ∨ u ∈ ks ∧ InFrontier g entry n u) := by
  induction ks generalizing df with
  | nil => exact ⟨df, rfl, fun _ => rfl, fun n u _ => by simp⟩
  | cons k ks ih =>
    have hk := hks k (List.mem_cons_self ..)
    obtain ⟨df₁, hdf₁, hsome₁, hmem₁⟩ : ∃ df₁, (if (g.preds k).length < 2 then some df
        else (idom.get k).bind fun stop => (g.preds k).foldlM (climbFrontier fuel idom k stop) df) = some df₁ ∧
        (∀ n, (df₁.get n).isSome = (df.get n).isSome) ∧
        ∀ n u, u ≠ entry → (Holds df₁ n u ↔ Holds df n u ∨ u = k ∧ InFrontier g entry n u) := by
      by_cases hlen : (g.preds k).length < 2
      · refine ⟨df, if_pos hlen, fun _ => rfl, fun n u hu => ⟨.inl, fun hor => hor.resolve_right fun hin => ?_⟩⟩
        obtain ⟨rfl, hin⟩ := hin
        have := two_le_of_inFrontier hk hu hin
        omega
      · obtain ⟨d, hd, hdk, hroot, hidom⟩ := h.of_entry hk
        have hvs : ∀ v ∈ g.preds k, Reached g.Succ entry v ∧ Dominates g.Succ entry d v := by
          intro v hv
          refine ⟨hlive k hk v hv, ?_⟩
          by_cases hke : k = entry
          · exact hroot hke ▸ dominates_entry v
          · exact hdk.pred (hidom hke).2.1 ((g.mirror v k).mp hv)
        obtain ⟨df₁, hdf₁, hsome₁, hmem₁⟩ := climbAll_spec h hfuel k (g.preds k) hvs hkeys
        refine ⟨df₁, by rw [if_neg hlen, hd, Option.bind_some, hdf₁], hsome₁, fun n u hu => ?_⟩
        rw [hmem₁ n u]
        refine or_congr_right (and_congr_right fun huk => ?_)
        subst huk
        have hnd : Dominates g.Succ entry n u ∧ n ≠ u ↔ Dominates g.Succ entry n d := by
          have hne : Dominates g.Succ entry n d → n ≠ u := by
            rintro hnd rfl
            exact (hidom hu).2.1 (hdk.antisymm hnd hk)
          rw [(hidom hu).dominates_iff]
          exact ⟨fun hor => hor.1.resolve_left hor.2, fun hnd => ⟨.inr hnd, hne hnd⟩⟩
        rw [InFrontier, hnd]
        constructor
        · rintro ⟨v, hv, hnv, hnot⟩; exact ⟨⟨v, hv, hnv⟩, hnot⟩
        · rintro ⟨⟨v, hv, hnv⟩, hnot⟩; exact ⟨v, hv, hnv, hnot⟩
    obtain ⟨df₂, hdf₂, hsome₂, hmem₂⟩ := ih (fun u hu => hks u (List.mem_cons_of_mem _ hu)) fun n hn => (hsome₁ n).trans (hkeys n hn)
    refine ⟨df₂, by rw [List.foldlM_cons, hdf₁]; exact hdf₂, fun n => (hsome₂ n).trans (hsome₁ n), fun n u hu => ?_⟩
    rw [hmem₂ n u hu, hmem₁ n u hu, or_assoc, ← or_and_right, List.mem_cons]

theorem get_foldl_nil (n : ν) (ks : List ν) (d : Dict ν (List ν)) :
    (ks.foldl (fun df u => df.set u []) d).get n = if n ∈ ks then some [] else d.get n := by
  induction ks generalizing d with
  | nil => rfl
  | cons k ks ih =>
    rw [List.foldl_cons, ih, Dict.get_set]
    by_cases hn : n ∈ ks <;> by_cases hk : n = k <;> simp [hn, hk]

/-- **The table of `_find_dominance_frontier`**, in a graph without dead nodes. The
frontier of `n` holds the nodes, the entry aside, at which the dominance of `n` ends. -/
theorem findDominanceFrontier_correct (g : CFGraph ν) (entry : ν) (hentry : entry ∈ g.nodes)
    (hlive : ∀ u, Reached g.Succ entry u → ∀ v ∈ g.preds u, Reached g.Succ entry v) : ∃ bound, ∀ fuel > bound,
    ∃ df, (findImmediateDominators fuel g entry).bind (findDominanceFrontier fuel g) = some df ∧
      (∀ n, n ∈ df.keys ↔ Reached g.Succ entry n) ∧ ∀ n us, df.get n = some us → ∀ u ≠ entry,
        u ∈ us ↔ Reached g.Succ entry u ∧ (∃ v ∈ g.preds u, Dominates g.Succ entry n v) ∧ ¬ (Dominates g.Succ entry n u ∧ n ≠ u) := by
  obtain ⟨bound, h⟩ := immediateDominators_table (show ∀ r ∈ [entry], r ∈ g.nodes by simpa using hentry) (fun n _ m hm => (g.closed n m hm).2) g.mirror
  refine ⟨bound + g.nodes.length, fun fuel hfuel => ?_⟩
  obtain ⟨idom, hidom, hspec⟩ := h fuel (by omega)
  have hkeys : ∀ n, n ∈ idom.keys ↔ Reached g.Succ entry n := fun n => (hspec.keys n).trans reached_some
  have hstart : ∀ n, Reached g.Succ entry n → ((idom.keys.foldl (fun df u => df.set u []) (.empty : Dict ν (List ν))).get n).isSome = true := by
    intro n hn
    simp [get_foldl_nil, (hkeys n).mpr hn]
  obtain ⟨df, hdf, hsome, hmem⟩ := frontiers_spec hspec (show g.nodes.length < fuel by omega) hlive idom.keys
    (fun u hu => (hkeys u).mp hu) hstart
  refine ⟨df, by rw [findImmediateDominators, hidom, Option.bind_some, findDominanceFrontier, hdf], fun n => ?_, ?_⟩
  · rw [Dict.mem_keys_iff, ← Option.isSome_iff_exists, hsome n, get_foldl_nil, ← hkeys n]
    by_cases hn : n ∈ idom.keys <;> simp [hn]
  · intro n us hus u hu
    have hholds := hmem n u hu
    have hempty : ¬ Holds (idom.keys.foldl (fun df u => df.set u []) (.empty : Dict ν (List ν))) n u := by
      rintro ⟨vs, hvs, hv⟩
      rw [get_foldl_nil] at hvs
      by_cases hn : n ∈ idom.keys
      · simp only [hn, if_true, Option.some.injEq] at hvs
        simp [← hvs] at hv
      · simp [hn] at hvs
    simp only [Holds, hus, Option.some.injEq, exists_eq_left', hkeys u] at hholds hempty
    rw [hholds]
    exact or_iff_right hempty

theorem findDominanceFrontier_diamond : ∃ bound, ∀ fuel > bound,
    ∃ df, (findImmediateDominators fuel diamond 0).bind (findDominanceFrontier fuel diamond) = some df ∧
      (∀ n, n ∈ df.keys ↔ Reached diamond.Succ 0 n) ∧ ∀ n us, df.get n = some us → ∀ u ≠ 0, u ∈ us ↔ Reached diamond.Succ 0 u ∧
        (∃ v ∈ diamond.preds u, Dominates diamond.Succ 0 n v) ∧ ¬ (Dominates diamond.Succ 0 n u ∧ n ≠ u) := by
  refine findDominanceFrontier_correct diamond 0 (by decide) fun u _ v hv => ?_
  have hroot : Reached diamond.Succ 0 0 := ⟨_, .root⟩
  obtain rfl | hv : v = 0 ∨ v ∈ diamond.succs 0 := by clear * - hv; revert u v; decide
  · exact hroot
  · exact hroot.of_edge hv

end

end NumbaCudaMlir.ControlFlow

import Mathlib.Data.Finset.Lattice.Fold
import NumbaCudaMlir.ControlFlow
import NumbaCudaMlir.Propagation

/-!
# Variable liveness

`compute_use_defs` and `compute_live_map` of `core/analysis.py`, which the lowering
runs over the blocks of a function. A statement reads variables and may assign one.
The bit sets of the source are finite sets here.
-/

namespace NumbaCudaMlir.Liveness

open ControlFlow Propagation Relation

section
variable {ν : Type} [DecidableEq ν]

/-- The target of an assignment, and the other variables of `list_vars`. -/
structure Stmt (ν : Type) where
  target : Option ν
  reads : List ν

structure UseDefs (ν : Type) where
  usemap : Finset ν
  defmap : Finset ν

/-- A target that its own assignment reads is not defined here. -/
def UseDefs.addDef (s : UseDefs ν) (stmt : Stmt ν) : Finset ν :=
  stmt.target.elim s.defmap fun x => if x ∈ stmt.reads then s.defmap else insert x s.defmap

def UseDefs.scan (s : UseDefs ν) (stmt : Stmt ν) : UseDefs ν :=
  ⟨s.usemap ∪ (stmt.target.toList ++ stmt.reads).toFinset \ s.addDef stmt, s.addDef stmt⟩

def computeUseDefs (body : List (Stmt ν)) : UseDefs ν := body.foldl .scan ⟨∅, ∅⟩

variable {β : Type} [DecidableEq β]

/-- The pairs of a block and one of its neighbours, as a sweep goes over them. -/
def pairs (offsets : List β) (neighbours : β → List β) : List (β × β) := offsets.flatMap fun b => (neighbours b).map fun c => (b, c)

def computeLiveMap (fuel : Nat) (cfg : CFGraph β) (usemap defmap : β → Finset ν) : Option (β → Finset ν) := do
  let defReach ← propagate (fun _ _ => true) (pairs cfg.nodes cfg.succs) fuel fun b => defmap b ∪ usemap b
  propagate (fun b x => x ∈ defReach b ∧ x ∉ defmap b) (pairs cfg.nodes.reverse cfg.preds) fuel usemap

/-- The maps of a function; `blocks` has the bodies of the nodes. -/
def liveMap (fuel : Nat) (cfg : CFGraph β) (blocks : β → List (Stmt ν)) : Option (β → Finset ν) :=
  computeLiveMap fuel cfg (fun b => if b ∈ cfg.nodes then (computeUseDefs (blocks b)).usemap else ∅)
    fun b => if b ∈ cfg.nodes then (computeUseDefs (blocks b)).defmap else ∅

/-! ## What the maps mean -/

def Mentions (body : List (Stmt ν)) (x : ν) : Prop := ∃ s ∈ body, s.target = some x ∨ x ∈ s.reads

/-- The first statement that mentions `x` reads it. -/
def readFirst (x : ν) : List (Stmt ν) → Bool
  | [] => false
  | s :: rest => x ∈ s.reads ∨ s.target ≠ some x ∧ readFirst x rest

theorem mem_addDef {s : UseDefs ν} {stmt : Stmt ν} {x : ν} :
    x ∈ s.addDef stmt ↔ x ∈ s.defmap ∨ stmt.target = some x ∧ x ∉ stmt.reads := by
  obtain ⟨target, reads⟩ := stmt
  cases target with
  | none => simp [UseDefs.addDef]
  | some y =>
    by_cases hy : y ∈ reads
    · simp only [UseDefs.addDef, Option.elim, hy, if_true, Option.some.injEq]
      refine (or_iff_left ?_).symm
      rintro ⟨rfl, hx⟩
      exact hx hy
    · simp only [UseDefs.addDef, Option.elim, hy, if_false, Finset.mem_insert, Option.some.injEq]
      rw [or_comm]
      refine or_congr_right ⟨?_, fun h => h.1.symm⟩
      rintro rfl
      exact ⟨rfl, hy⟩

theorem scan_spec (x : ν) (body : List (Stmt ν)) (s : UseDefs ν) :
    (x ∈ (body.foldl .scan s).usemap ↔ x ∈ s.usemap ∨ x ∉ s.defmap ∧ readFirst x body = true) ∧
      (x ∈ (body.foldl .scan s).defmap ↔ x ∈ s.defmap ∨ ∃ t ∈ body, t.target = some x ∧ x ∉ t.reads) := by
  induction body generalizing s with
  | nil => simp [readFirst]
  | cons t body ih =>
    obtain ⟨huse, hdef⟩ := ih (s.scan t)
    rw [List.foldl_cons, huse, hdef]
    have hscan : x ∈ (s.scan t).usemap ↔ x ∈ s.usemap ∨ (t.target = some x ∨ x ∈ t.reads) ∧ x ∉ s.addDef t := by
      simp [UseDefs.scan]
    have hdefs : x ∈ (s.scan t).defmap ↔ x ∈ s.defmap ∨ t.target = some x ∧ x ∉ t.reads := mem_addDef
    rw [hscan, hdefs, mem_addDef]
    constructor
    · by_cases hx : x ∈ t.reads <;> by_cases ht : t.target = some x <;> cases hb : readFirst x body <;> simp [readFirst, hx, ht, hb]
    · simp [or_assoc]

theorem mem_usemap {x : ν} {body : List (Stmt ν)} : x ∈ (computeUseDefs body).usemap ↔ readFirst x body = true := by
  simpa [computeUseDefs] using (scan_spec x body ⟨∅, ∅⟩).1

theorem mem_defmap {x : ν} {body : List (Stmt ν)} :
    x ∈ (computeUseDefs body).defmap ↔ ∃ t ∈ body, t.target = some x ∧ x ∉ t.reads := by
  simpa [computeUseDefs] using (scan_spec x body ⟨∅, ∅⟩).2

/-- What is mentioned is read first, or defined. -/
theorem mentions_iff {x : ν} {body : List (Stmt ν)} :
    Mentions body x ↔ x ∈ (computeUseDefs body).defmap ∨ x ∈ (computeUseDefs body).usemap := by
  rw [mem_usemap, mem_defmap]
  induction body with
  | nil => simp [Mentions, readFirst]
  | cons t body ih =>
    have hcons : Mentions (t :: body) x ↔ (t.target = some x ∨ x ∈ t.reads) ∨ Mentions body x := by simp [Mentions]
    rw [hcons, ih]
    by_cases hx : x ∈ t.reads <;> by_cases ht : t.target = some x <;> simp [readFirst, hx, ht]

theorem mentions_of_readFirst {x : ν} {body : List (Stmt ν)} (h : readFirst x body = true) : Mentions body x :=
  mentions_iff.mpr (.inr (mem_usemap.mpr h))

theorem readFirst_append (x : ν) (as bs : List (Stmt ν)) :
    readFirst x (as ++ bs) = true ↔ readFirst x as = true ∨ ¬ Mentions as x ∧ readFirst x bs = true := by
  induction as with
  | nil => simp [readFirst, Mentions]
  | cons t as ih =>
    have hcons : Mentions (t :: as) x ↔ (t.target = some x ∨ x ∈ t.reads) ∨ Mentions as x := by simp [Mentions]
    by_cases hx : x ∈ t.reads <;> by_cases ht : t.target = some x <;> simp [readFirst, hx, ht, hcons, ih]

/-! ## The live map -/

variable (cfg : CFGraph β) (blocks : β → List (Stmt ν))

omit [DecidableEq β] in
theorem mem_pairs {offsets : List β} {neighbours : β → List β} {b c : β} :
    (b, c) ∈ pairs offsets neighbours ↔ b ∈ offsets ∧ c ∈ neighbours b := by
  simp [pairs]

/-- A block that mentions `x` leads to `b`. -/
def Reaches (x : ν) (b : β) : Prop :=
  ∃ c ∈ cfg.nodes, Mentions (blocks c) x ∧ ReflTransGen (fun a b => b ∈ cfg.succs a) c b

variable {cfg} {blocks}

omit [DecidableEq ν] [DecidableEq β] in
theorem Reaches.of_mentions {x : ν} {b : β} (hb : b ∈ cfg.nodes) (hm : Mentions (blocks b) x) : Reaches cfg blocks x b :=
  ⟨b, hb, hm, .refl⟩

omit [DecidableEq ν] [DecidableEq β] in
theorem Reaches.tail {x : ν} {b c : β} (h : Reaches cfg blocks x b) (hbc : c ∈ cfg.succs b) : Reaches cfg blocks x c := by
  obtain ⟨a, ha, hm, hab⟩ := h
  exact ⟨a, ha, hm, hab.tail hbc⟩

omit [DecidableEq ν] [DecidableEq β] in
theorem derived_reaches {seeds : β → Finset ν} (hseeds : ∀ b x, x ∈ seeds b ↔ b ∈ cfg.nodes ∧ Mentions (blocks b) x) {b : β} {x : ν} :
    Derived (fun _ _ => true) (pairs cfg.nodes cfg.succs) seeds b x ↔ Reaches cfg blocks x b := by
  constructor
  · intro h
    induction h with
    | seed hx => exact .of_mentions ((hseeds _ _).mp hx).1 ((hseeds _ _).mp hx).2
    | step _ he _ ih => exact ih.tail (mem_pairs.mp he).2
  · rintro ⟨c, hc, hmention, hpath⟩
    induction hpath with
    | refl => exact .seed ((hseeds _ _).mpr ⟨hc, hmention⟩)
    | tail _ hab ih => exact .step ih (mem_pairs.mpr ⟨(cfg.closed _ _ hab).1, hab⟩) rfl

omit [DecidableEq β] in
theorem derived_live {reach : β → Finset ν} (hreach : ∀ b x, x ∈ reach b ↔ Reaches cfg blocks x b) {uses defs : β → Finset ν}
    (huses : ∀ b x, x ∈ uses b ↔ b ∈ cfg.nodes ∧ readFirst x (blocks b) = true)
    (hdefs : ∀ b ∈ cfg.nodes, defs b = (computeUseDefs (blocks b)).defmap) {b : β} {x : ν} (hb : b ∈ cfg.nodes) :
    Derived (fun b x => x ∈ reach b ∧ x ∉ defs b) (pairs cfg.nodes.reverse cfg.preds) uses b x ↔ Reaches cfg blocks x b ∧
      ∃ path, (b :: path).IsChain (fun a b => b ∈ cfg.succs a) ∧ readFirst x ((b :: path).flatMap blocks) = true := by
  constructor
  · intro h
    induction h with
    | @seed b x hx =>
      have hread := ((huses b x).mp hx).2
      exact ⟨.of_mentions hb (mentions_of_readFirst hread), [], by simp, by simpa using hread⟩
    | @step b c x _ he hp ih =>
      obtain ⟨hnode, hpred⟩ := mem_pairs.mp he
      obtain ⟨-, path, hchain, hread⟩ := ih (List.mem_reverse.mp hnode)
      have hp := of_decide_eq_true hp
      rw [hdefs c hb] at hp
      refine ⟨(hreach c x).mp hp.1, b :: path, List.isChain_cons_cons.mpr ⟨(cfg.mirror c b).mp hpred, hchain⟩, ?_⟩
      rw [List.flatMap_cons, readFirst_append]
      by_cases hc : readFirst x (blocks c) = true
      · exact .inl hc
      · refine .inr ⟨fun hm => ?_, hread⟩
        rcases mentions_iff.mp hm with hm | hm
        · exact hp.2 hm
        · exact hc (mem_usemap.mp hm)
  · rintro ⟨hreaches, path, hchain, hread⟩
    induction path generalizing b with
    | nil => exact .seed ((huses b x).mpr ⟨hb, by simpa using hread⟩)
    | cons c path ih =>
      obtain ⟨hbc, hchain⟩ := List.isChain_cons_cons.mp hchain
      rw [List.flatMap_cons, readFirst_append] at hread
      rcases hread with hread | ⟨hnot, hread⟩
      · exact .seed ((huses b x).mpr ⟨hb, hread⟩)
      · have hc := (cfg.closed b c hbc).2
        refine .step (ih hc (hreaches.tail hbc) hchain hread) (mem_pairs.mpr ⟨List.mem_reverse.mpr hc, (cfg.mirror b c).mpr hbc⟩) ?_
        refine decide_eq_true ⟨(hreach b x).mpr hreaches, fun hdef => hnot (mentions_iff.mpr (.inl ?_))⟩
        rwa [hdefs b hb] at hdef

theorem liveMap_spec (cfg : CFGraph β) (blocks : β → List (Stmt ν)) : ∃ bound, ∀ fuel > bound, ∃ live,
    liveMap fuel cfg blocks = some live ∧ ∀ b ∈ cfg.nodes, ∀ x, x ∈ live b ↔ Reaches cfg blocks x b ∧
      ∃ path, (b :: path).IsChain (fun a b => b ∈ cfg.succs a) ∧ readFirst x ((b :: path).flatMap blocks) = true := by
  let uses : β → Finset ν := fun b => if b ∈ cfg.nodes then (computeUseDefs (blocks b)).usemap else ∅
  let defs : β → Finset ν := fun b => if b ∈ cfg.nodes then (computeUseDefs (blocks b)).defmap else ∅
  let all := cfg.nodes.toFinset.sup fun b => defs b ∪ uses b
  have hall : ∀ b, defs b ∪ uses b ⊆ all := by
    intro b
    by_cases hb : b ∈ cfg.nodes
    · exact Finset.le_sup (f := fun b => defs b ∪ uses b) (List.mem_toFinset.mpr hb)
    · simp [defs, uses, hb]
  have huses : ∀ b x, x ∈ uses b ↔ b ∈ cfg.nodes ∧ readFirst x (blocks b) = true := by
    intro b x
    by_cases hb : b ∈ cfg.nodes <;> simp [uses, hb, mem_usemap]
  have hseeds : ∀ b x, x ∈ defs b ∪ uses b ↔ b ∈ cfg.nodes ∧ Mentions (blocks b) x := by
    intro b x
    by_cases hb : b ∈ cfg.nodes <;> simp [defs, uses, hb, mentions_iff]
  refine ⟨2 * missing (pairs cfg.nodes cfg.succs) all ⟨fun b => defs b ∪ uses b, true⟩ +
    2 * missing (pairs cfg.nodes.reverse cfg.preds) all ⟨uses, true⟩ + 1, fun fuel hfuel => ?_⟩
  obtain ⟨reach, hrun, hmem⟩ := @propagate_spec _ _ _ _ (fun _ _ => true) (pairs cfg.nodes cfg.succs) _ _ hall fuel (by omega)
  obtain ⟨live, hlive, hmem'⟩ := @propagate_spec _ _ _ _ (fun b x => x ∈ reach b ∧ x ∉ defs b)
    (pairs cfg.nodes.reverse cfg.preds) _ _ (fun b => Finset.subset_union_right.trans (hall b)) fuel (by omega)
  refine ⟨live, ?_, fun b hb x => ?_⟩
  · rw [liveMap, computeLiveMap, show propagate _ _ fuel _ = some reach from hrun]
    exact hlive
  · rw [hmem' b x]
    exact derived_live (fun b x => (hmem b x).trans (derived_reaches hseeds)) huses (fun b hb => if_pos hb) hb

/-- **Liveness.** A variable is in the map of a block if and only if a block that
leads there mentions it, and along some path from the block the first statement
that mentions it reads it. -/
theorem liveMap_exact (cfg : CFGraph β) (blocks : β → List (Stmt ν)) : ∃ bound, ∀ fuel > bound, ∃ live,
    liveMap fuel cfg blocks = some live ∧ ∀ b ∈ cfg.nodes, ∀ x, x ∈ live b ↔
      (∃ c ∈ cfg.nodes, Mentions (blocks c) x ∧ ReflTransGen (fun a b => b ∈ cfg.succs a) c b) ∧
      ∃ path, (b :: path).IsChain (fun a b => b ∈ cfg.succs a) ∧ readFirst x ((b :: path).flatMap blocks) = true :=
  liveMap_spec cfg blocks

end

end NumbaCudaMlir.Liveness

import Mathlib.Logic.Relation
import Mathlib.Logic.Function.Basic

/-!
# Dominators and partial dominator trees

`Dominates d n`: every walk from the root to `n` visits `d`. An iterative search
keeps a partial map of parents, and a rank that grows towards the root.
`Approximates` is what such a map promises at every moment of the search; once
the map is stable, its ancestors are the dominators (`Approximates.anc_iff`).
-/

namespace DominatorTree

open Relation

section
variable {α : Type} (E : α → α → Prop) (root : α)

/-- The nodes that a walk from the root visits, the last one first. -/
inductive Walk : List α → α → Prop where
  | root : Walk [root] root
  | step {l : List α} {m n : α} : Walk l m → E m n → Walk (n :: l) n

def Reached (n : α) : Prop := ∃ l, Walk E root l n

def Dominates (d n : α) : Prop := ∀ l, Walk E root l n → d ∈ l

/-- The strict dominator of `n` that all the others dominate. -/
def IsIdom (d n : α) : Prop :=
  Dominates E root d n ∧ d ≠ n ∧ ∀ d', Dominates E root d' n → d' ≠ n → Dominates E root d' d

variable {E} {root}

theorem Walk.mem {l : List α} {n : α} (h : Walk E root l n) : n ∈ l := by
  cases h <;> simp

theorem Dominates.refl (n : α) : Dominates E root n n := fun _ h => h.mem

theorem Dominates.pred {d m n : α} (h : Dominates E root d n) (hne : d ≠ n) (hE : E m n) : Dominates E root d m := by
  intro l hl
  have := h _ (hl.step hE)
  simpa [hne] using this

theorem Dominates.eq_root {d : α} (h : Dominates E root d root) : d = root := by
  simpa using h _ Walk.root

theorem Reached.of_edge {m n : α} (h : Reached E root m) (hE : E m n) : Reached E root n := by
  obtain ⟨l, hl⟩ := h
  exact ⟨_, hl.step hE⟩

theorem Walk.upTo {l : List α} {n x : α} (h : Walk E root l n) (hx : x ∈ l) : ∃ l', Walk E root l' x ∧ l' <:+ l := by
  induction h with
  | root => exact ⟨[root], by rw [List.mem_singleton.mp hx]; exact .root, List.suffix_refl _⟩
  | @step l m n hl hE ih =>
    rcases List.mem_cons.mp hx with rfl | hx
    · exact ⟨_, hl.step hE, List.suffix_refl _⟩
    · obtain ⟨l', hl', hsuffix⟩ := ih hx
      exact ⟨l', hl', hsuffix.trans (List.suffix_cons n l)⟩

theorem Dominates.trans {a b c : α} (h : Dominates E root a b) (h' : Dominates E root b c) : Dominates E root a c := by
  intro l hl
  obtain ⟨l', hl', hsuffix⟩ := hl.upTo (h' l hl)
  exact hsuffix.subset (h l' hl')

theorem Dominates.antisymm {a b : α} (h : Dominates E root a b) (h' : Dominates E root b a) (hb : Reached E root b) :
    a = b := by
  by_contra hne
  have hnone : ∀ k l, l.length = k → ¬ Walk E root l b := by
    intro k
    induction k using Nat.strongRecOn with
    | _ k ih =>
      intro l hk hl
      cases hl with
      | root => exact hne (by simpa using h _ .root)
      | @step l m _ hl hE =>
        have ha : a ∈ l := by simpa [hne] using h _ (hl.step hE)
        obtain ⟨l₁, hl₁, hs₁⟩ := hl.upTo ha
        obtain ⟨l₂, hl₂, hs₂⟩ := hl₁.upTo (h' _ hl₁)
        have := hs₁.length_le
        have := hs₂.length_le
        rw [List.length_cons] at hk
        exact ih l₂.length (by omega) l₂ rfl hl₂
  obtain ⟨l, hl⟩ := hb
  exact hnone _ l rfl hl

theorem IsIdom.dominates_iff {d n p : α} (h : IsIdom E root p n) : Dominates E root d n ↔ d = n ∨ Dominates E root d p := by
  constructor
  · intro hd
    by_cases hne : d = n
    · exact .inl hne
    · exact .inr (h.2.2 d hd hne)
  · intro hd
    rcases hd with rfl | hd
    · exact .refl d
    · exact hd.trans h.1

theorem Walk.extend {P : α → Prop} {l : List α} {m n : α} (h : Walk E root l m)
    (hp : ReflTransGen (fun x y => E x y ∧ P y) m n) : ∃ l', Walk E root (l' ++ l) n ∧ ∀ x ∈ l', P x := by
  induction hp with
  | refl => exact ⟨[], h, by simp⟩
  | @tail b c _ hbc ih =>
    obtain ⟨l', hl', hP⟩ := ih
    refine ⟨c :: l', hl'.step hbc.1, ?_⟩
    intro x hx
    rcases List.mem_cons.mp hx with rfl | hx
    · exact hbc.2
    · exact hP x hx

end

/-! ## Parents and ancestors -/

section
variable {α : Type} (parent : α → Option α)

/-- `b` is `a` or one of its ancestors. -/
def Anc : α → α → Prop := ReflTransGen fun x y => parent x = some y

variable {parent}

theorem Anc.refl (a : α) : Anc parent a a := ReflTransGen.refl

theorem Anc.head {a p b : α} (hp : parent a = some p) (h : Anc parent p b) : Anc parent a b := ReflTransGen.head hp h

theorem Anc.trans {a b c : α} (h : Anc parent a b) (h' : Anc parent b c) : Anc parent a c := ReflTransGen.trans h h'

theorem Anc.of_parent {a p b : α} (h : Anc parent a b) (hp : parent a = some p) (hne : a ≠ b) : Anc parent p b := by
  rcases h.cases_head with rfl | ⟨p', hp', hb⟩
  · exact absurd rfl hne
  · rw [hp, Option.some.injEq] at hp'
    exact hp' ▸ hb

theorem Anc.exists_parent {a b : α} (h : Anc parent a b) (hne : a ≠ b) : ∃ p, parent a = some p ∧ Anc parent p b := by
  rcases h.cases_head with rfl | hp
  · exact absurd rfl hne
  · exact hp

variable {rank : α → Nat} (hup : ∀ n p, parent n = some p → rank n < rank p)
include hup

theorem Anc.rank_le {a b : α} (h : Anc parent a b) : rank a ≤ rank b := by
  induction h with
  | refl => exact Nat.le_refl _
  | tail _ hp ih => exact Nat.le_trans ih (Nat.le_of_lt (hup _ _ hp))

end

/-! ## The map during a search -/

section
variable {α : Type} (E : α → α → Prop) (root : α)

def Met (parent : α → Option α) (n : α) : Prop := n = root ∨ ∃ p, parent n = some p

/-- `c` is an ancestor of all the predecessors of `n` met so far. -/
def Common (parent : α → Option α) (n c : α) : Prop := ∀ m, E m n → Met root parent m → Anc parent m c

/-- The parent of a node is reached from it through lower ranks, and no strict
dominator of the node is below its parent. -/
structure Approximates (rank : α → Nat) (parent : α → Option α) : Prop where
  top : parent root = none
  reached : ∀ n p, parent n = some p → Reached E root n
  rank_le : ∀ n, rank n ≤ rank root
  met : ∀ n p, parent n = some p → Met root parent p
  up : ∀ n p, parent n = some p → rank n < rank p
  below : ∀ n p, parent n = some p → ReflTransGen (fun x y => E x y ∧ rank y < rank p) p n
  dominator : ∀ n p d, parent n = some p → Dominates E root d n → d ≠ n → rank p ≤ rank d

variable {E} {root} {rank : α → Nat} {parent : α → Option α}

theorem Anc.congr_above {f g : α → Option α} {k : Nat} (hfg : ∀ x, k < rank x → f x = g x)
    (hup : ∀ n p, f n = some p → rank n < rank p) {n c : α} (h : Anc f n c) (hn : k < rank n) : Anc g n c := by
  induction h using ReflTransGen.head_induction_on with
  | refl => exact Anc.refl c
  | @head a p hp _ ih =>
    have := hup a p hp
    exact Anc.head (hfg a hn ▸ hp) (ih (by omega))

theorem Met.anc {a b : α} (hmet : ∀ n p, parent n = some p → Met root parent p) (ha : Met root parent a)
    (h : Anc parent a b) : Met root parent b := by
  induction h with
  | refl => exact ha
  | tail _ hp _ => exact hmet _ _ hp

namespace Approximates

theorem reached_of_met (h : Approximates E root rank parent) {n : α} (hn : Met root parent n) : Reached E root n := by
  rcases hn with rfl | ⟨p, hp⟩
  · exact ⟨_, .root⟩
  · exact h.reached n p hp

/-- A dominator of a node dominates its parent, if it is not below it. -/
theorem dominates_parent (h : Approximates E root rank parent) {n p d : α} (hp : parent n = some p)
    (hd : Dominates E root d n) (hr : rank p ≤ rank d) : Dominates E root d p := by
  intro l hl
  obtain ⟨l', hl', hlow⟩ := hl.extend (h.below n p hp)
  rcases List.mem_append.mp (hd _ hl') with hmem | hmem
  · have := hlow d hmem
    omega
  · exact hmem

/-- No dominator is lost: each one is an ancestor. -/
theorem anc_of_dominates (h : Approximates E root rank parent) {n d : α} (hn : Met root parent n)
    (hd : Dominates E root d n) : Anc parent n d := by
  generalize hk : rank root - rank n = k
  induction k using Nat.strongRecOn generalizing n with
  | _ k ih =>
    by_cases hne : d = n
    · exact hne ▸ Anc.refl d
    · rcases hn with rfl | ⟨p, hp⟩
      · exact absurd hd.eq_root hne
      · have hup := h.up n p hp
        have hle := h.rank_le p
        have hd' := h.dominates_parent hp hd (h.dominator n p d hp hd hne)
        exact Anc.head hp (ih _ (by omega) (h.met n p hp) hd' rfl)

theorem below_of_anc (h : Approximates E root rank parent) {a b : α} (hab : Anc parent a b) :
    ReflTransGen (fun x y => E x y ∧ rank y < rank b) b a := by
  induction hab using ReflTransGen.head_induction_on with
  | refl => exact ReflTransGen.refl
  | @head a p hp hpb ih =>
    have hle := Anc.rank_le h.up hpb
    have hmono : ReflTransGen (fun x y => E x y ∧ rank y < rank b) p a :=
      ReflTransGen.mono (fun x y hxy => ⟨hxy.1, Nat.lt_of_lt_of_le hxy.2 hle⟩) p a (h.below a p hp)
    exact ih.trans hmono

/-- **Soundness and completeness of a stable map.** When every node's parent is
an ancestor of all its predecessors, the ancestors are the dominators. -/
theorem anc_iff (h : Approximates E root rank parent) (hmet : ∀ n, Reached E root n → Met root parent n)
    (hstable : ∀ n p, parent n = some p → ∀ m, E m n → Reached E root m → Anc parent m p) {n d : α}
    (hn : Reached E root n) : Anc parent n d ↔ Dominates E root d n := by
  constructor
  · intro ha l hl
    induction hl generalizing d with
    | root =>
      by_cases hne : root = d
      · simp [hne]
      · obtain ⟨p, hp, -⟩ := ha.exists_parent hne
        rw [h.top] at hp
        cases hp
    | @step l m n hl hE ih =>
      by_cases hne : n = d
      · simp [hne]
      · obtain ⟨p, hp, hpd⟩ := ha.exists_parent hne
        exact List.mem_cons_of_mem _ (ih ⟨l, hl⟩ ((hstable n p hp m hE ⟨l, hl⟩).trans hpd))
  · exact h.anc_of_dominates (hmet n hn)

theorem isIdom_parent (h : Approximates E root rank parent) (hmet : ∀ n, Reached E root n → Met root parent n)
    (hstable : ∀ n p, parent n = some p → ∀ m, E m n → Reached E root m → Anc parent m p) {n p : α}
    (hn : Reached E root n) (hp : parent n = some p) (hreached : Reached E root p) : IsIdom E root p n := by
  have hup := h.up n p hp
  refine ⟨(h.anc_iff hmet hstable hn).mp (Anc.head hp (Anc.refl p)), ?_, ?_⟩
  · rintro rfl
    exact Nat.lt_irrefl _ hup
  · intro d hd hne
    have ha := (h.anc_iff hmet hstable hn).mpr hd
    exact (h.anc_iff hmet hstable hreached).mp (ha.of_parent hp (Ne.symm hne))

end Approximates

/-! ## One update -/

variable [DecidableEq α] {u b m : α}

open Function (update update_self update_of_ne)

theorem Anc.of_update (hmet : ∀ n p, parent n = some p → Met root parent p) (hroot : u ≠ root)
    (hb : Met root parent b) (hmove : ∀ a, parent u = some a → Anc parent a b) {n c : α} (hn : Met root parent n)
    (h : Anc (update parent u (some b)) n c) : Anc parent n c := by
  induction h using ReflTransGen.head_induction_on with
  | refl => exact Anc.refl c
  | @head a p hp _ ih =>
    by_cases hau : a = u
    · subst hau
      rw [update_self, Option.some.injEq] at hp
      subst hp
      rcases hn with rfl | ⟨q, hq⟩
      · exact absurd rfl hroot
      · exact Anc.head hq ((hmove q hq).trans (ih hb))
    · rw [update_of_ne hau] at hp
      exact Anc.head hp (ih (hmet a p hp))

theorem Met.updated {n : α} (h : Met root parent n) : Met root (update parent u (some b)) n := by
  rcases h with h | ⟨p, hp⟩
  · exact .inl h
  · by_cases hn : n = u
    · subst hn; exact .inr ⟨b, update_self ..⟩
    · exact .inr ⟨p, by rw [update_of_ne hn, hp]⟩

theorem Met.of_update {n : α} (h : Met root (update parent u (some b)) n) (hn : n ≠ u) : Met root parent n := by
  rcases h with h | ⟨p, hp⟩
  · exact .inl h
  · rw [update_of_ne hn] at hp; exact .inr ⟨p, hp⟩

namespace Approximates

/-- The nearest common ancestor of the predecessors met so far is a good parent. -/
theorem updated (h : Approximates E root rank parent) (hroot : u ≠ root)
    (hb : ∀ c, Anc parent b c ↔ Common E root parent u c) (hm : E m u) (hmet : Met root parent m) (hr : rank u < rank m) :
    Approximates E root rank (update parent u (some b)) := by
  have hmb : Anc parent m b := (hb b).mp (Anc.refl b) m hm hmet
  have hub : rank u < rank b := Nat.lt_of_lt_of_le hr (hmb.rank_le h.up)
  refine ⟨?_, ?_, h.rank_le, ?_, ?_, ?_, ?_⟩
  · rw [update_of_ne hroot.symm]; exact h.top
  all_goals intro n p
  all_goals by_cases hn : n = u
  all_goals first
    | rw [hn, update_self, Option.some.injEq]
    | rw [update_of_ne hn]
  · rintro -; exact (h.reached_of_met hmet).of_edge hm
  · exact h.reached n p
  · rintro rfl; exact (hmet.anc h.met hmb).updated
  · intro hp; exact (h.met n p hp).updated
  · rintro rfl; exact hub
  · exact h.up n p
  · rintro rfl; exact (h.below_of_anc hmb).tail ⟨hm, hub⟩
  · exact h.below n p
  · rintro d rfl hd hne
    have hc : Common E root parent u d := fun m' hm' hmet' => h.anc_of_dominates hmet' (hd.pred hne hm')
    exact Anc.rank_le h.up ((hb d).mpr hc)
  · exact h.dominator n p

end Approximates

/-! ## One sweep

A sweep visits the nodes from the highest rank to the lowest, and gives each one
the nearest common ancestor of its predecessors. Parents only move towards the
root. This needs the order: a node moves up in the map as it is, while the tree
above it has already changed in the same sweep. -/

/-- What holds of a node from its visit to the end of the sweep. -/
structure Settled (E : α → α → Prop) (root : α) (rank : α → Nat) (parent : α → Option α) (u : α) : Prop where
  lowest : ∀ b c, parent u = some b → Common E root parent u c → Anc parent b c
  forward : ∀ b m, parent u = some b → E m u → Met root parent m → rank u < rank m → Anc parent m b

/-- The map at the start of a sweep: it is empty, or all nodes are settled. -/
structure Start (E : α → α → Prop) (root : α) (rank : α → Nat) (o : α → Option α) : Prop where
  approx : Approximates E root rank o
  settled : ∀ n p, o n = some p → Settled E root rank o n
  whole : ∀ n p, o n = some p → ∀ m, Reached E root m → Met root o m

/-- The map `g` of a sweep that began with `o` and has to visit `rest`. -/
structure Sweep (E : α → α → Prop) (root : α) (rank : α → Nat) (o g : α → Option α) (rest : List α) : Prop where
  approx : Approximates E root rank g
  grown : ∀ n q, o n = some q → ∃ p, g n = some p ∧ Anc g q p
  untouched : ∀ n ∈ rest, g n = o n
  above : ∀ n p, g n = some p → n ∉ rest → ∀ v ∈ rest, rank v < rank n
  settled : ∀ n p, g n = some p → n ∉ rest → Settled E root rank g n

variable {o g : α → Option α} {rest : List α}

namespace Sweep

theorem anc_start (ho : Start E root rank o) (h : Sweep E root rank o g rest) {n c : α} (hn : Met root o n)
    (hc : Anc g n c) : Anc o n c := by
  generalize hk : rank root - rank n = k
  induction k using Nat.strongRecOn generalizing n with
  | _ k ih =>
    by_cases hne : n = c
    · exact hne ▸ Anc.refl n
    · obtain ⟨p, hp, hpc⟩ := hc.exists_parent hne
      rcases hn with rfl | ⟨q, hq⟩
      · rw [h.approx.top] at hp; cases hp
      · obtain ⟨p', hp', hqp⟩ := h.grown n q hq
        obtain rfl : p' = p := Option.some.inj (hp'.symm.trans hp)
        have hup := ho.approx.up n q hq
        have hle := ho.approx.rank_le q
        exact Anc.head hq (ih _ (by omega) (ho.approx.met n q hq) (hqp.trans hpc) rfl)

omit [DecidableEq α] in
/-- What a node keeps from above an old ancestor, that ancestor keeps too. -/
theorem anc_between (ho : Start E root rank o) (h : Sweep E root rank o g rest) {n y c : α} (hy : Anc o n y)
    (hc : Anc g n c) (hr : rank y ≤ rank c) : Anc g y c := by
  induction hy using ReflTransGen.head_induction_on with
  | refl => exact hc
  | @head a q hq hqy ih =>
    have hup := ho.approx.up a q hq
    have hle := Anc.rank_le ho.approx.up hqy
    have hne : a ≠ c := by rintro rfl; omega
    obtain ⟨p, hp, hpc⟩ := hc.exists_parent hne
    obtain ⟨p', hp', hqp⟩ := h.grown a q hq
    obtain rfl : p' = p := Option.some.inj (hp'.symm.trans hp)
    exact ih (hqp.trans hpc)

variable (ho : Start E root rank o) (h : Sweep E root rank o g (u :: rest))
  (hb : ∀ c, Anc g b c ↔ Common E root g u c) (hm : E m u) (hmet : Met root g m) (hr : rank u < rank m)
include ho h hb hm hmet hr

theorem moves_up {a : α} (ha : g u = some a) : Anc g a b := by
  have hau : o u = some a := (h.untouched u (List.mem_cons_self ..)) ▸ ha
  have hmeto : ∀ n, Met root g n → Met root o n := fun n hn => ho.whole u a hau n (h.approx.reached_of_met hn)
  have hmb : Anc g m b := (hb b).mp (Anc.refl b) m hm hmet
  have hcommon : Common E root o u b := by
    intro n hn hno
    have hng : Met root g n := by
      rcases hno with rfl | ⟨q, hq⟩
      · exact .inl rfl
      · obtain ⟨p, hp, -⟩ := h.grown n q hq
        exact .inr ⟨p, hp⟩
    exact h.anc_start ho hno ((hb b).mp (Anc.refl b) n hn hng)
  have hab := (ho.settled u a hau).lowest a b hau hcommon
  exact h.anc_between ho ((ho.settled u a hau).forward a m hau hm (hmeto m hmet) hr) hmb (hab.rank_le ho.approx.up)

/-- **The step of a sweep.** -/
theorem step (hroot : u ≠ root) (hrest : ∀ v ∈ rest, rank v < rank u) : Sweep E root rank o (update g u (some b)) rest := by
  have hmb : Anc g m b := (hb b).mp (Anc.refl b) m hm hmet
  have hub : rank u < rank b := Nat.lt_of_lt_of_le hr (hmb.rank_le h.approx.up)
  have happrox := h.approx.updated hroot hb hm hmet hr
  have hagree : ∀ x, rank u < rank x → update g u (some b) x = g x := fun x hx =>
    update_of_ne (by rintro rfl; exact Nat.lt_irrefl _ hx) ..
  have hkeep : ∀ {n c}, rank u < rank n → Anc g n c → Anc (update g u (some b)) n c := fun hn hc =>
    hc.congr_above (fun x hx => (hagree x hx).symm) h.approx.up hn
  have hback : ∀ {n c}, Met root g n → Anc (update g u (some b)) n c → Anc g n c := fun hn hc =>
    hc.of_update h.approx.met hroot (hmet.anc h.approx.met hmb) (fun a ha => h.moves_up ho hb hm hmet hr ha) hn
  have hcommon : ∀ {n c}, Common E root (update g u (some b)) n c → Common E root g n c := fun hc k hk hkm =>
    hback hkm (hc k hk hkm.updated)
  have hu : u ∉ rest := fun hmem => Nat.lt_irrefl _ (hrest u hmem)
  have habove : ∀ n p, g n = some p → n ∉ rest → n ≠ u → rank u < rank n := fun n p hp hn hne =>
    h.above n p hp (by simp [hne, hn]) u (List.mem_cons_self ..)
  refine ⟨happrox, ?_, ?_, ?_, ?_⟩
  · intro n q hq
    by_cases hn : n = u
    · subst hn
      have ha : g n = some q := (h.untouched n (List.mem_cons_self ..)).trans hq
      exact ⟨b, update_self .., hkeep (h.approx.up n q ha) (h.moves_up ho hb hm hmet hr ha)⟩
    · obtain ⟨p, hp, hqp⟩ := h.grown n q hq
      refine ⟨p, by rw [update_of_ne hn, hp], ?_⟩
      by_cases hmem : n ∈ rest
      · have : g n = some q := (h.untouched n (List.mem_cons_of_mem _ hmem)).trans hq
        obtain rfl : p = q := Option.some.inj (hp.symm.trans this)
        exact Anc.refl p
      · have := habove n p hp hmem hn
        have := ho.approx.up n q hq
        exact hkeep (by omega) hqp
  · intro n hn
    rw [update_of_ne (by rintro rfl; exact hu hn)]
    exact h.untouched n (List.mem_cons_of_mem _ hn)
  · intro n p hp hn v hv
    by_cases hne : n = u
    · exact hne ▸ hrest v hv
    · rw [update_of_ne hne] at hp
      exact h.above n p hp (by simp [hne, hn]) v (List.mem_cons_of_mem _ hv)
  · intro n p hp hn
    by_cases hne : n = u
    · subst hne
      constructor
      · intro b' c hb' hc
        rw [update_self, Option.some.injEq] at hb'
        exact hb' ▸ hkeep hub ((hb c).mpr (hcommon hc))
      · intro b' k hb' hk hkm hkr
        rw [update_self, Option.some.injEq] at hb'
        have hkm' := hkm.of_update (by rintro rfl; exact Nat.lt_irrefl _ hkr)
        exact hb' ▸ hkeep hkr ((hb b).mp (Anc.refl b) k hk hkm')
    · rw [update_of_ne hne] at hp
      have hrn := habove n p hp hn hne
      have hs := h.settled n p hp (by simp [hne, hn])
      constructor
      · intro b' c hb' hc
        rw [update_of_ne hne] at hb'
        have := h.approx.up n b' hb'
        exact hkeep (by omega) (hs.lowest b' c hb' (hcommon hc))
      · intro b' k hb' hk hkm hkr
        rw [update_of_ne hne] at hb'
        have hkm' := hkm.of_update (by rintro rfl; omega)
        exact hkeep (by omega) (hs.forward b' k hb' hk hkm' hkr)

end Sweep

end

end DominatorTree

import Mathlib.Algebra.Order.BigOperators.Group.List
import Mathlib.Data.List.Perm.Subperm
import NumbaCudaMlir.ControlFlowSound

/-!
# The immediate dominators that the search finds

The virtual root is the root of the graph of `Edge`. The map that a sweep leaves
is stable after finitely many sweeps: every change moves a parent up.
-/

namespace NumbaCudaMlir.ControlFlow

open WhileLoop DominatorTree

section
variable {ν : Type} [DecidableEq ν]

def Edge (roots : List ν) (succs : ν → List ν) : Option ν → Option ν → Prop
  | none, some r => r ∈ roots
  | some a, some b => b ∈ succs a
  | _, none => False

def parentOf (idom : Idom ν) : Option ν → Option (Option ν)
  | none => none
  | some n => idom.get (some n)

variable {fuel : Nat} {roots order : List ν} {preds succs : ν → List ν} {idom : Idom ν}

theorem idx_le (order : List ν) (x : Option ν) : idx order x ≤ idx order none := by
  cases x with
  | none => exact Nat.le_refl _
  | some n => exact List.idxOf_le_length

theorem reached_iff (hpo : IsPostOrder succs roots order) {n : ν} :
    Reached (Edge roots succs) none (some n) ↔ n ∈ order := by
  constructor
  · rintro ⟨l, hl⟩
    generalize hx : some n = x at hl
    induction hl generalizing n with
    | root => cases hx
    | @step l m k _ hE ih =>
      subst hx
      cases m with
      | none => exact hpo.rooted n hE
      | some m => exact hpo.closed m (ih rfl) n hE
  · intro hn
    generalize hk : order.length - order.idxOf n = k
    induction k using Nat.strongRecOn generalizing n with
    | _ k ih =>
      rcases hpo.parent n hn with hr | ⟨p, hp, hnp, hlt⟩
      · exact ⟨_, Walk.root.step hr⟩
      · have := List.idxOf_lt_length_iff.mpr hp
        exact (ih _ (by omega) hp rfl).of_edge hnp

theorem met_some {n : ν} : Met none (parentOf idom) (some n) ↔ (idom.get (some n)).isSome = true := by
  simp [Met, parentOf, Option.isSome_iff_exists]

/-! ## Climbing -/

theorem climb_spec (h : Approximates (Edge roots succs) none (idx order) (parentOf idom)) {i : Nat} {u : Option ν}
    (hi : i ≤ order.length) (hu : Met none (parentOf idom) u) (hfuel : order.length < fuel) :
    ∃ w, climb fuel order idom i u = some w ∧ Anc (parentOf idom) u w ∧ i ≤ idx order w ∧
      ∀ c, Anc (parentOf idom) u c → i ≤ idx order c → Anc (parentOf idom) w c := by
  obtain ⟨w, hw, ⟨huw, hcommon⟩, hguard⟩ := whileLoop_total (fun x => idx order x < i) idom.get
    (I := fun x => Anc (parentOf idom) u x ∧ ∀ c, Anc (parentOf idom) u c → i ≤ idx order c → Anc (parentOf idom) x c)
    (μ := fun x => order.length - idx order x) (fun x hI hlt => by
      obtain ⟨hux, hx⟩ := hI
      rw [decide_eq_true_iff] at hlt
      rcases hu.anc h.met hux with rfl | ⟨p, hp⟩
      · exact absurd hi (Nat.not_le_of_lt hlt)
      · cases x with
        | none => cases hp
        | some n =>
          have hup := h.up _ p hp
          have hle := idx_le order p
          refine ⟨p, hp, ⟨hux.trans (Anc.head hp (Anc.refl p)), fun c hc hic => (hx c hc hic).of_parent hp ?_⟩, ?_⟩
          · rintro rfl
            omega
          · simp only [idx] at hle hup ⊢
            omega) ⟨Anc.refl u, fun c hc _ => hc⟩ (Nat.lt_of_le_of_lt (Nat.sub_le ..) hfuel)
  exact ⟨w, hw, huw, by simpa using hguard, hcommon⟩

theorem intersect_spec (h : Approximates (Edge roots succs) none (idx order) (parentOf idom))
    (hinj : ∀ a b, Met none (parentOf idom) a → Met none (parentOf idom) b → idx order a = idx order b → a = b)
    (hfuel : 2 * order.length < fuel) {u v : Option ν} (hu : Met none (parentOf idom) u) (hv : Met none (parentOf idom) v) :
    ∃ w, intersect fuel order idom u v = some w ∧
      ∀ c, Anc (parentOf idom) w c ↔ Anc (parentOf idom) u c ∧ Anc (parentOf idom) v c := by
  obtain ⟨⟨a, b⟩, hw, ⟨-, -, hab⟩, hguard⟩ := whileLoop_total (fun p => p.1 ≠ p.2)
    (fun p => (climb fuel order idom (idx order p.2) p.1).bind fun u => (climb fuel order idom (idx order u) p.2).map fun v => (u, v))
    (I := fun p => Anc (parentOf idom) u p.1 ∧ Anc (parentOf idom) v p.2 ∧
      ∀ c, Anc (parentOf idom) p.1 c ∧ Anc (parentOf idom) p.2 c ↔ Anc (parentOf idom) u c ∧ Anc (parentOf idom) v c)
    (μ := fun p => (order.length - idx order p.1) + (order.length - idx order p.2)) (fun p hI hne => by
      obtain ⟨a, b⟩ := p
      obtain ⟨hua, hvb, hab⟩ := hI
      rw [decide_eq_true_iff] at hne
      have hidx : idx order a ≠ idx order b := fun he => hne (hinj a b (hu.anc h.met hua) (hv.anc h.met hvb) he)
      obtain ⟨a', ha', haa, hba, hca⟩ := climb_spec h (idx_le order b) (hu.anc h.met hua) (by omega : order.length < fuel)
      obtain ⟨b', hb', hbb, hab', hcb⟩ := climb_spec h (idx_le order a') (hv.anc h.met hvb) (by omega : order.length < fuel)
      refine ⟨(a', b'), by simp [ha', hb'], ⟨hua.trans haa, hvb.trans hbb, fun c => ?_⟩, ?_⟩
      · rw [← hab c]
        refine ⟨fun hc => ⟨haa.trans hc.1, hbb.trans hc.2⟩, fun hc => ?_⟩
        have ha'c := hca c hc.1 (hc.2.rank_le h.up)
        exact ⟨ha'c, hcb c hc.2 (ha'c.rank_le h.up)⟩
      · have hle := idx_le order b'
        have hle' := idx_le order a'
        have haa' := haa.rank_le h.up
        have hbb' := hbb.rank_le h.up
        simp only [idx] at hle hle' hidx hba hab' haa' hbb' ⊢
        omega) (s := (u, v)) ⟨Anc.refl u, Anc.refl v, fun c => Iff.rfl⟩ (show _ < fuel by omega)
  obtain rfl : a = b := by simpa using hguard
  exact ⟨a, by rw [intersect, hw]; rfl, fun c => by simpa using hab c⟩

theorem reduce_spec {α : Type} {f : α → α → Option α} {P : α → Prop} {A : α → α → Prop}
    (hf : ∀ a b, P a → P b → ∃ w, f a b = some w ∧ P w ∧ ∀ c, A w c ↔ A a c ∧ A b c) {l : List α} (hne : l ≠ [])
    (hl : ∀ x ∈ l, P x) : ∃ w, reduce f l = some w ∧ ∀ c, A w c ↔ ∀ x ∈ l, A x c := by
  have hfold : ∀ (l : List α) (a : α), P a → (∀ x ∈ l, P x) →
      ∃ w, l.foldlM f a = some w ∧ ∀ c, A w c ↔ A a c ∧ ∀ x ∈ l, A x c := by
    intro l
    induction l with
    | nil => intro a _ _; exact ⟨a, rfl, by simp⟩
    | cons b l ih =>
      intro a ha hl
      obtain ⟨w, hw, hPw, hAw⟩ := hf a b ha (hl b (List.mem_cons_self ..))
      obtain ⟨z, hz, hAz⟩ := ih w hPw fun x hx => hl x (List.mem_cons_of_mem _ hx)
      refine ⟨z, by simp [hw, hz], fun c => ?_⟩
      rw [hAz c, hAw c]
      simp [and_assoc]
  cases l with
  | nil => exact absurd rfl hne
  | cons a l => simpa [reduce] using hfold l a (hl a (List.mem_cons_self ..)) fun x hx => hl x (List.mem_cons_of_mem _ hx)

/-! ## Sweeps -/

/-- How far the parents are from the virtual root. -/
def height (order : List ν) (g : Option ν → Option (Option ν)) : Nat :=
  (order.map fun n => (g (some n)).elim (order.length + 1) fun p => order.length - idx order p).sum

theorem height_update {g : Option ν → Option (Option ν)} {u : ν} {b : Option ν} (hu : u ∈ order)
    (hup : ∀ a, g (some u) = some a → a = b ∨ idx order a < idx order b) :
    height order (Function.update g (some u) (some b)) ≤ height order g ∧
      (g (some u) ≠ some b → height order (Function.update g (some u) (some b)) < height order g) := by
  have hle : idx order b ≤ order.length := idx_le order b
  have hpoint : ∀ n ∈ order, (Function.update g (some u) (some b) (some n)).elim (order.length + 1)
      (fun p => order.length - idx order p) ≤ (g (some n)).elim (order.length + 1) fun p => order.length - idx order p := by
    intro n _
    by_cases hn : n = u
    · subst hn
      rw [Function.update_self]
      cases ha : g (some n) with
      | none => simp only [Option.elim]; omega
      | some a => rcases hup a ha with rfl | h <;> simp only [Option.elim] <;> omega
    · rw [Function.update_of_ne (by simpa using hn)]
  refine ⟨List.sum_le_sum hpoint, fun hne => List.sum_lt_sum _ _ hpoint ⟨u, hu, ?_⟩⟩
  rw [Function.update_self]
  cases ha : g (some u) with
  | none => simp only [Option.elim]; omega
  | some a =>
    rcases hup a ha with rfl | h
    · exact absurd ha hne
    · simp only [Option.elim]; omega

/-- A sweep that began with `o` and has `rest` before it. -/
structure Pass (roots : List ν) (succs : ν → List ν) (order : List ν) (o : Option ν → Option (Option ν)) (s : Idoms ν)
    (rest : List ν) : Prop where
  sweep : Sweep (Edge roots succs) none (idx order) o (parentOf s.idom) (rest.map some)
  met : ∀ n ∈ order, n ∉ rest → (s.idom.get (some n)).isSome = true
  stable : s.changed = false → parentOf s.idom = o ∧ ∀ n ∈ order, n ∉ rest → ∃ b, o (some n) = some b ∧
    ∀ c, Anc o b c ↔ Common (Edge roots succs) none o (some n) c
  lower : height order (parentOf s.idom) ≤ height order o ∧
    (s.changed = true → height order (parentOf s.idom) < height order o)

section
variable (hpo : IsPostOrder succs roots order) (hmirror : ∀ a b, a ∈ preds b ↔ b ∈ succs a)
include hpo

theorem idx_inj {g : Option ν → Option (Option ν)} (h : Approximates (Edge roots succs) none (idx order) g) (a b : Option ν)
    (ha : Met none g a) (hb : Met none g b) (heq : idx order a = idx order b) : a = b := by
  have hlt : ∀ n, Met none g (some n) → n ∈ order ∧ order.idxOf n < order.length := fun n hn =>
    have hmem := (reached_iff hpo).mp (h.reached_of_met hn)
    ⟨hmem, List.idxOf_lt_length_iff.mpr hmem⟩
  cases a with
  | none =>
    cases b with
    | none => rfl
    | some b => have := hlt b hb; simp only [idx] at heq; omega
  | some a =>
    cases b with
    | none => have := hlt a ha; simp only [idx] at heq; omega
    | some b => exact congrArg some ((List.idxOf_inj (hlt a ha).1).mp heq)

include hmirror

theorem relax_spec {s : Idoms ν} {u : ν} (h : Approximates (Edge roots succs) none (idx order) (parentOf s.idom))
    {m : Option ν} (hm : Edge roots succs m (some u)) (hmet : Met none (parentOf s.idom) m) (hfuel : 2 * order.length < fuel) :
    ∃ s' b, relax fuel roots preds order s u = some s' ∧ parentOf s'.idom = Function.update (parentOf s.idom) (some u) (some b) ∧
      (∀ c, Anc (parentOf s.idom) b c ↔ Common (Edge roots succs) none (parentOf s.idom) (some u) c) ∧
      (s'.changed = false ↔ s.changed = false ∧ parentOf s.idom (some u) = some b) := by
  have hmem : ∀ x, x ∈ predsOf roots preds s.idom u ↔ Edge roots succs x (some u) ∧ Met none (parentOf s.idom) x := by
    intro x
    cases x with
    | none => by_cases hu : u ∈ roots <;> simp [predsOf, Edge, Met, hu]
    | some v => rw [met_some]; by_cases hu : u ∈ roots <;> simp [predsOf, Edge, hmirror, hu]
  obtain ⟨b, hb, hcommon⟩ := reduce_spec (f := intersect fuel order s.idom) (P := Met none (parentOf s.idom))
    (A := Anc (parentOf s.idom)) (fun x y hx hy => by
      obtain ⟨w, hw, hwc⟩ := intersect_spec h (idx_inj hpo h) hfuel hx hy
      exact ⟨w, hw, hx.anc h.met ((hwc w).mp (Anc.refl w)).1, hwc⟩)
    (List.ne_nil_of_mem ((hmem m).mpr ⟨hm, hmet⟩)) fun x hx => ((hmem x).mp hx).2
  have hiff : ∀ c, Anc (parentOf s.idom) b c ↔ Common (Edge roots succs) none (parentOf s.idom) (some u) c := by
    intro c
    rw [hcommon c]
    exact ⟨fun hc k hk hkm => hc k ((hmem k).mpr ⟨hk, hkm⟩), fun hc k hk => hc k ((hmem k).mp hk).1 ((hmem k).mp hk).2⟩
  unfold relax
  rw [hb]
  by_cases heq : s.idom.get (some u) = some b
  · refine ⟨s, b, by simp [heq], ?_, hiff, by simp [parentOf, heq]⟩
    exact (Function.update_eq_self_iff.mpr (by simpa [parentOf] using heq.symm)).symm
  · refine ⟨⟨s.idom.set (some u) b, true⟩, b, by simp [heq], ?_, hiff, by simp [parentOf, heq]⟩
    funext x
    cases x with
    | none => rfl
    | some n =>
      by_cases hn : n = u
      · subst hn; simp [parentOf]
      · rw [Function.update_of_ne (by simpa using hn)]
        exact Dict.get_set_ne _ _ (by simpa using hn)

theorem Pass.step {o : Option ν → Option (Option ν)} (ho : Start (Edge roots succs) none (idx order) o) {s : Idoms ν} {u : ν}
    {rest : List ν} (h : Pass roots succs order o s (u :: rest)) (hu : u ∈ order)
    (hrest : ∀ v ∈ rest, order.idxOf v < order.idxOf u) (hfuel : 2 * order.length < fuel) :
    ∃ s', relax fuel roots preds order s u = some s' ∧ Pass roots succs order o s' rest := by
  obtain ⟨m, hm, hmet, hlt⟩ : ∃ m, Edge roots succs m (some u) ∧ Met none (parentOf s.idom) m ∧ idx order (some u) < idx order m := by
    rcases hpo.parent u hu with hr | ⟨p, hp, hup, hlt⟩
    · exact ⟨none, hr, .inl rfl, List.idxOf_lt_length_iff.mpr hu⟩
    · refine ⟨some p, hup, met_some.mpr (h.met p hp ?_), hlt⟩
      intro hmem
      rcases List.mem_cons.mp hmem with rfl | hmem
      · exact Nat.lt_irrefl _ hlt
      · exact Nat.lt_asymm hlt (hrest p hmem)
  obtain ⟨s', b, hs', hparent, hb, hchanged⟩ := relax_spec hpo hmirror h.sweep.approx hm hmet hfuel
  have hsweep := h.sweep.step ho hb hm hmet hlt (by simp) (by simpa [idx] using hrest)
  have hmoves : ∀ a, parentOf s.idom (some u) = some a → a = b ∨ idx order a < idx order b := by
    intro a ha
    have hab := h.sweep.moves_up ho hb hm hmet hlt ha
    by_cases hne : a = b
    · exact .inl hne
    · obtain ⟨p, hp, hpb⟩ := hab.exists_parent hne
      have := h.sweep.approx.up a p hp
      have := hpb.rank_le h.sweep.approx.up
      exact .inr (by omega)
  have hheight := height_update (g := parentOf s.idom) hu hmoves
  have hset : ∀ n, (s'.idom.get (some n)) = if n = u then some b else s.idom.get (some n) := by
    intro n
    have := congrFun hparent (some n)
    by_cases hn : n = u
    · simpa [parentOf, hn] using this
    · simpa [parentOf, hn, Function.update_of_ne] using this
  refine ⟨s', hs', ⟨hparent ▸ hsweep, ?_, ?_, ?_⟩⟩
  · intro n hn hout
    rw [hset n]
    by_cases hnu : n = u
    · simp [hnu]
    · simpa [hnu] using h.met n hn (by simp [hnu, hout])
  · intro hc
    obtain ⟨hc', hub⟩ := hchanged.mp hc
    obtain ⟨heq, hall⟩ := h.stable hc'
    refine ⟨by rw [hparent, ← heq, ← hub, Function.update_eq_self], fun n hn hout => ?_⟩
    by_cases hnu : n = u
    · rw [hnu, ← heq]; exact ⟨b, hub, hb⟩
    · exact hall n hn (by simp [hnu, hout])
  · rw [hparent]
    refine ⟨Nat.le_trans hheight.1 h.lower.1, fun hc => ?_⟩
    by_cases hub : parentOf s.idom (some u) = some b
    · have hc' : s.changed = true := by
        by_contra hfalse
        rw [hchanged.mpr ⟨by simpa using hfalse, hub⟩] at hc
        cases hc
      exact Nat.lt_of_le_of_lt hheight.1 (h.lower.2 hc')
    · exact Nat.lt_of_lt_of_le (hheight.2 hub) h.lower.1

theorem Pass.run {o : Option ν → Option (Option ν)} (ho : Start (Edge roots succs) none (idx order) o)
    (hfuel : 2 * order.length < fuel) {rest : List ν} {s : Idoms ν} (h : Pass roots succs order o s rest)
    (hmem : ∀ u ∈ rest, u ∈ order) (hsorted : rest.Pairwise fun a b => order.idxOf b < order.idxOf a) :
    ∃ s', rest.foldlM (relax fuel roots preds order) s = some s' ∧ Pass roots succs order o s' [] := by
  induction rest generalizing s with
  | nil => exact ⟨s, rfl, h⟩
  | cons u rest ih =>
    rw [List.pairwise_cons] at hsorted
    obtain ⟨s', hs', h'⟩ := h.step hpo hmirror ho (hmem u (List.mem_cons_self ..)) hsorted.1 hfuel
    obtain ⟨s'', hs'', h''⟩ := ih h' (fun v hv => hmem v (List.mem_cons_of_mem _ hv)) hsorted.2
    exact ⟨s'', by simp [hs', hs''], h''⟩

/-- Every node has the nearest common ancestor of its predecessors as its parent. -/
def Stable (roots : List ν) (succs : ν → List ν) (order : List ν) (g : Option ν → Option (Option ν)) : Prop :=
  ∀ n ∈ order, ∃ b, g (some n) = some b ∧ ∀ c, Anc g b c ↔ Common (Edge roots succs) none g (some n) c

theorem sweep_spec {s : Idoms ν} (ho : Start (Edge roots succs) none (idx order) (parentOf s.idom))
    (hfuel : 2 * order.length < fuel) : ∃ s', sweep fuel roots preds order s = some s' ∧
      Start (Edge roots succs) none (idx order) (parentOf s'.idom) ∧ (s'.changed = false → Stable roots succs order (parentOf s'.idom)) ∧
      height order (parentOf s'.idom) ≤ height order (parentOf s.idom) ∧
      (s'.changed = true → height order (parentOf s'.idom) < height order (parentOf s.idom)) := by
  have hall : ∀ n p, parentOf s.idom n = some p → n ∈ order.reverse.map some := by
    intro n p hp
    cases n with
    | none => cases hp
    | some n => simpa using (reached_iff hpo).mp (ho.approx.reached _ p hp)
  have hsorted : order.reverse.Pairwise fun a b => order.idxOf b < order.idxOf a := by
    rw [List.pairwise_reverse, List.pairwise_iff_getElem]
    intro i j hi hj hij
    rwa [List.Nodup.idxOf_getElem hpo.nodup i hi, List.Nodup.idxOf_getElem hpo.nodup j hj]
  have hstart : Pass roots succs order (parentOf s.idom) ⟨s.idom, false⟩ order.reverse := by
    refine ⟨⟨ho.approx, fun n q hq => ⟨q, hq, Anc.refl q⟩, fun _ _ => rfl, ?_, ?_⟩, ?_, ?_, ⟨Nat.le_refl _, by simp⟩⟩
    · exact fun n p hp hn => absurd (hall n p hp) hn
    · exact fun n p hp hn => absurd (hall n p hp) hn
    · exact fun n hn hout => absurd (List.mem_reverse.mpr hn) hout
    · exact fun _ => ⟨rfl, fun n hn hout => absurd (List.mem_reverse.mpr hn) hout⟩
  obtain ⟨s', hs', h⟩ := hstart.run hpo hmirror ho hfuel (by simp) hsorted
  refine ⟨s', hs', ⟨h.sweep.approx, fun n p hp => h.sweep.settled n p hp (by simp), ?_⟩, ?_, h.lower.1, h.lower.2⟩
  · intro _ _ _ m hm
    cases m with
    | none => exact .inl rfl
    | some m => exact met_some.mpr (h.met m ((reached_iff hpo).mp hm) (by simp))
  · intro hc n hn
    obtain ⟨heq, hstable⟩ := h.stable hc
    simpa [heq] using hstable n hn (by simp)

theorem sweeps_spec (hfuel : 2 * order.length + 2 * height order (fun _ => none) + 1 < fuel) :
    ∃ s, whileLoop (·.changed) (sweep fuel roots preds order) fuel ⟨Dict.empty.set none none, true⟩ = some s ∧
      Approximates (Edge roots succs) none (idx order) (parentOf s.idom) ∧ Stable roots succs order (parentOf s.idom) := by
  have hempty : parentOf (Dict.empty.set none none : Idom ν) = fun _ => none := by
    funext n
    cases n with
    | none => rfl
    | some n => exact Dict.get_set_ne _ _ (by simp)
  have hstart : Start (Edge roots succs) none (idx order) fun _ => none := by
    refine ⟨⟨rfl, ?_, idx_le order, ?_, ?_, ?_, ?_⟩, ?_, ?_⟩ <;> simp
  obtain ⟨s, hs, ⟨hinv, hstable⟩, hguard⟩ := whileLoop_total (·.changed) (sweep fuel roots preds order)
    (I := fun s => Start (Edge roots succs) none (idx order) (parentOf s.idom) ∧
      (s.changed = false → Stable roots succs order (parentOf s.idom)))
    (μ := fun s => 2 * height order (parentOf s.idom) + if s.changed then 1 else 0) (fun s hs hchanged => by
      obtain ⟨s', hs', hstart, hstable, hle, hlt⟩ := sweep_spec hpo hmirror hs.1 (by omega : 2 * order.length < fuel)
      refine ⟨s', hs', ⟨hstart, hstable⟩, ?_⟩
      cases hc : s'.changed with
      | false => simp [hchanged]; omega
      | true => simpa [hchanged] using hlt hc) (s := ⟨Dict.empty.set none none, true⟩)
    ⟨hempty ▸ hstart, by simp⟩ (show _ < fuel by rw [hempty]; simp only [if_true]; omega)
  exact ⟨s, hs, hinv.approx, hstable hguard⟩

end

/-! ## The table -/

/-- The table that `_immediate_dominators` promises. -/
structure IsIdomTable (roots : List ν) (succs : ν → List ν) (size : Nat) (table : Dict ν (Option ν)) : Prop where
  keys : ∀ u, u ∈ table.keys ↔ Reached (Edge roots succs) none (some u)
  root : ∀ u v, table.get u = some v → u ∈ roots → v = some u
  idom : ∀ u v, table.get u = some v → u ∉ roots → IsIdom (Edge roots succs) none v (some u)
  ranked : ∃ rank : ν → Nat, (∀ n, rank n ≤ size) ∧ ∀ u v, table.get u = some (some v) → v ≠ u → rank u < rank v

theorem tabulate_spec {f : ν → Option (Option ν)} {g : ν → Option ν → Option ν} :
    ∀ (order : List ν) (table : Dict ν (Option ν)), (∀ u ∈ order, ∃ v, f u = some v) →
      ∃ table', order.foldlM (fun result u => (f u).map fun v => result.set u (g u v)) table = some table' ∧
        ∀ u, table'.get u = if u ∈ order then (f u).map (g u) else table.get u := by
  intro order
  induction order with
  | nil => intro table _; exact ⟨table, rfl, by simp⟩
  | cons w order ih =>
    intro table hf
    obtain ⟨v, hv⟩ := hf w (List.mem_cons_self ..)
    obtain ⟨table', ht, hget⟩ := ih (table.set w (g w v)) fun u hu => hf u (List.mem_cons_of_mem _ hu)
    refine ⟨table', by simp [hv, ht], fun u => ?_⟩
    rw [hget u]
    by_cases hu : u ∈ order
    · simp [hu]
    · by_cases huw : u = w
      · simp [huw, hv]
      · simp [hu, huw, Dict.get_set_ne]

omit [DecidableEq ν] in
theorem mem_nodes {nodes : List ν} (hroots : ∀ r ∈ roots, r ∈ nodes) (hclosed : ∀ n ∈ nodes, ∀ m ∈ succs n, m ∈ nodes) {n : ν}
    (hn : Reached (Edge roots succs) none (some n)) : n ∈ nodes := by
  obtain ⟨l, hl⟩ := hn
  generalize hx : some n = x at hl
  induction hl generalizing n with
  | root => cases hx
  | @step l m k _ hE ih =>
    subst hx
    cases m with
    | none => exact hroots n hE
    | some m => exact hclosed m (ih rfl) n hE

theorem length_le {nodes : List ν} (hpo : IsPostOrder succs roots order) (hroots : ∀ r ∈ roots, r ∈ nodes)
    (hclosed : ∀ n ∈ nodes, ∀ m ∈ succs n, m ∈ nodes) : order.length ≤ nodes.length :=
  (List.Nodup.subperm hpo.nodup fun _ hn => mem_nodes hroots hclosed ((reached_iff hpo).mpr hn)).length_le

theorem height_le (order : List ν) : height order (fun _ => none) ≤ order.length * (order.length + 1) := by
  have : ∀ l : List ν, (l.map fun _ => order.length + 1).sum = l.length * (order.length + 1) := by simp
  exact Nat.le_of_eq (this order)

/-- **Termination and correctness of `_immediate_dominators`.** -/
theorem immediateDominators_table {nodes : List ν} (hroots : ∀ r ∈ roots, r ∈ nodes)
    (hclosed : ∀ n ∈ nodes, ∀ m ∈ succs n, m ∈ nodes) (hmirror : ∀ a b, a ∈ preds b ↔ b ∈ succs a) :
    ∃ bound, ∀ fuel > bound, ∃ table, immediateDominators fuel roots preds succs = some table ∧
      IsIdomTable roots succs nodes.length table := by
  refine ⟨work succs nodes [] + roots.length + 2 * nodes.length + 2 * (nodes.length * (nodes.length + 1)) + 1, fun fuel hfuel => ?_⟩
  obtain ⟨order, horder, hpo⟩ := postOrder_spec hroots hclosed (show _ < fuel by omega)
  have hlen := length_le hpo hroots hclosed
  have hheight := Nat.le_trans (height_le order) (Nat.mul_le_mul hlen (Nat.add_le_add_right hlen 1))
  obtain ⟨s, hs, happrox, hstable⟩ := sweeps_spec hpo hmirror (show _ < fuel by omega)
  have hmet : ∀ n, Reached (Edge roots succs) none n → Met none (parentOf s.idom) n := by
    intro n hn
    cases n with
    | none => exact .inl rfl
    | some n =>
      obtain ⟨b, hb, -⟩ := hstable n ((reached_iff hpo).mp hn)
      exact .inr ⟨b, hb⟩
  obtain ⟨table, htable, hget⟩ := tabulate_spec (f := fun u => s.idom.get (some u)) (g := fun u v => if u ∈ roots then some u else v)
    order .empty fun u hu => by
      obtain ⟨b, hb, -⟩ := hstable u hu
      exact ⟨b, hb⟩
  have hkeys : ∀ u, u ∈ table.keys ↔ u ∈ order := by
    intro u
    rw [Dict.mem_keys_iff, hget u]
    by_cases hu : u ∈ order
    · obtain ⟨b, hb, -⟩ := hstable u hu
      simp [hu, show s.idom.get (some u) = some b from hb]
    · simp [hu]
  have hentry : ∀ u v, table.get u = some v → u ∈ order ∧ ∃ b, parentOf s.idom (some u) = some b ∧
      v = if u ∈ roots then some u else b := by
    intro u v hv
    have hu : u ∈ order := (hkeys u).mp (Dict.mem_keys_iff.mpr (by simp [hv]))
    obtain ⟨b, hb, -⟩ := hstable u hu
    have hidom : s.idom.get (some u) = some b := hb
    rw [hget u, if_pos hu, hidom, Option.map_some, Option.some.injEq] at hv
    exact ⟨hu, b, hb, hv.symm⟩
  refine ⟨table, by simp [immediateDominators, horder, hs, htable],
    ⟨fun u => (hkeys u).trans (reached_iff hpo).symm, ?_, ?_, order.idxOf, ?_, ?_⟩⟩
  · intro u v hv hroot
    obtain ⟨-, b, -, rfl⟩ := hentry u v hv
    exact if_pos hroot
  · intro u v hv hroot
    obtain ⟨hu, b, hb, rfl⟩ := hentry u v hv
    rw [if_neg hroot]
    refine happrox.isIdom_parent hmet ?_ ((reached_iff hpo).mpr hu) hb (happrox.reached_of_met (happrox.met _ _ hb))
    intro n p hp m hm hmreached
    cases n with
    | none => cases hp
    | some n =>
      obtain ⟨b', hb', hcommon'⟩ := hstable n ((reached_iff hpo).mp (happrox.reached _ p hp))
      obtain rfl : b' = p := Option.some.inj (hb'.symm.trans hp)
      exact (hcommon' b').mp (Anc.refl b') m hm (hmet m hmreached)
  · exact fun n => Nat.le_trans (idx_le order (some n)) hlen
  · intro u v hv hne
    obtain ⟨-, b, hb, hvb⟩ := hentry u _ hv
    by_cases hroot : u ∈ roots
    · rw [if_pos hroot] at hvb
      exact absurd (Option.some.inj hvb) hne
    · rw [if_neg hroot] at hvb
      exact happrox.up _ _ (hvb ▸ hb)

end

end NumbaCudaMlir.ControlFlow

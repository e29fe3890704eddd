import NumbaCudaMlir.ControlFlowDominance

/-!
# Loops

The bodies that `_find_loops` collects from the back edges of a graph.
-/

namespace NumbaCudaMlir.ControlFlow

open WhileLoop DominatorTree Relation

section
variable {ν : Type} [DecidableEq ν]

/-- The end of `queue` comes first. -/
structure Collect (ν : Type) where
  queue : List ν
  body : List ν

def Collect.turn (preds : ν → List ν) (s : Collect ν) : Option (Collect ν) :=
  match s.queue with
  | [] => none
  | n :: queue => if n ∈ s.body then some ⟨queue, s.body⟩ else some ⟨(preds n).reverse ++ queue, n :: s.body⟩

def loopBody (fuel : Nat) (preds : ν → List ν) (src header : ν) : Option (List ν) :=
  (whileLoop (fun s => !s.queue.isEmpty) (Collect.turn preds) fuel ⟨[src], [header]⟩).map (·.body)

/-- The nodes from which `src` is reached without passing `header`. -/
def Natural (preds : ν → List ν) (src header n : ν) : Prop :=
  n = header ∨ src ≠ header ∧ ReflTransGen (fun x y => y ∈ preds x ∧ y ≠ header) src n

structure Collect.Inv (preds : ν → List ν) (nodes : List ν) (src header : ν) (s : Collect ν) : Prop where
  within : ∀ n ∈ s.queue, n ∈ nodes
  sound : ∀ n, n ∈ s.queue ∨ n ∈ s.body → Natural preds src header n
  top : header ∈ s.body
  started : src ∈ s.queue ∨ src ∈ s.body
  closed : ∀ n ∈ s.body, n ≠ header → ∀ m ∈ preds n, m ∈ s.queue ∨ m ∈ s.body

variable {preds : ν → List ν} {nodes : List ν} {src header : ν} {fuel : Nat}

theorem Collect.Inv.turn (hclosed : ∀ n ∈ nodes, ∀ m ∈ preds n, m ∈ nodes) {s : Collect ν} (h : s.Inv preds nodes src header)
    (hs : s.queue ≠ []) : ∃ s', s.turn preds = some s' ∧ s'.Inv preds nodes src header ∧
      work preds nodes s'.body + s'.queue.length < work preds nodes s.body + s.queue.length := by
  obtain ⟨queue, body⟩ := s
  obtain ⟨hwithin, hsound, hheader, hstarted, hkeep⟩ := h
  cases queue with
  | nil => exact absurd rfl hs
  | cons n queue =>
    have hn : n ∈ nodes := hwithin n (List.mem_cons_self ..)
    by_cases hbody : n ∈ body
    · have hdrop : ∀ m, m ∈ n :: queue ∨ m ∈ body → m ∈ queue ∨ m ∈ body := by
        intro m hm
        by_cases hmn : m = n
        · exact .inr (hmn ▸ hbody)
        · simpa [hmn] using hm
      exact ⟨⟨queue, body⟩, by simp [Collect.turn, hbody], ⟨fun m hm => hwithin m (List.mem_cons_of_mem _ hm),
        fun m hm => hsound m (hm.imp_left (List.mem_cons_of_mem _)), hheader, hdrop src hstarted,
        fun k hk hne m hm => hdrop m (hkeep k hk hne m hm)⟩, by simp⟩
    · have hmove : ∀ m, m ∈ n :: queue ∨ m ∈ body → m ∈ (preds n).reverse ++ queue ∨ m ∈ n :: body := by
        intro m hm
        simp only [List.mem_cons, List.mem_append] at hm ⊢
        tauto
      have hne : n ≠ header := fun h => hbody (h ▸ hheader)
      obtain ⟨hsrc, hpath⟩ := (hsound n (.inl (List.mem_cons_self ..))).resolve_left hne
      refine ⟨⟨(preds n).reverse ++ queue, n :: body⟩, by simp [Collect.turn, hbody],
        ⟨?_, ?_, List.mem_cons_of_mem _ hheader, hmove src hstarted, ?_⟩, ?_⟩
      · intro m hm
        rcases List.mem_append.mp hm with hm | hm
        · exact hclosed n hn m (List.mem_reverse.mp hm)
        · exact hwithin m (List.mem_cons_of_mem _ hm)
      · intro m hm
        by_cases hm' : m ∈ preds n
        · by_cases hmh : m = header
          · exact .inl hmh
          · exact .inr ⟨hsrc, hpath.tail ⟨hm', hmh⟩⟩
        · refine hsound m ?_
          simp only [List.mem_append, List.mem_reverse, hm', false_or, List.mem_cons] at hm ⊢
          tauto
      · intro k hk hkh m hm
        rcases List.mem_cons.mp hk with rfl | hk
        · exact .inl (List.mem_append_left _ (List.mem_reverse.mpr hm))
        · exact hmove m (hkeep k hk hkh m hm)
      · have := work_visit preds nodes hn hbody
        simp only [List.length_append, List.length_reverse, List.length_cons]
        omega

theorem loopBody_spec (header : ν) (hclosed : ∀ n ∈ nodes, ∀ m ∈ preds n, m ∈ nodes) (hsrc : src ∈ nodes)
    (hfuel : work preds nodes [] + 1 < fuel) :
    ∃ body, loopBody fuel preds src header = some body ∧ ∀ n, n ∈ body ↔ Natural preds src header n := by
  have hwork := work_cons_le preds nodes [] header
  have hstart : ∀ n, n ∈ [src] ∨ n ∈ [header] → Natural preds src header n := by
    intro n hn
    by_cases hne : n = header
    · exact .inl hne
    · obtain rfl : n = src := by simpa [hne] using hn
      exact .inr ⟨hne, .refl⟩
  obtain ⟨⟨queue, body⟩, hrun, hinv, hguard⟩ := whileLoop_total (fun s => !s.queue.isEmpty) (Collect.turn preds)
    (I := Collect.Inv preds nodes src header) (μ := fun s => work preds nodes s.body + s.queue.length)
    (fun s hs hg => hs.turn hclosed (by simpa using hg)) (s := ⟨[src], [header]⟩)
    ⟨by simpa using hsrc, hstart, by simp, by simp, by simp⟩ (show _ < fuel by simp only [List.length_singleton]; omega)
  obtain rfl : queue = [] := by simpa using hguard
  refine ⟨body, by rw [loopBody, hrun]; rfl, fun n => ⟨fun hn => hinv.sound n (.inr hn), fun hn => ?_⟩⟩
  rcases hn with rfl | ⟨hne, hpath⟩
  · exact hinv.top
  · have hbody : n ∈ body ∧ n ≠ header := by
      induction hpath with
      | refl => exact ⟨by simpa using hinv.started, hne⟩
      | tail _ hxy ih => exact ⟨by simpa using hinv.closed _ ih.1 ih.2 _ hxy.1, hxy.2⟩
    exact hbody.1

/-- **The loop of a back edge.** Its body holds the header and the nodes that reach the
source without passing the header; edges enter it at the header alone, and a header
that dominates the source dominates the body. -/
theorem loopBody_natural (g : CFGraph ν) (entry src header : ν) : ∃ bound, ∀ fuel > bound, ∃ body,
    loopBody fuel g.preds src header = some body ∧
      (∀ n, n ∈ body ↔ n = header ∨ src ≠ header ∧ ReflTransGen (fun x y => y ∈ g.preds x ∧ y ≠ header) src n) ∧
      (∀ a b, g.Succ a b → a ∉ body → b ∈ body → b = header) ∧
      (Dominates g.Succ entry header src → ∀ n ∈ body, Dominates g.Succ entry header n) := by
  refine ⟨work g.preds (src :: g.nodes) [] + 1, fun fuel hfuel => ?_⟩
  obtain ⟨body, hbody, hmem⟩ := loopBody_spec header
    (fun n _ m hm => List.mem_cons_of_mem _ (g.closed m n ((g.mirror m n).mp hm)).1) (List.mem_cons_self ..) hfuel
  refine ⟨body, hbody, hmem, fun a b hab ha hb => ?_, fun hdom n hn => ?_⟩
  · by_contra hne
    obtain ⟨hsrc, hpath⟩ := ((hmem b).mp hb).resolve_left hne
    by_cases hah : a = header
    · exact ha ((hmem a).mpr (.inl hah))
    · exact ha ((hmem a).mpr (.inr ⟨hsrc, hpath.tail ⟨(g.mirror a b).mpr hab, hah⟩⟩))
  · rcases (hmem n).mp hn with rfl | ⟨hne, hpath⟩
    · exact .refl n
    · have hboth : Dominates g.Succ entry header n ∧ n ≠ header := by
        clear hn
        induction hpath with
        | refl => exact ⟨hdom, hne⟩
        | tail _ hxy ih => exact ⟨ih.1.pred ih.2.symm ((g.mirror _ _).mp hxy.1), hxy.2⟩
      exact hboth.1

end

end NumbaCudaMlir.ControlFlow

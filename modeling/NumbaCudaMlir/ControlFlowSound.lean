import Mathlib.Algebra.Order.Ring.Nat
import NumbaCudaMlir.ControlFlow
import NumbaCudaMlir.DominatorTree

/-!
# The immediate dominators that the search finds
-/

namespace NumbaCudaMlir.ControlFlow

open WhileLoop DominatorTree

section
variable {ν : Type} [DecidableEq ν]

/-! ## The post-order -/

def Call.node : Call ν → ν
  | .visit n | .append n => n

/-- The nodes on the current path of the search, the deepest one first. -/
def path : List (Call ν) → List ν
  | [] => []
  | .visit _ :: stack => path stack
  | .append n :: stack => n :: path stack

omit [DecidableEq ν] in
@[simp] theorem path_visits (ns : List ν) (stack : List (Call ν)) : path (ns.map .visit ++ stack) = path stack := by
  induction ns with
  | nil => rfl
  | cons n ns ih => simpa [path] using ih

/-- A node on the stack is a root, or a child of the deepest node of the path below it. -/
def Hangs (children : ν → List ν) (roots : List ν) : List (Call ν) → Prop
  | [] => True
  | c :: below => (match path below with
      | [] => c.node ∈ roots
      | p :: _ => c.node ∈ children p) ∧ Hangs children roots below

/-- Every node but a root comes before one of its parents. -/
structure IsPostOrder (children : ν → List ν) (roots order : List ν) : Prop where
  nodup : order.Nodup
  rooted : ∀ r ∈ roots, r ∈ order
  closed : ∀ n ∈ order, ∀ m ∈ children n, m ∈ order
  parent : ∀ n ∈ order, n ∈ roots ∨ ∃ p ∈ order, n ∈ children p ∧ order.idxOf n < order.idxOf p

section
variable (children : ν → List ν) (roots nodes : List ν)

structure Search.Inv (s : Search ν) : Prop where
  nodup : (s.order ++ path s.stack).Nodup
  seen : ∀ n, n ∈ s.seen ↔ n ∈ s.order ∨ n ∈ path s.stack
  hangs : Hangs children roots s.stack
  within : ∀ n, Call.visit n ∈ s.stack → n ∈ nodes
  rooted : ∀ r ∈ roots, r ∈ s.seen ∨ Call.visit r ∈ s.stack
  closed : ∀ n ∈ s.seen, ∀ m ∈ children n, m ∈ s.seen ∨ Call.visit m ∈ s.stack
  ordered : ∀ n ∈ s.order, n ∈ roots ∨
    ∃ p, n ∈ children p ∧ (p ∈ path s.stack ∨ p ∈ s.order ∧ s.order.idxOf n < s.order.idxOf p)

/-- What is left to push for the nodes that are not seen. -/
def work (seen : List ν) : Nat := ((nodes.filter (· ∉ seen)).map fun n => (children n).length + 2).sum

theorem work_cons_le (seen : List ν) (n : ν) : work children nodes (n :: seen) ≤ work children nodes seen := by
  induction nodes with
  | nil => exact Nat.le_refl _
  | cons m nodes ih =>
    unfold work at ih ⊢
    by_cases hm : m ∈ seen
    · simpa [hm] using ih
    · by_cases hmn : m = n
      · simp [hmn] at ih hm ⊢
        simp [hm]
        omega
      · simpa [hm, hmn] using ih

theorem work_visit {seen : List ν} {n : ν} (hn : n ∈ nodes) (hseen : n ∉ seen) :
    work children nodes (n :: seen) + (children n).length + 2 ≤ work children nodes seen := by
  induction nodes with
  | nil => cases hn
  | cons m nodes ih =>
    by_cases hmn : m = n
    · have := work_cons_le children nodes seen n
      unfold work at this ⊢
      simp [hmn, hseen] at this ⊢
      omega
    · have := ih (by simpa [Ne.symm hmn] using hn)
      unfold work at this ⊢
      by_cases hm : m ∈ seen <;> simp [hm, hmn] at this ⊢ <;> omega

variable {children} {roots} {nodes}

omit [DecidableEq ν] in
theorem hangs_visits {ns : List ν} {n : ν} {stack : List (Call ν)} (hns : ∀ m ∈ ns, m ∈ children n)
    (h : Hangs children roots (.append n :: stack)) : Hangs children roots (ns.map .visit ++ .append n :: stack) := by
  induction ns with
  | nil => exact h
  | cons m ns ih =>
    simp only [List.map_cons, List.cons_append, Hangs, path_visits]
    refine ⟨?_, ih fun k hk => hns k (List.mem_cons_of_mem _ hk)⟩
    exact hns m (List.mem_cons_self ..)

omit [DecidableEq ν] in
theorem hangs_roots {ns : List ν} (hns : ∀ m ∈ ns, m ∈ roots) : Hangs children roots (ns.map .visit) := by
  induction ns with
  | nil => trivial
  | cons m ns ih =>
    refine ⟨?_, ih fun k hk => hns k (List.mem_cons_of_mem _ hk)⟩
    have : path (ns.map Call.visit) = [] := by simpa [path] using path_visits ns []
    rw [this]
    exact hns m (List.mem_cons_self ..)

theorem Search.Inv.turn (hclosed : ∀ n ∈ nodes, ∀ m ∈ children n, m ∈ nodes) {s : Search ν} (h : s.Inv children roots nodes)
    (hs : s.stack ≠ []) : ∃ s', s.turn children = some s' ∧ s'.Inv children roots nodes ∧
      work children nodes s'.seen + s'.stack.length < work children nodes s.seen + s.stack.length := by
  obtain ⟨stack, seen, order⟩ := s
  obtain ⟨hnodup, hseen, hhangs, hnodes, hroots, hchildren, hordered⟩ := h
  cases stack with
  | nil => exact absurd rfl hs
  | cons c stack =>
    cases c with
    | visit n =>
      by_cases hn : n ∈ seen
      · refine ⟨⟨stack, seen, order⟩, by simp [Search.turn, hn], ⟨hnodup, hseen, hhangs.2, ?_, ?_, ?_, hordered⟩, by simp⟩
        · exact fun m hm => hnodes m (List.mem_cons_of_mem _ hm)
        · intro r hr
          rcases hroots r hr with h | h
          · exact .inl h
          · rcases List.mem_cons.mp h with h | h
            · cases h; exact .inl hn
            · exact .inr h
        · intro k hk m hm
          rcases hchildren k hk m hm with h | h
          · exact .inl h
          · rcases List.mem_cons.mp h with h | h
            · cases h; exact .inl hn
            · exact .inr h
      · have hmem : n ∈ nodes := hnodes n (List.mem_cons_self ..)
        have hout : n ∉ order ∧ n ∉ path stack := by
          have := mt (hseen n).mpr hn
          simpa [path, not_or] using this
        refine ⟨⟨((children n).map .visit).reverse ++ .append n :: stack, n :: seen, order⟩,
          by simp [Search.turn, hn], ⟨?_, ?_, ?_, ?_, ?_, ?_, ?_⟩, ?_⟩
        all_goals simp only [← List.map_reverse, path_visits]
        · simp only [path] at hnodup ⊢
          rw [List.nodup_append] at hnodup ⊢
          refine ⟨hnodup.1, List.nodup_cons.mpr ⟨hout.2, hnodup.2.1⟩, ?_⟩
          intro a ha b hb
          rcases List.mem_cons.mp hb with rfl | hb
          · rintro rfl; exact hout.1 ha
          · exact hnodup.2.2 a ha b hb
        · intro k
          simp only [path, List.mem_cons] at hseen ⊢
          rw [hseen k]
          tauto
        · exact hangs_visits (by simp) hhangs
        · intro m hm
          simp only [List.mem_append, List.mem_map, List.mem_reverse, List.mem_cons, reduceCtorEq, false_or,
            Call.visit.injEq, exists_eq_right] at hm
          rcases hm with hm | hm
          · exact hclosed n hmem m hm
          · exact hnodes m (List.mem_cons_of_mem _ hm)
        · intro r hr
          rcases hroots r hr with h | h
          · exact .inl (List.mem_cons_of_mem _ h)
          · rcases List.mem_cons.mp h with h | h
            · cases h; exact .inl (List.mem_cons_self ..)
            · exact .inr (by simp [h])
        · intro k hk m hm
          rcases List.mem_cons.mp hk with rfl | hk
          · exact .inr (by simp [hm])
          · rcases hchildren k hk m hm with h | h
            · exact .inl (List.mem_cons_of_mem _ h)
            · rcases List.mem_cons.mp h with h | h
              · cases h; exact .inl (List.mem_cons_self ..)
              · exact .inr (by simp [h])
        · intro k hk
          rcases hordered k hk with h | ⟨p, hp, h⟩
          · exact .inl h
          · exact .inr ⟨p, hp, h.imp_left fun h => List.mem_cons_of_mem _ h⟩
        · have := work_visit children nodes hmem hn
          simp only [List.length_append, List.length_map, List.length_reverse, List.length_cons]
          omega
    | append n =>
      refine ⟨⟨stack, seen, order ++ [n]⟩, rfl, ⟨?_, ?_, hhangs.2, ?_, ?_, ?_, ?_⟩, by simp⟩
      · simpa [path] using hnodup
      · intro k
        rw [hseen k]
        simp [path, or_assoc]
      · exact fun m hm => hnodes m (List.mem_cons_of_mem _ hm)
      · exact fun r hr => (hroots r hr).imp_right fun h => by simpa using h
      · exact fun k hk m hm => (hchildren k hk m hm).imp_right fun h => by simpa using h
      · intro k hk
        have hnout : n ∉ order := by
          intro hmem
          exact (List.nodup_append.mp hnodup).2.2 n hmem n (by simp [path]) rfl
        rcases List.mem_append.mp hk with hko | hk
        · rcases hordered k hko with h | ⟨p, hp, h⟩
          · exact .inl h
          · have hkeep : ∀ q ∈ order, (order ++ [n]).idxOf q = order.idxOf q := fun q hq => List.idxOf_append_of_mem hq
            refine .inr ⟨p, hp, ?_⟩
            show p ∈ path stack ∨ p ∈ order ++ [n] ∧ (order ++ [n]).idxOf k < (order ++ [n]).idxOf p
            rw [hkeep k hko]
            rcases h with h | ⟨hmem, hlt⟩
            · rcases List.mem_cons.mp h with rfl | h
              · have hlast : (order ++ [p]).idxOf p = order.length := by simp [List.idxOf_append_of_notMem hnout]
                have := List.idxOf_lt_length_iff.mpr hko
                exact .inr ⟨by simp, by omega⟩
              · exact .inl h
            · exact .inr ⟨by simp [hmem], by rwa [hkeep p hmem]⟩
        · rw [List.mem_singleton] at hk
          subst hk
          have hroot := hhangs.1
          cases hpath : path stack with
          | nil => rw [hpath] at hroot; exact .inl hroot
          | cons p ps => rw [hpath] at hroot; exact .inr ⟨p, hroot, .inl (by simp)⟩

theorem postOrder_spec (hroots : ∀ r ∈ roots, r ∈ nodes) (hclosed : ∀ n ∈ nodes, ∀ m ∈ children n, m ∈ nodes) {fuel : Nat}
    (hfuel : work children nodes [] + roots.length < fuel) :
    ∃ order, postOrder fuel children roots = some order ∧ IsPostOrder children roots order := by
  have hstart : (⟨(roots.map .visit).reverse, [], []⟩ : Search ν).Inv children roots nodes := by
    have hpath : path ((roots.map Call.visit).reverse) = [] := by
      simpa [path, ← List.map_reverse] using path_visits roots.reverse []
    refine ⟨by simp [hpath], by simp [hpath], ?_, ?_, by simp, by simp, by simp⟩
    · rw [← List.map_reverse]; exact hangs_roots (by simp)
    · intro n hn; exact hroots n (by simpa using hn)
  obtain ⟨s, hrun, hinv, hguard⟩ := whileLoop_total (fun s : Search ν => !s.stack.isEmpty) (Search.turn children)
    (μ := fun s => work children nodes s.seen + s.stack.length)
    (fun s hs hg => hs.turn hclosed (by simpa using hg)) hstart (by simpa using hfuel)
  obtain ⟨stack, seen, order⟩ := s
  obtain rfl : stack = [] := by simpa using hguard
  have hseen : ∀ n, n ∈ seen ↔ n ∈ order := fun n => by simpa [path] using hinv.seen n
  refine ⟨order, by simp [postOrder, hrun], ⟨by simpa [path] using hinv.nodup, ?_, ?_, ?_⟩⟩
  · intro r hr
    exact (hseen r).mp (by simpa using hinv.rooted r hr)
  · intro n hn m hm
    exact (hseen m).mp (by simpa using hinv.closed n ((hseen n).mpr hn) m hm)
  · intro n hn
    rcases hinv.ordered n hn with h | ⟨p, hp, h⟩
    · exact .inl h
    · have hp' : p ∈ order ∧ order.idxOf n < order.idxOf p := by simpa [path] using h
      exact .inr ⟨p, hp'.1, hp, hp'.2⟩

end

end

end NumbaCudaMlir.ControlFlow

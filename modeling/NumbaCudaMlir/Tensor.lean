import Mathlib.Algebra.BigOperators.Group.List.Lemmas
import Mathlib.Data.List.Forall2
import Mathlib.Logic.Function.Basic
import Mathlib.Tactic.Linarith
import Mathlib.Tactic.Ring

/-!
# Dense tensors

Index vectors of a shape, their addresses in row-major order, memories filled by
a sequence of stores, and tensors that are joined along one axis: the blocks of
the joined tensor are disjoint and cover it (`concatElem_block`, `exists_block`).
-/

namespace Tensor

variable {α : Type}

abbrev InShape (is ns : List Nat) : Prop := List.Forall₂ (· < ·) is ns

/-- The index vectors of a shape, in row-major order. -/
def indices : List Nat → List (List Nat)
  | [] => [[]]
  | n :: ns => (List.range n).flatMap fun i => (indices ns).map (i :: ·)

theorem mem_indices : ∀ {ns is : List Nat}, is ∈ indices ns ↔ InShape is ns
  | [], is => by simp [indices]
  | n :: ns, is => by
    simp only [indices, List.mem_flatMap, List.mem_range, List.mem_map]
    constructor
    · rintro ⟨i, hi, js, hjs, rfl⟩
      exact .cons hi (mem_indices.mp hjs)
    · rintro (_ | ⟨hi, hjs⟩)
      exact ⟨_, hi, _, mem_indices.mpr hjs, rfl⟩

theorem nodup_indices : ∀ ns : List Nat, (indices ns).Nodup
  | [] => List.nodup_singleton _
  | n :: ns => by
    refine List.nodup_flatMap.mpr ⟨fun i _ => (nodup_indices ns).map (List.cons_injective (a := i)), ?_⟩
    refine List.nodup_range.imp fun {i j} hij is hi hj => ?_
    obtain ⟨_, _, rfl⟩ := List.mem_map.mp hi
    obtain ⟨_, _, heq⟩ := List.mem_map.mp hj
    exact hij (List.cons.inj heq).1.symm

theorem getElem?_flatMap_range {f : Nat → List α} {p : Nat} (hf : ∀ i, (f i).length = p) (hp : 0 < p) :
    ∀ {n k : Nat}, k < n * p → ((List.range n).flatMap f)[k]? = (f (k / p))[k % p]?
  | 0, k, h => by simp at h
  | n + 1, k, h => by
    have hlen : ((List.range n).flatMap f).length = n * p := by simp [List.length_flatMap, hf]
    rw [List.range_succ, List.flatMap_append, List.flatMap_singleton]
    by_cases hk : k < n * p
    · rw [List.getElem?_append_left (by omega)]
      exact getElem?_flatMap_range hf hp hk
    · have hdiv : k / p = n := by
        rw [Nat.succ_mul] at h
        exact Nat.div_eq_of_lt_le (by omega) (by rw [Nat.succ_mul]; omega)
      have hmod : k % p = k - n * p := by
        have hda := Nat.div_add_mod k p
        rw [hdiv, Nat.mul_comm] at hda
        omega
      rw [List.getElem?_append_right (by omega), hlen, hdiv, hmod]

@[simp] theorem length_indices : ∀ ns : List Nat, (indices ns).length = ns.prod
  | [] => rfl
  | n :: ns => by simp [indices, List.length_flatMap, length_indices ns]

/-- The index vector with a number in row-major order. -/
def coords : List Nat → Nat → List Nat
  | [], _ => []
  | n :: ns, k => k / ns.prod % n :: coords ns k

theorem coords_mod : ∀ (ns : List Nat) (k : Nat), coords ns (k % ns.prod) = coords ns k
  | [], _ => rfl
  | n :: ns, k => by
    rw [coords, coords, List.prod_cons, Nat.mul_comm n, Nat.mod_mul_right_div_self, Nat.mod_mod, ← coords_mod ns (k % (ns.prod * n)),
      Nat.mod_mul_right_mod, coords_mod ns k]

theorem getElem?_indices : ∀ {ns : List Nat} {k : Nat}, k < ns.prod → (indices ns)[k]? = some (coords ns k)
  | [], k, h => by
    rw [List.prod_nil, Nat.lt_one_iff] at h
    rw [h]
    rfl
  | n :: ns, k, h => by
    rw [List.prod_cons] at h
    have hpos : 0 < ns.prod := Nat.pos_of_ne_zero fun h0 => by simp [h0] at h
    rw [indices, getElem?_flatMap_range (p := ns.prod) (by simp) hpos h, List.getElem?_map,
      getElem?_indices (Nat.mod_lt k hpos), Option.map_some, coords_mod, coords,
      Nat.mod_eq_of_lt (Nat.div_lt_of_lt_mul (by rwa [Nat.mul_comm]))]

theorem inShape_iff_getD {is ns : List Nat} :
    InShape is ns ↔ is.length = ns.length ∧ ∀ d < ns.length, is.getD d 0 < ns.getD d 0 := by
  induction ns generalizing is with
  | nil => cases is <;> simp
  | cons n ns ih =>
    cases is with
    | nil => simp
    | cons i is =>
      rw [InShape, List.forall₂_cons, ← InShape, ih]
      constructor
      · rintro ⟨hi, hlen, hd⟩
        refine ⟨by simp [hlen], fun d hlt => ?_⟩
        cases d with
        | zero => exact hi
        | succ d => exact hd d (by simpa using hlt)
      · rintro ⟨hlen, hd⟩
        exact ⟨hd 0 (by simp), by simpa using hlen, fun d hlt => hd (d + 1) (by simpa using hlt)⟩

theorem InShape.pos {is ns : List Nat} (h : InShape is ns) : 0 ∉ ns := by
  induction h with
  | nil => simp
  | cons hi _ ih =>
    rintro hmem
    rcases List.mem_cons.mp hmem with h0 | hmem
    · omega
    · exact ih hmem

def last (ns : List Nat) : List Nat := ns.map (· - 1)

theorem last_inShape : ∀ {ns : List Nat}, 0 ∉ ns → InShape (last ns) ns
  | [], _ => .nil
  | n :: ns, h => by
    have hn : n - 1 < n := Nat.sub_lt (Nat.pos_of_ne_zero fun hn => h (by simp [hn])) Nat.one_pos
    exact .cons hn (last_inShape fun hmem => h (by simp [hmem]))

theorem le_last {is ns : List Nat} (h : InShape is ns) : List.Forall₂ (· ≤ ·) is (last ns) := by
  induction h with
  | nil => exact .nil
  | cons hi _ ih => exact .cons (Nat.le_sub_one_of_lt hi) ih

/-! ## Addresses -/

def linear : List Nat → List Nat → Nat
  | _ :: ns, i :: is => i * ns.prod + linear ns is
  | _, _ => 0

theorem linear_lt {is ns : List Nat} (h : InShape is ns) : linear ns is < ns.prod := by
  induction h with
  | nil => simp [linear]
  | @cons i n is ns hi _ ih =>
    have hmul : (i + 1) * ns.prod ≤ n * ns.prod := Nat.mul_le_mul_right _ hi
    rw [linear, List.prod_cons]
    rw [Nat.add_mul] at hmul
    omega

theorem linear_inj {is ns : List Nat} (h : InShape is ns) : ∀ {js : List Nat}, InShape js ns → linear ns is = linear ns js → is = js := by
  induction h with
  | nil =>
    rintro js (_ | _) _
    rfl
  | @cons i n is ns hi his ih =>
    rintro (_ | ⟨j, js⟩) (_ | ⟨hj, hjs⟩) heq
    have hlt := linear_lt his
    have hlt' := linear_lt hjs
    rw [linear, linear] at heq
    have hij : i = j := by
      have hi' : (i * ns.prod + linear ns is) / ns.prod = i := by
        rw [Nat.mul_comm, Nat.mul_add_div (by omega), Nat.div_eq_of_lt hlt, Nat.add_zero]
      have hj' : (j * ns.prod + linear ns js) / ns.prod = j := by
        rw [Nat.mul_comm, Nat.mul_add_div (by omega), Nat.div_eq_of_lt hlt', Nat.add_zero]
      rw [← hi', heq, hj']
    subst hij
    rw [ih hjs (by omega)]

theorem linear_mono {is js : List Nat} (h : List.Forall₂ (· ≤ ·) is js) : ∀ ns : List Nat, linear ns is ≤ linear ns js := by
  induction h with
  | nil => intro ns; exact Nat.le_refl _
  | @cons i j is js hij _ ih =>
    rintro (_ | ⟨n, ns⟩)
    · exact Nat.le_refl _
    · exact Nat.add_le_add (Nat.mul_le_mul_right _ hij) (ih ns)

/-! ## Stores -/

def writeAll (m : Nat → α) (stores : List (Nat × α)) : Nat → α := stores.foldl (fun m s => Function.update m s.1 s.2) m

theorem writeAll_of_not_mem {m : Nat → α} {stores : List (Nat × α)} {a : Nat} (h : ∀ s ∈ stores, s.1 ≠ a) :
    writeAll m stores a = m a := by
  induction stores generalizing m with
  | nil => rfl
  | cons s stores ih =>
    rw [writeAll, List.foldl_cons, ← writeAll, ih fun t ht => h t (by simp [ht])]
    exact Function.update_of_ne (h s (by simp)).symm _ _

theorem writeAll_eq {stores : List (Nat × α)} {a : Nat} {v : α} (h : ∀ s ∈ stores, s.1 = a → s.2 = v) (he : ∃ s ∈ stores, s.1 = a)
    (m : Nat → α) : writeAll m stores a = v := by
  induction stores generalizing m with
  | nil => simp at he
  | cons s stores ih =>
    rw [writeAll, List.foldl_cons, ← writeAll]
    by_cases hlater : ∃ t ∈ stores, t.1 = a
    · exact ih (fun t ht => h t (by simp [ht])) hlater _
    · have hs : s.1 = a := by
        obtain ⟨t, ht, hta⟩ := he
        rcases List.mem_cons.mp ht with rfl | ht
        · exact hta
        · exact absurd ⟨t, ht, hta⟩ hlater
      rw [writeAll_of_not_mem fun t ht hta => hlater ⟨t, ht, hta⟩, ← hs, Function.update_self]
      exact h s (by simp) hs

/-! ## Joining along an axis -/

structure View (α : Type) where
  sizes : List Nat
  elem : List Nat → α

def View.map {β : Type} (f : α → β) (v : View α) : View β := ⟨v.sizes, fun is => f (v.elem is)⟩

def View.sizeAt (v : View α) (k : Nat) : Nat := v.sizes.getD k 0

def moveAt (k base : Nat) (is : List Nat) : List Nat := is.set k (is.getD k 0 + base)

/-- The tensors with their offsets along axis `k`. -/
def blocks (k : Nat) : Nat → List (View α) → List (Nat × View α)
  | _, [] => []
  | base, v :: vs => (base, v) :: blocks k (base + v.sizeAt k) vs

def concatSizes (k : Nat) (first : View α) (rest : List (View α)) : List Nat :=
  first.sizes.set k (((first :: rest).map (·.sizeAt k)).sum)

/-- The element of the first tensor that the index along `k` falls into. -/
def concatElem (k : Nat) : List (View α) → List Nat → Option α
  | [], _ => none
  | v :: vs, is =>
    if is.getD k 0 < v.sizeAt k then some (v.elem is) else concatElem k vs (is.set k (is.getD k 0 - v.sizeAt k))

/-- Tensors of one rank that agree on every axis but `k`. -/
def Joinable (k : Nat) (first : View α) (rest : List (View α)) : Prop :=
  k < first.sizes.length ∧ ∀ v ∈ rest, v.sizes.length = first.sizes.length ∧
    ∀ d < first.sizes.length, d ≠ k → v.sizes.getD d 0 = first.sizes.getD d 0

theorem getD_moveAt {k : Nat} (base : Nat) {is : List Nat} (hk : k < is.length) : (moveAt k base is).getD k 0 = is.getD k 0 + base := by
  simp [moveAt, hk]

theorem getD_moveAt_ne {k d : Nat} (base : Nat) (is : List Nat) (h : d ≠ k) : (moveAt k base is).getD d 0 = is.getD d 0 := by
  simp [moveAt, List.getD_eq_getElem?_getD, List.getElem?_set_ne (Ne.symm h)]

theorem moveAt_mono {is js : List Nat} (h : List.Forall₂ (· ≤ ·) is js) (k base : Nat) :
    List.Forall₂ (· ≤ ·) (moveAt k base is) (moveAt k base js) := by
  induction h generalizing k with
  | nil => exact .nil
  | @cons i j is js hij hrest ih =>
    cases k with
    | zero => exact .cons (Nat.add_le_add_right hij base) hrest
    | succ k => exact .cons hij (ih k)

@[simp] theorem length_moveAt (k base : Nat) (is : List Nat) : (moveAt k base is).length = is.length := by simp [moveAt]

theorem exists_mem_blocks_cons {k base : Nat} {v : View α} {vs : List (View α)} {P : Nat → View α → Prop} :
    (∃ b u, (b, u) ∈ blocks k base (v :: vs) ∧ P b u) ↔ P base v ∨ ∃ b u, (b, u) ∈ blocks k (base + v.sizeAt k) vs ∧ P b u := by
  constructor
  · rintro ⟨b, u, hmem, hP⟩
    rcases List.mem_cons.mp hmem with heq | hmem
    · obtain ⟨rfl, rfl⟩ := Prod.mk.inj heq
      exact .inl hP
    · exact .inr ⟨b, u, hmem, hP⟩
  · rintro (hP | ⟨b, u, hmem, hP⟩)
    · exact ⟨base, v, List.mem_cons_self, hP⟩
    · exact ⟨b, u, List.mem_cons_of_mem _ hmem, hP⟩

theorem mem_blocks {k : Nat} : ∀ {base : Nat} {vs : List (View α)} {b : Nat} {v : View α}, (b, v) ∈ blocks k base vs →
    v ∈ vs ∧ base ≤ b ∧ b + v.sizeAt k ≤ base + (vs.map (·.sizeAt k)).sum
  | base, [], _, _, h => by cases h
  | base, u :: vs, b, v, h => by
    rcases List.mem_cons.mp h with h | h
    · obtain ⟨rfl, rfl⟩ := Prod.mk.inj h
      simp only [List.mem_cons, true_or, Nat.le_refl, List.map_cons, List.sum_cons, true_and]
      omega
    · obtain ⟨hv, hle, hsum⟩ := mem_blocks h
      rw [List.map_cons, List.sum_cons]
      exact ⟨List.mem_cons_of_mem _ hv, by omega, by omega⟩

theorem mem_blocks_map {β : Type} {k : Nat} {f g : β → View α} : ∀ {arrays : List β} {base b : Nat} {v : View α},
    (∀ a ∈ arrays, (f a).sizeAt k = (g a).sizeAt k) → (b, v) ∈ blocks k base (arrays.map f) →
      ∃ a ∈ arrays, v = f a ∧ (b, g a) ∈ blocks k base (arrays.map g)
  | [], _, _, _, _, h => by cases h
  | a :: arrays, base, b, v, hfg, h => by
    rw [List.map_cons, blocks] at h
    rcases List.mem_cons.mp h with heq | h
    · obtain ⟨rfl, rfl⟩ := Prod.mk.inj heq
      exact ⟨a, List.mem_cons_self, rfl, List.mem_cons_self⟩
    · obtain ⟨a', ha', hv, hmem⟩ := mem_blocks_map (fun a ha => hfg a (List.mem_cons_of_mem _ ha)) h
      rw [hfg a List.mem_cons_self] at hmem
      exact ⟨a', List.mem_cons_of_mem _ ha', hv, List.mem_cons_of_mem _ hmem⟩

theorem exists_mem_blocks_map {β : Type} {k : Nat} {f g : β → View α} {a : β} : ∀ {arrays : List β} (base : Nat),
    (∀ a ∈ arrays, (f a).sizeAt k = (g a).sizeAt k) → a ∈ arrays →
      ∃ b, (b, f a) ∈ blocks k base (arrays.map f) ∧ (b, g a) ∈ blocks k base (arrays.map g)
  | u :: arrays, base, hfg, h => by
    rcases List.mem_cons.mp h with rfl | h
    · exact ⟨base, List.mem_cons_self, List.mem_cons_self⟩
    · obtain ⟨b, hf, hg⟩ := exists_mem_blocks_map (base + (f u).sizeAt k) (fun a ha => hfg a (List.mem_cons_of_mem _ ha)) h
      rw [hfg u List.mem_cons_self] at hg
      exact ⟨b, List.mem_cons_of_mem _ hf, List.mem_cons_of_mem _ hg⟩

theorem concatElem_block {k : Nat} {v : View α} {is : List Nat} (hk : k < is.length) (his : is.getD k 0 < v.sizeAt k) :
    ∀ {vs : List (View α)} {base b : Nat}, (b, v) ∈ blocks k base vs → concatElem k vs (moveAt k (b - base) is) = some (v.elem is)
  | [], _, _, h => by cases h
  | u :: vs, base, b, h => by
    rw [concatElem, getD_moveAt _ hk]
    rcases List.mem_cons.mp h with h | h
    · obtain ⟨rfl, rfl⟩ := Prod.mk.inj h
      have hmove : moveAt k (b - b) is = is := by simp [moveAt, hk]
      rw [if_pos (by omega), hmove]
    · have hle := (mem_blocks h).2.1
      have hmove : (moveAt k (b - base) is).set k (is.getD k 0 + (b - base) - u.sizeAt k) = moveAt k (b - (base + u.sizeAt k)) is := by
        rw [moveAt, moveAt, List.set_set]
        congr 1
        omega
      rw [if_neg (by omega), hmove]
      exact concatElem_block hk his h

theorem exists_block {k i : Nat} : ∀ {vs : List (View α)} (base : Nat), i < (vs.map (·.sizeAt k)).sum →
    ∃ b v, (b, v) ∈ blocks k base vs ∧ ∃ j < v.sizeAt k, base + i = b + j
  | [], _, h => by simp at h
  | u :: vs, base, h => by
    rw [List.map_cons, List.sum_cons] at h
    by_cases hi : i < u.sizeAt k
    · exact ⟨base, u, List.mem_cons_self, i, hi, rfl⟩
    · obtain ⟨b, v, hmem, j, hj, heq⟩ := exists_block (base + u.sizeAt k) (show i - u.sizeAt k < (vs.map (·.sizeAt k)).sum by omega)
      exact ⟨b, v, List.mem_cons_of_mem _ hmem, j, hj, by omega⟩

section
variable {k : Nat} {first : View α} {rest : List (View α)}

theorem Joinable.agrees (h : Joinable k first rest) {v : View α} (hv : v ∈ first :: rest) :
    v.sizes.length = first.sizes.length ∧ ∀ d < first.sizes.length, d ≠ k → v.sizes.getD d 0 = first.sizes.getD d 0 := by
  rcases List.mem_cons.mp hv with rfl | hv
  · exact ⟨rfl, fun _ _ _ => rfl⟩
  · exact h.2 v hv

theorem concatSizes_congr {first' : View α} {rest' : List (View α)} (hfirst : first.sizes = first'.sizes)
    (hrest : rest.map View.sizes = rest'.map View.sizes) : concatSizes k first rest = concatSizes k first' rest' := by
  have hsizes : (first :: rest).map (·.sizeAt k) = (first' :: rest').map (·.sizeAt k) := by
    have hmap : ∀ vs : List (View α), vs.map (·.sizeAt k) = (vs.map View.sizes).map (·.getD k 0) := fun vs => by
      rw [List.map_map]
      rfl
    rw [hmap, hmap, List.map_cons (l := rest), List.map_cons (l := rest'), hfirst, hrest]
  rw [concatSizes, concatSizes, hfirst, hsizes]

@[simp] theorem length_concatSizes : (concatSizes k first rest).length = first.sizes.length := by simp [concatSizes]

theorem getD_concatSizes (hk : k < first.sizes.length) : (concatSizes k first rest).getD k 0 = ((first :: rest).map (·.sizeAt k)).sum := by
  simp [concatSizes, hk]

theorem getD_concatSizes_ne {d : Nat} (h : d ≠ k) : (concatSizes k first rest).getD d 0 = first.sizes.getD d 0 := by
  simp [concatSizes, List.getD_eq_getElem?_getD, List.getElem?_set_ne (Ne.symm h)]

theorem moveAt_inShape (h : Joinable k first rest) {b : Nat} {v : View α} (hmem : (b, v) ∈ blocks k 0 (first :: rest)) {is : List Nat}
    (his : InShape is v.sizes) : InShape (moveAt k b is) (concatSizes k first rest) := by
  obtain ⟨hv, -, hle⟩ := mem_blocks hmem
  obtain ⟨hlen, hagree⟩ := h.agrees hv
  obtain ⟨hil, hid⟩ := inShape_iff_getD.mp his
  refine inShape_iff_getD.mpr ⟨by simp [hil, hlen], fun d hd => ?_⟩
  rw [length_concatSizes] at hd
  have hlt := hid d (by omega)
  by_cases hdk : d = k
  · subst hdk
    rw [getD_moveAt b (by omega), getD_concatSizes hd]
    rw [View.sizeAt] at hle
    omega
  · rw [getD_moveAt_ne b is hdk, getD_concatSizes_ne hdk, ← hagree d hd hdk]
    exact hlt

theorem exists_moveAt (h : Joinable k first rest) {is : List Nat} (his : InShape is (concatSizes k first rest)) :
    ∃ b v, (b, v) ∈ blocks k 0 (first :: rest) ∧ ∃ js, InShape js v.sizes ∧ moveAt k b js = is := by
  obtain ⟨hil, hid⟩ := inShape_iff_getD.mp his
  rw [length_concatSizes] at hil
  have hk := h.1
  have hik := hid k (by simpa using hk)
  rw [getD_concatSizes hk] at hik
  obtain ⟨b, v, hmem, j, hj, heq⟩ := exists_block 0 hik
  obtain ⟨hlen, hagree⟩ := h.agrees (mem_blocks hmem).1
  refine ⟨b, v, hmem, is.set k j, inShape_iff_getD.mpr ⟨by simp [hil, hlen], fun d hd => ?_⟩, ?_⟩
  · rw [List.getD_eq_getElem?_getD]
    by_cases hdk : d = k
    · subst hdk
      rw [List.getElem?_set_self (by omega)]
      exact hj
    · rw [List.getElem?_set_ne (Ne.symm hdk), ← List.getD_eq_getElem?_getD, hagree d (by omega) hdk]
      have hlt := hid d (by rw [length_concatSizes]; omega)
      rwa [getD_concatSizes_ne hdk] at hlt
  · rw [moveAt, List.set_set]
    have hval : (is.set k j).getD k 0 + b = is.getD k 0 := by
      rw [List.getD_eq_getElem?_getD, List.getElem?_set_self (by omega), Option.getD_some]
      omega
    rw [hval]
    simp [hil, hk]

theorem concatElem_moveAt (h : Joinable k first rest) {b : Nat} {v : View α} (hmem : (b, v) ∈ blocks k 0 (first :: rest)) {is : List Nat}
    (his : InShape is v.sizes) : concatElem k (first :: rest) (moveAt k b is) = some (v.elem is) := by
  obtain ⟨hlen, -⟩ := h.agrees (mem_blocks hmem).1
  obtain ⟨hil, hid⟩ := inShape_iff_getD.mp his
  have hk := h.1
  exact concatElem_block (by omega) (hid k (by omega)) hmem

end

end Tensor

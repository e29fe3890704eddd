import Mathlib.Algebra.BigOperators.Group.List.Lemmas
import Mathlib.Data.List.Forall2
import Mathlib.Tactic.Ring
import Mathlib.Tactic.Linarith

/-!
# Strided address maps

An index vector addresses `dot is strides`. Two stride vectors address the
same cells of a shape exactly when some extent is empty or they agree on every
dimension with at least two indices (`dot_eq_iff`): a dimension of extent one
only ever contributes the index zero.
-/

namespace Strided

def InRange (ns is : List Int) : Prop := List.Forall₂ (fun n i => 0 ≤ i ∧ i < n) ns is

def dot : List Int → List Int → Int
  | i :: is, s :: ss => i * s + dot is ss
  | _, _ => 0

@[simp] theorem dot_cons (i s : Int) (is ss : List Int) : dot (i :: is) (s :: ss) = i * s + dot is ss := rfl

@[simp] theorem dot_nil_left (ss : List Int) : dot [] ss = 0 := by cases ss <;> rfl

theorem dot_map_mul (b : Int) : ∀ is ss : List Int, dot is (ss.map (b * ·)) = b * dot is ss
  | [], ss => by simp
  | i :: is, [] => by simp [dot]
  | i :: is, s :: ss => by simp only [List.map_cons, dot_cons, dot_map_mul b is ss]; ring

/-- The strides agree on every dimension that has two indices or more. -/
def AgreeWide : List Int → List Int → List Int → Prop
  | n :: ns, a :: as, b :: bs => (2 ≤ n → a = b) ∧ AgreeWide ns as bs
  | _, _, _ => True

theorem agreeWide_iff_get : ∀ {ns as bs : List Int},
    AgreeWide ns as bs ↔ ∀ (i : Nat) (n a b : Int), ns[i]? = some n → as[i]? = some a → bs[i]? = some b → 2 ≤ n → a = b
  | [], as, bs => by simp [AgreeWide]
  | _ :: _, [], bs => by simp [AgreeWide]
  | _ :: _, _ :: _, [] => by simp [AgreeWide]
  | n :: ns, a :: as, b :: bs => by
    rw [AgreeWide, agreeWide_iff_get]
    constructor
    · rintro ⟨h0, hs⟩ i m x y hm hx hy h2
      cases i with
      | zero =>
        obtain rfl : n = m := by simpa using hm
        obtain rfl : a = x := by simpa using hx
        obtain rfl : b = y := by simpa using hy
        exact h0 h2
      | succ i => exact hs i m x y (by simpa using hm) (by simpa using hx) (by simpa using hy) h2
    · intro h
      exact ⟨h 0 n a b rfl rfl rfl, fun i m x y hm hx hy => h (i + 1) m x y (by simpa using hm) (by simpa using hx) (by simpa using hy)⟩

def OnWide (P : Int → Prop) : List Int → List Int → Prop
  | n :: ns, x :: xs => (2 ≤ n → P x) ∧ OnWide P ns xs
  | _, _ => True

theorem onWide_congr {P Q : Int → Prop} : ∀ {ns xs : List Int}, (∀ x ∈ xs, P x ↔ Q x) →
    (OnWide P ns xs ↔ OnWide Q ns xs)
  | [], _, _ => by simp [OnWide]
  | _ :: _, [], _ => by simp [OnWide]
  | n :: ns, x :: xs, h => by
    rw [OnWide, OnWide, h x (by simp), onWide_congr fun y hy => h y (by simp [hy])]

theorem agreeWide_map_iff (f g : Int → Int) : ∀ ns xs : List Int,
    AgreeWide ns (xs.map f) (xs.map g) ↔ OnWide (fun x => f x = g x) ns xs
  | [], _ => by simp [AgreeWide, OnWide]
  | _ :: _, [] => by simp [AgreeWide, OnWide]
  | n :: ns, x :: xs => by simp [AgreeWide, OnWide, agreeWide_map_iff f g ns xs]

theorem inRange_zeros : ∀ {ns : List Int}, (∀ n ∈ ns, 0 < n) → InRange ns (List.replicate ns.length 0)
  | [], _ => .nil
  | n :: ns, h => by
    refine .cons ⟨le_refl _, h n (by simp)⟩ (inRange_zeros fun m hm => h m (by simp [hm]))

theorem dot_zeros : ∀ (k : Nat) (ss : List Int), dot (List.replicate k 0) ss = 0
  | 0, ss => by simp
  | _ + 1, [] => rfl
  | k + 1, s :: ss => by rw [List.replicate_succ, dot_cons, dot_zeros k ss]; simp

theorem not_inRange_of_empty {ns is : List Int} (h : ∃ n ∈ ns, n ≤ 0) : ¬ InRange ns is := by
  rintro hr
  induction hr with
  | nil => simp at h
  | cons hd _ ih =>
    obtain ⟨n, hn, hle⟩ := h
    rcases List.mem_cons.mp hn with rfl | hn
    · omega
    · exact ih ⟨n, hn, hle⟩

theorem dot_eq_of_agree {ns is : List Int} (hr : InRange ns is) : ∀ {as bs : List Int},
    as.length = bs.length → AgreeWide ns as bs → dot is as = dot is bs := by
  induction hr with
  | nil => intro as bs _ _; simp
  | @cons n i ns is hd _ ih =>
    intro as bs hl ha
    match as, bs, hl, ha with
    | [], [], _, _ => rfl
    | a :: as, b :: bs, hl, ha =>
      rw [dot_cons, dot_cons, ih (by simpa using hl) ha.2]
      by_cases hn : 2 ≤ n
      · rw [ha.1 hn]
      · have : i = 0 := by omega
        simp [this]

theorem agree_of_dot_eq : ∀ {ns as bs : List Int}, (∀ n ∈ ns, 0 < n) → as.length = ns.length →
    bs.length = ns.length → (∀ is, InRange ns is → dot is as = dot is bs) → AgreeWide ns as bs
  | [], _, _, _, _, _, _ => by simp [AgreeWide]
  | n :: ns, a :: as, b :: bs, hp, ha, hb, h => by
    have hpos : ∀ m ∈ ns, 0 < m := fun m hm => hp m (by simp [hm])
    refine ⟨fun hn => ?_, ?_⟩
    · have := h (1 :: List.replicate ns.length 0) (.cons ⟨by omega, by omega⟩ (inRange_zeros hpos))
      simpa [dot_zeros] using this
    · refine agree_of_dot_eq hpos (by simpa using ha) (by simpa using hb) fun is his => ?_
      have := h (0 :: is) (.cons ⟨le_refl _, hp n (by simp)⟩ his)
      simpa using this

/-- **Two stride vectors address the same cells** exactly when the shape is
empty or they agree on its wide dimensions. -/
theorem dot_eq_iff {ns as bs : List Int} (ha : as.length = ns.length) (hb : bs.length = ns.length) :
    (∀ is, InRange ns is → dot is as = dot is bs) ↔ (∃ n ∈ ns, n ≤ 0) ∨ AgreeWide ns as bs := by
  constructor
  · intro h
    by_cases he : ∃ n ∈ ns, n ≤ 0
    · exact .inl he
    · refine .inr (agree_of_dot_eq (fun n hn => ?_) ha hb h)
      by_contra hc
      exact he ⟨n, hn, by omega⟩
  · rintro (he | hag) is his
    · exact absurd his (not_inRange_of_empty he)
    · exact dot_eq_of_agree his (ha.trans hb.symm) hag

/-! ## Independent dimensions -/

section
variable {α : Type} {m : Int}

theorem exists_base {ds : List ((α → Prop) × (α → Int))} (h : ∀ d ∈ ds, ∃ x, d.1 x ∧ m ∣ d.2 x) :
    ∃ xs, List.Forall₂ (fun d x => d.1 x) ds xs ∧ m ∣ (List.zipWith (fun d x => d.2 x) ds xs).sum := by
  induction ds with
  | nil => exact ⟨[], .nil, by simp⟩
  | cons d ds ih =>
    obtain ⟨x, hx, hd⟩ := h d (by simp)
    obtain ⟨xs, hxs, hsum⟩ := ih fun d hd => h d (by simp [hd])
    exact ⟨x :: xs, .cons hx hxs, by simpa using Int.dvd_add hd hsum⟩

/-- Contributions of independent dimensions that can all be multiples of `m`
sum to a multiple of `m` everywhere exactly when each is one everywhere, or
some dimension is empty. -/
theorem forall_dvd_sum_iff {ds : List ((α → Prop) × (α → Int))} (hbase : ∀ d ∈ ds, (∃ x, d.1 x) → ∃ x, d.1 x ∧ m ∣ d.2 x) :
    (∀ xs, List.Forall₂ (fun d x => d.1 x) ds xs → m ∣ (List.zipWith (fun d x => d.2 x) ds xs).sum) ↔
      (∃ d ∈ ds, ∀ x, ¬ d.1 x) ∨ ∀ d ∈ ds, ∀ x, d.1 x → m ∣ d.2 x := by
  constructor
  · intro h
    by_cases he : ∃ d ∈ ds, ∀ x, ¬ d.1 x
    · exact .inl he
    · refine .inr ?_
      push Not at he
      have hpoint : ∀ d ∈ ds, ∃ x, d.1 x ∧ m ∣ d.2 x := fun d hd => hbase d hd (he d hd)
      clear he hbase
      induction ds with
      | nil => simp
      | cons d ds ih =>
        intro e he x hx
        obtain ⟨y, hy, hdy⟩ := hpoint d (by simp)
        have htail : ∀ d ∈ ds, ∃ x, d.1 x ∧ m ∣ d.2 x := fun d hd => hpoint d (by simp [hd])
        rcases List.mem_cons.mp he with rfl | he
        · obtain ⟨xs, hxs, hsum⟩ := exists_base htail
          have := h (x :: xs) (.cons hx hxs)
          rw [List.zipWith_cons_cons, List.sum_cons] at this
          exact (Int.dvd_add_left hsum).mp this
        · refine ih (fun xs hxs => ?_) htail e he x hx
          have := h (y :: xs) (.cons hy hxs)
          rw [List.zipWith_cons_cons, List.sum_cons] at this
          exact (Int.dvd_add_right hdy).mp this
  · rintro (⟨d, hd, hempty⟩ | hall) xs hxs
    · exfalso
      clear hbase
      induction hxs with
      | nil => cases hd
      | @cons e x ds xs hx _ ih =>
        rcases List.mem_cons.mp hd with rfl | hd
        · exact hempty x hx
        · exact ih hd
    · clear hbase
      induction hxs with
      | nil => simp
      | @cons e x ds xs hx _ ih =>
        rw [List.zipWith_cons_cons, List.sum_cons]
        exact Int.dvd_add (hall e (by simp) x hx) (ih fun d hd => hall d (by simp [hd]))

end

/-! ## Row-major strides -/

def rowMajor : List Int → List Int
  | [] => []
  | _ :: ns => ns.prod :: rowMajor ns

@[simp] theorem rowMajor_length : ∀ ns : List Int, (rowMajor ns).length = ns.length
  | [] => rfl
  | _ :: ns => by simp [rowMajor, rowMajor_length ns]

theorem last_dvd_rowMajor {l : Int} : ∀ {ns : List Int} {i : Nat} {s : Int}, ns.getLast? = some l →
    i + 1 < ns.length → (rowMajor ns)[i]? = some s → l ∣ s
  | [_], _, _, _, hi, _ => by simp at hi
  | n :: m :: ns, 0, s, hl, _, hs => by
    obtain rfl : (m :: ns).prod = s := by simpa [rowMajor] using hs
    exact List.dvd_prod (List.mem_of_getLast? (by simpa using hl))
  | n :: m :: ns, i + 1, s, hl, hi, hs =>
    last_dvd_rowMajor (by simpa using hl) (show i + 1 < (m :: ns).length by simpa using hi) (by simpa [rowMajor] using hs)

end Strided

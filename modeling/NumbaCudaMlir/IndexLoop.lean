import Mathlib.Data.List.Forall2
import Mathlib.Data.Nat.Find
import Mathlib.Logic.Function.Basic
import Mathlib.Tactic.Ring
import Mathlib.Tactic.Linarith

/-!
# Loops over 64-bit indices

Loops that compare signed and add with wraparound, nested over several
dimensions, and what a loop writes to a memory that every turn fills in part.
-/

namespace IndexLoop

variable {σ : Type}

/-- At most `turns` turns; an index that has taken each of its values once
takes them all again. -/
def forLoop : Nat → BitVec 64 → BitVec 64 → BitVec 64 → (BitVec 64 → σ → Option σ) → σ → Option σ
  | 0, _, _, _, _, _ => none
  | turns + 1, lower, upper, step, body, s =>
    if lower.slt upper then do
      let s ← body lower s
      forLoop turns (lower + step) upper step body s
    else some s

structure Bounds where
  lower : BitVec 64
  upper : BitVec 64
  step : BitVec 64

/-- Nested loops. A step has to be positive. -/
def forall_ : List Bounds → (List (BitVec 64) → σ → Option σ) → σ → Option σ
  | [], body, s => body [] s
  | b :: bounds, body, s =>
    if b.step.sle 0 then none
    else forLoop (2 ^ 64) b.lower b.upper b.step (fun i => forall_ bounds fun is => body (i :: is)) s

def Bounds.full (n : BitVec 64) : Bounds := ⟨0, n, 1⟩

/-! ## Indices -/

def turn (lower step : BitVec 64) (k : Nat) : BitVec 64 := lower + BitVec.ofNat 64 k * step

@[simp] theorem turn_zero (lower step : BitVec 64) : turn lower step 0 = lower := by simp [turn]

theorem turn_succ (lower step : BitVec 64) (k : Nat) : turn (lower + step) step k = turn lower step (k + 1) := by
  rw [turn, turn, BitVec.ofNat_add, BitVec.add_mul, BitVec.add_assoc, BitVec.add_comm step, show BitVec.ofNat 64 1 = 1#64 from rfl,
    BitVec.one_mul]

theorem turn_mod (lower step : BitVec 64) (k : Nat) : turn lower step (k % 2 ^ 64) = turn lower step k := by
  rw [turn, turn, show BitVec.ofNat 64 (k % 2 ^ 64) = BitVec.ofNat 64 k from BitVec.eq_of_toNat_eq (by simp)]

theorem exists_turns {lower upper step : BitVec 64} (h : ∃ k, ¬ (turn lower step k).slt upper) :
    ∃ n < 2 ^ 64, (∀ k < n, (turn lower step k).slt upper) ∧ ¬ (turn lower step n).slt upper := by
  classical
  refine ⟨Nat.find h, ?_, fun k hk => ?_, Nat.find_spec h⟩
  · have hmod : ¬ (turn lower step (Nat.find h % 2 ^ 64)).slt upper := by
      rw [turn_mod]
      exact Nat.find_spec h
    exact (Nat.find_min' h hmod).trans_lt (Nat.mod_lt _ (by positivity))
  · exact not_not.mp (Nat.find_min h hk)

theorem forLoop_endless {lower upper step : BitVec 64} {body : BitVec 64 → σ → Option σ} (turns : Nat)
    (h : ∀ k, (turn lower step k).slt upper) (s : σ) : forLoop turns lower upper step body s = none := by
  induction turns generalizing lower s with
  | zero => rfl
  | succ turns ih =>
    have h0 := h 0
    rw [turn_zero] at h0
    rw [forLoop, if_pos h0]
    cases body lower s with
    | none => rfl
    | some s => exact ih (fun k => by rw [turn_succ]; exact h (k + 1)) s

theorem forLoop_fails {lower upper step : BitVec 64} {body : BitVec 64 → σ → Option σ} {turns n : Nat}
    (hbefore : ∀ k ≤ n, (turn lower step k).slt upper) (hfails : ∀ s, body (turn lower step n) s = none) (s : σ) :
    forLoop turns lower upper step body s = none := by
  induction turns generalizing lower n s with
  | zero => rfl
  | succ turns ih =>
    have h0 := hbefore 0 (Nat.zero_le n)
    rw [turn_zero] at h0
    rw [forLoop, if_pos h0]
    cases n with
    | zero => rw [← turn_zero lower step, hfails]; rfl
    | succ n =>
      cases body lower s with
      | none => rfl
      | some s =>
        refine ih (n := n) (fun k hk => ?_) (fun s => ?_) s
        · rw [turn_succ]
          exact hbefore (k + 1) (by omega)
        · rw [turn_succ]
          exact hfails s

/-! ## Memories -/

variable {α : Type}

open Classical in
/-- The value is written to the given addresses and to no others. -/
def Fills (f : (Int → α) → Option (Int → α)) (P : Int → Prop) (x : α) : Prop :=
  ∀ m, ∃ m', f m = some m' ∧ ∀ a, m' a = if P a then x else m a

theorem Fills.congr {f : (Int → α) → Option (Int → α)} {P Q : Int → Prop} {x : α} (h : Fills f P x) (hiff : ∀ a, P a ↔ Q a) :
    Fills f Q x := by
  rwa [← show P = Q from funext fun a => propext (hiff a)]

theorem forLoop_fills {lower upper step : BitVec 64} {body : BitVec 64 → (Int → α) → Option (Int → α)} {P : Nat → Int → Prop} {x : α}
    {turns n : Nat} (hbefore : ∀ k < n, (turn lower step k).slt upper) (hend : ¬ (turn lower step n).slt upper) (hturns : n < turns)
    (hbody : ∀ k < n, Fills (body (turn lower step k)) (P k) x) :
    Fills (forLoop turns lower upper step body) (fun a => ∃ k < n, P k a) x := by
  induction turns generalizing lower n P with
  | zero => exact absurd hturns (Nat.not_lt_zero n)
  | succ turns ih =>
    intro m
    cases n with
    | zero =>
      rw [turn_zero] at hend
      exact ⟨m, by rw [forLoop, if_neg hend], fun a => by simp⟩
    | succ n =>
      have h0 := hbefore 0 (Nat.succ_pos n)
      obtain ⟨m₁, hm₁, hP⟩ := hbody 0 (Nat.succ_pos n) m
      rw [turn_zero] at h0 hm₁
      have hrest : Fills (forLoop turns (lower + step) upper step body) (fun a => ∃ k < n, P (k + 1) a) x := by
        refine ih (fun k hk => ?_) (by rwa [turn_succ]) (by omega) fun k hk => ?_
        · rw [turn_succ]
          exact hbefore (k + 1) (by omega)
        · rw [turn_succ]
          exact hbody (k + 1) (by omega)
      obtain ⟨m₂, hm₂, hQ⟩ := hrest m₁
      refine ⟨m₂, ?_, fun a => ?_⟩
      · rw [forLoop, if_pos h0, hm₁]
        exact hm₂
      · rw [hQ, hP]
        by_cases hlater : ∃ k < n, P (k + 1) a
        · obtain ⟨k, hk, hPk⟩ := hlater
          rw [if_pos ⟨k, hk, hPk⟩, if_pos ⟨k + 1, by omega, hPk⟩]
        · rw [if_neg hlater]
          by_cases hfirst : P 0 a
          · rw [if_pos hfirst, if_pos ⟨0, by omega, hfirst⟩]
          · rw [if_neg hfirst, if_neg]
            rintro ⟨k, hk, hPk⟩
            cases k with
            | zero => exact hfirst hPk
            | succ k => exact hlater ⟨k, by omega, hPk⟩

theorem turn_full (k : Nat) : turn 0 1 k = BitVec.ofNat 64 k := by
  rw [turn, show (1 : BitVec 64) = 1#64 from rfl, BitVec.mul_one]
  exact BitVec.zero_add _

theorem ofNat_slt_iff {k n : Nat} (hk : k < 2 ^ 63) (hn : n < 2 ^ 63) : (BitVec.ofNat 64 k).slt (BitVec.ofNat 64 n) = true ↔ k < n := by
  rw [BitVec.slt_iff_toInt_lt, BitVec.toInt_eq_toNat_cond, BitVec.toInt_eq_toNat_cond, BitVec.toNat_ofNat, BitVec.toNat_ofNat,
    Nat.mod_eq_of_lt (by omega), Nat.mod_eq_of_lt (by omega)]
  omega

theorem forLoop_range {n : Nat} (hn : n < 2 ^ 63) (f : BitVec 64 → σ → σ) : ∀ (turns k : Nat) (s : σ), k ≤ n → n < turns + k →
    forLoop turns (BitVec.ofNat 64 k) (BitVec.ofNat 64 n) 1 (fun i s => some (f i s)) s =
      some ((List.range' k (n - k)).foldl (fun s i => f (BitVec.ofNat 64 i) s) s)
  | 0, k, s, hk, hturns => absurd hturns (by omega)
  | turns + 1, k, s, hk, hturns => by
    rw [forLoop]
    by_cases hlt : k < n
    · have hrange : n - k = (n - (k + 1)) + 1 := by omega
      have hnext : BitVec.ofNat 64 k + 1 = BitVec.ofNat 64 (k + 1) := (BitVec.ofNat_add k 1).symm
      rw [if_pos ((ofNat_slt_iff (by omega) hn).mpr hlt), hrange, List.range'_succ, hnext]
      exact forLoop_range hn f turns (k + 1) (f (BitVec.ofNat 64 k) s) hlt (by omega)
    · have hempty : n - k = 0 := by omega
      rw [if_neg (fun h => hlt ((ofNat_slt_iff (by omega) hn).mp h)), hempty]
      rfl

theorem forLoop_full {n : Nat} (hn : n < 2 ^ 63) (f : BitVec 64 → σ → σ) (s : σ) :
    forLoop (2 ^ 64) 0 (BitVec.ofNat 64 n) 1 (fun i s => some (f i s)) s =
      some ((List.range n).foldl (fun s i => f (BitVec.ofNat 64 i) s) s) := by
  rw [List.range_eq_range']
  exact forLoop_range hn f (2 ^ 64) 0 s (Nat.zero_le n) (by omega)

theorem forall_full_cons (n : BitVec 64) (bounds : List Bounds) (body : List (BitVec 64) → σ → Option σ) :
    forall_ (.full n :: bounds) body = forLoop (2 ^ 64) 0 n 1 fun i => forall_ bounds fun is => body (i :: is) := by
  funext s
  have hstep : ¬ (Bounds.full n).step.sle 0 = true := show ¬ (1 : BitVec 64).sle 0 = true by decide
  rw [forall_, if_neg hstep, Bounds.full]

theorem forall_full_fills {x : α} : ∀ {ns : List Nat} {body : List (BitVec 64) → (Int → α) → Option (Int → α)} {P : List Nat → Int → Prop},
    (∀ n ∈ ns, n < 2 ^ 63) → (∀ c, List.Forall₂ (· < ·) c ns → Fills (body (c.map (BitVec.ofNat 64))) (P c) x) →
      Fills (forall_ (ns.map fun n => .full (BitVec.ofNat 64 n)) body) (fun a => ∃ c, List.Forall₂ (· < ·) c ns ∧ P c a) x
  | [], body, P, _, h => (h [] .nil).congr fun a => by simp
  | n :: ns, body, P, hns, h => by
    have hn : n < 2 ^ 63 := hns n (by simp)
    have hinner : ∀ k < n, Fills (forall_ (ns.map fun n => .full (BitVec.ofNat 64 n)) fun is => body (turn 0 1 k :: is))
        (fun a => ∃ c, List.Forall₂ (· < ·) c ns ∧ P (k :: c) a) x := fun k hk =>
      forall_full_fills (fun m hm => hns m (by simp [hm])) fun c hc => by rw [turn_full]; exact h (k :: c) (.cons hk hc)
    have hloop : Fills (forLoop (2 ^ 64) 0 (BitVec.ofNat 64 n) 1 fun i =>
        forall_ (ns.map fun n => .full (BitVec.ofNat 64 n)) fun is => body (i :: is))
        (fun a => ∃ k < n, ∃ c, List.Forall₂ (· < ·) c ns ∧ P (k :: c) a) x := by
      refine forLoop_fills (fun k hk => ?_) ?_ (by omega) hinner
      · rw [turn_full, ofNat_slt_iff (by omega) hn]
        exact hk
      · rw [turn_full, ofNat_slt_iff hn hn]
        exact Nat.lt_irrefl n
    rw [List.map_cons, forall_full_cons]
    refine hloop.congr fun a => ⟨?_, ?_⟩
    · rintro ⟨k, hk, c, hc, hP⟩
      exact ⟨k :: c, .cons hk hc, hP⟩
    · rintro ⟨c, hc, hP⟩
      cases hc with
      | cons hk hc => exact ⟨_, hk, _, hc, hP⟩

theorem forall_full_fails {body : List (BitVec 64) → σ → Option σ} : ∀ {ns : List Nat}, (∀ n ∈ ns, 0 < n ∧ n < 2 ^ 63) →
    (∀ is s, body is s = none) → ∀ s, forall_ (ns.map fun n => .full (BitVec.ofNat 64 n)) body s = none
  | [], _, h, s => h [] s
  | n :: ns, hns, h, s => by
    obtain ⟨hpos, hn⟩ := hns n (by simp)
    rw [List.map_cons, forall_full_cons]
    refine forLoop_fails (n := 0) (fun k hk => ?_) (fun s => ?_) s
    · rw [Nat.le_zero.mp hk, turn_full, ofNat_slt_iff (by decide) hn]
      exact hpos
    · exact forall_full_fails (fun m hm => hns m (by simp [hm])) (fun is s => h _ s) s

end IndexLoop

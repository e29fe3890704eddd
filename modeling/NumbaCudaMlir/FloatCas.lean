import Mathlib.Data.List.Induction
import NumbaCudaMlir.FloatBits
import NumbaCudaMlir.IntegerArith
import NumbaCudaMlir.Linearize

/-!
# The loop of float atomics

`atomicrmw` with a float minimum or maximum is a load, and a compare-and-swap on
the integer of the same width that is tried until it stores the operand or there
is nothing to store. Threads run it on one cell, a load or a swap at a time.
-/

namespace NumbaCudaMlir.FloatCas

open Runs

/-! ## Types and comparisons -/

inductive FloatType where
  | f32 | f64
  deriving DecidableEq, Repr

def FloatType.format : FloatType → BinaryFloat.Format
  | f32 => BinaryFloat.binary32
  | f64 => BinaryFloat.binary64

def FloatType.bits : FloatType → Nat
  | f32 => 32
  | f64 => 64

def number {ty : FloatType} (x : BitVec ty.bits) : BinaryFloat.Value := BinaryFloat.decode ty.format x.toNat

inductive AtomicBinOp where
  | fmax | fmaximum | fmin | fminimum
  deriving DecidableEq, Repr

inductive RealPredicate where
  | OLT | OGT | UNO
  deriving DecidableEq, Repr

def fcmp (p : RealPredicate) (x y : BinaryFloat.Value) : Bool :=
  match p with
  | .OLT => IntegerArith.floatLt x y
  | .OGT => IntegerArith.floatLt y x
  | .UNO => x = .nan ∨ y = .nan

def AtomicBinOp.cmpPred : AtomicBinOp → RealPredicate
  | fmax | fmaximum => .OLT
  | fmin | fminimum => .OGT

/-! ## The loop -/

structure AtomicRMW (ty : FloatType) where
  binOp : AtomicBinOp
  val : BitVec ty.bits

inductive Pc (ty : FloatType) where
  | idle
  | entry (op : AtomicRMW ty)
  | attempt (op : AtomicRMW ty) (dold : BitVec ty.bits)
  | done (result : BitVec ty.bits)

section
variable {ty : FloatType}

def AtomicRMW.shouldSwap (op : AtomicRMW ty) (dold : BitVec ty.bits) : Bool :=
  fcmp op.binOp.cmpPred (number dold) (number op.val) || fcmp .UNO (number dold) (number dold)

def casLoop (op : AtomicRMW ty) (dold : BitVec ty.bits) : Pc ty := if op.shouldSwap dold then .attempt op dold else .done dold

/-- The block of the operation, behind its load. -/
def casEntry (op : AtomicRMW ty) (ptrval : BitVec ty.bits) : Pc ty :=
  if fcmp .UNO (number op.val) (number op.val) then .done ptrval else casLoop op ptrval

end

structure State (ι : Type) (ty : FloatType) where
  cell : BitVec ty.bits
  threads : ι → Pc ty

/-- A thread calls, accesses the cell or returns; other code stores to the cell. -/
inductive Event (ι : Type) (ty : FloatType) where
  | call (t : ι) (op : AtomicRMW ty)
  | access (t : ι)
  | ret (t : ι) (result : BitVec ty.bits)
  | store (value : BitVec ty.bits)

section
variable {ι : Type} {ty : FloatType}

def Event.thread : Event ι ty → Option ι
  | call t _ | access t | ret t _ => some t
  | store _ => none

variable [DecidableEq ι]

def State.setPc (s : State ι ty) (t : ι) (pc : Pc ty) : State ι ty := { s with threads := setAt s.threads t pc }

def step (s : State ι ty) : Event ι ty → Option (State ι ty)
  | .call t op =>
    match s.threads t with
    | .idle => some (s.setPc t (.entry op))
    | _ => none
  | .access t =>
    match s.threads t with
    | .entry op => some (s.setPc t (casEntry op s.cell))
    | .attempt op dold =>
      if s.cell = dold then some ({ s with cell := op.val }.setPc t (.done dold)) else some (s.setPc t (casLoop op s.cell))
    | _ => none
  | .ret t result =>
    match s.threads t with
    | .done r => if r = result then some (s.setPc t .idle) else none
    | _ => none
  | .store value => some { s with cell := value }

def start (init : BitVec ty.bits) : State ι ty := ⟨init, fun _ => .idle⟩

/-! ## The atomic operation -/

/-- The minimum or maximum of two numbers, or the operand that is one. -/
def AtomicBinOp.extremum (binOp : AtomicBinOp) (x y : BinaryFloat.Value) : BinaryFloat.Value :=
  if x = .nan then y
  else if y = .nan then x
  else
    match binOp with
    | fmax | fmaximum => if IntegerArith.floatLt x y then y else x
    | fmin | fminimum => if IntegerArith.floatLt y x then y else x

/-- `cell := op(cell, val)`, with the bits of the cell before it. -/
def AtomicRMW.apply (op : AtomicRMW ty) (cell : BitVec ty.bits) : BitVec ty.bits × BitVec ty.bits :=
  (if op.binOp.extremum (number cell) (number op.val) = number cell then cell else op.val, cell)

def Event.shown : Event ι ty → Option (Linearize.Event ι (AtomicRMW ty) (BitVec ty.bits) (BitVec ty.bits))
  | call t op => some (.call t op)
  | access _ => none
  | ret t result => some (.ret t result)
  | store value => some (.store value)

def atomicStart (init : BitVec ty.bits) : Linearize.State ι (AtomicRMW ty) (BitVec ty.bits) (BitVec ty.bits) := ⟨init, fun _ => .idle⟩

end

end NumbaCudaMlir.FloatCas

/-!
## Linearizability of the float atomics

A call takes effect at its last read of the cell: there it is known that nothing
is to be stored, or the swap stores the operand into the bits that were read.
-/

namespace NumbaCudaMlir.FloatCas

open Runs
open Linearize (Phase Simulation Follows)

variable {ι : Type} [DecidableEq ι] {ty : FloatType}

theorem floatLt_irrefl (x : BinaryFloat.Value) : IntegerArith.floatLt x x = false := by
  cases x with
  | finite q => simp [IntegerArith.floatLt]
  | infinity n => cases n <;> rfl
  | nan => rfl

theorem uno_self (x : BinaryFloat.Value) : fcmp .UNO x x = decide (x = .nan) := by simp [fcmp]

theorem shouldSwap_eq {op : AtomicRMW ty} (hval : number op.val ≠ .nan) (dold : BitVec ty.bits) :
    op.shouldSwap dold = decide (op.binOp.extremum (number dold) (number op.val) ≠ number dold) := by
  have hlt : ∀ {x y : BinaryFloat.Value}, IntegerArith.floatLt x y = true → y ≠ x := by
    rintro x y h rfl
    rw [floatLt_irrefl] at h
    cases h
  have hgt : ∀ {x y : BinaryFloat.Value}, IntegerArith.floatLt x y = true → x ≠ y := fun h heq => hlt h heq.symm
  unfold AtomicRMW.shouldSwap AtomicBinOp.extremum
  rw [uno_self]
  by_cases hnan : number dold = .nan
  · simp [hnan, hval]
  · cases op.binOp with
    | fmax | fmaximum =>
      by_cases h : IntegerArith.floatLt (number dold) (number op.val) = true
      · simp [fcmp, AtomicBinOp.cmpPred, hnan, hval, h, hlt h]
      · simp [fcmp, AtomicBinOp.cmpPred, hnan, hval, h]
    | fmin | fminimum =>
      by_cases h : IntegerArith.floatLt (number op.val) (number dold) = true
      · simp [fcmp, AtomicBinOp.cmpPred, hnan, hval, h, hgt h]
      · simp [fcmp, AtomicBinOp.cmpPred, hnan, hval, h]

/-- A swap in place of the operation. -/
def AtomicRMW.Swaps (op : AtomicRMW ty) (dold : BitVec ty.bits) : Prop :=
  number op.val ≠ .nan ∧ op.binOp.extremum (number dold) (number op.val) ≠ number dold

theorem apply_of_swaps {op : AtomicRMW ty} {dold : BitVec ty.bits} (h : op.Swaps dold) : op.apply dold = (op.val, dold) := by
  rw [AtomicRMW.apply, if_neg h.2]

theorem casLoop_cases {op : AtomicRMW ty} (hval : number op.val ≠ .nan) (dold : BitVec ty.bits) :
    casLoop op dold = .attempt op dold ∧ op.Swaps dold ∨ casLoop op dold = .done dold ∧ op.apply dold = (dold, dold) := by
  rw [casLoop, shouldSwap_eq hval]
  by_cases h : op.binOp.extremum (number dold) (number op.val) = number dold
  · exact .inr ⟨by simp [h], by rw [AtomicRMW.apply, if_pos h]⟩
  · exact .inl ⟨by simp [h], hval, h⟩

theorem casEntry_cases (op : AtomicRMW ty) (ptrval : BitVec ty.bits) :
    casEntry op ptrval = .attempt op ptrval ∧ op.Swaps ptrval ∨ casEntry op ptrval = .done ptrval ∧ op.apply ptrval = (ptrval, ptrval) := by
  rw [casEntry, uno_self]
  by_cases hval : number op.val = .nan
  · have hext : op.binOp.extremum (number ptrval) (number op.val) = number ptrval := by
      rw [hval]
      unfold AtomicBinOp.extremum
      by_cases hnan : number ptrval = .nan
      · rw [if_pos hnan, hnan]
      · rw [if_neg hnan, if_pos rfl]
    exact .inr ⟨by simp [hval], by rw [AtomicRMW.apply, if_pos hext]⟩
  · simpa [hval] using casLoop_cases hval ptrval

/-! ## The simulation -/

/-- An attempt is a call that has not taken effect. -/
inductive Matches : Pc ty → Phase (AtomicRMW ty) (BitVec ty.bits) → Prop
  | idle : Matches .idle .idle
  | entry (op : AtomicRMW ty) : Matches (.entry op) (.called op)
  | attempt {op : AtomicRMW ty} {dold : BitVec ty.bits} (h : op.Swaps dold) : Matches (.attempt op dold) (.called op)
  | done (result : BitVec ty.bits) : Matches (.done result) (.done result)

section
variable {p : Phase (AtomicRMW ty) (BitVec ty.bits)} {op : AtomicRMW ty}

theorem Matches.of_idle (h : Matches (.idle : Pc ty) p) : p = .idle := by
  cases h
  rfl

theorem Matches.of_entry (h : Matches (.entry op) p) : p = .called op := by
  cases h
  rfl

theorem Matches.of_attempt {dold : BitVec ty.bits} (h : Matches (.attempt op dold) p) : p = .called op ∧ op.Swaps dold := by
  cases h with
  | attempt hs => exact ⟨rfl, hs⟩

theorem Matches.of_done {result : BitVec ty.bits} (h : Matches (.done result) p) : p = .done result := by
  cases h
  rfl

end

structure Sim (s : State ι ty) (a : Linearize.State ι (AtomicRMW ty) (BitVec ty.bits) (BitVec ty.bits)) : Prop where
  cell_eq : s.cell = a.cell
  threads : ∀ t, Matches (s.threads t) (a.threads t)

theorem Sim.setPc {s : State ι ty} {a : Linearize.State ι (AtomicRMW ty) (BitVec ty.bits) (BitVec ty.bits)} (h : Sim s a) {t : ι} {pc : Pc ty}
    {p : Phase (AtomicRMW ty) (BitVec ty.bits)} (hpc : Matches pc p) {x y : BitVec ty.bits} (hxy : x = y) :
    Sim ⟨x, setAt s.threads t pc⟩ ⟨y, setAt a.threads t p⟩ := by
  refine ⟨hxy, fun u => ?_⟩
  by_cases hu : u = t
  · subst hu
    simp only [setAt_self]
    exact hpc
  · simp only [setAt_ne _ _ hu]
    exact h.threads u

theorem step_cases {s s' : State ι ty} {e : Event ι ty} (h : step s e = some s') :
    (∃ t op, e = .call t op ∧ s.threads t = .idle ∧ s' = s.setPc t (.entry op)) ∨
    (∃ t op, e = .access t ∧ s.threads t = .entry op ∧ s' = s.setPc t (casEntry op s.cell)) ∨
    (∃ t op, e = .access t ∧ s.threads t = .attempt op s.cell ∧ s' = ⟨op.val, setAt s.threads t (.done s.cell)⟩) ∨
    (∃ t op dold, e = .access t ∧ s.threads t = .attempt op dold ∧ s.cell ≠ dold ∧ s' = s.setPc t (casLoop op s.cell)) ∨
    (∃ t r, e = .ret t r ∧ s.threads t = .done r ∧ s' = s.setPc t .idle) ∨
    ∃ value, e = .store value ∧ s' = { s with cell := value } := by
  cases e with
  | call t op =>
    cases hpc : s.threads t with
    | idle =>
      simp only [step, hpc, Option.some.injEq] at h
      exact .inl ⟨t, op, rfl, hpc, h.symm⟩
    | entry | attempt | done => simp [step, hpc] at h
  | access t =>
    cases hpc : s.threads t with
    | entry op =>
      simp only [step, hpc, Option.some.injEq] at h
      exact .inr (.inl ⟨t, op, rfl, hpc, h.symm⟩)
    | attempt op dold =>
      by_cases hcell : s.cell = dold
      · subst hcell
        simp only [step, hpc, if_true, Option.some.injEq] at h
        exact .inr (.inr (.inl ⟨t, op, rfl, hpc, h.symm⟩))
      · simp only [step, hpc, if_neg hcell, Option.some.injEq] at h
        exact .inr (.inr (.inr (.inl ⟨t, op, dold, rfl, hpc, hcell, h.symm⟩)))
    | idle | done => simp [step, hpc] at h
  | ret t r =>
    cases hpc : s.threads t with
    | done r' =>
      by_cases hr : r' = r
      · subst hr
        simp only [step, hpc, if_true, Option.some.injEq] at h
        exact .inr (.inr (.inr (.inr (.inl ⟨t, r', rfl, hpc, h.symm⟩))))
      · simp [step, hpc, hr] at h
    | idle | entry | attempt => simp [step, hpc] at h
  | store value =>
    simp only [step, Option.some.injEq] at h
    exact .inr (.inr (.inr (.inr (.inr ⟨value, rfl, h.symm⟩))))

theorem run_one {a a' : Linearize.State ι (AtomicRMW ty) (BitVec ty.bits) (BitVec ty.bits)}
    {f : Linearize.Event ι (AtomicRMW ty) (BitVec ty.bits) (BitVec ty.bits)} (h : Linearize.step AtomicRMW.apply a f = some a') :
    run (Linearize.step AtomicRMW.apply) a [f] = some a' := by simp [run, h]

theorem sim_read {s : State ι ty} {a : Linearize.State ι (AtomicRMW ty) (BitVec ty.bits) (BitVec ty.bits)} (hsim : Sim s a) {t : ι}
    {op : AtomicRMW ty} {pc : Pc ty} (hcalled : a.threads t = .called op)
    (hpc : pc = .attempt op s.cell ∧ op.Swaps s.cell ∨ pc = .done s.cell ∧ op.apply s.cell = (s.cell, s.cell)) :
    ∃ fs a', run (Linearize.step AtomicRMW.apply) a fs = some a' ∧ fs.filterMap Linearize.Event.visible = [] ∧ Sim (s.setPc t pc) a' := by
  rcases hpc with ⟨rfl, hswaps⟩ | ⟨rfl, happly⟩
  · refine ⟨[], a, rfl, rfl, hsim.cell_eq, fun u => ?_⟩
    by_cases hu : u = t
    · subst hu
      simp only [State.setPc, setAt_self]
      exact hcalled ▸ .attempt hswaps
    · simp only [State.setPc, setAt_ne _ _ hu]
      exact hsim.threads u
  · refine ⟨[.effect t], _, run_one (Linearize.step_effect hcalled), rfl, ?_⟩
    rw [← hsim.cell_eq, happly]
    exact hsim.setPc (.done s.cell) rfl

theorem simulation : Simulation AtomicRMW.apply step State.cell Event.shown (@Sim ι ty) where
  cell_eq h := h.cell_eq
  step {s a e s'} hsim hstep := by
    rcases step_cases hstep with ⟨t, op, rfl, hpc, rfl⟩ | ⟨t, op, rfl, hpc, rfl⟩ | ⟨t, op, rfl, hpc, rfl⟩ | ⟨t, op, dold, rfl, hpc, -, rfl⟩ |
      ⟨t, r, rfl, hpc, rfl⟩ | ⟨value, rfl, rfl⟩
    · have hidle : a.threads t = .idle := (hpc ▸ hsim.threads t).of_idle
      exact ⟨[.call t op], _, run_one (Linearize.step_call hidle), rfl, hsim.setPc (.entry op) hsim.cell_eq⟩
    · have hcalled : a.threads t = .called op := (hpc ▸ hsim.threads t).of_entry
      exact sim_read hsim hcalled (casEntry_cases op s.cell)
    · have hattempt : a.threads t = .called op ∧ op.Swaps s.cell := (hpc ▸ hsim.threads t).of_attempt
      refine ⟨[.effect t], _, run_one (Linearize.step_effect hattempt.1), rfl, ?_⟩
      rw [← hsim.cell_eq, apply_of_swaps hattempt.2]
      exact hsim.setPc (.done s.cell) rfl
    · have hattempt : a.threads t = .called op ∧ op.Swaps dold := (hpc ▸ hsim.threads t).of_attempt
      exact sim_read hsim hattempt.1 (casLoop_cases hattempt.2.1 s.cell)
    · have hdone : a.threads t = .done r := (hpc ▸ hsim.threads t).of_done
      exact ⟨[.ret t r], _, run_one (Linearize.step_ret hdone), rfl, hsim.setPc .idle hsim.cell_eq⟩
    · exact ⟨[.store value], { a with cell := value }, rfl, rfl, rfl, hsim.threads⟩

omit [DecidableEq ι] in
theorem sim_start (init : BitVec ty.bits) : Sim (ι := ι) (start init) (atomicStart init) := ⟨rfl, fun _ => .idle⟩

/-! ## Repeated attempts -/

structure Execution (ι : Type) [DecidableEq ι] (ty : FloatType) where
  init : BitVec ty.bits
  events : List (Event ι ty)
  final : State ι ty
  reached : run step (start init) events = some final

/-- Something other than the thread changed the cell since the thread read `dold` from it. -/
def ChangedByOther (init : BitVec ty.bits) (events : List (Event ι ty)) (t : ι) (op : AtomicRMW ty) (dold : BitVec ty.bits) : Prop :=
  ∃ before e after s s', events = before ++ e :: after ∧ run step (start init) before = some s ∧ step s e = some s' ∧
    s.cell ≠ s'.cell ∧ s.threads t = .attempt op dold ∧ ∀ f ∈ e :: after, f.thread ≠ some t

theorem attempt_of_setAt {f : ι → Pc ty} {t u : ι} {pc : Pc ty} {op : AtomicRMW ty} {dold : BitVec ty.bits}
    (h : setAt f u pc t = .attempt op dold) : pc = .attempt op dold ∨ u ≠ t ∧ f t = .attempt op dold := by
  by_cases hu : t = u
  · subst hu
    rw [setAt_self] at h
    exact .inl h
  · rw [setAt_ne _ _ hu] at h
    exact .inr ⟨fun h' => hu h'.symm, h⟩

theorem casLoop_attempt {op op' : AtomicRMW ty} {x dold : BitVec ty.bits} (h : casLoop op x = .attempt op' dold) : x = dold := by
  unfold casLoop at h
  split at h <;> cases h
  rfl

theorem casEntry_attempt {op op' : AtomicRMW ty} {x dold : BitVec ty.bits} (h : casEntry op x = .attempt op' dold) : x = dold := by
  unfold casEntry at h
  split at h
  · cases h
  · exact casLoop_attempt h

theorem step_attempt {s s' : State ι ty} {e : Event ι ty} {t : ι} {op : AtomicRMW ty} {dold : BitVec ty.bits} (h : step s e = some s')
    (hpc : s'.threads t = .attempt op dold) : s'.cell = dold ∨ e.thread ≠ some t ∧ s.threads t = .attempt op dold := by
  rcases step_cases h with ⟨u, op', rfl, -, rfl⟩ | ⟨u, op', rfl, -, rfl⟩ | ⟨u, op', rfl, -, rfl⟩ | ⟨u, op', dold', rfl, -, -, rfl⟩ |
    ⟨u, r, rfl, -, rfl⟩ | ⟨value, rfl, rfl⟩
  · rcases attempt_of_setAt hpc with hpc | ⟨hu, hpc⟩
    · cases hpc
    · exact .inr ⟨by simpa [Event.thread] using hu, hpc⟩
  · rcases attempt_of_setAt hpc with hpc | ⟨hu, hpc⟩
    · exact .inl (casEntry_attempt hpc)
    · exact .inr ⟨by simpa [Event.thread] using hu, hpc⟩
  · rcases attempt_of_setAt hpc with hpc | ⟨hu, hpc⟩
    · cases hpc
    · exact .inr ⟨by simpa [Event.thread] using hu, hpc⟩
  · rcases attempt_of_setAt hpc with hpc | ⟨hu, hpc⟩
    · exact .inl (casLoop_attempt hpc)
    · exact .inr ⟨by simpa [Event.thread] using hu, hpc⟩
  · rcases attempt_of_setAt hpc with hpc | ⟨hu, hpc⟩
    · cases hpc
    · exact .inr ⟨by simpa [Event.thread] using hu, hpc⟩
  · exact .inr ⟨by simp [Event.thread], hpc⟩

theorem run_snoc {init : BitVec ty.bits} {es : List (Event ι ty)} {e : Event ι ty} {s' : State ι ty}
    (h : run step (start init) (es ++ [e]) = some s') : ∃ s, run step (start init) es = some s ∧ step s e = some s' := by
  rw [run_append] at h
  obtain ⟨s, hs, hone⟩ := Option.bind_eq_some_iff.mp h
  obtain ⟨m, hm, hnil⟩ := run_cons_some step hone
  exact ⟨s, hs, hm.trans hnil⟩

theorem changed_of_attempt {init : BitVec ty.bits} {t : ι} {op : AtomicRMW ty} {dold : BitVec ty.bits} (es : List (Event ι ty)) :
    ∀ {s : State ι ty}, run step (start init) es = some s → s.threads t = .attempt op dold → s.cell ≠ dold →
      ChangedByOther init es t op dold := by
  induction es using List.reverseRecOn with
  | nil =>
    intro s h hpc
    obtain rfl := Option.some.inj h
    cases hpc
  | append_singleton es e ih =>
    intro s' h hpc hne
    obtain ⟨s, hs, hstep⟩ := run_snoc h
    obtain ⟨hother, hpc'⟩ := (step_attempt hstep hpc).resolve_left hne
    by_cases hcell : s.cell = dold
    · refine ⟨es, e, [], s, s', rfl, hs, hstep, fun h' => hne (h' ▸ hcell), hpc', fun f hf => ?_⟩
      rw [List.mem_singleton.mp hf]
      exact hother
    · obtain ⟨before, f, after, s₁, s₂, rfl, hbefore, hf, hchange, hholds, hothers⟩ := ih hs hpc' hcell
      refine ⟨before, f, after ++ [e], s₁, s₂, by simp, hbefore, hf, hchange, hholds, fun g hg => ?_⟩
      rw [← List.cons_append, List.mem_append] at hg
      rcases hg with hg | hg
      · exact hothers g hg
      · rw [List.mem_singleton.mp hg]
        exact hother

end NumbaCudaMlir.FloatCas

import Mathlib.Data.List.MinMax
import Mathlib.Logic.Relation
import NumbaCudaMlir.Dict
import NumbaCudaMlir.KernelError

/-!
# Raising in a kernel

A function body is lowered block by block. A raise becomes a write of the error
code and a branch to the block with the highest offset among those that end in
a return.
-/

namespace NumbaCudaMlir.StaticRaise

/-! ## Numba IR -/

structure Var where
  name : List Char

/-- `is_temp`: a variable of the bytecode interpreter. -/
def Var.isTemp (v : Var) : Bool := v.name.head? == some '$'

inductive Rhs where
  | const | global | freeVar | arg
  | var (v : Var)
  | call (fn : Var) (args : List Var)
  | cast (value : Var)
  | op (name : List Char) (args : List Var)

inductive Inst where
  | assign (target : Var) (value : Rhs)
  | setItem (target index value : Var)
  | staticSetItem (target value : Var)
  | setAttr (target : Var) (attr : List Char) (value : Var)
  | del (value : Var)
  | print (args : List Var)

inductive Terminator where
  | jump (target : Nat)
  | branch (cond : Var) (truebr falsebr : Nat)
  | ret (value : Var)
  | staticRaise (excClass : ExcClass)

structure Block where
  body : List Inst
  last : Terminator

abbrev Blocks := Dict Nat Block

def Block.isReturn (b : Block) : Bool :=
  match b.last with
  | .ret _ => true
  | _ => false

/-! ## Lowering -/

inductive Op where
  | inst (i : Inst)
  | setErrorCode (errorCode : Nat)
  | br (dest : Nat)
  | condBr (cond : Var) (trueDest falseDest : Nat)
  | ret

def returnOffsets (blocks : Blocks) : List Nat := (blocks.entries.filter fun e => e.2.isReturn).map (·.1)

def errorCodeOf (excClass : ExcClass) : Nat := (kernelErrorCodes excClass).getD 4

def lowerStaticRaise (blocks : Blocks) (excClass : ExcClass) : List Op :=
  .setErrorCode (errorCodeOf excClass) ::
    match (returnOffsets blocks).max? with
    | some offset => [.br offset]
    | none => [.ret]

def lowerTerminator (blocks : Blocks) : Terminator → List Op
  | .jump target => [.br target]
  | .branch cond truebr falsebr => [.condBr cond truebr falsebr]
  | .ret _ => [.ret]
  | .staticRaise excClass => lowerStaticRaise blocks excClass

def lowerBlock (blocks : Blocks) (b : Block) : List Op := b.body.map .inst ++ lowerTerminator blocks b.last

def blkmap (blocks : Blocks) (offset : Nat) : Option (List Op) := (blocks.get offset).map (lowerBlock blocks)

/-! ## Execution -/

/-- The meaning of the statements: what one does to the state, the error code
that it sets itself when it fails, and the conditions of branches. -/
structure Meaning (σ : Type) where
  exec : Inst → σ → σ
  error : Inst → σ → Option Nat
  error_ne_zero : ∀ i s, error i s ≠ some 0
  cond : Var → σ → Bool

inductive Event where
  | ran (i : Inst)
  | raised (errorCode : Nat)

structure Config (σ : Type) where
  ops : List Op
  state : σ
  cell : Nat
  trace : List Event

variable {σ : Type}

def Config.raise (c : Config σ) (errorCode : Nat) : Config σ :=
  { c with cell := setErrorCode errorCode c.cell, trace := c.trace ++ [.raised errorCode] }

def Config.run (c : Config σ) (m : Meaning σ) (i : Inst) : Config σ :=
  let c' := match m.error i c.state with
    | some code => c.raise code
    | none => c
  { c' with state := m.exec i c.state, trace := c'.trace ++ [.ran i] }

/-- A configuration at a return, or at the end of an unterminated block, has no
successor. -/
def step (m : Meaning σ) (blocks : Blocks) (c : Config σ) : Option (Config σ) :=
  match c.ops with
  | .inst i :: rest => some { c.run m i with ops := rest }
  | .setErrorCode code :: rest => some { c.raise code with ops := rest }
  | .br dest :: _ => (blkmap blocks dest).map fun ops => { c with ops := ops }
  | .condBr cond t f :: _ => (blkmap blocks (if m.cond cond c.state then t else f)).map fun ops => { c with ops := ops }
  | .ret :: _ | [] => none

def start (blocks : Blocks) (entry : Nat) (s : σ) : Config σ := ⟨(blkmap blocks entry).getD [], s, 0, []⟩

end NumbaCudaMlir.StaticRaise

/-!
## What runs after a raise

The error code of a run is that of its first exception. After a raise, the run
goes through the block that the raise branches to and returns, so it stops the
function exactly when that block has no statement of the user's.
-/

namespace NumbaCudaMlir.StaticRaise

variable {σ : Type} (m : Meaning σ) (blocks : Blocks)

def Reaches (c d : Config σ) : Prop := Relation.ReflTransGen (fun c d => step m blocks c = some d) c d

/-! ## The error code -/

def firstError : List Event → Nat
  | [] => 0
  | .raised code :: _ => code
  | .ran _ :: es => firstError es

def NoZeroError (es : List Event) : Prop := Event.raised 0 ∉ es

theorem firstError_append : ∀ {es : List Event}, NoZeroError es → ∀ fs : List Event,
    firstError (es ++ fs) = if firstError es = 0 then firstError fs else firstError es
  | [], _, fs => rfl
  | .raised code :: es, h, fs => by
    have : code ≠ 0 := by
      rintro rfl
      exact h (by simp)
    simp [firstError, this]
  | .ran i :: es, h, fs => by
    have hes : NoZeroError es := fun hm => h (List.mem_cons_of_mem _ hm)
    exact firstError_append hes fs

/-- The cell holds the first error, and no error is zero. -/
structure CellInv (c : Config σ) : Prop where
  cell : c.cell = firstError c.trace
  nonzero : NoZeroError c.trace
  ops : Op.setErrorCode 0 ∉ c.ops

theorem CellInv.raise {c : Config σ} (h : CellInv c) {code : Nat} (hc : code ≠ 0) : CellInv (c.raise code) where
  cell := by
    unfold Config.raise
    rw [firstError_append h.nonzero, ← h.cell]
    rfl
  nonzero := by
    have := h.nonzero
    simp_all [Config.raise, NoZeroError, eq_comm]
  ops := h.ops

theorem CellInv.run {c : Config σ} (h : CellInv c) (i : Inst) : CellInv (c.run m i) := by
  have hr : ∀ {d : Config σ}, CellInv d → CellInv { d with state := m.exec i c.state, trace := d.trace ++ [.ran i] } := by
    intro d hd
    refine ⟨?_, ?_, hd.ops⟩
    · rw [firstError_append hd.nonzero, ← hd.cell]
      by_cases h0 : d.cell = 0 <;> simp [h0, firstError]
    · have := hd.nonzero
      simp_all [NoZeroError]
  unfold Config.run
  cases he : m.error i c.state with
  | none => exact hr h
  | some code =>
    refine hr (h.raise ?_)
    rintro rfl
    exact m.error_ne_zero i c.state he

theorem errorCodeOf_ne_zero (excClass : ExcClass) : errorCodeOf excClass ≠ 0 := by cases excClass <;> simp [errorCodeOf, kernelErrorCodes]

theorem setErrorCode_zero_notMem (b : Block) : Op.setErrorCode 0 ∉ lowerBlock blocks b := by
  unfold lowerBlock
  cases b.last with
  | jump _ => simp [lowerTerminator]
  | branch _ _ _ => simp [lowerTerminator]
  | ret _ => simp [lowerTerminator]
  | staticRaise excClass =>
    have := errorCodeOf_ne_zero excClass
    simp only [lowerTerminator, lowerStaticRaise]
    split <;> simp [this.symm]

theorem blkmap_notMem {offset : Nat} {ops : List Op} (h : blkmap blocks offset = some ops) : Op.setErrorCode 0 ∉ ops := by
  obtain ⟨b, _, rfl⟩ := Option.map_eq_some_iff.mp h
  exact setErrorCode_zero_notMem blocks b

/-! ## Steps -/

theorem step_cases {c d : Config σ} (h : step m blocks c = some d) :
    (∃ i rest, c.ops = .inst i :: rest ∧ d = { c.run m i with ops := rest }) ∨
    (∃ code rest, c.ops = .setErrorCode code :: rest ∧ d = { c.raise code with ops := rest }) ∨
    (∃ dest rest ops, c.ops = .br dest :: rest ∧ blkmap blocks dest = some ops ∧ d = { c with ops := ops }) ∨
    ∃ cond t f rest ops, c.ops = .condBr cond t f :: rest ∧
      blkmap blocks (if m.cond cond c.state then t else f) = some ops ∧ d = { c with ops := ops } := by
  unfold step at h
  split at h
  · next i rest hops => exact .inl ⟨i, rest, hops, by simpa using h.symm⟩
  · next code rest hops => exact .inr (.inl ⟨code, rest, hops, by simpa using h.symm⟩)
  · next dest rest hops =>
    obtain ⟨ops, hb, rfl⟩ := Option.map_eq_some_iff.mp h
    exact .inr (.inr (.inl ⟨dest, rest, ops, hops, hb, rfl⟩))
  · next cond t f rest hops =>
    obtain ⟨ops, hb, rfl⟩ := Option.map_eq_some_iff.mp h
    exact .inr (.inr (.inr ⟨cond, t, f, rest, ops, hops, hb, rfl⟩))
  · cases h
  · cases h

theorem CellInv.step {c d : Config σ} (hc : CellInv c) (h : step m blocks c = some d) : CellInv d := by
  have hsub : ∀ {e : Config σ} {ops : List Op}, CellInv e → Op.setErrorCode 0 ∉ ops → CellInv { e with ops := ops } :=
    fun he hops => ⟨he.cell, he.nonzero, hops⟩
  rcases step_cases m blocks h with ⟨i, rest, hops, rfl⟩ | ⟨code, rest, hops, rfl⟩ | ⟨dest, rest, ops, hops, hb, rfl⟩ |
    ⟨cond, t, f, rest, ops, hops, hb, rfl⟩
  · refine hsub (hc.run m i) ?_
    have := hc.ops
    simp_all
  · have := hc.ops
    rw [hops] at this
    refine hsub (hc.raise ?_) ?_
    · rintro rfl
      exact this (by simp)
    · exact fun hm => this (List.mem_cons_of_mem _ hm)
  · exact hsub hc (blkmap_notMem blocks hb)
  · exact hsub hc (blkmap_notMem blocks hb)

theorem CellInv.reaches {c d : Config σ} (hc : CellInv c) (h : Reaches m blocks c d) : CellInv d := by
  induction h with
  | refl => exact hc
  | tail _ hs ih => exact ih.step m blocks hs

theorem cellInv_start (entry : Nat) (s : σ) : CellInv (start blocks entry s) := by
  refine ⟨rfl, by simp [start, NoZeroError], ?_⟩
  unfold start
  cases h : blkmap blocks entry with
  | none => simp
  | some ops => exact blkmap_notMem blocks h

/-! ## After a raise -/

/-- An assignment to a variable of the user's, a store, a call or a print. -/
def Inst.isUser : Inst → Bool
  | assign _ (.call _ _) => true
  | assign target _ => !target.isTemp
  | setItem .. | staticSetItem .. | setAttr .. | print _ => true
  | del _ => false

def returnBlock : Option Block := (returnOffsets blocks).max?.bind blocks.get

theorem returnBlock_cases (excClass : ExcClass) :
    (returnBlock blocks = none ∧ lowerStaticRaise blocks excClass = [.setErrorCode (errorCodeOf excClass), .ret]) ∨
    ∃ offset b, returnBlock blocks = some b ∧ lowerStaticRaise blocks excClass = [.setErrorCode (errorCodeOf excClass), .br offset] ∧
      blkmap blocks offset = some (b.body.map .inst ++ [.ret]) := by
  unfold returnBlock lowerStaticRaise
  cases hmax : (returnOffsets blocks).max? with
  | none => exact .inl ⟨rfl, rfl⟩
  | some offset =>
    right
    have hmem := List.max?_mem hmax
    simp only [returnOffsets, List.mem_map, List.mem_filter, Prod.exists] at hmem
    obtain ⟨_, b, ⟨he, hret⟩, rfl⟩ := hmem
    have hget := Dict.get_eq_some_iff.mpr he
    refine ⟨_, b, hget, rfl, ?_⟩
    unfold blkmap lowerBlock
    rw [hget, Option.map_some]
    unfold Block.isReturn at hret
    cases hl : b.last with
    | ret v => rfl
    | jump _ => simp [hl] at hret
    | branch _ _ _ => simp [hl] at hret
    | staticRaise _ => simp [hl] at hret

def ranAfter (c d : Config σ) (i : Inst) : Prop := ∃ es, d.trace = c.trace ++ es ∧ .ran i ∈ es

theorem run_trace (c : Config σ) (i : Inst) : ∃ es, (c.run m i).trace = c.trace ++ es ∧ ∀ j, .ran j ∈ es ↔ j = i := by
  unfold Config.run
  cases m.error i c.state with
  | none => exact ⟨[.ran i], rfl, by simp⟩
  | some code => exact ⟨[.raised code, .ran i], by simp [Config.raise], by simp⟩

theorem reaches_body : ∀ (body : List Inst) (rest : List Op) (c : Config σ), c.ops = body.map .inst ++ rest →
    ∃ d, Reaches m blocks c d ∧ d.ops = rest ∧ ∃ es, d.trace = c.trace ++ es ∧ ∀ i ∈ body, .ran i ∈ es
  | [], rest, c, h => ⟨c, .refl, h, [], by simp, by simp⟩
  | i :: body, rest, c, h => by
    let c' : Config σ := { c.run m i with ops := body.map .inst ++ rest }
    have hstep : step m blocks c = some c' := by
      unfold step
      rw [h]
      rfl
    obtain ⟨es, hes, hi⟩ := run_trace m c i
    obtain ⟨d, hd, hops, es', htrace, hbody⟩ := reaches_body body rest c' rfl
    refine ⟨d, .head hstep hd, hops, es ++ es', ?_, ?_⟩
    · rw [htrace, ← List.append_assoc, ← hes]
    · intro j hj
      rcases List.mem_cons.mp hj with rfl | hj
      · exact List.mem_append_left _ ((hi _).mpr rfl)
      · exact List.mem_append_right _ (hbody j hj)

/-- The places a run can be at after the raise: the raise, its branch, the rest
of the return block. -/
inductive AfterRaise (excClass : ExcClass) : List Op → Prop where
  | atRaise : AfterRaise excClass (lowerStaticRaise blocks excClass)
  | atBranch : AfterRaise excClass (lowerStaticRaise blocks excClass).tail
  | inBlock (b : Block) (rest : List Inst) : returnBlock blocks = some b → (∀ i ∈ rest, i ∈ b.body) →
      AfterRaise excClass (rest.map .inst ++ [.ret])

structure RaiseInv (excClass : ExcClass) (c d : Config σ) : Prop where
  ops : AfterRaise blocks excClass d.ops
  trace : ∃ es, d.trace = c.trace ++ es ∧ ∀ i, .ran i ∈ es → ∃ b, returnBlock blocks = some b ∧ i ∈ b.body

theorem raiseInv_step {excClass : ExcClass} {c d e : Config σ} (hi : RaiseInv blocks excClass c d)
    (h : step m blocks d = some e) : RaiseInv blocks excClass c e := by
  obtain ⟨hops, es, hes, hran⟩ := hi
  generalize hl : d.ops = ops at hops
  cases hops with
  | atRaise =>
    rcases returnBlock_cases blocks excClass with ⟨_, hr⟩ | ⟨offset, b, _, hr, _⟩
    all_goals
      unfold step at h
      rw [hl, hr] at h
      cases h
      refine ⟨?_, es ++ [.raised (errorCodeOf excClass)], ?_, ?_⟩
      · have : AfterRaise blocks excClass (lowerStaticRaise blocks excClass).tail := .atBranch
        rwa [hr] at this
      · simp [Config.raise, hes]
      · simpa using hran
  | atBranch =>
    rcases returnBlock_cases blocks excClass with ⟨_, hr⟩ | ⟨offset, b, hb, hr, hblk⟩
    · unfold step at h
      rw [hl, hr] at h
      cases h
    · unfold step at h
      rw [hl, hr] at h
      simp only [List.tail_cons, hblk, Option.map_some, Option.some.injEq] at h
      cases h
      exact ⟨.inBlock b b.body hb fun _ hi => hi, es, hes, hran⟩
  | inBlock b rest hb hsub =>
    cases rest with
    | nil =>
      unfold step at h
      rw [hl] at h
      cases h
    | cons i rest =>
      unfold step at h
      rw [hl] at h
      cases h
      obtain ⟨es', hes', hi⟩ := run_trace m d i
      refine ⟨.inBlock b rest hb fun j hj => hsub j (by simp [hj]), es ++ es', ?_, ?_⟩
      · rw [← List.append_assoc, ← hes]
        exact hes'
      · intro j hj
        rcases List.mem_append.mp hj with hj | hj
        · exact hran j hj
        · exact ⟨b, hb, hsub j (by simp [(hi j).mp hj])⟩

theorem raiseInv_reaches {excClass : ExcClass} {c d : Config σ} (hc : c.ops = lowerStaticRaise blocks excClass)
    (h : Reaches m blocks c d) : RaiseInv blocks excClass c d := by
  induction h with
  | refl => exact ⟨hc ▸ .atRaise, [], by simp, by simp⟩
  | tail _ hs ih => exact raiseInv_step m blocks ih hs

theorem reaches_return {excClass : ExcClass} {c : Config σ} (hc : c.ops = lowerStaticRaise blocks excClass) :
    ∃ d, Reaches m blocks c d ∧ d.ops = [.ret] ∧ ∀ b, returnBlock blocks = some b → ∀ i ∈ b.body, ranAfter c d i := by
  let c₁ : Config σ := { c.raise (errorCodeOf excClass) with ops := (lowerStaticRaise blocks excClass).tail }
  have h₁ : step m blocks c = some c₁ := by
    unfold step
    rw [hc]
    rfl
  have ht₁ : c₁.trace = c.trace ++ [.raised (errorCodeOf excClass)] := rfl
  rcases returnBlock_cases blocks excClass with ⟨hn, hr⟩ | ⟨offset, b, hb, hr, hblk⟩
  · refine ⟨c₁, .single h₁, ?_, ?_⟩
    · simp only [c₁, hr, List.tail_cons]
    · intro b hb
      rw [hn] at hb
      cases hb
  · let c₂ : Config σ := { c₁ with ops := b.body.map .inst ++ [.ret] }
    have h₂ : step m blocks c₁ = some c₂ := by
      unfold step
      simp only [c₁, hr, List.tail_cons, hblk, Option.map_some]
      rfl
    obtain ⟨d, hd, hops, es, htrace, hbody⟩ := reaches_body m blocks b.body [.ret] c₂ rfl
    refine ⟨d, .head h₁ (.head h₂ hd), hops, fun b' hb' i hi => ?_⟩
    rw [hb] at hb'
    cases hb'
    refine ⟨.raised (errorCodeOf excClass) :: es, ?_, List.mem_cons_of_mem _ (hbody i hi)⟩
    rw [htrace]
    simp [c₂, ht₁]

/-! ## When a raise stops the function -/

/-- No statement of the user's takes effect from here on. -/
def Stops (c : Config σ) : Prop := ∀ d, Reaches m blocks c d → ∀ i, ranAfter c d i → i.isUser = false

/-- **A raise stops the function** exactly when the block it branches to has no
statement of the user's; the cell holds the first error of the run either way. -/
theorem raise_stops_iff (entry : Nat) (s : σ) {c : Config σ} (hc : Reaches m blocks (start blocks entry s) c) :
    c.cell = firstError c.trace ∧
    ∀ excClass, c.ops = lowerStaticRaise blocks excClass →
      (Stops m blocks c ↔ ∀ b, returnBlock blocks = some b → ∀ i ∈ b.body, i.isUser = false) ∧
      ∃ d, Reaches m blocks c d ∧ d.ops = [.ret] := by
  refine ⟨((cellInv_start blocks entry s).reaches m blocks hc).cell, fun excClass hops => ⟨⟨?_, ?_⟩, ?_⟩⟩
  · intro hstops b hb i hi
    obtain ⟨d, hd, _, hran⟩ := reaches_return m blocks hops
    exact hstops d hd i (hran b hb i hi)
  · intro hbody d hd i ⟨es, hes, hi⟩
    obtain ⟨_, es', hes', hran⟩ := raiseInv_reaches m blocks hops hd
    have : es = es' := List.append_cancel_left (hes.symm.trans hes')
    obtain ⟨b, hb, hmem⟩ := hran i (this ▸ hi)
    exact hbody b hb i hmem
  · obtain ⟨d, hd, hret, _⟩ := reaches_return m blocks hops
    exact ⟨d, hd, hret⟩

/-- `if x: raise ValueError`, then the statements and a return. -/
def guarded (body : List Inst) : Blocks :=
  ⟨[(0, ⟨[], .branch ⟨['x']⟩ 10 20⟩), (10, ⟨[], .staticRaise .valueError⟩), (20, ⟨body, .ret ⟨['$', 'r']⟩⟩)], by simp⟩

def trueMeaning : Meaning Unit := ⟨fun _ s => s, fun _ _ => none, by simp, fun _ _ => true⟩

def atRaise (body : List Inst) : Config Unit := ⟨lowerStaticRaise (guarded body) .valueError, (), 0, []⟩

theorem reaches_atRaise (body : List Inst) : Reaches trueMeaning (guarded body) (start (guarded body) 0 ()) (atRaise body) := .single rfl

theorem raise_stops_bare : Stops trueMeaning (guarded [.assign ⟨['$', 'r']⟩ .const]) (atRaise [.assign ⟨['$', 'r']⟩ .const]) := by
  refine ((raise_stops_iff _ _ 0 () (reaches_atRaise _)).2 .valueError rfl).1.mpr fun b hb i hi => ?_
  cases hb
  cases List.mem_singleton.mp hi
  rfl

/-- `a[i] = x` -/
def storeBody : List Inst := [.setItem ⟨['a']⟩ ⟨['i']⟩ ⟨['x']⟩]

/-- The store after `if x: raise ValueError` takes effect on both paths. -/
theorem raise_runs_return_block :
    Reaches trueMeaning (guarded storeBody) (start (guarded storeBody) 0 ()) (atRaise storeBody) ∧
      ¬ Stops trueMeaning (guarded storeBody) (atRaise storeBody) := by
  refine ⟨reaches_atRaise _, fun h => ?_⟩
  have hran : Reaches trueMeaning (guarded storeBody) (atRaise storeBody)
      ⟨[.ret], (), 3, [.raised 3, .ran (.setItem ⟨['a']⟩ ⟨['i']⟩ ⟨['x']⟩)]⟩ :=
    .head rfl (.head rfl (.single rfl))
  have := h _ hran (.setItem ⟨['a']⟩ ⟨['i']⟩ ⟨['x']⟩) ⟨_, rfl, by simp⟩
  cases this

end NumbaCudaMlir.StaticRaise

import NumbaCudaMlir.Consteval
import NumbaCudaMlir.Partial

/-!
# Runs of kernel bodies

In the `identity` reading `consteval` returns its argument; in the `library`
reading it raises. A `watched` run is an `identity` run that stops at a step
where rewriting the body goes wrong. Every run records what this needs: the
names whose last assignment in the run is the one that the walk over the text
knows, and the constants that stand for the variables of unrolled loops.
-/

namespace NumbaCudaMlir.Consteval

open Partial

inductive Reading where
  | watched
  | identity
  | library
  deriving DecidableEq

theorem ne_and {R S : Reading} (h : R ≠ S) {p : Prop} : ¬ (R = S ∧ p) := fun h' => h h'.1

abbrev Frame (ν : Type) := Name → Option ν

/-- A function defined in a body reads the locals of the body when it is called. -/
structure Closure (ν : Type) where
  param : Name
  body : Expr ν
  -- recorded at the definition
  snap : Frame ν
  seen : Name → Bool
  active : Name → Option (Const ν)

structure Env (ν : Type) where
  frame : Frame ν
  -- the locals, if unrolled loops assigned their variables at their end only
  late : Frame ν
  -- bound by lambdas and comprehensions
  inner : Frame ν
  funcs : Name → Option (Closure ν)
  seen : Name → Bool
  active : Name → Option (Const ν)
  -- in a `consteval`: the names that binders in it bind
  inside : Option (List Name)

structure State (ν μ : Type) where
  frame : Frame ν
  late : Frame ν
  funcs : Name → Option (Closure ν)
  memory : μ
  seen : Name → Bool
  active : Name → Option (Const ν)

inductive Outcome (ν : Type) where
  | normal
  | brk
  | cont
  | ret (v : ν)
  deriving DecidableEq

def Outcome.loops {ν : Type} : Outcome ν → Bool
  | .brk | .cont => true
  | _ => false

variable {ν μ : Type}

namespace Env

def bind (σ : Env ν) (x : Name) (v : ν) : Env ν :=
  { σ with inner := Function.update σ.inner x (some v), inside := σ.inside.map (x :: ·) }

def enterConst (σ : Env ν) : Env ν := { σ with inside := some [] }

/-- A local function is called by its own name, and not at compile time. -/
def callOk (σ : Env ν) (f : Name) : Bool := σ.inside.isNone && (σ.active f).isNone

/-- The body of a function sees the names known at its definition that have
kept their values. -/
def call [DecidableEq ν] (σ : Env ν) (clo : Closure ν) (v : ν) : Env ν :=
  { frame := σ.frame, late := σ.late, inner := Function.update (fun _ => none) clo.param (some v)
    funcs := σ.funcs, seen := fun y => clo.seen y && decide (σ.frame y = clo.snap y)
    active := clo.active, inside := none }

end Env

namespace State

def env (σ : State ν μ) : Env ν :=
  { frame := σ.frame, late := σ.late, inner := fun _ => none, funcs := σ.funcs, seen := σ.seen,
    active := σ.active, inside := none }

def store (σ : State ν μ) (bs : Dict Name ν) : State ν μ :=
  { σ with
    frame := fun y => (bs.get y).or (σ.frame y)
    late := fun y => (bs.get y).or (σ.late y)
    funcs := fun f => if (bs.get f).isSome then none else σ.funcs f
    seen := fun y => σ.seen y && (bs.get y).isNone }

def know (σ : State ν μ) (x : Name) : State ν μ := { σ with seen := Function.update σ.seen x true }

def drop (σ : State ν μ) (xs : List Name) : State ν μ := { σ with seen := fun y => σ.seen y && !xs.contains y }

def enterCopy (σ : State ν μ) (bs : Dict Name ν) (cs : Table ν) : State ν μ :=
  { σ.store bs with late := σ.late, active := fun y => (cs.get y).or (σ.active y) }

def leaveCopy (σ : State ν μ) (active : Name → Option (Const ν)) (xs : List Name) : State ν μ :=
  { σ.drop xs with active }

/-- The variables of an unrolled loop, assigned at its end. -/
def settle (σ : State ν μ) (cs : Table ν) : State ν μ :=
  { σ with
    late := fun y => if (cs.get y).isSome then σ.frame y else σ.late y
    seen := fun y => match cs.get y with
      | some (.val _) => true
      | some (.element _ _) => false
      | none => σ.seen y }

def define (σ : State ν μ) (f x : Name) (e : Expr ν) : State ν μ :=
  { σ with
    frame := Function.update σ.frame f none
    late := Function.update σ.late f none
    seen := Function.update σ.seen f false
    funcs := Function.update σ.funcs f
      (some { param := x, body := e, snap := σ.frame, seen := σ.seen, active := σ.active }) }

end State

/-! ## What the walk over the text changes -/

/-- An assignment that the walk over the text may record. -/
def tracks (t : Target) (e : Expr ν) : Bool :=
  match t, e.constevalCall with
  | .name _, some _ => true
  | _, _ => false

def Stmt.tracked : Stmt ν → List Name
  | .seq a b | .ite _ a b | .while _ a b => a.tracked ++ b.tracked
  | .assign t e => if tracks t e then t.names else []
  | .forIn t e a b => if e.constevalCall.isSome then t.names ++ b.tracked else a.tracked ++ b.tracked
  | .withItem _ _ _ a => a.tracked
  | _ => []

/-- A `consteval` or `literally` call in an expression. -/
def Expr.marked : Expr ν → Bool
  | .const _ | .name _ => false
  | .unary _ e | .item e _ | .prim _ e | .call _ e => e.marked
  | .binary _ a b => a.marked || b.marked
  | .consteval _ _ => true
  | .app _ b e => b.marked || e.marked
  | .comp elt _ iter => elt.marked || iter.marked

/-! ## Expressions -/

variable (P : Python ν μ) (scope : Name → Bool)

namespace Python

def lookupIn (frame inner : Frame ν) (x : Name) : Option ν :=
  (inner x).or ((frame x).or (if scope x then .none else P.globals x))

def lookup (σ : Env ν) (x : Name) : Option ν := P.lookupIn scope σ.frame σ.inner x

variable [DecidableEq ν]

/-- The constant of a replaced name is the name's value. An element of a
parameter is read from the parameter, unless a loop inside rebinds that name. -/
def stands (σ : Env ν) (x : Name) : Const ν → Bool
  | .val v => P.lookup scope σ x = some v
  | .element p k =>
    (σ.active p = .none ∨ p = x) ∧ (P.lookup scope σ x).isSome ∧
      (P.lookupIn scope σ.late σ.inner p).bind (P.item · k) = P.lookup scope σ x

/-- In a `consteval`: the constant of an unrolled loop, a name bound in the same
expression, a name known from its last assignment, or a global. -/
def readsConst (σ : Env ν) (bound : List Name) (x : Name) : Bool :=
  match σ.active x with
  | some (.val v) => P.lookup scope σ x = some v
  | some (.element _ _) => false
  | .none => x ∈ bound ∨ σ.inner x = .none ∧ P.params x = .none ∧
      (σ.seen x ∨ scope x = false ∧ σ.frame x = .none)

def readOk (σ : Env ν) (x : Name) : Bool :=
  match σ.inside with
  | some bound => P.readsConst scope σ bound x
  | .none =>
    match σ.active x with
    | some c => P.stands scope σ x c
    | .none => (σ.inner x).isSome ∨ σ.late x = σ.frame x

variable (R : Reading)

def evalWith (call : Env ν → Expr ν → Run μ ν) : Expr ν → Env ν → Run μ ν
  | .const v, _ => pure v
  | .name x, σ => if R = .watched ∧ P.readOk scope σ x = false then stop else ofOption (P.lookup scope σ x)
  | .unary f e, σ => do
    let v ← evalWith call e σ
    ofOption (P.unary f v)
  | .binary f a b, σ => do
    let v ← evalWith call a σ
    let w ← evalWith call b σ
    ofOption (P.binary f v w)
  | .item e k, σ => do
    let v ← evalWith call e σ
    ofOption (P.item v k)
  | .prim f e, σ => do
    let v ← evalWith call e σ
    P.prim f v
  | .consteval literally e, σ =>
    if R = .library ∧ literally = false then stop else evalWith call e σ.enterConst
  | .call f e, σ =>
    if R = .watched ∧ σ.callOk f = false then stop
    else do
      let clo ← ofOption (σ.funcs f)
      let v ← evalWith call e σ
      call (σ.call clo v) clo.body
  | .app x b e, σ => do
    let v ← evalWith call e σ
    evalWith call b (σ.bind x v)
  | .comp elt x iter, σ => do
    let v ← evalWith call iter σ
    let vs ← ofOption (P.items v)
    let ws ← vs.mapM fun v => evalWith call elt (σ.bind x v)
    pure (P.list ws)

/-- Calls of local functions nest at most `n` deep. -/
def eval : Nat → Expr ν → Env ν → Run μ ν
  | 0 => P.evalWith scope R fun _ _ => stop
  | n + 1 => P.evalWith scope R fun σ e => eval n e σ

/-! ## Statements -/

def evalM (n : Nat) (e : Expr ν) : Run (State ν μ) ν := fun σ =>
  (P.eval scope R n e σ.env σ.memory).map fun r => (r.1, { σ with memory := r.2 })

def onMemory {α : Type} (x : Run μ α) : Run (State ν μ) α := fun σ =>
  (x σ.memory).map fun r => (r.1, { σ with memory := r.2 })

def guardWatched (b : State ν μ → Bool) : Run (State ν μ) Unit := fun σ =>
  if R = .watched ∧ b σ = false then .none else some ((), σ)

def bindTo (t : Target) (v : ν) : Run (State ν μ) Unit := do
  let bs ← ofOption (bindTarget P.items t v)
  modify (·.store bs)

def bindAs (x : Option Name) (v : ν) : Run (State ν μ) Unit :=
  match x with
  | some x => P.bindTo (.name x) v
  | .none => pure ()

/-- The walk records the assignment of a `consteval`, unless its value is `None`. -/
def learn (t : Target) (e : Expr ν) (v : ν) (σ : State ν μ) : State ν μ :=
  match t with
  | .name x => if e.constevalCall.isSome ∧ v ≠ P.none then σ.know x else σ
  | _ => σ

def evalTest (n : Nat) (c : Expr ν) : Run (State ν μ) Bool := do
  let v ← P.evalM scope R n c
  ofOption (P.truth v)

/-- Each iteration may leave names behind that the walk, which saw the body
once, knows from its end; `out` are the names known after the last one. -/
def whileLoop (test : Run (State ν μ) Bool) (body : Run (State ν μ) (Outcome ν)) (xs : List Name) :
    Nat → (Name → Bool) → Run (State ν μ) (Outcome ν)
  | 0, _ => stop
  | n + 1, out => do
    let b ← test
    if b then do
      let o ← body
      match o with
      | .normal | .cont => do
        let σ ← get
        modify (·.drop xs)
        whileLoop test body xs n σ.seen
      | o => pure o
    else do
      modify fun σ => { σ with seen := out }
      pure .normal

def forLoop (body : ν → Run (State ν μ) (Outcome ν)) (xs : List Name) :
    List ν → (Name → Bool) → Run (State ν μ) (Outcome ν)
  | [], out => do
    modify fun σ => { σ with seen := out }
    pure .normal
  | v :: vs, _ => do
    let o ← body v
    match o with
    | .normal | .cont => do
      let σ ← get
      modify (·.drop xs)
      forLoop body xs vs σ.seen
    | o => pure o

/-- The `else` clause runs unless the loop was left by `break`. -/
def elseClause (orelse : Run (State ν μ) (Outcome ν)) (xs : List Name) (o : Outcome ν) :
    Run (State ν μ) (Outcome ν) :=
  match o with
  | .normal | .cont => orelse
  | .brk => do
    modify (·.drop xs)
    pure .normal
  | .ret v => pure (.ret v)

/-- A loop over `consteval(e)`; each item comes with the constant that
unrolling puts in place of the loop variable. -/
def constLoop (t : Target) (body : Run (State ν μ) (Outcome ν)) (xs : List Name)
    (active : Name → Option (Const ν)) : Table ν → List (ν × Const ν) → Run (State ν μ) (Outcome ν)
  | last, [] => do
    guardWatched R fun σ => last.entries.all fun e => P.stands scope σ.env e.1 e.2
    modify (·.settle last)
    pure .normal
  | _, (v, c) :: rest => do
    let bs ← ofOption (bindTarget P.items t v)
    let cs := (bindTarget P.constItems t c).getD Dict.empty
    modify (·.enterCopy bs cs)
    let o ← body
    modify (·.leaveCopy active (t.names ++ xs))
    match o with
    | .normal | .cont => constLoop t body xs active cs rest
    | o => pure o

/-- The parameter whose elements an unrolled loop over `consteval(e)` accesses. -/
def tupleParam (active : Name → Option (Const ν)) : Expr ν → Option (Name × ParamType)
  | .name p => if (active p).isSome then .none else (P.params p).map (p, ·)
  | _ => .none

def iterItems (n : Nat) (literally : Bool) (e : Expr ν) : Run (State ν μ) (List (ν × Const ν)) := do
  let σ ← get
  match P.tupleParam σ.active e with
  | some (p, ty) =>
    if R = .library ∧ literally = false then stop
    else do
      let v ← P.evalM scope R n e
      let vs ← ofOption (P.items v)
      guardWatched R fun _ => ty = .tuple vs.length
      pure (vs.zipIdx.map fun w => (w.1, .element p w.2))
  | .none => do
    let v ← P.evalM scope R n (.consteval literally e)
    let vs ← ofOption (P.items v)
    pure (vs.map fun w => (w, .val w))

/-- With at most `n` iterations of a `while` loop. -/
def exec (n : Nat) : Stmt ν → Run (State ν μ) (Outcome ν)
  | .skip => pure .normal
  | .seq a b => do
    let o ← exec n a
    match o with
    | .normal => exec n b
    | o => do
      modify (·.drop b.tracked)
      pure o
  | .assign t e => do
    let v ← P.evalM scope R n e
    P.bindTo t v
    modify (P.learn t e v)
    pure .normal
  | .setitem a i e => do
    let v ← P.evalM scope R n e
    let a ← P.evalM scope R n a
    let i ← P.evalM scope R n i
    onMemory fun m => (P.setitem a i v m).map ((), ·)
    pure .normal
  | .expr e => do
    let _ ← P.evalM scope R n e
    pure .normal
  | .ite c a b => do
    let b' ← P.evalTest scope R n c
    if b' then do
      let o ← exec n a
      modify (·.drop b.tracked)
      pure o
    else do
      modify (·.drop a.tracked)
      exec n b
  | .while c a b => do
    let σ ← get
    let o ← whileLoop (P.evalTest scope R n c) (exec n a) a.tracked n (σ.drop a.tracked).seen
    elseClause (exec n b) b.tracked o
  | .forIn t e a b =>
    match e.constevalCall with
    | some (literally, e) => do
      let items ← P.iterItems scope R n literally e
      let σ ← get
      let o ← P.constLoop scope R t (exec n a) a.tracked σ.active Dict.empty items
      elseClause (exec n b) b.tracked o
    | .none => do
      let v ← P.evalM scope R n e
      let vs ← ofOption (P.items v)
      let σ ← get
      let o ← forLoop (fun v => do P.bindTo t v; exec n a) a.tracked vs (σ.drop a.tracked).seen
      elseClause (exec n b) b.tracked o
  | .withItem f e x a => do
    guardWatched R fun _ => !e.marked
    let v ← P.evalM scope R n e
    let w ← onMemory (P.enter f v)
    P.bindAs x w
    let o ← exec n a
    onMemory fun m => (P.leave f v m).map ((), ·)
    pure o
  | .bindFn _ f x e => do
    guardWatched R fun σ => (σ.active f).isNone
    modify (·.define f x e)
    pure .normal
  | .break => pure .brk
  | .continue => pure .cont
  | .ret e => do
    let v ← P.evalM scope R n e
    pure (.ret v)

end Python

/-! ## Bodies -/

namespace Python

def locals (body : Stmt ν) (x : Name) : Bool := (P.params x).isSome || body.assigned.contains x

def start (args : Frame ν) (m : μ) : State ν μ :=
  let frame := fun x => if (P.params x).isSome then args x else .none
  { frame, late := frame, funcs := fun _ => .none, memory := m, seen := fun _ => false, active := fun _ => .none }

variable [DecidableEq ν]

def run (R : Reading) (n : Nat) (body : Stmt ν) (args : Frame ν) (m : μ) : Option (Outcome ν × State ν μ) :=
  P.exec (P.locals body) R n body (P.start args m)

end Python

/-! ## Watched runs are runs -/

section
variable [DecidableEq ν]

theorem evalWith_watched {call call' : Env ν → Expr ν → Run μ ν} (hcall : ∀ σ e, Refines (call σ e) (call' σ e)) :
    ∀ (e : Expr ν) (σ : Env ν),
      Refines (P.evalWith scope .watched call e σ) (P.evalWith scope .identity call' e σ) := by
  intro e
  induction e with
  | const v => intro σ; exact Refines.refl _
  | name x =>
    intro σ
    unfold Python.evalWith
    rw [if_neg (c := Reading.identity = .watched ∧ _) (ne_and (by decide))]
    split
    · exact Refines.stop _
    · exact Refines.refl _
  | unary f e ih | item e k ih | prim f e ih =>
    intro σ
    apply Refines.bind (ih σ); intro v
    exact Refines.refl _
  | binary f a b iha ihb =>
    intro σ
    apply Refines.bind (iha σ); intro v
    apply Refines.bind (ihb σ); intro w
    exact Refines.refl _
  | consteval l e ih =>
    intro σ
    unfold Python.evalWith
    rw [if_neg (ne_and (by decide)), if_neg (ne_and (by decide))]
    exact ih σ.enterConst
  | call f e ih =>
    intro σ
    unfold Python.evalWith
    rw [if_neg (c := Reading.identity = .watched ∧ _) (ne_and (by decide))]
    split
    · exact Refines.stop _
    · apply Refines.bind (Refines.refl _); intro clo
      apply Refines.bind (ih σ); intro v
      exact hcall _ _
  | app x b e ihb ihe =>
    intro σ
    apply Refines.bind (ihe σ); intro v
    exact ihb _
  | comp elt x iter ihe ihi =>
    intro σ
    apply Refines.bind (ihi σ); intro v
    apply Refines.bind (Refines.refl _); intro vs
    apply Refines.bind (Refines.mapM fun w _ => ihe _); intro ws
    exact Refines.refl _

theorem eval_watched (n : Nat) : ∀ (e : Expr ν) (σ : Env ν),
    Refines (P.eval scope .watched n e σ) (P.eval scope .identity n e σ) := by
  induction n with
  | zero => exact evalWith_watched P scope fun _ _ => Refines.refl _
  | succ n ih => exact evalWith_watched P scope fun σ e => ih e σ

theorem evalM_watched (n : Nat) (e : Expr ν) :
    Refines (P.evalM scope .watched n e) (P.evalM scope .identity n e) := by
  intro σ r h
  obtain ⟨w, hw, rfl⟩ := Option.map_eq_some_iff.mp h
  unfold Python.evalM
  rw [eval_watched P scope n e σ.env σ.memory w hw]
  rfl

theorem evalTest_watched (n : Nat) (e : Expr ν) :
    Refines (P.evalTest scope .watched n e) (P.evalTest scope .identity n e) := by
  apply Refines.bind (evalM_watched P scope n e); intro v
  exact Refines.refl _

omit [DecidableEq ν] in
theorem guard_watched (b : State ν μ → Bool) :
    Refines (Python.guardWatched .watched b) (Python.guardWatched .identity b) := by
  intro σ r h
  unfold Python.guardWatched at h
  split at h
  · cases h
  · exact h

omit [DecidableEq ν] in
theorem whileLoop_watched {test test' : Run (State ν μ) Bool} {body body' : Run (State ν μ) (Outcome ν)}
    (ht : Refines test test') (hb : Refines body body') (xs : List Name) : ∀ (n : Nat) (out : Name → Bool),
      Refines (Python.whileLoop test body xs n out) (Python.whileLoop test' body' xs n out) := by
  intro n
  induction n with
  | zero => intro out; exact Refines.refl _
  | succ n ih =>
    intro out
    apply Refines.bind ht; intro b
    cases b with
    | false => exact Refines.refl _
    | true =>
      apply Refines.bind hb; intro o
      cases o with
      | normal | cont =>
        apply Refines.bind (Refines.refl _); intro σ
        apply Refines.bind (Refines.refl _); intro _
        exact ih _
      | brk | ret v => exact Refines.refl _

omit [DecidableEq ν] in
theorem forLoop_watched {body body' : ν → Run (State ν μ) (Outcome ν)} (hb : ∀ v, Refines (body v) (body' v))
    (xs : List Name) : ∀ (vs : List ν) (out : Name → Bool),
      Refines (Python.forLoop body xs vs out) (Python.forLoop body' xs vs out) := by
  intro vs
  induction vs with
  | nil => intro out; exact Refines.refl _
  | cons v vs ih =>
    intro out
    apply Refines.bind (hb v); intro o
    cases o with
    | normal | cont =>
      apply Refines.bind (Refines.refl _); intro σ
      apply Refines.bind (Refines.refl _); intro _
      exact ih _
    | brk | ret v => exact Refines.refl _

theorem constLoop_watched {body body' : Run (State ν μ) (Outcome ν)} (hb : Refines body body') (t : Target)
    (xs : List Name) (active : Name → Option (Const ν)) : ∀ (its : List (ν × Const ν)) (last : Table ν),
      Refines (P.constLoop scope .watched t body xs active last its)
        (P.constLoop scope .identity t body' xs active last its) := by
  intro its
  induction its with
  | nil =>
    intro last
    apply Refines.bind (guard_watched _); intro _
    exact Refines.refl _
  | cons it its ih =>
    intro last
    apply Refines.bind (Refines.refl _); intro bs
    apply Refines.bind (Refines.refl _); intro _
    apply Refines.bind hb; intro o
    apply Refines.bind (Refines.refl _); intro _
    cases o with
    | normal | cont => exact ih _
    | brk | ret v => exact Refines.refl _

theorem iterItems_watched (n : Nat) (l : Bool) (e : Expr ν) :
    Refines (P.iterItems scope .watched n l e) (P.iterItems scope .identity n l e) := by
  apply Refines.bind (Refines.refl _); intro σ
  cases P.tupleParam σ.active e with
  | some w =>
    show Refines (if _ then _ else _) (if _ then _ else _)
    rw [if_neg (ne_and (by decide)), if_neg (ne_and (by decide))]
    apply Refines.bind (evalM_watched P scope n e); intro v
    apply Refines.bind (Refines.refl _); intro vs
    apply Refines.bind (guard_watched _); intro _
    exact Refines.refl _
  | none =>
    apply Refines.bind (evalM_watched P scope n _); intro v
    exact Refines.refl _

omit [DecidableEq ν] in
theorem elseClause_watched {orelse orelse' : Run (State ν μ) (Outcome ν)} (h : Refines orelse orelse')
    (xs : List Name) (o : Outcome ν) :
    Refines (Python.elseClause orelse xs o) (Python.elseClause orelse' xs o) := by
  cases o with
  | normal | cont => exact h
  | brk | ret v => exact Refines.refl _

theorem exec_watched (n : Nat) : ∀ s : Stmt ν, Refines (P.exec scope .watched n s) (P.exec scope .identity n s) := by
  intro s
  induction s with
  | seq a b iha ihb =>
    apply Refines.bind iha; intro o
    cases o with
    | normal => exact ihb
    | _ => exact Refines.refl _
  | assign t e | expr e | ret e =>
    apply Refines.bind (evalM_watched P scope n e); intro v
    exact Refines.refl _
  | setitem a i e =>
    apply Refines.bind (evalM_watched P scope n e); intro v
    apply Refines.bind (evalM_watched P scope n a); intro a
    apply Refines.bind (evalM_watched P scope n i); intro i
    exact Refines.refl _
  | ite c a b iha ihb =>
    apply Refines.bind (evalTest_watched P scope n c); intro v
    cases v with
    | true =>
      apply Refines.bind iha; intro o
      exact Refines.refl _
    | false =>
      apply Refines.bind (Refines.refl _); intro _
      exact ihb
  | «while» c a b iha ihb =>
    apply Refines.bind (Refines.refl _); intro σ
    apply Refines.bind (whileLoop_watched (evalTest_watched P scope n c) iha _ n _); intro o
    exact elseClause_watched ihb _ o
  | forIn t e a b iha ihb =>
    unfold Python.exec
    cases e.constevalCall with
    | some la =>
      apply Refines.bind (iterItems_watched P scope n la.1 la.2); intro its
      apply Refines.bind (Refines.refl _); intro σ
      apply Refines.bind (constLoop_watched P scope iha t _ _ its _); intro o
      exact elseClause_watched ihb _ o
    | none =>
      apply Refines.bind (evalM_watched P scope n e); intro v
      apply Refines.bind (Refines.refl _); intro vs
      apply Refines.bind (Refines.refl _); intro σ
      refine Refines.bind (forLoop_watched ?_ _ vs _) ?_
      · intro w
        apply Refines.bind (Refines.refl _); intro _
        exact iha
      · intro o
        exact elseClause_watched ihb _ o
  | withItem f e x a iha =>
    apply Refines.bind (guard_watched _); intro _
    apply Refines.bind (evalM_watched P scope n e); intro v
    apply Refines.bind (Refines.refl _); intro w
    apply Refines.bind (Refines.refl _); intro _
    apply Refines.bind iha; intro o
    exact Refines.refl _
  | bindFn d f x e =>
    apply Refines.bind (guard_watched _); intro _
    exact Refines.refl _
  | _ => exact Refines.refl _

end

end NumbaCudaMlir.Consteval

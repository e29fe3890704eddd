import NumbaCudaMlir.Dict
import Mathlib.Logic.Function.Basic

/-!
# Compile-time evaluation in kernel bodies

`consteval(e)` and `literally(e)` are evaluated while the body is rewritten, in
one walk over its text with a table of the names that are known so far.
-/

namespace NumbaCudaMlir.Consteval

abbrev Name := String

/-- What a compile-time name stands for: a value, or the expression `p[k]` for
an element of a tuple parameter. -/
inductive Const (ν : Type) where
  | val (v : ν)
  | element (p : Name) (k : Nat)

/-! ## Syntax -/

inductive Expr (ν : Type) where
  | const (v : ν)
  | name (x : Name)
  | unary (f : String) (e : Expr ν)
  | binary (f : String) (a b : Expr ν)
  | item (e : Expr ν) (k : Nat)
  -- reads or writes device memory
  | prim (f : String) (e : Expr ν)
  | consteval (literally : Bool) (e : Expr ν)
  -- a function defined in the body
  | call (f : Name) (e : Expr ν)
  -- `(lambda x: body)(e)`
  | app (x : Name) (body e : Expr ν)
  -- `[elt for x in iter]`
  | comp (elt : Expr ν) (x : Name) (iter : Expr ν)

inductive Target where
  | name (x : Name)
  | tuple (elts : List Target)
  | starred (t : Target)

inductive Stmt (ν : Type) where
  | skip
  | seq (a b : Stmt ν)
  | assign (t : Target) (e : Expr ν)
  -- `a[i] = e`
  | setitem (a i e : Expr ν)
  | expr (e : Expr ν)
  | ite (test : Expr ν) (body orelse : Stmt ν)
  | while (test : Expr ν) (body orelse : Stmt ν)
  | forIn (t : Target) (iter : Expr ν) (body orelse : Stmt ν)
  -- `with f(e) as x: body`
  | withItem (f : String) (e : Expr ν) (x : Option Name) (body : Stmt ν)
  -- `def f(x): return e`, or `f = lambda x: e`
  | bindFn (isDef : Bool) (f x : Name) (e : Expr ν)
  | break
  | continue
  | ret (e : Expr ν)

def Const.toExpr {ν : Type} : Const ν → Expr ν
  | .val v => .const v
  | .element p k => .item (.name p) k

mutual

def Target.names : Target → List Name
  | .name x => [x]
  | .tuple ts => Target.listNames ts
  | .starred t => t.names

def Target.listNames : List Target → List Name
  | [] => []
  | t :: ts => t.names ++ Target.listNames ts

end

section
variable {ν : Type}

def Expr.constevalCall : Expr ν → Option (Bool × Expr ν)
  | .consteval l e => some (l, e)
  | _ => none

/-- Names that occur as assignment targets: those of comprehensions. -/
def Expr.stores : Expr ν → List Name
  | .const _ | .name _ => []
  | .unary _ e | .item e _ | .prim _ e | .consteval _ e | .call _ e => e.stores
  | .binary _ a b => a.stores ++ b.stores
  | .app _ b e => b.stores ++ e.stores
  | .comp elt x iter => x :: (elt.stores ++ iter.stores)

def Stmt.stores : Stmt ν → List Name
  | .skip | .break | .continue => []
  | .seq a b => a.stores ++ b.stores
  | .assign t e => t.names ++ e.stores
  | .setitem a i e => a.stores ++ (i.stores ++ e.stores)
  | .expr e | .ret e => e.stores
  | .ite c a b | .while c a b => c.stores ++ (a.stores ++ b.stores)
  | .forIn t e a b => t.names ++ (e.stores ++ (a.stores ++ b.stores))
  | .withItem _ e x a => x.toList ++ (e.stores ++ a.stores)
  -- the name of a `def` is no `Name` node
  | .bindFn isDef f _ e => (if isDef then [] else [f]) ++ e.stores

/-- A `break` or `continue` that leaves or restarts the loop around the
statement. Of a nested loop only the `else` clause can hold one. -/
def Stmt.loopControl : Stmt ν → Bool
  | .break | .continue => true
  | .seq a b | .ite _ a b => a.loopControl || b.loopControl
  | .while _ _ b | .forIn _ _ _ b => b.loopControl
  | .withItem _ _ _ a => a.loopControl
  | _ => false

/-- The names that are local to a function with this body. -/
def Stmt.assigned : Stmt ν → List Name
  | .seq a b | .ite _ a b | .while _ a b => a.assigned ++ b.assigned
  | .assign t _ => t.names
  | .forIn t _ a b => t.names ++ (a.assigned ++ b.assigned)
  | .withItem _ _ x a => x.toList ++ a.assigned
  | .bindFn _ f _ _ => [f]
  | _ => []

end

/-! ## Substitution -/

abbrev Subst (ν : Type) := Name → Option (Expr ν)

abbrev Table (ν : Type) := Dict Name (Const ν)

section
variable {ν : Type}

/-- Every `Name` node is replaced, also below a binder of the same name. -/
def Expr.subst (θ : Subst ν) : Expr ν → Expr ν
  | .const v => .const v
  | .name x => (θ x).getD (.name x)
  | .unary f e => .unary f (e.subst θ)
  | .binary f a b => .binary f (a.subst θ) (b.subst θ)
  | .item e k => .item (e.subst θ) k
  | .prim f e => .prim f (e.subst θ)
  | .consteval l e => .consteval l (e.subst θ)
  | .call f e =>
    match θ f with
    | none => .call f (e.subst θ)
    | some r => .binary "()" r (e.subst θ)
  | .app x b e => .app x (b.subst θ) (e.subst θ)
  | .comp elt x iter => .comp (elt.subst θ) x (iter.subst θ)

/-- Targets stay: no target of a loop body is a variable of that loop. -/
def Stmt.subst (θ : Subst ν) : Stmt ν → Stmt ν
  | .skip => .skip
  | .seq a b => .seq (a.subst θ) (b.subst θ)
  | .assign t e => .assign t (e.subst θ)
  | .setitem a i e => .setitem (a.subst θ) (i.subst θ) (e.subst θ)
  | .expr e => .expr (e.subst θ)
  | .ite c a b => .ite (c.subst θ) (a.subst θ) (b.subst θ)
  | .while c a b => .while (c.subst θ) (a.subst θ) (b.subst θ)
  | .forIn t e a b => .forIn t (e.subst θ) (a.subst θ) (b.subst θ)
  | .withItem f e x a => .withItem f (e.subst θ) x (a.subst θ)
  | .bindFn d f x e => .bindFn d f x (e.subst θ)
  | .break => .break
  | .continue => .continue
  | .ret e => .ret (e.subst θ)

def Subst.ofTable (bs : Table ν) : Subst ν := fun x => (bs.get x).map Const.toExpr

/-- First `θ`, then `θ'`. -/
def Subst.comp (θ θ' : Subst ν) : Subst ν := fun x =>
  match θ x with
  | some e => some (e.subst θ')
  | none => θ' x

end

/-! ## The interpreter and the function under rewriting -/

inductive ParamType where
  | tuple (n : Nat)
  | other
  deriving DecidableEq

/-- Python's operators over values `ν` and a device memory `μ`, with the globals
and the argument types of the function. -/
structure Python (ν μ : Type) where
  none : ν
  truth : ν → Option Bool
  list : List ν → ν
  items : ν → Option (List ν)
  unary : String → ν → Option ν
  binary : String → ν → ν → Option ν
  prim : String → ν → μ → Option (ν × μ)
  setitem : ν → ν → ν → μ → Option μ
  enter : String → ν → μ → Option (ν × μ)
  leave : String → ν → μ → Option μ
  -- globals and closure variables
  globals : Name → Option ν
  params : Name → Option ParamType
  -- the Numba type of a parameter, as an object
  typeOf : Name → ν
  -- the syntax tree of `p[k]`, as an object
  node : Name → Nat → ν

variable {ν μ : Type} (P : Python ν μ)

namespace Python

def item (v : ν) (k : Nat) : Option ν := (P.items v).bind (·[k]?)

def object : Const ν → ν
  | .val v => v
  | .element p k => P.node p k

def constItems : Const ν → Option (List (Const ν))
  | .val v => (P.items v).map (·.map .val)
  -- a syntax tree is not iterable
  | .element _ _ => .none

/-- Parameter types shadow the known names, these shadow the globals. -/
def context (T : Table ν) (x : Name) : Option (Const ν) :=
  if (P.params x).isSome then some (.val (P.typeOf x)) else (T.get x).or ((P.globals x).map .val)

/-- `eval`, with the names that binders of the expression itself bind. -/
def evalExpr (T : Table ν) : Expr ν → (Name → Option (Const ν)) → Option (Const ν)
  | .const v, _ => some (.val v)
  | .name x, ζ => (ζ x).or (P.context T x)
  | .unary f e, ζ => do
    let c ← evalExpr T e ζ
    (P.unary f (P.object c)).map .val
  | .binary f a b, ζ => do
    let c ← evalExpr T a ζ
    let d ← evalExpr T b ζ
    (P.binary f (P.object c) (P.object d)).map .val
  | .item e k, ζ => do
    let c ← evalExpr T e ζ
    (P.item (P.object c) k).map .val
  -- there is no device memory at compile time
  | .prim _ _, _ => .none
  -- the library's `consteval` raises, its `literally` returns the argument
  | .consteval literally e, ζ => if literally then evalExpr T e ζ else .none
  | .call f e, ζ => do
    let c ← (ζ f).or (P.context T f)
    let d ← evalExpr T e ζ
    (P.binary "()" (P.object c) (P.object d)).map .val
  | .app x b e, ζ => do
    let c ← evalExpr T e ζ
    evalExpr T b (Function.update ζ x (some c))
  | .comp elt x iter, ζ => do
    let c ← evalExpr T iter ζ
    let cs ← P.constItems c
    let ds ← cs.mapM fun c => evalExpr T elt (Function.update ζ x (some c))
    some (.val (P.list (ds.map P.object)))

def evalConst (T : Table ν) (e : Expr ν) : Option (Const ν) := P.evalExpr T e fun _ => .none

def visit (T : Table ν) : Expr ν → Option (Expr ν)
  | .const v => some (.const v)
  | .name x => some (.name x)
  | .unary f e => (visit T e).map (.unary f)
  | .binary f a b => do
    let a ← visit T a
    let b ← visit T b
    some (.binary f a b)
  | .item e k => (visit T e).map (.item · k)
  | .prim f e => (visit T e).map (.prim f)
  | .consteval _ e => do
    let e ← visit T e
    (P.evalConst T e).map Const.toExpr
  | .call f e => (visit T e).map (.call f)
  | .app x b e => do
    let b ← visit T b
    let e ← visit T e
    some (.app x b e)
  | .comp elt x iter => do
    let elt ← visit T elt
    let iter ← visit T iter
    some (.comp elt x iter)

end Python

/-! ## Loop targets -/

mutual

/-- `_bind_loop_target`; unpacking at run time binds the same way. -/
def bindTarget {α : Type} (items : α → Option (List α)) : Target → α → Option (Dict Name α)
  | .name x, v => some (Dict.empty.set x v)
  | .tuple ts, v => do
    let vs ← items v
    if vs.length = ts.length then bindTargets items ts vs else .none
  | .starred _, _ => .none

def bindTargets {α : Type} (items : α → Option (List α)) : List Target → List α → Option (Dict Name α)
  | t :: ts, v :: vs => do
    let b ← bindTarget items t v
    let bs ← bindTargets items ts vs
    some (b.update bs)
  | _, _ => some Dict.empty

end

/-! ## Statements -/

def assignAll : List (Name × Const ν) → Stmt ν
  | [] => .skip
  | (x, c) :: bs => .seq (.assign (.name x) c.toExpr) (assignAll bs)

def unroll (copy : Const ν → Option (Stmt ν × Table ν)) : Table ν → List (Const ν) → Option (Stmt ν × Table ν)
  | last, [] => some (.skip, last)
  | _, c :: cs => do
    let s ← copy c
    let r ← unroll copy s.2 cs
    some (.seq s.1 r.1, r.2)

namespace Python

/-- `_parameter_element_exprs`, else the items of the evaluated iterator. -/
def loopItems (T : Table ν) (e : Expr ν) : Option (List (Const ν)) :=
  match e with
  | .name p =>
    match P.params p with
    | some (.tuple n) => some ((List.range n).map (.element p))
    | some .other => .none
    | .none => (P.evalConst T e).bind P.constItems
  | _ => (P.evalConst T e).bind P.constItems

variable [DecidableEq ν]

/-- `x` becomes known, unless its value is `None` or not a value. -/
def track (T : Table ν) (x : Name) : Const ν → Table ν
  | .val v => if v = P.none then T else T.set x (.val v)
  | .element _ _ => T

/-- The rewriting of a statement under the substitution of the unrolled loops
around it, and the table after it. -/
def process : Stmt ν → Subst ν → Table ν → Option (Stmt ν × Table ν)
  | .skip, _, T => some (.skip, T)
  | .seq a b, θ, T => do
    let a ← process a θ T
    let b ← process b θ a.2
    some (.seq a.1 b.1, b.2)
  | .assign t e, θ, T =>
    match t, e.constevalCall with
    | .name x, some (_, arg) => do
      let c ← P.evalConst T (arg.subst θ)
      some (.assign (.name x) c.toExpr, P.track T x c)
    | t, _ => do
      let e ← P.visit T (e.subst θ)
      some (.assign t e, T)
  | .setitem a i e, θ, T => do
    let a ← P.visit T (a.subst θ)
    let i ← P.visit T (i.subst θ)
    let e ← P.visit T (e.subst θ)
    some (.setitem a i e, T)
  | .expr e, θ, T => do
    let e ← P.visit T (e.subst θ)
    some (.expr e, T)
  | .ite c a b, θ, T => do
    let c ← P.visit T (c.subst θ)
    let a ← process a θ T
    let b ← process b θ a.2
    some (.ite c a.1 b.1, b.2)
  | .while c a b, θ, T => do
    let c ← P.visit T (c.subst θ)
    let a ← process a θ T
    let b ← process b θ a.2
    some (.while c a.1 b.1, b.2)
  | .forIn t e body orelse, θ, T =>
    match e.constevalCall with
    | some (_, arg) =>
      if body.loopControl then .none
      else if t.names.any (body.stores.contains ·) then .none
      else do
        let items ← P.loopItems T (arg.subst θ)
        let copies ← unroll (fun c => do
          let bs ← bindTarget P.constItems t c
          -- the table is restored after each copy
          let s ← process body (θ.comp (.ofTable bs)) (T.update bs)
          some (s.1, bs)) Dict.empty items
        let e ← process orelse θ (T.update copies.2)
        some (.seq copies.1 (.seq (assignAll copies.2.entries) e.1), e.2)
    | .none => do
      let e ← P.visit T (e.subst θ)
      let a ← process body θ T
      let b ← process orelse θ a.2
      some (.forIn t e a.1 b.1, b.2)
  -- the items of a `with` are not visited
  | .withItem f e x body, θ, T => do
    let a ← process body θ T
    some (.withItem f (e.subst θ) x a.1, a.2)
  | .bindFn d f x e, θ, T => do
    let e ← P.visit T (e.subst θ)
    some (.bindFn d f x e, T)
  | .break, _, T => some (.break, T)
  | .continue, _, T => some (.continue, T)
  | .ret e, θ, T => do
    let e ← P.visit T (e.subst θ)
    some (.ret e, T)

/-- `transform_consteval`; nothing where it raises `ConstevalError`. -/
def transform (body : Stmt ν) : Option (Stmt ν) := (P.process body (fun _ => .none) Dict.empty).map (·.1)

end Python
end NumbaCudaMlir.Consteval

import NumbaCudaMlir.Dict
import NumbaCudaMlir.WhileLoop

/-!
# Control flow graphs

`CFGraph` of `core/controlflow.py`: the depth-first post-order, the immediate
dominators after Cooper, Harvey and Kennedy, and the tables read off them. A
set is a list in the order in which it is iterated. `none` is a `KeyError`, a
`reduce` of nothing or a loop that is cut off.
-/

namespace NumbaCudaMlir.ControlFlow

open WhileLoop

structure CFGraph (ν : Type) where
  nodes : List ν
  preds : ν → List ν
  succs : ν → List ν
  mirror : ∀ a b, a ∈ preds b ↔ b ∈ succs a
  closed : ∀ a b, b ∈ succs a → a ∈ nodes ∧ b ∈ nodes

section
variable {ν : Type} [DecidableEq ν]

/-! ## The depth-first post-order -/

/-- The entries `(visit, node)` and `(order.append, node)` of the stack. -/
inductive Call (ν : Type) where
  | visit (n : ν)
  | append (n : ν)

/-- The top of the stack comes first. -/
structure Search (ν : Type) where
  stack : List (Call ν)
  seen : List ν
  order : List ν

def Search.turn (children : ν → List ν) (s : Search ν) : Option (Search ν) :=
  match s.stack with
  | [] => none
  | .visit n :: stack =>
    if n ∈ s.seen then some { s with stack }
    else some ⟨((children n).map .visit).reverse ++ .append n :: stack, n :: s.seen, s.order⟩
  | .append n :: stack => some ⟨stack, s.seen, s.order ++ [n]⟩

def postOrder (fuel : Nat) (children : ν → List ν) (roots : List ν) : Option (List ν) :=
  (whileLoop (fun s => !s.stack.isEmpty) (Search.turn children) fuel ⟨(roots.map .visit).reverse, [], []⟩).map (·.order)

/-! ## Immediate dominators

A key of `idom` is a node, or `none` for the virtual root. -/

/-- The virtual root comes behind all nodes. -/
def idx (order : List ν) : Option ν → Nat
  | some n => order.idxOf n
  | none => order.length

abbrev Idom (ν : Type) := Dict (Option ν) (Option ν)

/-- `while idx[u] < i: u = idom[u]` -/
def climb (fuel : Nat) (order : List ν) (idom : Idom ν) (i : Nat) (u : Option ν) : Option (Option ν) :=
  whileLoop (fun u => idx order u < i) idom.get fuel u

def intersect (fuel : Nat) (order : List ν) (idom : Idom ν) (u v : Option ν) : Option (Option ν) :=
  (whileLoop (fun p => p.1 ≠ p.2)
    (fun p => (climb fuel order idom (idx order p.2) p.1).bind fun u =>
      (climb fuel order idom (idx order u) p.2).map fun v => (u, v)) fuel (u, v)).map (·.1)

/-- `functools.reduce` without an initial value. -/
def reduce {α : Type} (f : α → α → Option α) : List α → Option α
  | [] => none
  | a :: as => as.foldlM f a

structure Idoms (ν : Type) where
  idom : Idom ν
  changed : Bool

section
variable (fuel : Nat) (roots : List ν) (preds : ν → List ν) (order : List ν)

def predsOf (idom : Idom ν) (u : ν) : List (Option ν) :=
  ((preds u).filter fun v => (idom.get (some v)).isSome).map some ++ if u ∈ roots then [none] else []

def relax (s : Idoms ν) (u : ν) : Option (Idoms ν) :=
  (reduce (intersect fuel order s.idom) (predsOf roots preds s.idom u)).map fun newIdom =>
    if s.idom.get (some u) = some newIdom then s else ⟨s.idom.set (some u) newIdom, true⟩

def sweep (s : Idoms ν) : Option (Idoms ν) := order.reverse.foldlM (relax fuel roots preds order) ⟨s.idom, false⟩

end

def immediateDominators (fuel : Nat) (roots : List ν) (predsTable succsTable : ν → List ν) : Option (Dict ν (Option ν)) := do
  let order ← postOrder fuel succsTable roots
  let s ← whileLoop (·.changed) (sweep fuel roots predsTable order) fuel ⟨Dict.empty.set none none, true⟩
  order.foldlM (fun result u => (s.idom.get (some u)).map fun v => result.set u (if u ∈ roots then some u else v)) .empty

def findImmediateDominators (fuel : Nat) (g : CFGraph ν) (entry : ν) : Option (Dict ν (Option ν)) :=
  immediateDominators fuel [entry] g.preds g.succs

/-! ## Dominator sets -/

/-- The chain of `node` up to a node whose set is known, the last one first. -/
def chainOf (fuel : Nat) (idom : Dict ν (Option ν)) (doms : Dict ν (List ν)) (node : ν) : Option (List ν × Option ν) :=
  whileLoop (fun s => s.2.any fun cur => (doms.get cur).isNone)
    (fun s => s.2.bind fun cur => (idom.get cur).map fun parent =>
      (cur :: s.1, if parent = some cur then none else parent)) fuel ([], some node)

def addChain (doms : Dict ν (List ν)) (base : List ν) (chain : List ν) : Dict ν (List ν) :=
  (chain.foldl (fun s cur => (cur :: s.1, s.2.set cur (cur :: s.1))) (base, doms)).2

def addDominators (fuel : Nat) (idom : Dict ν (Option ν)) (doms : Dict ν (List ν)) (node : ν) : Option (Dict ν (List ν)) := do
  let (chain, cur) ← chainOf fuel idom doms node
  let base ← cur.elim (some []) doms.get
  return addChain doms base chain

def dominatorSets (fuel : Nat) (nodes : List ν) (idom : Dict ν (Option ν)) : Option (Dict ν (List ν)) :=
  (idom.keys.foldlM (addDominators fuel idom) .empty).map fun doms =>
    nodes.foldl (fun doms node => doms.setDefault node nodes) doms

def findDominators (fuel : Nat) (g : CFGraph ν) (entry : ν) : Option (Dict ν (List ν)) :=
  (findImmediateDominators fuel g entry).bind (dominatorSets fuel g.nodes)

/-! ## Dominance frontiers -/

/-- `while v != idom[u]: df[v].add(u); v = idom[v]` -/
def climbFrontier (fuel : Nat) (idom : Dict ν (Option ν)) (u : ν) (stop : Option ν) (df : Dict ν (List ν)) (v : ν) :
    Option (Dict ν (List ν)) :=
  (whileLoop (fun s => s.2 ≠ stop)
    (fun s => s.2.bind fun v => (s.1.get v).bind fun us => (idom.get v).map fun p => (s.1.set v (us.insert u), p))
    fuel (df, some v)).map (·.1)

def findDominanceFrontier (fuel : Nat) (g : CFGraph ν) (idom : Dict ν (Option ν)) : Option (Dict ν (List ν)) :=
  idom.keys.foldlM (fun df u =>
    if (g.preds u).length < 2 then some df
    else (idom.get u).bind fun stop => (g.preds u).foldlM (climbFrontier fuel idom u stop) df)
    (idom.keys.foldl (fun df u => df.set u []) .empty)

end

end NumbaCudaMlir.ControlFlow

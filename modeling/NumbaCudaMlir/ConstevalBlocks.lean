import NumbaCudaMlir.Runs
import Mathlib.Data.Set.Insert

/-!
# Blocks executed at compile time

`with consteval():` executes its statements one by one with `exec`, in a table of
globals and a table of locals of its own, and nested blocks by recursion. A statement
is given by what it does to names: at the top of the statement Python looks in the
locals first, functions look in the globals of the block that defined them.
-/

namespace NumbaCudaMlir.ConstevalBlocks

abbrev Name := String

abbrev Scope (ν : Type) := Name → Option ν

/-- `a.update(b)`. -/
def Scope.update {ν : Type} (a b : Scope ν) : Scope ν := fun x => (b x).or (a x)

def Scope.empty {ν : Type} : Scope ν := fun _ => none

/-! ## Statements and blocks -/

/-- A statement: what it goes on with may depend on everything it has read. -/
inductive Code (ν σ : Type) where
  | done
  | raise
  -- whatever touches no name
  | prim (f : σ → ν × σ) (k : ν → Code ν σ)
  | load (x : Name) (k : Option ν → Code ν σ)
  | store (x : Name) (v : ν) (k : Code ν σ)
  -- tells whether the name was bound
  | delete (x : Name) (k : Bool → Code ν σ)
  -- in a function whose globals are those of block `b`
  | loadGlobal (b : Nat) (x : Name) (k : Option ν → Code ν σ)
  -- with a `global` declaration
  | storeGlobal (b : Nat) (x : Name) (v : ν) (k : Code ν σ)
  | deleteGlobal (b : Nat) (x : Name) (k : Bool → Code ν σ)

inductive Block (ν σ : Type) where
  | nil
  | stmt (c : Code ν σ) (rest : Block ν σ)
  | nested (body rest : Block ν σ)

section
variable {ν σ : Type}

/-! ## The transformer -/

/-- What `context` puts around the local constants. -/
structure Context (ν : Type) where
  base : Scope ν
  storedValues : Scope ν
  paramTypeMap : Scope ν
  targetOptions : Scope ν

def Context.visible (ctx : Context ν) (localConsts : Scope ν) : Scope ν :=
  (((ctx.base.update localConsts).update ctx.storedValues).update ctx.paramTypeMap).update ctx.targetOptions

/-- The tables of globals of all blocks so far, and the state of the interpreter. -/
structure World (ν σ : Type) where
  globals : Nat → Scope ν
  blocks : Nat
  heap : σ

namespace World

def setGlobals (s : World ν σ) (b : Nat) (g : Scope ν) : World ν σ := { s with globals := Runs.setAt s.globals b g }

def enter (s : World ν σ) (g : Scope ν) : World ν σ := { s.setGlobals s.blocks g with blocks := s.blocks + 1 }

end World

/-- `exec` of a statement of block `b`; `none` where it raises. -/
def Code.exec (b : Nat) : Code ν σ → World ν σ → (locals : Scope ν) → Option (World ν σ × Scope ν)
  | .done, s, locals => some (s, locals)
  | .raise, _, _ => none
  | .prim f k, s, locals => (k (f s.heap).1).exec b { s with heap := (f s.heap).2 } locals
  | .load x k, s, locals => (k ((locals x).or (s.globals b x))).exec b s locals
  | .store x v k, s, locals => k.exec b s (Function.update locals x (some v))
  | .delete x k, s, locals =>
    if (locals x).isSome then (k true).exec b s (Function.update locals x none) else (k false).exec b s locals
  | .loadGlobal b' x k, s, locals => (k (s.globals b' x)).exec b s locals
  | .storeGlobal b' x v k, s, locals => k.exec b (s.setGlobals b' (Function.update (s.globals b') x (some v))) locals
  | .deleteGlobal b' x k, s, locals =>
    (k (s.globals b' x).isSome).exec b (s.setGlobals b' (Function.update (s.globals b') x none)) locals

/-- The names of `new` that `known` does not have. -/
def Scope.without (new known : Scope ν) : Scope ν := fun x => if (known x).isSome then none else new x

def Block.execute (ctx : Context ν) : Block ν σ → Nat → World ν σ → (locals : Scope ν) → Option (World ν σ × Scope ν)
  | .nil, _, s, locals => some (s, locals)
  | .stmt c rest, b, s, locals =>
    (c.exec b s locals).bind fun (s, locals) => rest.execute ctx b (s.setGlobals b ((s.globals b).update locals)) locals
  | .nested body rest, b, s, locals =>
    let localConsts := locals.update (s.globals b)
    (body.execute ctx s.blocks (s.enter (ctx.visible localConsts)) .empty).bind fun (s, inner) =>
      let new := (localConsts.update inner).without (s.globals b)
      rest.execute ctx b (s.setGlobals b ((s.globals b).update new)) (locals.update new)

/-- `_transform_consteval_block`, to the table of local constants. -/
def Block.transform (ctx : Context ν) (body : Block ν σ) (s : World ν σ) (localConsts : Scope ν) : Option (World ν σ × Scope ν) :=
  (body.execute ctx s.blocks (s.enter (ctx.visible localConsts)) .empty).map fun (s, locals) => (s, localConsts.update locals)

/-! ## One namespace -/

structure Plain (ν σ : Type) where
  names : Scope ν
  heap : σ

def Plain.set (p : Plain ν σ) (x : Name) (v : Option ν) : Plain ν σ := { p with names := Function.update p.names x v }

def Code.plain : Code ν σ → Plain ν σ → Option (Plain ν σ)
  | .done, p => some p
  | .raise, _ => none
  | .prim f k, p => (k (f p.heap).1).plain { p with heap := (f p.heap).2 }
  | .load x k, p | .loadGlobal _ x k, p => (k (p.names x)).plain p
  | .store x v k, p | .storeGlobal _ x v k, p => k.plain (p.set x (some v))
  | .delete x k, p | .deleteGlobal _ x k, p => (k (p.names x).isSome).plain (p.set x none)

def Block.plain : Block ν σ → Plain ν σ → Option (Plain ν σ)
  | .nil, p => some p
  | .stmt c rest, p => (c.plain p).bind rest.plain
  | .nested body rest, p => (body.plain p).bind rest.plain

/-! ## Which runs the blocks can follow -/

/-- The names of the plain run, with those that changed since the globals of a block took them over. -/
structure Watch (ν σ : Type) where
  plain : Plain ν σ
  blocks : Nat
  stale : Nat → Set Name

namespace Watch

def set (w : Watch ν σ) (x : Name) (v : Option ν) : Watch ν σ :=
  { w with plain := w.plain.set x v, stale := fun b => insert x (w.stale b) }

/-- After a statement of block `b` its globals have every name that is bound. -/
def settle (w : Watch ν σ) (b : Nat) : Watch ν σ :=
  { w with stale := Runs.setAt w.stale b { x ∈ w.stale b | w.plain.names x = none } }

def enter (w : Watch ν σ) (b : Nat) : Watch ν σ :=
  { w with blocks := w.blocks + 1, stale := Runs.setAt w.stale w.blocks (w.stale b) }

/-- A nested block leaves the globals around it as they were, but for its own names. -/
def leave (w : Watch ν σ) (b : Nat) (stale : Set Name) : Watch ν σ := { w with stale := Runs.setAt w.stale b stale }

end Watch

/-- What a block may not bind: the names that are visible where it begins, or were in its globals. -/
structure Bounds (ν : Type) where
  block : Nat
  start : Scope ν
  frozen : Set Name

def Context.reserved (ctx : Context ν) : Set Name :=
  { x | (ctx.targetOptions x).isSome ∨ (ctx.paramTypeMap x).isSome ∨ (ctx.storedValues x).isSome }

def Code.watch : Code ν σ → Watch ν σ → Option (Watch ν σ)
  | .done, w => some w
  | .raise, _ => none
  | .prim f k, w => (k (f w.plain.heap).1).watch { w with plain := { w.plain with heap := (f w.plain.heap).2 } }
  | .load x k, w | .loadGlobal _ x k, w => (k (w.plain.names x)).watch w
  | .store x v k, w | .storeGlobal _ x v k, w => k.watch (w.set x (some v))
  | .delete x k, w | .deleteGlobal _ x k, w =>
    match w.plain.names x with
    | some _ => (k true).watch (w.set x none)
    | none => (k false).watch w

/-- Every operation of the statement finds its name where the block has it. -/
def Code.Meets (ctx : Context ν) (bd : Bounds ν) : Code ν σ → Watch ν σ → Prop
  | .done, _ | .raise, _ => True
  | .prim f k, w => (k (f w.plain.heap).1).Meets ctx bd { w with plain := { w.plain with heap := (f w.plain.heap).2 } }
  -- no name that was deleted in this block
  | .load x k, w => (w.plain.names x = none → x ∉ w.stale bd.block) ∧ (k (w.plain.names x)).Meets ctx bd w
  -- no parameter, and in a nested block no name from outside
  | .store x v k, w => (x ∉ bd.frozen ∧ x ∉ ctx.reserved) ∧ k.Meets ctx bd (w.set x (some v))
  | .delete x k, w =>
    match w.plain.names x with
    | some _ => (bd.start x = none ∧ x ∉ bd.frozen) ∧ (k true).Meets ctx bd (w.set x none)
    | none => (k false).Meets ctx bd w
  | .loadGlobal b x k, w => (b < w.blocks ∧ x ∉ w.stale b) ∧ (k (w.plain.names x)).Meets ctx bd w
  | .storeGlobal .., _ | .deleteGlobal .., _ => False

def Block.watch : Block ν σ → Nat → Watch ν σ → Option (Watch ν σ)
  | .nil, _, w => some w
  | .stmt c rest, b, w => (c.watch w).bind fun w => rest.watch b (w.settle b)
  | .nested body rest, b, w => (body.watch w.blocks (w.enter b)).bind fun w' => rest.watch b (w'.leave b (w.stale b))

def Bounds.nested (w : Watch ν σ) (b : Nat) : Bounds ν := ⟨w.blocks, w.plain.names, { x | (w.plain.names x).isSome } ∪ w.stale b⟩

def Block.Meets (ctx : Context ν) : Block ν σ → Bounds ν → Watch ν σ → Prop
  | .nil, _, _ => True
  | .stmt c rest, bd, w => c.Meets ctx bd w ∧ ∀ w', c.watch w = some w' → rest.Meets ctx bd (w'.settle bd.block)
  | .nested body rest, bd, w => body.Meets ctx (.nested w bd.block) (w.enter bd.block) ∧
    ∀ w', body.watch w.blocks (w.enter bd.block) = some w' → rest.Meets ctx bd (w'.leave bd.block (w.stale bd.block))

def Watch.start (ctx : Context ν) (s : World ν σ) (localConsts : Scope ν) : Watch ν σ where
  plain := ⟨ctx.visible localConsts, s.heap⟩
  blocks := s.blocks + 1
  stale := Runs.setAt (fun b => { x | s.globals b x ≠ ctx.visible localConsts x }) s.blocks ∅

def Bounds.outermost (ctx : Context ν) (s : World ν σ) (localConsts : Scope ν) : Bounds ν := ⟨s.blocks, ctx.visible localConsts, ∅⟩

end

end NumbaCudaMlir.ConstevalBlocks

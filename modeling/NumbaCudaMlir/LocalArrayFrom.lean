import NumbaCudaMlir.AstTransforms

/-!
# `local_array_from`

`arr = local_array_from((elt for target in iter), ...)`: the generator expression
evaluated in order into a fresh array, in a scope of its own, and the statements that
`LocalArrayFromTransformer` makes of the assignment, in the scope of the function.
-/

namespace NumbaCudaMlir.LocalArrayFrom

open SyntaxTree
open AstTransforms (LocalArrayFromState localArrayFromTransformer)

/-- The names of a function with their objects, globals and builtins included. -/
abbrev Env (ν : Type) := Name → Option ν

inductive Builtin where
  | len
  | range
  | cuda
  deriving DecidableEq

/-- Python over objects `ν` and a memory `σ`; `none` where an exception is raised. -/
structure Python (ο ν σ : Type) where
  -- the expressions that the transformer does not make
  eval : Node ο → Env ν → σ → Option (ν × σ)
  builtin : ν → Option Builtin
  nat : Nat → ν
  toNat : ν → Option Nat
  range : Nat → ν
  len : ν → σ → Option Nat
  -- the number of items that an iteration gives, and each of them
  count : ν → σ → Option Nat
  item : ν → Nat → σ → Option (ν × σ)
  getitem : (obj key : ν) → σ → Option (ν × σ)
  setitem : (obj key v : ν) → σ → Option σ
  setattr : (obj : ν) → Name → (v : ν) → σ → Option σ
  -- the objects for the elements of a target, of which some are starred
  unpack : ν → (starred : List Bool) → σ → Option (List ν × σ)
  -- `cuda.local_array(n, *args, **keywords)`
  localArray : (n : Nat) → (args : List ν) → (keywords : List (Node ο × ν)) → σ → Option (ν × σ)
  toNat_nat : ∀ n, toNat (nat n) = some n
  count_range : ∀ n s, count (range n) s = some n
  item_range : ∀ n k s, k < n → item (range n) k s = some (nat k, s)

section
variable {ο ν σ : Type} (P : Python ο ν σ)

/-! ## Python -/

namespace Python

mutual

def evalNode : Node ο → Env ν → σ → Option (ν × σ)
  | .name x _, env, s => (env x).map fun v => (v, s)
  | .subscript value slice _, env, s => do
    let v ← evalNode value env s
    let i ← evalNode slice env v.2
    P.getitem v.1 i.1 i.2
  | .call (.name f ctx) [e] [], env, s =>
    match (env f).bind P.builtin with
    | some .len => do
      let v ← evalNode e env s
      let n ← P.len v.1 v.2
      some (P.nat n, v.2)
    | some .range => do
      let v ← evalNode e env s
      let n ← P.toNat v.1
      some (P.range n, v.2)
    | _ => P.eval (.call (.name f ctx) [e] []) env s
  | .call (.attribute (.name m ctx) f) [e] keywords, env, s =>
    if (env m).bind P.builtin = some .cuda ∧ f = "local_array" then do
      let v ← evalNode e env s
      let n ← P.toNat v.1
      let ks ← evalNodes keywords env v.2
      P.localArray n [] (keywords.zip ks.1) ks.2
    else P.eval (.call (.attribute (.name m ctx) f) [e] keywords) env s
  | e, env, s => P.eval e env s

def evalNodes : List (Node ο) → Env ν → σ → Option (List ν × σ)
  | [], _, s => some ([], s)
  | e :: es, env, s => do
    let v ← evalNode e env s
    let vs ← evalNodes es env v.2
    some (v.1 :: vs.1, vs.2)

end

def isStarred : Node ο → Bool
  | .starred _ => true
  | _ => false

mutual

def assignTarget : Node ο → ν → Env ν × σ → Option (Env ν × σ)
  | .name x _, v, st => some (Function.update st.1 x (some v), st.2)
  | .sequence ts, v, st => do
    let vs ← P.unpack v (ts.map isStarred) st.2
    assignTargets ts vs.1 (st.1, vs.2)
  | .starred t, v, st => assignTarget t v st
  | .subscript obj key _, v, st => do
    let o ← P.evalNode obj st.1 st.2
    let k ← P.evalNode key st.1 o.2
    let s ← P.setitem o.1 k.1 v k.2
    some (st.1, s)
  | .attribute obj attr, v, st => do
    let o ← P.evalNode obj st.1 st.2
    let s ← P.setattr o.1 attr v o.2
    some (st.1, s)
  | _, _, _ => none

def assignTargets : List (Node ο) → List ν → Env ν × σ → Option (Env ν × σ)
  | [], [], st => some st
  | t :: ts, v :: vs, st => do
    let st ← assignTarget t v st
    assignTargets ts vs st
  | _, _, _ => none

end

mutual

def exec : Stmt ο → Env ν × σ → Option (Env ν × σ)
  | .assign [target] value, st => do
    let v ← P.evalNode value st.1 st.2
    P.assignTarget target v.1 (st.1, v.2)
  | .forLoop false target iter body [], st => do
    let it ← P.evalNode iter st.1 st.2
    let n ← P.count it.1 it.2
    Runs.run (fun st k => do
      let v ← P.item it.1 k st.2
      let st ← P.assignTarget target v.1 (st.1, v.2)
      execList body st) (st.1, it.2) (List.range n)
  | _, _ => none

def execList : List (Stmt ο) → Env ν × σ → Option (Env ν × σ)
  | [], st => some st
  | s :: ss, st => do
    let st ← exec s st
    execList ss st

end

end Python

mutual

def boundNames : Node ο → List Name
  | .name x _ => [x]
  | .sequence ts => allBoundNames ts
  | .starred t => boundNames t
  | _ => []

def allBoundNames : List (Node ο) → List Name
  | [] => []
  | t :: ts => boundNames t ++ allBoundNames ts

end

/-! ## The assignment -/

/-- `arr = func((elt for target in iter), *args, **keywords)` -/
structure Call (ο : Type) where
  arr : Name
  func : Node ο
  elt : Node ο
  target : Node ο
  iter : Node ο
  args : List (Node ο)
  keywords : List (Node ο)

namespace Call

variable (c : Call ο)

def stmt : Stmt ο :=
  .assign [.name c.arr .store] (.call c.func (.generatorExp c.elt [.comprehension c.target c.iter []] :: c.args) c.keywords)

/-- The statements in the place of the assignment. -/
def rewritten (st : LocalArrayFromState) : List (Stmt ο) := (localArrayFromTransformer.stmt c.stmt st).1

/-- One item of the generator expression, in its own scope, into the array `a`. -/
def generate (it a : ν) (st : Env ν × σ) (k : Nat) : Option (Env ν × σ) := do
  let v ← P.item it k st.2
  let st ← P.assignTarget c.target v.1 (st.1, v.2)
  let e ← P.evalNode c.elt st.1 st.2
  let s ← P.setitem a (P.nat k) e.1 e.2
  some (st.1, s)

/-- The generator expression evaluated in order into a fresh array. -/
def reference (env : Env ν) (s : σ) : Option (ν × σ) := do
  let it ← P.evalNode c.iter env s
  let args ← P.evalNodes c.args env it.2
  let ks ← P.evalNodes c.keywords env args.2
  let n ← P.count it.1 ks.2
  let a ← P.localArray n args.1 (c.keywords.zip ks.1) ks.2
  let st ← Runs.run (c.generate P it.1 a.1) (env, a.2) (List.range n)
  some (a.1, st.2)

/-- The rewritten statements leave the array that the generator expression gives, with its memory,
and of the variables `vars` all others as they were. -/
def Hygienic (st : LocalArrayFromState) (vars : Set Name) (env : Env ν) (s : σ) : Prop :=
  ∀ a s', c.reference P env s = some (a, s') →
    ∃ env', P.execList (c.rewritten st) (env, s) = some (env', s') ∧ env' c.arr = some a ∧
      ∀ x ∈ vars, x ≠ c.arr → env' x = env x

/-! ## Which assignments are rewritten as they are meant -/

/-- The scope of the function where the generator expression has `env`. -/
def scope (idx : Name) (a i : ν) (env : Env ν) : Env ν := Function.update (Function.update env c.arr (some a)) idx (some i)

/-- At the item `k` the iterable is still the same and has the item under this index, and the target and the
element expression do not see the array and the index. -/
def ItemMeets (idx : Name) (it a : ν) (st : Env ν × σ) (k : Nat) : Prop :=
  P.evalNode c.iter (c.scope idx a (P.nat k) st.1) st.2 = some (it, st.2) ∧
    P.getitem it (P.nat k) st.2 = P.item it k st.2 ∧
    ∀ v, P.item it k st.2 = some v → ∀ st', P.assignTarget c.target v.1 (st.1, v.2) = some st' →
      P.assignTarget c.target v.1 (c.scope idx a (P.nat k) st.1, v.2) = some (c.scope idx a (P.nat k) st'.1, st'.2) ∧
        P.evalNode c.elt (c.scope idx a (P.nat k) st'.1) st'.2 = P.evalNode c.elt st'.1 st'.2

structure Meets (st : LocalArrayFromState) (vars : Set Name) (env : Env ν) (s : σ) : Prop where
  args : c.args = []
  builtins : (env "cuda").bind P.builtin = some .cuda ∧ (env "len").bind P.builtin = some .len ∧
    (env "range").bind P.builtin = some .range
  arr : c.arr ≠ "len" ∧ c.arr ≠ "range" ∧ c.arr ≠ st.tempName
  run : ∀ it ks n a, P.evalNode c.iter env s = some it → P.evalNodes c.keywords env it.2 = some ks → P.count it.1 ks.2 = some n →
    P.localArray n [] (c.keywords.zip ks.1) ks.2 = some a →
      P.len it.1 it.2 = some n ∧ P.len it.1 a.2 = some n ∧
      -- evaluated again with the new array
      P.evalNode c.iter (Function.update env c.arr (some a.1)) a.2 = some (it.1, a.2) ∧
      (n ≠ 0 → ∀ x ∈ vars, x ≠ c.arr → x ∉ boundNames c.target ∧ x ≠ st.tempName) ∧
      Runs.StepsOk (c.generate P it.1 a.1) (c.ItemMeets P (st.tempName) it.1 a.1) (env, a.2) (List.range n)

end Call

end

end NumbaCudaMlir.LocalArrayFrom

/-!
## Rewritten array expressions

The loop runs in the scope of the function, which is the scope of the generator
expression but for the array and the index. Item by item it keeps this relation
where neither is seen.
-/

namespace NumbaCudaMlir.LocalArrayFrom

open SyntaxTree
open AstTransforms (LocalArrayFromState localArrayFromTransformer localArrayLoop isLocalArrayFrom)

section
variable {ο ν σ : Type} {P : Python ο ν σ}

/-! ## What an assignment keeps -/

mutual

theorem assignTarget_frame {x : Name} : ∀ (t : Node ο) (v : ν) (st : Env ν × σ) {st' : Env ν × σ}, x ∉ boundNames t →
    P.assignTarget t v st = some st' → st'.1 x = st.1 x
  | .name y ctx, v, st, st', hx, h => by
    obtain rfl := Option.some.inj h
    exact Function.update_of_ne (fun e => hx (by rw [e, boundNames]; exact List.mem_singleton_self _)) _ _
  | .sequence ts, v, st, st', hx, h => by
    rw [Python.assignTarget, Option.bind_eq_bind, Option.bind_eq_some_iff] at h
    obtain ⟨vs, -, h⟩ := h
    exact assignTargets_frame ts vs.1 (st.1, vs.2) hx h
  | .starred t, v, st, st', hx, h => assignTarget_frame t v st hx h
  | .subscript obj key ctx, v, st, st', hx, h => by
    simp only [Python.assignTarget, Option.bind_eq_bind, Option.bind_eq_some_iff] at h
    obtain ⟨o, -, k, -, s, -, h⟩ := h
    obtain rfl := Option.some.inj h
    rfl
  | .attribute obj attr, v, st, st', hx, h => by
    simp only [Python.assignTarget, Option.bind_eq_bind, Option.bind_eq_some_iff] at h
    obtain ⟨o, -, s, -, h⟩ := h
    obtain rfl := Option.some.inj h
    rfl
  | .constant _, _, _, _, _, h | .call .., _, _, _, _, h | .generatorExp .., _, _, _, _, h
  | .comprehension .., _, _, _, _, h | .other .., _, _, _, _, h => by cases h

theorem assignTargets_frame {x : Name} : ∀ (ts : List (Node ο)) (vs : List ν) (st : Env ν × σ) {st' : Env ν × σ},
    x ∉ allBoundNames ts → P.assignTargets ts vs st = some st' → st'.1 x = st.1 x
  | [], [], st, st', _, h => by
    obtain rfl := Option.some.inj h
    rfl
  | t :: ts, v :: vs, st, st', hx, h => by
    rw [allBoundNames, List.mem_append, not_or] at hx
    rw [Python.assignTargets, Option.bind_eq_bind, Option.bind_eq_some_iff] at h
    obtain ⟨m, hm, h⟩ := h
    rw [assignTargets_frame ts vs m hx.2 h, assignTarget_frame t v st hx.1 hm]
  | [], _ :: _, _, _, _, h | _ :: _, [], _, _, _, h => by cases h

end

mutual

def namesOnly : Node ο → Bool
  | .name _ _ => true
  | .sequence ts => allNamesOnly ts
  | .starred t => namesOnly t
  | _ => false

def allNamesOnly : List (Node ο) → Bool
  | [] => true
  | t :: ts => namesOnly t && allNamesOnly ts

end

mutual

theorem assignTarget_update {y : Name} {w : Option ν} : ∀ (t : Node ο) (v : ν) (st : Env ν × σ) {st' : Env ν × σ},
    namesOnly t = true → y ∉ boundNames t → P.assignTarget t v st = some st' →
      P.assignTarget t v (Function.update st.1 y w, st.2) = some (Function.update st'.1 y w, st'.2)
  | .name x ctx, v, st, st', _, hy, h => by
    obtain rfl := Option.some.inj h
    have hne : y ≠ x := fun e => hy (by rw [e, boundNames]; exact List.mem_singleton_self _)
    rw [Python.assignTarget, Function.update_comm hne]
  | .sequence ts, v, st, st', ht, hy, h => by
    rw [Python.assignTarget, Option.bind_eq_bind, Option.bind_eq_some_iff] at h
    obtain ⟨vs, hvs, h⟩ := h
    rw [Python.assignTarget, hvs]
    exact assignTargets_update ts vs.1 (st.1, vs.2) ht hy h
  | .starred t, v, st, st', ht, hy, h => assignTarget_update t v st ht hy h
  | .subscript .., _, _, _, ht, _, _ | .attribute .., _, _, _, ht, _, _ | .constant _, _, _, _, ht, _, _
  | .call .., _, _, _, ht, _, _ | .generatorExp .., _, _, _, ht, _, _ | .comprehension .., _, _, _, ht, _, _
  | .other .., _, _, _, ht, _, _ => by cases ht

theorem assignTargets_update {y : Name} {w : Option ν} : ∀ (ts : List (Node ο)) (vs : List ν) (st : Env ν × σ) {st' : Env ν × σ},
    allNamesOnly ts = true → y ∉ allBoundNames ts → P.assignTargets ts vs st = some st' →
      P.assignTargets ts vs (Function.update st.1 y w, st.2) = some (Function.update st'.1 y w, st'.2)
  | [], [], st, st', _, _, h => by
    obtain rfl := Option.some.inj h
    rfl
  | t :: ts, v :: vs, st, st', ht, hy, h => by
    rw [allBoundNames, List.mem_append, not_or] at hy
    rw [allNamesOnly, Bool.and_eq_true] at ht
    rw [Python.assignTargets, Option.bind_eq_bind, Option.bind_eq_some_iff] at h
    obtain ⟨m, hm, h⟩ := h
    rw [Python.assignTargets, assignTarget_update t v st ht.1 hy.1 hm]
    exact assignTargets_update ts vs m ht.2 hy.2 h
  | [], _ :: _, _, _, _, _, h | _ :: _, [], _, _, _, _, h => by cases h

end

/-! ## One item -/

variable {c : Call ο} {idx : Name} {it a : ν}

theorem generate_inv {st st' : Env ν × σ} {k : Nat} (h : c.generate P it a st k = some st') :
    ∃ v m e, P.item it k st.2 = some v ∧ P.assignTarget c.target v.1 (st.1, v.2) = some m ∧
      P.evalNode c.elt m.1 m.2 = some e ∧ P.setitem a (P.nat k) e.1 e.2 = some st'.2 ∧ st'.1 = m.1 := by
  simp only [Call.generate, Option.bind_eq_bind, Option.bind_eq_some_iff] at h
  obtain ⟨v, hv, m, hm, e, he, s, hs, h⟩ := h
  obtain rfl := Option.some.inj h
  exact ⟨v, m, e, hv, hm, he, hs, rfl⟩

theorem generate_frame {x : Name} (hx : x ∉ boundNames c.target) {st st' : Env ν × σ} {ks : List Nat}
    (h : Runs.run (c.generate P it a) st ks = some st') : st'.1 x = st.1 x := by
  have hstep : ∀ (m : Env ν × σ) (k : Nat) (m' : Env ν × σ), m.1 x = st.1 x → c.generate P it a m k = some m' → m'.1 x = st.1 x := by
    intro m k m' hm hgen
    obtain ⟨v, m₁, e, -, hassign, -, -, henv⟩ := generate_inv hgen
    rw [henv, assignTarget_frame c.target v.1 (m.1, v.2) hx hassign]
    exact hm
  exact Runs.run_inv_all (c.generate P it a) hstep rfl h

theorem scope_index (env : Env ν) (i : ν) : c.scope idx a i env idx = some i := Function.update_self ..

theorem scope_array (h : c.arr ≠ idx) (env : Env ν) (i : ν) : c.scope idx a i env c.arr = some a := by
  rw [Call.scope, Function.update_of_ne h, Function.update_self]

/-- An iterable that is a variable, a target of names, and an element expression that sees neither the array nor the index. -/
theorem itemMeets_of_name {x : Name} {ctx : Ctx} (hiter : c.iter = .name x ctx) (hx : x ≠ c.arr ∧ x ≠ idx) (ht : namesOnly c.target = true)
    (hb : c.arr ∉ boundNames c.target ∧ idx ∉ boundNames c.target)
    (helt : ∀ (env : Env ν) (s : σ) (i : ν), P.evalNode c.elt (c.scope idx a i env) s = P.evalNode c.elt env s)
    {st : Env ν × σ} (hit : st.1 x = some it) {k : Nat} (hitem : P.getitem it (P.nat k) st.2 = P.item it k st.2) :
    c.ItemMeets P idx it a st k := by
  refine ⟨?_, hitem, fun v _ st' hassign => ⟨?_, helt st'.1 st'.2 _⟩⟩
  · rw [hiter, Python.evalNode, Call.scope, Function.update_of_ne hx.2, Function.update_of_ne hx.1, hit]
    rfl
  · have harray := assignTarget_update (w := some a) c.target v.1 (st.1, v.2) ht hb.1 hassign
    exact assignTarget_update c.target v.1 _ ht hb.2 harray

def body (c : Call ο) (idx : Name) : List (Stmt ο) :=
  [.assign [c.target] (.subscript c.iter (.name idx .load) .load),
    .assign [.subscript (.name c.arr .load) (.name idx .load) .store] c.elt]

theorem body_step (harr : c.arr ≠ idx) {st st' : Env ν × σ} {k : Nat} (hm : c.ItemMeets P idx it a st k)
    (h : c.generate P it a st k = some st') :
    P.execList (body c idx) (c.scope idx a (P.nat k) st.1, st.2) = some (c.scope idx a (P.nat k) st'.1, st'.2) := by
  obtain ⟨v, m, e, hv, hassign, he, hset, henv⟩ := generate_inv h
  obtain ⟨hiter, hitem, hrest⟩ := hm
  obtain ⟨htarget, helt⟩ := hrest v hv m hassign
  have hindex : ∀ (env : Env ν) (s : σ), P.evalNode (.name idx .load) (c.scope idx a (P.nat k) env) s = some (P.nat k, s) := by
    intro env s
    rw [Python.evalNode, scope_index]
    rfl
  have harray : ∀ (env : Env ν) (s : σ), P.evalNode (.name c.arr .load) (c.scope idx a (P.nat k) env) s = some (a, s) := by
    intro env s
    rw [Python.evalNode, scope_array harr]
    rfl
  have hitemAt : P.evalNode (.subscript c.iter (.name idx .load) .load) (c.scope idx a (P.nat k) st.1) st.2 = some v := by
    rw [Python.evalNode, hiter]
    simp only [Option.bind_eq_bind, Option.bind_some, hindex, hitem, hv]
  have hfirst : P.exec (.assign [c.target] (.subscript c.iter (.name idx .load) .load)) (c.scope idx a (P.nat k) st.1, st.2) =
      some (c.scope idx a (P.nat k) m.1, m.2) := by
    simp only [Python.exec, hitemAt, Option.bind_eq_bind, Option.bind_some, htarget]
  have hsecond : P.exec (.assign [.subscript (.name c.arr .load) (.name idx .load) .store] c.elt)
      (c.scope idx a (P.nat k) m.1, m.2) = some (c.scope idx a (P.nat k) m.1, st'.2) := by
    simp only [Python.exec, helt, he, Python.assignTarget, harray, hindex, hset, Option.bind_eq_bind, Option.bind_some]
  simp only [body, Python.execList, hfirst, hsecond, henv, Option.bind_eq_bind, Option.bind_some]

/-! ## The loop -/

/-- The scope of the function is that of the generator expression but for the array and the index. -/
def Follows (c : Call ο) (idx : Name) (a : ν) (fn gen : Env ν) : Prop :=
  ∃ i, fn = Function.update (Function.update gen c.arr (some a)) idx i

theorem Follows.assignIndex {fn gen : Env ν} (h : Follows c idx a fn gen) (i : ν) :
    Function.update fn idx (some i) = c.scope idx a i gen := by
  obtain ⟨j, rfl⟩ := h
  exact Function.update_idem ..

theorem loop_follows (harr : c.arr ≠ idx) {n : Nat} : ∀ {ks : List Nat} {st st' : Env ν × σ} {fn : Env ν}, (∀ k ∈ ks, k < n) →
    Runs.StepsOk (c.generate P it a) (c.ItemMeets P idx it a) st ks → Runs.run (c.generate P it a) st ks = some st' →
    Follows c idx a fn st.1 →
    ∃ fn', Runs.run (fun st k => do
        let v ← P.item (P.range n) k st.2
        let st ← P.assignTarget (.name idx .store) v.1 (st.1, v.2)
        P.execList (body c idx) st) (fn, st.2) ks = some (fn', st'.2) ∧ Follows c idx a fn' st'.1
  | [], st, st', fn, _, _, h, hf => by
    obtain rfl := Option.some.inj h
    exact ⟨fn, rfl, hf⟩
  | k :: ks, st, st', fn, hlt, hok, h, hf => by
    obtain ⟨m, hm, h⟩ := Runs.run_cons_some _ h
    obtain ⟨fn', hrun, hf'⟩ := loop_follows harr (fun j hj => hlt j (List.mem_cons_of_mem _ hj)) (hok.2 m hm) h
      ⟨some (P.nat k), rfl⟩
    refine ⟨fn', ?_, hf'⟩
    have hitem := P.item_range n k st.2 (hlt k List.mem_cons_self)
    rw [Runs.run]
    simp only [hitem, Option.bind_eq_bind, Option.bind_some, Python.assignTarget, hf.assignIndex,
      body_step harr hok.1 hm]
    exact hrun

/-! ## The assignment -/

theorem rewritten_eq (hfunc : isLocalArrayFrom c.func = true) (st : LocalArrayFromState) :
    c.rewritten st = localArrayLoop c.arr st.tempName c.elt c.target c.iter c.keywords := by
  simp only [Call.rewritten, Call.stmt, localArrayFromTransformer, hfunc, if_true]

theorem evalNode_call {env : Env ν} {f : Name} {e : Node ο} {s : σ} {v : ν × σ} (he : P.evalNode e env s = some v) :
    ((env f).bind P.builtin = some .len → ∀ n, P.len v.1 v.2 = some n →
      P.evalNode (.call (.name f .load) [e] []) env s = some (P.nat n, v.2)) ∧
    ((env f).bind P.builtin = some .range → ∀ n, P.toNat v.1 = some n →
      P.evalNode (.call (.name f .load) [e] []) env s = some (P.range n, v.2)) := by
  constructor <;> intro hf n hn <;> rw [Python.evalNode, hf] <;>
    simp only [he, hn, Option.bind_eq_bind, Option.bind_some]

/-- Where the items meet the condition the array has the elements that the generator expression gives, and no
other variable changes. -/
theorem rewritten_hygienic {st : LocalArrayFromState} {vars : Set Name} {env : Env ν} {s : σ}
    (hfunc : isLocalArrayFrom c.func = true) (hm : c.Meets P st vars env s) : c.Hygienic P st vars env s := by
  intro a s' h
  simp only [Call.reference, Option.bind_eq_bind, Option.bind_eq_some_iff] at h
  obtain ⟨it, hit, args, hargs, ks, hks, n, hn, b, hb, gen, hgen, h⟩ := h
  obtain ⟨rfl, rfl⟩ := Prod.mk.inj (Option.some.inj h)
  rw [hm.args] at hargs
  obtain rfl := Option.some.inj hargs
  obtain ⟨hlen, hlen', hagain, hvars, hsteps⟩ := hm.run it ks n b hit hks hn hb
  obtain ⟨hcuda, hlenName, hrangeName⟩ := hm.builtins
  obtain ⟨harrLen, harrRange, hidx⟩ := hm.arr
  let fn := Function.update env c.arr (some b.1)
  have hfn : ∀ x, x ≠ c.arr → fn x = env x := fun x hx => Function.update_of_ne hx _ _
  let length := Node.call (.name "len" .load) [c.iter] []
  have hcall : P.evalNode (.call (.attribute (.name "cuda" .load) "local_array") [length] c.keywords) env s = some b := by
    have hlength : P.evalNode length env s = some (P.nat n, it.2) := (evalNode_call hit).1 hlenName n hlen
    rw [Python.evalNode, if_pos ⟨hcuda, rfl⟩]
    simp only [hlength, P.toNat_nat, hks, Option.bind_eq_bind, Option.bind_some]
    exact hb
  have hrange : P.evalNode (.call (.name "range" .load) [length] []) fn b.2 = some (P.range n, b.2) := by
    have hlength : P.evalNode length fn b.2 = some (P.nat n, b.2) :=
      (evalNode_call hagain).1 ((congrArg (Option.bind · P.builtin) (hfn _ harrLen.symm)).trans hlenName) n hlen'
    exact (evalNode_call hlength).2 ((congrArg (Option.bind · P.builtin) (hfn _ harrRange.symm)).trans hrangeName) n (P.toNat_nat n)
  have hstart : Follows c st.tempName b.1 fn env := ⟨fn st.tempName, (Function.update_eq_self ..).symm⟩
  obtain ⟨fn', hrun, hfollows⟩ := loop_follows hidx (fun k hk => List.mem_range.mp hk) hsteps hgen hstart
  refine ⟨fn', ?_, ?_, ?_⟩
  · have hassign : P.exec (.assign [.name c.arr .store]
        (.call (.attribute (.name "cuda" .load) "local_array") [length] c.keywords)) (env, s) = some (fn, b.2) := by
      rw [Python.exec, hcall]
      rfl
    rw [rewritten_eq hfunc, localArrayLoop, Python.execList]
    simp only [length] at hassign hrange
    rw [hassign]
    simp only [Option.bind_eq_bind, Option.bind_some, Python.execList, Python.exec, hrange, P.count_range]
    exact congrArg (Option.bind · _) hrun
  · obtain ⟨i, rfl⟩ := hfollows
    rw [Function.update_of_ne hidx, Function.update_self]
  · intro x hx hne
    obtain rfl | hpos := Nat.eq_zero_or_pos n
    · have hsame : fn = fn' := (Prod.mk.inj (Option.some.inj hrun)).1
      rw [← hsame]
      exact hfn x hne
    · obtain ⟨hbound, hxi⟩ := hvars (Nat.pos_iff_ne_zero.mp hpos) x hx hne
      obtain ⟨i, rfl⟩ := hfollows
      rw [Function.update_of_ne hxi, Function.update_of_ne hne]
      exact generate_frame hbound hgen

end

/-! ## Tuples of numbers -/

inductive Obj where
  | nat (n : Nat)
  | tuple (ns : List Nat)
  | array
  | range (n : Nat)
  | builtin (b : Builtin)
  | dtype
  deriving DecidableEq

/-- The local array, with what its dtype was asked to be. -/
structure Cells where
  request : List Obj
  cells : List Obj
  deriving DecidableEq

def numbers : Python Unit Obj Cells where
  eval _ _ _ := none
  builtin
    | .builtin b => some b
    | _ => none
  nat := .nat
  toNat
    | .nat n => some n
    | _ => none
  range := .range
  len v _ :=
    match v with
    | .tuple ns => some ns.length
    | _ => none
  count v _ :=
    match v with
    | .tuple ns => some ns.length
    | .range n => some n
    | _ => none
  item v k s :=
    match v with
    | .tuple ns => ns[k]?.map fun n => (.nat n, s)
    | .range n => if k < n then some (.nat k, s) else none
    | _ => none
  getitem v k s :=
    match v, k with
    | .tuple ns, .nat k => ns[k]?.map fun n => (.nat n, s)
    | .array, .nat k => s.cells[k]?.map fun v => (v, s)
    | _, _ => none
  setitem v k w s :=
    match v, k with
    | .array, .nat k => some { s with cells := s.cells.set k w }
    | _, _ => none
  setattr _ _ _ _ := none
  unpack _ _ _ := none
  localArray n args keywords _ := some (.array, ⟨args ++ keywords.map (·.2), List.replicate n (.nat 0)⟩)
  toNat_nat _ := rfl
  count_range _ _ := rfl
  item_range _ _ _ h := if_pos h

def locals (bindings : List (Name × Obj)) : Env Obj := fun x =>
  List.lookup x (bindings ++ [("len", .builtin .len), ("range", .builtin .range), ("cuda", .builtin .cuda), ("float32", .dtype)])

/-- `arr = local_array_from((elt for v in xs), *args)` -/
def arrayFrom (elt : Node Unit) (args : List (Node Unit)) : Call Unit where
  arr := "arr"
  func := .name "local_array_from" .load
  elt := elt
  target := .name "v" .store
  iter := .name "xs" .load
  args := args
  keywords := []

/-- The variable of the generator expression overwrites a variable `v`, an element expression that reads the old
`arr` reads the new one, and a dtype that is no keyword is dropped. -/
theorem array_from_leaks :
    ¬(arrayFrom (.name "v" .load) []).Hygienic numbers ⟨false, 0⟩ {"v"} (locals [("xs", .tuple [5]), ("v", .nat 7)]) ⟨[], []⟩ ∧
    ¬(arrayFrom (.subscript (.name "arr" .load) (.name "v" .load) .load) []).Hygienic numbers ⟨false, 0⟩ ∅
      (locals [("xs", .tuple [1, 0]), ("arr", .tuple [8, 9])]) ⟨[], []⟩ ∧
    ¬(arrayFrom (.name "v" .load) [.name "float32" .load]).Hygienic numbers ⟨false, 0⟩ ∅
      (locals [("xs", .tuple [5])]) ⟨[], []⟩ := by
  refine ⟨fun h => ?_, fun h => ?_, fun h => ?_⟩
  · obtain ⟨env', hrun, -, hvars⟩ := h .array ⟨[], [.nat 5]⟩ rfl
    have hv : (numbers.execList ((arrayFrom (.name "v" .load) []).rewritten ⟨false, 0⟩)
        (locals [("xs", .tuple [5]), ("v", .nat 7)], ⟨[], []⟩)).map (fun st => st.1 "v") = some (some (.nat 5)) := rfl
    rw [hrun] at hv
    have hkept := (Option.some.inj hv).symm.trans (hvars "v" rfl (by decide))
    exact absurd hkept (by decide)
  · obtain ⟨env', hrun, -⟩ := h .array ⟨[], [.nat 9, .nat 8]⟩ rfl
    have hcells : (numbers.execList ((arrayFrom (.subscript (.name "arr" .load) (.name "v" .load) .load) []).rewritten ⟨false, 0⟩)
        (locals [("xs", .tuple [1, 0]), ("arr", .tuple [8, 9])], ⟨[], []⟩)).map (fun st => st.2.cells) = some [.nat 0, .nat 0] := rfl
    rw [hrun] at hcells
    have hsame : [Obj.nat 9, .nat 8] = [.nat 0, .nat 0] := Option.some.inj hcells
    exact absurd hsame (by decide)
  · obtain ⟨env', hrun, -⟩ := h .array ⟨[.dtype], [.nat 5]⟩ rfl
    have hrequest : (numbers.execList ((arrayFrom (.name "v" .load) [.name "float32" .load]).rewritten ⟨false, 0⟩)
        (locals [("xs", .tuple [5])], ⟨[], []⟩)).map (fun st => st.2.request) = some [] := rfl
    rw [hrun] at hrequest
    have hsame : [Obj.dtype] = [] := Option.some.inj hrequest
    exact absurd hsame (by decide)

theorem copy_meets : (arrayFrom (.name "v" .load) []).Meets numbers ⟨false, 0⟩ {"xs"} (locals [("xs", .tuple [5, 6])]) ⟨[], []⟩ where
  args := rfl
  builtins := ⟨rfl, rfl, rfl⟩
  arr := by decide
  run it ks n a hit hks hn ha := by
    obtain rfl := Option.some.inj hit
    obtain rfl := Option.some.inj hks
    obtain rfl := Option.some.inj hn
    obtain rfl := Option.some.inj ha
    refine ⟨rfl, rfl, rfl, fun _ x hx _ => ?_, ?_⟩
    · rw [Set.mem_singleton_iff.mp hx]
      decide
    · have hinv : ∀ (st : Env Obj × Cells) (k : Nat) (st' : Env Obj × Cells), st.1 "xs" = some (.tuple [5, 6]) → True →
          (arrayFrom (.name "v" .load) []).generate numbers (.tuple [5, 6]) .array st k = some st' →
          st'.1 "xs" = some (.tuple [5, 6]) := by
        intro st k st' hxs _ hgen
        have hrun : Runs.run ((arrayFrom (.name "v" .load) []).generate numbers (.tuple [5, 6]) .array) st [k] = some st' := by
          rw [Runs.run, hgen]
          rfl
        rw [generate_frame (by decide) hrun]
        exact hxs
      refine Runs.stepsOk_of_inv _ hinv (fun st k hxs _ => ?_) (rfl : locals [("xs", .tuple [5, 6])] "xs" = some (.tuple [5, 6]))
        (Runs.stepsOk_true _ _ _)
      refine itemMeets_of_name rfl (by decide) rfl (by decide) (fun env s i => ?_) hxs rfl
      rw [arrayFrom, Python.evalNode, Python.evalNode, Call.scope, Function.update_of_ne (by decide), Function.update_of_ne (by decide)]

theorem copy_hygienic : (arrayFrom (.name "v" .load) []).Hygienic numbers ⟨false, 0⟩ {"xs"} (locals [("xs", .tuple [5, 6])]) ⟨[], []⟩ :=
  rewritten_hygienic rfl copy_meets

end NumbaCudaMlir.LocalArrayFrom

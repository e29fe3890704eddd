import NumbaCudaMlir.ConstevalBlocks
import NumbaCudaMlir.Dict
import NumbaCudaMlir.SyntaxTree

/-!
# The pipeline of tree transformations

`create_default_pipeline`: compile-time evaluation, constant `if`s, `local_array_from`,
`None` statements, and `pass` in the bodies that became empty. Each pass visits the
statements of a tree and may put none, one or several in the place of one.
-/

namespace NumbaCudaMlir.AstTransforms

open SyntaxTree
open ConstevalBlocks (Scope)

section
variable {ο : Type}

/-! ## Replacing names -/

abbrev Subst (ο : Type) := Name → Option (Node ο)

mutual

/-- `VariableReplacer`: every `Name` node, whatever it is for. -/
def replace (θ : Subst ο) : Node ο → Node ο
  | .constant v => .constant v
  | .name x ctx => (θ x).getD (.name x ctx)
  | .attribute value attr => .attribute (replace θ value) attr
  | .subscript value slice ctx => .subscript (replace θ value) (replace θ slice) ctx
  | .call func args keywords => .call (replace θ func) (replaceAll θ args) (replaceAll θ keywords)
  | .generatorExp elt generators => .generatorExp (replace θ elt) (replaceAll θ generators)
  | .comprehension target iter ifs => .comprehension (replace θ target) (replace θ iter) (replaceAll θ ifs)
  | .sequence elts => .sequence (replaceAll θ elts)
  | .starred value => .starred (replace θ value)
  | .other label children => .other label (replaceAll θ children)

def replaceAll (θ : Subst ο) : List (Node ο) → List (Node ο)
  | [] => []
  | e :: es => replace θ e :: replaceAll θ es

end

def replaceItem (θ : Subst ο) (i : WithItem ο) : WithItem ο := ⟨replace θ i.contextExpr, i.optionalVars.map (replace θ)⟩

mutual

def replaceStmt (θ : Subst ο) : Stmt ο → Stmt ο
  | .definition kind name head body tail =>
    .definition kind name (replaceAll θ head) (replaceStmts θ body) (replaceAll θ tail)
  | .assign targets value => .assign (replaceAll θ targets) (replace θ value)
  | .annAssign target annotation value => .annAssign (replace θ target) (replace θ annotation) (value.map (replace θ))
  | .expr value => .expr (replace θ value)
  | .pass => .pass
  | .break => .break
  | .continue => .continue
  | .simple label fields => .simple label (replaceAll θ fields)
  | .forLoop isAsync target iter body orelse =>
    .forLoop isAsync (replace θ target) (replace θ iter) (replaceStmts θ body) (replaceStmts θ orelse)
  | .whileLoop test body orelse => .whileLoop (replace θ test) (replaceStmts θ body) (replaceStmts θ orelse)
  | .ifStmt test body orelse => .ifStmt (replace θ test) (replaceStmts θ body) (replaceStmts θ orelse)
  | .withStmt isAsync items body => .withStmt isAsync (items.map (replaceItem θ)) (replaceStmts θ body)
  | .matchStmt subject cases => .matchStmt (replace θ subject) (replaceClauses θ cases)
  | .tryStmt star body handlers orelse finalbody =>
    .tryStmt star (replaceStmts θ body) (replaceClauses θ handlers) (replaceStmts θ orelse) (replaceStmts θ finalbody)
  | .nested stmts => .nested stmts

def replaceStmts (θ : Subst ο) : List (Stmt ο) → List (Stmt ο)
  | [] => []
  | s :: ss => replaceStmt θ s :: replaceStmts θ ss

def replaceClauses (θ : Subst ο) : List (Clause ο) → List (Clause ο)
  | [] => []
  | .mk head body :: cs => .mk (replaceAll θ head) (replaceStmts θ body) :: replaceClauses θ cs

end

/-- First `θ`, then `θ'`. -/
def Subst.andThen (θ θ' : Subst ο) : Subst ο := fun x =>
  match θ x with
  | some e => some (replace θ' e)
  | none => θ' x

def Subst.ofBindings (bs : List (Name × Node ο)) : Subst ο := fun x => bs.lookup x

/-! ## Names and loop control -/

mutual

def names : Node ο → List (Name × Ctx)
  | .constant _ => []
  | .name x ctx => [(x, ctx)]
  | .attribute value _ | .starred value => names value
  | .subscript value slice _ => names value ++ names slice
  | .call func args keywords => names func ++ (namesAll args ++ namesAll keywords)
  | .generatorExp elt generators => names elt ++ namesAll generators
  | .comprehension target iter ifs => names target ++ (names iter ++ namesAll ifs)
  | .sequence elts | .other _ elts => namesAll elts

def namesAll : List (Node ο) → List (Name × Ctx)
  | [] => []
  | e :: es => names e ++ namesAll es

end

def itemNames (i : WithItem ο) : List (Name × Ctx) := names i.contextExpr ++ (i.optionalVars.map names).getD []

mutual

def stmtNames : Stmt ο → List (Name × Ctx)
  | .definition _ _ head body tail => namesAll head ++ (stmtsNames body ++ namesAll tail)
  | .assign targets value => namesAll targets ++ names value
  | .annAssign target annotation value => names target ++ (names annotation ++ (value.map names).getD [])
  | .expr value => names value
  | .pass | .break | .continue | .nested _ => []
  | .simple _ fields => namesAll fields
  | .forLoop _ target iter body orelse => names target ++ (names iter ++ (stmtsNames body ++ stmtsNames orelse))
  | .whileLoop test body orelse | .ifStmt test body orelse => names test ++ (stmtsNames body ++ stmtsNames orelse)
  | .withStmt _ items body => items.flatMap itemNames ++ stmtsNames body
  | .matchStmt subject cases => names subject ++ clausesNames cases
  | .tryStmt _ body handlers orelse finalbody =>
    stmtsNames body ++ (clausesNames handlers ++ (stmtsNames orelse ++ stmtsNames finalbody))

def stmtsNames : List (Stmt ο) → List (Name × Ctx)
  | [] => []
  | s :: ss => stmtNames s ++ stmtsNames ss

def clausesNames : List (Clause ο) → List (Name × Ctx)
  | [] => []
  | .mk head body :: cs => namesAll head ++ (stmtsNames body ++ clausesNames cs)

end

mutual

/-- `LoopControlFinder`: of a nested loop only the `else` clause is searched. -/
def loopControl : Stmt ο → Bool
  | .break | .continue => true
  | .definition _ _ _ body _ | .withStmt _ _ body => listLoopControl body
  | .forLoop _ _ _ _ orelse | .whileLoop _ _ orelse => listLoopControl orelse
  | .ifStmt _ body orelse => listLoopControl body || listLoopControl orelse
  | .matchStmt _ cases => clausesLoopControl cases
  | .tryStmt _ body handlers orelse finalbody =>
    listLoopControl body || clausesLoopControl handlers || listLoopControl orelse || listLoopControl finalbody
  | .assign .. | .annAssign .. | .expr _ | .pass | .simple .. | .nested _ => false

def listLoopControl : List (Stmt ο) → Bool
  | [] => false
  | s :: ss => loopControl s || listLoopControl ss

def clausesLoopControl : List (Clause ο) → Bool
  | [] => false
  | .mk _ body :: cs => listLoopControl body || clausesLoopControl cs

end

/-- `_check_unroll_loop_control` and `_check_unroll_loop_variables`. -/
def unrollable (target : Node ο) (body : List (Stmt ο)) : Bool :=
  !listLoopControl body && !(stmtsNames body).any fun n => n.2 ≠ .load && ((names target).map (·.1)).contains n.1

/-! ## Values -/

mutual

def canBeConstant : Value ο → Bool
  | .none | .plain _ => true
  | .tuple vs => allConstant vs
  | .node _ | .object _ => false

def allConstant : List (Value ο) → Bool
  | [] => true
  | v :: vs => canBeConstant v && allConstant vs

end

def truthy (truth : ο → Bool) : Value ο → Bool
  | .none => false
  | .plain o | .object o => truth o
  | .tuple vs => !vs.isEmpty
  | .node _ => true

def isConstevalCall : Node ο → Bool
  | .call (.name x _) _ _ | .call (.attribute _ x) _ _ => x = "consteval" || x = "literally"
  | _ => false

def isConstevalWith : List (WithItem ο) → Bool
  | [i] => isConstevalCall i.contextExpr
  | _ => false

/-! ## `ConstevalTransformer` -/

/-- The interpreter that evaluates at compile time, with what it knows of the function. -/
structure Interpreter (ο σ : Type) where
  -- globals and closure, parameter types, target options
  context : ConstevalBlocks.Context (Value ο)
  eval : Scope (Value ο) → σ → Node ο → Option (Value ο × σ)
  exec : (globals locals : Scope (Value ο)) → σ → Stmt ο → Option ((Scope (Value ο) × Scope (Value ο)) × σ)
  list : Value ο → σ → Option (List (Value ο) × σ)
  truth : ο → Bool
  int : Nat → ο
  -- the length of a tuple type
  tupleLength : Value ο → Option Nat

structure State (ο σ : Type) where
  localConsts : Scope (Value ο)
  storedValues : Scope (Value ο)
  valueCounter : Nat
  modified : Bool
  heap : σ

def State.initial {σ : Type} (heap : σ) : State ο σ := ⟨.empty, .empty, 0, false, heap⟩

/-- `none` where an exception is raised. -/
abbrev M (ο σ : Type) := StateT (State ο σ) Option

variable {σ : Type}

def setModified : M ο σ Unit := modify fun st => { st with modified := true }

def getLocalConsts : M ο σ (Scope (Value ο)) := do return (← get).localConsts

def setLocalConsts (T : Scope (Value ο)) : M ο σ Unit := modify fun st => { st with localConsts := T }

def updateLocalConsts (T : Scope (Value ο)) : M ο σ Unit := modify fun st => { st with localConsts := st.localConsts.update T }

def storeValue (v : Value ο) : M ο σ Name := do
  let st ← get
  let name := "__consteval_" ++ toString st.valueCounter ++ "__"
  set { st with storedValues := Function.update st.storedValues name (some v), valueCounter := st.valueCounter + 1 }
  return name

def valueExpr : Value ο → M ο σ (Node ο)
  | .node e => pure e
  | v => if canBeConstant v then pure (.constant v) else do return .name (← storeValue v) .load

def constevalValue (stored : Scope (Value ο)) : Node ο → Value ο
  | .constant v => v
  | .name x _ => (stored x).getD .none
  | _ => .none

/-- A name is known after `name = consteval(...)`, unless the value is `None`. -/
def track (x : Name) (e : Node ο) : M ο σ Unit := modify fun st =>
  match constevalValue st.storedValues e with
  | .none => st
  | v => { st with localConsts := Function.update st.localConsts x (some v) }

/-- The loop over the items of an unrolled loop, with the bindings of the last one. -/
def unroll {α : Type} (copy : Value ο → M ο σ (Dict Name (Value ο) × List α)) :
    Dict Name (Value ο) → List (Value ο) → M ο σ (Dict Name (Value ο) × List α)
  | last, [] => pure (last, [])
  | _, v :: vs => do
    let r ← copy v
    let rs ← unroll copy r.1 vs
    return (rs.1, r.2 ++ rs.2)

/-- The loop variables keep their final values after the loop. -/
def finalAssigns (bindings : Dict Name (Value ο)) : M ο σ (List (Stmt ο)) := do
  updateLocalConsts bindings.get
  bindings.entries.mapM fun b => do return .assign [.name b.1 .store] (← valueExpr b.2)

namespace Interpreter

variable (P : Interpreter ο σ)

def visible (st : State ο σ) : Scope (Value ο) := { P.context with storedValues := st.storedValues }.visible st.localConsts

def evalExpr (e : Node ο) : M ο σ (Value ο) := fun st =>
  (P.eval (P.visible st) st.heap e).map fun r => (r.1, { st with heap := r.2 })

def listOf (v : Value ο) : M ο σ (List (Value ο)) := fun st =>
  (P.list v st.heap).map fun r => (r.1, { st with heap := r.2 })

/-- `exec`, after which the globals of the block get its locals. -/
def execPlain (s : Stmt ο) (globals locals : Scope (Value ο)) : M ο σ (Scope (Value ο) × Scope (Value ο)) := fun st =>
  (P.exec globals locals st.heap s).map fun r => ((r.1.1.update r.1.2, r.1.2), { st with heap := r.2 })

def transformConsteval : Node ο → M ο σ (Node ο)
  | .call _ [arg] [] => do
    let v ← P.evalExpr arg
    setModified
    valueExpr v
  | _ => failure

mutual

def visitNode : Node ο → M ο σ (Node ο)
  | .constant v => pure (.constant v)
  | .name x ctx => pure (.name x ctx)
  | .attribute value attr => do return .attribute (← visitNode value) attr
  | .subscript value slice ctx => do return .subscript (← visitNode value) (← visitNode slice) ctx
  | .call func args keywords => do
    let node := Node.call (← visitNode func) (← visitNodes args) (← visitNodes keywords)
    if isConstevalCall node then P.transformConsteval node else pure node
  | .generatorExp elt generators => do return .generatorExp (← visitNode elt) (← visitNodes generators)
  | .comprehension target iter ifs => do return .comprehension (← visitNode target) (← visitNode iter) (← visitNodes ifs)
  | .sequence elts => do return .sequence (← visitNodes elts)
  | .starred value => do return .starred (← visitNode value)
  | .other label children => do return .other label (← visitNodes children)

def visitNodes : List (Node ο) → M ο σ (List (Node ο))
  | [] => pure []
  | e :: es => do return (← visitNode e) :: (← visitNodes es)

end

def visitOption : Option (Node ο) → M ο σ (Option (Node ο))
  | none => pure none
  | some e => do return some (← P.visitNode e)

def visitItems : List (WithItem ο) → M ο σ (List (WithItem ο))
  | [] => pure []
  | i :: is => do return ⟨← P.visitNode i.contextExpr, ← P.visitOption i.optionalVars⟩ :: (← visitItems is)

/-- An assignment; `tracked` in a list of statements that is processed in order. -/
def visitAssign (tracked : Bool) (targets : List (Node ο)) (value : Node ο) : M ο σ (Stmt ο) :=
  match tracked && isConstevalCall value, targets with
  | true, [.name x ctx] => do
    let e ← P.transformConsteval value
    track x e
    return .assign [.name x ctx] e
  | _, targets => do return .assign (← P.visitNodes targets) (← P.visitNode value)

def visitAnnAssign (tracked : Bool) (target annotation : Node ο) (value : Option (Node ο)) : M ο σ (Stmt ο) :=
  match tracked && value.any isConstevalCall, target, value with
  | true, .name x ctx, some v => do
    let e ← P.transformConsteval v
    track x e
    return .annAssign (.name x ctx) annotation (some e)
  | _, target, value => do return .annAssign (← P.visitNode target) (← P.visitNode annotation) (← P.visitOption value)

mutual

def bindLoopTarget : Node ο → Value ο → M ο σ (Dict Name (Value ο))
  | .name x _, v => pure (Dict.empty.set x v)
  | .sequence ts, v => do
    let vs ← P.listOf v
    if vs.length = ts.length then bindLoopTargets ts vs Dict.empty else failure
  | _, _ => failure

def bindLoopTargets : List (Node ο) → List (Value ο) → Dict Name (Value ο) → M ο σ (Dict Name (Value ο))
  | t :: ts, v :: vs, bindings => do
    let b ← bindLoopTarget t v
    bindLoopTargets ts vs (bindings.update b)
  | _, _, bindings => pure bindings

end

/-- `_parameter_element_exprs`, else the items of the evaluated iterator. -/
def loopItems (arg : Node ο) : M ο σ (List (Value ο)) :=
  let evaluated : M ο σ (List (Value ο)) := do P.listOf (← P.evalExpr arg)
  match arg with
  | .name p _ =>
    match P.context.paramTypeMap p with
    | some type =>
      match P.tupleLength type with
      | some n => pure ((List.range n).map fun k =>
          .node (.subscript (.name p .load) (.constant (.plain (P.int k))) .load))
      | none => failure
    | none => evaluated
  | _ => evaluated

def unrolledItems : Node ο → M ο σ (List (Value ο))
  | .call _ (arg :: _) _ => P.loopItems arg
  | _ => failure

/-- Binds the variables of a loop for one copy of its body. -/
def bindCopy (target : Node ο) (v : Value ο) : M ο σ (Dict Name (Value ο) × List (Name × Node ο)) := do
  let bindings ← P.bindLoopTarget target v
  let exprs ← bindings.entries.mapM fun b => do return (b.1, ← valueExpr b.2)
  return (bindings, exprs)

mutual

/-- A statement of a `with consteval():` block, to the globals and locals after it. -/
def executeStmt (θ : Subst ο) : Stmt ο → (globals locals : Scope (Value ο)) → M ο σ (Scope (Value ο) × Scope (Value ο))
  | .withStmt false items body, globals, locals =>
    if isConstevalWith (items.map (replaceItem θ)) then do
      if items.any (·.optionalVars.isSome) then failure
      let saved ← getLocalConsts
      setLocalConsts (locals.update globals)
      setModified
      let inner ← executeBlock θ body (P.visible (← get)) .empty
      updateLocalConsts inner
      let new := (← getLocalConsts).without globals
      setLocalConsts saved
      return (globals.update new, locals.update new)
    else P.execPlain (replaceStmt θ (.withStmt false items body)) globals locals
  | s, globals, locals => P.execPlain (replaceStmt θ s) globals locals

def executeBlock (θ : Subst ο) : List (Stmt ο) → (globals locals : Scope (Value ο)) → M ο σ (Scope (Value ο))
  | [], _, locals => pure locals
  | s :: ss, globals, locals => do
    let r ← executeStmt θ s globals locals
    executeBlock θ ss r.1 r.2

end

def transformConstevalBlock (θ : Subst ο) (items : List (WithItem ο)) (body : List (Stmt ο)) : M ο σ Unit := do
  if items.any (·.optionalVars.isSome) then failure
  setModified
  let locals ← P.executeBlock θ body (P.visible (← get)) .empty
  updateLocalConsts locals

mutual

/-- `_transform_statement` where `tracked`, else `visit`; of the copy of the statement
in which the loop variables of `θ` are replaced. -/
def visit (tracked : Bool) (θ : Subst ο) : Stmt ο → M ο σ (List (Stmt ο))
  | .definition .function name head body tail => do
    return [.definition .function name (replaceAll θ head) (← visitList true θ body) (replaceAll θ tail)]
  | .definition kind name head body tail => do
    let head ← P.visitNodes (replaceAll θ head)
    let body ← visitList false θ body
    let tail ← P.visitNodes (replaceAll θ tail)
    return [.definition kind name head body tail]
  | .assign targets value => do return [← P.visitAssign tracked (replaceAll θ targets) (replace θ value)]
  | .annAssign target annotation value => do
    return [← P.visitAnnAssign tracked (replace θ target) (replace θ annotation) (value.map (replace θ))]
  | .expr value => do return [.expr (← P.visitNode (replace θ value))]
  | .pass => pure [.pass]
  | .break => pure [.break]
  | .continue => pure [.continue]
  | .simple label fields => do return [.simple label (← P.visitNodes (replaceAll θ fields))]
  | .forLoop false target iter body orelse =>
    if tracked && isConstevalCall (replace θ iter) then
      if unrollable (replace θ target) (replaceStmts θ body) then do
        let items ← P.unrolledItems (replace θ iter)
        setModified
        let r ← unroll (fun v => do
          let b ← P.bindCopy (replace θ target) v
          let saved ← getLocalConsts
          updateLocalConsts b.1.get
          let copy ← visitList true (θ.andThen (.ofBindings b.2)) body
          setLocalConsts saved
          return (b.1, copy)) Dict.empty items
        let assigns ← finalAssigns r.1
        let rest ← visitList true θ orelse
        return r.2 ++ (assigns ++ rest)
      else failure
    else do
      let iter ← P.visitNode (replace θ iter)
      let body ← visitList true θ body
      let orelse ← visitList true θ orelse
      return [.forLoop false (replace θ target) iter body orelse]
  | .forLoop true target iter body orelse => do
    let target ← P.visitNode (replace θ target)
    let iter ← P.visitNode (replace θ iter)
    let body ← visitList false θ body
    let orelse ← visitList false θ orelse
    return [.forLoop true target iter body orelse]
  | .whileLoop test body orelse => do
    let test ← P.visitNode (replace θ test)
    let body ← visitList true θ body
    let orelse ← visitList true θ orelse
    return [.whileLoop test body orelse]
  | .ifStmt test body orelse => do
    let test ← P.visitNode (replace θ test)
    let body ← visitList true θ body
    let orelse ← visitList true θ orelse
    return [.ifStmt test body orelse]
  | .withStmt false items body =>
    if isConstevalWith (items.map (replaceItem θ)) then do
      P.transformConstevalBlock θ items body
      return []
    else do return [.withStmt false (items.map (replaceItem θ)) (← visitList true θ body)]
  | .withStmt true items body => do
    let items ← P.visitItems (items.map (replaceItem θ))
    let body ← visitList false θ body
    return [.withStmt true items body]
  | .matchStmt subject cases => do
    let subject ← P.visitNode (replace θ subject)
    let cases ← visitClauses θ cases
    return [.matchStmt subject cases]
  | .tryStmt star body handlers orelse finalbody => do
    let body ← visitList false θ body
    let handlers ← visitClauses θ handlers
    let orelse ← visitList false θ orelse
    let finalbody ← visitList false θ finalbody
    return [.tryStmt star body handlers orelse finalbody]
  | .nested _ => failure

/-- `_process_statement_list` where `tracked`, else a list field in `generic_visit`. -/
def visitList (tracked : Bool) (θ : Subst ο) : List (Stmt ο) → M ο σ (List (Stmt ο))
  | [] => pure []
  | s :: ss => do
    let r ← visit tracked θ s
    let rs ← visitList tracked θ ss
    return r ++ rs

def visitClauses (θ : Subst ο) : List (Clause ο) → M ο σ (List (Clause ο))
  | [] => pure []
  | .mk head body :: cs => do
    let head ← P.visitNodes (replaceAll θ head)
    let body ← visitList false θ body
    let cs ← visitClauses θ cs
    return .mk head body :: cs

end

end Interpreter

/-! ## The other transformers -/

def constantIfTransformer (truth : ο → Bool) : Visitor ο Bool where
  stmt s modified :=
    match s with
    | .ifStmt (.constant v) body orelse => (if truthy truth v then body else orelse, true)
    | s => ([s], modified)
  clauseBody body modified := (body, modified)

structure LocalArrayFromState where
  modified : Bool
  counter : Nat

def LocalArrayFromState.tempName (st : LocalArrayFromState) : Name := "__laf_i_" ++ toString st.counter

def isLocalArrayFrom : Node ο → Bool
  | .name x _ | .attribute _ x => x = "local_array_from"
  | _ => false

/-- The statements for `arr = local_array_from((elt for target in iter), ...)`. -/
def localArrayLoop (arr idx : Name) (elt target iter : Node ο) (keywords : List (Node ο)) : List (Stmt ο) :=
  let length := Node.call (.name "len" .load) [iter] []
  [.assign [.name arr .store] (.call (.attribute (.name "cuda" .load) "local_array") [length] keywords),
    .forLoop false (.name idx .store) (.call (.name "range" .load) [length] [])
      [.assign [target] (.subscript iter (.name idx .load) .load),
        .assign [.subscript (.name arr .load) (.name idx .load) .store] elt] []]

def localArrayFromTransformer : Visitor ο LocalArrayFromState where
  stmt s st :=
    match s with
    | .assign [t] (.call func (.generatorExp elt [.comprehension target iter []] :: args) keywords) =>
      if isLocalArrayFrom func then
        match t with
        | .name arr _ =>
          (localArrayLoop arr st.tempName elt target iter keywords, ⟨true, st.counter + 1⟩)
        | t => ([.assign [t] (.call func (.generatorExp elt [.comprehension target iter []] :: args) keywords)],
            ⟨true, st.counter⟩)
      else ([s], st)
    | s => ([s], st)
  clauseBody body st := (body, st)

/-- `StatementExpander` puts each statement it has visited back. -/
def statementExpander : Visitor ο Unit where
  stmt s _ := ([s], ())
  clauseBody body _ := (body, ())

def noneStatementRemover : Visitor ο Bool where
  stmt s modified :=
    match s with
    | .expr (.constant .none) => ([], true)
    | s => ([s], modified)
  clauseBody body modified := (body, modified)

def repairBody : List (Stmt ο) → Bool → List (Stmt ο) × Bool
  | [], _ => ([.pass], true)
  | body, modified => (body, modified)

/-- `EmptyBodyRepairer`: the field `body` of whatever node has one. -/
def emptyBodyRepairer : Visitor ο Bool where
  stmt s modified :=
    match s with
    | .definition kind name head body tail =>
      ([.definition kind name head (repairBody body modified).1 tail], (repairBody body modified).2)
    | .forLoop isAsync target iter body orelse =>
      ([.forLoop isAsync target iter (repairBody body modified).1 orelse], (repairBody body modified).2)
    | .whileLoop test body orelse => ([.whileLoop test (repairBody body modified).1 orelse], (repairBody body modified).2)
    | .ifStmt test body orelse => ([.ifStmt test (repairBody body modified).1 orelse], (repairBody body modified).2)
    | .withStmt isAsync items body => ([.withStmt isAsync items (repairBody body modified).1], (repairBody body modified).2)
    | .tryStmt star body handlers orelse finalbody =>
      ([.tryStmt star (repairBody body modified).1 handlers orelse finalbody], (repairBody body modified).2)
    | s => ([s], modified)
  clauseBody := repairBody

/-! ## The pipeline -/

abbrev Module (ο : Type) := List (Stmt ο)

structure TransformContext (ο σ : Type) where
  storedValues : Scope (Value ο)
  heap : σ

/-- `transform(tree, context)`, with whether the tree was modified. -/
abbrev Pass (ο σ : Type) := Module ο → TransformContext ο σ → Option ((Module ο × Bool) × TransformContext ο σ)

def constevalPass (P : Interpreter ο σ) : Pass ο σ := fun tree ctx => do
  let r ← P.visitList false (fun _ => none) tree (.initial ctx.heap)
  some ((r.1, r.2.modified), ⟨ctx.storedValues.update r.2.storedValues, r.2.heap⟩)

def constantIfPass (P : Interpreter ο σ) : Pass ο σ := fun tree ctx =>
  some ((constantIfTransformer P.truth).visitList tree false, ctx)

def transformComprehensions (tree : Module ο) : Module ο × Bool :=
  let r := localArrayFromTransformer.visitList tree ⟨false, 0⟩
  (if r.2.modified then (statementExpander.visitList r.1 ()).1 else r.1, r.2.modified)

def comprehensionPass : Pass ο σ := fun tree ctx => some (transformComprehensions tree, ctx)

def noneStatementRemovalPass : Pass ο σ := fun tree ctx => some (noneStatementRemover.visitList tree false, ctx)

def emptyBodyRepairPass : Pass ο σ := fun tree ctx => some (emptyBodyRepairer.visitList tree false, ctx)

def runPipeline : List (Pass ο σ) → Pass ο σ
  | [], tree, ctx => some ((tree, false), ctx)
  | pass :: passes, tree, ctx => do
    let r ← pass tree ctx
    let rs ← runPipeline passes r.1.1 r.2
    some ((rs.1.1, r.1.2 || rs.1.2), rs.2)

def createDefaultPipeline (P : Interpreter ο σ) : List (Pass ο σ) :=
  [constevalPass P, constantIfPass P, comprehensionPass, noneStatementRemovalPass, emptyBodyRepairPass]

end

end NumbaCudaMlir.AstTransforms

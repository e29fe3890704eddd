import NumbaCudaMlir.AstTransforms

/-!
# What the pipeline emits

Each pass after the first keeps the report of the tree it is given, the first one
gives the report of the statements that are not removed at compile time, and the last
one makes a well-formed tree of any that reports no bare `try`.
-/

namespace NumbaCudaMlir.AstTransforms

open SyntaxTree
open ConstevalBlocks (Scope)

section
variable {ο σ : Type}

/-! ## Copies of a loop body -/

mutual

theorem replace_andThen (θ θ' : Subst ο) : ∀ e : Node ο, replace θ' (replace θ e) = replace (θ.andThen θ') e
  | .constant v => rfl
  | .name x ctx => by
    simp only [replace, Subst.andThen]
    cases θ x <;> rfl
  | .attribute value attr => by simp only [replace, replace_andThen θ θ' value]
  | .subscript value slice ctx => by simp only [replace, replace_andThen θ θ' value, replace_andThen θ θ' slice]
  | .call func args keywords => by
    simp only [replace, replace_andThen θ θ' func, replaceAll_andThen θ θ' args, replaceAll_andThen θ θ' keywords]
  | .generatorExp elt generators => by simp only [replace, replace_andThen θ θ' elt, replaceAll_andThen θ θ' generators]
  | .comprehension target iter ifs => by
    simp only [replace, replace_andThen θ θ' target, replace_andThen θ θ' iter, replaceAll_andThen θ θ' ifs]
  | .sequence elts => by simp only [replace, replaceAll_andThen θ θ' elts]
  | .starred value => by simp only [replace, replace_andThen θ θ' value]
  | .other label children => by simp only [replace, replaceAll_andThen θ θ' children]

theorem replaceAll_andThen (θ θ' : Subst ο) : ∀ es : List (Node ο), replaceAll θ' (replaceAll θ es) = replaceAll (θ.andThen θ') es
  | [] => rfl
  | e :: es => by simp only [replaceAll, replace_andThen θ θ' e, replaceAll_andThen θ θ' es]

end

theorem replace_comp (θ θ' : Subst ο) : replace θ' ∘ replace θ = replace (θ.andThen θ') := funext (replace_andThen θ θ')

theorem replaceItems_andThen (θ θ' : Subst ο) (items : List (WithItem ο)) :
    (items.map (replaceItem θ)).map (replaceItem θ') = items.map (replaceItem (θ.andThen θ')) := by
  rw [List.map_map]
  apply List.map_congr_left
  intro i _
  simp [replaceItem, replace_andThen, replace_comp]

mutual

theorem replaceStmt_andThen (θ θ' : Subst ο) : ∀ s : Stmt ο, replaceStmt θ' (replaceStmt θ s) = replaceStmt (θ.andThen θ') s
  | .definition kind name head body tail => by
    simp only [replaceStmt, replaceAll_andThen, replaceStmts_andThen θ θ' body]
  | .assign targets value => by simp only [replaceStmt, replaceAll_andThen, replace_andThen]
  | .annAssign target annotation value => by simp only [replaceStmt, replace_andThen, Option.map_map, replace_comp]
  | .expr value => by simp only [replaceStmt, replace_andThen]
  | .pass | .break | .continue => rfl
  | .simple label fields => by simp only [replaceStmt, replaceAll_andThen]
  | .forLoop isAsync target iter body orelse => by
    simp only [replaceStmt, replace_andThen, replaceStmts_andThen θ θ' body, replaceStmts_andThen θ θ' orelse]
  | .whileLoop test body orelse => by
    simp only [replaceStmt, replace_andThen, replaceStmts_andThen θ θ' body, replaceStmts_andThen θ θ' orelse]
  | .ifStmt test body orelse => by
    simp only [replaceStmt, replace_andThen, replaceStmts_andThen θ θ' body, replaceStmts_andThen θ θ' orelse]
  | .withStmt isAsync items body => by simp only [replaceStmt, replaceItems_andThen, replaceStmts_andThen θ θ' body]
  | .matchStmt subject cases => by simp only [replaceStmt, replace_andThen, replaceClauses_andThen θ θ' cases]
  | .tryStmt star body handlers orelse finalbody => by
    simp only [replaceStmt, replaceStmts_andThen θ θ' body, replaceClauses_andThen θ θ' handlers,
      replaceStmts_andThen θ θ' orelse, replaceStmts_andThen θ θ' finalbody]
  | .nested stmts => rfl

theorem replaceStmts_andThen (θ θ' : Subst ο) : ∀ ss : List (Stmt ο), replaceStmts θ' (replaceStmts θ ss) = replaceStmts (θ.andThen θ') ss
  | [] => rfl
  | s :: ss => by simp only [replaceStmts, replaceStmt_andThen θ θ' s, replaceStmts_andThen θ θ' ss]

theorem replaceClauses_andThen (θ θ' : Subst ο) : ∀ cs : List (Clause ο),
    replaceClauses θ' (replaceClauses θ cs) = replaceClauses (θ.andThen θ') cs
  | [] => rfl
  | .mk head body :: cs => by
    simp only [replaceClauses, replaceAll_andThen, replaceStmts_andThen θ θ' body, replaceClauses_andThen θ θ' cs]

end

theorem Subst.andThen_assoc (θ θ' θ'' : Subst ο) : (θ.andThen θ').andThen θ'' = θ.andThen (θ'.andThen θ'') := by
  funext x
  unfold Subst.andThen
  cases θ x with
  | none => rfl
  | some e => exact congrArg some (replace_andThen θ' θ'' e)

namespace Interpreter

variable (P : Interpreter ο σ)

mutual

theorem executeStmt_replace (θ θ' : Subst ο) : ∀ (s : Stmt ο) (globals locals : Scope (Value ο)),
    P.executeStmt θ' (replaceStmt θ s) globals locals = P.executeStmt (θ.andThen θ') s globals locals
  | s, globals, locals => by
    have hstmt := replaceStmt_andThen θ θ' s
    cases s with
    | withStmt isAsync items body =>
      cases isAsync with
      | false =>
        have hvars : (items.map (replaceItem θ)).any (·.optionalVars.isSome) = items.any (·.optionalVars.isSome) := by
          simp [List.any_map, Function.comp_def, replaceItem]
        simp only [replaceStmt, executeStmt, replaceItems_andThen, replaceStmts_andThen, hvars, executeBlock_replace θ θ' body]
      | true => exact congrArg (P.execPlain · globals locals) hstmt
    | _ => exact congrArg (P.execPlain · globals locals) hstmt

theorem executeBlock_replace (θ θ' : Subst ο) : ∀ (ss : List (Stmt ο)) (globals locals : Scope (Value ο)),
    P.executeBlock θ' (replaceStmts θ ss) globals locals = P.executeBlock (θ.andThen θ') ss globals locals
  | [], _, _ => rfl
  | s :: ss, globals, locals => by
    simp only [replaceStmts, executeBlock, executeStmt_replace θ θ' s, executeBlock_replace θ θ' ss]

end

mutual

/-- The walk over a copy, as it is made for each item of an unrolled loop. -/
theorem visit_replace (θ θ' : Subst ο) : ∀ (tracked : Bool) (s : Stmt ο),
    P.visit tracked θ' (replaceStmt θ s) = P.visit tracked (θ.andThen θ') s
  | tracked, .definition kind name head body tail => by
    cases kind <;> simp only [replaceStmt, visit, replaceAll_andThen, visitList_replace θ θ' _ body]
  | tracked, .assign targets value => by simp only [replaceStmt, visit, replaceAll_andThen, replace_andThen]
  | tracked, .annAssign target annotation value => by
    simp only [replaceStmt, visit, replace_andThen, Option.map_map, replace_comp]
  | tracked, .expr value => by simp only [replaceStmt, visit, replace_andThen]
  | tracked, .pass | tracked, .break | tracked, .continue => rfl
  | tracked, .simple label fields => by simp only [replaceStmt, visit, replaceAll_andThen]
  | tracked, .forLoop isAsync target iter body orelse => by
    cases isAsync <;> simp only [replaceStmt, visit, replace_andThen, replaceStmts_andThen, Subst.andThen_assoc,
      visitList_replace θ θ' _ orelse, visitList_replace θ θ' _ body, visitList_replace θ _ _ body]
  | tracked, .whileLoop test body orelse => by
    simp only [replaceStmt, visit, replace_andThen, visitList_replace θ θ' _ body, visitList_replace θ θ' _ orelse]
  | tracked, .ifStmt test body orelse => by
    simp only [replaceStmt, visit, replace_andThen, visitList_replace θ θ' _ body, visitList_replace θ θ' _ orelse]
  | tracked, .withStmt isAsync items body => by
    have hvars : (items.map (replaceItem θ)).any (·.optionalVars.isSome) = items.any (·.optionalVars.isSome) := by
      simp [List.any_map, Function.comp_def, replaceItem]
    cases isAsync <;> simp only [replaceStmt, visit, transformConstevalBlock, replaceItems_andThen, hvars, executeBlock_replace,
      visitList_replace θ θ' _ body]
  | tracked, .matchStmt subject cases => by
    simp only [replaceStmt, visit, replace_andThen, visitClauses_replace θ θ' cases]
  | tracked, .tryStmt star body handlers orelse finalbody => by
    simp only [replaceStmt, visit, visitList_replace θ θ' _ body, visitClauses_replace θ θ' handlers,
      visitList_replace θ θ' _ orelse, visitList_replace θ θ' _ finalbody]
  | tracked, .nested stmts => rfl

theorem visitList_replace (θ θ' : Subst ο) : ∀ (tracked : Bool) (ss : List (Stmt ο)),
    P.visitList tracked θ' (replaceStmts θ ss) = P.visitList tracked (θ.andThen θ') ss
  | tracked, [] => rfl
  | tracked, s :: ss => by simp only [replaceStmts, visitList, visit_replace θ θ' tracked s, visitList_replace θ θ' tracked ss]

theorem visitClauses_replace (θ θ' : Subst ο) : ∀ cs : List (Clause ο),
    P.visitClauses θ' (replaceClauses θ cs) = P.visitClauses (θ.andThen θ') cs
  | [] => rfl
  | .mk head body :: cs => by
    simp only [replaceClauses, visitClauses, replaceAll_andThen, visitList_replace θ θ' _ body, visitClauses_replace θ θ' cs]

end

end Interpreter

/-! ## Three readings -/

def isNone : Node ο → Bool
  | .constant .none => true
  | _ => false

/-- After the evaluation: tests that are constants are known, and `None` statements vanish. -/
def evaluated (truth : ο → Bool) : Reading ο where
  known
    | .constant v => some (truthy truth v)
    | _ => none
  vanishes := isNone

def folded : Reading ο where
  known _ := none
  vanishes := isNone

def standing : Reading ο where
  known _ := none
  vanishes _ := false

theorem standing_known (e : Node ο) : (standing : Reading ο).known e = none := rfl

theorem constantIf_refines (truth : ο → Bool) : (constantIfTransformer truth).Refines (evaluated truth) folded where
  stmt s modified := by
    cases s with
    | ifStmt test body orelse =>
      cases test with
      | constant v => cases hv : truthy truth v <;> simp [constantIfTransformer, Stmt.step, evaluated, Report.branch, hv]
      | _ => simp [constantIfTransformer, Stmt.step, Stmt.report, evaluated, folded]
    | _ => simp [constantIfTransformer, Stmt.step, Stmt.report, evaluated, folded]
  clauseBody _ _ := rfl

theorem localArrayFrom_refines (R : Reading ο) : localArrayFromTransformer.Refines R R where
  stmt s st := by
    rw [← Stmt.report_eq]
    unfold localArrayFromTransformer
    dsimp only
    split
    · split
      · split
        · simp [localArrayLoop, listReport, Stmt.report, Report.append, Report.keep, Report.nothing]
        · simp
      · simp
    · simp
  clauseBody _ _ := rfl

theorem statementExpander_refines (R : Reading ο) : statementExpander.Refines R R where
  stmt s _ := by rw [← Stmt.report_eq]; exact listReport_singleton R s
  clauseBody _ _ := rfl

theorem noneStatementRemover_refines : (noneStatementRemover : Visitor ο Bool).Refines folded standing where
  stmt s modified := by
    cases s with
    | expr e =>
      cases e with
      | constant v => cases v <;> simp [noneStatementRemover, Stmt.step, Stmt.report, listReport, folded, standing, isNone, Report.nothing]
      | _ => simp [noneStatementRemover, Stmt.step, Stmt.report, folded, standing, isNone]
    | _ => simp [noneStatementRemover, Stmt.step, Stmt.report, folded, standing]
  clauseBody _ _ := rfl

/-! ## The repaired tree -/

theorem leaves_standing (ss : List (Stmt ο)) : (listReport standing ss).leaves = !ss.isEmpty := by
  cases ss with
  | nil => rfl
  | cons s ss => cases s <;> simp [listReport, Stmt.report, Report.append, Report.keep, Report.branch, Report.tryStmt, standing]

theorem repairBody_isEmpty (b : List (Stmt ο)) (m : Bool) : (repairBody b m).1.isEmpty = false := by
  cases b <;> rfl

theorem repairBody_wellFormed (b : List (Stmt ο)) (m : Bool) : listWellFormed (repairBody b m).1 = listWellFormed b := by
  cases b <;> rfl

theorem repair_visit_singleton (s : Stmt ο) (m : Bool) : ∃ s', (emptyBodyRepairer.visit s m).1 = [s'] := by
  cases s <;> exact ⟨_, rfl⟩

theorem repair_visitList_isEmpty (ss : List (Stmt ο)) (m : Bool) : (emptyBodyRepairer.visitList ss m).1.isEmpty = ss.isEmpty := by
  cases ss with
  | nil => rfl
  | cons s ss =>
    obtain ⟨s', hs⟩ := repair_visit_singleton s m
    simp [Visitor.visitList, hs]

mutual

theorem repair_visit : ∀ (s : Stmt ο) (m : Bool),
    listWellFormed (emptyBodyRepairer.visit s m).1 = (s.report standing).sound
  | .definition kind name head body tail, m => by
    have hbody := repair_visitList body m
    change listWellFormed [.definition kind name head (repairBody (emptyBodyRepairer.visitList body m).1 _).1 tail] = _
    simp [listWellFormed, Stmt.wellFormed, Stmt.report, Report.keep, repairBody_isEmpty, repairBody_wellFormed, hbody]
  | .assign .., m | .annAssign .., m | .pass, m | .break, m | .continue, m | .simple .., m | .expr _, m => rfl
  | .forLoop isAsync target iter body orelse, m => by
    have hbody := repair_visitList body m
    have horelse := repair_visitList orelse (emptyBodyRepairer.visitList body m).2
    change listWellFormed [.forLoop isAsync target iter (repairBody (emptyBodyRepairer.visitList body m).1 _).1
      (emptyBodyRepairer.visitList orelse _).1] = _
    simp [listWellFormed, Stmt.wellFormed, Stmt.report, Report.keep, repairBody_isEmpty, repairBody_wellFormed, hbody, horelse]
  | .whileLoop test body orelse, m => by
    have hbody := repair_visitList body m
    have horelse := repair_visitList orelse (emptyBodyRepairer.visitList body m).2
    change listWellFormed [.whileLoop test (repairBody (emptyBodyRepairer.visitList body m).1 _).1
      (emptyBodyRepairer.visitList orelse _).1] = _
    simp [listWellFormed, Stmt.wellFormed, Stmt.report, Report.keep, repairBody_isEmpty, repairBody_wellFormed, hbody, horelse]
  | .ifStmt test body orelse, m => by
    have hbody := repair_visitList body m
    have horelse := repair_visitList orelse (emptyBodyRepairer.visitList body m).2
    change listWellFormed [.ifStmt test (repairBody (emptyBodyRepairer.visitList body m).1 _).1
      (emptyBodyRepairer.visitList orelse _).1] = _
    simp [listWellFormed, Stmt.wellFormed, Stmt.report, standing_known, Report.branch, Report.keep, repairBody_isEmpty,
      repairBody_wellFormed, hbody, horelse]
  | .withStmt isAsync items body, m => by
    have hbody := repair_visitList body m
    change listWellFormed [.withStmt isAsync items (repairBody (emptyBodyRepairer.visitList body m).1 _).1] = _
    simp [listWellFormed, Stmt.wellFormed, Stmt.report, Report.keep, repairBody_isEmpty, repairBody_wellFormed, hbody]
  | .matchStmt subject cases, m => by
    have hcases := repair_visitClauses cases m
    change listWellFormed [.matchStmt subject (emptyBodyRepairer.visitClauses cases m).1] = _
    simp [listWellFormed, Stmt.wellFormed, Stmt.report, Report.keep, hcases]
  | .tryStmt star body handlers orelse finalbody, m => by
    have hbody := repair_visitList body m
    have hhandlers := repair_visitClauses handlers (emptyBodyRepairer.visitList body m).2
    have horelse := repair_visitList orelse (emptyBodyRepairer.visitClauses handlers (emptyBodyRepairer.visitList body m).2).2
    have hfinal := repair_visitList finalbody (emptyBodyRepairer.visitList orelse
      (emptyBodyRepairer.visitClauses handlers (emptyBodyRepairer.visitList body m).2).2).2
    change listWellFormed [.tryStmt star (repairBody (emptyBodyRepairer.visitList body m).1 _).1
      (emptyBodyRepairer.visitClauses handlers _).1 (emptyBodyRepairer.visitList orelse _).1
      (emptyBodyRepairer.visitList finalbody _).1] = _
    simp [listWellFormed, Stmt.wellFormed, Stmt.report, Report.tryStmt, Report.keep, repairBody_isEmpty,
      repairBody_wellFormed, leaves_standing, repair_visitList_isEmpty, hbody, hhandlers, horelse, hfinal]
  | .nested stmts, m => rfl

theorem repair_visitList : ∀ (ss : List (Stmt ο)) (m : Bool),
    listWellFormed (emptyBodyRepairer.visitList ss m).1 = (listReport standing ss).sound
  | [], m => rfl
  | s :: ss, m => by
    have hs := repair_visit s m
    have hss := repair_visitList ss (emptyBodyRepairer.visit s m).2
    obtain ⟨s', hone⟩ := repair_visit_singleton s m
    rw [hone] at hs
    simp only [listWellFormed, Bool.and_true] at hs
    simp only [Visitor.visitList, hone, List.singleton_append, listWellFormed, listReport, Report.append, hs, hss]

theorem repair_visitClauses : ∀ (cs : List (Clause ο)) (m : Bool),
    clausesWellFormed (emptyBodyRepairer.visitClauses cs m).1 = (clausesReport standing cs).sound
  | [], m => rfl
  | .mk head body :: cs, m => by
    have hbody := repair_visitList body m
    have hcs := repair_visitClauses cs (repairBody (emptyBodyRepairer.visitList body m).1 (emptyBodyRepairer.visitList body m).2).2
    change clausesWellFormed (.mk head (repairBody (emptyBodyRepairer.visitList body m).1 _).1 ::
      (emptyBodyRepairer.visitClauses cs (repairBody _ (emptyBodyRepairer.visitList body m).2).2).1) = _
    simp [clausesWellFormed, clausesReport, Report.append, Report.keep, repairBody_isEmpty, repairBody_wellFormed, hbody, hcs]

end

/-! ## What the evaluation leaves -/

def joined (rs : List Report) : Report := rs.foldr Report.append .nothing

theorem joined_append (rs rs' : List Report) : joined (rs ++ rs') = (joined rs).append (joined rs') := by
  induction rs with
  | nil => simp [joined]
  | cons r rs ih =>
    simp only [joined, List.cons_append, List.foldr_cons] at ih ⊢
    rw [ih, Report.append_assoc]

namespace Interpreter

variable (P : Interpreter ο σ)

mutual

/-- What is left of a statement: of a block at compile time nothing, of an unrolled loop what is left of
the copies of its body, the final assignments of its variables and its `else` clause. -/
def remains (tracked : Bool) (θ : Subst ο) : Stmt ο → M ο σ Report
  | .definition .function _ _ body _ => do return .keep (← remainsList true θ body).sound
  | .definition _ _ head body tail => do
    let _ ← P.visitNodes (replaceAll θ head)
    let body ← remainsList false θ body
    let _ ← P.visitNodes (replaceAll θ tail)
    return .keep body.sound
  | .assign targets value => do
    let _ ← P.visitAssign tracked (replaceAll θ targets) (replace θ value)
    return .keep true
  | .annAssign target annotation value => do
    let _ ← P.visitAnnAssign tracked (replace θ target) (replace θ annotation) (value.map (replace θ))
    return .keep true
  | .expr value => do return ⟨!isNone (← P.visitNode (replace θ value)), true⟩
  | .pass | .break | .continue => pure (.keep true)
  | .simple _ fields => do
    let _ ← P.visitNodes (replaceAll θ fields)
    return .keep true
  | .forLoop false target iter body orelse =>
    if tracked && isConstevalCall (replace θ iter) then
      if unrollable (replace θ target) (replaceStmts θ body) then do
        let items ← P.unrolledItems (replace θ iter)
        setModified
        let r ← unroll (fun v => do
          let b ← P.bindCopy (replace θ target) v
          let saved ← getLocalConsts
          updateLocalConsts b.1.get
          let copy ← remainsList true (θ.andThen (.ofBindings b.2)) body
          setLocalConsts saved
          return (b.1, [copy])) Dict.empty items
        let _ ← finalAssigns r.1
        let rest ← remainsList true θ orelse
        return (joined r.2).append (Report.append ⟨!r.1.entries.isEmpty, true⟩ rest)
      else failure
    else do
      let _ ← P.visitNode (replace θ iter)
      let body ← remainsList true θ body
      let orelse ← remainsList true θ orelse
      return .keep (body.sound && orelse.sound)
  | .forLoop true target iter body orelse => do
    let _ ← P.visitNode (replace θ target)
    let _ ← P.visitNode (replace θ iter)
    let body ← remainsList false θ body
    let orelse ← remainsList false θ orelse
    return .keep (body.sound && orelse.sound)
  | .whileLoop test body orelse => do
    let _ ← P.visitNode (replace θ test)
    let body ← remainsList true θ body
    let orelse ← remainsList true θ orelse
    return .keep (body.sound && orelse.sound)
  | .ifStmt test body orelse => do
    let test ← P.visitNode (replace θ test)
    let body ← remainsList true θ body
    let orelse ← remainsList true θ orelse
    return .branch ((evaluated P.truth).known test) body orelse
  | .withStmt false items body =>
    if isConstevalWith (items.map (replaceItem θ)) then do
      P.transformConstevalBlock θ items body
      return .nothing
    else do return .keep (← remainsList true θ body).sound
  | .withStmt true items body => do
    let _ ← P.visitItems (items.map (replaceItem θ))
    return .keep (← remainsList false θ body).sound
  | .matchStmt subject cases => do
    let _ ← P.visitNode (replace θ subject)
    return .keep (← remainsClauses θ cases).sound
  | .tryStmt _ body handlers orelse finalbody => do
    let b ← remainsList false θ body
    let h ← remainsClauses θ handlers
    let o ← remainsList false θ orelse
    let f ← remainsList false θ finalbody
    return .tryStmt (!handlers.isEmpty) b h o f
  | .nested _ => failure

def remainsList (tracked : Bool) (θ : Subst ο) : List (Stmt ο) → M ο σ Report
  | [] => pure .nothing
  | s :: ss => do
    let r ← remains tracked θ s
    let rs ← remainsList tracked θ ss
    return r.append rs

def remainsClauses (θ : Subst ο) : List (Clause ο) → M ο σ Report
  | [] => pure .nothing
  | .mk head body :: cs => do
    let _ ← P.visitNodes (replaceAll θ head)
    let body ← remainsList false θ body
    let cs ← remainsClauses θ cs
    return (Report.keep body.sound).append cs

end

theorem unroll_report {R : Reading ο} {copy : Value ο → M ο σ (Dict Name (Value ο) × List (Stmt ο))}
    {report : Value ο → M ο σ (Dict Name (Value ο) × List Report)}
    (h : ∀ v, report v = (fun r => (r.1, [listReport R r.2])) <$> copy v) {α : Type} (vs : List (Value ο)) :
    ∀ (last : Dict Name (Value ο)) (k : Dict Name (Value ο) → Report → M ο σ α),
      (unroll report last vs >>= fun r => k r.1 (joined r.2)) = unroll copy last vs >>= fun r => k r.1 (listReport R r.2) := by
  induction vs with
  | nil =>
    intro last k
    simp only [unroll, pure_bind]
    rfl
  | cons v vs ih =>
    intro last k
    simp only [unroll, h, bind_map_left, bind_assoc, pure_bind, joined_append, listReport_append]
    refine bind_congr fun r => ?_
    have hone : joined [listReport R r.2] = listReport R r.2 := Report.append_nothing _
    rw [hone]
    exact ih r.1 fun b rest => k b ((listReport R r.2).append rest)

theorem finalAssigns_report {R : Reading ο} {α : Type} (bindings : Dict Name (Value ο)) (k : Report → M ο σ α) :
    (finalAssigns bindings >>= fun assigns => k (listReport R assigns)) =
      finalAssigns bindings >>= fun _ => k ⟨!bindings.entries.isEmpty, true⟩ := by
  have hlist : ∀ (es : List (Name × Value ο)) (k : Report → M ο σ α),
      ((es.mapM fun b => do return Stmt.assign [.name b.1 .store] (← valueExpr b.2)) >>= fun assigns => k (listReport R assigns)) =
        (es.mapM fun b => do return Stmt.assign [.name b.1 .store] (← valueExpr b.2)) >>= fun _ => k ⟨!es.isEmpty, true⟩ := by
    intro es
    induction es with
    | nil =>
      intro k
      simp only [List.mapM_nil, pure_bind]
      rfl
    | cons e es ih =>
      intro k
      simp only [List.mapM_cons, bind_assoc, pure_bind]
      exact bind_congr fun x => ih fun r => k ((Report.keep true).append r)
  unfold finalAssigns
  simp only [bind_assoc]
  exact bind_congr fun _ => hlist bindings.entries k

theorem visitAssign_report {R : Reading ο} {α : Type} (tracked : Bool) (targets : List (Node ο)) (value : Node ο)
    (k : Report → M ο σ α) :
    (P.visitAssign tracked targets value >>= fun s => k (s.report R)) = P.visitAssign tracked targets value >>= fun _ => k (.keep true) := by
  unfold visitAssign
  split <;> simp only [bind_assoc, pure_bind, Stmt.report]

theorem visitAnnAssign_report {R : Reading ο} {α : Type} (tracked : Bool) (target annotation : Node ο) (value : Option (Node ο))
    (k : Report → M ο σ α) :
    (P.visitAnnAssign tracked target annotation value >>= fun s => k (s.report R)) =
      P.visitAnnAssign tracked target annotation value >>= fun _ => k (.keep true) := by
  unfold visitAnnAssign
  split <;> simp only [bind_assoc, pure_bind, Stmt.report]

theorem visitClauses_bind {α : Type} (θ : Subst ο) (cs : List (Clause ο)) {k k' : List (Clause ο) → M ο σ α}
    (h : ∀ hs, hs.isEmpty = cs.isEmpty → k hs = k' hs) : (P.visitClauses θ cs >>= k) = P.visitClauses θ cs >>= k' := by
  cases cs with
  | nil =>
    simp only [visitClauses, pure_bind]
    exact h [] rfl
  | cons c cs =>
    cases c with
    | mk head body =>
      simp only [visitClauses, bind_assoc, pure_bind]
      exact bind_congr fun head => bind_congr fun body => bind_congr fun cs => h _ rfl

mutual

theorem remains_eq : ∀ (tracked : Bool) (θ : Subst ο) (s : Stmt ο),
    P.remains tracked θ s = listReport (evaluated P.truth) <$> P.visit tracked θ s
  | tracked, θ, .definition .function name head body tail => by
    simp only [remains, visit, remainsList_eq true θ body, bind_map_left, map_bind, map_pure, listReport_singleton, Stmt.report]
  | tracked, θ, .definition .asyncFunction name head body tail => by
    simp only [remains, visit, remainsList_eq false θ body, bind_map_left, map_bind, map_pure, listReport_singleton, Stmt.report]
  | tracked, θ, .definition .classDef name head body tail => by
    simp only [remains, visit, remainsList_eq false θ body, bind_map_left, map_bind, map_pure, listReport_singleton, Stmt.report]
  | tracked, θ, .assign targets value => by
    simp only [remains, visit, map_bind, map_pure, listReport_singleton]
    exact (P.visitAssign_report tracked _ _ pure).symm
  | tracked, θ, .annAssign target annotation value => by
    simp only [remains, visit, map_bind, map_pure, listReport_singleton]
    exact (P.visitAnnAssign_report tracked _ _ _ pure).symm
  | tracked, θ, .expr value => by
    simp only [remains, visit, map_bind, map_pure, listReport_singleton, Stmt.report, evaluated]
  | tracked, θ, .pass => by simp only [remains, visit, map_pure, listReport_singleton, Stmt.report]
  | tracked, θ, .break => by simp only [remains, visit, map_pure, listReport_singleton, Stmt.report]
  | tracked, θ, .continue => by simp only [remains, visit, map_pure, listReport_singleton, Stmt.report]
  | tracked, θ, .simple label fields => by
    simp only [remains, visit, map_bind, map_pure, listReport_singleton, Stmt.report]
  | tracked, θ, .forLoop false target iter body orelse => by
    simp only [remains, visit]
    by_cases hc : (tracked && isConstevalCall (replace θ iter)) = true
    · rw [if_pos hc, if_pos hc]
      by_cases hu : unrollable (replace θ target) (replaceStmts θ body) = true
      · rw [if_pos hu, if_pos hu]
        simp only [remainsList_eq true θ orelse, bind_map_left, map_bind, map_pure, listReport_append]
        refine bind_congr fun items => bind_congr fun _ => ?_
        have hcopy : ∀ v, (do
            let b ← P.bindCopy (replace θ target) v
            let saved ← getLocalConsts
            updateLocalConsts b.1.get
            let copy ← P.remainsList true (θ.andThen (.ofBindings b.2)) body
            setLocalConsts saved
            return (b.1, [copy])) = (fun r => (r.1, [listReport (evaluated P.truth) r.2])) <$> (do
            let b ← P.bindCopy (replace θ target) v
            let saved ← getLocalConsts
            updateLocalConsts b.1.get
            let copy ← P.visitList true (θ.andThen (.ofBindings b.2)) body
            setLocalConsts saved
            return (b.1, copy)) := by
          intro v
          simp only [map_bind, map_pure]
          refine bind_congr fun b => bind_congr fun saved => bind_congr fun _ => ?_
          rw [remainsList_eq true (θ.andThen (.ofBindings b.2)) body, bind_map_left]
        refine (unroll_report hcopy items Dict.empty fun b r => do
          let _ ← finalAssigns b
          let rest ← P.visitList true θ orelse
          return r.append (Report.append ⟨!b.entries.isEmpty, true⟩ (listReport (evaluated P.truth) rest))).trans ?_
        refine bind_congr fun r => ?_
        exact (finalAssigns_report r.1 fun q => do
          let rest ← P.visitList true θ orelse
          return (listReport (evaluated P.truth) r.2).append (q.append (listReport (evaluated P.truth) rest))).symm
      · rw [if_neg hu, if_neg hu]
        rfl
    · rw [if_neg hc, if_neg hc]
      simp only [remainsList_eq true θ body, remainsList_eq true θ orelse, bind_map_left, map_bind, map_pure,
        listReport_singleton, Stmt.report]
  | tracked, θ, .forLoop true target iter body orelse => by
    simp only [remains, visit, remainsList_eq false θ body, remainsList_eq false θ orelse, bind_map_left, map_bind, map_pure,
      listReport_singleton, Stmt.report]
  | tracked, θ, .whileLoop test body orelse => by
    simp only [remains, visit, remainsList_eq true θ body, remainsList_eq true θ orelse, bind_map_left, map_bind, map_pure,
      listReport_singleton, Stmt.report]
  | tracked, θ, .ifStmt test body orelse => by
    simp only [remains, visit, remainsList_eq true θ body, remainsList_eq true θ orelse, bind_map_left, map_bind, map_pure,
      listReport_singleton, Stmt.report]
  | tracked, θ, .withStmt false items body => by
    simp only [remains, visit]
    split
    · simp only [map_bind, map_pure, listReport]
    · simp only [remainsList_eq true θ body, bind_map_left, map_bind, map_pure, listReport_singleton, Stmt.report]
  | tracked, θ, .withStmt true items body => by
    simp only [remains, visit, remainsList_eq false θ body, bind_map_left, map_bind, map_pure, listReport_singleton, Stmt.report]
  | tracked, θ, .matchStmt subject cases => by
    simp only [remains, visit, remainsClauses_eq θ cases, bind_map_left, map_bind, map_pure, listReport_singleton, Stmt.report]
  | tracked, θ, .tryStmt star body handlers orelse finalbody => by
    simp only [remains, visit, remainsList_eq false θ body, remainsClauses_eq θ handlers, remainsList_eq false θ orelse,
      remainsList_eq false θ finalbody, bind_map_left, map_bind, map_pure, listReport_singleton, Stmt.report]
    refine bind_congr fun body => P.visitClauses_bind θ handlers fun hs hempty => ?_
    rw [hempty]
  | tracked, θ, .nested stmts => rfl

theorem remainsList_eq : ∀ (tracked : Bool) (θ : Subst ο) (ss : List (Stmt ο)),
    P.remainsList tracked θ ss = listReport (evaluated P.truth) <$> P.visitList tracked θ ss
  | tracked, θ, [] => by simp only [remainsList, visitList, map_pure, listReport]
  | tracked, θ, s :: ss => by
    simp only [remainsList, visitList, remains_eq tracked θ s, remainsList_eq tracked θ ss, bind_map_left, map_bind, map_pure,
      listReport_append]

theorem remainsClauses_eq : ∀ (θ : Subst ο) (cs : List (Clause ο)),
    P.remainsClauses θ cs = clausesReport (evaluated P.truth) <$> P.visitClauses θ cs
  | θ, [] => by simp only [remainsClauses, visitClauses, map_pure, clausesReport]
  | θ, .mk head body :: cs => by
    simp only [remainsClauses, visitClauses, remainsList_eq false θ body, remainsClauses_eq θ cs, bind_map_left, map_bind,
      map_pure, clausesReport]

end

end Interpreter

/-! ## The pipeline -/

/-- Each `try` without handlers that is left at the end has something left in its `finally` clause. -/
def FinallyKept (P : Interpreter ο σ) (tree : Module ο) (heap : σ) : Prop :=
  ∀ r, P.remainsList false (fun _ => none) tree (.initial heap) = some r → r.1.sound = true

theorem transformComprehensions_report (R : Reading ο) (tree : Module ο) :
    listReport R (transformComprehensions tree).1 = listReport R tree := by
  have harray := (localArrayFrom_refines R).visitList tree ⟨false, 0⟩
  unfold transformComprehensions
  dsimp only
  split
  · rw [(statementExpander_refines R).visitList, harray]
  · exact harray

/-- What the passes after the evaluation emit is well-formed if each `try` that is left then has a handler or a `finally` clause. -/
theorem passes_wellFormed {P : Interpreter ο σ} {tree : Module ο} {ctx : TransformContext ο σ}
    {r : (Module ο × Bool) × TransformContext ο σ}
    (h : runPipeline [constantIfPass P, comprehensionPass, noneStatementRemovalPass, emptyBodyRepairPass] tree ctx = some r) :
    listWellFormed r.1.1 = (listReport (evaluated P.truth) tree).sound := by
  obtain rfl := Option.some.inj h
  rw [repair_visitList, noneStatementRemover_refines.visitList, transformComprehensions_report,
    (constantIf_refines P.truth).visitList]

/-- Without an exception the tree that is emitted is well-formed exactly when no `finally` clause of a `try` without
handlers vanishes. -/
theorem pipeline_wellFormed_iff {P : Interpreter ο σ} {tree : Module ο} {ctx : TransformContext ο σ}
    {r : (Module ο × Bool) × TransformContext ο σ} (h : runPipeline (createDefaultPipeline P) tree ctx = some r) :
    listWellFormed r.1.1 = true ↔ FinallyKept P tree ctx.heap := by
  unfold createDefaultPipeline at h
  rw [runPipeline, Option.bind_eq_bind, Option.bind_eq_some_iff] at h
  obtain ⟨c, hc, h⟩ := h
  obtain ⟨rs, hrs, h⟩ := Option.bind_eq_some_iff.mp h
  obtain rfl := Option.some.inj h
  obtain ⟨v, hv, h⟩ := Option.bind_eq_some_iff.mp hc
  obtain rfl := Option.some.inj h
  have hremains : P.remainsList false (fun _ => none) tree (.initial ctx.heap) = some (listReport (evaluated P.truth) v.1, v.2) := by
    rw [P.remainsList_eq]
    change Option.bind (P.visitList false (fun _ => none) tree (.initial ctx.heap)) _ = _
    rw [hv]
    rfl
  rw [passes_wellFormed hrs]
  constructor
  · intro hsound r hr
    rw [hremains] at hr
    obtain rfl := Option.some.inj hr
    exact hsound
  · exact fun hkept => hkept _ hremains

/-! ## A `finally` clause that vanishes -/

/-- Values are numbers, and `print(...)` gives `None`. -/
def printing : Interpreter Nat Unit where
  context := ⟨.empty, .empty, .empty, .empty⟩
  eval _ heap e :=
    match e with
    | .constant v => some (v, heap)
    | .call (.name "print" _) _ _ => some (.none, heap)
    | _ => none
  exec _ _ _ _ := none
  list _ _ := none
  truth n := n != 0
  int n := n
  tupleLength _ := none

/-- `consteval(print(0))` -/
def printStmt : Stmt Nat :=
  .expr (.call (.name "consteval" .load) [.call (.name "print" .load) [.constant (.plain 0)] []] [])

/-- A function that assigns 1 to `x` and has these statements in a `finally` clause. -/
def cleanup (finalbody : List (Stmt Nat)) : Module Nat :=
  [.definition .function "f" [] [.tryStmt false [.assign [.name "x" .store] (.constant (.plain 1))] [] [] finalbody] []]

/-- The printing is done by the compiler, and the `try` is left with neither a handler nor a `finally` clause. -/
theorem finally_emptied : listWellFormed (cleanup [printStmt]) = true ∧
    ∃ out ctx, runPipeline (createDefaultPipeline printing) (cleanup [printStmt]) ⟨.empty, ()⟩ = some ((out, true), ctx) ∧
      listWellFormed out = false :=
  ⟨rfl, _, _, rfl, rfl⟩

theorem finally_kept : ∃ r, runPipeline (createDefaultPipeline printing) (cleanup [printStmt, .pass]) ⟨.empty, ()⟩ = some r ∧
    listWellFormed r.1.1 = true ∧ (listWellFormed r.1.1 = true ↔ FinallyKept printing (cleanup [printStmt, .pass]) ()) :=
  ⟨_, rfl, rfl, pipeline_wellFormed_iff rfl⟩

end

end NumbaCudaMlir.AstTransforms

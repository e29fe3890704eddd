import Mathlib.Data.Bool.Basic
import Mathlib.Logic.Function.Basic

/-!
# Syntax trees

The statements of Python's `ast`, which trees `compile` takes, and the visitors that
put any number of statements in the place of one. What a visitor does to what is left
of a tree follows from what it does to one statement.
-/

namespace SyntaxTree

abbrev Name := String

inductive Ctx where
  | load
  | store
  | del
  deriving DecidableEq

mutual

/-- Expressions, with the generators, keywords and patterns inside them. -/
inductive Node (ο : Type) where
  | constant (v : Value ο)
  | name (x : Name) (ctx : Ctx)
  | attribute (value : Node ο) (attr : Name)
  | subscript (value slice : Node ο) (ctx : Ctx)
  | call (func : Node ο) (args keywords : List (Node ο))
  | generatorExp (elt : Node ο) (generators : List (Node ο))
  | comprehension (target iter : Node ο) (ifs : List (Node ο))
  -- a tuple or a list
  | sequence (elts : List (Node ο))
  | starred (value : Node ο)
  -- of any other class, named in the label with its fields that are no nodes
  | other (label : String) (children : List (Node ο))

inductive Value (ο : Type) where
  | none
  -- an `int`, `float`, `str`, `bool` or `bytes`
  | plain (o : ο)
  | tuple (vs : List (Value ο))
  -- an expression, as an object
  | node (e : Node ο)
  | object (o : ο)

end

structure WithItem (ο : Type) where
  contextExpr : Node ο
  optionalVars : Option (Node ο)

inductive DefKind where
  | function
  | asyncFunction
  | classDef
  deriving DecidableEq

mutual

inductive Stmt (ο : Type) where
  -- what is visited before the body, and after it
  | definition (kind : DefKind) (name : Name) (head : List (Node ο)) (body : List (Stmt ο)) (tail : List (Node ο))
  | assign (targets : List (Node ο)) (value : Node ο)
  | annAssign (target annotation : Node ο) (value : Option (Node ο))
  | expr (value : Node ο)
  | pass
  | break
  | continue
  -- the other statements without statements inside
  | simple (label : String) (fields : List (Node ο))
  | forLoop (isAsync : Bool) (target iter : Node ο) (body orelse : List (Stmt ο))
  | whileLoop (test : Node ο) (body orelse : List (Stmt ο))
  | ifStmt (test : Node ο) (body orelse : List (Stmt ο))
  | withStmt (isAsync : Bool) (items : List (WithItem ο)) (body : List (Stmt ο))
  | matchStmt (subject : Node ο) (cases : List (Clause ο))
  | tryStmt (star : Bool) (body : List (Stmt ο)) (handlers : List (Clause ο)) (orelse finalbody : List (Stmt ο))
  -- no statement: a list in the place of one
  | nested (stmts : List (Stmt ο))

/-- An `except` handler with its type, or a `case` with its pattern and guard. -/
inductive Clause (ο : Type) where
  | mk (head : List (Node ο)) (body : List (Stmt ο))

end

section
variable {ο : Type}

/-! ## Which trees are accepted -/

mutual

def Stmt.wellFormed : Stmt ο → Bool
  | .definition _ _ _ body _ | .withStmt _ _ body => !body.isEmpty && listWellFormed body
  | .assign .. | .annAssign .. | .expr _ | .pass | .break | .continue | .simple .. => true
  | .forLoop _ _ _ body orelse | .whileLoop _ body orelse | .ifStmt _ body orelse =>
    !body.isEmpty && listWellFormed body && listWellFormed orelse
  | .matchStmt _ cases => clausesWellFormed cases
  | .tryStmt _ body handlers orelse finalbody =>
    !body.isEmpty && listWellFormed body && clausesWellFormed handlers && listWellFormed orelse &&
      listWellFormed finalbody && (!handlers.isEmpty || !finalbody.isEmpty)
  | .nested _ => false

def listWellFormed : List (Stmt ο) → Bool
  | [] => true
  | s :: ss => s.wellFormed && listWellFormed ss

def clausesWellFormed : List (Clause ο) → Bool
  | [] => true
  | .mk _ body :: cs => !body.isEmpty && listWellFormed body && clausesWellFormed cs

end

/-! ## What is left of a tree -/

/-- Of some statements: whether any is left, and whether each `try` that is left has
a handler or something in its `finally` clause. -/
structure Report where
  leaves : Bool
  sound : Bool
  deriving DecidableEq

namespace Report

def nothing : Report := ⟨false, true⟩

/-- A statement that stays, around what is left inside it. -/
def keep (sound : Bool) : Report := ⟨true, sound⟩

def append (r r' : Report) : Report := ⟨r.leaves || r'.leaves, r.sound && r'.sound⟩

/-- An `if` whose test is known is replaced by one of its branches. -/
def branch : Option Bool → Report → Report → Report
  | some true, body, _ => body
  | some false, _, orelse => orelse
  | none, body, orelse => keep (body.sound && orelse.sound)

def tryStmt (handled : Bool) (body handlers orelse finalbody : Report) : Report :=
  keep (body.sound && handlers.sound && orelse.sound && finalbody.sound && (handled || finalbody.leaves))

@[simp] theorem append_nothing (r : Report) : r.append nothing = r := by simp [append, nothing]

@[simp] theorem nothing_append (r : Report) : nothing.append r = r := by simp [append, nothing]

theorem append_assoc (r s t : Report) : (r.append s).append t = r.append (s.append t) := by
  simp [append, Bool.or_assoc, Bool.and_assoc]

end Report

/-- Which tests are known, and which expressions vanish as statements. -/
structure Reading (ο : Type) where
  known : Node ο → Option Bool
  vanishes : Node ο → Bool

/-- The report of a statement, from the reports of the lists inside it. -/
def Stmt.step (R : Reading ο) (list : List (Stmt ο) → Report) (clauses : List (Clause ο) → Report) : Stmt ο → Report
  | .definition _ _ _ body _ | .withStmt _ _ body => .keep (list body).sound
  | .assign .. | .annAssign .. | .pass | .break | .continue | .simple .. => .keep true
  | .expr e => ⟨!R.vanishes e, true⟩
  | .forLoop _ _ _ body orelse | .whileLoop _ body orelse => .keep ((list body).sound && (list orelse).sound)
  | .ifStmt test body orelse => .branch (R.known test) (list body) (list orelse)
  | .matchStmt _ cases => .keep (clauses cases).sound
  | .tryStmt _ body handlers orelse finalbody =>
    .tryStmt (!handlers.isEmpty) (list body) (clauses handlers) (list orelse) (list finalbody)
  | .nested _ => .keep false

mutual

def Stmt.report (R : Reading ο) : Stmt ο → Report
  | .definition _ _ _ body _ | .withStmt _ _ body => .keep (listReport R body).sound
  | .assign .. | .annAssign .. | .pass | .break | .continue | .simple .. => .keep true
  | .expr e => ⟨!R.vanishes e, true⟩
  | .forLoop _ _ _ body orelse | .whileLoop _ body orelse =>
    .keep ((listReport R body).sound && (listReport R orelse).sound)
  | .ifStmt test body orelse => .branch (R.known test) (listReport R body) (listReport R orelse)
  | .matchStmt _ cases => .keep (clausesReport R cases).sound
  | .tryStmt _ body handlers orelse finalbody =>
    .tryStmt (!handlers.isEmpty) (listReport R body) (clausesReport R handlers) (listReport R orelse) (listReport R finalbody)
  | .nested _ => .keep false

def listReport (R : Reading ο) : List (Stmt ο) → Report
  | [] => .nothing
  | s :: ss => (s.report R).append (listReport R ss)

def clausesReport (R : Reading ο) : List (Clause ο) → Report
  | [] => .nothing
  | .mk _ body :: cs => (Report.keep (listReport R body).sound).append (clausesReport R cs)

end

theorem Stmt.report_eq (R : Reading ο) (s : Stmt ο) : s.report R = s.step R (listReport R) (clausesReport R) := by
  cases s <;> rfl

@[simp] theorem listReport_append (R : Reading ο) (ss ts : List (Stmt ο)) :
    listReport R (ss ++ ts) = (listReport R ss).append (listReport R ts) := by
  induction ss with
  | nil => simp [listReport]
  | cons s ss ih => simp only [List.cons_append, listReport, ih, Report.append_assoc]

@[simp] theorem listReport_singleton (R : Reading ο) (s : Stmt ο) : listReport R [s] = s.report R := by
  simp [listReport]

/-! ## Visitors -/

/-- What a `NodeTransformer` with attributes `τ` makes of a statement, and of the body
of a clause, after `generic_visit`. -/
structure Visitor (ο τ : Type) where
  stmt : Stmt ο → τ → List (Stmt ο) × τ
  clauseBody : List (Stmt ο) → τ → List (Stmt ο) × τ

variable {τ : Type}

namespace Visitor

mutual

def visit (V : Visitor ο τ) : Stmt ο → τ → List (Stmt ο) × τ
  | .definition kind name head body tail, st =>
    let b := V.visitList body st
    V.stmt (.definition kind name head b.1 tail) b.2
  | .assign targets value, st => V.stmt (.assign targets value) st
  | .annAssign target annotation value, st => V.stmt (.annAssign target annotation value) st
  | .expr value, st => V.stmt (.expr value) st
  | .pass, st => V.stmt .pass st
  | .break, st => V.stmt .break st
  | .continue, st => V.stmt .continue st
  | .simple label fields, st => V.stmt (.simple label fields) st
  | .forLoop isAsync target iter body orelse, st =>
    let b := V.visitList body st
    let o := V.visitList orelse b.2
    V.stmt (.forLoop isAsync target iter b.1 o.1) o.2
  | .whileLoop test body orelse, st =>
    let b := V.visitList body st
    let o := V.visitList orelse b.2
    V.stmt (.whileLoop test b.1 o.1) o.2
  | .ifStmt test body orelse, st =>
    let b := V.visitList body st
    let o := V.visitList orelse b.2
    V.stmt (.ifStmt test b.1 o.1) o.2
  | .withStmt isAsync items body, st =>
    let b := V.visitList body st
    V.stmt (.withStmt isAsync items b.1) b.2
  | .matchStmt subject cases, st =>
    let c := V.visitClauses cases st
    V.stmt (.matchStmt subject c.1) c.2
  | .tryStmt star body handlers orelse finalbody, st =>
    let b := V.visitList body st
    let h := V.visitClauses handlers b.2
    let o := V.visitList orelse h.2
    let f := V.visitList finalbody o.2
    V.stmt (.tryStmt star b.1 h.1 o.1 f.1) f.2
  -- not a node: stays in the list as it is
  | .nested stmts, st => ([.nested stmts], st)

/-- The statements put in the place of one go into the list around it. -/
def visitList (V : Visitor ο τ) : List (Stmt ο) → τ → List (Stmt ο) × τ
  | [], st => ([], st)
  | s :: ss, st =>
    let r := V.visit s st
    let rs := V.visitList ss r.2
    (r.1 ++ rs.1, rs.2)

def visitClauses (V : Visitor ο τ) : List (Clause ο) → τ → List (Clause ο) × τ
  | [], st => ([], st)
  | .mk head body :: cs, st =>
    let b := V.visitList body st
    let c := V.clauseBody b.1 b.2
    let rs := V.visitClauses cs c.2
    (.mk head c.1 :: rs.1, rs.2)

end

/-- What the visitor makes of a statement, read by `R'`, is what `R` reads in the
statement, if `R'` has read what is inside. -/
structure Refines (V : Visitor ο τ) (R R' : Reading ο) : Prop where
  stmt : ∀ s st, listReport R' (V.stmt s st).1 = s.step R (listReport R') (clausesReport R')
  clauseBody : ∀ b st, (V.clauseBody b st).1 = b

variable (V : Visitor ο τ)

@[simp] theorem visitClauses_isEmpty (cs : List (Clause ο)) (st : τ) : (V.visitClauses cs st).1.isEmpty = cs.isEmpty := by
  cases cs with
  | nil => rfl
  | cons c cs => cases c; rfl

variable {V} {R R' : Reading ο}

mutual

theorem Refines.visit (hV : V.Refines R R') : ∀ (s : Stmt ο) (st : τ), listReport R' (V.visit s st).1 = s.report R
  | .definition kind name head body tail, st => by
    simp only [Visitor.visit, hV.stmt, Stmt.step, Stmt.report, hV.visitList body]
  | .assign targets value, st => by simp only [Visitor.visit, hV.stmt, Stmt.step, Stmt.report]
  | .annAssign target annotation value, st => by simp only [Visitor.visit, hV.stmt, Stmt.step, Stmt.report]
  | .expr value, st => by simp only [Visitor.visit, hV.stmt, Stmt.step, Stmt.report]
  | .pass, st => by simp only [Visitor.visit, hV.stmt, Stmt.step, Stmt.report]
  | .break, st => by simp only [Visitor.visit, hV.stmt, Stmt.step, Stmt.report]
  | .continue, st => by simp only [Visitor.visit, hV.stmt, Stmt.step, Stmt.report]
  | .simple label fields, st => by simp only [Visitor.visit, hV.stmt, Stmt.step, Stmt.report]
  | .forLoop isAsync target iter body orelse, st => by
    simp only [Visitor.visit, hV.stmt, Stmt.step, Stmt.report, hV.visitList body, hV.visitList orelse]
  | .whileLoop test body orelse, st => by
    simp only [Visitor.visit, hV.stmt, Stmt.step, Stmt.report, hV.visitList body, hV.visitList orelse]
  | .ifStmt test body orelse, st => by
    simp only [Visitor.visit, hV.stmt, Stmt.step, Stmt.report, hV.visitList body, hV.visitList orelse]
  | .withStmt isAsync items body, st => by
    simp only [Visitor.visit, hV.stmt, Stmt.step, Stmt.report, hV.visitList body]
  | .matchStmt subject cases, st => by
    simp only [Visitor.visit, hV.stmt, Stmt.step, Stmt.report, hV.visitClauses cases]
  | .tryStmt star body handlers orelse finalbody, st => by
    simp only [Visitor.visit, hV.stmt, Stmt.step, Stmt.report, visitClauses_isEmpty, hV.visitList body,
      hV.visitClauses handlers, hV.visitList orelse, hV.visitList finalbody]
  | .nested stmts, st => by simp only [Visitor.visit, listReport_singleton, Stmt.report]

theorem Refines.visitList (hV : V.Refines R R') : ∀ (ss : List (Stmt ο)) (st : τ),
    listReport R' (V.visitList ss st).1 = listReport R ss
  | [], st => rfl
  | s :: ss, st => by
    simp only [Visitor.visitList, listReport_append, listReport, hV.visit s, hV.visitList ss]

theorem Refines.visitClauses (hV : V.Refines R R') : ∀ (cs : List (Clause ο)) (st : τ),
    clausesReport R' (V.visitClauses cs st).1 = clausesReport R cs
  | [], st => rfl
  | .mk head body :: cs, st => by
    simp only [Visitor.visitClauses, clausesReport, hV.clauseBody, hV.visitList body, hV.visitClauses cs]

end

end Visitor

end

end SyntaxTree

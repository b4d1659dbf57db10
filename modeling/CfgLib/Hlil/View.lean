import CfgLib.Lib.Loop
import Mathlib.Data.List.Basic
import Mathlib.Data.List.Nodup
import Mathlib.Data.List.Range
import Mathlib.Logic.Relation
import Mathlib.Tactic.Common

/-!
# Structured functions

The read-only view of one structured function: statements and expressions by
their handles, the child bodies of a statement with their declaration-scope
role, and the two walks over a function that keep a stack of their own.
-/

namespace CfgLib.Hlil

open Relation List
open Lib

inductive HandlerKind where
  | catch
  | catchAll
  | fault
  | filter (filterBody : List Nat)

structure Handler where
  kind : HandlerKind
  body : List Nat

inductive ExprShape where
  | variable (v : Nat)
  | constant
  | operation (operands : List Nat)

/-- The shape of one statement; a view lends the arms of a switch and the handlers of a try. -/
inductive StmtShape where
  | expression (e : Nat)
  | assign (target value : Nat)
  | ifStmt (condition : Nat) (thenBody elseBody : List Nat)
  | whileStmt (condition : Nat) (body : List Nat)
  | doWhile (body : List Nat) (condition : Nat)
  | loop (body : List Nat)
  | forStmt (initializer : List Nat) (condition : Option Nat) (update body : List Nat)
  | switch (scrutinee : Nat) (defaultBody : List Nat)
  | breakStmt
  | continueStmt
  | returnStmt (values : List Nat)
  | labeled (body : List Nat)
  | goto
  | tryStmt (body finallyBody : List Nat)
  | region (operands body : List Nat)

/-- Whether a child body opens a scope of its own or belongs to the syntax of its parent. -/
inductive ChildBodyKind where
  | lexical
  | clause
  deriving DecidableEq

/-- A structured function over the handles of a dense storage. -/
structure FunctionView where
  stmtCount : Nat
  variableCount : Nat
  exprCount : Nat
  body : List Nat
  stmt : Nat → StmtShape
  switchArms : Nat → List (List Nat)
  handlers : Nat → List Handler
  expr : Nat → ExprShape

namespace FunctionView

variable (F : FunctionView)

/-- Every child body of a statement in execution order, with its declaration-scope role. -/
def childBodies (s : Nat) : List (List Nat × ChildBodyKind) :=
  match F.stmt s with
  | .expression _ | .assign _ _ | .breakStmt | .continueStmt | .returnStmt _ | .goto => []
  | .ifStmt _ thenBody elseBody => [(thenBody, .lexical), (elseBody, .lexical)]
  | .whileStmt _ body | .doWhile body _ | .loop body | .labeled body | .region _ body => [(body, .lexical)]
  | .forStmt initializer _ update body => [(initializer, .clause), (body, .lexical), (update, .clause)]
  | .switch _ defaultBody => (F.switchArms s).map (·, .lexical) ++ [(defaultBody, .lexical)]
  | .tryStmt body finallyBody =>
    (body, .lexical) :: (F.handlers s).flatMap (fun handler =>
      match handler.kind with
      | .filter filterBody => [(filterBody, .lexical), (handler.body, .lexical)]
      | _ => [(handler.body, .lexical)]) ++ [(finallyBody, .lexical)]

def statementExpressions (s : Nat) : List Nat :=
  match F.stmt s with
  | .expression e => [e]
  | .assign target value => [target, value]
  | .ifStmt condition _ _ | .whileStmt condition _ | .doWhile _ condition | .switch condition _ => [condition]
  | .forStmt _ condition _ _ => condition.toList
  | .returnStmt operands | .region operands _ => operands
  | _ => []

def operands (e : Nat) : List Nat :=
  match F.expr e with
  | .operation operands => operands
  | _ => []

/-- One turn of the walk over statements: the bodies still to visit, the next on top, and the
statements visited. -/
def statementTurn : List (List Nat) × List Nat → Option (List (List Nat) × List Nat)
  | ([], _) => none
  | ([] :: pending, visited) => some (pending, visited)
  | ((s :: body) :: pending, visited) =>
    some ((F.childBodies s).map (·.1) ++ body :: pending, visited ++ [s])

def visitStatements (fuel : Nat) (roots : List Nat) : List Nat :=
  (iterate F.statementTurn fuel ([roots], [])).2

/-- One turn of the walk over an expression tree: each entry is an expression and the position of
its next operand. -/
def expressionTurn : List (Nat × Nat) × List Nat → Option (List (Nat × Nat) × List Nat)
  | ([], _) => none
  | ((e, next) :: pending, visited) =>
    match (F.operands e)[next]? with
    | some operand => some ((operand, 0) :: (e, next + 1) :: pending, visited)
    | none => some (pending, visited ++ [e])

def visitExpressionTree (fuel root : Nat) : List Nat :=
  (iterate F.expressionTurn fuel ([(root, 0)], [])).2

/-! ## The contract -/

def lexicalBodies (s : Nat) : List (List Nat) := ((F.childBodies s).filter (·.2 = .lexical)).map (·.1)

/-- The child bodies that belong to the syntax of the statement. -/
def clauses (s : Nat) : List (List Nat) := ((F.childBodies s).filter (·.2 = .clause)).map (·.1)

def Child (s t : Nat) : Prop := ∃ b ∈ F.childBodies s, t ∈ b.1

def LexicalChild (s t : Nat) : Prop := ∃ b ∈ F.lexicalBodies s, t ∈ b

/-- What the storage of a function promises of the handles that it lends. -/
structure Contract : Prop where
  listed_once : (F.body ++ (List.range F.stmtCount).flatMap fun s => (F.childBodies s).flatMap (·.1)).Nodup
  body_lt : ∀ s ∈ F.body, s < F.stmtCount
  child_lt : ∀ s t, s < F.stmtCount → F.Child s t → t < s
  expression_lt : ∀ s, s < F.stmtCount → ∀ e ∈ F.statementExpressions s, e < F.exprCount
  operand_lt : ∀ e, e < F.exprCount → ∀ operand ∈ F.operands e, operand < e
  variable_lt : ∀ e v, e < F.exprCount → F.expr e = .variable v → v < F.variableCount

variable {F}

variable {b : List Nat} {s t : Nat}

theorem mem_lexicalBodies : b ∈ F.lexicalBodies s ↔ (b, .lexical) ∈ F.childBodies s := by
  rw [lexicalBodies, mem_map]
  constructor
  · intro h
    obtain ⟨⟨b', kind⟩, hmem, rfl⟩ := h
    obtain ⟨hmem, hkind⟩ := mem_filter.mp hmem
    cases of_decide_eq_true hkind
    exact hmem
  · intro h
    exact ⟨_, mem_filter.mpr ⟨h, decide_eq_true rfl⟩, rfl⟩

theorem mem_clauses : b ∈ F.clauses s ↔ (b, .clause) ∈ F.childBodies s := by
  rw [clauses, mem_map]
  constructor
  · intro h
    obtain ⟨⟨b', kind⟩, hmem, rfl⟩ := h
    obtain ⟨hmem, hkind⟩ := mem_filter.mp hmem
    cases of_decide_eq_true hkind
    exact hmem
  · intro h
    exact ⟨_, mem_filter.mpr ⟨h, decide_eq_true rfl⟩, rfl⟩

theorem LexicalChild.child (h : F.LexicalChild s t) : F.Child s t := by
  obtain ⟨b, hb, ht⟩ := h
  exact ⟨_, mem_lexicalBodies.mp hb, ht⟩

theorem Contract.below_lt (hF : F.Contract) (hs : s < F.stmtCount) (h : ReflTransGen F.Child s t) : t ≤ s := by
  induction h with
  | refl => exact le_rfl
  | tail _ hchild ih => exact (hF.child_lt _ _ (ih.trans_lt hs) hchild).le.trans ih

/-! ## The walks -/

/-- The walk visits a statement and what stands below it, and goes on behind it. -/
def Walks (F : FunctionView) (s : Nat) : Prop :=
  ∀ body pending visited, ∃ k more, Steps F.statementTurn k ((s :: body) :: pending, visited)
    (body :: pending, visited ++ more) ∧ ∀ t, t ∈ more ↔ ReflTransGen F.Child s t

theorem walk_body (h : ∀ s ∈ b, F.Walks s) : ∀ pending visited, ∃ k more,
    Steps F.statementTurn k (b :: pending, visited) (pending, visited ++ more) ∧
      ∀ t, t ∈ more ↔ ∃ s ∈ b, ReflTransGen F.Child s t := by
  induction b with
  | nil => exact fun pending visited => ⟨1, [], by rw [append_nil]; exact .single rfl, by simp⟩
  | cons s b ih =>
    intro pending visited
    obtain ⟨k, more, hsteps, hmore⟩ := h s mem_cons_self b pending visited
    obtain ⟨l, after, hsteps', hafter⟩ := ih (fun t ht => h t (mem_cons_of_mem _ ht)) pending (visited ++ more)
    refine ⟨k + l, more ++ after, ?_, fun t => ?_⟩
    · rw [← append_assoc]
      exact hsteps.trans hsteps'
    · rw [mem_append, hmore, hafter, exists_mem_cons_iff]

theorem walk_bodies {bodies : List (List Nat)} (h : ∀ b ∈ bodies, ∀ s ∈ b, F.Walks s) : ∀ pending visited, ∃ k more,
    Steps F.statementTurn k (bodies ++ pending, visited) (pending, visited ++ more) ∧
      ∀ t, t ∈ more ↔ ∃ b ∈ bodies, ∃ s ∈ b, ReflTransGen F.Child s t := by
  induction bodies with
  | nil => exact fun pending visited => ⟨0, [], by rw [append_nil]; exact .zero _, by simp⟩
  | cons b bodies ih =>
    intro pending visited
    obtain ⟨k, more, hsteps, hmore⟩ := walk_body (h b mem_cons_self) (bodies ++ pending) visited
    obtain ⟨l, after, hsteps', hafter⟩ := ih (fun c hc => h c (mem_cons_of_mem _ hc)) pending (visited ++ more)
    refine ⟨k + l, more ++ after, ?_, fun t => ?_⟩
    · rw [← append_assoc]
      exact hsteps.trans hsteps'
    · rw [mem_append, hmore, hafter, exists_mem_cons_iff]

theorem below_iff : ReflTransGen F.Child s t ↔ t = s ∨
    ∃ b ∈ (F.childBodies s).map (·.1), ∃ u ∈ b, ReflTransGen F.Child u t := by
  rw [ReflTransGen.cases_head_iff, eq_comm]
  refine or_congr Iff.rfl ⟨fun h => ?_, fun h => ?_⟩
  · obtain ⟨u, ⟨b, hb, hu⟩, hpath⟩ := h
    exact ⟨b.1, mem_map_of_mem hb, u, hu, hpath⟩
  · obtain ⟨c, hc, u, hu, hpath⟩ := h
    obtain ⟨b, hb, rfl⟩ := mem_map.mp hc
    exact ⟨u, ⟨b, hb, hu⟩, hpath⟩

theorem Contract.walks (hF : F.Contract) (hs : s < F.stmtCount) : F.Walks s := by
  induction s using Nat.strong_induction_on with
  | _ s ih =>
    intro body pending visited
    have hchildren : ∀ b ∈ (F.childBodies s).map (·.1), ∀ t ∈ b, F.Walks t := by
      intro b hb t ht
      obtain ⟨pair, hpair, rfl⟩ := mem_map.mp hb
      have hlt := hF.child_lt s t hs ⟨pair, hpair, ht⟩
      exact ih t hlt (hlt.trans hs)
    obtain ⟨k, more, hsteps, hmore⟩ := walk_bodies hchildren (body :: pending) (visited ++ [s])
    refine ⟨k + 1, s :: more, .succ rfl ?_, fun t => ?_⟩
    · rwa [append_assoc] at hsteps
    · rw [mem_cons, hmore, below_iff]

theorem Contract.visitStatements_spec (hF : F.Contract) {roots : List Nat} (hroots : ∀ s ∈ roots, s < F.stmtCount) :
    ∃ n, ∀ fuel, n ≤ fuel → ∀ t, t ∈ F.visitStatements fuel roots ↔ ∃ s ∈ roots, ReflTransGen F.Child s t := by
  obtain ⟨k, more, hsteps, hmore⟩ := walk_body (fun s hs => hF.walks (hroots s hs)) [] []
  refine ⟨k, fun fuel hfuel t => ?_⟩
  rw [visitStatements, hsteps.iterate_eq rfl hfuel]
  exact hmore t

def Operand (F : FunctionView) (e f : Nat) : Prop := f ∈ F.operands e

theorem Contract.walk_expression (hF : F.Contract) {e : Nat} (he : e < F.exprCount) : ∀ pending visited, ∃ k more,
    Steps F.expressionTurn k ((e, 0) :: pending, visited) (pending, visited ++ more) ∧
      ∀ f, f ∈ more ↔ ReflTransGen F.Operand e f := by
  induction e using Nat.strong_induction_on with
  | _ e ih =>
    -- from the operand at `next` on
    have hrest : ∀ m next, next + m = (F.operands e).length → ∀ pending visited, ∃ k more,
        Steps F.expressionTurn k ((e, next) :: pending, visited) (pending, visited ++ more) ∧
          ∀ f, f ∈ more ↔ f = e ∨ ∃ operand ∈ (F.operands e).drop next, ReflTransGen F.Operand operand f := by
      intro m
      induction m with
      | zero =>
        intro next hnext pending visited
        rw [Nat.add_zero] at hnext
        refine ⟨1, [e], .single ?_, fun f => ?_⟩
        · rw [expressionTurn, getElem?_eq_none hnext.ge]
        · rw [drop_eq_nil_of_le hnext.ge]
          simp
      | succ m ihm =>
        intro next hnext pending visited
        have hlt : next < (F.operands e).length := by omega
        have hmem : (F.operands e)[next] ∈ F.operands e := getElem_mem hlt
        have hoperand := hF.operand_lt e he _ hmem
        obtain ⟨k, more, hsteps, hmore⟩ := ih _ hoperand (hoperand.trans he) ((e, next + 1) :: pending) visited
        obtain ⟨l, after, hsteps', hafter⟩ := ihm (next + 1) (by omega) pending (visited ++ more)
        have hturn : F.expressionTurn ((e, next) :: pending, visited) =
            some (((F.operands e)[next], 0) :: (e, next + 1) :: pending, visited) := by
          rw [expressionTurn, getElem?_eq_getElem hlt]
        refine ⟨k + l + 1, more ++ after, .succ hturn ?_, fun f => ?_⟩
        · rw [← append_assoc]
          exact hsteps.trans hsteps'
        · rw [mem_append, hmore, hafter, drop_eq_getElem_cons hlt, exists_mem_cons_iff]
          tauto
    intro pending visited
    obtain ⟨k, more, hsteps, hmore⟩ := hrest _ 0 (Nat.zero_add _) pending visited
    refine ⟨k, more, hsteps, fun f => ?_⟩
    rw [hmore, drop_zero, ReflTransGen.cases_head_iff, eq_comm]
    rfl

theorem Contract.visitExpressionTree_spec (hF : F.Contract) {e : Nat} (he : e < F.exprCount) :
    ∃ n, ∀ fuel, n ≤ fuel → ∀ f, f ∈ F.visitExpressionTree fuel e ↔ ReflTransGen F.Operand e f := by
  obtain ⟨k, more, hsteps, hmore⟩ := hF.walk_expression he [] []
  refine ⟨k, fun fuel hfuel f => ?_⟩
  rw [visitExpressionTree, hsteps.iterate_eq rfl hfuel]
  exact hmore f

end FunctionView

end CfgLib.Hlil

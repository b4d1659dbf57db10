import CfgLib.Hlil.View
import CfgLib.Lib.FiniteMap
import Mathlib.Data.Finset.Sort

/-!
# Declaration anchors

Where the declaration of each variable goes: before the first statement of the
narrowest lexical body that holds all its occurrences.  The analysis keeps its
own stack of the statements it is inside; each frame holds the one child body
that is being analyzed, and the frame below receives the variables of a
statement when it is done.
-/

namespace CfgLib.Hlil

open Relation
open Lib

/-- The anchor of each variable, by variable index. -/
abbrev Placements := List (Option Nat)

def place (placements : Placements) (v statement : Nat) : Placements := placements.set v (some statement)

structure BodyFrame where
  statements : List Nat
  contained : Finset Nat
  firstStatement : FiniteMap Nat Nat

def BodyFrame.new (body : List Nat) : BodyFrame := ⟨body, ∅, .empty⟩

def BodyFrame.takeInVariable (statement : Nat) (s : BodyFrame × Placements) (v : Nat) : BodyFrame × Placements :=
  match s.1.firstStatement.get v with
  | some first => ({ s.1 with contained := insert v s.1.contained }, place s.2 v first)
  | none =>
    ({ s.1 with contained := insert v s.1.contained, firstStatement := s.1.firstStatement.insert v statement }, s.2)

/-- Take in the variables of the statement just analyzed; one that a second statement shares
anchors before the first. -/
def BodyFrame.takeInStatement (body : BodyFrame) (statement : Nat) (vars : Finset Nat) (placements : Placements) :
    BodyFrame × Placements :=
  (vars.sort (· ≤ ·)).foldl (takeInVariable statement) (body, placements)

/-- A statement whose child bodies are being analyzed. -/
structure StatementFrame where
  statement : Nat
  owned : Finset Nat
  components : FiniteMap Nat Nat
  bodies : List (List Nat)
  body : BodyFrame

def countComponent (components : FiniteMap Nat Nat) (v : Nat) : FiniteMap Nat Nat :=
  components.insert v ((components.get v).getD 0 + 1)

namespace FunctionView

variable (F : FunctionView) (fuel : Nat)

def collectExpression (vars : Finset Nat) (root : Nat) : Finset Nat :=
  (F.visitExpressionTree fuel root).foldl (fun vars e =>
    match F.expr e with
    | .variable v => insert v vars
    | _ => vars) vars

def collectStatement (vars : Finset Nat) (s : Nat) : Finset Nat :=
  (F.statementExpressions s).foldl (F.collectExpression fuel) vars

/-- Every variable that a body mentions, nested statements included. -/
def collectBody (body : List Nat) : Finset Nat :=
  (F.visitStatements fuel body).foldl (F.collectStatement fuel) ∅

/-- Take in one child body of a new statement frame: a clause is owned, a lexical body waits. -/
def takeInChild (s : Finset Nat × FiniteMap Nat Nat × List (List Nat)) (child : List Nat × ChildBodyKind) :
    Finset Nat × FiniteMap Nat Nat × List (List Nat) :=
  match child.2 with
  | .lexical => (s.1, s.2.1, s.2.2 ++ [child.1])
  | .clause =>
    let vars := F.collectBody fuel child.1
    (s.1 ∪ vars, (vars.sort (· ≤ ·)).foldl countComponent s.2.1, s.2.2)

def newStatementFrame (statement : Nat) : StatementFrame :=
  let owned := F.collectStatement fuel ∅ statement
  let s := (F.childBodies statement).foldl (F.takeInChild fuel) (owned, .constant owned 1, [])
  ⟨statement, s.1, s.2.1, s.2.2.tail, .new (s.2.2.headD [])⟩

end FunctionView

/-- Count the variables of the lexical body just analyzed as one more component each. -/
def StatementFrame.takeInBody (frame : StatementFrame) : StatementFrame :=
  { frame with
    components := (frame.body.contained.sort (· ≤ ·)).foldl countComponent frame.components
    body := { frame.body with contained := ∅ } }

/-- Anchor the variables that no narrower body can hold. -/
def StatementFrame.finish (frame : StatementFrame) (placements : Placements) : Finset Nat × Placements :=
  (frame.components.keys, (frame.components.keys.sort (· ≤ ·)).foldl (fun placements v =>
    if v ∈ frame.owned ∨ 1 < (frame.components.get v).getD 0 then place placements v frame.statement
    else placements) placements)

/-- The analysis between two turns: the open statements, the innermost first. -/
structure Anchoring where
  root : BodyFrame
  opened : List StatementFrame
  placements : Placements

namespace Anchoring

def body (s : Anchoring) : BodyFrame :=
  match s.opened with
  | [] => s.root
  | frame :: _ => frame.body

def update (s : Anchoring) (body : BodyFrame) (placements : Placements) : Anchoring :=
  match s.opened with
  | [] => { s with root := body, placements }
  | frame :: below => { s with opened := { frame with body } :: below, placements }

/-- The statement is done: the body around it takes its variables in. -/
def absorb (s : Anchoring) (statement : Nat) (vars : Finset Nat) (placements : Placements) : Anchoring :=
  let taken := s.body.takeInStatement statement vars placements
  s.update taken.1 taken.2

end Anchoring

namespace FunctionView

variable (F : FunctionView) (fuel : Nat)

/-- One turn of the analysis: into the next statement, into the next body of the innermost open
statement, or out of it. -/
def anchorTurn (s : Anchoring) : Option Anchoring :=
  match s.body.statements with
  | statement :: rest =>
    let s := s.update { s.body with statements := rest } s.placements
    some { s with opened := F.newStatementFrame fuel statement :: s.opened }
  | [] =>
    match s.opened with
    | [] => none
    | frame :: below =>
      let frame := frame.takeInBody
      match frame.bodies with
      | next :: more => some { s with opened := { frame with bodies := more, body := .new next } :: below }
      | [] =>
        let finished := frame.finish s.placements
        some (Anchoring.absorb { s with opened := below } frame.statement finished.1 finished.2)

/-- The declaration anchors of every referenced variable; `turns` bounds the analysis and `fuel` the
walks in a turn of it. -/
def anchorVariables (turns : Nat) : Placements :=
  (iterate (F.anchorTurn fuel) turns ⟨.new F.body, [], List.replicate F.variableCount none⟩).placements

/-- The statement that a variable's declaration immediately precedes. -/
def placement (turns v : Nat) : Option Nat := ((F.anchorVariables fuel turns)[v]?).join

/-- The variables whose declarations anchor immediately before a statement, in variable order. -/
def before (turns statement : Nat) : List Nat :=
  (List.range F.variableCount).filter fun v => F.placement fuel turns v = some statement

end FunctionView

end CfgLib.Hlil

import CfgLib.Analysis.ControlTree

/-!
# Predicated regions

`analysis/control_tree/predicated.rs`: every maximal run of instructions that share a
predicate becomes a guarded region.  The rewrite keeps a stack of its own in the source;
here it recurs over the tree.
-/

namespace CfgLib

variable {ι ν π σ : Type}

/-- A maximal run of instructions sharing one predicate. -/
structure PredicateRun (ν : Type) where
  predicate : Option (ν × Bool)
  span : BlockSpan

section Regionizer

variable [DecidableEq ν] (P : Predicated ι ν) (c : Cfg ι π)

/-- Extend the last run by an instruction, or begin the next one. -/
def extendRuns (block : Nat) (runs : List (PredicateRun ν)) (entry : Nat × ι) : List (PredicateRun ν) :=
  match runs.getLast? with
  | some run =>
    if run.predicate = P.predicate entry.2 then
      runs.dropLast ++ [⟨run.predicate, ⟨block, run.span.start, entry.1 + 1⟩⟩]
    else runs ++ [⟨P.predicate entry.2, ⟨block, entry.1, entry.1 + 1⟩⟩]
  | none => [⟨P.predicate entry.2, ⟨block, entry.1, entry.1 + 1⟩⟩]

/-- Group the instructions of a span into maximal runs sharing one predicate. -/
def predicateRuns (span : BlockSpan) : List (PredicateRun ν) :=
  (span.instructions c).foldl (extendRuns P span.block) []

/-- Wrap a segment in a guarded region when its run is predicated. -/
def guardSegment (run : PredicateRun ν) (segment : ControlNode) : ControlNode :=
  match run.predicate with
  | some (_, whenTrue) => .guarded ⟨run.span.block, run.span.start⟩ whenTrue (.ofList [segment])
  | none => segment

def sequenceOrSingle : List ControlNode → ControlNode
  | [only] => only
  | segments => .sequence (.ofList segments)

def blockSegment (run : PredicateRun ν) : ControlNode := guardSegment run (.block run.span)

/-- Split a block's instructions into guarded segments. -/
def wrapBlockRuns (span : BlockSpan) : ControlNode :=
  sequenceOrSingle ((predicateRuns P c span).map blockSegment)

/-- Split a return block's instructions into guarded segments; the final run keeps its
return. -/
def wrapReturnRuns (span : BlockSpan) : ControlNode :=
  let runs := predicateRuns P c span
  sequenceOrSingle (runs.dropLast.map blockSegment ++
    (runs.getLast?.map fun run => guardSegment run (.return run.span)).toList)

/-- Split the runs before the final one off a header, when one of them is predicated. -/
def splitHeaderRuns (condition : BlockSpan) : List ControlNode × BlockSpan :=
  let runs := predicateRuns P c condition
  match runs.getLast? with
  | none => ([], condition)
  | some last =>
    if runs.dropLast.all fun run => run.predicate.isNone then ([], condition)
    else (runs.dropLast.map blockSegment, last.span)

def withSegments (segments : List ControlNode) (node : ControlNode) : ControlNode :=
  if segments.isEmpty then node else .sequence (.ofList (segments ++ [node]))

mutual

def wrapNode : ControlNode → ControlNode
  | .block span => wrapBlockRuns P c span
  | .return span => wrapReturnRuns P c span
  | .break label => .break label
  | .continue label => .continue label
  | .goto target => .goto target
  | .sequence body => .sequence (wrapBody body)
  | .ifThenElse condition thenBody elseBody =>
    withSegments (splitHeaderRuns P c condition).1
      (.ifThenElse (splitHeaderRuns P c condition).2 (wrapBody thenBody) (wrapBody elseBody))
  | .loop header kind body => .loop header kind (wrapBody body)
  | .switch condition cases defaultBody defaultEdge =>
    withSegments (splitHeaderRuns P c condition).1
      (.switch (splitHeaderRuns P c condition).2 (wrapCases cases) (wrapBody defaultBody) defaultEdge)
  | .label block body => .label block (wrapBody body)
  | .tryCatch tryBody handlers finallyBody =>
    .tryCatch (wrapBody tryBody) (wrapHandlers handlers) (wrapBody finallyBody)
  | .guarded predicate whenTrue body => .guarded predicate whenTrue (wrapBody body)

def wrapBody : ControlBody → ControlBody
  | .nil => .nil
  | .cons node rest => .cons (wrapNode node) (wrapBody rest)

def wrapCases : SwitchCases → SwitchCases
  | .nil => .nil
  | .cons block edges body rest => .cons block edges (wrapBody body) (wrapCases rest)

def wrapHandlers : CatchHandlers → CatchHandlers
  | .nil => .nil
  | .cons handler entry kind body rest => .cons handler entry kind (wrapBody body) (wrapHandlers rest)

end

def finishRoot : ControlNode → ControlNode
  | .sequence (.cons only .nil) => only
  | root => root

/-- Regionize the predicated instructions of a structured graph. -/
def computePredicated (tree : ControlNode) : ControlNode := finishRoot (wrapNode P c tree)

end Regionizer

/-! ## The trees of the structurer -/

section Plain

variable (c : Cfg ι π)

mutual

/-- What the structurer makes: no guarded region, which only the rewrite makes, and a
return only for a block with instructions. -/
def ControlNode.Plain : ControlNode → Prop
  | .block _ | .break _ | .continue _ | .goto _ => True
  | .return span => span.instructions c ≠ []
  | .sequence body | .loop _ _ body | .label _ body => body.Plain
  | .ifThenElse _ thenBody elseBody => thenBody.Plain ∧ elseBody.Plain
  | .switch _ cases defaultBody _ => cases.Plain ∧ defaultBody.Plain
  | .tryCatch tryBody handlers finallyBody => tryBody.Plain ∧ handlers.Plain ∧ finallyBody.Plain
  | .guarded _ _ _ => False

def ControlBody.Plain : ControlBody → Prop
  | .nil => True
  | .cons node rest => node.Plain ∧ rest.Plain

def SwitchCases.Plain : SwitchCases → Prop
  | .nil => True
  | .cons _ _ body rest => body.Plain ∧ rest.Plain

def CatchHandlers.Plain : CatchHandlers → Prop
  | .nil => True
  | .cons _ _ _ body rest => body.Plain ∧ rest.Plain

end

end Plain

section Condition

variable (P : Predicated ι ν)

/-- An instruction that writes the variable of its predicate while the next one has the
same predicate. -/
def WritesGuard (a b : Nat × ι) : Prop :=
  ∃ v whenTrue, P.predicate a.2 = some (v, whenTrue) ∧ P.predicate b.2 = some (v, whenTrue) ∧ v ∈ P.defs a.2

def KeepsGuards (code : List (Nat × ι)) : Prop := code.IsChain fun a b => ¬ WritesGuard P a b

/-- Code in which an instruction does only within the final run, which stays in a header. -/
def HeaderKeepsGuards (code : List (Nat × ι)) : Prop := ∀ before a b after, code = before ++ a :: b :: after →
  WritesGuard P a b → ∀ later ∈ after, P.predicate later.2 = P.predicate a.2

variable (c : Cfg ι π)

mutual

/-- No instruction of a node writes its guard before the end of a run that is split off. -/
def ControlNode.KeepsGuards : ControlNode → Prop
  | .block span | .return span => CfgLib.KeepsGuards P (span.instructions c)
  | .break _ | .continue _ | .goto _ => True
  | .sequence body | .loop _ _ body | .label _ body | .guarded _ _ body => body.KeepsGuards
  | .ifThenElse condition thenBody elseBody =>
    HeaderKeepsGuards P (condition.instructions c) ∧ thenBody.KeepsGuards ∧ elseBody.KeepsGuards
  | .switch condition cases defaultBody _ =>
    HeaderKeepsGuards P (condition.instructions c) ∧ cases.KeepsGuards ∧ defaultBody.KeepsGuards
  | .tryCatch tryBody handlers finallyBody =>
    tryBody.KeepsGuards ∧ handlers.KeepsGuards ∧ finallyBody.KeepsGuards

def ControlBody.KeepsGuards : ControlBody → Prop
  | .nil => True
  | .cons node rest => node.KeepsGuards ∧ rest.KeepsGuards

def SwitchCases.KeepsGuards : SwitchCases → Prop
  | .nil => True
  | .cons _ _ body rest => body.KeepsGuards ∧ rest.KeepsGuards

def CatchHandlers.KeepsGuards : CatchHandlers → Prop
  | .nil => True
  | .cons _ _ _ body rest => body.KeepsGuards ∧ rest.KeepsGuards

end

end Condition

end CfgLib

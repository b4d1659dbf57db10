import CfgLib.Lib.Shadowing
import CfgLib.Store.Naive

/-!
# Stack-graph paths

`graph/stack/storage.rs` and `graph/stack/path.rs`: the node kinds, the concrete
path state, and the semantics of the node that an edge leads to.
-/

namespace CfgLib

open CfgLib.Lib CfgLib.Store

inductive StackNodeKind (S : Type)
  | root
  | scope (exported : Bool)
  | pushSymbol (symbol : S) (isReference : Bool)
  | popSymbol (symbol : S) (isDefinition : Bool)
  | pushScopedSymbol (symbol : S) (scope : Nat) (isReference : Bool)
  | popScopedSymbol (symbol : S) (isDefinition : Bool)
  | dropScopes
  | jumpToScope
  deriving DecidableEq, Repr

namespace StackNodeKind

variable {S : Type}

def isReference : StackNodeKind S → Bool
  | pushSymbol _ r | pushScopedSymbol _ _ r => r
  | _ => false

def isDefinition : StackNodeKind S → Bool
  | popSymbol _ d | popScopedSymbol _ d => d
  | _ => false

def isExportedScope : StackNodeKind S → Bool
  | scope exported => exported
  | _ => false

def isJumpToScope : StackNodeKind S → Bool
  | jumpToScope => true
  | _ => false

theorem isDefinition_of_isReference {kind : StackNodeKind S} (h : kind.isReference = true) :
    kind.isDefinition = false := by
  cases kind <;> first | rfl | cases h

end StackNodeKind

structure StackEdge where
  precedence : Int
  deriving DecidableEq, Repr

/-- A store of stack-graph nodes and edges, well formed. -/
structure StackGraph (S : Type) where
  graph : Naive (StackNodeKind S) StackEdge
  wf : graph.WF

structure StackScopedSymbol (S : Type) where
  symbol : S
  scopes : Option (List Nat)
  deriving DecidableEq, Repr

/-- A stored edge, or the virtual one from the jump node to the scope it pops. -/
inductive StackPathStep
  | edge (edge : Nat)
  | jump (source target : Nat)
  deriving DecidableEq, Repr

inductive StackPathError
  | unknownNode (node : Nat)
  | unknownEdge (edge : Nat)
  | notReference (node : Nat)
  | incorrectSource (expected actual : Nat)
  | emptySymbolStack (node : Nat)
  | incorrectPoppedSymbol (node : Nat)
  | unexpectedAttachedScopes (node : Nat)
  | missingAttachedScopes (node : Nat)
  | emptyScopeStack (node : Nat)
  | unknownAttachedScope (scope : Nat)
  deriving DecidableEq, Repr

structure StackPath (S : Type) where
  start : Nat
  endNode : Nat
  symbolStack : List (StackScopedSymbol S)
  scopeStack : List Nat
  steps : List StackPathStep
  edgeCount : Nat
  deriving DecidableEq, Repr

namespace StackGraph

variable {S : Type}

def isKind (g : StackGraph S) (test : StackNodeKind S → Bool) (node : Nat) : Bool :=
  (g.graph.node node).any test

def outgoing (g : StackGraph S) (node : Nat) : List Nat := g.graph.lists .outgoing node

end StackGraph

namespace StackPath

variable {S : Type} [DecidableEq S]

def applyNode (g : StackGraph S) (path : StackPath S) (node : Nat) :
    Except StackPathError (StackPath S) :=
  match g.graph.node node with
  | none => .error (.unknownNode node) -- not met: a live edge ends at a live node
  | some (.pushSymbol symbol _) =>
    .ok { path with symbolStack := path.symbolStack ++ [⟨symbol, none⟩] }
  | some (.pushScopedSymbol symbol scope _) =>
    if g.isKind StackNodeKind.isExportedScope scope then
      .ok { path with symbolStack := path.symbolStack ++ [⟨symbol, some (path.scopeStack ++ [scope])⟩] }
    else .error (.unknownAttachedScope scope)
  | some (.popSymbol symbol _) =>
    match path.symbolStack.getLast? with
    | none => .error (.emptySymbolStack node)
    | some top =>
      if top.symbol ≠ symbol then .error (.incorrectPoppedSymbol node)
      else if top.scopes.isSome then .error (.unexpectedAttachedScopes node)
      else .ok { path with symbolStack := path.symbolStack.dropLast }
  | some (.popScopedSymbol symbol _) =>
    match path.symbolStack.getLast? with
    | none => .error (.emptySymbolStack node)
    | some top =>
      if top.symbol ≠ symbol then .error (.incorrectPoppedSymbol node)
      else
        match top.scopes with
        | none => .error (.missingAttachedScopes node)
        | some scopes =>
          .ok { path with symbolStack := path.symbolStack.dropLast, scopeStack := scopes }
  | some .dropScopes => .ok { path with scopeStack := [] }
  | some .root | some (.scope _) | some .jumpToScope => .ok path

def fromReference (g : StackGraph S) (reference : Nat) : Except StackPathError (StackPath S) :=
  match g.graph.node reference with
  | none => .error (.unknownNode reference)
  | some kind =>
    if kind.isReference then applyNode g ⟨reference, reference, [], [], [], 0⟩ reference
    else .error (.notReference reference)

def resolveJump (g : StackGraph S) (path : StackPath S) : Except StackPathError (StackPath S) :=
  match path.scopeStack.getLast? with
  | none => .error (.emptyScopeStack path.endNode)
  | some scope =>
    if g.isKind StackNodeKind.isExportedScope scope then
      .ok { path with
        scopeStack := path.scopeStack.dropLast
        endNode := scope
        steps := path.steps ++ [.jump path.endNode scope] }
    else .error (.unknownAttachedScope scope)

def append (g : StackGraph S) (path : StackPath S) (edge : Nat) : Except StackPathError (StackPath S) :=
  match g.graph.edge edge with
  | none => .error (.unknownEdge edge)
  | some stored =>
    if stored.source ≠ path.endNode then .error (.incorrectSource path.endNode stored.source)
    else
      match path.applyNode g stored.target with
      | .error e => .error e
      | .ok next =>
        let next := { next with
          endNode := stored.target
          steps := next.steps ++ [.edge edge]
          edgeCount := next.edgeCount + 1 }
        if g.isKind StackNodeKind.isJumpToScope stored.target then next.resolveJump g else .ok next

/-- A binding from a reference to a definition that leaves both stacks empty. -/
def isComplete (g : StackGraph S) (path : StackPath S) : Bool :=
  g.isKind StackNodeKind.isReference path.start && g.isKind StackNodeKind.isDefinition path.endNode &&
    path.symbolStack.isEmpty && path.scopeStack.isEmpty

def containsEdge (path : StackPath S) (edge : Nat) : Bool := path.steps.contains (.edge edge)

end StackPath

def stepKey {S : Type} (g : StackGraph S) : StackPathStep → Nat × Int
  | .edge edge =>
    match g.graph.edge edge with
    | none => (0, 0) -- not met: the edges of a path are live
    | some stored => (stored.source, stored.payload.precedence)
  | .jump source _ => (source, 0)

namespace StackPath

variable {S : Type}

/-- Whether some corresponding step of this path has greater precedence than the other
path's, all steps up to it leaving the same nodes. -/
def shadows (g : StackGraph S) (path other : StackPath S) : Bool :=
  Lib.shadows (fun step => (stepKey g step).1) (fun step => (stepKey g step).2) path.steps other.steps

/-- The precedences of the paths first differ at steps that leave the same node, and this
path's is greater there. -/
def Beats (g : StackGraph S) (path other : StackPath S) : Prop :=
  Lib.Beats (fun step => (stepKey g step).1) (fun step => (stepKey g step).2) path.steps other.steps

/-! ## What a path records -/

variable [DecidableEq S] {g : StackGraph S} {path next : StackPath S}

theorem applyNode_steps {node : Nat} (h : path.applyNode g node = .ok next) :
    next.start = path.start ∧ next.endNode = path.endNode ∧ next.steps = path.steps ∧
      next.edgeCount = path.edgeCount := by
  unfold applyNode at h
  split at h
  all_goals (try cases h)
  · exact ⟨rfl, rfl, rfl, rfl⟩
  · split at h <;> cases h
    exact ⟨rfl, rfl, rfl, rfl⟩
  · split at h
    · cases h
    · split at h
      · cases h
      · split at h <;> cases h
        exact ⟨rfl, rfl, rfl, rfl⟩
  · split at h
    · cases h
    · split at h
      · cases h
      · split at h <;> cases h
        exact ⟨rfl, rfl, rfl, rfl⟩
  all_goals exact ⟨rfl, rfl, rfl, rfl⟩

theorem append_spec {edge : Nat} (h : path.append g edge = .ok next) :
    next.start = path.start ∧ next.edgeCount = path.edgeCount + 1 ∧ (g.graph.edge edge).isSome ∧
      ∀ e, next.containsEdge e = (path.containsEdge e || decide (e = edge)) := by
  unfold append at h
  cases hedge : g.graph.edge edge with
  | none => simp [hedge] at h
  | some stored =>
    simp only [hedge] at h
    split at h
    · cases h
    · cases happly : path.applyNode g stored.target with
      | error e => simp [happly] at h
      | ok entered =>
        simp only [happly] at h
        obtain ⟨hstart, _, hsteps, hcount⟩ := applyNode_steps happly
        split at h
        · unfold resolveJump at h
          split at h
          · cases h
          · split at h
            · cases h
              refine ⟨hstart, by simp [hcount], rfl, fun e => ?_⟩
              simp [containsEdge, hsteps]
            · cases h
        · cases h
          refine ⟨hstart, by simp [hcount], rfl, fun e => ?_⟩
          simp [containsEdge, hsteps]

theorem fromReference_spec {reference : Nat} (h : fromReference g reference = .ok path) :
    path.start = reference ∧ path.endNode = reference ∧ path.steps = [] ∧
      g.isKind StackNodeKind.isReference reference = true := by
  unfold fromReference at h
  cases hnode : g.graph.node reference with
  | none => simp [hnode] at h
  | some kind =>
    simp only [hnode] at h
    split at h
    · next href =>
      obtain ⟨hstart, hend, hsteps, _⟩ := applyNode_steps h
      exact ⟨hstart, hend, hsteps, by simp [StackGraph.isKind, hnode, href]⟩
    · cases h

theorem not_isComplete_fromReference {reference : Nat} (h : fromReference g reference = .ok path) :
    path.isComplete g = false := by
  obtain ⟨_, hend, _, hkind⟩ := fromReference_spec h
  have hdef : g.isKind StackNodeKind.isDefinition path.endNode = false := by
    rw [hend]
    cases hnode : g.graph.node reference with
    | none => simp [StackGraph.isKind, hnode]
    | some kind =>
      simp only [StackGraph.isKind, hnode, Option.any_some] at hkind ⊢
      exact StackNodeKind.isDefinition_of_isReference hkind
  simp [isComplete, hdef]

end StackPath

end CfgLib

import CfgLib.Graph.PathBudget
import CfgLib.Lib.PathSearch
import CfgLib.Store.Naive

/-!
# Scope-graph queries

`graph/scope/storage.rs` and `graph/scope/query.rs`: the facts of a scope graph, the
policies of a query, and the breadth-first search over cycle-free paths with its
linear form.
-/

namespace CfgLib

open CfgLib.Lib CfgLib.Store

structure ScopeDatum (R D : Type) where
  scope : Nat
  relation : R
  data : D
  deriving DecidableEq, Repr

structure ScopeReference (Q : Type) where
  scope : Nat
  data : Q
  deriving DecidableEq, Repr

structure ScopeGraph (S L R D Q : Type) where
  graph : Naive S L
  data : List (ScopeDatum R D)
  references : List (ScopeReference Q)
  wf : graph.WF

def ScopeGraph.scopeData {S L R D Q : Type} (g : ScopeGraph S L R D Q) (scope : Nat) : List Nat :=
  (List.range g.data.length).filter fun datum => (g.data[datum]?).any (·.scope == scope)

structure ScopeQuery (Q : Type) where
  scope : Nat
  data : Q
  reference : Option Nat

inductive ScopeGraphPathLabel (L : Type)
  | edge (label : L)
  | declaration
  deriving DecidableEq, Repr

/-- The scopes of a path, both endpoints included, and the edges between them. -/
structure ScopePath where
  scopes : List Nat
  edges : List Nat
  length_scopes : scopes.length = edges.length + 1
  deriving DecidableEq

namespace ScopePath

def new (start : Nat) : ScopePath := ⟨[start], [], rfl⟩

def extended (path : ScopePath) (edge target : Nat) : ScopePath where
  scopes := path.scopes ++ [target]
  edges := path.edges ++ [edge]
  length_scopes := by simp [path.length_scopes]

theorem scopes_ne_nil (path : ScopePath) : path.scopes ≠ [] := by
  intro h
  have := path.length_scopes
  simp [h] at this

def endScope (path : ScopePath) : Nat := path.scopes.getLast path.scopes_ne_nil

def containsScope (path : ScopePath) (scope : Nat) : Bool := path.scopes.contains scope

end ScopePath

/-- Compare two label words with their end markers, at the first labels that differ. -/
def labelWordShadows {L : Type} (compare : ScopeGraphPathLabel L → ScopeGraphPathLabel L → Option Ordering) :
    List L → List L → Bool
  | left :: lefts, right :: rights =>
    match compare (.edge left) (.edge right) with
    | some .lt => true
    | some .gt | none => false
    | some .eq => labelWordShadows compare lefts rights
  | left :: _, [] => compare (.edge left) .declaration == some .lt
  | [], right :: _ => compare .declaration (.edge right) == some .lt
  | [], [] => compare .declaration .declaration == some .lt

section Policies

variable (S L R D Q State : Type)

/-- The policies of a family of queries; the defaults are those of the source's trait. -/
structure ScopeGraphQuery where
  initialState : ScopeGraph S L R D Q → ScopeQuery Q → State
  step : ScopeGraph S L R D Q → ScopeQuery Q → ScopePath → State → Nat → EdgeRecord L → Option State
  visitCandidateData : ScopeGraph S L R D Q → ScopeQuery Q → ScopePath → State → List Nat :=
    fun g _ path _ => g.scopeData path.endScope
  accepts : ScopeGraph S L R D Q → ScopeQuery Q → ScopePath → State → Nat → Bool
  visitAcceptedData : ScopeGraph S L R D Q → ScopeQuery Q → ScopePath → State → List Nat :=
    fun g input path state => (visitCandidateData g input path state).filter (accepts g input path state)
  shouldExtend : ScopeGraph S L R D Q → ScopeQuery Q → ScopePath → State → Nat → Bool :=
    fun _ _ _ _ _ => true
  compareLabels : ScopeGraph S L R D Q → ScopeQuery Q → ScopeGraphPathLabel L → ScopeGraphPathLabel L →
    Option Ordering
  dataLeq : ScopeGraph S L R D Q → ScopeQuery Q → Nat → Nat → Bool := fun _ _ _ _ => true
  shadows : ScopeGraph S L R D Q → ScopeQuery Q → ScopePath → Nat → ScopePath → Nat → Bool :=
    fun g input left leftDatum right rightDatum =>
      labelWordShadows (compareLabels g input)
          (left.edges.filterMap fun e => (g.graph.edge e).map (·.payload))
          (right.edges.filterMap fun e => (g.graph.edge e).map (·.payload)) &&
        dataLeq g input leftDatum rightDatum

end Policies

structure ScopeResolutionConfig where
  maxPathLength : Option Nat
  maxPathCount : Option Nat
  deriving DecidableEq, Repr

namespace ScopeResolutionConfig

def new : ScopeResolutionConfig := ⟨none, none⟩

def budget (config : ScopeResolutionConfig) : PathBudget := .new config.maxPathLength config.maxPathCount

end ScopeResolutionConfig

structure ScopeResolutionCandidate where
  datum : Nat
  path : ScopePath
  deriving DecidableEq

structure ScopeResolutionStats where
  exploredPathCount : Nat
  reachableCandidateCount : Nat
  pathLengthLimited : Bool
  pathCountLimited : Bool
  deriving DecidableEq, Repr

inductive ScopeLinearResolutionError
  | multipleCandidates (scope : Nat)
  | multipleEdges (scope : Nat)
  deriving DecidableEq, Repr

structure ScopeResolution where
  startScope : Nat
  reference : Option Nat
  candidates : List ScopeResolutionCandidate
  stats : ScopeResolutionStats
  deriving DecidableEq

/-- A path prefix and the policy's state at its end. -/
structure ScopeWork (State : Type) where
  path : ScopePath
  state : State

structure ScopeSearch where
  budget : PathBudget
  reachable : List ScopeResolutionCandidate

namespace ScopeResolution

variable {S L R D Q State : Type}

def visibleCandidates (g : ScopeGraph S L R D Q) (input : ScopeQuery Q) (query : ScopeGraphQuery S L R D Q State)
    (reachable : List ScopeResolutionCandidate) : List ScopeResolutionCandidate :=
  if reachable.length < 2 then reachable
  else
    (reachable.zipIdx.filter fun candidate =>
      !reachable.zipIdx.any fun other => candidate.2 != other.2 &&
        query.shadows g input other.1.path other.1.datum candidate.1.path candidate.1.datum).map (·.1)

/-- Filter what was reached and report the search. -/
def finish (g : ScopeGraph S L R D Q) (input : ScopeQuery Q) (query : ScopeGraphQuery S L R D Q State)
    (s : ScopeSearch) : ScopeResolution where
  startScope := input.scope
  reference := input.reference
  candidates := visibleCandidates g input query s.reachable
  stats :=
    { exploredPathCount := s.budget.expandedPathCount
      reachableCandidateCount := s.reachable.length
      pathLengthLimited := s.budget.pathLengthLimited
      pathCountLimited := s.budget.pathCountLimited }

/-- Try to extend a prefix over one outgoing edge. -/
def extendEdge (g : ScopeGraph S L R D Q) (input : ScopeQuery Q) (query : ScopeGraphQuery S L R D Q State)
    (work : ScopeWork State) (found : ScopeSearch × List (ScopeWork State)) (edgeId : Nat) :
    ScopeSearch × List (ScopeWork State) :=
  let (s, successors) := found
  match g.graph.edge edgeId with
  | none => found -- not met: an outgoing edge is live
  | some edge =>
    if work.path.containsScope edge.target then found
    else
      match query.step g input work.path work.state edgeId edge with
      | none => found
      | some nextState =>
        match s.budget.admitLength (work.path.edges.length + 1) with
        | (false, budget) => ({ s with budget := budget }, successors)
        | (true, budget) =>
          ({ s with budget := budget }, successors ++ [⟨work.path.extended edgeId edge.target, nextState⟩])

def expand (g : ScopeGraph S L R D Q) (input : ScopeQuery Q) (query : ScopeGraphQuery S L R D Q State)
    (s : ScopeSearch) (work : ScopeWork State) : Expansion ScopeSearch (ScopeWork State) :=
  match s.budget.admitExpansion with
  | (false, budget) => .stop { s with budget := budget }
  | (true, budget) =>
    let accepted := query.visitAcceptedData g input work.path work.state
    let s := { s with budget := budget, reachable := s.reachable ++ accepted.map (⟨·, work.path⟩) }
    if query.shouldExtend g input work.path work.state accepted.length then
      let (s, successors) :=
        (g.graph.lists .outgoing work.path.endScope).foldl (extendEdge g input query work) (s, [])
      .extend s successors
    else .extend s []

/-- The zero-edge prefix, which is expanded first. -/
def seed (g : ScopeGraph S L R D Q) (input : ScopeQuery Q) (query : ScopeGraphQuery S L R D Q State) :
    ScopeWork State :=
  ⟨.new input.scope, query.initialState g input⟩

def seeded (g : ScopeGraph S L R D Q) (input : ScopeQuery Q) (query : ScopeGraphQuery S L R D Q State) :
    PathFrontier (ScopeWork State) :=
  (PathFrontier.new .breadthFirst).push (seed g input query)

/-- Resolve a query; `none` when the fuel runs out. -/
def computeQuery (fuel : Nat) (g : ScopeGraph S L R D Q) (input : ScopeQuery Q)
    (query : ScopeGraphQuery S L R D Q State) (config : ScopeResolutionConfig) : Option ScopeResolution :=
  (drain (expand g input query) fuel (seeded g input query) ⟨config.budget, []⟩).map (finish g input query)

/-- Try the next outgoing edge of a prefix that may admit one only. -/
def advanceEdge (g : ScopeGraph S L R D Q) (input : ScopeQuery Q) (query : ScopeGraphQuery S L R D Q State)
    (work : ScopeWork State) (found : ScopeSearch × Option (ScopeWork State)) (edgeId : Nat) :
    Except ScopeLinearResolutionError (ScopeSearch × Option (ScopeWork State)) :=
  let (s, next) := found
  match g.graph.edge edgeId with
  | none => .ok found
  | some edge =>
    if work.path.containsScope edge.target then .ok found
    else
      match query.step g input work.path work.state edgeId edge with
      | none => .ok found
      | some nextState =>
        match s.budget.admitLength (work.path.edges.length + 1) with
        | (false, budget) => .ok ({ s with budget := budget }, next)
        | (true, budget) =>
          if next.isSome then .error (.multipleEdges work.path.endScope)
          else .ok ({ s with budget := budget }, some ⟨work.path.extended edgeId edge.target, nextState⟩)

def advance (g : ScopeGraph S L R D Q) (input : ScopeQuery Q) (query : ScopeGraphQuery S L R D Q State)
    (s : ScopeSearch) (work : ScopeWork State) :
    Turn ScopeLinearResolutionError ScopeSearch (ScopeWork State) :=
  match s.budget.admitExpansion with
  | (false, budget) => .stop { s with budget := budget }
  | (true, budget) =>
    match query.visitAcceptedData g input work.path work.state with
    | _ :: _ :: _ => .fail (.multipleCandidates work.path.endScope)
    | accepted =>
      let s := { s with budget := budget, reachable := s.reachable ++ accepted.map (⟨·, work.path⟩) }
      if query.shouldExtend g input work.path work.state accepted.length then
        match (g.graph.lists .outgoing work.path.endScope).foldlM (advanceEdge g input query work) (s, none) with
        | .error e => .fail e
        | .ok (s, none) => .stop s
        | .ok (s, some next) => .on s next
      else .stop s

/-- Resolve a query whose prefixes accept one datum and admit one edge at most. -/
def tryComputeLinearQuery (fuel : Nat) (g : ScopeGraph S L R D Q) (input : ScopeQuery Q)
    (query : ScopeGraphQuery S L R D Q State) (config : ScopeResolutionConfig) :
    Option (Except ScopeLinearResolutionError ScopeResolution) :=
  (follow (advance g input query) fuel ⟨config.budget, []⟩ (seed g input query)).map fun outcome =>
    outcome.map (finish g input query)

/-! ## Expansions -/

/-- The extension of a prefix over an edge that the policy admits, within a length bound. -/
def extension (g : ScopeGraph S L R D Q) (input : ScopeQuery Q) (query : ScopeGraphQuery S L R D Q State)
    (maxPathLength : Option Nat) (work : ScopeWork State) (edgeId : Nat) : Option (ScopeWork State) :=
  (g.graph.edge edgeId).bind fun edge =>
    if work.path.containsScope edge.target then none
    else
      (query.step g input work.path work.state edgeId edge).bind fun nextState =>
        if PathBudget.fits maxPathLength (work.path.edges.length + 1) then
          some ⟨work.path.extended edgeId edge.target, nextState⟩
        else none

def extensions (g : ScopeGraph S L R D Q) (input : ScopeQuery Q) (query : ScopeGraphQuery S L R D Q State)
    (maxPathLength : Option Nat) (work : ScopeWork State) : List (ScopeWork State) :=
  if query.shouldExtend g input work.path work.state
      (query.visitAcceptedData g input work.path work.state).length then
    (g.graph.lists .outgoing work.path.endScope).filterMap (extension g input query maxPathLength work)
  else []

variable {g : ScopeGraph S L R D Q} {input : ScopeQuery Q} {query : ScopeGraphQuery S L R D Q State}
  {work : ScopeWork State}

theorem extendEdge_spec (s : ScopeSearch) (successors : List (ScopeWork State)) (edgeId : Nat) :
    PathBudget.SameBounds s.budget (extendEdge g input query work (s, successors) edgeId).1.budget ∧
      (extendEdge g input query work (s, successors) edgeId).1.reachable = s.reachable ∧
      (extendEdge g input query work (s, successors) edgeId).2 =
        successors ++ (extension g input query s.budget.maxPathLength work edgeId).toList := by
  have hsame := PathBudget.sameBounds_admitLength s.budget (work.path.edges.length + 1)
  have hfits := PathBudget.admitLength_fst s.budget (work.path.edges.length + 1)
  unfold extendEdge extension
  cases g.graph.edge edgeId with
  | none => simp [PathBudget.SameBounds.refl]
  | some edge =>
    by_cases hcut : work.path.containsScope edge.target = true
    · simp [hcut, PathBudget.SameBounds.refl]
    · simp only [hcut, Bool.false_eq_true, if_false, Option.bind_some]
      cases query.step g input work.path work.state edgeId edge with
      | none => simp [PathBudget.SameBounds.refl]
      | some nextState =>
        generalize s.budget.admitLength (work.path.edges.length + 1) = admitted at *
        obtain ⟨fits, budget⟩ := admitted
        simp only at hsame hfits
        cases fits with
        | false => exact ⟨hsame, rfl, by simp [← hfits]⟩
        | true => exact ⟨hsame, rfl, by simp [← hfits]⟩

theorem foldl_extendEdge (edges : List Nat) (s : ScopeSearch) (successors : List (ScopeWork State)) :
    PathBudget.SameBounds s.budget (edges.foldl (extendEdge g input query work) (s, successors)).1.budget ∧
      (edges.foldl (extendEdge g input query work) (s, successors)).1.reachable = s.reachable ∧
      (edges.foldl (extendEdge g input query work) (s, successors)).2 =
        successors ++ edges.filterMap (extension g input query s.budget.maxPathLength work) := by
  induction edges generalizing s successors with
  | nil => exact ⟨.refl _, rfl, by simp⟩
  | cons edgeId edges ih =>
    obtain ⟨hsame, hreach, hfound⟩ := @extendEdge_spec _ _ _ _ _ _ g input query work s successors edgeId
    rw [List.foldl_cons]
    generalize extendEdge g input query work (s, successors) edgeId = found at *
    obtain ⟨s₁, l₁⟩ := found
    obtain rfl : l₁ = _ := hfound
    obtain ⟨hsame', hreach', hfound'⟩ := ih s₁ _
    refine ⟨hsame.trans hsame', hreach'.trans hreach, hfound'.trans ?_⟩
    rw [show s₁.budget.maxPathLength = s.budget.maxPathLength from hsame.length, List.append_assoc,
      List.filterMap_cons]
    cases extension g input query s.budget.maxPathLength work edgeId <;> rfl

def acceptedAt (g : ScopeGraph S L R D Q) (input : ScopeQuery Q) (query : ScopeGraphQuery S L R D Q State)
    (work : ScopeWork State) : List ScopeResolutionCandidate :=
  (query.visitAcceptedData g input work.path work.state).map (⟨·, work.path⟩)

theorem expand_spec {s s' : ScopeSearch} {l : List (ScopeWork State)} (h : expand g input query s work = .extend s' l) :
    PathBudget.SameBounds s.budget s'.budget ∧ s'.reachable = s.reachable ++ acceptedAt g input query work ∧
      l = extensions g input query s.budget.maxPathLength work := by
  have hsame := PathBudget.sameBounds_admitExpansion s.budget
  unfold expand at h
  generalize s.budget.admitExpansion = admitted at *
  obtain ⟨admits, budget⟩ := admitted
  cases admits with
  | false => cases h
  | true =>
    have hlength : budget.maxPathLength = s.budget.maxPathLength := hsame.length
    unfold extensions
    simp only at h
    split at h
    · next hextend =>
      rw [if_pos hextend]
      simp only [Expansion.extend.injEq] at h
      obtain ⟨rfl, rfl⟩ := h
      obtain ⟨hbounds, hreach, hfound⟩ := @foldl_extendEdge _ _ _ _ _ _ g input query work
        (g.graph.lists .outgoing work.path.endScope)
        ⟨budget, s.reachable ++ acceptedAt g input query work⟩ []
      rw [hlength] at hfound
      exact ⟨hsame.trans hbounds, hreach, hfound⟩
    · next hextend =>
      rw [if_neg hextend]
      simp only [Expansion.extend.injEq] at h
      obtain ⟨rfl, rfl⟩ := h
      exact ⟨hsame, rfl, rfl⟩

theorem mem_extensions {maxPathLength : Option Nat} {next : ScopeWork State} :
    next ∈ extensions g input query maxPathLength work ↔
      query.shouldExtend g input work.path work.state
          (query.visitAcceptedData g input work.path work.state).length = true ∧
        PathBudget.fits maxPathLength (work.path.edges.length + 1) = true ∧
        ∃ edgeId ∈ g.graph.lists .outgoing work.path.endScope, ∃ edge, g.graph.edge edgeId = some edge ∧
          work.path.containsScope edge.target = false ∧
          query.step g input work.path work.state edgeId edge = some next.state ∧
          next.path = work.path.extended edgeId edge.target := by
  unfold extensions
  split
  · next hextend =>
    simp only [hextend, true_and, List.mem_filterMap, extension, Option.bind_eq_some_iff, Option.ite_none_left_eq_some,
      Option.ite_none_right_eq_some, Option.some.injEq, Bool.not_eq_true]
    constructor
    · rintro ⟨edgeId, hedge, edge, hlive, hfresh, nextState, hstep, hfits, rfl⟩
      exact ⟨hfits, edgeId, hedge, edge, hlive, hfresh, hstep, rfl⟩
    · rintro ⟨hfits, edgeId, hedge, edge, hlive, hfresh, hstep, hpath⟩
      exact ⟨edgeId, hedge, edge, hlive, hfresh, next.state, hstep, hfits, by rw [← hpath]⟩
  · next hextend => simp [hextend]

/-! ## How long a search lasts -/

def unvisited (g : ScopeGraph S L R D Q) (work : ScopeWork State) : Nat :=
  ((List.range g.graph.nodes.length).filter fun scope => !work.path.containsScope scope).length

theorem unvisited_lt {maxPathLength : Option Nat} {next : ScopeWork State}
    (h : next ∈ extensions g input query maxPathLength work) : unvisited g next < unvisited g work := by
  obtain ⟨_, _, edgeId, _, edge, hlive, hfresh, _, hpath⟩ := mem_extensions.mp h
  have hcontains : ∀ scope, next.path.containsScope scope = (work.path.containsScope scope || decide (scope = edge.target)) := by
    intro scope
    simp [hpath, ScopePath.containsScope, ScopePath.extended]
  have hsub : ((List.range g.graph.nodes.length).filter fun scope => !next.path.containsScope scope).Sublist
      ((List.range g.graph.nodes.length).filter fun scope => !work.path.containsScope scope) := by
    apply List.monotone_filter_right
    intro scope hscope
    rw [hcontains] at hscope
    cases hp : work.path.containsScope scope <;> simp_all
  refine lt_of_le_of_ne hsub.length_le fun heq => ?_
  have hlt : edge.target < g.graph.nodes.length := Naive.node_lt (g.wf.live .incoming edgeId edge hlive)
  have hmem : edge.target ∈ (List.range g.graph.nodes.length).filter fun scope => !work.path.containsScope scope :=
    List.mem_filter.mpr ⟨List.mem_range.mpr hlt, by simp [hfresh]⟩
  rw [← hsub.eq_of_length heq] at hmem
  have := (List.mem_filter.mp hmem).2
  rw [hcontains] at this
  simp at this

theorem length_extensions_le (maxPathLength : Option Nat) (work : ScopeWork State) :
    (extensions g input query maxPathLength work).length ≤ g.graph.edges.length := by
  have hsub : g.graph.lists .outgoing work.path.endScope ⊆ List.range g.graph.edges.length := by
    intro edge hedge
    obtain ⟨record, hrecord, _⟩ := (g.wf.mem_iff .outgoing _ edge).mp hedge
    exact List.mem_range.mpr (Naive.edge_lt hrecord)
  have hle := ((g.wf.nodup .outgoing work.path.endScope).subperm hsub).length_le
  rw [List.length_range] at hle
  unfold extensions
  split
  · exact (List.length_filterMap_le _ _).trans hle
  · exact Nat.zero_le _

theorem drain_ends (g : ScopeGraph S L R D Q) (input : ScopeQuery Q) (query : ScopeGraphQuery S L R D Q State) :
    ∃ K, ∀ fuel, K ≤ fuel → ∀ s, ∃ r, drain (expand g input query) fuel (seeded g input query) s = some r := by
  refine ⟨_, fun fuel hfuel s => @drain_terminates _ _ (expand g input query) (unvisited g) g.graph.edges.length
    (fun _ => True) ?_ fuel _ (fun _ _ => trivial) (Nat.lt_of_succ_le hfuel) s⟩
  intro s p s' l _ hexp
  obtain ⟨_, _, rfl⟩ := expand_spec hexp
  exact ⟨length_extensions_le _ p, fun q hq => ⟨trivial, unvisited_lt hq⟩⟩

end ScopeResolution

end CfgLib

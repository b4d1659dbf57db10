import CfgLib.Graph.PathBudget
import CfgLib.Graph.Stack.Path
import CfgLib.Lib.PathSearch

/-!
# Stack-graph search

`graph/stack/search.rs`: the path search of one reference, its linear form, and the
filter that keeps the paths of greatest precedence.
-/

namespace CfgLib

open CfgLib.Lib CfgLib.Store Relation

structure StackSearchConfig where
  order : SearchOrder
  maxPathLength : Option Nat
  maxPathCount : Option Nat
  maxCompletePathCount : Option Nat
  deriving DecidableEq, Repr

namespace StackSearchConfig

def new : StackSearchConfig := ⟨.breadthFirst, none, none, none⟩

def withOrder (config : StackSearchConfig) (order : SearchOrder) : StackSearchConfig :=
  { config with order := order }

def budget (config : StackSearchConfig) : PathBudget :=
  (PathBudget.new config.maxPathLength config.maxPathCount).withMaxCompletePathCount config.maxCompletePathCount

end StackSearchConfig

structure StackSearchStats where
  expandedPathCount : Nat
  completePathCount : Nat
  rejectedExtensionCount : Nat
  cycleCutCount : Nat
  pathLengthLimited : Bool
  pathCountLimited : Bool
  completePathCountLimited : Bool
  deriving DecidableEq, Repr

inductive StackLinearResolutionError
  | path (error : StackPathError)
  | multipleEdges (node : Nat)
  deriving DecidableEq, Repr

structure StackResolution (S : Type) where
  reference : Nat
  paths : List (StackPath S)
  stats : StackSearchStats
  deriving DecidableEq, Repr

/-- The work accounted and the complete paths retained. -/
structure SearchState (S : Type) where
  budget : PathBudget
  cycleCutCount : Nat
  rejectedExtensionCount : Nat
  complete : List (StackPath S)

namespace SearchState

variable {S : Type} [DecidableEq S]

def new (config : StackSearchConfig) : SearchState S := ⟨config.budget, 0, 0, []⟩

/-- Count a complete path and retain it unless the bound refuses. -/
def recordComplete (s : SearchState S) (path : StackPath S) : SearchState S :=
  match s.budget.admitComplete s.complete.length with
  | (true, budget) => { s with budget := budget, complete := s.complete ++ [path] }
  | (false, budget) => { s with budget := budget }

def recordExtension (g : StackGraph S) (s : SearchState S) (next : StackPath S) : SearchState S :=
  if next.isComplete g then s.recordComplete next else s

end SearchState

namespace StackResolution

variable {S : Type} [DecidableEq S]

/-- Keep the first copy of each path, and then the paths that no other one shadows. -/
def visible (g : StackGraph S) (complete : List (StackPath S)) : List (StackPath S) :=
  if complete.length < 2 then complete
  else
    let unique := complete.foldl (fun unique path => if path ∈ unique then unique else unique ++ [path]) []
    (unique.zipIdx.filter fun candidate =>
      !unique.zipIdx.any fun other => candidate.2 != other.2 && other.1.shadows g candidate.1).map (·.1)

/-- Filter the retained paths by precedence and report the search. -/
def finish (g : StackGraph S) (reference : Nat) (s : SearchState S) : StackResolution S where
  reference := reference
  paths := visible g s.complete
  stats :=
    { expandedPathCount := s.budget.expandedPathCount
      completePathCount := s.budget.completePathCount
      rejectedExtensionCount := s.rejectedExtensionCount
      cycleCutCount := s.cycleCutCount
      pathLengthLimited := s.budget.pathLengthLimited
      pathCountLimited := s.budget.pathCountLimited
      completePathCountLimited := s.budget.completePathCountLimited }

/-- Try to extend a prefix over one outgoing edge. -/
def extendEdge (g : StackGraph S) (path : StackPath S) (found : SearchState S × List (StackPath S))
    (edge : Nat) : SearchState S × List (StackPath S) :=
  let (s, successors) := found
  if path.containsEdge edge then ({ s with cycleCutCount := s.cycleCutCount + 1 }, successors)
  else
    match s.budget.admitLength (path.edgeCount + 1) with
    | (false, budget) => ({ s with budget := budget }, successors)
    | (true, budget) =>
      match path.append g edge with
      | .error _ =>
        ({ s with budget := budget, rejectedExtensionCount := s.rejectedExtensionCount + 1 }, successors)
      | .ok next => (SearchState.recordExtension g { s with budget := budget } next, successors ++ [next])

def expand (g : StackGraph S) (s : SearchState S) (path : StackPath S) :
    Expansion (SearchState S) (StackPath S) :=
  match s.budget.admitExpansion with
  | (false, budget) => .stop { s with budget := budget }
  | (true, budget) =>
    let (s, successors) := (g.outgoing path.endNode).foldl (extendEdge g path) ({ s with budget := budget }, [])
    .extend s successors

def seeded (config : StackSearchConfig) (initial : StackPath S) : PathFrontier (StackPath S) :=
  (PathFrontier.new config.order).push initial

/-- Resolve one reference; `none` when the fuel runs out. -/
def tryCompute (fuel : Nat) (g : StackGraph S) (reference : Nat) (config : StackSearchConfig) :
    Option (Except StackPathError (StackResolution S)) :=
  match StackPath.fromReference g reference with
  | .error e => some (.error e)
  | .ok initial =>
    (drain (expand g) fuel (seeded config initial) (.new config)).map fun s => .ok (finish g reference s)

/-- Try the next outgoing edge of a prefix that may have one extension only. -/
def advanceEdge (g : StackGraph S) (path : StackPath S) (found : SearchState S × Option (StackPath S))
    (edge : Nat) : Except StackLinearResolutionError (SearchState S × Option (StackPath S)) :=
  let (s, next) := found
  if path.containsEdge edge then .ok ({ s with cycleCutCount := s.cycleCutCount + 1 }, next)
  else
    match s.budget.admitLength (path.edgeCount + 1) with
    | (false, budget) => .ok ({ s with budget := budget }, next)
    | (true, budget) =>
      match path.append g edge with
      | .error _ =>
        .ok ({ s with budget := budget, rejectedExtensionCount := s.rejectedExtensionCount + 1 }, next)
      | .ok candidate =>
        if next.isSome then .error (.multipleEdges path.endNode)
        else .ok (SearchState.recordExtension g { s with budget := budget } candidate, some candidate)

def advance (g : StackGraph S) (s : SearchState S) (path : StackPath S) :
    Turn StackLinearResolutionError (SearchState S) (StackPath S) :=
  match s.budget.admitExpansion with
  | (false, budget) => .stop { s with budget := budget }
  | (true, budget) =>
    match (g.outgoing path.endNode).foldlM (advanceEdge g path) ({ s with budget := budget }, none) with
    | .error e => .fail e
    | .ok (s, none) => .stop s
    | .ok (s, some candidate) => .on s candidate

/-- Resolve a reference whose prefixes have at most one extension each. -/
def tryComputeLinear (fuel : Nat) (g : StackGraph S) (reference : Nat) (config : StackSearchConfig) :
    Option (Except StackLinearResolutionError (StackResolution S)) :=
  match StackPath.fromReference g reference with
  | .error e => some (.error (.path e))
  | .ok initial =>
    (follow (advance g) fuel (.new config) initial).map fun outcome => outcome.map (finish g reference)

/-! ## Expansions -/

/-- The extension of a prefix over an edge that it does not contain, within a length bound. -/
def extension (g : StackGraph S) (maxPathLength : Option Nat) (path : StackPath S) (edge : Nat) :
    Option (StackPath S) :=
  if path.containsEdge edge then none
  else if PathBudget.fits maxPathLength (path.edgeCount + 1) then (path.append g edge).toOption
  else none

/-- The extensions of a prefix over its outgoing edges. -/
def extensions (g : StackGraph S) (maxPathLength : Option Nat) (path : StackPath S) : List (StackPath S) :=
  (g.outgoing path.endNode).filterMap (extension g maxPathLength path)

variable {g : StackGraph S} {path : StackPath S}

omit [DecidableEq S] in
theorem sameBounds_recordExtension (s : SearchState S) (next : StackPath S) :
    PathBudget.SameBounds s.budget (s.recordExtension g next).budget := by
  unfold SearchState.recordExtension SearchState.recordComplete
  split
  · have hsame := PathBudget.sameBounds_admitComplete s.budget s.complete.length
    split <;> next h => simpa only [h] using hsame
  · exact .refl _

theorem extendEdge_spec (s : SearchState S) (successors : List (StackPath S)) (edge : Nat) :
    PathBudget.SameBounds s.budget (extendEdge g path (s, successors) edge).1.budget ∧
      (extendEdge g path (s, successors) edge).2 =
        successors ++ (extension g s.budget.maxPathLength path edge).toList := by
  have hsame := PathBudget.sameBounds_admitLength s.budget (path.edgeCount + 1)
  have hfits := PathBudget.admitLength_fst s.budget (path.edgeCount + 1)
  unfold extendEdge extension
  by_cases hcut : path.containsEdge edge = true
  · simp [hcut, PathBudget.SameBounds.refl]
  · simp only [hcut, Bool.false_eq_true, if_false]
    generalize s.budget.admitLength (path.edgeCount + 1) = admitted at *
    obtain ⟨fits, budget⟩ := admitted
    simp only at hsame hfits
    cases fits with
    | false => exact ⟨hsame, by simp [← hfits]⟩
    | true =>
      simp only [← hfits, if_true]
      cases path.append g edge with
      | error e => exact ⟨hsame, by simp [Except.toOption]⟩
      | ok next =>
        exact ⟨hsame.trans (sameBounds_recordExtension { s with budget := budget } next), by simp [Except.toOption]⟩

theorem foldl_extendEdge (edges : List Nat) (s : SearchState S) (successors : List (StackPath S)) :
    PathBudget.SameBounds s.budget (edges.foldl (extendEdge g path) (s, successors)).1.budget ∧
      (edges.foldl (extendEdge g path) (s, successors)).2 =
        successors ++ edges.filterMap (extension g s.budget.maxPathLength path) := by
  induction edges generalizing s successors with
  | nil => exact ⟨.refl _, by simp⟩
  | cons edge edges ih =>
    obtain ⟨hsame, hfound⟩ := @extendEdge_spec _ _ g path s successors edge
    rw [List.foldl_cons]
    generalize extendEdge g path (s, successors) edge = found at *
    obtain ⟨s₁, l₁⟩ := found
    obtain rfl : l₁ = _ := hfound
    obtain ⟨hsame', hfound'⟩ := ih s₁ _
    refine ⟨hsame.trans hsame', hfound'.trans ?_⟩
    rw [show s₁.budget.maxPathLength = s.budget.maxPathLength from hsame.length, List.append_assoc,
      List.filterMap_cons]
    cases extension g s.budget.maxPathLength path edge <;> rfl

theorem expand_spec {s s' : SearchState S} {l : List (StackPath S)} (h : expand g s path = .extend s' l) :
    PathBudget.SameBounds s.budget s'.budget ∧ l = extensions g s.budget.maxPathLength path := by
  have hsame := PathBudget.sameBounds_admitExpansion s.budget
  unfold expand at h
  generalize s.budget.admitExpansion = admitted at *
  obtain ⟨admits, budget⟩ := admitted
  cases admits with
  | false => cases h
  | true =>
    obtain ⟨hbounds, hfound⟩ := @foldl_extendEdge _ _ g path (g.outgoing path.endNode) { s with budget := budget } []
    simp only [Expansion.extend.injEq] at h
    obtain ⟨rfl, rfl⟩ := h
    have hlength : budget.maxPathLength = s.budget.maxPathLength := hsame.length
    refine ⟨hsame.trans hbounds, ?_⟩
    rw [hfound, hlength]
    rfl

/-! ## How long a search lasts -/

def unused (g : StackGraph S) (path : StackPath S) : Nat :=
  ((List.range g.graph.edges.length).filter fun edge => !path.containsEdge edge).length

theorem mem_extensions {maxPathLength : Option Nat} {next : StackPath S} :
    next ∈ extensions g maxPathLength path ↔ ∃ edge ∈ g.outgoing path.endNode, path.containsEdge edge = false ∧
      PathBudget.fits maxPathLength (path.edgeCount + 1) = true ∧ path.append g edge = .ok next := by
  simp only [extensions, extension, List.mem_filterMap]
  refine exists_congr fun edge => and_congr_right fun _ => ?_
  by_cases hcut : path.containsEdge edge = true
  · simp [hcut]
  · by_cases hfits : PathBudget.fits maxPathLength (path.edgeCount + 1) = true
    · cases path.append g edge <;> simp [hcut, hfits, Except.toOption]
    · simp [hcut, hfits]

theorem unused_lt {maxPathLength : Option Nat} {next : StackPath S} (h : next ∈ extensions g maxPathLength path) :
    unused g next < unused g path := by
  obtain ⟨edge, _, hfresh, _, happend⟩ := mem_extensions.mp h
  obtain ⟨_, _, hlive, hcontains⟩ := StackPath.append_spec happend
  obtain ⟨record, hrecord⟩ := Option.isSome_iff_exists.mp hlive
  have hsub : ((List.range g.graph.edges.length).filter fun e => !next.containsEdge e).Sublist
      ((List.range g.graph.edges.length).filter fun e => !path.containsEdge e) := by
    apply List.monotone_filter_right
    intro e he
    rw [hcontains] at he
    cases hp : path.containsEdge e <;> simp_all
  refine lt_of_le_of_ne hsub.length_le fun heq => ?_
  have hmem : edge ∈ (List.range g.graph.edges.length).filter fun e => !path.containsEdge e :=
    List.mem_filter.mpr ⟨List.mem_range.mpr (Naive.edge_lt hrecord), by simp [hfresh]⟩
  rw [← hsub.eq_of_length heq] at hmem
  have := (List.mem_filter.mp hmem).2
  rw [hcontains] at this
  simp at this

omit [DecidableEq S] in
theorem length_outgoing_le (g : StackGraph S) (node : Nat) : (g.outgoing node).length ≤ g.graph.edges.length := by
  have hsub : (g.outgoing node) ⊆ List.range g.graph.edges.length := by
    intro edge hedge
    obtain ⟨record, hrecord, _⟩ := (g.wf.mem_iff .outgoing node edge).mp hedge
    exact List.mem_range.mpr (Naive.edge_lt hrecord)
  have hle := ((g.wf.nodup .outgoing node).subperm hsub).length_le
  rwa [List.length_range] at hle

theorem length_extensions_le (g : StackGraph S) (maxPathLength : Option Nat) (path : StackPath S) :
    (extensions g maxPathLength path).length ≤ g.graph.edges.length :=
  (List.length_filterMap_le _ _).trans (length_outgoing_le g path.endNode)

theorem drain_ends (g : StackGraph S) (config : StackSearchConfig) (initial : StackPath S) : ∃ K, ∀ fuel, K ≤ fuel →
    ∀ s, ∃ r, drain (expand g) fuel (seeded config initial) s = some r := by
  refine ⟨_, fun fuel hfuel s => @drain_terminates _ _ (expand g) (unused g) g.graph.edges.length (fun _ => True)
    ?_ fuel _ (fun _ _ => trivial) (Nat.lt_of_succ_le hfuel) s⟩
  intro s p s' l _ hexp
  obtain ⟨_, rfl⟩ := expand_spec hexp
  exact ⟨length_extensions_le g _ p, fun q hq => ⟨trivial, unused_lt hq⟩⟩

end StackResolution

end CfgLib

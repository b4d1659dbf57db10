import CfgLib.Lib.CountingSort
import CfgLib.Store.Chains

/-!
# The incremental graph store

The store of `graph/store.rs`: a compressed base, a delta of appended nodes
and edges threaded on `DeltaChains`, replacement runs for the nodes whose edges
were redirected, and liveness bits for both slot spaces.  `none` is a panic:
every operation returns it exactly where an assertion or an `expect` of the
source fails.  Identities are dense naturals below `maxSlots`, and the reserved
value `NONE` is `Option.none`.
-/

namespace CfgLib.Store

open CfgLib.Lib

/-- The largest number of slots a dense store can address. -/
def maxSlots : Nat := 2 ^ 32 - 1

/-- One directed edge: two endpoints and a payload. -/
structure EdgeRecord (E : Type) where
  source : Nat
  target : Nat
  payload : E
  deriving DecidableEq, Repr

namespace EdgeRecord

variable {E : Type}

def endpoint (record : EdgeRecord E) : TraversalDirection → Nat
  | .outgoing => record.source
  | .incoming => record.target

def setEndpoint (record : EdgeRecord E) (direction : TraversalDirection) (node : Nat) :
    EdgeRecord E :=
  match direction with
  | .outgoing => { record with source := node }
  | .incoming => { record with target := node }

@[simp] theorem endpoint_setEndpoint (record : EdgeRecord E) (d e : TraversalDirection)
    (node : Nat) :
    (record.setEndpoint d node).endpoint e = if e = d then node else record.endpoint e := by
  cases d <;> cases e <;> rfl

end EdgeRecord

/-! ## Replacement runs -/

/-- The replacement runs along one direction: a dense per-node index into the
run storage. -/
structure Runs where
  index : List (Option Nat)
  runs : List (List Nat)
  deriving DecidableEq, Repr

namespace Runs

def empty : Runs := ⟨[], []⟩

def get (r : Runs) (node : Nat) : Option (List Nat) :=
  match (r.index[node]?).join with
  | none => none
  | some slot => r.runs[slot]?

/-- Write back the run `get_mut` borrowed. -/
def setRun (r : Runs) (node : Nat) (run : List Nat) : Runs :=
  match (r.index[node]?).join with
  | none => r
  | some slot => { r with runs := r.runs.set slot run }

/-- Start `node`'s run; the index grows to cover every node at once. -/
def insert (r : Runs) (node nodeBound : Nat) (run : List Nat) : Option Runs :=
  let index :=
    if r.index.length ≤ node then
      r.index.take nodeBound ++ List.replicate (nodeBound - r.index.length) none
    else r.index
  if index[node]? = some none then
    some { index := index.set node (some r.runs.length), runs := r.runs ++ [run] }
  else none

def isEmpty (r : Runs) : Bool := r.runs.isEmpty

end Runs

/-- Replacement adjacency runs for the nodes whose edges have moved. -/
structure Relocations where
  outgoing : Runs
  incoming : Runs
  deriving DecidableEq, Repr

namespace Relocations

def empty : Relocations := ⟨.empty, .empty⟩

def runs (r : Relocations) : TraversalDirection → Runs
  | .outgoing => r.outgoing
  | .incoming => r.incoming

def setRuns (r : Relocations) (direction : TraversalDirection) (runs : Runs) : Relocations :=
  match direction with
  | .outgoing => { r with outgoing := runs }
  | .incoming => { r with incoming := runs }

@[simp] theorem runs_setRuns (r : Relocations) (d e : TraversalDirection) (runs : Runs) :
    (r.setRuns d runs).runs e = if e = d then runs else r.runs e := by
  cases d <;> cases e <;> rfl

end Relocations

/-! ## The store -/

/-- A directed multigraph stored as a compressed base plus an appendable
delta, with stable dense identities and explicit compaction. -/
structure Graph (N E : Type) where
  baseNodes : List N
  baseEdges : List (EdgeRecord E)
  outOffsets : List Nat
  outEdges : List Nat
  inOffsets : List Nat
  inEdges : List Nat
  deltaNodes : List N
  deltaEdges : List (EdgeRecord E)
  chains : DeltaChains
  liveNodes : LiveSet
  liveEdges : LiveSet
  liveNodeCount : Nat
  liveEdgeCount : Nat
  relocations : Option Relocations
  deriving DecidableEq, Repr

namespace Graph

variable {N E : Type}

/-- An empty store, `Graph::new`. -/
def new : Graph N E where
  baseNodes := []
  baseEdges := []
  outOffsets := []
  outEdges := []
  inOffsets := []
  inEdges := []
  deltaNodes := []
  deltaEdges := []
  chains := .new
  liveNodes := .new
  liveEdges := .new
  liveNodeCount := 0
  liveEdgeCount := 0
  relocations := none

def nodeBound (g : Graph N E) : Nat := g.baseNodes.length + g.deltaNodes.length

def edgeBound (g : Graph N E) : Nat := g.baseEdges.length + g.deltaEdges.length

def tombstonedNodes (g : Graph N E) : Bool := g.liveNodeCount != g.nodeBound

def tombstonedEdges (g : Graph N E) : Bool := g.liveEdgeCount != g.edgeBound

/-- Whether a slot names a node the store still holds. -/
def nodeIsLive (g : Graph N E) (slot : Nat) : Bool :=
  decide (slot < g.nodeBound) && (!g.tombstonedNodes || g.liveNodes.isLive slot)

/-- Whether a slot names an edge the store still holds. -/
def edgeIsLive (g : Graph N E) (slot : Nat) : Bool :=
  decide (slot < g.edgeBound) && (!g.tombstonedEdges || g.liveEdges.isLive slot)

def containsNode (g : Graph N E) (node : Nat) : Bool := g.nodeIsLive node

def containsEdge (g : Graph N E) (edge : Nat) : Bool := g.edgeIsLive edge

/-- A node's payload, removed nodes included. -/
def node (g : Graph N E) (node : Nat) : Option N :=
  if node < g.baseNodes.length then g.baseNodes[node]?
  else g.deltaNodes[node - g.baseNodes.length]?

/-- An edge's endpoints and payload, removed edges included. -/
def edge (g : Graph N E) (edge : Nat) : Option (EdgeRecord E) :=
  if edge < g.baseEdges.length then g.baseEdges[edge]?
  else g.deltaEdges[edge - g.baseEdges.length]?

def edgeMut (g : Graph N E) (edge : Nat) (edit : EdgeRecord E → EdgeRecord E) : Graph N E :=
  if edge < g.baseEdges.length then { g with baseEdges := g.baseEdges.modify edge edit }
  else { g with deltaEdges := g.deltaEdges.modify (edge - g.baseEdges.length) edit }

def assertLiveEndpoint (g : Graph N E) (node : Nat) : Option Unit :=
  if node < g.nodeBound ∧ g.nodeIsLive node then some () else none

/-- Every live node identity in ascending order. -/
def nodeIds (g : Graph N E) : List Nat :=
  (List.range g.nodeBound).filter (fun slot => !g.tombstonedNodes || g.liveNodes.isLive slot)

/-- Every live edge identity in ascending order. -/
def edgeIds (g : Graph N E) : List Nat :=
  (List.range g.edgeBound).filter (fun slot => !g.tombstonedEdges || g.liveEdges.isLive slot)

def addNode (g : Graph N E) (payload : N) : Option (Graph N E × Nat) :=
  let slot := g.nodeBound
  if slot < maxSlots then
    some ({ g with
      deltaNodes := g.deltaNodes ++ [payload]
      liveNodes := g.liveNodes.pushLive.1
      liveNodeCount := g.liveNodeCount + 1 }, slot)
  else none

/-- Add a directed edge and return its stable identity. -/
def addEdge (g : Graph N E) (source target : Nat) (payload : E) : Option (Graph N E × Nat) := do
  g.assertLiveEndpoint source
  g.assertLiveEndpoint target
  let slot := g.edgeBound
  if slot < maxSlots then
    some ({ g with
      deltaEdges := g.deltaEdges ++ [⟨source, target, payload⟩]
      chains := g.chains.append source target g.nodeBound
      liveEdges := g.liveEdges.pushLive.1
      liveEdgeCount := g.liveEdgeCount + 1 }, slot)
  else none

def retireEdge (g : Graph N E) (slot : Nat) : Graph N E × Bool :=
  let (live, had) := g.liveEdges.clear slot
  if had then ({ g with liveEdges := live, liveEdgeCount := g.liveEdgeCount - 1 }, true)
  else (g, false)

/-- Remove an edge, returning whether it had been live. -/
def removeEdge (g : Graph N E) (edge : Nat) : Graph N E × Bool := g.retireEdge edge

/-! ## Adjacency walks -/

/-- Position of a partly consumed adjacency walk. -/
structure AdjacencyCursor where
  base : Nat
  baseEnd : Nat
  delta : Option Nat
  deltaLast : Option Nat
  deriving DecidableEq, Repr

def AdjacencyCursor.exhausted : AdjacencyCursor := ⟨0, 0, none, none⟩

/-- One direction's adjacency arrays, resolved once for a whole walk. -/
structure Axis where
  offsets : List Nat
  edges : List Nat
  chains : DeltaChains
  chain : TraversalDirection
  deriving DecidableEq, Repr

/-- Advance one walk to the next live edge: the compressed run, then the delta
chain.  The two loops of the source share `fuel`, the second starting where the
first one's condition fails. -/
def advance (axis : Axis) (live : Option LiveSet) (deltaBase : Nat) :
    Nat → AdjacencyCursor → Option Nat × AdjacencyCursor
  | 0, cursor => (none, cursor)
  | fuel + 1, cursor =>
    if cursor.base < cursor.baseEnd then
      let edge := axis.edges.getD cursor.base 0
      let cursor := { cursor with base := cursor.base + 1 }
      if LiveSet.passes live edge then (some edge, cursor)
      else advance axis live deltaBase fuel cursor
    else
      match cursor.delta with
      | none => (none, cursor)
      | some delta =>
        let edge := deltaBase + delta
        let cursor := { cursor with
          delta := if some delta = cursor.deltaLast then none
            else axis.chains.nextLink delta axis.chain }
        if LiveSet.passes live edge then (some edge, cursor)
        else advance axis live deltaBase fuel cursor

structure AdjacentEdges where
  axis : Axis
  live : Option LiveSet
  cursor : AdjacencyCursor
  deltaBase : Nat
  deriving DecidableEq, Repr

namespace AdjacentEdges

/-- Enough steps for the rest of a walk over chains of distinct links. -/
def fuel (walk : AdjacentEdges) : Nat :=
  (walk.cursor.baseEnd - walk.cursor.base) + walk.axis.chains.next.length + 1

def next (walk : AdjacentEdges) : Option Nat × AdjacentEdges :=
  let (edge, cursor) := advance walk.axis walk.live walk.deltaBase walk.fuel walk.cursor
  (edge, { walk with cursor := cursor })

def collectWith : Nat → AdjacentEdges → List Nat
  | 0, _ => []
  | fuel + 1, walk =>
    match walk.next with
    | (none, _) => []
    | (some edge, walk) => edge :: collectWith fuel walk

/-- Everything the iterator still yields. -/
def collect (walk : AdjacentEdges) : List Nat := collectWith walk.fuel walk

end AdjacentEdges

def offsets (g : Graph N E) : TraversalDirection → List Nat
  | .outgoing => g.outOffsets
  | .incoming => g.inOffsets

def indexEdges (g : Graph N E) : TraversalDirection → List Nat
  | .outgoing => g.outEdges
  | .incoming => g.inEdges

def axis (g : Graph N E) (direction : TraversalDirection) : Axis where
  offsets := g.offsets direction
  edges := g.indexEdges direction
  chains := g.chains
  chain := direction

/-- Start a walk over one node's adjacency along `axis`. -/
def cursor (g : Graph N E) (node : Nat) (axis : Axis) : Option AdjacencyCursor :=
  if node < g.nodeBound then
    if g.tombstonedNodes && !g.liveNodes.isLive node then some .exhausted
    else
      let (base, baseEnd) :=
        if node + 1 < axis.offsets.length then
          (axis.offsets.getD node 0, axis.offsets.getD (node + 1) 0)
        else (0, 0)
      let (delta, deltaLast) := (axis.chains.ends node axis.chain).getD (none, none)
      some ⟨base, baseEnd, delta, deltaLast⟩
  else none

/-- The replacement adjacency run for `node`, when it has one. -/
def overlay (g : Graph N E) (node : Nat) (direction : TraversalDirection) :
    Option (List Nat) :=
  g.relocations.bind (fun r => (r.runs direction).get node)

/-- The liveness set, when the store holds removed edges. -/
def edgeFilter (g : Graph N E) : Option LiveSet :=
  if g.tombstonedEdges then some g.liveEdges else none

/-- Start a walk over `node`'s live edges along `direction`. -/
def adjacent (g : Graph N E) (node : Nat) (direction : TraversalDirection) :
    Option AdjacentEdges := do
  let axis := g.axis direction
  let cursor ← g.cursor node axis
  let (axis, cursor) :=
    match g.overlay node direction with
    | some run => ({ axis with edges := run }, { cursor with base := 0, baseEnd := run.length })
    | none => (axis, cursor)
  some { axis := axis, live := g.edgeFilter, cursor := cursor, deltaBase := g.baseEdges.length }

def outgoing (g : Graph N E) (node : Nat) : Option (List Nat) :=
  (g.adjacent node .outgoing).map AdjacentEdges.collect

def incoming (g : Graph N E) (node : Nat) : Option (List Nat) :=
  (g.adjacent node .incoming).map AdjacentEdges.collect

/-- Remove every live edge reachable from `node` in `direction`. -/
def clearAdjacency (g : Graph N E) (node : Nat) (direction : TraversalDirection) :
    Option (Graph N E) := do
  let walk ← g.adjacent node direction
  some (walk.collect.foldl (fun g edge => (g.retireEdge edge).1) g)

/-- Remove a node and all of its edges, returning whether it had been live. -/
def removeNode (g : Graph N E) (node : Nat) : Option (Graph N E × Bool) :=
  if g.nodeIsLive node then do
    let g ← g.clearAdjacency node .outgoing
    let g ← g.clearAdjacency node .incoming
    some ({ g with
      liveNodes := (g.liveNodes.clear node).1
      liveNodeCount := g.liveNodeCount - 1 }, true)
  else some (g, false)

/-! ## Redirection -/

/-- `node`'s compressed run along `direction`, removed edges included. -/
def baseRun (g : Graph N E) (node : Nat) (direction : TraversalDirection) : List Nat :=
  let offsets := g.offsets direction
  if node + 1 < offsets.length then
    CountingSort.slice (g.indexEdges direction) (offsets.getD node 0) (offsets.getD (node + 1) 0)
  else []

/-- Drop the removed edges from a run, when there are any to drop. -/
def retainLive (run : List Nat) (live : Option LiveSet) : List Nat :=
  match live with
  | some live => run.filter live.isLive
  | none => run

def liveBaseRun (g : Graph N E) (node : Nat) (direction : TraversalDirection) : List Nat :=
  retainLive (g.baseRun node direction) g.edgeFilter

/-- Give `node` its first overlay run along `direction`. -/
def startRun (g : Graph N E) (node : Nat) (direction : TraversalDirection) :
    Option (Graph N E) := do
  let run := g.liveBaseRun node direction
  let relocations := g.relocations.getD .empty
  let runs ← (relocations.runs direction).insert node g.nodeBound run
  some { g with relocations := some (relocations.setRuns direction runs) }

/-- The opening test of `with_run`: a node that has never relocated gets its run. -/
def ensureRun (g : Graph N E) (node : Nat) (direction : TraversalDirection) :
    Option (Graph N E) :=
  if (g.overlay node direction).isNone then g.startRun node direction else some g

/-- Edit `node`'s overlay run, which takes over the node's delta chain first. -/
def withRun {R : Type} (g : Graph N E) (node : Nat) (direction : TraversalDirection)
    (edit : List Nat → Option LiveSet → List Nat × R) : Option (Graph N E × R) := do
  let g ← g.ensureRun node direction
  let live := g.edgeFilter
  let relocations ← g.relocations
  let run ← (relocations.runs direction).get node
  let (chains, run) := g.chains.drainInto node direction g.baseEdges.length live run
  let (run, result) := edit run live
  let runs := (relocations.runs direction).setRun node run
  some ({ g with
    chains := chains
    relocations := some (relocations.setRuns direction runs) }, result)

/-- `usize::is_power_of_two`. -/
def isPowerOfTwo (n : Nat) : Bool := n != 0 && 2 ^ n.log2 == n

/-- Drop the removed edges from `run` when its length is a power of two. -/
def sweep (run : List Nat) (live : Option LiveSet) : List Nat :=
  match live with
  | some live => if isPowerOfTwo run.length then run.filter live.isLive else run
  | none => run

def redirect (g : Graph N E) (edge endpoint : Nat) (direction : TraversalDirection) :
    Option (Graph N E × Nat) := do
  if !g.containsEdge edge then none
  g.assertLiveEndpoint endpoint
  let record ← g.edge edge
  let previous := record.endpoint direction
  if previous = endpoint then return (g, previous)
  let g := g.edgeMut edge (·.setEndpoint direction endpoint)
  -- `position` and `remove` take out the first occurrence
  let (g, _) ← g.withRun previous direction (fun run live => ((sweep run live).erase edge, ()))
  let (g, _) ← g.withRun endpoint direction (fun run live => (sweep run live ++ [edge], ()))
  return (g, previous)

def redirectEdgeSource (g : Graph N E) (edge source : Nat) : Option (Graph N E × Nat) :=
  g.redirect edge source .outgoing

def redirectEdgeTarget (g : Graph N E) (edge target : Nat) : Option (Graph N E × Nat) :=
  g.redirect edge target .incoming

def moveAdjacency (g : Graph N E) (old new : Nat) (direction : TraversalDirection) :
    Option (Graph N E) := do
  if old = new then none
  let walk ← g.adjacent old direction
  if walk.next.1.isNone then return g
  g.assertLiveEndpoint new
  let (g, moved) ← g.withRun old direction (fun run live => ([], retainLive run live))
  let g := moved.foldl (fun g slot => g.edgeMut slot (·.setEndpoint direction new)) g
  let (g, _) ← g.withRun new direction (fun run live => (sweep run live ++ moved, ()))
  return g

/-! ## Compaction -/

/-- The raw form of a link, in which an absent one is the reserved value. -/
def raw (link : Option Nat) : Nat := link.getD maxSlots

/-- The new dense number of every live slot. -/
def survivingSlots (live : LiveSet) (slots : Nat) : List (Option Nat) :=
  ((List.range slots).foldl
    (fun (state : List (Option Nat) × Nat) slot =>
      if live.isLive slot then (state.1 ++ [some state.2], state.2 + 1)
      else (state.1 ++ [none], state.2))
    ([], 0)).1

/-- Old-to-new identities produced by one compaction. -/
structure Renumbering where
  nodes : List (Option Nat)
  edges : List (Option Nat)
  deriving DecidableEq, Repr

/-- The adjacency of every surviving node whose run is not in identity order,
as it reads now, in the new numbering. -/
def reorderedAdjacency (g : Graph N E) (direction : TraversalDirection)
    (nodeMap edgeMap : List (Option Nat)) : List (Nat × List Nat) :=
  ((List.range g.nodeBound).filter (fun slot =>
    (nodeMap.getD slot none).isSome &&
      !decide (((g.overlay slot direction).getD (g.baseRun slot direction)).Pairwise (· ≤ ·)))).map
    (fun slot =>
      (raw (nodeMap.getD slot none),
        ((g.adjacent slot direction).elim [] AdjacentEdges.collect).map
          (fun edge => raw (edgeMap.getD edge none))))

def takeLiveNodes (g : Graph N E) (nodeMap : List (Option Nat)) : List N :=
  ((g.baseNodes ++ g.deltaNodes).zipIdx.filter
    (fun entry => (nodeMap.getD entry.2 none).isSome)).map Prod.fst

def remapEndpoint (nodeMap : List (Option Nat)) (old : Nat) : Nat :=
  raw (nodeMap.getD old none)

def takeLiveEdges (g : Graph N E) (nodeMap : List (Option Nat)) : List (EdgeRecord E) :=
  ((g.baseEdges ++ g.deltaEdges).zipIdx.filter (fun entry => g.liveEdges.isLive entry.2)).map
    (fun entry =>
      { entry.1 with
        source := remapEndpoint nodeMap entry.1.source
        target := remapEndpoint nodeMap entry.1.target })

/-- Build one direction's compressed adjacency index over compacted edges. -/
def compress (edges : List (EdgeRecord E)) (nodes : Nat) (direction : TraversalDirection) :
    List Nat × List Nat :=
  let keys := edges.map (·.endpoint direction)
  (CountingSort.offsets nodes keys, CountingSort.placement 0 nodes keys.zipIdx)

/-- Overwrite the runs of the nodes in `reordered` with the order they read in. -/
def restoreRuns (offsets : List Nat) (edges : List Nat) (reordered : List (Nat × List Nat)) :
    List Nat :=
  reordered.foldl
    (fun edges entry => CountingSort.overwrite edges (offsets.getD entry.1 0) entry.2) edges

/-- Rebuild the compressed base from the live entities and report the new
numbering. -/
def compact (g : Graph N E) : Graph N E × Renumbering :=
  let nodeMap := survivingSlots g.liveNodes g.nodeBound
  let edgeMap := survivingSlots g.liveEdges g.edgeBound
  let reorderedOut := g.reorderedAdjacency .outgoing nodeMap edgeMap
  let reorderedIn := g.reorderedAdjacency .incoming nodeMap edgeMap
  let nodes := g.takeLiveNodes nodeMap
  let edges := g.takeLiveEdges nodeMap
  let (outOffsets, outEdges) := compress edges nodes.length .outgoing
  let (inOffsets, inEdges) := compress edges nodes.length .incoming
  ({ baseNodes := nodes
     baseEdges := edges
     outOffsets := outOffsets
     outEdges := restoreRuns outOffsets outEdges reorderedOut
     inOffsets := inOffsets
     inEdges := restoreRuns inOffsets inEdges reorderedIn
     deltaNodes := []
     deltaEdges := []
     chains := .new
     liveNodes := .resetAllLive nodes.length
     liveEdges := .resetAllLive edges.length
     liveNodeCount := nodes.length
     liveEdgeCount := edges.length
     relocations := none },
    ⟨nodeMap, edgeMap⟩)

/-! ## Operation sequences -/

end Graph

/-- The mutating operations of a store. -/
inductive Op (N E : Type) where
  | addNode (payload : N)
  | addEdge (source target : Nat) (payload : E)
  | removeEdge (edge : Nat)
  | removeNode (node : Nat)
  | redirectEdgeSource (edge source : Nat)
  | redirectEdgeTarget (edge target : Nat)
  | moveAdjacency (old new : Nat) (direction : TraversalDirection)
  | compact
  deriving DecidableEq, Repr

namespace Graph

variable {N E : Type}

/-- One operation, or `none` where the source panics. -/
def apply (g : Graph N E) : Op N E → Option (Graph N E)
  | .addNode payload => (g.addNode payload).map Prod.fst
  | .addEdge source target payload => (g.addEdge source target payload).map Prod.fst
  | .removeEdge edge => some (g.removeEdge edge).1
  | .removeNode node => (g.removeNode node).map Prod.fst
  | .redirectEdgeSource edge source => (g.redirectEdgeSource edge source).map Prod.fst
  | .redirectEdgeTarget edge target => (g.redirectEdgeTarget edge target).map Prod.fst
  | .moveAdjacency old new direction => g.moveAdjacency old new direction
  | .compact => some g.compact.1

def applyAll (g : Graph N E) (ops : List (Op N E)) : Option (Graph N E) :=
  ops.foldlM apply g

end Graph

end CfgLib.Store

import CfgLib.Cfg.Split
import CfgLib.Graph.Dominator.Tree
import CfgLib.Graph.Events
import CfgLib.Lib.Fold

/-!
# Irreducible to reducible by node splitting

`graph/reducible.rs`: each round finds a cycle with several entries, keeps one as
its header, copies what the others lead to inside the cycle, and sends the edges
from outside into those entries to the copies.
-/

namespace CfgLib.Cfg

open CfgLib.Lib Dominator

variable {ι π : Type}

/-! ## Finding a cycle -/

/-- Per node, whether some seed reaches it without entering a node outside `within`; `none`
is the panic on a seed beyond the bound. -/
def reachableIn (g : GraphView) (seeds : List Nat) (d : TraversalDirection) (within : Nat → Bool) :
    Option (Nat → Bool) :=
  if ∀ seed ∈ seeds, seed < g.nodeBound then
    some (iterate
      (fun s : Flood =>
        match s.stack with
        | [] => none
        | node :: stack =>
          some (((g.neighbors d node).filter within).foldl Flood.discover { s with stack := stack }))
      g.nodeBound (seeds.foldl Flood.discover ⟨fun _ => false, []⟩)).visited
  else none

def findIrreducibleEntry (g : RootedView) (dom : DominatorTree) : Option (Option Nat) :=
  if g.nodeBound = 0 then some none
  else
    depthFirstEvents g.toGraphView g.root .outgoing fun event =>
      match event with
      | .backEdge tail header => if !dom.dominates header tail then some header else none
      | _ => none

/-- The blocks reached from `start` without entering a block outside `within`. -/
def closure (c : Cfg ι π) (start : List Nat) (d : TraversalDirection) (within : Nat → Bool) :
    Option (Nat → Bool) :=
  reachableIn c.view.toGraphView start d within

/-- A cycle that can be entered at more than one block. -/
structure MultiEntryCycle where
  member : Nat → Bool
  entries : List Nat

/-- The innermost cycle through `witness` with more than one entry; a single entry is set
aside and the search goes on in what is left. -/
def multiEntryCycle (c : Cfg ι π) (dom : DominatorTree) (witness : Nat) :
    Nat → (Nat → Bool) → Option MultiEntryCycle
  | 0, _ => none
  | fuel + 1, allowed => do
    let ahead ← c.closure [witness] .outgoing allowed
    let behind ← c.closure [witness] .incoming ahead
    let member := fun b => ahead b && behind b
    let entries := c.blockIds.filter fun b =>
      member b && (b == c.entry ||
        (c.predecessors b).any fun before => dom.isReachable before && !member before)
    match entries with
    | [only] =>
      if only = witness then none
      else multiEntryCycle c dom witness fuel (Function.update allowed only false)
    | _ => some ⟨member, entries⟩

/-! ## Splitting a cycle -/

/-- What the entries other than `header` lead to inside the cycle without passing it. -/
def regionWithout (c : Cfg ι π) (cycle : MultiEntryCycle) (header : Nat) : Option (Nat → Bool) :=
  c.closure (cycle.entries.filter fun entry => entry ≠ header) .outgoing
    (Function.update cycle.member header false)

/-- The header of the split and the blocks to copy: the function entry when it is an entry
of the cycle, and otherwise the entry with the smallest set to copy. -/
def chooseHeader (c : Cfg ι π) (cycle : MultiEntryCycle) : Option (Nat × (Nat → Bool)) :=
  if c.entry ∈ cycle.entries then (c.regionWithout cycle c.entry).map fun region => (c.entry, region)
  else do
    let choices ← cycle.entries.mapM fun header =>
      (c.regionWithout cycle header).map fun region => (header, region)
    minByKey (fun choice : Nat × (Nat → Bool) =>
      ((List.range c.blockBound).filter choice.2).length) choices

/-- The graph under construction and the copy of each block. -/
structure Copying (ι π : Type) where
  cfg : Cfg ι π
  copyOf : Nat → Option Nat

def copyBlock (s : Copying ι π) (b : Nat) : Option (Copying ι π) := do
  let (copy, cfg) ← s.cfg.newBlock
  let block ← cfg.block b
  some {
    cfg := cfg.modifyBlock copy fun empty =>
      { empty with instructions := empty.instructions ++ block.instructions }
    copyOf := Function.update s.copyOf b (some copy) }

def addWeightedEdgeWithPayload (c : Cfg ι π) (source target : Nat) (edge : Edge π) :
    Option (Nat × Cfg ι π) :=
  (c.graph.addEdge source target edge).map fun graph => (c.edgeBound, { c with graph })

/-- Copy one edge to the copy of its source; a copied target is replaced by its copy. -/
def copyEdge (copyOf : Nat → Option Nat) (copy : Nat) (c : Cfg ι π)
    (r : Store.EdgeRecord (Edge π)) : Option (Cfg ι π) :=
  (c.addWeightedEdgeWithPayload copy ((copyOf r.target).getD r.target) r.payload).map (·.2)

/-- Give the copy of a block the edges of the block, in adjacency order. -/
def copyEdges (copyOf : Nat → Option Nat) (c : Cfg ι π) (b : Nat) : Option (Cfg ι π) := do
  let copy ← copyOf b
  ((c.outgoing b).filterMap c.edge).foldlM (copyEdge copyOf copy) c

def redirectTo (copy : Nat) (c : Cfg ι π) (e : Nat) : Option (Cfg ι π) :=
  (c.redirectEdgeTarget e copy).map (·.2)

def redirectEntry (cycle : MultiEntryCycle) (copyOf : Nat → Option Nat) (c : Cfg ι π) (entry : Nat) :
    Option (Cfg ι π) := do
  let fromOutside := (c.incoming entry).filter fun e =>
    (c.edge e).any fun r => !cycle.member r.source
  let copy ← copyOf entry
  fromOutside.foldlM (redirectTo copy) c

/-- Make a cycle single-entry; the blocks it copies are those of `region`. -/
def splitCycle (c : Cfg ι π) (cycle : MultiEntryCycle) (header : Nat) (region : Nat → Bool) :
    Option (List Nat × Cfg ι π) := do
  let copied := c.blockIds.filter region
  let s ← copied.foldlM copyBlock ⟨c, fun _ => none⟩
  let cfg ← copied.foldlM (copyEdges s.copyOf) s.cfg
  let cfg ← (cycle.entries.filter fun entry => entry ≠ header).foldlM
    (redirectEntry cycle s.copyOf) cfg
  some (copied, cfg)

/-- The cycle a round splits, its header and the blocks to copy; `some none` when the graph
is reducible. -/
def roundCycle (c : Cfg ι π) : Option (Option (MultiEntryCycle × Nat × (Nat → Bool))) := do
  let dom ← DominatorTree.compute c.view
  match ← findIrreducibleEntry c.view dom with
  | none => some none
  | some witness => do
    let cycle ← c.multiEntryCycle dom witness (c.blockBound + 1) fun _ => true
    let (header, region) ← c.chooseHeader cycle
    some (some (cycle, header, region))

/-- Split until the graph is reducible, and report how many blocks were copied; `none` is a
panic or too little fuel. -/
def makeReducible : Nat → Cfg ι π → Option (Nat × Cfg ι π)
  | 0, _ => none
  | fuel + 1, c => do
    match ← c.roundCycle with
    | none => some (0, c)
    | some (cycle, header, region) => do
      let (copied, c) ← c.splitCycle cycle header region
      let (duplicated, c) ← makeReducible fuel c
      some (copied.length + duplicated, c)

end CfgLib.Cfg

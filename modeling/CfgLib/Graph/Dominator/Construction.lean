import CfgLib.Graph.View
import CfgLib.Lib.Loop
import Mathlib.Logic.Function.Basic

/-!
# Immediate dominators by the simple Lengauer-Tarjan algorithm

`graph/dominator/construction.rs`: a depth-first numbering, semidominators as
minima over a link-eval forest with path compression, and a forward pass that
turns relative dominators into immediate ones.  Every table is indexed by
depth-first number, except `number`, which is indexed by node.  The word
`ABSENT` of the source is `none`; stacks keep their top at the head.
-/

namespace CfgLib.Dominator

open CfgLib.Lib Function

/-- A node the depth-first search still has to number, and the depth-first
number of the node that reached it. -/
structure Pending where
  node : Nat
  parent : Option Nat
  deriving DecidableEq, Repr

/-- Every table the Lengauer-Tarjan computation fills, owned by the caller. -/
structure ConstructionBuffers where
  /-- Depth-first number of each node. -/
  number : Nat → Option Nat
  /-- Node of each depth-first number. -/
  vertex : List Nat
  /-- Depth-first number of each node's parent in the search tree. -/
  parent : List (Option Nat)
  /-- Semidominator of each node, as a depth-first number. -/
  semi : Nat → Nat
  /-- The node of least semidominator on the compressed path above a node. -/
  label : Nat → Nat
  /-- The link-eval forest. -/
  ancestor : Nat → Option Nat
  /-- Relative dominator of each node, then its immediate dominator. -/
  dominator : Nat → Option Nat
  /-- First node of the bucket of each node. -/
  bucketHead : Nat → Option Nat
  /-- The node after each node in its bucket. -/
  bucketNext : Nat → Option Nat
  pending : List Pending
  path : List Nat

namespace ConstructionBuffers

/-- `Default::default`. -/
def default : ConstructionBuffers where
  number _ := none
  vertex := []
  parent := []
  semi _ := 0
  label _ := 0
  ancestor _ := none
  dominator _ := none
  bucketHead _ := none
  bucketNext _ := none
  pending := []
  path := []

def reached (s : ConstructionBuffers) : Nat := s.vertex.length

/-- The search parent of a number, `none` for the root. -/
def parentOf (s : ConstructionBuffers) (k : Nat) : Option Nat := (s.parent[k]?).join

def vertexOf (s : ConstructionBuffers) (k : Nat) : Nat := s.vertex.getD k 0

/-! ## The depth-first search -/

/-- Number a popped node and push its unnumbered successors. -/
def visit (g : GraphView) (s : ConstructionBuffers) (p : Pending) : ConstructionBuffers :=
  let number := update s.number p.node (some s.vertex.length)
  { s with
    number := number
    vertex := s.vertex ++ [p.node]
    parent := s.parent ++ [p.parent]
    pending := (((g.successors p.node).filter fun w => (number w).isNone).map
      fun w => ⟨w, some s.vertex.length⟩).reverse ++ s.pending }

def searchStep (g : GraphView) (s : ConstructionBuffers) : Option ConstructionBuffers :=
  match s.pending with
  | [] => none
  | p :: rest =>
    let s := { s with pending := rest }
    if (s.number p.node).isSome then some s else some (s.visit g p)

/-- The search state before the first round. -/
def searchInit (s : ConstructionBuffers) (root : Nat) : ConstructionBuffers :=
  { s with number := fun _ => none, vertex := [], parent := [], pending := [⟨root, none⟩] }

/-- Number the nodes reachable from `root` in depth-first preorder.  Each push
beyond the first belongs to an edge, which bounds the rounds. -/
def search (g : GraphView) (root : Nat) (s : ConstructionBuffers) : ConstructionBuffers :=
  iterate (searchStep g)
    (1 + total (fun v => (g.successors v).length) (List.range g.nodeBound)) (s.searchInit root)

/-! ## The link-eval forest -/

/-- Reset the link-eval tables. -/
def prepare (s : ConstructionBuffers) : ConstructionBuffers :=
  { s with
    semi := id
    label := id
    ancestor := fun _ => none
    dominator := update s.parentOf 0 (some 0)
    bucketHead := fun _ => none
    bucketNext := fun _ => none }

/-- The nodes on the way up from `node` whose ancestor is not a root of the
forest, nearest the root first. -/
def climb (ancestor : Nat → Option Nat) : Nat → Nat → List Nat → List Nat
  | 0, _, path => path
  | fuel + 1, node, path =>
    match ancestor node with
    | none => path
    | some above => if (ancestor above).isNone then path else climb ancestor fuel above (node :: path)

/-- Point one node past its ancestor, keeping the label of least semidominator. -/
def shortcut (s : ConstructionBuffers) (node : Nat) : ConstructionBuffers :=
  match s.ancestor node with
  | none => s
  | some ancestor =>
    let above := s.label ancestor
    { s with
      label := if s.semi above < s.semi (s.label node) then update s.label node above
        else s.label
      ancestor := update s.ancestor node (s.ancestor ancestor)
      path := s.path.tail }

/-- Point every node on the path above `start` at the node below the root. -/
def compress (s : ConstructionBuffers) (start : Nat) : ConstructionBuffers :=
  let path := climb s.ancestor s.reached start []
  path.foldl shortcut { s with path := path }

/-- The node of least semidominator on the path from `node` up to, but not
including, the root of its tree in the link-eval forest. -/
def evaluate (s : ConstructionBuffers) (node : Nat) : ConstructionBuffers × Nat :=
  if (s.ancestor node).isNone then (s, node)
  else
    let s := s.compress node
    (s, s.label node)

/-! ## One node -/

def offer (acc : ConstructionBuffers × Nat) (predecessor : Nat) : ConstructionBuffers × Nat :=
  match acc.1.number predecessor with
  | none => acc
  | some number =>
    let (s, least) := acc.1.evaluate number
    (s, min acc.2 (s.semi least))

/-- File `node` under its semidominator unless that is its search parent, and
link it below the latter. -/
def link (s : ConstructionBuffers) (node semi : Nat) : ConstructionBuffers :=
  let parent := s.parentOf node
  let s := { s with semi := update s.semi node semi }
  let s :=
    if some semi ≠ parent then
      { s with
        bucketNext := update s.bucketNext node (s.bucketHead semi)
        bucketHead := update s.bucketHead semi (some node) }
    else s
  { s with ancestor := update s.ancestor node parent }

/-- Settle the waiting node, whose semidominator is `parent`. -/
def settle (parent : Nat) (acc : ConstructionBuffers × Option Nat) :
    Option (ConstructionBuffers × Option Nat) :=
  match acc.2 with
  | none => none
  | some waiting =>
    let (s, least) := acc.1.evaluate waiting
    let dominator := if s.semi least < s.semi waiting then least else parent
    some ({ s with dominator := update s.dominator waiting (some dominator) },
      s.bucketNext waiting)

def drain (s : ConstructionBuffers) (parent : Nat) : ConstructionBuffers :=
  let waiting := s.bucketHead parent
  let s := { s with bucketHead := update s.bucketHead parent none }
  (iterate (settle parent) s.reached (s, waiting)).1

/-- Find the semidominator of `node`, link it below its search parent, and
settle every node whose semidominator is that parent. -/
def process (g : GraphView) (s : ConstructionBuffers) (node : Nat) : ConstructionBuffers :=
  let (s, semi) := (g.predecessors (s.vertexOf node)).foldl offer (s, s.semi node)
  let s := s.link node semi
  match s.parentOf node with
  | none => s
  | some parent => s.drain parent

/-! ## The whole computation -/

/-- Turn the relative dominator of `node` into the immediate one and record it. -/
def resolve (acc : ConstructionBuffers × (Nat → Option Nat)) (node : Nat) :
    ConstructionBuffers × (Nat → Option Nat) :=
  let s := acc.1
  let dominator :=
    if s.dominator node ≠ some (s.semi node) then (s.dominator node).bind s.dominator
    else s.dominator node
  ({ s with dominator := update s.dominator node dominator },
    update acc.2 (s.vertexOf node) (dominator.map s.vertexOf))

/-- The parent table of the dominator tree from `root`, indexed by node. -/
def immediateDominators (g : GraphView) (root : Nat) (s : ConstructionBuffers) :
    ConstructionBuffers × (Nat → Option Nat) :=
  let s := (s.search g root).prepare
  let s := (List.range' 1 (s.reached - 1)).reverse.foldl (process g) s
  (List.range' 1 (s.reached - 1)).foldl resolve (s, fun _ => none)

end ConstructionBuffers

end CfgLib.Dominator

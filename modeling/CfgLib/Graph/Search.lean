import CfgLib.Graph.Epoch
import CfgLib.Graph.View
import CfgLib.Lib.PathSearch

/-!
# Search disciplines

`graph/search.rs`: what a visitor may answer, the one rule by which every
discipline, dense or open, bounds its depth, and the three dense searches over
reused marks and buffers.
-/

namespace CfgLib

open Lib

/-- A visitor's verdict on the node it was handed. -/
inductive Visit where
  /-- Expand this node, subject to the depth bound. -/
  | descend
  /-- The node counts as visited, but nothing is discovered through it. -/
  | skip
  deriving DecidableEq, Repr

/-- Whether a node at `depth` may expand: the bound limits expansion, never visiting. -/
def mayExpand (maxDepth : Option Nat) (depth : Nat) : Bool := maxDepth.all (depth < ·)

/-- Whether a search marks a node for the whole walk or only while it is on the path. -/
inductive VisitedPolicy where
  | global
  | path
  deriving DecidableEq, Repr

/-- The discipline a search runs under. -/
structure SearchConfig where
  order : SearchOrder
  visited : VisitedPolicy
  direction : TraversalDirection
  maxDepth : Option Nat

inductive PathStep where
  | enter (node depth : Nat)
  | leave (node : Nat)
  deriving DecidableEq, Repr

/-- The buffers that a search fills; the top of a stack is its head. -/
structure SearchBuffers where
  seeds : List Nat
  frontier : List (Nat × Nat)
  path : List PathStep
  adjacent : List Nat

def SearchBuffers.reset (_buffers : SearchBuffers) : SearchBuffers := ⟨[], [], [], []⟩

/-- A search between two turns, with what its visitor captured and the value it broke with. -/
structure Searching (σ β : Type) where
  marks : EpochMarks
  buffers : SearchBuffers
  head : Nat
  captured : σ
  broke : Option β

namespace Searching

variable {σ β : Type} (g : GraphView) (config : SearchConfig) (visitor : Nat → Nat → σ → Except β Visit × σ)

/-- Hand a node to the visitor and expand it when the verdict and the bound allow it. -/
def visit (node depth : Nat) (expand : Searching σ β → Searching σ β) (w : Searching σ β) : Searching σ β :=
  match visitor node depth w.captured with
  | (.error value, s) => { w with captured := s, broke := some value }
  | (.ok .skip, s) => { w with captured := s }
  | (.ok .descend, s) =>
    if mayExpand config.maxDepth depth then expand { w with captured := s } else { w with captured := s }

def pushUnmarked (node depth : Nat) (w : Searching σ β) : Searching σ β :=
  let adjacent := g.neighbors config.direction node
  { w with
    buffers := { w.buffers with
      adjacent
      frontier := (adjacent.filter fun n => !w.marks.isMarked n).map (·, depth + 1) ++ w.buffers.frontier } }

def depthFirstGlobal (w : Searching σ β) : Option (Searching σ β) :=
  match w.broke, w.buffers.frontier with
  | some _, _ => none
  | none, [] => none
  | none, (node, depth) :: stack =>
    let w := { w with buffers := { w.buffers with frontier := stack } }
    if w.marks.isMarked node then some w
    else some (visit config visitor node depth (pushUnmarked g config node depth) { w with marks := w.marks.mark node })

/-- Push an entry for every neighbor, the first on top. -/
def pushEntries (node depth : Nat) (w : Searching σ β) : Searching σ β :=
  let adjacent := g.neighbors config.direction node
  { w with
    buffers := { w.buffers with adjacent, path := adjacent.map (.enter · (depth + 1)) ++ w.buffers.path } }

def depthFirstPath (w : Searching σ β) : Option (Searching σ β) :=
  match w.broke, w.buffers.path with
  | some _, _ => none
  | none, [] => none
  | none, .leave node :: stack =>
    some { w with marks := w.marks.unmark node, buffers := { w.buffers with path := stack } }
  | none, .enter node depth :: stack =>
    if w.marks.isMarked node then some { w with buffers := { w.buffers with path := stack } }
    else some (visit config visitor node depth (pushEntries g config node depth)
      { w with marks := w.marks.mark node, buffers := { w.buffers with path := .leave node :: stack } })

/-- Mark the unmarked of some nodes and append them to the queue. -/
def enqueue (depth : Nat) : List Nat → Searching σ β → Searching σ β
  | [], w => w
  | n :: rest, w =>
    if w.marks.isMarked n then enqueue depth rest w
    else enqueue depth rest
      { w with
        marks := w.marks.mark n
        buffers := { w.buffers with frontier := w.buffers.frontier ++ [(n, depth)] } }

def breadthFirstGlobal (w : Searching σ β) : Option (Searching σ β) :=
  match w.broke, w.buffers.frontier[w.head]? with
  | some _, _ => none
  | none, none => none
  | none, some (node, depth) =>
    some (visit config visitor node depth (enqueue (depth + 1) (g.neighbors config.direction node))
      { w with head := w.head + 1 })

end Searching

/-- The one search: validate, reset, and dispatch to the core of the discipline; `none` is the panic
on a seed out of range, on marks that cover too few nodes and on a path-marked queue. -/
def searchIn {σ β : Type} (fuel : Nat) (g : GraphView) (seeds : List Nat) (config : SearchConfig) (marks : EpochMarks)
    (buffers : SearchBuffers) (visitor : Nat → Nat → σ → Except β Visit × σ) (s : σ) : Option (Searching σ β) :=
  let buffers := { buffers.reset with seeds }
  if seeds.all (· < g.nodeBound) && decide (g.nodeBound ≤ marks.capacity) then
    let w : Searching σ β := ⟨marks.reset, buffers, 0, s, none⟩
    match config.order, config.visited with
    | .depthFirst, .global => some (iterate (Searching.depthFirstGlobal g config visitor) fuel
        { w with buffers := { buffers with frontier := seeds.map (·, 0) } })
    | .depthFirst, .path => some (iterate (Searching.depthFirstPath g config visitor) fuel
        { w with buffers := { buffers with path := seeds.map (.enter · 0) } })
    | .breadthFirst, .global => some (iterate (Searching.breadthFirstGlobal g config visitor) fuel
        (w.enqueue 0 seeds))
    | .breadthFirst, .path => none
  else none

end CfgLib

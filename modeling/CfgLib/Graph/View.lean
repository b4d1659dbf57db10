import Mathlib.Data.List.Basic
import Mathlib.Data.List.Count
import Mathlib.Logic.Equiv.Defs

/-!
# Read-only graph views

`graph/view.rs`: forward and reverse adjacency over dense node identities,
with a bound that sizes every side table and the live identities below it.
-/

namespace CfgLib

open List

/-- Direction in which a walk follows edges. -/
inductive TraversalDirection where
  | outgoing
  | incoming
  deriving DecidableEq, Repr

/-- The direction that walks the same edges the other way. -/
def TraversalDirection.against : TraversalDirection → TraversalDirection
  | outgoing => incoming
  | incoming => outgoing

/-- Adjacency over dense identities, parallel edges included. -/
structure GraphView where
  nodeBound : Nat
  nodeIds : List Nat
  successors : Nat → List Nat
  predecessors : Nat → List Nat

def GraphView.neighbors (g : GraphView) : TraversalDirection → Nat → List Nat
  | .outgoing => g.successors
  | .incoming => g.predecessors

/-- A view with a distinguished entry node. -/
structure RootedView extends GraphView where
  root : Nat

/-- The dense-identity contract of a view: yielded identities lie below the
bound, live nodes are yielded once and have only live neighbors, and the two
directions describe one edge multiset. -/
structure GraphView.Lawful (g : GraphView) : Prop where
  nodeIds_lt : ∀ n ∈ g.nodeIds, n < g.nodeBound
  nodeIds_nodup : g.nodeIds.Nodup
  successors_lt : ∀ n m, n < g.nodeBound → m ∈ g.successors n → m < g.nodeBound
  predecessors_lt : ∀ n m, n < g.nodeBound → m ∈ g.predecessors n → m < g.nodeBound
  successors_live : ∀ n ∈ g.nodeIds, ∀ m ∈ g.successors n, m ∈ g.nodeIds
  predecessors_live : ∀ n ∈ g.nodeIds, ∀ m ∈ g.predecessors n, m ∈ g.nodeIds
  transpose : ∀ source target, source < g.nodeBound → target < g.nodeBound →
    (g.successors source).count target = (g.predecessors target).count source

def GraphView.Edge (g : GraphView) (source target : Nat) : Prop :=
  source < g.nodeBound ∧ target ∈ g.successors source

variable {g : GraphView} {m n : Nat}

theorem GraphView.Lawful.edge_lt (h : g.Lawful) {a b : Nat} (he : g.Edge a b) :
    a < g.nodeBound ∧ b < g.nodeBound :=
  ⟨he.1, h.successors_lt a b he.1 he.2⟩

theorem GraphView.Lawful.mem_predecessors (h : g.Lawful) {a b : Nat}
    (hb : b < g.nodeBound) : a ∈ g.predecessors b ↔ g.Edge a b := by
  constructor
  · intro ha
    have hlt := h.predecessors_lt b a hb ha
    refine ⟨hlt, count_pos_iff.mp ?_⟩
    rw [h.transpose a b hlt hb]
    exact count_pos_iff.mpr ha
  · rintro ⟨ha, hs⟩
    apply count_pos_iff.mp
    rw [← h.transpose a b ha hb]
    exact count_pos_iff.mpr hs

theorem GraphView.Lawful.neighbors_live (h : g.Lawful) (d : TraversalDirection)
    (hn : n ∈ g.nodeIds) (hm : m ∈ g.neighbors d n) : m ∈ g.nodeIds := by
  cases d with
  | outgoing => exact h.successors_live n hn m hm
  | incoming => exact h.predecessors_live n hn m hm

theorem GraphView.Lawful.neighbors_lt (h : g.Lawful) (d : TraversalDirection)
    (hn : n < g.nodeBound) (hm : m ∈ g.neighbors d n) : m < g.nodeBound := by
  cases d with
  | outgoing => exact h.successors_lt n m hn hm
  | incoming => exact h.predecessors_lt n m hn hm

theorem GraphView.Lawful.mem_neighbors_against (h : g.Lawful) (d : TraversalDirection)
    (hn : n < g.nodeBound) (hm : m < g.nodeBound) :
    m ∈ g.neighbors d.against n ↔ n ∈ g.neighbors d m := by
  cases d with
  | outgoing =>
    exact (h.mem_predecessors hn).trans ⟨fun he => he.2, fun he => ⟨hm, he⟩⟩
  | incoming =>
    exact ⟨fun he => (h.mem_predecessors hm).mpr ⟨hn, he⟩, fun he => ((h.mem_predecessors hm).mp he).2⟩

/-- `g'` is `g` with its nodes renumbered and its adjacency lists reordered. -/
structure GraphView.Renumbered (g g' : GraphView) (ν : Nat ≃ Nat) : Prop where
  nodeIds_iff : ∀ n, ν n ∈ g'.nodeIds ↔ n ∈ g.nodeIds
  neighbors_perm : ∀ d, ∀ n ∈ g.nodeIds, (g'.neighbors d (ν n)).Perm ((g.neighbors d n).map ν)

theorem GraphView.Renumbered.mem_neighbors {g' : GraphView} {ν : Nat ≃ Nat} (h : g.Renumbered g' ν)
    (d : TraversalDirection) (hn : n ∈ g.nodeIds) :
    ν m ∈ g'.neighbors d (ν n) ↔ m ∈ g.neighbors d n := by
  rw [(h.neighbors_perm d n hn).mem_iff, mem_map_of_injective ν.injective]

/-- `v'` is `v` with its nodes renumbered and its adjacency lists reordered. -/
structure RootedView.Renumbered (v v' : RootedView) (ν : Nat ≃ Nat) : Prop where
  view : v.toGraphView.Renumbered v'.toGraphView ν
  root_eq : v'.root = ν v.root

def GraphView.ofEdges (bound : Nat) (nodes : List Nat) (edges : List (Nat × Nat)) : GraphView where
  nodeBound := bound
  nodeIds := nodes
  successors n := (edges.filter fun e => e.1 = n).map Prod.snd
  predecessors n := (edges.filter fun e => e.2 = n).map Prod.fst

theorem GraphView.lawful_ofEdges {bound : Nat} {nodes : List Nat} {edges : List (Nat × Nat)}
    (hnodes : ∀ n ∈ nodes, n < bound) (hnodup : nodes.Nodup)
    (hedges : ∀ e ∈ edges, e.1 ∈ nodes ∧ e.2 ∈ nodes) : (ofEdges bound nodes edges).Lawful where
  nodeIds_lt := hnodes
  nodeIds_nodup := hnodup
  successors_lt n m _ hm := by
    obtain ⟨e, he, rfl⟩ := mem_map.mp hm
    exact hnodes _ (hedges e (mem_of_mem_filter he)).2
  predecessors_lt n m _ hm := by
    obtain ⟨e, he, rfl⟩ := mem_map.mp hm
    exact hnodes _ (hedges e (mem_of_mem_filter he)).1
  successors_live n _ m hm := by
    obtain ⟨e, he, rfl⟩ := mem_map.mp hm
    exact (hedges e (mem_of_mem_filter he)).2
  predecessors_live n _ m hm := by
    obtain ⟨e, he, rfl⟩ := mem_map.mp hm
    exact (hedges e (mem_of_mem_filter he)).1
  transpose source target _ _ := by
    simp only [ofEdges, count_eq_countP, countP_map, countP_filter]
    apply countP_congr
    intro e _
    simp [and_comm]

end CfgLib

import CfgLib.Graph.View

/-!
# Edge-aware graph views

`graph/edge_view.rs`: edge identity, endpoints, data and adjacency beside the
node adjacency of a view.
-/

namespace CfgLib

/-- One edge of a view, oriented as the view presents it. -/
structure EdgeRef (δ : Type) where
  id : Nat
  source : Nat
  target : Nat
  data : δ

structure EdgeView (δ : Type) extends GraphView where
  edgeBound : Nat
  edgeIds : List Nat
  outgoing : Nat → List Nat
  incoming : Nat → List Nat
  /-- The edge of a live identity. -/
  edge : Nat → EdgeRef δ

variable {δ : Type}

def EdgeView.edges (g : EdgeView δ) : TraversalDirection → Nat → List Nat
  | .outgoing => g.outgoing
  | .incoming => g.incoming

/-- The endpoint an edge leads to along one direction. -/
def EdgeRef.next (e : EdgeRef δ) : TraversalDirection → Nat
  | .outgoing => e.target
  | .incoming => e.source

structure EdgeView.Lawful (g : EdgeView δ) : Prop where
  view : g.toGraphView.Lawful
  edgeIds_lt : ∀ e ∈ g.edgeIds, e < g.edgeBound
  edgeIds_nodup : g.edgeIds.Nodup
  edge_id : ∀ e ∈ g.edgeIds, (g.edge e).id = e
  source_live : ∀ e ∈ g.edgeIds, (g.edge e).source ∈ g.nodeIds
  target_live : ∀ e ∈ g.edgeIds, (g.edge e).target ∈ g.nodeIds
  mem_outgoing : ∀ n ∈ g.nodeIds, ∀ e, e ∈ g.outgoing n ↔ e ∈ g.edgeIds ∧ (g.edge e).source = n
  mem_incoming : ∀ n ∈ g.nodeIds, ∀ e, e ∈ g.incoming n ↔ e ∈ g.edgeIds ∧ (g.edge e).target = n
  outgoing_nodup : ∀ n ∈ g.nodeIds, (g.outgoing n).Nodup
  incoming_nodup : ∀ n ∈ g.nodeIds, (g.incoming n).Nodup
  successors_perm : ∀ n ∈ g.nodeIds,
    (g.successors n).Perm ((g.outgoing n).map fun e => (g.edge e).target)
  predecessors_perm : ∀ n ∈ g.nodeIds,
    (g.predecessors n).Perm ((g.incoming n).map fun e => (g.edge e).source)

variable {g : EdgeView δ}

theorem EdgeView.Lawful.mem_edges (h : g.Lawful) (d : TraversalDirection) {n e : Nat}
    (hn : n ∈ g.nodeIds) : e ∈ g.edges d n ↔ e ∈ g.edgeIds ∧ (g.edge e).next d.against = n := by
  cases d with
  | outgoing => exact h.mem_outgoing n hn e
  | incoming => exact h.mem_incoming n hn e

theorem EdgeView.Lawful.edges_nodup (h : g.Lawful) (d : TraversalDirection) {n : Nat}
    (hn : n ∈ g.nodeIds) : (g.edges d n).Nodup := by
  cases d with
  | outgoing => exact h.outgoing_nodup n hn
  | incoming => exact h.incoming_nodup n hn

theorem EdgeView.Lawful.next_live (h : g.Lawful) (d : TraversalDirection) {e : Nat}
    (he : e ∈ g.edgeIds) : (g.edge e).next d ∈ g.nodeIds := by
  cases d with
  | outgoing => exact h.target_live e he
  | incoming => exact h.source_live e he

def EdgeRef.renumber (e : EdgeRef δ) (ν ρ : Nat ≃ Nat) : EdgeRef δ :=
  ⟨ρ e.id, ν e.source, ν e.target, e.data⟩

theorem EdgeRef.renumber_symm (e : EdgeRef δ) (ν ρ : Nat ≃ Nat) :
    (e.renumber ν ρ).renumber ν.symm ρ.symm = e := by
  simp [renumber]

theorem EdgeRef.next_renumber (e : EdgeRef δ) (ν ρ : Nat ≃ Nat) (d : TraversalDirection) :
    (e.renumber ν ρ).next d = ν (e.next d) := by
  cases d <;> rfl

/-- `g'` is `g` with its nodes and edges renumbered and its adjacency lists reordered. -/
structure EdgeView.Renumbered (g g' : EdgeView δ) (ν ρ : Nat ≃ Nat) : Prop where
  view : g.toGraphView.Renumbered g'.toGraphView ν
  edgeIds_iff : ∀ e, ρ e ∈ g'.edgeIds ↔ e ∈ g.edgeIds
  edges_perm : ∀ d, ∀ n ∈ g.nodeIds, (g'.edges d (ν n)).Perm ((g.edges d n).map ρ)
  edge_eq : ∀ e ∈ g.edgeIds, g'.edge (ρ e) = (g.edge e).renumber ν ρ

theorem TraversalDirection.against_against (d : TraversalDirection) : d.against.against = d := by
  cases d <;> rfl

end CfgLib

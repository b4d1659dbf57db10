import CfgLib.Graph.View
import CfgLib.Store.Naive
import Mathlib.Data.List.Nodup

/-!
# The store as a graph

`graph/store/view.rs`: the live nodes in identity order and the far ends of their
edges, edge by edge.
-/

namespace CfgLib.Store.Naive

variable {N E : Type} {m : Naive N E}

/-- Every live node in identity order. -/
def nodeIds (m : Naive N E) : List Nat := (List.range m.nodes.length).filter fun n => (m.node n).isSome

def successors (m : Naive N E) (n : Nat) : List Nat :=
  (m.lists .outgoing n).filterMap fun e => (m.edge e).map (·.target)

def predecessors (m : Naive N E) (n : Nat) : List Nat :=
  (m.lists .incoming n).filterMap fun e => (m.edge e).map (·.source)

def view (m : Naive N E) : GraphView where
  nodeBound := m.nodes.length
  nodeIds := m.nodeIds
  successors := m.successors
  predecessors := m.predecessors

theorem mem_nodeIds {n : Nat} : n ∈ m.nodeIds ↔ (m.node n).isSome := by
  rw [nodeIds, List.mem_filter, List.mem_range]
  exact and_iff_right_of_imp node_lt

theorem WF.mem_successors (h : m.WF) {a b : Nat} :
    b ∈ m.successors a ↔ ∃ e r, m.edge e = some r ∧ r.source = a ∧ r.target = b := by
  simp only [successors, List.mem_filterMap, h.mem_iff, Option.map_eq_some_iff]
  constructor
  · rintro ⟨e, ⟨r, hr, hs⟩, r', hr', ht⟩
    rw [hr] at hr'
    cases hr'
    exact ⟨e, r, hr, hs, ht⟩
  · rintro ⟨e, r, hr, hs, ht⟩
    exact ⟨e, ⟨r, hr, hs⟩, r, hr, ht⟩

theorem WF.mem_predecessors (h : m.WF) {a b : Nat} :
    b ∈ m.predecessors a ↔ ∃ e r, m.edge e = some r ∧ r.target = a ∧ r.source = b := by
  simp only [predecessors, List.mem_filterMap, h.mem_iff, Option.map_eq_some_iff]
  constructor
  · rintro ⟨e, ⟨r, hr, hs⟩, r', hr', ht⟩
    rw [hr] at hr'
    cases hr'
    exact ⟨e, r, hr, hs, ht⟩
  · rintro ⟨e, r, hr, hs, ht⟩
    exact ⟨e, ⟨r, hr, hs⟩, r, hr, ht⟩

theorem count_filterMap {α β : Type} [DecidableEq β] (l : List α) (f : α → Option β) (b : β) :
    (l.filterMap f).count b = (l.filter fun a => decide (f a = some b)).length := by
  induction l with
  | nil => rfl
  | cons a l ih =>
    cases hf : f a with
    | none => simp [hf, ih]
    | some x =>
      by_cases hx : x = b
      · simp [hf, hx, ih]
      · simp [hf, hx, ih]

theorem WF.count_successors (h : m.WF) (a b : Nat) : (m.successors a).count b = (m.predecessors b).count a := by
  rw [successors, predecessors, count_filterMap, count_filterMap]
  apply List.Perm.length_eq
  refine (List.perm_ext_iff_of_nodup ((h.nodup .outgoing a).filter _) ((h.nodup .incoming b).filter _)).mpr ?_
  intro e
  rw [List.mem_filter, List.mem_filter, h.mem_iff, h.mem_iff]
  simp only [decide_eq_true_eq, Option.map_eq_some_iff]
  constructor
  · rintro ⟨⟨r, hr, hs⟩, r', hr', ht⟩
    rw [hr] at hr'
    cases hr'
    exact ⟨⟨r, hr, ht⟩, r, hr, hs⟩
  · rintro ⟨⟨r, hr, ht⟩, r', hr', hs⟩
    rw [hr] at hr'
    cases hr'
    exact ⟨⟨r, hr, hs⟩, r, hr, ht⟩

theorem WF.lawful_view (h : m.WF) : m.view.Lawful where
  nodeIds_lt := fun n hn => node_lt (mem_nodeIds.mp hn)
  nodeIds_nodup := List.nodup_range.filter _
  successors_lt := by
    intro n k _ hk
    obtain ⟨e, r, hr, _, rfl⟩ := h.mem_successors.mp hk
    exact node_lt (h.live .incoming e r hr)
  predecessors_lt := by
    intro n k _ hk
    obtain ⟨e, r, hr, _, rfl⟩ := h.mem_predecessors.mp hk
    exact node_lt (h.live .outgoing e r hr)
  successors_live := by
    intro n _ k hk
    obtain ⟨e, r, hr, _, rfl⟩ := h.mem_successors.mp hk
    exact mem_nodeIds.mpr (h.live .incoming e r hr)
  predecessors_live := by
    intro n _ k hk
    obtain ⟨e, r, hr, _, rfl⟩ := h.mem_predecessors.mp hk
    exact mem_nodeIds.mpr (h.live .outgoing e r hr)
  transpose := fun source target _ _ => h.count_successors source target

end CfgLib.Store.Naive

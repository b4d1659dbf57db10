import CfgLib.Store.Compact

/-!
# Renumberings

`graph/store/renumbering.rs`: looking an identity up in the answer of a compaction,
and folding the answers of two compactions into one.
-/

namespace CfgLib.Store

open CfgLib.Lib List

namespace Graph.Renumbering

/-- The new number of an old one; `none` where it did not survive or has no old slot. -/
def translate (mapping : List (Option Nat)) (old : Nat) : Option Nat := (mapping[old]?).join

def node (r : Renumbering) (old : Nat) : Option Nat := translate r.nodes old

def edge (r : Renumbering) (old : Nat) : Option Nat := translate r.edges old

def composeAxis (first second : List (Option Nat)) : List (Option Nat) :=
  first.map fun intermediate => intermediate.bind fun i => (second[i]?).join

/-- One lookup for two compactions in a row. -/
def compose (r later : Renumbering) : Renumbering :=
  ⟨composeAxis r.nodes later.nodes, composeAxis r.edges later.edges⟩

def isIdentityAxis (mapping : List (Option Nat)) : Bool :=
  mapping.zipIdx.all fun entry => entry.1 == some entry.2

/-- Whether every covered identity kept its number. -/
def isIdentity (r : Renumbering) : Bool := isIdentityAxis r.nodes && isIdentityAxis r.edges

theorem translate_composeAxis (first second : List (Option Nat)) (old : Nat) :
    translate (composeAxis first second) old = (translate first old).bind (translate second) := by
  unfold translate composeAxis
  rw [getElem?_map]
  cases first[old]? with
  | none => rfl
  | some intermediate => rfl

theorem compose_lookup (first second : Renumbering) (old : Nat) :
    (first.compose second).node old = (first.node old).bind second.node ∧
      (first.compose second).edge old = (first.edge old).bind second.edge :=
  ⟨translate_composeAxis _ _ old, translate_composeAxis _ _ old⟩

theorem translate_survivingSlots (live : LiveSet) (slots old : Nat) (hlive : live.isLive old = true → old < slots) :
    translate (Graph.survivingSlots live slots) old =
      if live.isLive old then some (rank live.isLive old) else none := by
  rw [translate, Graph.survivingSlots_eq, getElem?_map]
  by_cases hlt : old < slots
  · simp [getElem?_range hlt]
  · rw [getElem?_eq_none (by simpa using hlt)]
    simp [show live.isLive old = false by simpa using mt hlive hlt]

theorem rank_of_all {p : Nat → Bool} {n : Nat} (h : ∀ k < n, p k = true) : rank p n = n := by
  rw [rank, countP_eq_length.mpr fun k hk => h k (mem_range.mp hk), length_range]

theorem isIdentityAxis_survivingSlots {live : LiveSet} {slots : Nat} (h : ∀ k < slots, live.isLive k = true) :
    isIdentityAxis (Graph.survivingSlots live slots) = true := by
  rw [isIdentityAxis, all_eq_true]
  intro entry hentry
  obtain ⟨value, k⟩ := entry
  obtain ⟨hlt, hvalue⟩ := mem_zipIdx' hentry
  rw [Graph.survivingSlots_eq, length_map, length_range] at hlt
  simp only [Graph.survivingSlots_eq, getElem_map, getElem_range, h k hlt, if_true] at hvalue
  rw [hvalue, rank_of_all fun i hi => h i (hi.trans hlt), beq_self_eq_true]

end Graph.Renumbering

namespace Naive

variable {N E : Type} {m : Naive N E}

theorem node_compact_isSome (m : Naive N E) (k : Nat) : (m.compact.node k).isSome ↔ k < m.compact.nodes.length := by
  simp only [compact, node, getElem?_map, length_map]
  constructor
  · intro h
    by_contra hk
    rw [getElem?_eq_none (by omega)] at h
    simp at h
  · intro hk
    obtain ⟨_, hocc, _⟩ := getElem?_select.mp (getElem?_eq_getElem hk)
    rw [getElem?_eq_getElem hk]
    exact hocc

theorem edge_compact_isSome (m : Naive N E) (k : Nat) : (m.compact.edge k).isSome ↔ k < m.compact.edges.length := by
  simp only [compact, edge, getElem?_map, length_map]
  constructor
  · intro h
    by_contra hk
    rw [getElem?_eq_none (by omega)] at h
    simp at h
  · intro hk
    obtain ⟨_, hocc, _⟩ := getElem?_select.mp (getElem?_eq_getElem hk)
    rw [getElem?_eq_getElem hk]
    simpa [occupied, edge] using hocc

theorem select_of_all {p : Nat → Bool} {n : Nat} (h : ∀ k < n, p k = true) : select p n = List.range n := by
  rw [select, filter_eq_self]
  intro k hk
  exact h k (mem_range.mp hk)

theorem compact_of_dense (hwf : m.WF) (hnodes : ∀ k < m.nodes.length, (m.node k).isSome)
    (hedges : ∀ k < m.edges.length, (m.edge k).isSome) : m.compact = m := by
  have hrank : ∀ b, (m.node b).isSome → rank (occupied m.nodes) b = b := fun b hb =>
    Graph.Renumbering.rank_of_all fun k hk => hnodes k (hk.trans (node_lt hb))
  have hselect : select (occupied m.nodes) m.nodes.length = List.range m.nodes.length := select_of_all hnodes
  have hselect' : select (occupied m.edges) m.edges.length = List.range m.edges.length := select_of_all hedges
  obtain ⟨nodes, edges, lists⟩ := m
  simp only [compact, Naive.mk.injEq]
  refine ⟨?_, ?_, ?_⟩
  · rw [hselect]
    apply ext_getElem?
    intro k
    rw [getElem?_map]
    by_cases hk : k < nodes.length
    · have hlive : ((nodes[k]?).join).isSome := hnodes k hk
      rw [getElem?_range hk, Option.map_some, getElem?_eq_getElem hk]
      rw [getElem?_eq_getElem hk] at hlive
      simp [node, hk]
    · rw [getElem?_eq_none (by simpa using hk), getElem?_eq_none (by omega), Option.map_none]
  · rw [hselect']
    apply ext_getElem?
    intro k
    rw [getElem?_map]
    by_cases hk : k < edges.length
    · obtain ⟨record, hrecord⟩ := Option.isSome_iff_exists.mp (hedges k hk)
      have hsource := hrank _ (hwf.live .outgoing k record hrecord)
      have htarget := hrank _ (hwf.live .incoming k record hrecord)
      rw [getElem?_range hk, Option.map_some, hrecord, Option.map_some]
      simp only [EdgeRecord.endpoint] at hsource htarget
      rw [hsource, htarget]
      have hslot : (edges[k]?).join = some record := hrecord
      rw [getElem?_eq_getElem hk] at hslot ⊢
      exact congrArg some hslot.symm
    · rw [getElem?_eq_none (by simpa using hk), getElem?_eq_none (by omega), Option.map_none]
  · funext d n
    rw [hselect]
    by_cases hn : n < nodes.length
    · simp only [getElem?_range hn]
      conv_rhs => rw [← map_id (lists d n)]
      apply map_congr_left
      intro e he
      obtain ⟨record, hrecord, _⟩ := (hwf.mem_iff d n e).mp he
      exact Graph.Renumbering.rank_of_all fun k hk => hedges k (hk.trans (edge_lt hrecord))
    · rw [getElem?_eq_none (by simpa using hn)]
      symm
      apply eq_nil_iff_forall_not_mem.mpr
      intro e he
      obtain ⟨record, hrecord, hend⟩ := (hwf.mem_iff d n e).mp he
      have hlive := hwf.live d e record hrecord
      rw [hend] at hlive
      exact hn (node_lt hlive)

theorem lists_compact_rank (m : Naive N E) {n : Nat} (h : (m.node n).isSome) (d : TraversalDirection) :
    m.compact.lists d (rank (occupied m.nodes) n) = (m.lists d n).map (rank (occupied m.edges)) := by
  have hs := getElem?_select_rank (p := occupied m.nodes) (node_lt h) h
  simp only [compact, hs]

theorem compact_compact (hwf : m.WF) : m.compact.compact = m.compact :=
  compact_of_dense hwf.compact (fun k hk => (node_compact_isSome m k).mpr hk)
    fun k hk => (edge_compact_isSome m k).mpr hk

end Naive

namespace Refines

variable {N E : Type} {g : Graph N E} {m : Naive N E} {rings : Nat → TraversalDirection → List Nat}

theorem compact_lookup (h : Refines g m rings) (old : Nat) :
    g.compact.2.node old = (if (m.node old).isSome then some (rank (Naive.occupied m.nodes) old) else none) ∧
      g.compact.2.edge old = if (m.edge old).isSome then some (rank (Naive.occupied m.edges) old) else none := by
  refine ⟨?_, ?_⟩
  · refine (Graph.Renumbering.translate_survivingSlots g.liveNodes g.nodeBound old fun hl => h.counted.node_lt hl).trans ?_
    rw [h.node_isSome, h.occupied_nodes]
  · refine (Graph.Renumbering.translate_survivingSlots g.liveEdges g.edgeBound old fun hl => h.counted.edge_lt hl).trans ?_
    rw [h.edge_isSome, h.occupied_edges]

theorem compact_compact_isIdentity (h : Refines g m rings) : g.compact.1.compact.2.isIdentity = true := by
  have hnodes : ∀ k < g.compact.1.nodeBound, g.compact.1.liveNodes.isLive k = true := by
    intro k hk
    rw [← h.compact.node_isSome, Naive.node_compact_isSome, h.compact.nodes_length]
    exact hk
  have hedges : ∀ k < g.compact.1.edgeBound, g.compact.1.liveEdges.isLive k = true := by
    intro k hk
    rw [← h.compact.edge_isSome, Naive.edge_compact_isSome, h.compact.edges_length]
    exact hk
  refine Bool.and_eq_true_iff.mpr ⟨?_, ?_⟩
  · exact Graph.Renumbering.isIdentityAxis_survivingSlots hnodes
  · exact Graph.Renumbering.isIdentityAxis_survivingSlots hedges

end Refines

end CfgLib.Store

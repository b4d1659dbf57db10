import CfgLib.Store.Refine
import Mathlib.Data.List.Sort

/-!
# Compaction renumbers in order

The rebuilt base reads, node by node, as the naive store renumbered in order:
runs in identity order come out of the counting placement, and the others are
restored from the walk that read them.
-/

namespace CfgLib.Store

open CfgLib.Lib List

variable {N E : Type}

namespace Graph

/-! ## The numbering -/

theorem survivingSlots_eq (live : LiveSet) (slots : Nat) : survivingSlots live slots =
      (List.range slots).map (fun i => if live.isLive i then some (rank live.isLive i) else none) := by
  have h : ∀ n, (List.range n).foldl
      (fun (state : List (Option Nat) × Nat) slot =>
        if live.isLive slot then (state.1 ++ [some state.2], state.2 + 1)
        else (state.1 ++ [none], state.2))
      ([], 0) =
      ((List.range n).map (fun i => if live.isLive i then some (rank live.isLive i) else none),
        rank live.isLive n) := by
    intro n
    induction n with
    | zero => rfl
    | succ n ih =>
      rw [range_succ, foldl_append, ih, map_append, rank_succ]
      by_cases hl : live.isLive n <;> simp [hl]
  rw [survivingSlots, h]

theorem survivingSlots_getD (live : LiveSet) {slots i : Nat} (hi : i < slots) :
    (survivingSlots live slots).getD i none =
      if live.isLive i then some (rank live.isLive i) else none := by
  rw [survivingSlots_eq]
  simp [getD_eq_getElem?_getD, hi]

end Graph

namespace Refines

variable {g : Graph N E} {m : Naive N E} {rings : Nat → TraversalDirection → List Nat}

section

variable (h : Refines g m rings)
include h

theorem occupied_nodes : Naive.occupied m.nodes = g.liveNodes.isLive := by
  funext i
  exact h.node_isSome i

theorem occupied_edges : Naive.occupied m.edges = g.liveEdges.isLive := by
  funext i
  exact h.edge_isSome i

theorem remapEndpoint {n : Nat} (hn : (m.node n).isSome) :
    Graph.remapEndpoint (Graph.survivingSlots g.liveNodes g.nodeBound) n =
      rank g.liveNodes.isLive n := by
  rw [h.node_isSome] at hn
  rw [Graph.remapEndpoint, Graph.survivingSlots_getD _ (h.counted.node_lt hn), if_pos hn]
  rfl

/-! ## The surviving payloads and records -/

omit h in
theorem takeLiveNodes_eq (g : Graph N E) :
    g.takeLiveNodes (Graph.survivingSlots g.liveNodes g.nodeBound) =
      ((g.baseNodes ++ g.deltaNodes).zipIdx.filter
        (fun entry => g.liveNodes.isLive entry.2)).map Prod.fst := by
  unfold Graph.takeLiveNodes
  congr 1
  apply filter_congr
  intro entry hentry
  have hlt : entry.2 < g.nodeBound := by
    have := snd_lt_of_mem_zipIdx hentry
    simpa [Graph.nodeBound] using this
  rw [Graph.survivingSlots_getD _ hlt]
  cases g.liveNodes.isLive entry.2 <;> rfl

theorem takeLiveNodes_getElem? (k : Nat) :
    (g.takeLiveNodes (Graph.survivingSlots g.liveNodes g.nodeBound))[k]? = m.compact.node k := by
  have hlen : (g.baseNodes ++ g.deltaNodes).length = g.nodeBound := by simp [Graph.nodeBound]
  rw [takeLiveNodes_eq, getElem?_zipIdx_filter_map, hlen, Naive.node, Naive.compact,
    getElem?_map, h.occupied_nodes, h.nodes_length]
  cases hs : (select g.liveNodes.isLive g.nodeBound)[k]? with
  | none => rfl
  | some i =>
    obtain ⟨_, hlive, _⟩ := getElem?_select.mp hs
    have hnode := h.node i
    rw [if_pos hlive, Graph.node_eq] at hnode
    simp [hnode]

theorem takeLiveEdges_getElem? (k : Nat) :
    (g.takeLiveEdges (Graph.survivingSlots g.liveNodes g.nodeBound))[k]? = m.compact.edge k := by
  have hlen : (g.baseEdges ++ g.deltaEdges).length = g.edgeBound := by simp [Graph.edgeBound]
  rw [Graph.takeLiveEdges, getElem?_zipIdx_filter_map, hlen, Naive.edge, Naive.compact,
    getElem?_map, h.occupied_edges, h.edges_length, h.occupied_nodes]
  cases hs : (select g.liveEdges.isLive g.edgeBound)[k]? with
  | none => rfl
  | some i =>
    obtain ⟨_, hlive, _⟩ := getElem?_select.mp hs
    have hedge := h.edge i
    rw [if_pos hlive, Graph.edge_eq] at hedge
    rw [Option.bind_some, ← hedge, Option.map_some, Option.join_some]
    cases hr : m.edge i with
    | none => rfl
    | some r =>
      have hsource : (m.node r.source).isSome := h.wf.live .outgoing i r hr
      have htarget : (m.node r.target).isSome := h.wf.live .incoming i r hr
      simp only [Option.map_some, h.remapEndpoint hsource, h.remapEndpoint htarget]

theorem length_takeLiveNodes :
    (g.takeLiveNodes (Graph.survivingSlots g.liveNodes g.nodeBound)).length =
      m.compact.nodes.length := by
  rw [takeLiveNodes_eq, length_map, length_zipIdx_filter, Naive.compact, length_map,
    length_select, h.occupied_nodes, h.nodes_length]
  simp [Graph.nodeBound]

theorem length_takeLiveEdges :
    (g.takeLiveEdges (Graph.survivingSlots g.liveNodes g.nodeBound)).length =
      m.compact.edges.length := by
  rw [Graph.takeLiveEdges, length_map, length_zipIdx_filter, Naive.compact, length_map,
    length_select, h.occupied_edges, h.edges_length]
  simp [Graph.edgeBound]

/-! ## The rebuilt index -/

theorem compact_lists_survivor {n : Nat} (hn : g.liveNodes.isLive n = true) (d : TraversalDirection) :
    m.compact.lists d (rank g.liveNodes.isLive n) =
      (m.lists d n).map (rank g.liveEdges.isLive) := by
  have hs := getElem?_select_rank (h.counted.node_lt hn) hn
  simp only [Naive.compact, h.occupied_nodes, h.occupied_edges, h.nodes_length, hs]

omit h in
theorem mem_valuesOf {edges : List (EdgeRecord E)} {d : TraversalDirection} {n k : Nat} :
    k ∈ CountingSort.valuesOf n (edges.map (·.endpoint d)).zipIdx ↔
      ∃ record, edges[k]? = some record ∧ record.endpoint d = n := by
  simp only [CountingSort.valuesOf, mem_map, mem_filter, beq_iff_eq]
  constructor
  · rintro ⟨⟨key, i⟩, ⟨hmem, hkey⟩, rfl⟩
    rw [mk_mem_zipIdx_iff_getElem?, getElem?_map] at hmem
    obtain ⟨record, hr, hend⟩ := Option.map_eq_some_iff.mp hmem
    exact ⟨record, hr, hend.trans hkey⟩
  · rintro ⟨record, hr, hend⟩
    refine ⟨(n, k), ⟨?_, rfl⟩, rfl⟩
    rw [mk_mem_zipIdx_iff_getElem?, getElem?_map, hr, Option.map_some, hend]

omit h in
theorem valuesOf_sorted (edges : List (EdgeRecord E)) (d : TraversalDirection) (n : Nat) :
    (CountingSort.valuesOf n (edges.map (·.endpoint d)).zipIdx).Pairwise (· < ·) := by
  have hsorted : ((edges.map (·.endpoint d)).zipIdx.map Prod.snd).Pairwise (· < ·) := by
    rw [zipIdx_map_snd]
    exact pairwise_lt_range'
  exact hsorted.sublist (filter_sublist.map Prod.snd)

/-- The naive list of a renumbered node and the counting placement of its run
hold the same edges. -/
theorem mem_compact_lists (d : TraversalDirection) (n k : Nat) :
    k ∈ m.compact.lists d n ↔ k ∈ CountingSort.valuesOf n
      ((g.takeLiveEdges (Graph.survivingSlots g.liveNodes g.nodeBound)).map
        (·.endpoint d)).zipIdx := by
  rw [mem_valuesOf, h.wf.compact.mem_iff]
  simp only [h.takeLiveEdges_getElem?]

theorem compact_lists_sorted {n : Nat} (hn : g.liveNodes.isLive n = true) {d : TraversalDirection}
    (hsorted : (g.run n d).Pairwise (· ≤ ·)) :
    (m.compact.lists d (rank g.liveNodes.isLive n)).Pairwise (· < ·) := by
  have hcontent : (g.content rings n d).Pairwise (· ≤ ·) := by
    refine pairwise_append.mpr ⟨hsorted, ?_, ?_⟩
    · rw [pairwise_map]
      exact (h.rep.sorted n d).imp (fun hab => by omega)
    · intro a ha b hb
      obtain ⟨p, hp, rfl⟩ := mem_map.mp hb
      exact Nat.le_of_lt (h.rep.run_before n d a p ha hp)
  have hlist : (m.lists d n).Pairwise (· < ·) := by
    have hle : (m.lists d n).Pairwise (· ≤ ·) := by
      rw [h.lists]
      exact hcontent.filter _
    exact (hle.and (h.wf.nodup d n)).imp (fun hab => Nat.lt_of_le_of_ne hab.1 hab.2)
  rw [h.compact_lists_survivor hn, pairwise_map]
  apply hlist.imp_of_mem
  intro a b ha _ hab
  rw [h.lists] at ha
  exact rank_lt (mem_filter.mp ha).2 hab

theorem reorderedAdjacency_eq (d : TraversalDirection) :
    g.reorderedAdjacency d (Graph.survivingSlots g.liveNodes g.nodeBound)
        (Graph.survivingSlots g.liveEdges g.edgeBound) =
      ((select g.liveNodes.isLive g.nodeBound).filter
        (fun slot => !decide ((g.run slot d).Pairwise (· ≤ ·)))).map
        (fun slot => (rank g.liveNodes.isLive slot,
          m.compact.lists d (rank g.liveNodes.isLive slot))) := by
  have hslots : (List.range g.nodeBound).filter (fun slot =>
      ((Graph.survivingSlots g.liveNodes g.nodeBound).getD slot none).isSome &&
        !decide (((g.overlay slot d).getD (g.baseRun slot d)).Pairwise (· ≤ ·))) =
      (select g.liveNodes.isLive g.nodeBound).filter
        (fun slot => !decide ((g.run slot d).Pairwise (· ≤ ·))) := by
    rw [select, filter_filter]
    apply filter_congr
    intro slot hslot
    rw [Graph.survivingSlots_getD _ (mem_range.mp hslot), Bool.and_comm]
    cases g.liveNodes.isLive slot <;> rfl
  rw [Graph.reorderedAdjacency, hslots]
  apply map_congr_left
  intro slot hslot
  obtain ⟨hlt, hlive⟩ := mem_select.mp (mem_filter.mp hslot).1
  obtain ⟨walk, hadj, hcollect, _⟩ := h.adjacent hlt d
  rw [Graph.survivingSlots_getD _ hlt, if_pos hlive, hadj, Option.elim_some, hcollect,
    h.compact_lists_survivor hlive]
  congr 1
  apply map_congr_left
  intro e he
  rw [h.lists] at he
  have helive := (mem_filter.mp he).2
  rw [Graph.survivingSlots_getD _ (h.counted.edge_lt helive), if_pos helive]
  rfl

end

section Rebuilt

variable (h : Refines g m rings) (d : TraversalDirection)

include h in
theorem compact_keys_lt :
    ∀ key ∈ (g.takeLiveEdges (Graph.survivingSlots g.liveNodes g.nodeBound)).map (·.endpoint d),
      key < m.compact.nodes.length := by
  intro key hkey
  obtain ⟨record, hmem, rfl⟩ := mem_map.mp hkey
  obtain ⟨k, hk⟩ := getElem?_of_mem hmem
  rw [h.takeLiveEdges_getElem?] at hk
  exact Naive.node_lt (h.wf.compact.live d k record hk)

include h in
theorem compact_lists_length {n : Nat} (hn : n < m.compact.nodes.length) :
    let off := CountingSort.offsets m.compact.nodes.length
      ((g.takeLiveEdges (Graph.survivingSlots g.liveNodes g.nodeBound)).map (·.endpoint d))
    off.getD n 0 + (m.compact.lists d n).length = off.getD (n + 1) 0 := by
  intro off
  have hperm : (m.compact.lists d n).Perm (CountingSort.valuesOf n
      ((g.takeLiveEdges (Graph.survivingSlots g.liveNodes g.nodeBound)).map
        (·.endpoint d)).zipIdx) := by
    rw [perm_ext_iff_of_nodup (h.wf.compact.nodup d n)
      ((valuesOf_sorted _ d n).imp Nat.ne_of_lt)]
    exact h.mem_compact_lists d n
  rw [hperm.length_eq, CountingSort.length_valuesOf, zipIdx_map_fst]
  exact (CountingSort.offsets_succ _ _ (h.compact_keys_lt d) n hn).symm

include h in
/-- The rebuilt index: well formed, and each node's run reads its renumbered list. -/
theorem restoreRuns_spec :
    let edges := g.takeLiveEdges (Graph.survivingSlots g.liveNodes g.nodeBound)
    let index := Graph.compress edges m.compact.nodes.length d
    let restored := Graph.restoreRuns index.1 index.2
      (g.reorderedAdjacency d (Graph.survivingSlots g.liveNodes g.nodeBound)
        (Graph.survivingSlots g.liveEdges g.edgeBound))
    restored.length = edges.length ∧
      ∀ n < m.compact.nodes.length,
        CountingSort.slice restored (index.1.getD n 0) (index.1.getD (n + 1) 0) =
          m.compact.lists d n := by
  intro edges index restored
  have hkeys := h.compact_keys_lt d
  set keys := edges.map (·.endpoint d) with hkeysdef
  have hoff : index.1 = CountingSort.offsets m.compact.nodes.length keys := rfl
  have hplaced : index.2.length = edges.length := by
    change (CountingSort.placement 0 m.compact.nodes.length keys.zipIdx).length = _
    rw [CountingSort.length_placement, length_zipIdx, hkeysdef, length_map]
  have hlast : index.1.getD m.compact.nodes.length 0 ≤ index.2.length := by
    rw [hoff, CountingSort.offsets_last _ _ hkeys, hplaced, hkeysdef, length_map]
  have hmono : ∀ i k, i ≤ k → k ≤ m.compact.nodes.length → index.1.getD i 0 ≤ index.1.getD k 0 :=
    fun i k hik hk => CountingSort.offsets_mono _ _ hkeys hik hk
  have hbound : m.compact.nodes.length = rank g.liveNodes.isLive g.nodeBound := by
    rw [Naive.compact, length_map, length_select, h.occupied_nodes, h.nodes_length]
  have hentries := h.reorderedAdjacency_eq d
  obtain ⟨hlen, hslices⟩ := CountingSort.slice_foldl_overwrite hmono
    (g.reorderedAdjacency d (Graph.survivingSlots g.liveNodes g.nodeBound)
      (Graph.survivingSlots g.liveEdges g.edgeBound)) index.2 hlast
    (by
      intro entry hentry
      rw [hentries] at hentry
      obtain ⟨slot, hslot, rfl⟩ := mem_map.mp hentry
      obtain ⟨hlt, hlive⟩ := mem_select.mp (mem_filter.mp hslot).1
      have hrank : rank g.liveNodes.isLive slot < m.compact.nodes.length := by
        rw [hbound]; exact rank_lt hlive hlt
      exact ⟨hrank, h.compact_lists_length d hrank⟩)
    (by
      rw [hentries, map_map]
      apply ((select_nodup _).filter _).map_on
      intro a ha b hb hab
      exact rank_inj (mem_select.mp (mem_filter.mp ha).1).2
        (mem_select.mp (mem_filter.mp hb).1).2 hab)
  refine ⟨hlen.trans hplaced, ?_⟩
  intro n hn
  -- the survivor that becomes `n` either has its run restored or reads in identity order
  obtain ⟨slot, hslot⟩ : ∃ slot, (select g.liveNodes.isLive g.nodeBound)[n]? = some slot :=
    ⟨_, getElem?_eq_getElem (by rw [length_select, ← hbound]; exact hn)⟩
  obtain ⟨hlt, hlive, rfl⟩ := getElem?_select.mp hslot
  by_cases hsorted : (g.run slot d).Pairwise (· ≤ ·)
  · refine ((hslices _ hn).2 ?_).trans ?_
    · rw [hentries, map_map]
      intro hmem
      obtain ⟨slot', hslot', heq⟩ := mem_map.mp hmem
      obtain ⟨hsel, hunsorted⟩ := mem_filter.mp hslot'
      have : slot' = slot := rank_inj (mem_select.mp hsel).2 hlive heq
      subst this
      simp [hsorted] at hunsorted
    · have hrun := CountingSort.placement_run 0 m.compact.nodes.length keys.zipIdx
        (fun pair hpair => hkeys pair.1 (fst_mem_of_mem_zipIdx hpair)) _ hn
      rw [zipIdx_map_fst] at hrun
      refine hrun.trans ?_
      exact (valuesOf_sorted edges d _).eq_of_mem_iff (h.compact_lists_sorted hlive hsorted)
        (fun k => (h.mem_compact_lists d _ k).symm)
  · refine (hslices _ hn).1 (rank g.liveNodes.isLive slot,
      m.compact.lists d (rank g.liveNodes.isLive slot)) ?_ rfl
    rw [hentries]
    exact mem_map.mpr ⟨slot, mem_filter.mpr ⟨mem_select.mpr ⟨hlt, hlive⟩,
      by simp [hsorted]⟩, rfl⟩

end Rebuilt

/-! ## Compaction -/

theorem compact (h : Refines g m rings) : Refines g.compact.1 m.compact (fun _ _ => []) := by
  have hnodes := h.length_takeLiveNodes
  have hedges := h.length_takeLiveEdges
  have hwf := h.wf.compact
  have hspec := h.restoreRuns_spec
  have hkeys := h.compact_keys_lt
  set nodeMap := Graph.survivingSlots g.liveNodes g.nodeBound with hnodeMap
  set edgeMap := Graph.survivingSlots g.liveEdges g.edgeBound with hedgeMap
  set g' := g.compact.1 with hg'
  have hoffsets : ∀ d, g'.offsets d =
      (Graph.compress (g.takeLiveEdges nodeMap) m.compact.nodes.length d).1 := by
    intro d
    rw [← hnodes]
    cases d <;> rfl
  have hindex : ∀ d, g'.indexEdges d =
      Graph.restoreRuns (Graph.compress (g.takeLiveEdges nodeMap) m.compact.nodes.length d).1
        (Graph.compress (g.takeLiveEdges nodeMap) m.compact.nodes.length d).2
        (g.reorderedAdjacency d nodeMap edgeMap) := by
    intro d
    rw [← hnodes]
    cases d <;> rfl
  have hofflen : ∀ d, (g'.offsets d).length = m.compact.nodes.length + 1 := by
    intro d
    rw [hoffsets]
    exact CountingSort.length_offsets _ _
  have hrun : ∀ n d, g'.run n d = m.compact.lists d n := by
    intro n d
    have hover : g'.overlay n d = none := rfl
    rw [Graph.run, hover, Option.getD_none, Graph.baseRun]
    by_cases hn : n < m.compact.nodes.length
    · rw [if_pos (by rw [hofflen]; omega), hindex, hoffsets]
      exact (hspec d).2 n hn
    · rw [if_neg (by rw [hofflen]; omega)]
      symm
      rw [eq_nil_iff_forall_not_mem]
      intro e he
      obtain ⟨record, hr, hend⟩ := (hwf.mem_iff d n e).mp he
      have := Naive.node_lt (hwf.live d e record hr)
      omega
  have hlt : ∀ n d, ∀ e ∈ m.compact.lists d n, e < m.compact.edges.length := by
    intro n d e he
    obtain ⟨record, hr, _⟩ := (hwf.mem_iff d n e).mp he
    exact Naive.edge_lt hr
  have hnodeBound : g'.nodeBound = m.compact.nodes.length := by
    rw [← hnodes]
    exact Nat.add_zero _
  have hedgeBound : g'.edgeBound = m.compact.edges.length := by
    rw [← hedges]
    exact Nat.add_zero _
  have hliveNodes : g'.liveNodes = LiveSet.resetAllLive m.compact.nodes.length := by
    rw [← hnodes]; rfl
  have hliveEdges : g'.liveEdges = LiveSet.resetAllLive m.compact.edges.length := by
    rw [← hedges]; rfl
  have hallRank : ∀ n, rank (LiveSet.resetAllLive n).isLive n = n := by
    intro n
    rw [rank, countP_eq_length.mpr, length_range]
    intro k hk
    rw [LiveSet.isLive_resetAllLive]
    simpa using hk
  refine ⟨?_, ?_, hnodeBound.symm, hedgeBound.symm, ?_, ?_, ?_, hwf⟩
  · refine ⟨DeltaChains.rings_new, rfl, ?_, ?_, ?_, by simp, by simp⟩
    · intro r hr
      cases hr
    · intro d n hn
      rw [hofflen] at hn
      rw [hoffsets, hindex, (hspec d).1]
      have hmono := CountingSort.offsets_mono _ _ (hkeys d) (Nat.le_succ n) (by omega)
      have hle := CountingSort.offsets_mono _ _ (hkeys d) (show n + 1 ≤ _ by omega) (Nat.le_refl _)
      rw [CountingSort.offsets_last _ _ (hkeys d), length_map] at hle
      exact ⟨hmono, hle⟩
    · intro n d e he
      rw [hrun] at he
      rw [hedgeBound]
      exact hlt n d e he
  · refine ⟨?_, ?_, ?_, ?_, ?_, ?_⟩
    · rw [hliveNodes]; exact LiveSet.wf_resetAllLive _
    · rw [hliveNodes, hnodeBound]; rfl
    · rw [hliveNodes, hnodeBound, hallRank, ← hnodes]; rfl
    · rw [hliveEdges]; exact LiveSet.wf_resetAllLive _
    · rw [hliveEdges, hedgeBound]; rfl
    · rw [hliveEdges, hedgeBound, hallRank, ← hedges]; rfl
  · intro i
    have hnode : g'.node i = m.compact.node i := by
      rw [← h.takeLiveNodes_getElem?, Graph.node_eq]
      change (g.takeLiveNodes nodeMap ++ [])[i]? = _
      rw [append_nil]
    rw [hnode, hliveNodes, LiveSet.isLive_resetAllLive]
    by_cases hi : i < m.compact.nodes.length
    · simp [hi]
    · rw [Naive.node, getElem?_eq_none (by omega)]
      simp
  · intro i
    have hedge : g'.edge i = m.compact.edge i := by
      rw [← h.takeLiveEdges_getElem?, Graph.edge_eq]
      change (g.takeLiveEdges nodeMap ++ [])[i]? = _
      rw [append_nil]
    rw [hedge, hliveEdges, LiveSet.isLive_resetAllLive]
    by_cases hi : i < m.compact.edges.length
    · simp [hi]
    · rw [Naive.edge, getElem?_eq_none (by omega)]
      simp
  · intro d n
    rw [Graph.content, hrun, map_nil, append_nil, hliveEdges]
    symm
    rw [filter_eq_self]
    intro e he
    rw [LiveSet.isLive_resetAllLive]
    simpa using hlt n d e he

/-! ## Whole runs -/

theorem empty : Refines (Graph.new : Graph N E) Naive.empty (fun _ _ => []) := by
  refine ⟨?_, ?_, rfl, rfl, ?_, ?_, ?_, Naive.wf_empty⟩
  · refine ⟨DeltaChains.rings_new, rfl, ?_, ?_, ?_, by simp, by simp⟩
    · intro r hr
      cases hr
    · intro d n hn
      cases d <;> simp [Graph.offsets, Graph.new] at hn
    · intro n d e he
      cases d <;> simp [Graph.run, Graph.overlay, Graph.baseRun, Graph.offsets, Graph.new] at he
  · exact ⟨LiveSet.wf_new, rfl, rfl, LiveSet.wf_new, rfl, rfl⟩
  · intro i
    simp [Naive.node, Naive.empty, Graph.new]
  · intro i
    simp [Naive.edge, Naive.empty, Graph.new]
  · intro d n
    cases d <;> simp [Naive.empty, Graph.content, Graph.run, Graph.overlay, Graph.baseRun,
      Graph.offsets, Graph.new]

/-- One step: where the naive operation's precondition holds, the store performs
its own and the results still correspond. -/
theorem apply (h : Refines g m rings) {op : Op N E} {m' : Naive N E} (happ : m.apply op = some m') :
    ∃ g', g.apply op = some g' ∧ ∃ rings', Refines g' m' rings' := by
  cases op with
  | addNode payload =>
    obtain ⟨g', heq, h'⟩ := h.addNode happ
    exact ⟨g', by simp [Graph.apply, heq], rings, h'⟩
  | addEdge source target payload =>
    obtain ⟨g', heq, h'⟩ := h.addEdge happ
    exact ⟨g', by simp [Graph.apply, heq], h'⟩
  | removeEdge e =>
    cases happ
    exact ⟨_, rfl, rings, h.retireEdge e⟩
  | removeNode n =>
    cases happ
    obtain ⟨g', heq, h'⟩ := h.removeNode n
    exact ⟨g', by simp [Graph.apply, heq], rings, h'⟩
  | redirectEdgeSource e n =>
    obtain ⟨g', previous, heq, h'⟩ := h.redirect happ
    exact ⟨g', by simp [Graph.apply, Graph.redirectEdgeSource, heq], h'⟩
  | redirectEdgeTarget e n =>
    obtain ⟨g', previous, heq, h'⟩ := h.redirect happ
    exact ⟨g', by simp [Graph.apply, Graph.redirectEdgeTarget, heq], h'⟩
  | moveAdjacency old new d => exact h.moveAdjacency happ
  | compact =>
    cases happ
    exact ⟨_, rfl, _, h.compact⟩

theorem applyAll (ops : List (Op N E)) : ∀ {g : Graph N E} {m m' : Naive N E}
    {rings : Nat → TraversalDirection → List Nat}, Refines g m rings → m.applyAll ops = some m' →
    ∃ g', g.applyAll ops = some g' ∧ ∃ rings', Refines g' m' rings' := by
  induction ops with
  | nil =>
    intro g m m' rings h hrun
    cases hrun
    exact ⟨g, rfl, rings, h⟩
  | cons op ops ih =>
    intro g m m' rings h hrun
    simp only [Naive.applyAll, foldlM_cons, Option.bind_eq_bind] at hrun
    obtain ⟨m₁, hstep, hrest⟩ := Option.bind_eq_some_iff.mp hrun
    obtain ⟨g₁, hg₁, rings₁, h₁⟩ := h.apply hstep
    obtain ⟨g', hg', h'⟩ := ih h₁ hrest
    exact ⟨g', by simp only [Graph.applyAll, foldlM_cons, hg₁]; exact hg', h'⟩

theorem count_lists (h : Refines g m rings) {e : Nat} {record : EdgeRecord E}
    (hr : m.edge e = some record) (d : TraversalDirection) :
    (m.lists d (record.endpoint d)).count e = 1 :=
  count_eq_one_of_mem (h.wf.nodup d _) ((h.wf.mem_iff d _ e).mpr ⟨record, hr, rfl⟩)

end Refines

/-- After any sequence of operations whose documented preconditions hold, the
store reads as the naive store: live nodes list their naive lists, removed
nodes list nothing, and a live edge is listed exactly once at each end. -/
theorem adjacency_eq_naive (ops : List (Op N E)) {m : Naive N E}
    (hrun : Naive.empty.applyAll ops = some m) :
    ∃ g, (Graph.new : Graph N E).applyAll ops = some g ∧
      (∀ n, g.containsNode n = (m.node n).isSome) ∧ (∀ e, g.containsEdge e = (m.edge e).isSome) ∧
      (∀ n, g.containsNode n = true →
        g.outgoing n = some (m.lists .outgoing n) ∧ g.incoming n = some (m.lists .incoming n)) ∧
      (∀ n, n < g.nodeBound → g.containsNode n = false →
        g.outgoing n = some [] ∧ g.incoming n = some []) ∧
      (∀ e, g.containsEdge e = true → ∃ record out inc, g.edge e = some record ∧
        g.outgoing record.source = some out ∧ out.count e = 1 ∧
        g.incoming record.target = some inc ∧ inc.count e = 1) := by
  obtain ⟨g, hg, rings, h⟩ := Refines.applyAll ops Refines.empty hrun
  have hnode : ∀ n, g.containsNode n = (m.node n).isSome := by
    intro n
    rw [Graph.containsNode, h.counted.nodeIsLive, h.node_isSome]
  have hedge : ∀ e, g.containsEdge e = (m.edge e).isSome := by
    intro e
    rw [Graph.containsEdge, h.counted.edgeIsLive, h.edge_isSome]
  have hread : ∀ n < g.nodeBound, g.outgoing n = some (m.lists .outgoing n) ∧
      g.incoming n = some (m.lists .incoming n) := by
    intro n hn
    obtain ⟨out, hout, houtc, _⟩ := h.adjacent hn .outgoing
    obtain ⟨inc, hinc, hincc, _⟩ := h.adjacent hn .incoming
    simp [Graph.outgoing, Graph.incoming, hout, hinc, houtc, hincc]
  have hlt : ∀ n, (m.node n).isSome → n < g.nodeBound := by
    intro n hn
    rw [h.node_isSome] at hn
    exact h.counted.node_lt hn
  refine ⟨g, hg, hnode, hedge, ?_, ?_, ?_⟩
  · intro n hn
    rw [hnode] at hn
    exact hread n (hlt n hn)
  · intro n hn hdead
    rw [hnode, h.node_isSome] at hdead
    have := hread n hn
    rwa [h.lists_dead hdead, h.lists_dead hdead] at this
  · intro e he
    rw [hedge] at he
    obtain ⟨record, hr⟩ := Option.isSome_iff_exists.mp he
    have hget : g.edge e = some record := by
      have hg := h.edge e
      rw [h.edge_isSome] at he
      rw [if_pos he, hr] at hg
      exact hg.symm
    exact ⟨record, _, _, hget, (hread _ (hlt _ (h.wf.live .outgoing e record hr))).1,
      h.count_lists hr .outgoing, (hread _ (hlt _ (h.wf.live .incoming e record hr))).2,
      h.count_lists hr .incoming⟩

/-- A run through every operation, with a redirect between two compactions. -/
def sampleRun : List (Op Nat Nat) :=
  [.addNode 10, .addNode 11, .addNode 12, .addEdge 0 1 20, .addEdge 0 2 21, .addEdge 1 2 22,
    .redirectEdgeSource 0 1, .compact, .addEdge 1 1 23, .redirectEdgeTarget 2 0, .removeEdge 1,
    .moveAdjacency 1 2 .outgoing, .removeNode 0, .compact]

theorem adjacency_eq_naive_sampleRun :
    ∃ m g, Naive.empty.applyAll sampleRun = some m ∧ Graph.new.applyAll sampleRun = some g ∧
      g.outgoing 1 = some (m.lists .outgoing 1) ∧ m.lists .outgoing 1 ≠ [] := by
  have hsome : (Naive.empty.applyAll sampleRun).isSome = true := by decide
  obtain ⟨m, hm⟩ := Option.isSome_iff_exists.mp hsome
  obtain ⟨g, hg, hnode, _, hread, _⟩ := adjacency_eq_naive sampleRun hm
  have hfacts : ((Naive.empty.applyAll sampleRun).map
      (fun m => ((m.node 1).isSome, m.lists .outgoing 1))) = some (true, [0, 1]) := by decide
  rw [hm, Option.map_some, Option.some.injEq, Prod.mk.injEq] at hfacts
  refine ⟨m, g, hm, hg, (hread 1 (by rw [hnode, hfacts.1])).1, ?_⟩
  rw [hfacts.2]
  simp

end CfgLib.Store

import CfgLib.Lib.RankSelect
import CfgLib.Store.Basic

/-!
# Reading adjacency

The representation invariant of the store and what an adjacency walk reads
under it: the node's run, replaced or compressed, followed by its delta chain,
removed edges skipped.  `Rep` carries the chains' denotation as ghost lists.
-/

namespace CfgLib.Store

open CfgLib.Lib List

structure Runs.WF (r : Runs) (bound : Nat) : Prop where
  length_le : r.index.length ≤ bound
  slot_lt : ∀ n s : Nat, r.index[n]? = some (some s) → s < r.runs.length
  slot_inj : ∀ n m s : Nat, r.index[n]? = some (some s) → r.index[m]? = some (some s) → n = m

namespace Graph

variable {N E : Type}

/-- What a walk reads before its chain, removed edges included. -/
def run (g : Graph N E) (n : Nat) (d : TraversalDirection) : List Nat :=
  (g.overlay n d).getD (g.baseRun n d)

/-- Everything a walk passes, removed edges included. -/
def content (g : Graph N E) (rings : Nat → TraversalDirection → List Nat) (n : Nat)
    (d : TraversalDirection) : List Nat :=
  g.run n d ++ (rings n d).map (g.baseEdges.length + ·)

/-- The liveness bits and counters of both slot spaces agree. -/
structure Counted (g : Graph N E) : Prop where
  nodes_wf : g.liveNodes.WF
  nodes_len : g.liveNodes.len = g.nodeBound
  nodes_count : g.liveNodeCount = rank g.liveNodes.isLive g.nodeBound
  edges_wf : g.liveEdges.WF
  edges_len : g.liveEdges.len = g.edgeBound
  edges_count : g.liveEdgeCount = rank g.liveEdges.isLive g.edgeBound

structure Rep (g : Graph N E) (rings : Nat → TraversalDirection → List Nat) : Prop where
  threaded : g.chains.Rings rings
  next_length : g.chains.next.length = g.deltaEdges.length
  runs_wf : ∀ r ∈ g.relocations, ∀ d, (r.runs d).WF g.nodeBound
  axis_wf : ∀ d n, n + 1 < (g.offsets d).length →
    (g.offsets d).getD n 0 ≤ (g.offsets d).getD (n + 1) 0 ∧
      (g.offsets d).getD (n + 1) 0 ≤ (g.indexEdges d).length
  run_lt : ∀ n d, ∀ e ∈ g.run n d, e < g.edgeBound
  run_before : ∀ n d e p, e ∈ g.run n d → p ∈ rings n d → e < g.baseEdges.length + p
  sorted : ∀ n d, (rings n d).Pairwise (· < ·)

/-! ## Liveness fast paths -/

variable {walk : AdjacentEdges} {g : Graph N E} {back front : List Nat} {n : Nat}
  {rings : Nat → TraversalDirection → List Nat}

theorem live_of_count_eq {s : LiveSet} (h : rank s.isLive n = n) {i : Nat} (hi : i < n) :
    s.isLive i = true := by
  have hall : ∀ k ∈ List.range n, s.isLive k = true := by
    apply countP_eq_length.mp
    rw [length_range]
    exact h
  exact hall i (mem_range.mpr hi)

theorem Counted.nodeIsLive (h : g.Counted) (n : Nat) : g.nodeIsLive n = g.liveNodes.isLive n := by
  by_cases hn : n < g.nodeBound
  · by_cases hc : g.liveNodeCount = g.nodeBound
    · have hlive := live_of_count_eq (h.nodes_count ▸ hc) hn
      simp [Graph.nodeIsLive, tombstonedNodes, hn, hc, hlive]
    · simp [Graph.nodeIsLive, tombstonedNodes, hn, hc]
  · rw [LiveSet.isLive_of_len_le (by rw [h.nodes_len]; omega)]
    simp [Graph.nodeIsLive, hn]

theorem Counted.edgeIsLive (h : g.Counted) (e : Nat) : g.edgeIsLive e = g.liveEdges.isLive e := by
  by_cases he : e < g.edgeBound
  · by_cases hc : g.liveEdgeCount = g.edgeBound
    · have hlive := live_of_count_eq (h.edges_count ▸ hc) he
      simp [Graph.edgeIsLive, tombstonedEdges, he, hc, hlive]
    · simp [Graph.edgeIsLive, tombstonedEdges, he, hc]
  · rw [LiveSet.isLive_of_len_le (by rw [h.edges_len]; omega)]
    simp [Graph.edgeIsLive, he]

theorem Counted.edgeFilter (h : g.Counted) {e : Nat} (he : e < g.edgeBound) :
    LiveSet.passes g.edgeFilter e = g.liveEdges.isLive e := by
  by_cases hc : g.liveEdgeCount = g.edgeBound
  · have hlive := live_of_count_eq (h.edges_count ▸ hc) he
    simp [LiveSet.passes, Graph.edgeFilter, tombstonedEdges, hc, hlive]
  · simp [LiveSet.passes, Graph.edgeFilter, tombstonedEdges, hc]

theorem Counted.filter_edgeFilter (h : g.Counted) {l : List Nat} (hl : ∀ e ∈ l, e < g.edgeBound) :
    l.filter (LiveSet.passes g.edgeFilter) = l.filter g.liveEdges.isLive :=
  filter_congr (fun e he => h.edgeFilter (hl e he))

/-! ## Stepping a walk -/

/-- The walk at `cursor` still passes the run entries `front` and the chain
positions `back`. -/
structure Remaining (axis : Axis) (cursor : AdjacencyCursor) (front back : List Nat) : Prop where
  front_eq : (axis.edges.drop cursor.base).take (cursor.baseEnd - cursor.base) = front
  front_length : front.length = cursor.baseEnd - cursor.base
  back_segment : axis.chains.Segment axis.chain cursor.deltaLast cursor.delta back
  back_length : back.length ≤ axis.chains.next.length

/-- One call of `advance` skips to the first entry that passes the filter. -/
theorem advance_spec {axis : Axis} (live : Option LiveSet) (deltaBase fuel : Nat) :
    ∀ {cursor : AdjacencyCursor} {front back : List Nat}, Remaining axis cursor front back →
    front.length + back.length < fuel →
    (∃ cursor', advance axis live deltaBase fuel cursor = (none, cursor') ∧
      (front ++ back.map (deltaBase + ·)).filter (LiveSet.passes live) = []) ∨
    (∃ e cursor' front' back', advance axis live deltaBase fuel cursor = (some e, cursor') ∧
      Remaining axis cursor' front' back' ∧
      front'.length + back'.length < front.length + back.length ∧
      (front ++ back.map (deltaBase + ·)).filter (LiveSet.passes live) =
        e :: (front' ++ back'.map (deltaBase + ·)).filter (LiveSet.passes live)) := by
  induction fuel with
  | zero => intro cursor front back _ hlt; omega
  | succ fuel ih =>
    intro cursor front back h hlt
    simp only [advance]
    cases front with
    | cons a front =>
      have hlen := h.front_length
      simp only [length_cons] at hlen hlt
      have hbase : cursor.base < cursor.baseEnd := by omega
      rw [if_pos hbase]
      have hfront := h.front_eq
      have hne : cursor.base < axis.edges.length := by
        by_contra hc
        rw [drop_eq_nil_of_le (by omega)] at hfront
        simp at hfront
      rw [drop_eq_getElem_cons hne,
        show cursor.baseEnd - cursor.base = (cursor.baseEnd - (cursor.base + 1)) + 1 by omega,
        take_succ_cons] at hfront
      obtain ⟨ha, hrest⟩ := List.cons.inj hfront
      have hget : axis.edges.getD cursor.base 0 = a := by
        rw [getD_eq_getElem?_getD, getElem?_eq_getElem hne, Option.getD_some, ha]
      have hnext : Remaining axis { cursor with base := cursor.base + 1 } front back :=
        ⟨hrest, by simp only; omega, h.back_segment, h.back_length⟩
      rw [hget]
      by_cases hkeep : LiveSet.passes live a
      · rw [if_pos hkeep]
        refine Or.inr ⟨a, _, front, back, rfl, hnext, by simp only [length_cons]; omega, ?_⟩
        rw [cons_append, filter_cons_of_pos hkeep]
      · rw [if_neg hkeep, cons_append, filter_cons_of_neg hkeep]
        rcases ih hnext (by omega) with hnone | ⟨e, c', f', b', h1, h2, h3, h4⟩
        · exact Or.inl hnone
        · exact Or.inr ⟨e, c', f', b', h1, h2, by simp only [length_cons]; omega, h4⟩
    | nil =>
      have hbase : ¬ cursor.base < cursor.baseEnd := by
        have := h.front_length
        simp at this
        omega
      rw [if_neg hbase]
      cases back with
      | nil =>
        have hdelta : cursor.delta = none := h.back_segment
        rw [hdelta]
        exact Or.inl ⟨cursor, rfl, rfl⟩
      | cons p back =>
        obtain ⟨hdelta, hseg⟩ := h.back_segment
        have hlen := h.back_length
        simp only [length_cons, length_nil] at hlen hlt
        rw [hdelta]
        have hnext : Remaining axis
            { cursor with
              delta := if some p = cursor.deltaLast then none
                else axis.chains.nextLink p axis.chain } [] back :=
          ⟨h.front_eq, h.front_length, hseg, by omega⟩
        simp only [nil_append, map_cons]
        by_cases hkeep : LiveSet.passes live (deltaBase + p)
        · rw [if_pos hkeep]
          refine Or.inr ⟨_, _, [], back, rfl, hnext, by simp, ?_⟩
          rw [filter_cons_of_pos hkeep, nil_append]
        · rw [if_neg hkeep, filter_cons_of_neg hkeep]
          rcases ih hnext (by simp; omega) with hnone | ⟨e, c', f', b', h1, h2, h3, h4⟩
          · exact Or.inl (by simpa using hnone)
          · exact Or.inr ⟨e, c', f', b', h1, h2, by simp at h3 ⊢; omega, by simpa using h4⟩

theorem Remaining.lt_fuel (h : Remaining walk.axis walk.cursor front back) :
    front.length + back.length < walk.fuel := by
  have h1 := h.front_length
  have h2 := h.back_length
  unfold AdjacentEdges.fuel
  omega

theorem AdjacentEdges.collectWith_eq (fuel : Nat) :
    ∀ (walk : AdjacentEdges) {front back : List Nat},
    Remaining walk.axis walk.cursor front back → front.length + back.length < fuel →
    collectWith fuel walk = (front ++ back.map (walk.deltaBase + ·)).filter
      (LiveSet.passes walk.live) := by
  induction fuel with
  | zero => intro walk front back _ hlt; omega
  | succ fuel ih =>
    intro walk front back h hlt
    rcases advance_spec walk.live walk.deltaBase walk.fuel h h.lt_fuel with
      ⟨c', hadv, hnil⟩ | ⟨e, c', f', b', hadv, hrem, hlen, hcons⟩
    · simp only [collectWith, AdjacentEdges.next, hadv]
      exact hnil.symm
    · simp only [collectWith, AdjacentEdges.next, hadv]
      rw [hcons, ih { walk with cursor := c' } hrem (by omega)]

theorem AdjacentEdges.collect_eq (h : Remaining walk.axis walk.cursor front back) :
    walk.collect = (front ++ back.map (walk.deltaBase + ·)).filter (LiveSet.passes walk.live) :=
  collectWith_eq walk.fuel walk h h.lt_fuel

theorem AdjacentEdges.next_eq_none (h : Remaining walk.axis walk.cursor front back) :
    walk.next.1 = none ↔ walk.collect = [] := by
  rw [collect_eq h]
  rcases advance_spec walk.live walk.deltaBase walk.fuel h h.lt_fuel with
    ⟨c', hadv, hnil⟩ | ⟨e, c', f', b', hadv, hrem, hlen, hcons⟩
  · simp [AdjacentEdges.next, hadv, hnil]
  · simp [AdjacentEdges.next, hadv, hcons]

/-! ## A node's walk -/

theorem Rep.content_lt (h : g.Rep rings) (n : Nat) (d : TraversalDirection) :
    ∀ e ∈ g.content rings n d, e < g.edgeBound := by
  intro e he
  rcases mem_append.mp he with he | he
  · exact h.run_lt n d e he
  · obtain ⟨p, hp, rfl⟩ := mem_map.mp he
    have := (h.threaded.ring n d).bound p hp
    rw [h.next_length] at this
    unfold edgeBound
    omega

theorem cursor_live (g : Graph N E) (hn : n < g.nodeBound)
    (hlive : g.liveNodes.isLive n = true) (d : TraversalDirection) :
    ∃ base baseEnd, g.cursor n (g.axis d) =
        some ⟨base, baseEnd, ((g.chains.ends n d).getD (none, none)).1,
          ((g.chains.ends n d).getD (none, none)).2⟩ ∧ (n + 1 < (g.offsets d).length ∧
          base = (g.offsets d).getD n 0 ∧ baseEnd = (g.offsets d).getD (n + 1) 0 ∨
        ¬ n + 1 < (g.offsets d).length ∧ base = 0 ∧ baseEnd = 0) := by
  have htomb : ¬ (g.tombstonedNodes && !g.liveNodes.isLive n) = true := by simp [hlive]
  unfold cursor
  rw [if_pos hn, if_neg htomb]
  by_cases hoff : n + 1 < (g.axis d).offsets.length
  · rw [if_pos hoff]
    exact ⟨_, _, rfl, Or.inl ⟨hoff, rfl, rfl⟩⟩
  · rw [if_neg hoff]
    exact ⟨_, _, rfl, Or.inr ⟨hoff, rfl, rfl⟩⟩

theorem Rep.adjacent_live (h : g.Rep rings) (hn : n < g.nodeBound)
    (hlive : g.liveNodes.isLive n = true) (d : TraversalDirection) :
    ∃ walk, g.adjacent n d = some walk ∧ walk.live = g.edgeFilter ∧
      walk.deltaBase = g.baseEdges.length ∧
      Remaining walk.axis walk.cursor (g.run n d) (rings n d) := by
  have hring := h.threaded.ring n d
  have hseg : g.chains.Segment d ((g.chains.ends n d).getD (none, none)).2
      ((g.chains.ends n d).getD (none, none)).1 (rings n d) := by
    rw [hring.ends]
    by_cases hnil : rings n d = []
    · rw [if_pos hnil, hnil]; rfl
    · rw [if_neg hnil]; exact hring.segment
  obtain ⟨base, baseEnd, hcursor, hbase⟩ := g.cursor_live hn hlive d
  simp only [adjacent, hcursor]
  cases hover : g.overlay n d with
  | some r =>
    refine ⟨_, rfl, rfl, rfl, ?_⟩
    simp only [run, hover, Option.getD_some]
    exact ⟨by simp, by simp, hseg, hring.length_le⟩
  | none =>
    refine ⟨_, rfl, rfl, rfl, ?_⟩
    simp only [run, hover, Option.getD_none, baseRun]
    rcases hbase with ⟨hoff, rfl, rfl⟩ | ⟨hoff, rfl, rfl⟩
    · obtain ⟨hmono, hle⟩ := h.axis_wf d n hoff
      rw [if_pos hoff]
      refine ⟨rfl, ?_, hseg, hring.length_le⟩
      change _ = (g.offsets d).getD (n + 1) 0 - (g.offsets d).getD n 0
      rw [CountingSort.slice, length_take, length_drop]
      omega
    · rw [if_neg hoff]
      exact ⟨by simp, by simp, hseg, hring.length_le⟩

theorem Rep.collect_live (h : g.Rep rings) (hc : g.Counted) (hn : n < g.nodeBound)
    (hlive : g.liveNodes.isLive n = true) (d : TraversalDirection) :
    (g.adjacent n d).map AdjacentEdges.collect =
      some ((g.content rings n d).filter g.liveEdges.isLive) := by
  obtain ⟨walk, hadj, hlive, hbase, hrem⟩ := h.adjacent_live hn hlive d
  rw [hadj, Option.map_some, AdjacentEdges.collect_eq hrem, hlive, hbase]
  congr 1
  exact hc.filter_edgeFilter (h.content_lt n d)

theorem Rep.adjacent_dead (hc : g.Counted) (hn : n < g.nodeBound)
    (hdead : g.liveNodes.isLive n = false) (d : TraversalDirection) :
    ∃ walk, g.adjacent n d = some walk ∧ walk.live = g.edgeFilter ∧
      walk.deltaBase = g.baseEdges.length ∧
      Remaining walk.axis walk.cursor ((g.overlay n d).getD []) [] := by
  have htomb : g.tombstonedNodes = true := by
    have := hc.nodeIsLive n
    rw [hdead] at this
    by_contra hf
    simp [nodeIsLive, hn, hf] at this
  simp only [adjacent, cursor, hn, if_true, hdead, htomb, Bool.not_false, Bool.and_self, axis]
  cases hover : g.overlay n d with
  | some r =>
    exact ⟨_, rfl, rfl, rfl, by simp, by simp, rfl, by simp⟩
  | none =>
    exact ⟨_, rfl, rfl, rfl, by simp [AdjacencyCursor.exhausted],
      by simp [AdjacencyCursor.exhausted], rfl, by simp⟩

end Graph

end CfgLib.Store

import CfgLib.Store.Naive
import CfgLib.Store.Relocate

/-!
# The store refines the naive store

`Refines` relates a store to the naive one; every operation that keeps the
slots in place preserves it, and succeeds where the naive operation does.
-/

namespace CfgLib.Store

open CfgLib.Lib List

variable {N E : Type}

/-- The store denotes the naive store `m`; `rings` are its chains. -/
structure Refines (g : Graph N E) (m : Naive N E)
    (rings : Nat → TraversalDirection → List Nat) : Prop where
  rep : g.Rep rings
  counted : g.Counted
  nodes_length : m.nodes.length = g.nodeBound
  edges_length : m.edges.length = g.edgeBound
  node : ∀ i, m.node i = if g.liveNodes.isLive i then g.node i else none
  edge : ∀ i, m.edge i = if g.liveEdges.isLive i then g.edge i else none
  lists : ∀ d n, m.lists d n = (g.content rings n d).filter g.liveEdges.isLive
  wf : m.WF

namespace Graph

theorem node_eq (g : Graph N E) (i : Nat) : g.node i = (g.baseNodes ++ g.deltaNodes)[i]? := by
  unfold node
  split
  · next h => rw [getElem?_append_left h]
  · next h => rw [getElem?_append_right (by omega)]

theorem edge_eq (g : Graph N E) (i : Nat) : g.edge i = (g.baseEdges ++ g.deltaEdges)[i]? := by
  unfold edge
  split
  · next h => rw [getElem?_append_left h]
  · next h => rw [getElem?_append_right (by omega)]

theorem node_isSome {g : Graph N E} {i : Nat} (h : i < g.nodeBound) : (g.node i).isSome := by
  rw [node_eq, getElem?_eq_getElem (by simpa [nodeBound] using h)]
  rfl

theorem edge_isSome {g : Graph N E} {i : Nat} (h : i < g.edgeBound) : (g.edge i).isSome := by
  rw [edge_eq, getElem?_eq_getElem (by simpa [edgeBound] using h)]
  rfl

theorem Counted.node_lt {g : Graph N E} (h : g.Counted) {i : Nat}
    (hi : g.liveNodes.isLive i = true) : i < g.nodeBound := by
  by_contra hc
  rw [LiveSet.isLive_of_len_le (by rw [h.nodes_len]; omega)] at hi
  cases hi

theorem Counted.edge_lt {g : Graph N E} (h : g.Counted) {i : Nat}
    (hi : g.liveEdges.isLive i = true) : i < g.edgeBound := by
  by_contra hc
  rw [LiveSet.isLive_of_len_le (by rw [h.edges_len]; omega)] at hi
  cases hi

end Graph

namespace Refines

variable {g : Graph N E} {m : Naive N E} {rings : Nat → TraversalDirection → List Nat}

section

variable (h : Refines g m rings)
include h

theorem node_isSome (i : Nat) : (m.node i).isSome = g.liveNodes.isLive i := by
  rw [h.node]
  cases hl : g.liveNodes.isLive i with
  | false => rfl
  | true => exact Graph.node_isSome (h.counted.node_lt hl)

theorem edge_isSome (i : Nat) : (m.edge i).isSome = g.liveEdges.isLive i := by
  rw [h.edge]
  cases hl : g.liveEdges.isLive i with
  | false => rfl
  | true => exact Graph.edge_isSome (h.counted.edge_lt hl)

theorem lists_dead {n : Nat} (hdead : g.liveNodes.isLive n = false) (d : TraversalDirection) : m.lists d n = [] := by
  rw [eq_nil_iff_forall_not_mem]
  intro e he
  obtain ⟨record, hr, hend⟩ := (h.wf.mem_iff d n e).mp he
  have := h.wf.live d e record hr
  rw [hend, h.node_isSome, hdead] at this
  cases this

theorem adjacent {n : Nat} (hn : n < g.nodeBound) (d : TraversalDirection) :
    ∃ walk, g.adjacent n d = some walk ∧ walk.collect = m.lists d n ∧
      (walk.next.1 = none ↔ m.lists d n = []) := by
  cases hlive : g.liveNodes.isLive n with
  | true =>
    obtain ⟨walk, hadj, hl, hb, hrem⟩ := h.rep.adjacent_live hn hlive d
    have hcollect : walk.collect = m.lists d n := by
      have := h.rep.collect_live h.counted hn hlive d
      rw [hadj, Option.map_some, Option.some.injEq] at this
      rw [this, h.lists]
    exact ⟨walk, hadj, hcollect, by rw [← hcollect]; exact Graph.AdjacentEdges.next_eq_none hrem⟩
  | false =>
    obtain ⟨walk, hadj, hl, hb, hrem⟩ := Graph.Rep.adjacent_dead h.counted hn hlive d
    have hnil := h.lists_dead hlive d
    have hcollect : walk.collect = [] := by
      rw [Graph.AdjacentEdges.collect_eq hrem, hl, map_nil, append_nil]
      cases hover : g.overlay n d with
      | none => rfl
      | some run =>
        -- the replacement run is part of a content with no live edge in it
        have hrun : g.run n d = run := by simp [Graph.run, hover]
        have hlt := h.rep.run_lt n d
        have hcontent := (h.lists d n).symm.trans hnil
        rw [hrun] at hlt
        rw [Graph.content, filter_append, hrun] at hcontent
        rw [Option.getD_some, h.counted.filter_edgeFilter hlt]
        exact (append_eq_nil_iff.mp hcontent).1
    refine ⟨walk, hadj, by rw [hcollect, hnil], ?_⟩
    rw [Graph.AdjacentEdges.next_eq_none hrem, hcollect, hnil]

theorem assertLiveEndpoint {n : Nat} (hn : (m.node n).isSome) :
    g.assertLiveEndpoint n = some () := by
  rw [h.node_isSome] at hn
  simp [Graph.assertLiveEndpoint, h.counted.nodeIsLive, hn, h.counted.node_lt hn]

/-! ## Adding -/

theorem addNode {payload : N} {m' : Naive N E} (happ : m.addNode payload = some m') :
    ∃ g', g.addNode payload = some (g', g.nodeBound) ∧ Refines g' m' rings := by
  have hwf := h.wf.addNode happ
  unfold Naive.addNode at happ
  split at happ
  swap
  · cases happ
  next hlt =>
  cases happ
  rw [h.nodes_length] at hlt
  have hlive := LiveSet.isLive_pushLive h.counted.nodes_wf
  have hlen := h.counted.nodes_len
  have hbound : g.baseNodes.length + (g.deltaNodes ++ [payload]).length = g.nodeBound + 1 := by
    simp [Graph.nodeBound]; omega
  refine ⟨_, if_pos hlt, ?_⟩
  refine ⟨?_, ?_, ?_, h.edges_length, ?_, h.edge, h.lists, hwf⟩
  · refine ⟨h.rep.threaded, h.rep.next_length, ?_, h.rep.axis_wf, h.rep.run_lt,
      h.rep.run_before, h.rep.sorted⟩
    intro r hr d
    exact (h.rep.runs_wf r hr d).mono (Nat.le_of_lt (Nat.lt_of_lt_of_eq (Nat.lt_succ_self _) hbound.symm))
  · refine ⟨LiveSet.wf_pushLive h.counted.nodes_wf, ?_, ?_, h.counted.edges_wf,
      h.counted.edges_len, h.counted.edges_count⟩
    · change g.liveNodes.len + 1 = _
      rw [Graph.nodeBound, hbound, hlen]
    · change g.liveNodeCount + 1 = rank _ _
      rw [Graph.nodeBound, hbound, h.counted.nodes_count]
      refine (rank_push (fun k hk => ?_) ?_).symm
      · rw [hlive, hlen]
        simp [Nat.ne_of_lt hk]
      · rw [hlive, hlen]
        simp
  · change (m.nodes ++ [some payload]).length = _
    rw [Graph.nodeBound, hbound, length_append, h.nodes_length]
    rfl
  · intro i
    change ((m.nodes ++ [some payload])[i]?).join = _
    rw [Naive.join_getElem?_append, hlive, Graph.node_eq, hlen, h.nodes_length]
    change _ = if _ then (g.baseNodes ++ (g.deltaNodes ++ [payload]))[i]? else none
    rw [← append_assoc]
    by_cases hi : i = g.nodeBound
    · subst hi
      simp [Graph.nodeBound]
    · rw [if_neg hi]
      have hnode := h.node i
      rw [Naive.node] at hnode
      rw [hnode]
      simp only [hi, decide_false, Bool.false_or]
      split
      · next hl =>
        have hi' := h.counted.node_lt hl
        rw [getElem?_append_left (by simpa [Graph.nodeBound] using hi'), Graph.node_eq]
      · rfl

theorem addEdge {source target : Nat} {payload : E} {m' : Naive N E}
    (happ : m.addEdge source target payload = some m') :
    ∃ g', g.addEdge source target payload = some (g', g.edgeBound) ∧
      ∃ rings', Refines g' m' rings' := by
  have hwf := h.wf.addEdge happ
  obtain ⟨hs, ht, hnodes, hedges, hedge, hlists⟩ := Naive.addEdge_spec happ
  have hroom : g.edgeBound < maxSlots := by
    unfold Naive.addEdge at happ
    split at happ
    · next hpre => rw [← h.edges_length]; exact hpre.2.2
    · cases happ
  have hs_lt : source < g.nodeBound := h.counted.node_lt (by rw [← h.node_isSome]; exact hs)
  have ht_lt : target < g.nodeBound := h.counted.node_lt (by rw [← h.node_isSome]; exact ht)
  have hlive := LiveSet.isLive_pushLive h.counted.edges_wf
  have hlen := h.counted.edges_len
  set record : EdgeRecord E := ⟨source, target, payload⟩ with hrecord
  have hbound : g.baseEdges.length + (g.deltaEdges ++ [record]).length = g.edgeBound + 1 := by
    simp [Graph.edgeBound]; omega
  have hpos : g.baseEdges.length + g.chains.next.length = g.edgeBound := by
    rw [h.rep.next_length, Graph.edgeBound]
  set rings' := DeltaChains.appendRings rings source target g.chains.next.length with hrings'
  have hring : ∀ n d, rings' n d =
      if n = record.endpoint d then rings n d ++ [g.chains.next.length] else rings n d := by
    intro n d
    cases d <;> rfl
  set g' : Graph N E := { g with
    deltaEdges := g.deltaEdges ++ [record]
    chains := g.chains.append source target g.nodeBound
    liveEdges := g.liveEdges.pushLive.1
    liveEdgeCount := g.liveEdgeCount + 1 } with hg'
  have hcontent : ∀ n d, g'.content rings' n d =
      if n = record.endpoint d then g.content rings n d ++ [g.edgeBound]
      else g.content rings n d := by
    intro n d
    have hrun : g'.run n d = g.run n d := rfl
    have hbase : g'.baseEdges = g.baseEdges := rfl
    simp only [Graph.content, hrun, hring, hbase]
    split
    · rw [map_append, append_assoc, map_singleton, hpos]
    · rfl
  refine ⟨g', ?_, rings', ?_⟩
  · simp [Graph.addEdge, h.assertLiveEndpoint hs, h.assertLiveEndpoint ht, hroom, hg', hrecord]
  refine ⟨?_, ?_, ?_, ?_, ?_, ?_, ?_, hwf⟩
  · have hrings := h.rep.threaded.append hs_lt ht_lt
    refine ⟨hrings, ?_, h.rep.runs_wf, h.rep.axis_wf, ?_, ?_, ?_⟩
    · have := DeltaChains.length_next_append g.chains source target g.nodeBound
      change (g.chains.append source target g.nodeBound).next.length = _
      rw [this, h.rep.next_length]
      simp [hg']
    · intro n d e he
      have := h.rep.run_lt n d e he
      change e < g.baseEdges.length + (g.deltaEdges ++ [record]).length
      omega
    · intro n d e p he hp
      have hold := h.rep.run_before n d e p he
      have hnew := h.rep.run_lt n d e he
      rw [hring] at hp
      change e < g.baseEdges.length + p
      split at hp
      · rcases mem_append.mp hp with hp | hp
        · exact hold hp
        · rw [mem_singleton.mp hp]; omega
      · exact hold hp
    · intro n d
      rw [hring]
      split
      · refine pairwise_append.mpr ⟨h.rep.sorted n d, pairwise_singleton _ _, ?_⟩
        intro a ha b hb
        rw [mem_singleton.mp hb]
        exact (h.rep.threaded.ring n d).bound a ha
      · exact h.rep.sorted n d
  · refine ⟨h.counted.nodes_wf, h.counted.nodes_len, h.counted.nodes_count,
      LiveSet.wf_pushLive h.counted.edges_wf, ?_, ?_⟩
    · change g.liveEdges.len + 1 = _
      rw [Graph.edgeBound, hbound, hlen]
    · change g.liveEdgeCount + 1 = rank _ _
      rw [Graph.edgeBound, hbound, h.counted.edges_count]
      refine (rank_push (fun k hk => ?_) ?_).symm
      · rw [hlive, hlen]
        simp [Nat.ne_of_lt hk]
      · rw [hlive, hlen]
        simp
  · rw [hnodes, h.nodes_length]; rfl
  · change _ = g.baseEdges.length + (g.deltaEdges ++ [record]).length
    rw [hedges, length_append, h.edges_length, hbound]
    rfl
  · intro i
    rw [Naive.node, hnodes]
    exact h.node i
  · intro i
    rw [hedge, hlive, Graph.edge_eq, hlen, h.edges_length]
    change _ = if _ then (g.baseEdges ++ (g.deltaEdges ++ [record]))[i]? else none
    rw [← append_assoc]
    by_cases hi : i = g.edgeBound
    · subst hi
      simp [Graph.edgeBound]
    · rw [if_neg hi, h.edge]
      simp only [hi, decide_false, Bool.false_or]
      split
      · next hl =>
        have hi' := h.counted.edge_lt hl
        rw [getElem?_append_left (by simpa [Graph.edgeBound] using hi'), Graph.edge_eq]
      · rfl
  · intro d n
    have hold : (g.content rings n d).filter g'.liveEdges.isLive = m.lists d n := by
      rw [h.lists]
      apply filter_congr
      intro e he
      have := h.rep.content_lt n d e he
      rw [hlive, hlen]
      simp [Nat.ne_of_lt this]
    have hself : g'.liveEdges.isLive g.edgeBound = true := by rw [hlive, hlen]; simp
    rw [hlists, hcontent]
    split
    · rw [filter_append, hold, filter_singleton, hself, h.edges_length]
      rfl
    · exact hold.symm

/-! ## Removing -/

theorem retireEdge (e : Nat) : Refines (g.retireEdge e).1 (m.removeEdge e) rings := by
  have hlive := LiveSet.isLive_clear h.counted.edges_wf e
  cases hl : g.liveEdges.isLive e with
  | false =>
    have hsame : (g.retireEdge e).1 = g := by
      simp [Graph.retireEdge, hl]
    have hnone : m.edge e = none := by rw [h.edge, hl]; rfl
    rw [hsame, Naive.removeEdge_of_none hnone]
    exact h
  | true =>
    have hretire : (g.retireEdge e).1 =
        { g with liveEdges := (g.liveEdges.clear e).1, liveEdgeCount := g.liveEdgeCount - 1 } := by
      simp [Graph.retireEdge, hl]
    rw [hretire]
    have he := h.counted.edge_lt hl
    refine ⟨?_, ?_, ?_, ?_, ?_, ?_, ?_, h.wf.removeEdge e⟩
    · exact ⟨h.rep.threaded, h.rep.next_length, h.rep.runs_wf, h.rep.axis_wf, h.rep.run_lt,
        h.rep.run_before, h.rep.sorted⟩
    · refine ⟨h.counted.nodes_wf, h.counted.nodes_len, h.counted.nodes_count,
        LiveSet.wf_clear h.counted.edges_wf e, ?_, ?_⟩
      · rw [LiveSet.len_clear]
        exact h.counted.edges_len
      · change g.liveEdgeCount - 1 = rank (g.liveEdges.clear e).1.isLive g.edgeBound
        have hrank : rank (g.liveEdges.clear e).1.isLive g.edgeBound + 1 =
            rank g.liveEdges.isLive g.edgeBound := by
          apply rank_erase he hl
          · rw [hlive]; simp
          · intro i hi
            rw [hlive]; simp [hi]
        rw [h.counted.edges_count]
        omega
    · rw [Naive.nodes_removeEdge]; exact h.nodes_length
    · rw [Naive.length_edges_removeEdge]; exact h.edges_length
    · intro i
      rw [Naive.node, Naive.nodes_removeEdge]
      exact h.node i
    · intro i
      rw [Naive.edge_removeEdge, hlive]
      by_cases hi : i = e
      · simp [hi]
      · simp only [hi, if_false, decide_false, Bool.not_false, Bool.and_true]
        exact h.edge i
    · intro d n
      rw [Naive.lists_removeEdge h.wf, (h.wf.nodup d n).erase_eq_filter, h.lists,
        filter_filter]
      apply filter_congr
      intro i _
      rw [hlive, Bool.and_comm]
      by_cases hi : i = e <;> simp [hi]

theorem foldl_retireEdge (l : List Nat) :
    Refines (l.foldl (fun g e => (g.retireEdge e).1) g) (l.foldl Naive.removeEdge m) rings := by
  induction l generalizing g m with
  | nil => exact h
  | cons e l ih => exact ih (h.retireEdge e)

theorem clearAdjacency {n : Nat} (hn : n < g.nodeBound) (d : TraversalDirection) :
    ∃ g', g.clearAdjacency n d = some g' ∧
      Refines g' ((m.lists d n).foldl Naive.removeEdge m) rings := by
  obtain ⟨walk, hadj, hcollect, _⟩ := h.adjacent hn d
  refine ⟨_, by simp only [Graph.clearAdjacency, hadj]; rfl, ?_⟩
  rw [hcollect]
  exact h.foldl_retireEdge _

theorem removeNode (n : Nat) :
    ∃ g', g.removeNode n = some (g', g.liveNodes.isLive n) ∧ Refines g' (m.removeNode n) rings := by
  have hwf := h.wf.removeNode n
  cases hl : g.liveNodes.isLive n with
  | false =>
    have hdead : ¬ (m.node n).isSome = true := by rw [h.node_isSome, hl]; simp
    refine ⟨g, by simp [Graph.removeNode, h.counted.nodeIsLive, hl], ?_⟩
    simpa [Naive.removeNode, hdead] using h
  | true =>
    have hsome : (m.node n).isSome = true := by rw [h.node_isSome, hl]
    have hn := h.counted.node_lt hl
    obtain ⟨g₁, hclear₁, h₁⟩ := h.clearAdjacency hn .outgoing
    have hn₁ : n < g₁.nodeBound := by
      rw [← h₁.nodes_length, Naive.nodes_foldl_removeEdge, h.nodes_length]
      exact hn
    obtain ⟨g₂, hclear₂, h₂⟩ := h₁.clearAdjacency hn₁ .incoming
    have hl₂ : g₂.liveNodes.isLive n = true := by
      rw [← h₂.node_isSome, Naive.node, Naive.nodes_foldl_removeEdge,
        Naive.nodes_foldl_removeEdge]
      exact hsome
    have hn₂ := h₂.counted.node_lt hl₂
    have hlive := LiveSet.isLive_clear h₂.counted.nodes_wf n
    refine ⟨{ g₂ with
      liveNodes := (g₂.liveNodes.clear n).1
      liveNodeCount := g₂.liveNodeCount - 1 }, ?_, ?_⟩
    · simp [Graph.removeNode, h.counted.nodeIsLive, hl, hclear₁, hclear₂]
    · simp only [Naive.removeNode, hsome, if_true] at hwf ⊢
      refine ⟨?_, ?_, ?_, h₂.edges_length, ?_, h₂.edge, h₂.lists, hwf⟩
      · exact ⟨h₂.rep.threaded, h₂.rep.next_length, h₂.rep.runs_wf, h₂.rep.axis_wf,
          h₂.rep.run_lt, h₂.rep.run_before, h₂.rep.sorted⟩
      · refine ⟨LiveSet.wf_clear h₂.counted.nodes_wf n, ?_, ?_, h₂.counted.edges_wf,
          h₂.counted.edges_len, h₂.counted.edges_count⟩
        · rw [LiveSet.len_clear]
          exact h₂.counted.nodes_len
        · change g₂.liveNodeCount - 1 = rank (g₂.liveNodes.clear n).1.isLive g₂.nodeBound
          have hrank : rank (g₂.liveNodes.clear n).1.isLive g₂.nodeBound + 1 =
              rank g₂.liveNodes.isLive g₂.nodeBound := by
            apply rank_erase hn₂ hl₂
            · rw [hlive]; simp
            · intro i hi
              rw [hlive]; simp [hi]
          rw [h₂.counted.nodes_count]
          omega
      · rw [length_set]
        exact h₂.nodes_length
      · intro i
        have hnode := h₂.node i
        rw [Naive.node] at hnode ⊢
        rw [Naive.join_getElem?_set _ _ _ _ (by rw [h₂.nodes_length]; exact hn₂), hnode, hlive]
        by_cases hi : i = n
        · simp [hi]
        · simp only [hi, if_false, decide_false, Bool.not_false, Bool.and_true]
          rfl

end

end Refines

/-! ## Relocating -/

namespace Graph

/-- `g'` differs from `g` in edge records alone, edited by `f` where `p` holds. -/
structure Recorded (g g' : Graph N E) (p : Nat → Prop) [DecidablePred p]
    (f : EdgeRecord E → EdgeRecord E) : Prop where
  frame : ∃ base delta, g' = { g with baseEdges := base, deltaEdges := delta } ∧
    base.length = g.baseEdges.length ∧ delta.length = g.deltaEdges.length
  edge : ∀ i, g'.edge i = if p i then (g.edge i).map f else g.edge i

theorem recorded_edgeMut (g : Graph N E) (e : Nat) (f : EdgeRecord E → EdgeRecord E) :
    Recorded g (g.edgeMut e f) (· = e) f := by
  refine ⟨?_, ?_⟩
  · unfold edgeMut
    split
    · exact ⟨_, _, rfl, by simp, rfl⟩
    · exact ⟨_, _, rfl, rfl, by simp⟩
  · intro i
    unfold edgeMut edge
    by_cases he : e < g.baseEdges.length
    · simp only [if_pos he, length_modify, getElem?_modify]
      by_cases hi : i = e
      · subst hi; simp [he]
      · have hi' : ¬ e = i := fun h => hi h.symm
        simp [hi, hi']
    · simp only [if_neg he, getElem?_modify]
      by_cases hi : i = e
      · subst hi; simp [he]
      · by_cases hb : i < g.baseEdges.length
        · simp [hi, hb]
        · have hi' : ¬ e - g.baseEdges.length = i - g.baseEdges.length := by omega
          simp [hi, hb, hi']

theorem recorded_foldl_edgeMut (g : Graph N E) (f : EdgeRecord E → EdgeRecord E)
    (hf : ∀ r, f (f r) = f r) (l : List Nat) :
    Recorded g (l.foldl (fun g e => g.edgeMut e f) g) (· ∈ l) f := by
  induction l generalizing g with
  | nil => exact ⟨⟨_, _, rfl, rfl, rfl⟩, by simp⟩
  | cons e l ih =>
    have h₁ := g.recorded_edgeMut e f
    have h₂ := ih (g.edgeMut e f)
    refine ⟨?_, ?_⟩
    · obtain ⟨b₁, d₁, heq₁, hb₁, hd₁⟩ := h₁.frame
      obtain ⟨b₂, d₂, heq₂, hb₂, hd₂⟩ := h₂.frame
      rw [heq₁] at hb₂ hd₂
      exact ⟨b₂, d₂, by rw [foldl_cons, heq₂, heq₁], hb₂.trans hb₁, hd₂.trans hd₁⟩
    · intro i
      rw [foldl_cons, h₂.edge, h₁.edge]
      by_cases h1 : i ∈ l <;> by_cases h2 : i = e <;> simp [h1, h2, Function.comp_def, hf]

section Recorded

variable {g g' : Graph N E} {p : Nat → Prop} [DecidablePred p] {f : EdgeRecord E → EdgeRecord E}
  {rings : Nat → TraversalDirection → List Nat}

theorem Recorded.edgeBound (h : Recorded g g' p f) : g'.edgeBound = g.edgeBound := by
  obtain ⟨_, _, rfl, hb, hd⟩ := h.frame
  simp [Graph.edgeBound, hb, hd]

/-- The representation does not look at records, only at how many there are. -/
theorem Recorded.rep (h : Recorded g g' p f) (hrep : g.Rep rings) : g'.Rep rings := by
  have hbound := h.edgeBound
  obtain ⟨base, delta, rfl, hb, hd⟩ := h.frame
  refine ⟨hrep.threaded, by rw [hd]; exact hrep.next_length, hrep.runs_wf, hrep.axis_wf, ?_, ?_,
    hrep.sorted⟩
  · intro n d e he
    rw [hbound]
    exact hrep.run_lt n d e he
  · intro n d e q he hq
    simp only [hb]
    exact hrep.run_before n d e q he hq

theorem Recorded.counted (h : Recorded g g' p f) (hc : g.Counted) : g'.Counted := by
  have hbound := h.edgeBound
  obtain ⟨base, delta, rfl, hb, hd⟩ := h.frame
  exact ⟨hc.nodes_wf, hc.nodes_len, hc.nodes_count, hc.edges_wf, by rw [hbound]; exact hc.edges_len,
    by rw [hbound]; exact hc.edges_count⟩

theorem Recorded.content (h : Recorded g g' p f) (n : Nat) (d : TraversalDirection) :
    g'.content rings n d = g.content rings n d := by
  obtain ⟨base, delta, rfl, hb, _⟩ := h.frame
  simp only [Graph.content, hb]
  rfl

end Recorded

theorem sweep_edgeFilter (g : Graph N E) (run : List Nat) :
    (sweep run g.edgeFilter).filter g.liveEdges.isLive = run.filter g.liveEdges.isLive ∧
      ∀ e ∈ sweep run g.edgeFilter, e ∈ run := by
  unfold Graph.sweep
  split
  · next live hlive =>
    have hset : live = g.liveEdges := by
      unfold Graph.edgeFilter at hlive
      split at hlive
      · exact (Option.some.inj hlive).symm
      · cases hlive
    subst hset
    split
    · refine ⟨by rw [filter_filter]; simp, fun e he => (mem_filter.mp he).1⟩
    · exact ⟨rfl, fun e he => he⟩
  · exact ⟨rfl, fun e he => he⟩

/-- The second half of every relocation: the moved edges follow those `n` had. -/
theorem Rep.appendRun {g : Graph N E} {rings : Nat → TraversalDirection → List Nat}
    (h : g.Rep rings) (hc : g.Counted) {n : Nat} (hn : n < g.nodeBound) (d : TraversalDirection)
    (moved : List Nat) (hmoved : ∀ e ∈ moved, e < g.edgeBound) :
    ∃ run g', g.withRun n d (fun run live => (sweep run live ++ moved, ())) = some (g', ()) ∧
      run.filter g.liveEdges.isLive =
        (g.content rings n d).filter g.liveEdges.isLive ++ moved.filter g.liveEdges.isLive ∧
      Edited g g' rings (DeltaChains.detachRings rings n d) n d run := by
  obtain ⟨run, g', hwith, hlive, _, hedited⟩ := h.withRun hc hn d
    (fun run live => (sweep run live ++ moved, ()))
    (fun run hrun e he => by
      rcases mem_append.mp he with he | he
      · exact hrun e ((sweep_edgeFilter g run).2 e he)
      · exact hmoved e he)
  refine ⟨_, g', hwith, ?_, hedited⟩
  rw [filter_append, (sweep_edgeFilter g run).1, hlive]

end Graph

namespace Refines

variable {g : Graph N E} {m : Naive N E} {rings : Nat → TraversalDirection → List Nat}

theorem filter_erase_of_pos {p : Nat → Bool} {e : Nat} (he : p e = true) (l : List Nat) :
    (l.erase e).filter p = (l.filter p).erase e := by
  induction l with
  | nil => rfl
  | cons a l ih =>
    by_cases ha : a = e
    · subst ha
      rw [erase_cons_head, filter_cons_of_pos he, erase_cons_head]
    · have hbeq : ¬ (a == e) = true := by simpa using ha
      rw [erase_cons_tail hbeq]
      by_cases hp : p a
      · rw [filter_cons_of_pos hp, filter_cons_of_pos hp, erase_cons_tail hbeq, ih]
      · rw [filter_cons_of_neg hp, filter_cons_of_neg hp, ih]

/-- What is left to show once a relocation has touched records, chains and runs only. -/
theorem relocated (h : Refines g m rings) {g' : Graph N E} {m' : Naive N E}
    {rings' : Nat → TraversalDirection → List Nat} (hframe : ∃ base delta chains relocations,
      g' = { g with
        baseEdges := base, deltaEdges := delta, chains := chains, relocations := relocations } ∧
      base.length = g.baseEdges.length ∧ delta.length = g.deltaEdges.length)
    (hrep : g'.Rep rings') (hnodes : m'.nodes = m.nodes) (hedges : m'.edges.length = m.edges.length)
    (hedge : ∀ i, m'.edge i = if g.liveEdges.isLive i then g'.edge i else none)
    (hlists : ∀ d n, m'.lists d n = (g'.content rings' n d).filter g.liveEdges.isLive)
    (hwf : m'.WF) : Refines g' m' rings' := by
  obtain ⟨base, delta, chains, relocations, rfl, hb, hd⟩ := hframe
  have hbound : base.length + delta.length = g.edgeBound := by rw [hb, hd]; rfl
  refine ⟨hrep, ?_, ?_, ?_, ?_, hedge, hlists, hwf⟩
  · have hc := h.counted
    refine ⟨hc.nodes_wf, hc.nodes_len, hc.nodes_count, hc.edges_wf, ?_, ?_⟩
    · change _ = base.length + delta.length
      rw [hbound]
      exact hc.edges_len
    · change _ = rank _ (base.length + delta.length)
      rw [hbound]
      exact hc.edges_count
  · rw [hnodes]; exact h.nodes_length
  · rw [hedges, h.edges_length]; exact hbound.symm
  · intro i
    rw [Naive.node, hnodes]
    exact h.node i

theorem redirect (h : Refines g m rings) {e endpoint : Nat} {d : TraversalDirection}
    {m' : Naive N E} (happ : m.redirect e endpoint d = some m') :
    ∃ g' previous, g.redirect e endpoint d = some (g', previous) ∧
      ∃ rings', Refines g' m' rings' := by
  have hwf := h.wf.redirect happ
  obtain ⟨record, hrecord, hlive, hcase⟩ := Naive.redirect_spec happ
  have he : g.liveEdges.isLive e = true := by rw [← h.edge_isSome, hrecord]; rfl
  have hget : g.edge e = some record := by
    have := h.edge e
    rw [he, hrecord] at this
    exact this.symm
  have hassert := h.assertLiveEndpoint hlive
  have hcontains : g.containsEdge e = true := by
    rw [Graph.containsEdge, h.counted.edgeIsLive, he]
  rcases hcase with ⟨hsame, rfl⟩ | ⟨hne, hnodes, hedges, hedge, hlists⟩
  · exact ⟨g, record.endpoint d, by simp [Graph.redirect, hcontains, hassert, hget, hsame],
      rings, h⟩
  set previous := record.endpoint d with hprevious
  have hprev_live : (m.node previous).isSome := h.wf.live d e record hrecord
  have hprev_lt : previous < g.nodeBound := h.counted.node_lt (by rwa [h.node_isSome] at hprev_live)
  have hend_lt : endpoint < g.nodeBound := h.counted.node_lt (by rwa [h.node_isSome] at hlive)
  -- the record, then the run the edge leaves, then the run it joins
  have hrec := g.recorded_edgeMut e (·.setEndpoint d endpoint)
  set g₁ := g.edgeMut e (·.setEndpoint d endpoint) with hg₁
  obtain ⟨base, delta, hframe₁, hb, hdl⟩ := hrec.frame
  have hc₁ := hrec.counted h.counted
  have hlive₁ : g₁.liveEdges = g.liveEdges := by rw [hframe₁]
  have hbound₁ : g₁.nodeBound = g.nodeBound := by rw [hframe₁]; rfl
  obtain ⟨run, g₂, hwith₂, hrun, _, hed₂⟩ :=
    (hrec.rep h.rep).withRun hc₁ (by rw [hbound₁]; exact hprev_lt) d
      (fun run live => ((Graph.sweep run live).erase e, ()))
      (fun run hrun x hx => hrun x ((Graph.sweep_edgeFilter g₁ run).2 x (mem_of_mem_erase hx)))
  obtain ⟨_, _, hframe₂⟩ := hed₂.frame
  have hlive₂ : g₂.liveEdges = g.liveEdges := by rw [hframe₂]; exact hlive₁
  have hbound₂ : g₂.nodeBound = g.nodeBound := by rw [hframe₂]; exact hbound₁
  have hedges₂ : g₂.edgeBound = g.edgeBound := by rw [hframe₂]; exact hrec.edgeBound
  obtain ⟨run₃, g₃, hwith₃, hrun₃, hed₃⟩ :=
    hed₂.rep.appendRun (hed₂.counted hc₁) (by rw [hbound₂]; exact hend_lt) d [e]
      (by simpa [hedges₂] using h.counted.edge_lt he)
  obtain ⟨_, _, hframe₃⟩ := hed₃.frame
  refine ⟨g₃, previous, ?_, DeltaChains.detachRings (DeltaChains.detachRings rings previous d)
    endpoint d, ?_⟩
  · simp [Graph.redirect, hcontains, hassert, hget, ← hprevious, hne, ← hg₁, hwith₂, hwith₃]
  refine h.relocated ?_ hed₃.rep hnodes (by rw [hedges, length_set]) ?_ ?_ hwf
  · rw [hframe₂, hframe₁] at hframe₃
    exact ⟨_, _, _, _, hframe₃, hb, hdl⟩
  · intro i
    have hedge₃ : g₃.edge i = g₁.edge i := by rw [hframe₃, hframe₂]; rfl
    rw [hedge, hedge₃, hrec.edge]
    by_cases hi : i = e
    · subst hi; simp [he, hget]
    · rw [if_neg hi, if_neg hi, h.edge]
  · intro d' n'
    rw [hed₃.content, hlists]
    by_cases hcn : n' = endpoint ∧ d' = d
    · obtain ⟨rfl, rfl⟩ := hcn
      rw [hlive₂] at hrun₃
      rw [if_pos ⟨rfl, rfl⟩, if_pos ⟨rfl, rfl⟩, hrun₃, hed₂.content,
        if_neg (fun hc => hne hc.1.symm), hrec.content, h.lists]
      simp [he]
    · rw [if_neg hcn, if_neg (fun hc => hcn ⟨hc.2, hc.1⟩), hed₂.content]
      by_cases hcp : n' = previous ∧ d' = d
      · have hsweep := (Graph.sweep_edgeFilter g₁ run).1
        rw [hlive₁] at hsweep hrun
        rw [if_pos hcp, if_pos ⟨hcp.2, hcp.1⟩, filter_erase_of_pos he, hsweep, hrun,
          hrec.content, h.lists, hcp.1, hcp.2]
      · rw [if_neg hcp, if_neg (fun hc => hcp ⟨hc.2, hc.1⟩), hrec.content, h.lists]

theorem moveAdjacency (h : Refines g m rings) {old new : Nat} {d : TraversalDirection}
    {m' : Naive N E} (happ : m.moveAdjacency old new d = some m') :
    ∃ g', g.moveAdjacency old new d = some g' ∧ ∃ rings', Refines g' m' rings' := by
  have hwf := h.wf.moveAdjacency happ
  obtain ⟨hne, hold_lt, hcase⟩ := Naive.moveAdjacency_spec happ
  rw [h.nodes_length] at hold_lt
  obtain ⟨walk, hadj, _, hnext⟩ := h.adjacent hold_lt d
  rcases hcase with ⟨hnil, rfl⟩ | ⟨hnil, hlive, hnodes, hedges, hedge, hlists⟩
  · exact ⟨g, by simp [Graph.moveAdjacency, hne, hadj, hnext.mpr hnil], rings, h⟩
  have hsome : ¬ walk.next.1 = none := fun hc => hnil (hnext.mp hc)
  have hassert := h.assertLiveEndpoint hlive
  have hnew_lt : new < g.nodeBound := h.counted.node_lt (by rwa [h.node_isSome] at hlive)
  -- the run taken out, then the records, then the run joined
  obtain ⟨run, g₁, hwith₁, hrun, hrun_lt, hed₁⟩ :=
    h.rep.withRun h.counted hold_lt d
      (fun run live => (([] : List Nat), Graph.retainLive run live))
      (fun run _ e he => by simp at he)
  rw [h.counted.retainLive hrun_lt, hrun, ← h.lists] at hwith₁
  set moved := m.lists d old with hmoved
  have hrec := g₁.recorded_foldl_edgeMut (·.setEndpoint d new)
    (fun r => Naive.setEndpoint_idem r d new) moved
  set g₂ := moved.foldl (fun g e => g.edgeMut e (·.setEndpoint d new)) g₁ with hg₂
  obtain ⟨_, _, hframe₁⟩ := hed₁.frame
  obtain ⟨base, delta, hframe₂, hb, hdl⟩ := hrec.frame
  have hlive₂ : g₂.liveEdges = g.liveEdges := by rw [hframe₂, hframe₁]
  have hbound₂ : g₂.nodeBound = g.nodeBound := by rw [hframe₂, hframe₁]; rfl
  have hedges₂ : g₂.edgeBound = g.edgeBound := by rw [hrec.edgeBound, hframe₁]; rfl
  have hmoved_live : ∀ e ∈ moved, g.liveEdges.isLive e = true := by
    intro e he
    rw [hmoved, h.lists] at he
    exact (mem_filter.mp he).2
  obtain ⟨run₃, g₃, hwith₃, hrun₃, hed₃⟩ :=
    (hrec.rep hed₁.rep).appendRun (hrec.counted (hed₁.counted h.counted))
      (by rw [hbound₂]; exact hnew_lt) d moved
      (fun e he => by rw [hedges₂]; exact h.counted.edge_lt (hmoved_live e he))
  obtain ⟨_, _, hframe₃⟩ := hed₃.frame
  refine ⟨g₃, ?_, DeltaChains.detachRings (DeltaChains.detachRings rings old d) new d, ?_⟩
  · simp [Graph.moveAdjacency, hne, hadj, hsome, hassert, hwith₁, ← hg₂, hwith₃]
  refine h.relocated ?_ hed₃.rep hnodes hedges ?_ ?_ hwf
  · rw [hframe₂, hframe₁] at hframe₃
    rw [hframe₁] at hb hdl
    exact ⟨_, _, _, _, hframe₃, hb, hdl⟩
  · intro i
    have hedge₁ : g₁.edge i = g.edge i := by rw [hframe₁]; rfl
    have hedge₃ : g₃.edge i = g₂.edge i := by rw [hframe₃]; rfl
    rw [hedge, hedge₃, hrec.edge, hedge₁, h.edge]
    by_cases hi : i ∈ moved
    · simp [hi, hmoved_live i hi]
    · simp [hi]
  · intro d' n'
    rw [hed₃.content, hlists]
    by_cases hcn : n' = new ∧ d' = d
    · obtain ⟨rfl, rfl⟩ := hcn
      rw [hlive₂] at hrun₃
      rw [if_pos ⟨rfl, rfl⟩, if_pos ⟨rfl, rfl⟩, hrun₃, hrec.content, hed₁.content,
        if_neg (fun hc => hne hc.1.symm), h.lists, filter_eq_self.mpr hmoved_live]
    · rw [if_neg hcn, if_neg (fun hc => hcn ⟨hc.2, hc.1⟩), hrec.content, hed₁.content]
      by_cases hco : n' = old ∧ d' = d
      · rw [if_pos hco, if_pos ⟨hco.2, hco.1⟩]
        rfl
      · rw [if_neg hco, if_neg (fun hc => hco ⟨hc.2, hc.1⟩), h.lists]

end Refines

end CfgLib.Store

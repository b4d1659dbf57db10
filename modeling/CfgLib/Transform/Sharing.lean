import CfgLib.Transform.Interference

/-!
# Register sharing

The interference graph keeps apart what interferes, so the colours of any proper colouring
hold the values of the variables that are live, on every path.
-/

namespace CfgLib.Transform

open CfgLib.Lib CfgLib.Dataflow CfgLib.Store List

variable {ι ν π : Type} [LinearOrder ν]

/-! ## The graph of the relation -/

section Graph

variable {adjacency : FiniteMap ν (Finset ν)} {graph : Naive ν Unit} {v w : ν}

structure Numbered (done : List ν) (state : Naive ν Unit × FiniteMap ν Nat) : Prop where
  wf : state.1.WF
  nodes : state.1.nodes = done.map some
  edges : state.1.edges = []
  get : ∀ v k, state.2.get v = some k → done[k]? = some v
  total : ∀ v ∈ done, (state.2.get v).isSome

omit [LinearOrder ν] in
theorem numbered_empty : Numbered [] ((.empty, .empty) : Naive ν Unit × FiniteMap ν Nat) :=
  ⟨Naive.wf_empty, rfl, rfl, fun _ _ h => (by cases h), fun _ h => absurd h not_mem_nil⟩

theorem Numbered.addVariable {done : List ν} {state state' : Naive ν Unit × FiniteMap ν Nat}
    (h : Numbered done state) (hs : Transform.addVariable state v = some state') : Numbered (done ++ [v]) state' := by
  obtain ⟨graph, hadd, rfl⟩ := Option.map_eq_some_iff.mp hs
  obtain ⟨hnodes, hedges, _, _⟩ := Naive.addNode_spec hadd
  have hlength : state.1.nodes.length = done.length := by rw [h.nodes, length_map]
  refine ⟨h.wf.addNode hadd, ?_, hedges.trans h.edges, fun u k hk => ?_, fun u hu => ?_⟩
  · rw [hnodes, h.nodes, map_append, map_singleton]
  · rw [FiniteMap.get_insert] at hk
    split at hk
    · next hu =>
      cases hk
      rw [hlength, getElem?_concat_length, hu]
    · have hold := h.get u k hk
      rw [getElem?_append_left (List.getElem?_eq_some_iff.mp hold).1]
      exact hold
  · rw [FiniteMap.get_insert]
    split
    · rfl
    · next hne => exact h.total u ((mem_append.mp hu).resolve_right fun h => hne (mem_singleton.mp h))

omit [LinearOrder ν] in
theorem Numbered.node {done : List ν} {state : Naive ν Unit × FiniteMap ν Nat} (h : Numbered done state)
    {graph : Naive ν Unit} (hnodes : graph.nodes = state.1.nodes) (n : Nat) : graph.node n = done[n]? := by
  rw [Naive.node, hnodes, h.nodes, getElem?_map]
  cases done[n]? <;> rfl

def HasRelation (v w : ν) (graph : Naive ν Unit) : Prop :=
  ∃ e r, graph.edge e = some r ∧ graph.node r.source = some v ∧ graph.node r.target = some w

structure Realizes (graph : Naive ν Unit) (adjacency : FiniteMap ν (Finset ν)) : Prop where
  wf : graph.WF
  node : ∀ n, graph.node n = adjacency.keys.sort[n]?
  relation : ∀ v w, v < w → w ∈ (adjacency.get v).getD ∅ → HasRelation v w graph

omit [LinearOrder ν] in
theorem mem_keys_of_related (h : w ∈ (adjacency.get v).getD ∅) : v ∈ adjacency.keys := by
  rw [adjacency.mem_keys]
  cases hget : adjacency.get v with
  | none =>
    rw [hget] at h
    cases h
  | some _ => rfl

theorem mem_relations {pair : ν × ν} :
    pair ∈ relations adjacency ↔ pair.2 ∈ (adjacency.get pair.1).getD ∅ ∧ pair.1 < pair.2 := by
  obtain ⟨v, w⟩ := pair
  simp only [relations, mem_flatMap, mem_map, mem_filter, Finset.mem_sort, decide_eq_true_eq,
    Prod.mk.injEq]
  constructor
  · rintro ⟨_, _, _, ⟨hmem, hlt⟩, rfl, rfl⟩
    exact ⟨hmem, hlt⟩
  · rintro ⟨hmem, hlt⟩
    exact ⟨v, mem_keys_of_related hmem, w, ⟨hmem, hlt⟩, rfl, rfl⟩

omit [LinearOrder ν] in
theorem addRelation_spec {nodes : FiniteMap ν Nat} {graph' : Naive ν Unit} {pair : ν × ν}
    (h : addRelation nodes graph pair = some graph') : ∃ left right, nodes.get pair.1 = some left ∧
      nodes.get pair.2 = some right ∧ graph.addEdge left right () = some graph' := by
  obtain ⟨left, hleft, h⟩ := Option.bind_eq_some_iff.mp h
  obtain ⟨right, hright, h⟩ := Option.bind_eq_some_iff.mp h
  exact ⟨left, right, hleft, hright, h⟩

theorem realizes_interferenceGraph {I : InstrInfo ι ν} {c : Cfg ι π} {live : Facts (Finset ν)}
    (h : interferenceGraph I c live = some graph) : Realizes graph (interferences I c live) := by
  obtain ⟨⟨bare, nodes⟩, hbare, h⟩ := Option.bind_eq_some_iff.mp h
  have hnumbered := foldlM_option (I := Numbered) (fun _ _ _ _ h hs => h.addVariable hs) numbered_empty hbare
  have hstep : ∀ graph pair graph', graph.WF ∧ graph.nodes = bare.nodes → addRelation nodes graph pair = some graph' →
      graph'.WF ∧ graph'.nodes = bare.nodes := by
    rintro graph pair graph' ⟨hwf, hnodes⟩ hs
    obtain ⟨_, _, _, _, hadd⟩ := addRelation_spec hs
    exact ⟨hwf.addEdge hadd, (Naive.addEdge_spec hadd).2.2.1.trans hnodes⟩
  obtain ⟨hwf, hnodes⟩ := foldlM_option (I := fun _ (graph : Naive ν Unit) => graph.WF ∧ graph.nodes = bare.nodes)
    (fun _ pair graph graph' => hstep graph pair graph') ⟨hnumbered.wf, rfl⟩ h
  refine ⟨hwf, hnumbered.node hnodes, fun v w hlt hmem => ?_⟩
  have hpair := mem_relations.mpr (⟨hmem, hlt⟩ : (v, w).2 ∈ _ ∧ (v, w).1 < (v, w).2)
  refine foldlM_option_makes (I := fun graph : Naive ν Unit => graph.WF ∧ graph.nodes = bare.nodes)
    (P := HasRelation v w) (fun graph pair graph' hgraph hs => ⟨hstep graph pair graph' hgraph hs, ?_⟩)
    (fun graph graph' hgraph hs => ?_) hpair ⟨hnumbered.wf, rfl⟩ h
  · rintro ⟨e, r, hr, hv, hw⟩
    obtain ⟨_, _, _, _, hadd⟩ := addRelation_spec hs
    obtain ⟨_, _, hnodes, _, hedge, _⟩ := Naive.addEdge_spec hadd
    refine ⟨e, r, ?_, ?_, ?_⟩
    · rw [hedge, if_neg (Nat.ne_of_lt (Naive.edge_lt hr)), hr]
    · rw [Naive.node, hnodes]
      exact hv
    · rw [Naive.node, hnodes]
      exact hw
  · obtain ⟨left, right, hleft, hright, hadd⟩ := addRelation_spec hs
    obtain ⟨_, _, hnodes, _, hedge, _⟩ := Naive.addEdge_spec hadd
    refine ⟨graph.edges.length, ⟨left, right, ()⟩, ?_, ?_, ?_⟩
    · rw [hedge, if_pos rfl]
    · rw [hnumbered.node (hnodes.trans hgraph.2)]
      exact hnumbered.get _ _ hleft
    · rw [hnumbered.node (hnodes.trans hgraph.2)]
      exact hnumbered.get _ _ hright

/-- Whatever a key is related to is a key. -/
def ClosedKeys (adjacency : FiniteMap ν (Finset ν)) : Prop :=
  ∀ v, ∀ w ∈ (adjacency.get v).getD ∅, w ∈ adjacency.keys

theorem ClosedKeys.addTo (h : ClosedKeys adjacency) {key : ν} {values : Finset ν} (hvalues : ∀ w ∈ values, w ∈ adjacency.keys) :
    ClosedKeys (adjacency.addTo key values) := by
  intro v w hw
  rw [mem_keys_addTo]
  rcases (FiniteMap.getD_addTo _ _ _ _ _).mp hw with hw | ⟨_, hw⟩
  · exact Or.inr (h v w hw)
  · exact Or.inr (hvalues w hw)

theorem ClosedKeys.addKey (h : ClosedKeys adjacency) (key : ν) : ClosedKeys (adjacency.addTo key ∅) :=
  h.addTo fun _ hw => absurd hw (Finset.notMem_empty _)

theorem ClosedKeys.connect (h : ClosedKeys adjacency) (left right : ν) : ClosedKeys (Transform.connect adjacency left right) := by
  unfold Transform.connect
  have hkeys : left ∈ ((adjacency.addTo left ∅).addTo right ∅).keys ∧
      right ∈ ((adjacency.addTo left ∅).addTo right ∅).keys := by
    simp [mem_keys_addTo]
  split
  · exact (h.addKey _).addKey _
  · refine (((h.addKey _).addKey _).addTo fun w hw => ?_).addTo fun w hw => ?_
    · rw [Finset.mem_singleton.mp hw]
      exact hkeys.2
    · rw [Finset.mem_singleton.mp hw]
      exact mem_keys_addTo.mpr (Or.inr hkeys.1)

theorem ClosedKeys.connectClique (h : ClosedKeys adjacency) (vars : Finset ν) :
    ClosedKeys (Transform.connectClique adjacency vars) := by
  have hpairs : ∀ (vars : List ν) {adjacency : FiniteMap ν (Finset ν)}, ClosedKeys adjacency →
      ClosedKeys (connectPairs vars adjacency) := by
    intro vars
    induction vars with
    | nil => exact fun h => h
    | cons var rest ih => exact fun h => ih (foldl_keeps (fun _ other h => h.connect var other) rest h)
  exact hpairs _ (foldl_keeps (fun _ var h => h.addKey var) _ h)

theorem closed_interferences (I : InstrInfo ι ν) (c : Cfg ι π) (live : Facts (Finset ν)) :
    ClosedKeys (interferences I c live) := by
  refine foldl_keeps (fun adjacency block h => ?_) _ fun v w hw => ?_
  · refine foldl_keeps (P := fun state : FiniteMap ν (Finset ν) × Finset ν => ClosedKeys state.1)
      (fun state a h => ?_) _ (h.connectClique _)
    refine ClosedKeys.connectClique ?_ _
    exact foldl_keeps (fun _ d h => foldl_keeps (fun _ u h => h.connect d u) _ h) _ (h.connectClique _)
  · exact absurd hw (Finset.notMem_empty _)

theorem isSome_interferenceGraph {I : InstrInfo ι ν} {c : Cfg ι π} {live : Facts (Finset ν)}
    (hnodes : (interferences I c live).keys.card ≤ maxSlots)
    (hedges : (relations (interferences I c live)).length ≤ maxSlots) : (interferenceGraph I c live).isSome := by
  have hnumber : ∃ state, (interferences I c live).keys.sort.foldlM addVariable (.empty, .empty) = some state ∧
      Numbered (interferences I c live).keys.sort state := by
    refine foldlM_option_total (fun done v rest state hl h => ?_) numbered_empty
    have hroom : state.1.nodes.length < maxSlots := by
      have hlength := congrArg List.length hl
      rw [Finset.length_sort, length_append, length_cons] at hlength
      rw [h.nodes, length_map]
      omega
    have hs : addVariable state v = some ({ state.1 with nodes := state.1.nodes ++ [some v] },
        state.2.insert v state.1.nodes.length) := by
      rw [addVariable, Naive.addNode, if_pos hroom]
      rfl
    exact ⟨_, hs, h.addVariable hs⟩
  obtain ⟨⟨bare, nodes⟩, hbare, hnumbered⟩ := hnumber
  have hrelate : ∃ graph, (relations (interferences I c live)).foldlM (addRelation nodes) bare = some graph ∧
      graph.nodes = bare.nodes ∧ graph.edges.length = (relations (interferences I c live)).length := by
    refine foldlM_option_total (I := fun done (graph : Naive ν Unit) => graph.nodes = bare.nodes ∧
      graph.edges.length = done.length) (fun done pair rest graph hl ⟨hsame, hlength⟩ => ?_)
      ⟨rfl, congrArg List.length hnumbered.edges⟩
    obtain ⟨hmem, _⟩ := mem_relations.mp (hl ▸ mem_append_right done mem_cons_self :
      pair ∈ relations (interferences I c live))
    obtain ⟨left, hleft⟩ := Option.isSome_iff_exists.mp (hnumbered.total _ ((Finset.mem_sort _).mpr
      (mem_keys_of_related hmem)))
    obtain ⟨right, hright⟩ := Option.isSome_iff_exists.mp (hnumbered.total _ ((Finset.mem_sort _).mpr
      (closed_interferences I c live _ _ hmem)))
    have hlive : ∀ v k, nodes.get v = some k → (graph.node k).isSome := by
      intro v k hk
      rw [hnumbered.node hsame, hnumbered.get v k hk]
      rfl
    have hroom : graph.edges.length < maxSlots := by
      have hlength' := congrArg List.length hl
      rw [length_append, length_cons] at hlength'
      omega
    obtain ⟨graph', hadd⟩ : ∃ graph', graph.addEdge left right () = some graph' := by
      unfold Naive.addEdge
      rw [if_pos ⟨hlive _ _ hleft, hlive _ _ hright, hroom⟩]
      exact ⟨_, rfl⟩
    obtain ⟨_, _, hnodes', hedges', _⟩ := Naive.addEdge_spec hadd
    refine ⟨graph', ?_, hnodes'.trans hsame, ?_⟩
    · unfold addRelation
      rw [hleft, hright]
      exact hadd
    · rw [hedges', length_append, hlength, length_append]
      rfl
  obtain ⟨graph, hgraph, _⟩ := hrelate
  refine Option.isSome_iff_exists.mpr ⟨graph, ?_⟩
  exact (congrArg (Option.bind · _) hbare).trans hgraph

end Graph

/-! ## Registers -/

section Registers

variable {adjacency : FiniteMap ν (Finset ν)} {graph : Naive ν Unit} {coloring : ColorAssignment} {v w : ν}

theorem Realizes.node_inj (h : Realizes graph adjacency) {n m : Nat} (hn : graph.node n = some v)
    (hm : graph.node m = some v) : n = m := by
  rw [h.node] at hn hm
  obtain ⟨hnlt, hnv⟩ := List.getElem?_eq_some_iff.mp hn
  obtain ⟨hmlt, hmv⟩ := List.getElem?_eq_some_iff.mp hm
  exact ((Finset.sort_nodup _ _).getElem_inj_iff).mp (hnv.trans hmv.symm)

theorem Realizes.nodeOf (h : Realizes graph adjacency) (hv : v ∈ adjacency.keys) :
    ∃ n, Transform.nodeOf graph v = some n ∧ graph.node n = some v := by
  obtain ⟨n, hn⟩ := getElem?_of_mem ((Finset.mem_sort (· ≤ ·)).mpr hv)
  rw [← h.node] at hn
  have hfound : (Transform.nodeOf graph v).isSome := by
    rw [Transform.nodeOf, find?_isSome]
    exact ⟨n, Naive.mem_nodeIds.mpr (by rw [hn]; rfl), decide_eq_true hn⟩
  obtain ⟨m, hm⟩ := Option.isSome_iff_exists.mp hfound
  have hnode := find?_some (p := fun node => decide (graph.node node = some v)) hm
  exact ⟨m, hm, of_decide_eq_true hnode⟩

theorem Realizes.isSome_registerOf (h : Realizes graph adjacency) (hcolors : coloring.Proper graph.view)
    (hv : v ∈ adjacency.keys) : (registerOf graph coloring v).isSome := by
  obtain ⟨n, hfound, hn⟩ := h.nodeOf hv
  rw [registerOf, hfound]
  exact (hcolors.assigned n).mpr (Naive.mem_nodeIds.mpr (by rw [hn]; rfl))

theorem Realizes.registerOf_ne (h : Realizes graph adjacency) (hcolors : coloring.Proper graph.view)
    (hrelated : Connects v w adjacency) (hne : v ≠ w) : registerOf graph coloring v ≠ registerOf graph coloring w := by
  have hlt : ∀ {v w : ν}, Connects v w adjacency → v < w → registerOf graph coloring v ≠ registerOf graph coloring w := by
    intro v w hrelated hlt
    obtain ⟨e, r, hr, hv, hw⟩ := h.relation v w hlt (hrelated.related (ne_of_lt hlt)).1
    obtain ⟨n, hfound, hn⟩ := h.nodeOf hrelated.left_key
    obtain ⟨m, hfound', hm⟩ := h.nodeOf hrelated.right_key
    rw [registerOf, registerOf, hfound, hfound', h.node_inj hn hv, h.node_inj hm hw]
    have hlive : (graph.node r.source).isSome := by rw [hv]; rfl
    refine hcolors.adjacent _ (Naive.mem_nodeIds.mpr hlive) _ ⟨Naive.node_lt hlive, ?_⟩ fun he => ?_
    · exact h.wf.mem_successors.mpr ⟨e, r, hr, rfl, rfl⟩
    · rw [he, hw] at hv
      exact absurd (Option.some.inj hv).symm (ne_of_lt hlt)
  rcases lt_or_gt_of_ne hne with h | h
  · exact hlt hrelated h
  · exact (hlt hrelated.symm h).symm

end Registers

/-! ## Sharing registers -/

section Sharing

variable {I : InstrInfo ι ν} {c : Cfg ι π} {live : Facts (Finset ν)} {graph : Naive ν Unit}
  {coloring : ColorAssignment}

theorem mem_keys_interferences (hc : c.WF) (hlive : FollowsPaths I c (fun _ => []) live) {b : Nat} {a : ι}
    (ha : a ∈ c.instructions b) {v : ν} (hv : v ∈ I.uses a ∨ v ∈ I.defs a) : v ∈ (interferences I c live).keys := by
  obtain ⟨i, ha⟩ := getElem?_of_mem ha
  have hb := Cfg.containsBlock_of_getElem? ha
  have hi := Nat.le_of_lt (List.getElem?_eq_some_iff.mp ha).1
  refine (connects_interferences (v := v) (w := v) hb hi ?_).left_key
  rcases hv with hv | hv
  · have hpoint := (hlive.mem_livePoint hc hb hi v).mpr ((liveFrom_at_iff hc hb ha).mpr (Or.inl hv))
    exact Or.inl ⟨hpoint, hpoint⟩
  · exact Or.inr ⟨a, ha, hv, Or.inl hv⟩

theorem separates_registerOf {δ : Type} (results : ι → List δ → Nat → δ) (hc : c.WF)
    (hlive : FollowsPaths I c (fun _ => []) live) (hgraph : Realizes graph (interferences I c live))
    (hcolors : coloring.Proper graph.view) : (c.dataFlow I).Separates I.mayUnwind (semanticsOf I results)
      (LiveFrom I c fun _ => []) (registerOf graph coloring) where
  read b i l a v hcode ha hv := by
    obtain ⟨hb, rfl⟩ := Cfg.instructions_of_code hcode
    exact (liveFrom_at_iff hc hb ha).mpr (Or.inl hv)
  pass b i l a v hcode ha hv h := by
    obtain ⟨hb, rfl⟩ := Cfg.instructions_of_code hcode
    exact (liveFrom_at_iff hc hb ha).mpr (Or.inr (Or.inl ⟨hv, h⟩))
  leave b l t v hcode hn h := Flow.LeadsPast.head (Flow.stepPast_leave hcode hn) h
  raise b i l a t v hcode ha hthrow hu h := Flow.LeadsPast.head (Flow.stepPast_raise hcode ha hthrow hu) h
  apart b i l a d v hcode ha hd hv hne := by
    obtain ⟨hb, rfl⟩ := Cfg.instructions_of_code hcode
    have hi := (List.getElem?_eq_some_iff.mp ha).1
    refine hgraph.registerOf_ne hcolors (connects_interferences hb (Nat.le_of_lt hi) ?_) hne
    refine Or.inr ⟨a, ha, hd, hv.imp_right fun hv => ?_⟩
    exact (hlive.mem_livePoint hc hb hi v).mpr hv

/-- Colours are proper on every graph.  The code that keeps each variable in the colour of
its node reads what the code with a cell for each variable reads, on every path from the
entry, from any store that holds the variables live there. -/
theorem registerSharing_sound (hc : c.WF) : (∀ g : GraphView, g.Lawful → (colorGraph g).Proper g) ∧
    ∃ live : Facts (Finset ν), (∃ N, ∀ fuel, N ≤ fuel → Liveness.compute I c fuel = some live) ∧
      ((interferences I c live).keys.card ≤ maxSlots → (relations (interferences I c live)).length ≤ maxSlots →
        (interferenceGraph I c live).isSome) ∧ ∀ graph, interferenceGraph I c live = some graph →
        (∀ b, ∀ a ∈ c.instructions b, ∀ v, v ∈ I.uses a ∨ v ∈ I.defs a →
          (registerOf graph (colorGraph graph.view) v).isSome) ∧
        (∀ v ∈ live.input c.entry, ∀ w ∈ live.input c.entry, v ≠ w →
          registerOf graph (colorGraph graph.view) v ≠ registerOf graph (colorGraph graph.view) w) ∧
        ∀ (δ : Type) (results : ι → List δ → Nat → δ) (env : ν → δ) (regs : Option Nat → δ),
          (∀ v ∈ live.input c.entry, regs (registerOf graph (colorGraph graph.view) v) = env v) →
          ∀ (performed : List ι) (b i : Nat) (a : ι),
            Run (Flow.Step (c.dataFlow I) I.mayUnwind) (c.entry, 0) performed (b, i) →
            (c.instructions b)[i]? = some a → ∀ v ∈ I.uses a,
              performed.foldl ((semanticsOf I results).perform (registerOf graph (colorGraph graph.view))) regs
                  (registerOf graph (colorGraph graph.view) v) =
                performed.foldl ((semanticsOf I results).perform id) env v := by
  obtain ⟨live, hreturns, hlive⟩ := Liveness.computeWithExits_spec (I := I) hc fun _ => []
  refine ⟨fun g => colorGraph_proper, live, hreturns, isSome_interferenceGraph, fun graph hgraph => ?_⟩
  have hrealizes := realizes_interferenceGraph hgraph
  have hcolors := colorGraph_proper hrealizes.wf.lawful_view
  have hentry : c.containsBlock c.entry := hc.entry
  refine ⟨fun b a ha v hv => ?_, fun v hv w hw hne => ?_, fun δ results env regs hregs performed b i a hrun ha => ?_⟩
  · exact hrealizes.isSome_registerOf hcolors (mem_keys_interferences hc hlive ha hv)
  · refine hrealizes.registerOf_ne hcolors (connects_interferences hentry (Nat.zero_le _) (Or.inl ⟨?_, ?_⟩)) hne
    · exact (hlive.mem_livePoint hc hentry (Nat.zero_le _) v).mpr ((hlive.mem_input _ v).mp hv)
    · exact (hlive.mem_livePoint hc hentry (Nat.zero_le _) w).mpr ((hlive.mem_input _ w).mp hw)
  · have hcode := Cfg.exists_code (I := I) (Cfg.containsBlock_of_getElem? ha)
    exact (separates_registerOf results hc hlive hrealizes hcolors).reads_agree hrun hcode ha fun v hv =>
      hregs v ((hlive.mem_input _ v).mpr hv)

end Sharing

/-- A handler that reads a variable which nothing on the normal path does. -/
def handlerRead : Cfg (List Nat × List Nat × Bool) Unit :=
  Cfg.ofParts [[([], [0], false), ([], [1], false), ([1], [], true)], [], [([0], [], false)]]
    [(0, 1, .fallthrough, ()), (0, 2, .exceptionUnwind, ())]

theorem registerSharing_sound_handlerRead : (∀ g : GraphView, g.Lawful → (colorGraph g).Proper g) ∧
    ∃ live : Facts (Finset Nat), (∃ N, ∀ fuel, N ≤ fuel → Liveness.compute plainInfo handlerRead fuel = some live) ∧
      ∀ graph, interferenceGraph plainInfo handlerRead live = some graph →
        (registerOf graph (colorGraph graph.view) 0).isSome := by
  obtain ⟨hcolors, live, hreturns, _, hshared⟩ := registerSharing_sound (I := plainInfo) (c := handlerRead)
    (Cfg.wf_ofParts rfl)
  refine ⟨hcolors, live, hreturns, fun graph hgraph => ?_⟩
  exact (hshared graph hgraph).1 0 ([], [0], false) (by decide) 0 (Or.inr mem_cons_self)

end CfgLib.Transform

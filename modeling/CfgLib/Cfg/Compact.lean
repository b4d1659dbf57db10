import CfgLib.Cfg.Mutation
import CfgLib.Lib.MapM
import CfgLib.Store.Renumbering

/-!
# Compaction of a control-flow graph

`cfg/compact.rs`: the graph after a compaction is the graph before it under the
reported renumbering (`Compacted`): blocks, edges, both adjacency orders, the entry
and the exception metadata correspond, and a second compaction changes nothing.
-/

namespace CfgLib

open CfgLib.Lib CfgLib.Store List

/-! ## What corresponds under a renumbering -/

/-- The members of a set that survive, renumbered. -/
def Image (ρ : Renumbering) (blocks blocks' : Finset Nat) : Prop :=
  ∀ b', b' ∈ blocks' ↔ ∃ b ∈ blocks, ρ.node b = some b'

inductive BodyBy (ρ : Renumbering) : HandlerBody → HandlerBody → Prop
  | unknown : BodyBy ρ .unknown .unknown
  | known {blocks blocks' : Finset Nat} : Image ρ blocks blocks' → BodyBy ρ (.known blocks) (.known blocks')

inductive KindBy (ρ : Renumbering) : HandlerKind → HandlerKind → Prop
  | catch : KindBy ρ .catch .catch
  | catchAll : KindBy ρ .catchAll .catchAll
  | finally : KindBy ρ .finally .finally
  | fault : KindBy ρ .fault .fault
  | filter {b b' : Nat} : ρ.node b = some b' → KindBy ρ (.filter b) (.filter b')

structure HandlerBy (ρ : Renumbering) (handler handler' : Handler) : Prop where
  entry : ρ.node handler.entry = some handler'.entry
  body : BodyBy ρ handler.body handler'.body
  kind : KindBy ρ handler.kind handler'.kind

structure RegionBy (ρ : Renumbering) (region region' : Region) : Prop where
  id : region'.id = region.id
  parent : region'.parent = region.parent
  protectedBlocks : Image ρ region.protectedBlocks region'.protectedBlocks
  handlers : List.Forall₂ (HandlerBy ρ) region.handlers region'.handlers

structure ContinuationBy (ρ : Renumbering) (continuation continuation' : Continuation) : Prop where
  reason : continuation'.reason = continuation.reason
  resume : ρ.node continuation.resume = some continuation'.resume

structure CleanupBy (ρ : Renumbering) (cleanup cleanup' : Cleanup) : Prop where
  handler : cleanup'.handler = cleanup.handler
  resumeFrom : cleanup.resumeFrom.map ρ.node = cleanup'.resumeFrom.map some
  continuations : List.Forall₂ (ContinuationBy ρ) cleanup.continuations cleanup'.continuations

variable {ι π : Type} {c c' : Cfg ι π}

/-- `c'` is `c` with its live identities renumbered from zero, in order. -/
structure Compacted (c : Cfg ι π) (ρ : Renumbering) (c' : Cfg ι π) : Prop where
  node_live : ∀ b, (ρ.node b).isSome ↔ c.containsBlock b
  edge_live : ∀ e, (ρ.edge e).isSome ↔ c.containsEdge e
  node_lt : ∀ a b a' b', ρ.node a = some a' → ρ.node b = some b' → a < b → a' < b'
  edge_lt : ∀ a b a' b', ρ.edge a = some a' → ρ.edge b = some b' → a < b → a' < b'
  node_dense : ∀ b', c'.containsBlock b' ↔ b' < c'.blockBound
  edge_dense : ∀ e', c'.containsEdge e' ↔ e' < c'.edgeBound
  node_onto : ∀ b' < c'.blockBound, ∃ b, ρ.node b = some b'
  edge_onto : ∀ e' < c'.edgeBound, ∃ e, ρ.edge e = some e'
  block : ∀ b b', ρ.node b = some b' → c'.block b' = c.block b
  edge : ∀ e e', ρ.edge e = some e' → ∃ record source target, c.edge e = some record ∧
    ρ.node record.source = some source ∧ ρ.node record.target = some target ∧
    c'.edge e' = some { record with source := source, target := target }
  lists : ∀ b b' d, ρ.node b = some b' → (c.graph.lists d b).map ρ.edge = (c'.graph.lists d b').map some
  entry : ρ.node c.entry = some c'.entry
  regions : List.Forall₂ (RegionBy ρ) c.regions c'.regions
  cleanups : List.Forall₂ (CleanupBy ρ) c.cleanups c'.cleanups

structure ReferencesLive (c : Cfg ι π) : Prop where
  handlers : ∀ region ∈ c.regions, ∀ handler ∈ region.handlers, c.containsBlock handler.entry ∧
    ∀ b, handler.kind = .filter b → c.containsBlock b
  cleanups : ∀ cleanup ∈ c.cleanups, (∀ b, cleanup.resumeFrom = some b → c.containsBlock b) ∧
    ∀ continuation ∈ cleanup.continuations, c.containsBlock continuation.resume

variable {ρ : Renumbering}

theorem Compacted.lt_of_node (h : Compacted c ρ c') {b b' : Nat} (hb : ρ.node b = some b') :
    b' < c'.blockBound := by
  rw [← h.node_dense, Cfg.containsBlock, h.block b b' hb]
  exact (h.node_live b).mp (by rw [hb]; rfl)

theorem Image.lt (h : Compacted c ρ c') {blocks blocks' : Finset Nat}
    (himage : Image ρ blocks blocks') : ∀ b' ∈ blocks', b' < c'.blockBound := by
  intro b' hb'
  obtain ⟨b, _, hb⟩ := (himage b').mp hb'
  exact h.lt_of_node hb

namespace Cfg

/-! ## The renumbering -/

theorem renumbering_node_eq_some {b b' : Nat} :
    c.renumbering.node b = some b' ↔ c.containsBlock b ∧ rank (Naive.occupied c.graph.nodes) b = b' := by
  simp only [renumbering]
  split <;> simp_all

theorem renumbering_edge_eq_some {e e' : Nat} :
    c.renumbering.edge e = some e' ↔ c.containsEdge e ∧ rank (Naive.occupied c.graph.edges) e = e' := by
  simp only [renumbering]
  split <;> simp_all

theorem isSome_renumbering_node (b : Nat) : (c.renumbering.node b).isSome ↔ c.containsBlock b := by
  simp only [renumbering]
  split <;> simp_all

theorem isSome_renumbering_edge (e : Nat) : (c.renumbering.edge e).isSome ↔ c.containsEdge e := by
  simp only [renumbering]
  split <;> simp_all

theorem image_retainSurviving (blocks : Finset Nat) :
    Image c.renumbering blocks (retainSurviving c.renumbering c.blockBound blocks) := by
  intro b'
  simp only [retainSurviving, mem_toFinset, mem_filterMap, mem_filter, mem_range,
    decide_eq_true_eq]
  constructor
  · rintro ⟨b, ⟨_, hb⟩, hb'⟩
    exact ⟨b, hb, hb'⟩
  · rintro ⟨b, hb, hb'⟩
    exact ⟨b, ⟨block_lt (renumbering_node_eq_some.mp hb').1, hb⟩, hb'⟩

def retainBody (ρ : Renumbering) (bound : Nat) : HandlerBody → HandlerBody
  | .unknown => .unknown
  | .known blocks => .known (retainSurviving ρ bound blocks)

theorem bodyBy_retainBody (body : HandlerBody) :
    BodyBy c.renumbering body (retainBody c.renumbering c.blockBound body) := by
  cases body with
  | unknown => exact .unknown
  | known blocks => exact .known (image_retainSurviving blocks)

variable {cleanup : Cleanup} {handler : Handler} {region : Region} {ρ ρ' : Renumbering}

theorem renumberHandler_spec (hentry : c.containsBlock handler.entry)
    (hfilter : ∀ b, handler.kind = .filter b → c.containsBlock b) : ∃ handler',
      renumberHandler c.renumbering c.blockBound handler = some handler' ∧ HandlerBy c.renumbering handler handler' := by
  obtain ⟨entry, body, kind⟩ := handler
  obtain ⟨entry', hentry'⟩ := Option.isSome_iff_exists.mp ((isSome_renumbering_node entry).mpr hentry)
  have hbody := bodyBy_retainBody (c := c) body
  have hrun : ∀ kind kind', KindBy c.renumbering kind kind' →
      renumberHandler c.renumbering c.blockBound ⟨entry, body, kind⟩ =
        some ⟨entry', retainBody c.renumbering c.blockBound body, kind'⟩ := by
    intro kind kind' hkind
    unfold renumberHandler
    rw [hentry']
    obtain _ | _ | _ | _ | hb := hkind
    iterate 4 rfl
    simp only [hb]
    rfl
  obtain ⟨kind', hkind⟩ : ∃ kind', KindBy c.renumbering kind kind' := by
    match kind, hfilter with
    | .catch, _ => exact ⟨_, .catch⟩
    | .catchAll, _ => exact ⟨_, .catchAll⟩
    | .finally, _ => exact ⟨_, .finally⟩
    | .fault, _ => exact ⟨_, .fault⟩
    | .filter b, hfilter =>
      obtain ⟨b', hb'⟩ := Option.isSome_iff_exists.mp ((isSome_renumbering_node b).mpr (hfilter b rfl))
      exact ⟨_, .filter hb'⟩
  exact ⟨_, hrun kind kind' hkind, hentry', hbody, hkind⟩

theorem renumberRegion_spec (h : ∀ handler ∈ region.handlers, c.containsBlock handler.entry ∧
    ∀ b, handler.kind = .filter b → c.containsBlock b) : ∃ region',
      renumberRegion c.renumbering c.blockBound region = some region' ∧ RegionBy c.renumbering region region' := by
  obtain ⟨handlers, hrun, hall⟩ := mapM_forall₂ (R := HandlerBy c.renumbering)
    fun handler hmem => renumberHandler_spec (h handler hmem).1 (h handler hmem).2
  refine ⟨{ region with
    protectedBlocks := retainSurviving c.renumbering c.blockBound region.protectedBlocks
    handlers := handlers }, ?_, rfl, rfl, image_retainSurviving _, hall⟩
  simp only [renumberRegion, hrun, Option.bind_eq_bind, Option.bind_some]
  rfl

theorem renumberCleanup_spec (hresume : ∀ b, cleanup.resumeFrom = some b → c.containsBlock b)
    (hcontinue : ∀ continuation ∈ cleanup.continuations, c.containsBlock continuation.resume) : ∃ cleanup',
      renumberCleanup c.renumbering cleanup = some cleanup' ∧ CleanupBy c.renumbering cleanup cleanup' := by
  obtain ⟨continuations, hrun, hall⟩ := mapM_forall₂ (f := renumberContinuation c.renumbering)
    (R := ContinuationBy c.renumbering) fun continuation hmem => by
      obtain ⟨b', hb'⟩ := Option.isSome_iff_exists.mp ((isSome_renumbering_node _).mpr (hcontinue continuation hmem))
      exact ⟨{ continuation with resume := b' }, by rw [renumberContinuation, hb', Option.map_some], rfl, hb'⟩
  obtain ⟨handler, resumeFrom, _⟩ := cleanup
  simp only at hrun
  cases resumeFrom with
  | none =>
    refine ⟨⟨handler, none, continuations⟩, ?_, rfl, rfl, hall⟩
    simp only [renumberCleanup, hrun, Option.bind_eq_bind, Option.bind_some]
    rfl
  | some b =>
    obtain ⟨b', hb'⟩ := Option.isSome_iff_exists.mp ((isSome_renumbering_node b).mpr (hresume b rfl))
    refine ⟨⟨handler, some b', continuations⟩, ?_, rfl, by simp only [hb', Option.map_some], hall⟩
    simp only [renumberCleanup, hrun, hb', Option.map_some, Option.bind_eq_bind, Option.bind_some]
    rfl

/-! ## The compacted graph -/

theorem compacted_graph (h : c.WF) (hgraph : c'.graph = c.graph.compact) (hentry : c.renumbering.node c.entry = some c'.entry)
    (hregions : List.Forall₂ (RegionBy c.renumbering) c.regions c'.regions)
    (hcleanups : List.Forall₂ (CleanupBy c.renumbering) c.cleanups c'.cleanups) :
    Compacted c c.renumbering c' where
  node_live := isSome_renumbering_node
  edge_live := isSome_renumbering_edge
  node_lt := by
    intro a b a' b' ha hb hab
    obtain ⟨hlive, rfl⟩ := renumbering_node_eq_some.mp ha
    obtain ⟨_, rfl⟩ := renumbering_node_eq_some.mp hb
    exact rank_lt hlive hab
  edge_lt := by
    intro a b a' b' ha hb hab
    obtain ⟨hlive, rfl⟩ := renumbering_edge_eq_some.mp ha
    obtain ⟨_, rfl⟩ := renumbering_edge_eq_some.mp hb
    exact rank_lt hlive hab
  node_dense b' := by
    rw [containsBlock, block, blockBound, hgraph]
    exact Naive.node_compact_isSome c.graph b'
  edge_dense e' := by
    rw [containsEdge, edge, edgeBound, hgraph]
    exact Naive.edge_compact_isSome c.graph e'
  node_onto := by
    intro b' hb'
    rw [blockBound, hgraph, Naive.compact, length_map] at hb'
    obtain ⟨_, hlive, hrank⟩ := getElem?_select.mp (getElem?_eq_getElem hb')
    exact ⟨_, renumbering_node_eq_some.mpr ⟨hlive, hrank⟩⟩
  edge_onto := by
    intro e' he'
    rw [edgeBound, hgraph, Naive.compact, length_map] at he'
    obtain ⟨_, hlive, hrank⟩ := getElem?_select.mp (getElem?_eq_getElem he')
    exact ⟨_, renumbering_edge_eq_some.mpr ⟨hlive, hrank⟩⟩
  block := by
    intro b b' hb
    obtain ⟨hlive, rfl⟩ := renumbering_node_eq_some.mp hb
    rw [block, hgraph]
    exact Naive.node_compact_rank hlive
  edge := by
    intro e e' he
    obtain ⟨hlive, rfl⟩ := renumbering_edge_eq_some.mp he
    obtain ⟨record, hrecord⟩ := Option.isSome_iff_exists.mp hlive
    refine ⟨record, _, _, hrecord, renumbering_node_eq_some.mpr ⟨h.graph.live .outgoing e record hrecord, rfl⟩,
      renumbering_node_eq_some.mpr ⟨h.graph.live .incoming e record hrecord, rfl⟩, ?_⟩
    rw [edge, hgraph]
    exact Naive.edge_compact.mpr ⟨e, record, hrecord, rfl, rfl⟩
  lists := by
    intro b b' d hb
    obtain ⟨hlive, rfl⟩ := renumbering_node_eq_some.mp hb
    rw [hgraph, Naive.lists_compact_rank c.graph hlive, map_map]
    apply map_congr_left
    intro e he
    obtain ⟨record, hrecord, _⟩ := (h.graph.mem_iff d b e).mp he
    exact renumbering_edge_eq_some.mpr ⟨by rw [containsEdge, Cfg.edge, hrecord]; rfl, rfl⟩
  entry := hentry
  regions := hregions
  cleanups := hcleanups

theorem compact_spec (h : c.WF) (hlive : ReferencesLive c) :
    ∃ c', c.compact = some (c.renumbering, c') ∧ c'.graph = c.graph.compact ∧ Compacted c c.renumbering c' := by
  obtain ⟨entry, hentry⟩ := Option.isSome_iff_exists.mp ((isSome_renumbering_node c.entry).mpr h.entry)
  obtain ⟨regions, hregions, hallRegions⟩ := mapM_forall₂ (R := RegionBy c.renumbering)
    fun region hmem => renumberRegion_spec (hlive.handlers region hmem)
  obtain ⟨cleanups, hcleanups, hallCleanups⟩ := mapM_forall₂ (R := CleanupBy c.renumbering)
    fun cleanup hmem => renumberCleanup_spec (hlive.cleanups cleanup hmem).1 (hlive.cleanups cleanup hmem).2
  refine ⟨⟨c.graph.compact, entry, regions, cleanups⟩, ?_, rfl,
    compacted_graph h rfl hentry hallRegions hallCleanups⟩
  simp only [compact, hentry, hregions, hcleanups, Option.bind_eq_bind, Option.bind_some]
  rfl

/-! ## Compacting again -/

theorem renumbering_of_dense (h : Compacted c c.renumbering c') :
    (∀ b < c'.blockBound, c'.renumbering.node b = some b) ∧ ∀ e < c'.edgeBound, c'.renumbering.edge e = some e := by
  refine ⟨fun b hb => ?_, fun e he => ?_⟩
  · refine renumbering_node_eq_some.mpr ⟨(h.node_dense b).mpr hb, ?_⟩
    exact Store.Graph.Renumbering.rank_of_all fun k hk => (h.node_dense k).mpr (hk.trans hb)
  · refine renumbering_edge_eq_some.mpr ⟨(h.edge_dense e).mpr he, ?_⟩
    exact Store.Graph.Renumbering.rank_of_all fun k hk => (h.edge_dense k).mpr (hk.trans he)

theorem retainSurviving_of_identity {bound : Nat} (hid : ∀ b < bound, ρ.node b = some b)
    {blocks : Finset Nat} (hlt : ∀ b ∈ blocks, b < bound) : retainSurviving ρ bound blocks = blocks := by
  ext b
  simp only [retainSurviving, mem_toFinset, mem_filterMap, mem_filter, mem_range,
    decide_eq_true_eq]
  constructor
  · rintro ⟨a, ⟨ha, hmem⟩, hab⟩
    rw [hid a ha] at hab
    cases hab
    exact hmem
  · intro hb
    exact ⟨b, ⟨hlt b hb, hb⟩, hid b (hlt b hb)⟩

theorem renumberHandler_of_identity (h : Compacted c ρ c')
    (hid : ∀ b < c'.blockBound, ρ'.node b = some b) {handler' : Handler} (hby : HandlerBy ρ handler handler') :
    renumberHandler ρ' c'.blockBound handler' = some handler' := by
  obtain ⟨entry, body, kind⟩ := handler'
  obtain ⟨_, body₀, kind₀⟩ := handler
  obtain ⟨hentry, hbodyBy, hkindBy⟩ := hby
  simp only at hentry hbodyBy hkindBy
  unfold renumberHandler
  rw [hid entry (h.lt_of_node hentry)]
  have hbody : retainBody ρ' c'.blockBound body = body := by
    obtain _ | himage := hbodyBy
    · rfl
    · exact congrArg HandlerBody.known (retainSurviving_of_identity hid (Image.lt h himage))
  have hresult : ∀ kind, some (⟨entry, retainBody ρ' c'.blockBound body, kind⟩ : Handler) = some ⟨entry, body, kind⟩ :=
    fun kind => by rw [hbody]
  obtain _ | _ | _ | _ | hb := hkindBy
  iterate 4 exact hresult _
  simp only [hid _ (h.lt_of_node hb)]
  exact hresult _

theorem renumberRegion_of_identity (h : Compacted c ρ c')
    (hid : ∀ b < c'.blockBound, ρ'.node b = some b) {region' : Region} (hby : RegionBy ρ region region') :
    renumberRegion ρ' c'.blockBound region' = some region' := by
  have hhandlers := mapM_of_forall₂ (f := renumberHandler ρ' c'.blockBound) hby.handlers
    fun _ _ hby => renumberHandler_of_identity h hid hby
  simp only [renumberRegion, hhandlers, Option.bind_eq_bind, Option.bind_some,
    retainSurviving_of_identity hid (Image.lt h hby.protectedBlocks)]
  rfl

theorem renumberCleanup_of_identity (h : Compacted c ρ c')
    (hid : ∀ b < c'.blockBound, ρ'.node b = some b) {cleanup' : Cleanup} (hby : CleanupBy ρ cleanup cleanup') :
    renumberCleanup ρ' cleanup' = some cleanup' := by
  have hcontinue := mapM_of_forall₂ (f := renumberContinuation ρ') hby.continuations fun continuation continuation' hby => by
    rw [renumberContinuation, hid _ (h.lt_of_node hby.resume)]
    rfl
  obtain ⟨handler, resumeFrom, continuations⟩ := cleanup'
  simp only at hcontinue
  cases resumeFrom with
  | none =>
    simp only [renumberCleanup, hcontinue, Option.bind_eq_bind, Option.bind_some]
    rfl
  | some b' =>
    have hresume : cleanup.resumeFrom.map ρ.node = some (some b') := hby.resumeFrom
    obtain ⟨b, _, hb⟩ := Option.map_eq_some_iff.mp hresume
    simp only [renumberCleanup, hcontinue, hid b' (h.lt_of_node hb), Option.map_some, Option.bind_eq_bind,
      Option.bind_some]
    rfl

theorem compact_again (h : c.WF) (hgraph : c'.graph = c.graph.compact) (hc' : Compacted c c.renumbering c') :
    c'.compact = some (c'.renumbering, c') := by
  have hid := (renumbering_of_dense hc').1
  have hentry := hid _ (hc'.lt_of_node hc'.entry)
  have hregions := mapM_of_forall₂ (f := renumberRegion c'.renumbering c'.blockBound) hc'.regions
    fun _ _ hby => renumberRegion_of_identity hc' hid hby
  have hcleanups := mapM_of_forall₂ (f := renumberCleanup c'.renumbering) hc'.cleanups
    fun _ _ hby => renumberCleanup_of_identity hc' hid hby
  have hagain : c'.graph.compact = c'.graph := by
    rw [hgraph, Naive.compact_compact h.graph]
  simp only [compact, hentry, hregions, hcleanups, Option.bind_eq_bind, Option.bind_some, hagain]
  rfl

end Cfg

/-! ## The whole -/

/-- For every graph whose single references are live: a compaction gives the graph under an
order-preserving renumbering, and a second one the same graph; a store that refines the graph is
rebuilt into one that refines the compacted graph, and answers with that renumbering; and one
lookup in a composition of two renumberings is two lookups in a row. -/
theorem compact_isomorphism {c : Cfg ι π} (h : c.WF) (hlive : ReferencesLive c) :
    (∃ c', c.compact = some (c.renumbering, c') ∧ Compacted c c.renumbering c' ∧
      c'.compact = some (c'.renumbering, c') ∧
      (∀ b, c'.renumbering.node b = if c'.containsBlock b then some b else none) ∧
      (∀ e, c'.renumbering.edge e = if c'.containsEdge e then some e else none) ∧
      ∀ (g : Store.Graph (BasicBlock ι) (Edge π)) rings, Refines g c.graph rings →
        Refines g.compact.1 c'.graph (fun _ _ => []) ∧
        (∀ b, g.compact.2.node b = c.renumbering.node b) ∧ (∀ e, g.compact.2.edge e = c.renumbering.edge e) ∧
        g.compact.1.compact.2.isIdentity = true) ∧
    ∀ (first second : Store.Graph.Renumbering) (old : Nat),
      (first.compose second).node old = (first.node old).bind second.node ∧
        (first.compose second).edge old = (first.edge old).bind second.edge := by
  refine ⟨?_, Store.Graph.Renumbering.compose_lookup⟩
  obtain ⟨c', hrun, hgraph, hc'⟩ := Cfg.compact_spec h hlive
  obtain ⟨hnode, hedge⟩ := Cfg.renumbering_of_dense hc'
  refine ⟨c', hrun, hc', Cfg.compact_again h hgraph hc', fun b => ?_, fun e => ?_, fun g rings hg => ?_⟩
  · split
    · next hb => exact hnode b ((hc'.node_dense b).mp hb)
    · next hb => exact if_neg hb
  · split
    · next he => exact hedge e ((hc'.edge_dense e).mp he)
    · next he => exact if_neg he
  · refine ⟨hgraph ▸ hg.compact, fun b => (hg.compact_lookup b).1, fun e => (hg.compact_lookup e).2,
      hg.compact_compact_isIdentity⟩

/-- Three blocks of which the middle one was removed, and a region over the first and the removed one. -/
def holed : Cfg Nat Unit where
  graph := (Cfg.ofParts [[1], [2], [3]] [(0, 1, .fallthrough, ()), (0, 2, .jump, ())]).graph.removeNode 1
  entry := 0
  regions := [⟨0, {0, 1}, [⟨2, .known {1, 2}, .catchAll⟩], none⟩]
  cleanups := []

theorem wf_holed : holed.WF where
  graph := (Cfg.wf_ofParts rfl : (Cfg.ofParts [[1], [2], [3]] [(0, 1, .fallthrough, ()), (0, 2, .jump, ())]).WF).graph.removeNode 1
  entry := by decide

theorem referencesLive_holed : ReferencesLive holed where
  handlers := by
    intro region hregion handler hhandler
    obtain rfl : region = _ := mem_singleton.mp hregion
    obtain rfl : handler = _ := mem_singleton.mp hhandler
    refine ⟨by decide, fun b hb => ?_⟩
    cases hb
  cleanups := by
    intro cleanup hcleanup
    cases hcleanup

theorem compact_isomorphism_holed : ∃ c', holed.compact = some (holed.renumbering, c') ∧
    Compacted holed holed.renumbering c' ∧ c'.compact = some (c'.renumbering, c') := by
  obtain ⟨c', hrun, hc', hagain, _⟩ := (compact_isomorphism wf_holed referencesLive_holed).1
  exact ⟨c', hrun, hc', hagain⟩

end CfgLib

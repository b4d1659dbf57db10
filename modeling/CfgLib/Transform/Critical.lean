import CfgLib.Transform.Rotate

/-!
# Critical edges

`transform/critical.rs`: an edge whose source has another way out and whose target another
way in gets an empty block in its middle.
-/

namespace CfgLib.Transform

open CfgLib.Lib Cfg List

variable {ι π : Type}

def criticalEdges (c : Cfg ι π) : List Nat :=
  c.blockIds.flatMap fun source =>
    if (c.outgoing source).length < 2 then []
    else (c.outgoing source).filter fun e => (c.edge e).any fun r => 2 ≤ (c.incoming r.target).length

/-- The kind of the half that leaves the source. -/
def firstKind (kind : EdgeKind) : EdgeKind := if kind = .back then .unconditional else kind

/-- The kind of the half that enters the target, which is the loop header of a back edge. -/
def secondKind (kind : EdgeKind) : EdgeKind := if kind = .back then .back else .fallthrough

def splitCriticalEdge (payloadFor : Nat → Edge π → π) (s : Cfg ι π × Rewrite) (e : Nat) : Option (Cfg ι π × Rewrite) := do
  let (c, mapping) := s
  let original ← c.edge e
  let (middle, c) ← c.newBlock
  let (_, c) ← c.redirectEdgeTarget e middle
  let c := c.modifyEdge e fun edge => { edge with kind := firstKind edge.kind }
  let (second, c) ← c.addEdgeWithPayload middle original.target (secondKind original.payload.kind)
    (payloadFor e original.payload)
  some (c, ((mapping.recordEdge e [e, second]).recordCreatedBlock middle).recordCreatedEdge second)

/-- Split every critical edge; `none` is a panic. -/
def splitCriticalEdgesWith (c : Cfg ι π) (payloadFor : Nat → Edge π → π) : Option (Nat × Rewrite × Cfg ι π) :=
  let critical := criticalEdges c
  (critical.foldlM (splitCriticalEdge payloadFor) (c, .new)).map fun (c', mapping) => (critical.length, mapping, c')

/-! ## What is critical -/

/-- Another edge leaves the source, and another one enters the target. -/
def IsCritical (c : Cfg ι π) (e : Nat) : Prop :=
  ∃ r, c.edge e = some r ∧ ∀ d, ∃ e' r', e' ≠ e ∧ c.edge e' = some r' ∧ r'.endpoint d = r.endpoint d

variable {c c' : Cfg ι π} {e : Nat} {r : Store.EdgeRecord (Edge π)}

theorem two_le_length_iff {l : List Nat} (hl : l.Nodup) (he : e ∈ l) : 2 ≤ l.length ↔ ∃ e' ∈ l, e' ≠ e := by
  constructor
  · intro h
    by_contra! hall
    have hsub : l ⊆ [e] := fun i hi => mem_singleton.mpr (hall i hi)
    have := (subperm_of_subset hl hsub).length_le
    rw [length_singleton] at this
    omega
  · rintro ⟨e', he', hne⟩
    have hpair : [e', e].Nodup := by simpa using hne
    exact (subperm_of_subset hpair (by simp [he, he'])).length_le

theorem two_le_lists_iff (hc : c.WF) (hr : c.edge e = some r) (d : TraversalDirection) :
    2 ≤ (c.graph.lists d (r.endpoint d)).length ↔
      ∃ e' r', e' ≠ e ∧ c.edge e' = some r' ∧ r'.endpoint d = r.endpoint d := by
  have hmem := hc.graph.mem_iff d (r.endpoint d)
  rw [two_le_length_iff (hc.graph.nodup d _) ((hmem e).mpr ⟨r, hr, rfl⟩)]
  constructor
  · rintro ⟨e', he', hne⟩
    obtain ⟨r', hr', hend⟩ := (hmem e').mp he'
    exact ⟨e', r', hne, hr', hend⟩
  · rintro ⟨e', r', hne, hr', hend⟩
    exact ⟨e', (hmem e').mpr ⟨r', hr', hend⟩, hne⟩

theorem mem_criticalEdges (hc : c.WF) : e ∈ criticalEdges c ↔ IsCritical c e := by
  have hsplit : ∀ r, c.edge e = some r → ((∀ d, ∃ e' r', e' ≠ e ∧ c.edge e' = some r' ∧ r'.endpoint d = r.endpoint d) ↔
      2 ≤ (c.outgoing r.source).length ∧ 2 ≤ (c.incoming r.target).length) := by
    intro r hr
    have hout := two_le_lists_iff hc hr .outgoing
    have hin := two_le_lists_iff hc hr .incoming
    exact ⟨fun h => ⟨hout.mpr (h .outgoing), hin.mpr (h .incoming)⟩,
      fun h d => by cases d; exacts [hout.mp h.1, hin.mp h.2]⟩
  simp only [criticalEdges, mem_flatMap, mem_ite_nil_left, mem_filter, Option.any_eq_true, decide_eq_true_eq,
    not_lt, mem_blockIds]
  constructor
  · rintro ⟨source, _, hlen, hmem, r, hr, hin⟩
    obtain ⟨r', hr', rfl⟩ := hc.mem_outgoing.mp hmem
    cases hr.symm.trans hr'
    exact ⟨r, hr, (hsplit r hr).mpr ⟨hlen, hin⟩⟩
  · rintro ⟨r, hr, hall⟩
    obtain ⟨hlen, hin⟩ := (hsplit r hr).mp hall
    exact ⟨r.source, hc.source_live hr, hlen, hc.mem_outgoing.mpr ⟨r, hr, rfl⟩, r, hr, hin⟩

theorem nodup_criticalEdges (hc : c.WF) : (criticalEdges c).Nodup := by
  refine nodup_flatMap.mpr ⟨fun source _ => ?_, ?_⟩
  · split
    · exact nodup_nil
    · exact (hc.graph.nodup .outgoing source).filter _
  · -- an edge leaves one block only
    have hsource : ∀ b, ∀ i ∈ (if (c.outgoing b).length < 2 then [] else
        (c.outgoing b).filter fun e => (c.edge e).any fun r => 2 ≤ (c.incoming r.target).length),
        ∃ r, c.edge i = some r ∧ r.source = b := by
      intro b i hi
      split at hi
      · cases hi
      · exact hc.mem_outgoing.mp (mem_of_mem_filter hi)
    refine (nodup_range.filter _).imp fun hne i ha hb => hne ?_
    obtain ⟨r, hr, rfl⟩ := hsource _ i ha
    obtain ⟨r', hr', rfl⟩ := hsource _ i hb
    cases hr.symm.trans hr'
    rfl

/-! ## One edge -/

def firstHalf (middle : Nat) (r : Store.EdgeRecord (Edge π)) : Store.EdgeRecord (Edge π) :=
  ⟨r.source, middle, { r.payload with kind := firstKind r.payload.kind }⟩

def secondHalf (middle : Nat) (r : Store.EdgeRecord (Edge π)) (payload : π) : Store.EdgeRecord (Edge π) :=
  ⟨middle, r.target, ⟨secondKind r.payload.kind, none, payload⟩⟩

/-- The edge `e`, with record `r`, leads through a new empty block. -/
structure IsEdgeSplit (c : Cfg ι π) (e : Nat) (r : Store.EdgeRecord (Edge π)) (payload : π) (c' : Cfg ι π) : Prop where
  wf : c'.WF
  frame : SameFrame c c'
  block : ∀ i, c'.block i = if i = c.blockBound then some ⟨[], none⟩ else c.block i
  edge : ∀ i, c'.edge i =
    if i = c.edgeBound then some (secondHalf c.blockBound r payload)
    else if i = e then some (firstHalf c.blockBound r)
    else c.edge i
  blockBound : c'.blockBound = c.blockBound + 1
  edgeBound : c'.edgeBound = c.edgeBound + 1

theorem splitCriticalEdge_spec (hc : c.WF) (hr : c.edge e = some r) (payloadFor : Nat → Edge π → π) (mapping : Rewrite)
    (hblocks : c.blockBound < Store.maxSlots) (hedges : c.edgeBound < Store.maxSlots) :
    ∃ c', IsEdgeSplit c e r (payloadFor e r.payload) c' ∧ splitCriticalEdge payloadFor (c, mapping) e =
      some (c', ((mapping.recordEdge e [e, c.edgeBound]).recordCreatedBlock c.blockBound).recordCreatedEdge c.edgeBound) := by
  have htarget := hc.target_live hr
  have hroom : c.newBlock.isSome := by
    rw [newBlock, Store.Naive.addNode, if_pos (show c.graph.nodes.length < _ from hblocks)]
    rfl
  obtain ⟨⟨middle, c₁⟩, hnew⟩ := Option.isSome_iff_exists.mp hroom
  obtain ⟨rfl, hwf₁, hframe₁, hblock₁, hedge₁, hbound₁, hbound₁'⟩ := newBlock_spec hc hnew
  have hmiddle : c₁.containsBlock c.blockBound := by rw [containsBlock, hblock₁, if_pos rfl]; rfl
  have hr₁ := (hedge₁ e).trans hr
  have hne : r.endpoint .incoming ≠ c.blockBound := Nat.ne_of_lt (block_lt htarget)
  have hturn : (c₁.redirectEdgeTarget e c.blockBound).isSome := by
    simp only [redirectEdgeTarget, redirectEdge, hr₁, Option.bind_eq_bind, Option.bind_some, Store.Naive.redirect,
      show c₁.graph.edge e = some r from hr₁, if_pos (show (c₁.graph.node c.blockBound).isSome from hmiddle), if_neg hne]
    rfl
  obtain ⟨⟨old, c₂⟩, hredirect⟩ := Option.isSome_iff_exists.mp hturn
  obtain ⟨hwf₂, hframe₂, hblock₂, hbound₂, hbound₂', r', hr', hold, hcase⟩ := redirectEdge_spec hwf₁ hredirect
  cases hr₁.symm.trans hr'
  have hedge₂ : ∀ i, c₂.edge i = if i = e then some (r.setEndpoint .incoming c.blockBound) else c₁.edge i := by
    rcases hcase with ⟨heq, _⟩ | ⟨_, hedge⟩
    · exact absurd (hold.trans heq) hne
    · exact hedge
  let c₃ := c₂.modifyEdge e fun edge => { edge with kind := firstKind edge.kind }
  have hwf₃ : c₃.WF := wf_modifyEdge hwf₂ e _
  have hbound₃ : c₃.edgeBound = c.edgeBound := by
    rw [← hbound₁', ← hbound₂']
    exact length_modify ..
  have hsecond : (c₃.addEdgeWithPayload c.blockBound r.target (secondKind r.payload.kind)
      (payloadFor e r.payload)).isSome := by
    have hlive : ∀ b, c₁.containsBlock b → (c₃.graph.node b).isSome := fun b hb =>
      (congrArg Option.isSome (hblock₂ b)).trans hb
    have hlive' : c₁.containsBlock r.target := by
      rw [containsBlock, hblock₁]
      split
      · rfl
      · exact htarget
    rw [addEdgeWithPayload, Store.Naive.addEdge,
      if_pos ⟨hlive _ hmiddle, hlive _ hlive', (show c₃.graph.edges.length = _ from hbound₃) ▸ hedges⟩]
    rfl
  obtain ⟨⟨second, c₄⟩, hadd⟩ := Option.isSome_iff_exists.mp hsecond
  obtain ⟨rfl, hwf₄, hframe₄, hblock₄, hedge₄, hbound₄, hbound₄'⟩ := addEdgeWithPayload_spec hwf₃ hadd
  refine ⟨c₄, ⟨hwf₄, hframe₁.trans (hframe₂.trans ⟨hframe₄.entry, hframe₄.regions, hframe₄.cleanups⟩),
    fun i => (hblock₄ i).trans ((hblock₂ i).trans (hblock₁ i)), fun i => ?_, ?_, ?_⟩, ?_⟩
  · rw [hedge₄, hbound₃]
    by_cases hi : i = c.edgeBound
    · rw [if_pos hi, if_pos hi]
      rfl
    · rw [if_neg hi, if_neg hi, edge_modifyEdge, hedge₂, hedge₁]
      split <;> rfl
  · exact hbound₄.trans (hbound₂.trans hbound₁)
  · rw [hbound₄', hbound₃]
  · simp only [splitCriticalEdge, hr, hnew, hredirect, Option.bind_eq_bind, Option.bind_some]
    rw [hadd, hbound₃]
    rfl

namespace IsEdgeSplit

variable {payload : π} {P : EdgeKind → Prop} {a b i : Nat}

theorem edge_old (h : IsEdgeSplit c e r payload c') (hi : i < c.edgeBound) (hne : i ≠ e) : c'.edge i = c.edge i := by
  rw [h.edge, if_neg (Nat.ne_of_lt hi), if_neg hne]

theorem edge_second (h : IsEdgeSplit c e r payload c') :
    c'.edge c.edgeBound = some (secondHalf c.blockBound r payload) := by
  rw [h.edge, if_pos rfl]

theorem edge_first (h : IsEdgeSplit c e r payload c') (hr : c.edge e = some r) :
    c'.edge e = some (firstHalf c.blockBound r) := by
  rw [h.edge, if_neg (Nat.ne_of_lt (edge_lt hr)), if_pos rfl]

theorem edge_cases {r' : Store.EdgeRecord (Edge π)} (h : IsEdgeSplit c e r payload c') (hr' : c'.edge i = some r') :
    (i = c.edgeBound ∧ r' = secondHalf c.blockBound r payload) ∨
      (i = e ∧ r' = firstHalf c.blockBound r) ∨
      i ≠ e ∧ c.edge i = some r' := by
  rw [h.edge] at hr'
  split at hr'
  · next hi => exact Or.inl ⟨hi, (Option.some.inj hr').symm⟩
  · split at hr'
    · next hi => exact Or.inr (Or.inl ⟨hi, (Option.some.inj hr').symm⟩)
    · next hi => exact Or.inr (Or.inr ⟨hi, hr'⟩)

theorem isCritical_iff (hc : c.WF) (hr : c.edge e = some r) (h : IsEdgeSplit c e r payload c') :
    IsCritical c' i ↔ IsCritical c i ∧ i ≠ e := by
  have hends : ∀ {j r₁}, c.edge j = some r₁ → ∀ d, r₁.endpoint d ≠ c.blockBound := fun hj d =>
    Nat.ne_of_lt (block_lt (hc.graph.live d _ _ hj))
  constructor
  · rintro ⟨r', hr', hall⟩
    rcases h.edge_cases hr' with ⟨rfl, rfl⟩ | ⟨rfl, rfl⟩ | ⟨hne, hold⟩
    · -- nothing else leaves the new block
      obtain ⟨j, r₁, hj, hr₁, hend⟩ := hall .outgoing
      rcases h.edge_cases hr₁ with ⟨rfl, -⟩ | ⟨-, rfl⟩ | ⟨-, hr₁⟩
      · exact absurd rfl hj
      · exact absurd hend (hends hr .outgoing)
      · exact absurd hend (hends hr₁ .outgoing)
    · -- and nothing else enters it
      obtain ⟨j, r₁, hj, hr₁, hend⟩ := hall .incoming
      rcases h.edge_cases hr₁ with ⟨-, rfl⟩ | ⟨rfl, -⟩ | ⟨-, hr₁⟩
      · exact absurd hend (hends hr .incoming)
      · exact absurd rfl hj
      · exact absurd hend (hends hr₁ .incoming)
    · refine ⟨⟨r', hold, fun d => ?_⟩, hne⟩
      obtain ⟨j, r₁, hj, hr₁, hend⟩ := hall d
      rcases h.edge_cases hr₁ with ⟨-, rfl⟩ | ⟨rfl, rfl⟩ | ⟨-, hr₁⟩
      · -- the second half stands for the split edge at its target
        cases d with
        | outgoing => exact absurd hend.symm (hends hold .outgoing)
        | incoming => exact ⟨e, r, Ne.symm hne, hr, hend⟩
      · cases d with
        | outgoing => exact ⟨j, r, hj, hr, hend⟩
        | incoming => exact absurd hend.symm (hends hold .incoming)
      · exact ⟨j, r₁, hj, hr₁, hend⟩
  · rintro ⟨⟨r', hr', hall⟩, hne⟩
    refine ⟨r', (h.edge_old (edge_lt hr') hne).trans hr', fun d => ?_⟩
    obtain ⟨j, r₁, hj, hr₁, hend⟩ := hall d
    by_cases hje : j = e
    · subst hje
      cases hr.symm.trans hr₁
      cases d with
      | outgoing => exact ⟨j, _, hj, h.edge_first hr, hend⟩
      | incoming => exact ⟨_, _, (Nat.ne_of_lt (edge_lt hr')).symm, h.edge_second, hend⟩
    · exact ⟨j, r₁, hj, (h.edge_old (edge_lt hr₁) hje).trans hr₁, hend⟩

theorem leads_iff (hc : c.WF) (hr : c.edge e = some r) (h : IsEdgeSplit c e r payload c')
    (hP : P (firstKind r.payload.kind) ↔ P r.payload.kind) (ha : a ≠ c.blockBound) :
    c.Leads P a b ↔ c'.Leads P a b ∧ b ≠ c.blockBound ∨ c'.Leads P a c.blockBound ∧ b = r.target := by
  constructor
  · rintro ⟨i, r', hr', hs, ht, hk⟩
    by_cases hi : i = e
    · subst hi
      cases hr.symm.trans hr'
      exact Or.inr ⟨⟨i, _, h.edge_first hr, hs, rfl, hP.mpr hk⟩, ht.symm⟩
    · exact Or.inl ⟨⟨i, r', (h.edge_old (edge_lt hr') hi).trans hr', hs, ht, hk⟩,
        ht ▸ Nat.ne_of_lt (block_lt (hc.target_live hr'))⟩
  · rintro (⟨⟨i, r', hr', hs, ht, hk⟩, hb⟩ | ⟨⟨i, r', hr', hs, ht, hk⟩, rfl⟩)
    · rcases h.edge_cases hr' with ⟨-, rfl⟩ | ⟨-, rfl⟩ | ⟨-, hr'⟩
      · exact absurd hs.symm ha
      · exact absurd ht.symm hb
      · exact ⟨i, r', hr', hs, ht, hk⟩
    · rcases h.edge_cases hr' with ⟨-, rfl⟩ | ⟨-, rfl⟩ | ⟨-, hr'⟩
      · exact absurd hs.symm ha
      · exact ⟨e, r, hr, hs, rfl, hP.mp hk⟩
      · exact absurd ht (Nat.ne_of_lt (block_lt (hc.target_live hr')))

theorem bypasses (hc : c.WF) (hr : c.edge e = some r) (h : IsEdgeSplit c e r payload c') :
    Flow.Bypasses c'.flow c.flow c.blockBound r.target where
  ne := Nat.ne_of_lt (block_lt (hc.target_live hr))
  empty := code_eq_some (by rw [h.block, if_pos rfl])
  code_other := by
    intro b hb
    simp only [flow, h.block, if_neg hb]
  normal_source := by
    intro b
    have hsource : r.source ≠ c.blockBound := Nat.ne_of_lt (block_lt (hc.source_live hr))
    constructor
    · rintro ⟨i, r', hr', hs, ht, _⟩
      rcases h.edge_cases hr' with ⟨-, rfl⟩ | ⟨-, rfl⟩ | ⟨-, hr'⟩
      · exact ht.symm
      · exact absurd hs hsource
      · exact absurd hs (Nat.ne_of_lt (block_lt (hc.source_live hr')))
    · rintro rfl
      refine ⟨_, _, h.edge_second, rfl, rfl, ?_⟩
      unfold Cfg.Sequential secondHalf secondKind
      split <;> simp
  normal_iff := by
    intro a b ha
    refine h.leads_iff hc hr ?_ ha
    unfold Cfg.Sequential firstKind
    split <;> simp_all
  unwind_iff := by
    intro a b ha
    refine h.leads_iff hc hr ?_ ha
    unfold Cfg.Unwinding firstKind
    split <;> simp_all

theorem sameTraces (hc : c.WF) (hr : c.edge e = some r) (h : IsEdgeSplit c e r payload c') (throws : ι → Bool) :
    Cfg.SameTraces throws c c' := by
  unfold Cfg.SameTraces
  rw [h.frame.entry]
  exact ((h.bypasses hc hr).sameTraces (Nat.ne_of_lt (block_lt hc.entry))).symm

end IsEdgeSplit

/-! ## All of them -/

/-- The edges `done` have been led through new blocks, in their order: the halves of the
`k`-th one are itself and the `k`-th new edge. -/
structure IsCriticalSplit (c : Cfg ι π) (payloadFor : Nat → Edge π → π) (done : List Nat) (c' : Cfg ι π)
    (mapping : Rewrite) : Prop where
  wf : c'.WF
  frame : SameFrame c c'
  blockBound : c'.blockBound = c.blockBound + done.length
  edgeBound : c'.edgeBound = c.edgeBound + done.length
  block : ∀ i < c.blockBound, c'.block i = c.block i
  kept : ∀ i < c.edgeBound, i ∉ done → c'.edge i = c.edge i ∧ mapping.edges i = none
  halves : ∀ k e, done[k]? = some e → ∃ r, c.edge e = some r ∧
    mapping.edges e = some [e, c.edgeBound + k] ∧ c'.block (c.blockBound + k) = some ⟨[], none⟩ ∧
    c'.edge e = some (firstHalf (c.blockBound + k) r) ∧
    c'.edge (c.edgeBound + k) = some (secondHalf (c.blockBound + k) r (payloadFor e r.payload))
  blocks : mapping.blocks = fun _ => none
  createdBlocks : mapping.createdBlocks = List.range' c.blockBound done.length
  createdEdges : mapping.createdEdges = List.range' c.edgeBound done.length
  isCritical_iff : ∀ i, IsCritical c' i ↔ IsCritical c i ∧ i ∉ done
  sameTraces : ∀ throws, Cfg.SameTraces throws c c'

theorem pushUnique_range' (a n : Nat) : pushUnique (List.range' a n) (a + n) = List.range' a (n + 1) := by
  rw [pushUnique, if_neg (by simp [mem_range'_1]), range'_1_concat]

variable {done : List Nat} {mapping : Rewrite} {payloadFor : Nat → Edge π → π}

theorem IsCriticalSplit.step (h : IsCriticalSplit c payloadFor done c' mapping) (hr : c.edge e = some r) (he : e ∉ done)
    (hblocks : c'.blockBound < Store.maxSlots) (hedges : c'.edgeBound < Store.maxSlots) :
    ∃ s, splitCriticalEdge payloadFor (c', mapping) e = some s ∧ IsCriticalSplit c payloadFor (done ++ [e]) s.1 s.2 := by
  have hlt := edge_lt hr
  have hr' : c'.edge e = some r := (h.kept e hlt he).1.trans hr
  obtain ⟨c₂, hsplit, heq⟩ := splitCriticalEdge_spec h.wf hr' payloadFor mapping hblocks hedges
  refine ⟨_, heq, hsplit.wf, h.frame.trans hsplit.frame, ?_, ?_, fun i hi => ?_, fun i hi hmem => ?_, fun k i hk => ?_,
    h.blocks, ?_, ?_, fun i => ?_, fun throws => (h.sameTraces throws).trans (hsplit.sameTraces h.wf hr' throws)⟩
  · rw [hsplit.blockBound, h.blockBound, length_append, length_singleton, Nat.add_assoc]
  · rw [hsplit.edgeBound, h.edgeBound, length_append, length_singleton, Nat.add_assoc]
  · rw [hsplit.block, if_neg (by rw [h.blockBound]; omega), h.block i hi]
  · obtain ⟨hmem, hne⟩ := not_or.mp (mem_append.not.mp hmem)
    have hne : i ≠ e := fun heq => hne (mem_singleton.mpr heq)
    obtain ⟨hedge, hmap⟩ := h.kept i hi hmem
    exact ⟨(hsplit.edge_old (by rw [h.edgeBound]; omega) hne).trans hedge, by simp [Rewrite.recordEdge,
      Rewrite.recordCreatedBlock, Rewrite.recordCreatedEdge, hne, hmap]⟩
  · rcases Nat.lt_trichotomy k done.length with hlen | rfl | hlen
    · -- an edge that was split before
      rw [getElem?_append_left hlen] at hk
      obtain ⟨r₀, hr₀, hmap, hblock, hfirst, hsecond⟩ := h.halves k i hk
      have hne : i ≠ e := fun heq => he (heq ▸ mem_of_getElem? hk)
      refine ⟨r₀, hr₀, ?_, ?_, (hsplit.edge_old (edge_lt hfirst) hne).trans hfirst,
        (hsplit.edge_old (edge_lt hsecond) (by omega)).trans hsecond⟩
      · simp [Rewrite.recordEdge, Rewrite.recordCreatedBlock, Rewrite.recordCreatedEdge, hne, hmap]
      · rw [hsplit.block, if_neg (by rw [h.blockBound]; omega), hblock]
    · rw [getElem?_append_right (Nat.le_refl _), Nat.sub_self] at hk
      cases hk
      refine ⟨r, hr, ?_, ?_, ?_, ?_⟩
      · have hne : c.edgeBound + done.length ≠ e := by omega
        simp [Rewrite.recordEdge, Rewrite.recordCreatedBlock, Rewrite.recordCreatedEdge, unique, pushUnique, hne,
          h.edgeBound]
      · rw [hsplit.block, if_pos h.blockBound.symm]
      · rw [hsplit.edge_first hr', h.blockBound]
      · rw [← h.edgeBound, ← h.blockBound]
        exact hsplit.edge_second
    · rw [getElem?_eq_none (by rw [length_append, length_singleton]; omega)] at hk
      cases hk
  · rw [length_append, length_singleton, ← pushUnique_range', ← h.createdBlocks, ← h.blockBound]
    rfl
  · rw [length_append, length_singleton, ← pushUnique_range', ← h.createdEdges, ← h.edgeBound]
    rfl
  · rw [hsplit.isCritical_iff h.wf hr', h.isCritical_iff, mem_append, mem_singleton, not_or, and_assoc]

/-- Splitting the critical edges gives each an empty block in its middle and nothing else,
leaves no critical edge, so that a second run finds none, and keeps every trace. -/
theorem splitCriticalEdgesWith_exact (hc : c.WF) (payloadFor : Nat → Edge π → π)
    (hblocks : c.blockBound + (criticalEdges c).length ≤ Store.maxSlots)
    (hedges : c.edgeBound + (criticalEdges c).length ≤ Store.maxSlots) : ∃ mapping c',
    splitCriticalEdgesWith c payloadFor = some ((criticalEdges c).length, mapping, c') ∧
      (∀ e, e ∈ criticalEdges c ↔ IsCritical c e) ∧ IsCriticalSplit c payloadFor (criticalEdges c) c' mapping ∧
      (∀ e, ¬ IsCritical c' e) ∧ splitCriticalEdgesWith c' payloadFor = some (0, .new, c') := by
  have hstart : IsCriticalSplit c payloadFor [] c .new :=
    ⟨hc, ⟨rfl, rfl, rfl⟩, rfl, rfl, fun _ _ => rfl, fun _ _ _ => ⟨rfl, rfl⟩, fun k e hk => (by simp at hk), rfl, rfl, rfl,
      fun i => by simp, fun throws => .refl throws c⟩
  have hstep : ∀ done e rest (s : Cfg ι π × Rewrite), criticalEdges c = done ++ e :: rest →
      IsCriticalSplit c payloadFor done s.1 s.2 →
      ∃ s', splitCriticalEdge payloadFor s e = some s' ∧ IsCriticalSplit c payloadFor (done ++ [e]) s'.1 s'.2 := by
    intro done e rest s hl h
    have hlen : done.length < (criticalEdges c).length := by
      rw [hl, length_append, length_cons]
      omega
    obtain ⟨r, hr, _⟩ := (mem_criticalEdges hc).mp (show e ∈ criticalEdges c by simp [hl])
    have hnodup := nodup_criticalEdges hc
    rw [hl] at hnodup
    apply h.step hr (fun hmem => disjoint_of_nodup_append hnodup hmem mem_cons_self)
    · rw [h.blockBound]
      omega
    · rw [h.edgeBound]
      omega
  obtain ⟨⟨c', mapping⟩, hrun, h⟩ := foldlM_option_total hstep (s := (c, .new)) hstart
  have hnone : ∀ e, ¬ IsCritical c' e := fun e he =>
    ((h.isCritical_iff e).mp he).2 ((mem_criticalEdges hc).mpr ((h.isCritical_iff e).mp he).1)
  have hnil : criticalEdges c' = [] := eq_nil_iff_forall_not_mem.mpr fun e he => hnone e ((mem_criticalEdges h.wf).mp he)
  refine ⟨mapping, c', ?_, fun e => mem_criticalEdges hc, h, hnone, ?_⟩
  · rw [splitCriticalEdgesWith, hrun]
    rfl
  · rw [splitCriticalEdgesWith, hnil]
    rfl

/-- Two conditional blocks that lead to the same two blocks. -/
def crossedBranches : Cfg Nat Unit :=
  .ofParts [[1], [2], [3], [4]] [(0, 2, .conditionalTrue, ()), (0, 3, .conditionalFalse, ()), (1, 2, .back, ()), (1, 3, .jump, ())]

theorem splitCriticalEdgesWith_exact_crossedBranches : criticalEdges crossedBranches = [0, 1, 2, 3] ∧ ∃ mapping c',
    splitCriticalEdgesWith crossedBranches (fun _ _ => ()) = some (4, mapping, c') ∧ (∀ e, ¬ IsCritical c' e) := by
  have hcritical : criticalEdges crossedBranches = [0, 1, 2, 3] := by decide
  have hroom : ∀ n ≤ 8, n ≤ Store.maxSlots := fun n hn => hn.trans (by decide)
  obtain ⟨mapping, c', hrun, _, _, hnone, _⟩ := splitCriticalEdgesWith_exact (c := crossedBranches)
    (Cfg.wf_ofParts rfl) (fun _ _ => ()) (hroom _ (by rw [hcritical]; decide)) (hroom _ (by rw [hcritical]; decide))
  rw [hcritical] at hrun
  exact ⟨hcritical, mapping, c', hrun, hnone⟩

end CfgLib.Transform

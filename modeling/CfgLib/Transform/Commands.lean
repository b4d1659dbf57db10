import CfgLib.Transform.Record

/-!
# Records of a whole run

Any sequence of mapped mutations and passes with their records composed.  The
composed record is faithful as long as no contraction of the run folds a block
allocated since its start into an older one.
-/

namespace CfgLib.Transform

open CfgLib.Lib List

variable {ι π : Type} {c₀ c c' : Cfg ι π} {R R' : Rewrite}

/-! ## Runs -/

/-- A mapped mutation or pass.  Splitting at points takes the payload of each new
edge; the plain form passes the default one. -/
inductive Command (π : Type) where
  | removeBlock (id : Nat)
  | splitBlockAtPoints (id : Nat) (points : List (Nat × π))
  | contractEdge (source target : Nat)
  | mergeBlocks
  | removeEmptyBlocks
  | removeUnreachable
  | simplify
  | redirectEdgesTo (old new : Nat)
  | redirectEdgeSource (edge new : Nat)
  | redirectEdgeTarget (edge new : Nat)

/-- The graph, the composed record, and as ghost state the contractions made. -/
structure History (ι π : Type) where
  cfg : Cfg ι π
  rewrite : Rewrite
  folds : List (Fold ι π)

def passMapped (inner : Session ι π → Option (Nat × Session ι π)) (c : Cfg ι π)
    (folds : List (Fold ι π)) : Option (Option Rewrite × Cfg ι π × List (Fold ι π)) :=
  (inner ⟨c, some .new, folds⟩).map fun (_, s) => (s.mapping, s.cfg, s.folds)

/-- Run one command.  A refused contraction and an invalid split report no record. -/
def Command.apply (c : Cfg ι π) (folds : List (Fold ι π)) :
    Command π → Option (Option Rewrite × Cfg ι π × List (Fold ι π))
  | .removeBlock id => (c.removeBlockMapped id).map fun (_, c', R) => (some R, c', folds)
  | .splitBlockAtPoints id points =>
    (c.splitBlockAtPointsWithPayloads id points).map fun (result, c') =>
      (result.toOption.map (·.2), c', folds)
  | .contractEdge source target =>
    (contractEdgeInner ⟨c, some .new, folds⟩ source target).map fun (happened, s) =>
      (if happened then s.mapping else none, s.cfg, s.folds)
  | .mergeBlocks => passMapped mergeBlocksInner c folds
  | .removeEmptyBlocks => passMapped removeEmptyBlocksInner c folds
  | .removeUnreachable => (removeUnreachableMapped c).map fun (_, c', R) => (some R, c', folds)
  | .simplify => passMapped simplifyInner c folds
  | .redirectEdgesTo old new =>
    (c.redirectEdgesToMapped old new).map fun (c', R) => (some R, c', folds)
  | .redirectEdgeSource edge new =>
    (c.redirectEdgeSourceMapped edge new).map fun (_, c', R) => (some R, c', folds)
  | .redirectEdgeTarget edge new =>
    (c.redirectEdgeTargetMapped edge new).map fun (_, c', R) => (some R, c', folds)

def History.run (s : History ι π) (command : Command π) : Option (History ι π) := do
  let (record, cfg, folds) ← command.apply s.cfg s.folds
  pure
    { cfg := cfg
      rewrite := match record with
        | some next => s.rewrite.compose next
        | none => s.rewrite
      folds := folds }

def runCommands (c : Cfg ι π) (commands : List (Command π)) : Option (History ι π) :=
  commands.foldlM History.run ⟨c, .new, []⟩

/-! ## What a faithful record says -/

/-- No contraction folds a block from `k` on into a block below `k`. -/
def FoldsFresh (k : Nat) (folds : List (Fold ι π)) : Prop :=
  ∀ f ∈ folds, k ≤ f.target → k ≤ f.source

variable {folds folds' : List (Fold ι π)} {id k new : Nat}

theorem FoldsFresh.of_subset (h : FoldsFresh k folds') (hsub : folds ⊆ folds') : FoldsFresh k folds :=
  fun f hf => h f (hsub hf)

/-- What a record says about the graphs before and after it. -/
structure Faithful (c c' : Cfg ι π) (R : Rewrite) : Prop where
  block_kept : ∀ b, c.containsBlock b → R.blocks b = none → c'.containsBlock b
  edge_kept : ∀ e r, c.edge e = some r → R.edges e = none →
    ∃ r', c'.edge e = some r' ∧ r'.source = r.source ∧ r'.target = r.target
  block_replaced : ∀ b l, R.blocks b = some l → ∀ y ∈ l, c'.containsBlock y
  edge_replaced : ∀ e l, R.edges e = some l → ∀ y ∈ l, c'.containsEdge y
  created_blocks : ∀ b, b ∈ R.createdBlocks ↔ c'.containsBlock b ∧ c.blockBound ≤ b
  created_edges : ∀ e, e ∈ R.createdEdges ↔ c'.containsEdge e ∧ c.edgeBound ≤ e

/-- Every identity `R` names is looked up in the renumbering, and none is dropped. -/
structure LooksUp (ρ : Renumbering) (R R' : Rewrite) : Prop where
  blocks : ∀ b, (R'.blocks b).map (·.map some) = (R.blocks b).map (·.map ρ.node)
  edges : ∀ e, (R'.edges e).map (·.map some) = (R.edges e).map (·.map ρ.edge)
  createdBlocks : R'.createdBlocks.map some = R.createdBlocks.map ρ.node
  createdEdges : R'.createdEdges.map some = R.createdEdges.map ρ.edge

theorem Records.faithful (h : Records c c' R) : Faithful c c' R where
  block_kept := h.blocks.kept
  edge_kept := h.endpoints
  block_replaced := h.blocks.replaced
  edge_replaced := h.edges.replaced
  created_blocks := h.blocks.created_iff
  created_edges := h.edges.created_iff

theorem map_some_filterMap {α β : Type} {f : α → Option β} {l : List α}
    (h : ∀ x ∈ l, (f x).isSome) : (l.filterMap f).map some = l.map f := by
  induction l with
  | nil => rfl
  | cons a l ih =>
    obtain ⟨b, hb⟩ := Option.isSome_iff_exists.mp (h a mem_cons_self)
    rw [filterMap_cons_some hb, map_cons, map_cons, hb,
      ih fun x hx => h x (mem_cons_of_mem a hx)]

theorem compact_renumbering {ρ : Renumbering} (h : c.compact = some (ρ, c')) :
    ρ = c.renumbering := by
  simp only [Cfg.compact, Option.bind_eq_bind, Option.bind_eq_some_iff] at h
  obtain ⟨_, _, _, _, _, _, heq⟩ := h
  cases heq
  rfl

theorem Faithful.thenRenumbered (h : Faithful c c' R) :
    LooksUp c'.renumbering R (R.thenRenumbered c'.renumbering) := by
  have hnode : ∀ l : List Nat, (∀ y ∈ l, c'.containsBlock y) →
      (l.filterMap c'.renumbering.node).map some = l.map c'.renumbering.node := by
    intro l hl
    refine map_some_filterMap fun y hy => ?_
    simp [Cfg.renumbering, hl y hy]
  have hedge : ∀ l : List Nat, (∀ y ∈ l, c'.containsEdge y) →
      (l.filterMap c'.renumbering.edge).map some = l.map c'.renumbering.edge := by
    intro l hl
    refine map_some_filterMap fun y hy => ?_
    simp [Cfg.renumbering, hl y hy]
  constructor
  · intro b
    cases hb : R.blocks b with
    | none => simp [Rewrite.thenRenumbered, hb]
    | some l =>
      simp only [Rewrite.thenRenumbered, hb, Option.map_some]
      rw [hnode l (h.block_replaced b l hb)]
  · intro e
    cases he : R.edges e with
    | none => simp [Rewrite.thenRenumbered, he]
    | some l =>
      simp only [Rewrite.thenRenumbered, he, Option.map_some]
      rw [hedge l (h.edge_replaced e l he)]
  · exact hnode _ fun y hy => ((h.created_blocks y).mp hy).1
  · exact hedge _ fun y hy => ((h.created_edges y).mp hy).1

/-! ## Redirections -/

variable {points : List (Nat × π)} {kept : List Nat} {fuel old total : Nat} {record : Option Rewrite}

theorem Records.ofEdges {gone : List Nat} (hblock : ∀ i, c'.block i = c.block i)
    (hbound : c'.blockBound = c.blockBound) (he : Rewires c gone kept c')
    (hR : RecordsEdges .new gone kept R) (hRb : R.blocks = fun _ => none)
    (hRc : R.createdBlocks = []) : Records c c' R where
  blocks := by
    have haxis : c'.blockAxis = c.blockAxis := by
      unfold Cfg.blockAxis
      simp only [Cfg.containsBlock, hblock, hbound]
    rw [haxis, hRb, hRc]
    exact .refl _
  edges := ((Records.refl c).rewire rfl he hR).1
  edges_self := ((Records.refl c).rewire rfl he hR).2.1
  endpoints := ((Records.refl c).rewire rfl he hR).2.2

theorem recordsEdges_kept (kept : List Nat) :
    RecordsEdges .new [] kept (Rewrite.new.recordKept kept) where
  edges := by
    intro e
    rw [Rewrite.edges_recordKept]
    simp
  createdEdges := Rewrite.createdEdges_recordKept _ _

theorem freshAt_new (k : Nat) : FreshAt k Rewrite.new.blocks := fun _ _ _ hl => by cases hl

theorem redirectEdgesToMapped_records (hc : c.WF) (hrun : c.redirectEdgesToMapped old new = some (c', R)) :
    c'.WF ∧ Records c c' R ∧ ∀ k, FreshAt k R.blocks := by
  obtain ⟨c₁, hc₁, heq⟩ := Option.map_eq_some_iff.mp hrun
  obtain ⟨hwf, _, hblock, hedge, hbound, hebound⟩ := Cfg.redirectEdgesTo_spec hc hc₁
  cases heq
  split
  · next heq =>
    rw [Cfg.redirectEdgesTo, if_pos heq] at hc₁
    cases hc₁
    exact ⟨hc, .refl c, freshAt_new⟩
  · have hlive : ∀ e, c'.containsEdge e ↔ c.containsEdge e := by
      intro e
      simp [Cfg.containsEdge, hedge]
    have hrewires : Rewires c [] (c.incoming old) c' := by
      refine ⟨hebound, ?_, fun e he => (by cases he), ?_, ?_⟩
      · intro e
        simp [hlive]
      · intro e he
        obtain ⟨r, hr, _⟩ := hc.mem_incoming.mp he
        exact (hlive e).mpr (Cfg.containsEdge_iff.mpr ⟨r, hr⟩)
      · intro e r hr _ hkept
        have hne : r.target ≠ old := fun ht => hkept (hc.mem_incoming.mpr ⟨r, hr, ht⟩)
        refine ⟨_, by rw [hedge, hr]; rfl, Cfg.source_moveTarget _ _ _, ?_⟩
        rw [Cfg.target_moveTarget, if_neg hne]
    refine ⟨hwf, .ofEdges hblock hbound hrewires (recordsEdges_kept _) ?_ ?_, ?_⟩
    · exact Rewrite.blocks_recordKept _ _
    · exact Rewrite.createdBlocks_recordKept _ _
    · intro k
      rw [Rewrite.blocks_recordKept]
      exact freshAt_new k

theorem redirectEdgeMapped_records {d : TraversalDirection} {e : Nat} (hc : c.WF)
    (hrun : c.redirectEdgeMapped d e new = some (old, c', R)) :
    c'.WF ∧ Records c c' R ∧ ∀ k, FreshAt k R.blocks := by
  obtain ⟨⟨old₁, c₁⟩, hc₁, heq⟩ := Option.map_eq_some_iff.mp hrun
  obtain ⟨hwf, _, hblock, hbound, hebound, r, hr, hold, hcase⟩ := Cfg.redirectEdge_spec hc hc₁
  cases heq
  split
  · next heq =>
    rcases hcase with ⟨_, rfl⟩ | ⟨hne, _⟩
    · exact ⟨hc, .refl _, freshAt_new⟩
    · exact absurd heq hne
  next hne =>
  rcases hcase with ⟨heq, _⟩ | ⟨_, hedge⟩
  · exact absurd heq hne
  have hlive : ∀ i, c'.containsEdge i ↔ c.containsEdge i := by
    intro i
    by_cases hi : i = e
    · subst hi
      simp [Cfg.containsEdge, hedge, hr]
    · simp [Cfg.containsEdge, hedge, hi]
  have hrewires : Rewires c [] [e] c' := by
    refine ⟨hebound, ?_, fun i hi => (by cases hi), ?_, ?_⟩
    · intro i
      simp [hlive]
    · intro i hi
      obtain rfl := mem_singleton.mp hi
      exact (hlive i).mpr (Cfg.containsEdge_iff.mpr ⟨r, hr⟩)
    · intro i r' hr' _ hkept
      have hie : i ≠ e := fun hi => hkept (mem_singleton.mpr hi)
      exact ⟨r', by rw [hedge, if_neg hie, hr'], rfl, rfl⟩
  exact ⟨hwf, .ofEdges hblock hbound hrewires (recordsEdges_kept [e]) rfl rfl, freshAt_new⟩

/-! ## Splitting -/

theorem records_split {edge : Nat} (hR : R = (((Rewrite.new.recordBlock id [id, new]).recordCreatedBlock new).recordKept
      kept).recordCreatedEdge edge) :
    (∀ b, R.blocks b = if b = id then some (unique [id, new]) else none) ∧
      (∀ e, R.edges e = if e ∈ kept then some [e] else none) ∧
      R.createdBlocks = [new] ∧ R.createdEdges = [edge] := by
  subst hR
  refine ⟨?_, ?_, ?_, ?_⟩
  · intro b
    simp only [Rewrite.recordCreatedEdge, Rewrite.blocks_recordKept, Rewrite.recordCreatedBlock,
      Rewrite.recordBlock, Function.update_apply, Rewrite.new]
  · intro e
    simp only [Rewrite.recordCreatedEdge, Rewrite.edges_recordKept]
    rfl
  · simp only [Rewrite.recordCreatedEdge, Rewrite.createdBlocks_recordKept]
    rfl
  · simp only [Rewrite.recordCreatedEdge, Rewrite.createdEdges_recordKept]
    rfl

theorem splitBlockWithPayloadInner_records {index : Nat} {payload : π} (hc : c.WF)
    (hrun : c.splitBlockWithPayloadInner id index payload (some .new) = some (new, c', some R)) :
    new = c.blockBound ∧ c'.WF ∧ Records c c' R ∧ ∀ k, FreshAt k R.blocks := by
  obtain ⟨rfl, ⟨b, hsplit⟩, hR⟩ := Cfg.splitBlockWithPayloadInner_spec hc hrun
  obtain ⟨hblocks, hedges, hcb, hce⟩ := records_split (Option.some.inj hR)
  have hid : id < c.blockBound := Cfg.block_lt (by simp [Cfg.containsBlock, hsplit.head])
  have hlive : ∀ i, c'.containsBlock i ↔ i = c.blockBound ∨ c.containsBlock i := by
    intro i
    simp only [Cfg.containsBlock, hsplit.block]
    by_cases hi : i = c.blockBound
    · simp [hi]
    · by_cases hii : i = id
      · subst hii
        simp [hi, hsplit.head]
      · simp [hi, hii]
  have hliveE : ∀ e, c'.containsEdge e ↔ e = c.edgeBound ∨ c.containsEdge e := by
    intro e
    simp only [Cfg.containsEdge, hsplit.edge]
    by_cases he : e = c.edgeBound <;> simp [he]
  have hkept : ∀ e ∈ c'.outgoing c.blockBound, c'.containsEdge e := by
    intro e he
    obtain ⟨r, hr, _⟩ := hsplit.wf.mem_outgoing.mp he
    exact Cfg.containsEdge_iff.mpr ⟨r, hr⟩
  refine ⟨rfl, hsplit.wf, ⟨?_, ?_, ?_, ?_⟩, ?_⟩
  · refine ⟨?_, ?_, ?_, ?_, ?_, ?_, ?_⟩
    · change c.blockBound ≤ c'.blockBound
      rw [hsplit.blockBound]
      omega
    · intro x l hl
      change x < c'.blockBound
      rw [hblocks] at hl
      split at hl
      · next hx => rw [hx, hsplit.blockBound]; omega
      · cases hl
    · intro x hx _
      exact (hlive x).mpr (Or.inr hx)
    · intro x l hl y hy
      rw [hblocks] at hl
      split at hl
      · cases hl
        rw [mem_unique, mem_pair] at hy
        rcases hy with rfl | rfl
        · exact (hlive y).mpr (Or.inr (by simp [Cfg.containsBlock, hsplit.head]))
        · exact (hlive _).mpr (Or.inl rfl)
      · cases hl
    · intro x l _ hl
      rw [hblocks] at hl
      split at hl
      · next hx =>
        cases hl
        simp [hx]
      · cases hl
    · intro x
      rw [hcb, mem_singleton]
      change x = c.blockBound ↔ c'.containsBlock x ∧ c.blockBound ≤ x
      rw [hlive]
      constructor
      · rintro rfl
        exact ⟨Or.inl rfl, Nat.le_refl _⟩
      · rintro ⟨rfl | hx, hle⟩
        · rfl
        · have := Cfg.block_lt hx
          omega
    · intro x hx hlt
      rcases (hlive x).mp hx with rfl | hx
      · exact absurd hlt (Nat.lt_irrefl _)
      · exact hx
  · refine ⟨?_, ?_, ?_, ?_, ?_, ?_, ?_⟩
    · change c.edgeBound ≤ c'.edgeBound
      rw [hsplit.edgeBound]
      omega
    · intro x l hl
      rw [hedges] at hl
      split at hl
      · next hx => exact c'.edgeAxis.lt x (hkept x hx)
      · cases hl
    · intro x hx _
      exact (hliveE x).mpr (Or.inr hx)
    · intro x l hl y hy
      rw [hedges] at hl
      split at hl
      · next hx =>
        cases hl
        obtain rfl := mem_singleton.mp hy
        exact hkept y hx
      · cases hl
    · intro x l _ hl
      rw [hedges] at hl
      split at hl
      · cases hl
        exact mem_singleton_self x
      · cases hl
    · intro x
      rw [hce, mem_singleton]
      change x = c.edgeBound ↔ c'.containsEdge x ∧ c.edgeBound ≤ x
      rw [hliveE]
      constructor
      · rintro rfl
        exact ⟨Or.inl rfl, Nat.le_refl _⟩
      · rintro ⟨rfl | hx, hle⟩
        · rfl
        · have : x < c.edgeBound := c.edgeAxis.lt x hx
          omega
    · intro x hx hlt
      rcases (hliveE x).mp hx with rfl | hx
      · exact absurd hlt (Nat.lt_irrefl _)
      · exact hx
  · intro e l hl y hy
    rw [hedges] at hl
    split at hl
    · cases hl
      exact mem_singleton.mp hy
    · cases hl
  · intro e r hr hnone
    have hlt : e < c.edgeBound := Cfg.edge_lt hr
    have hr' : c'.edge e = some (Cfg.moveSource id c.blockBound r) := by
      rw [hsplit.edge, if_neg (Nat.ne_of_lt hlt), hr]
      rfl
    have hne : r.source ≠ id := by
      intro hs
      have hmem : e ∈ c'.outgoing c.blockBound := by
        refine hsplit.wf.mem_outgoing.mpr ⟨_, hr', ?_⟩
        rw [Cfg.source_moveSource, if_pos hs]
      rw [hedges, if_pos hmem] at hnone
      cases hnone
    refine ⟨_, hr', ?_, Cfg.target_moveSource _ _ _⟩
    rw [Cfg.source_moveSource, if_neg hne]
  · -- the block split and its new tail are at most as old as the block itself
    intro k x l hx hl y hy
    rw [hblocks] at hl
    split at hl
    · next hxid =>
      cases hl
      rw [mem_unique, mem_pair] at hy
      omega
    · cases hl

theorem splitAtPoints_records {current base : Nat}
    {blocks blocks' : List Nat} (hc : c.WF) (h : Records c₀ c R) (hf : ∀ k, FreshAt k R.blocks)
    (hrun : Cfg.splitAtPoints c current base points blocks R = some (blocks', R', c')) :
    c'.WF ∧ Records c₀ c' R' ∧ ∀ k, FreshAt k R'.blocks := by
  induction points generalizing c R current base blocks with
  | nil =>
    cases hrun
    exact ⟨hc, h, hf⟩
  | cons point points ih =>
    obtain ⟨point, payload⟩ := point
    unfold Cfg.splitAtPoints at hrun
    simp only [Option.bind_eq_bind, Option.bind_eq_some_iff, Prod.exists] at hrun
    obtain ⟨tail, c₁, split, hsplit, next, rfl, hrun⟩ := hrun
    obtain ⟨_, hwf₁, h₁, hf₁⟩ := splitBlockWithPayloadInner_records hc hsplit
    exact ih hwf₁ (h.compose h₁ (hf _) (hf₁ _)) (fun k => (hf k).compose (hf₁ k)) hrun

theorem splitBlockAtPoints_records {result : Except SplitPointError (List Nat × Rewrite)} (hc : c.WF)
    (hrun : c.splitBlockAtPointsWithPayloads id points = some (result, c')) :
    (∃ error, result = .error error ∧ c' = c) ∨
      ∃ blocks R, result = .ok (blocks, R) ∧ c'.WF ∧ Records c c' R ∧ ∀ k, FreshAt k R.blocks := by
  simp only [Cfg.splitBlockAtPointsWithPayloads, Option.bind_eq_bind,
    Option.bind_eq_some_iff] at hrun
  obtain ⟨block, _, hrun⟩ := hrun
  split at hrun
  · next error _ =>
    cases hrun
    exact Or.inl ⟨error, rfl, rfl⟩
  · simp only [Option.bind_eq_some_iff, Prod.exists] at hrun
    obtain ⟨blocks, R, c₁, hsplit, heq⟩ := hrun
    cases heq
    exact Or.inr ⟨blocks, R, rfl, splitAtPoints_records hc (.refl c) freshAt_new hsplit⟩

/-! ## Passes -/

/-- What a pass that allocates nothing has done, seen from block `k` on. -/
structure Stable (k : Nat) (c c' : Cfg ι π) (R : Rewrite) : Prop where
  wf : c'.WF
  records : Records c c' R
  blockBound : c'.blockBound = c.blockBound
  freshAt : FreshAt k R.blocks

theorem Stable.init (k : Nat) (hc : c.WF) : Stable k c c .new :=
  ⟨hc, .refl c, rfl, freshAt_new k⟩

theorem Stable.compose {c'' : Cfg ι π} (h : Stable k c c' R)
    (h' : Stable k c' c'' R') : Stable k c c'' (R.compose R') where
  wf := h'.wf
  records := by
    refine h.records.compose h'.records (h.records.blocks.freshAt_bound ?_)
      (h'.records.blocks.freshAt_bound ?_)
    · exact Nat.le_of_eq h.blockBound
    · exact Nat.le_of_eq (h'.blockBound.trans h.blockBound)
  blockBound := h'.blockBound.trans h.blockBound
  freshAt := h.freshAt.compose h'.freshAt

theorem Removing.stable (h : Removing c₀ c R) (k : Nat) : Stable k c₀ c R :=
  ⟨h.wf, h.records, h.blockBound, h.freshAt k⟩

theorem Merging.stable {pre done : List Nat} {s : Session ι π} (h : Merging c₀ pre done s R)
    (hfresh : FoldsFresh k s.folds) : Stable k c₀ s.cfg R where
  wf := h.wf
  records := h.records
  blockBound := h.blockBound
  freshAt := by
    intro x l hx hl y hy
    obtain ⟨f, hf, rfl, rfl⟩ := h.entries x l hl
    rw [mem_singleton.mp hy]
    exact hfresh f hf hx

variable {s s' : Session ι π} {n : Nat}

theorem Ran.folds_subset (h : Ran n s s') : s.folds ⊆ s'.folds := by
  obtain ⟨_, fs, hfs, _⟩ := h
  rw [hfs]
  exact subset_append_left _ _

theorem simplifyRound_stable (hmap : s.mapping = some R) (h : Stable k c₀ s.cfg R)
    (hrun : simplifyRound s = some (n, s')) (hfresh : FoldsFresh k s'.folds) :
    ∃ R', s'.mapping = some R' ∧ Stable k c₀ s'.cfg R' := by
  obtain ⟨n₁, c₁, um, n₂, s₂, em, n₃, s₃, mm, hun, hedits, hempty, hran₂, hem, hmerge, hran₃, hmm,
    hround⟩ := simplifyRound_parts h.wf
  rw [hround] at hrun
  cases hrun
  have h₁ := (removeUnreachableMapped_removing h.wf hun).stable k
  obtain ⟨R₂, hR₂, hremoving, _⟩ := removeEmptyBlocksInner_removing h₁.wf hempty
  obtain rfl : em = R₂ := Option.some.inj (hem.symm.trans hR₂)
  have h₂ := hremoving.stable k
  obtain ⟨order, R₃, hmerging⟩ := mergeBlocksInner_merging h₂.wf hmerge
  obtain rfl : mm = R₃ := Option.some.inj (hmm.symm.trans hmerging.mapping)
  exact ⟨_, by rw [hmap]; rfl, ((h.compose h₁).compose h₂).compose (hmerging.stable hfresh)⟩

theorem simplifyLoop_folds (hs : s.cfg.WF) (hrun : simplifyLoop fuel total s = some (n, s')) : s.folds ⊆ s'.folds := by
  induction fuel generalizing s total with
  | zero => cases hrun
  | succ fuel ih =>
    obtain ⟨round, s₁, hround, hran⟩ := simplifyRound_ran hs
    unfold simplifyLoop at hrun
    simp only [Option.bind_eq_bind, hround, Option.bind_some] at hrun
    split at hrun
    · cases hrun
      exact hran.folds_subset
    · exact List.Subset.trans hran.folds_subset (ih (hran.wf hs) hrun)

theorem simplifyLoop_stable (hmap : s.mapping = some R)
    (h : Stable k c₀ s.cfg R) (hrun : simplifyLoop fuel total s = some (n, s'))
    (hfresh : FoldsFresh k s'.folds) : ∃ R', s'.mapping = some R' ∧ Stable k c₀ s'.cfg R' := by
  induction fuel generalizing s R total with
  | zero => cases hrun
  | succ fuel ih =>
    obtain ⟨round, s₁, hround, hran⟩ := simplifyRound_ran h.wf
    unfold simplifyLoop at hrun
    simp only [Option.bind_eq_bind, hround, Option.bind_some] at hrun
    split at hrun
    · cases hrun
      exact simplifyRound_stable hmap h hround hfresh
    · have hsub := simplifyLoop_folds (hran.wf h.wf) hrun
      obtain ⟨R₁, hR₁, h₁⟩ := simplifyRound_stable hmap h hround (hfresh.of_subset hsub)
      exact ih hR₁ h₁ hrun

/-! ## Any run -/

/-- What one command does: no record and no change, or a record that is true. -/
def Reports (k : Nat) (c : Cfg ι π) (record : Option Rewrite) (c' : Cfg ι π) : Prop :=
  (record = none ∧ c' = c) ∨ ∃ R, record = some R ∧ c'.WF ∧ Records c c' R ∧ FreshAt k R.blocks

theorem Stable.reports (h : Stable k c c' R) : Reports k c (some R) c' :=
  Or.inr ⟨R, rfl, h.wf, h.records, h.freshAt⟩

theorem contractEdgeInner_reports {source target : Nat} {happened : Bool} (hc : c.WF)
    (hrun : contractEdgeInner ⟨c, some .new, folds⟩ source target = some (happened, s))
    (hfresh : FoldsFresh k s.folds) : Reports k c (if happened then s.mapping else none) s.cfg := by
  rcases contractEdgeInner_spec (s := ⟨c, some .new, folds⟩) hc source target with
    hno | ⟨s', connecting, sb, tb, moved, hyes, hfold, hmoved, hmap, hfolds⟩
  · rw [hno] at hrun
    cases hrun
    exact Or.inl ⟨rfl, rfl⟩
  · rw [hyes] at hrun
    cases hrun
    have hR := recordsEdit_fold .new target source (hfold.connecting_not_moved hmoved)
    have hrecords := (Records.refl c).edit rfl rfl (hfold.retires hmoved) hR
      fun _ _ hl => by cases hl
    refine Or.inr ⟨_, hmap, hfold.wf, hrecords, ?_⟩
    intro x l hx hl y hy
    rw [hR.blocks] at hl
    split at hl
    · next hxt =>
      cases hl
      have hmem : (⟨c, source, target⟩ : Fold ι π) ∈ s.folds := by simp [hfolds]
      rw [mem_unique, mem_singleton] at hy
      exact hy ▸ hfresh _ hmem (hxt ▸ hx)
    · cases hl

theorem removeBlockMapped_reports {removed : Bool} (hc : c.WF)
    (hrun : c.removeBlockMapped id = some (removed, c', R)) : Reports k c (some R) c' :=
  (((Removing.init hc).removeBlockRecording hrun).stable k).reports

variable {command : Command π}

theorem Command.apply_folds (hc : c.WF)
    (hrun : command.apply c folds = some (record, c', folds')) : folds ⊆ folds' := by
  cases command with
  | removeBlock id =>
    obtain ⟨_, _, heq⟩ := Option.map_eq_some_iff.mp hrun
    cases heq
    exact List.Subset.refl _
  | splitBlockAtPoints id points =>
    obtain ⟨_, _, heq⟩ := Option.map_eq_some_iff.mp hrun
    cases heq
    exact List.Subset.refl _
  | contractEdge source target =>
    obtain ⟨⟨happened, s⟩, hs, heq⟩ := Option.map_eq_some_iff.mp hrun
    obtain ⟨_, _, hrun', hran⟩ :=
      contractEdgeInner_ran (s := ⟨c, some .new, folds⟩) hc source target
    rw [hrun'] at hs
    cases hs
    cases heq
    exact hran.folds_subset
  | mergeBlocks =>
    obtain ⟨⟨n, s⟩, hs, heq⟩ := Option.map_eq_some_iff.mp hrun
    obtain ⟨_, _, hrun', hran⟩ := mergeBlocksInner_ran (s := ⟨c, some .new, folds⟩) hc
    rw [hrun'] at hs
    cases hs
    cases heq
    exact hran.folds_subset
  | removeEmptyBlocks =>
    obtain ⟨⟨n, s⟩, hs, heq⟩ := Option.map_eq_some_iff.mp hrun
    obtain ⟨_, _, hrun', hran⟩ := removeEmptyBlocksInner_ran (s := ⟨c, some .new, folds⟩) hc
    rw [hrun'] at hs
    cases hs
    cases heq
    exact hran.folds_subset
  | removeUnreachable =>
    obtain ⟨_, _, heq⟩ := Option.map_eq_some_iff.mp hrun
    cases heq
    exact List.Subset.refl _
  | simplify =>
    obtain ⟨⟨n, s⟩, hs, heq⟩ := Option.map_eq_some_iff.mp hrun
    obtain ⟨_, _, hrun', hran⟩ := simplifyInner_ran (s := ⟨c, some .new, folds⟩) hc
    rw [hrun'] at hs
    cases hs
    cases heq
    exact hran.folds_subset
  | redirectEdgesTo old new =>
    obtain ⟨_, _, heq⟩ := Option.map_eq_some_iff.mp hrun
    cases heq
    exact List.Subset.refl _
  | redirectEdgeSource edge new =>
    obtain ⟨_, _, heq⟩ := Option.map_eq_some_iff.mp hrun
    cases heq
    exact List.Subset.refl _
  | redirectEdgeTarget edge new =>
    obtain ⟨_, _, heq⟩ := Option.map_eq_some_iff.mp hrun
    cases heq
    exact List.Subset.refl _

theorem Command.apply_reports (hc : c.WF)
    (hrun : command.apply c folds = some (record, c', folds')) (hfresh : FoldsFresh k folds') :
    Reports k c record c' := by
  cases command with
  | removeBlock id =>
    obtain ⟨⟨removed, c₁, R⟩, hs, heq⟩ := Option.map_eq_some_iff.mp hrun
    cases heq
    exact removeBlockMapped_reports hc hs
  | splitBlockAtPoints id points =>
    obtain ⟨⟨result, c₁⟩, hs, heq⟩ := Option.map_eq_some_iff.mp hrun
    cases heq
    rcases splitBlockAtPoints_records hc hs with
      ⟨error, rfl, rfl⟩ | ⟨blocks, R, rfl, hwf, hrecords, hf⟩
    · exact Or.inl ⟨rfl, rfl⟩
    · exact Or.inr ⟨R, rfl, hwf, hrecords, hf k⟩
  | contractEdge source target =>
    obtain ⟨⟨happened, s⟩, hs, heq⟩ := Option.map_eq_some_iff.mp hrun
    cases heq
    exact contractEdgeInner_reports hc hs hfresh
  | mergeBlocks =>
    obtain ⟨⟨n, s⟩, hs, heq⟩ := Option.map_eq_some_iff.mp hrun
    obtain ⟨order, R, hmerging⟩ := mergeBlocksInner_merging hc hs
    cases heq
    rw [hmerging.mapping]
    exact (hmerging.stable hfresh).reports
  | removeEmptyBlocks =>
    obtain ⟨⟨n, s⟩, hs, heq⟩ := Option.map_eq_some_iff.mp hrun
    obtain ⟨R, hR, hremoving, _⟩ := removeEmptyBlocksInner_removing hc hs
    cases heq
    rw [hR]
    exact (hremoving.stable k).reports
  | removeUnreachable =>
    obtain ⟨⟨n, c₁, R⟩, hs, heq⟩ := Option.map_eq_some_iff.mp hrun
    cases heq
    exact ((removeUnreachableMapped_removing hc hs).stable k).reports
  | simplify =>
    obtain ⟨⟨n, s⟩, hs, heq⟩ := Option.map_eq_some_iff.mp hrun
    cases heq
    obtain ⟨R, hR, hstable⟩ := simplifyLoop_stable (s := ⟨c, some .new, folds⟩) rfl
      (Stable.init k hc) hs hfresh
    rw [hR]
    exact hstable.reports
  | redirectEdgesTo old new =>
    obtain ⟨⟨c₁, R⟩, hs, heq⟩ := Option.map_eq_some_iff.mp hrun
    cases heq
    obtain ⟨hwf, hrecords, hf⟩ := redirectEdgesToMapped_records hc hs
    exact Or.inr ⟨R, rfl, hwf, hrecords, hf k⟩
  | redirectEdgeSource edge new =>
    obtain ⟨⟨old, c₁, R⟩, hs, heq⟩ := Option.map_eq_some_iff.mp hrun
    cases heq
    obtain ⟨hwf, hrecords, hf⟩ := redirectEdgeMapped_records hc hs
    exact Or.inr ⟨R, rfl, hwf, hrecords, hf k⟩
  | redirectEdgeTarget edge new =>
    obtain ⟨⟨old, c₁, R⟩, hs, heq⟩ := Option.map_eq_some_iff.mp hrun
    cases heq
    obtain ⟨hwf, hrecords, hf⟩ := redirectEdgeMapped_records hc hs
    exact Or.inr ⟨R, rfl, hwf, hrecords, hf k⟩

/-- A run whose folds are fresh, at some point of its way. -/
structure Faithfully (c₀ : Cfg ι π) (s : History ι π) : Prop where
  wf : s.cfg.WF
  records : Records c₀ s.cfg s.rewrite
  freshAt : FreshAt c₀.blockBound s.rewrite.blocks

variable {h h' : History ι π}

theorem History.run_folds (hc : h.cfg.WF) (hrun : h.run command = some h') : h.folds ⊆ h'.folds := by
  simp only [History.run, Option.bind_eq_bind, Option.bind_eq_some_iff, Prod.exists] at hrun
  obtain ⟨record, c', folds', happly, heq⟩ := hrun
  cases heq
  exact Command.apply_folds hc happly

theorem Faithfully.run (hs : Faithfully c₀ h)
    (hrun : h.run command = some h') (hfresh : FoldsFresh c₀.blockBound h'.folds) :
    Faithfully c₀ h' := by
  simp only [History.run, Option.bind_eq_bind, Option.bind_eq_some_iff, Prod.exists] at hrun
  obtain ⟨record, c', folds', happly, heq⟩ := hrun
  cases heq
  rcases Command.apply_reports hs.wf happly hfresh with
    ⟨rfl, rfl⟩ | ⟨R, rfl, hwf, hrecords, hf⟩
  · exact ⟨hs.wf, hs.records, hs.freshAt⟩
  · exact ⟨hwf, hs.records.compose hrecords hs.freshAt hf, hs.freshAt.compose hf⟩

theorem exists_foldsFresh (folds : List (Fold ι π)) : ∃ k, FoldsFresh k folds := by
  have hbound : ∃ k, ∀ f ∈ folds, f.target < k := by
    induction folds with
    | nil => exact ⟨0, fun _ hf => by cases hf⟩
    | cons f folds ih =>
      obtain ⟨k, hk⟩ := ih
      refine ⟨max k (f.target + 1), ?_⟩
      intro g hg
      rcases mem_cons.mp hg with rfl | hg
      · omega
      · have := hk g hg
        omega
  obtain ⟨k, hk⟩ := hbound
  exact ⟨k, fun f hf hle => absurd (hk f hf) (by omega)⟩

theorem History.wf_run (hc : h.cfg.WF) (hrun : h.run command = some h') : h'.cfg.WF := by
  simp only [History.run, Option.bind_eq_bind, Option.bind_eq_some_iff, Prod.exists] at hrun
  obtain ⟨record, c', folds', happly, heq⟩ := hrun
  cases heq
  obtain ⟨k, hk⟩ := exists_foldsFresh folds'
  rcases Command.apply_reports hc happly hk with ⟨_, rfl⟩ | ⟨R, _, hwf, _⟩
  · exact hc
  · exact hwf

variable {commands : List (Command π)}

theorem runFrom_folds (hc : h.cfg.WF) (hrun : commands.foldlM History.run h = some h') : h.folds ⊆ h'.folds := by
  induction commands generalizing h with
  | nil =>
    cases hrun
    exact List.Subset.refl _
  | cons command commands ih =>
    rw [foldlM_cons] at hrun
    obtain ⟨h₁, hstep, hrest⟩ := Option.bind_eq_some_iff.mp hrun
    exact List.Subset.trans (History.run_folds hc hstep) (ih (History.wf_run hc hstep) hrest)

theorem Faithfully.runFrom (hs : Faithfully c₀ h) (hrun : commands.foldlM History.run h = some h')
    (hfresh : FoldsFresh c₀.blockBound h'.folds) : Faithfully c₀ h' := by
  induction commands generalizing h with
  | nil =>
    cases hrun
    exact hs
  | cons command commands ih =>
    rw [foldlM_cons] at hrun
    obtain ⟨h₁, hstep, hrest⟩ := Option.bind_eq_some_iff.mp hrun
    have hsub := runFrom_folds (History.wf_run hs.wf hstep) hrest
    exact ih (hs.run hstep (hfresh.of_subset hsub)) hrest

/-- In a run in which no contraction folds a block allocated since the start into
an older one, the composed record is faithful, and carrying it across a
compaction looks every identity up. -/
theorem runCommands_faithful {commands : List (Command π)} (hc : c.WF)
    (hrun : runCommands c commands = some h) (hfresh : FoldsFresh c.blockBound h.folds) :
    Faithful c h.cfg h.rewrite ∧ ∀ ρ c', h.cfg.compact = some (ρ, c') →
      LooksUp ρ h.rewrite (h.rewrite.thenRenumbered ρ) := by
  have hfaithful := Faithfully.runFrom ⟨hc, .refl c, freshAt_new _⟩ hrun hfresh
  refine ⟨hfaithful.records.faithful, ?_⟩
  intro ρ c' hcompact
  rw [compact_renumbering hcompact]
  exact hfaithful.records.faithful.thenRenumbered

/-- A block that falls through to a block of two instructions. -/
def fallingPair : Cfg Nat Unit := Cfg.ofParts [[1], [2, 3]] [(0, 1, .fallthrough, ())]

theorem wf_fallingPair : fallingPair.WF := Cfg.wf_ofParts rfl

/-- Merging old blocks and splitting the result again. -/
theorem runCommands_faithful_fallingPair :
    ∃ h, runCommands fallingPair [.mergeBlocks, .splitBlockAtPoints 0 [(2, ())]] = some h ∧
      Faithful fallingPair h.cfg h.rewrite ∧ ∀ ρ c', h.cfg.compact = some (ρ, c') →
        LooksUp ρ h.rewrite (h.rewrite.thenRenumbered ρ) := by
  obtain ⟨h, hrun⟩ : ∃ h, runCommands fallingPair
      [.mergeBlocks, .splitBlockAtPoints 0 [(2, ())]] = some h := ⟨_, rfl⟩
  refine ⟨h, hrun, runCommands_faithful wf_fallingPair hrun ?_⟩
  have hfolds : h.folds = [⟨fallingPair, 0, 1⟩] := by
    cases hrun
    rfl
  intro f hf hle
  rw [hfolds] at hf
  obtain rfl := mem_singleton.mp hf
  exact absurd hle (by decide)

/-- Folding the new half of a split back lists the old block as created. -/
theorem contract_fallingPair_lists_old_as_created :
    ∃ h, runCommands fallingPair [.splitBlockAtPoints 1 [(1, ())], .contractEdge 1 2] = some h ∧
      1 ∈ h.rewrite.createdBlocks ∧ ¬ Faithful fallingPair h.cfg h.rewrite := by
  have hmem : ∀ h : History Nat Unit,
      runCommands fallingPair [.splitBlockAtPoints 1 [(1, ())], .contractEdge 1 2] = some h →
      1 ∈ h.rewrite.createdBlocks := by
    rintro _ ⟨⟩
    decide
  refine ⟨_, rfl, hmem _ rfl, ?_⟩
  intro hfaithful
  have hlt := ((hfaithful.created_blocks 1).mp (hmem _ rfl)).2
  exact absurd hlt (by decide)

end CfgLib.Transform

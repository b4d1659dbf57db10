import CfgLib.Transform.SplitCover

/-!
# Exception metadata across node splitting

`duplicate_block` of `transform/loops.rs` puts a copy into every region and every
known handler body of the block it copies; `split_cycle` does not.  So walks keep
their protection exactly when no round copies a block the metadata places.
-/

namespace CfgLib.Cfg

open CfgLib.Lib List

variable {ι π : Type} {c c' : Cfg ι π}

/-! ## Walks -/

structure IsWalk (c : Cfg ι π) (blocks : List Nat) : Prop where
  head : blocks.head? = some c.entry
  chain : blocks.IsChain fun b t => ∃ payload, c.HasEdge ⟨b, t, payload⟩

/-- Per block of a walk, its code and where the exception metadata places it. -/
def passage (c : Cfg ι π) (blocks : List Nat) : List (List ι × List (Bool × List (Option Bool))) :=
  blocks.map fun b => (c.instructions b, c.placement b)

variable {blocks copied : List Nat} {b b' : Nat} {original : Nat → Nat}

theorem live_of_chain (hc : c.WF) (hb : c.containsBlock b)
    (h : (b :: blocks).IsChain fun b t => ∃ payload, c.HasEdge ⟨b, t, payload⟩) :
    ∀ t ∈ b :: blocks, c.containsBlock t := by
  induction blocks generalizing b with
  | nil =>
    intro t ht
    rw [mem_singleton.mp ht]
    exact hb
  | cons next rest ih =>
    rw [isChain_cons_cons] at h
    obtain ⟨⟨payload, e, he⟩, hrest⟩ := h
    intro t ht
    rcases mem_cons.mp ht with rfl | ht
    · exact hb
    · exact ih (hc.target_live he) hrest t ht

theorem IsWalk.live (hc : c.WF) (h : c.IsWalk blocks) : ∀ b ∈ blocks, c.containsBlock b := by
  obtain ⟨hhead, hchain⟩ := h
  cases blocks with
  | nil => cases hhead
  | cons b rest =>
    cases Option.some.inj hhead
    exact live_of_chain hc hc.entry hchain

structure Mirrors (c c' : Cfg ι π) (original : Nat → Nat) : Prop where
  wf : c'.WF
  entry : c'.entry = c.entry
  original_entry : original c.entry = c.entry
  edge : ∀ a b, (∃ payload, c'.HasEdge ⟨a, b, payload⟩) → ∃ payload, c.HasEdge ⟨original a, original b, payload⟩
  lift : ∀ a t, c'.containsBlock a → (∃ payload, c.HasEdge ⟨original a, t, payload⟩) →
    ∃ b, (∃ payload, c'.HasEdge ⟨a, b, payload⟩) ∧ original b = t

theorem Covers.mirrors (h : Covers c c' original) : Mirrors c c' original where
  wf := h.wf
  entry := h.entry
  original_entry := h.original_entry
  edge a b he := by
    obtain ⟨payload, he⟩ := he
    exact ⟨payload, h.edge _ he⟩
  lift a t ha he := by
    obtain ⟨payload, he⟩ := he
    obtain ⟨b, hb, heq⟩ := h.lift a ha _ he rfl
    exact ⟨b, ⟨payload, hb⟩, heq⟩

theorem Mirrors.isWalk (h : Mirrors c c' original) (hw : c'.IsWalk blocks) : c.IsWalk (blocks.map original) := by
  constructor
  · rw [head?_map, hw.head, Option.map_some, h.entry, h.original_entry]
  · rw [isChain_map]
    exact hw.chain.imp fun b t he => h.edge b t he

theorem Mirrors.exists_chain (h : Mirrors c c' original) (hb : c'.containsBlock b)
    (hchain : (original b :: blocks).IsChain fun b t => ∃ payload, c.HasEdge ⟨b, t, payload⟩) :
    ∃ blocks', (b :: blocks').IsChain (fun b t => ∃ payload, c'.HasEdge ⟨b, t, payload⟩) ∧
      blocks'.map original = blocks := by
  induction blocks generalizing b with
  | nil => exact ⟨[], isChain_singleton b, rfl⟩
  | cons next rest ih =>
    rw [isChain_cons_cons] at hchain
    obtain ⟨hedge, hrest⟩ := hchain
    obtain ⟨t, ht, rfl⟩ := h.lift b next hb hedge
    obtain ⟨payload, e, he⟩ := ht
    obtain ⟨blocks', hchain', rfl⟩ := ih (h.wf.target_live he) hrest
    exact ⟨t :: blocks', isChain_cons_cons.mpr ⟨⟨payload, e, he⟩, hchain'⟩, rfl⟩

theorem Mirrors.exists_walk (h : Mirrors c c' original)
    (hw : c.IsWalk blocks) : ∃ blocks', c'.IsWalk blocks' ∧ blocks'.map original = blocks := by
  obtain ⟨hhead, hchain⟩ := hw
  cases blocks with
  | nil => cases hhead
  | cons b rest =>
    cases Option.some.inj hhead
    rw [← h.original_entry, ← h.entry] at hchain
    obtain ⟨blocks', hchain', hmap⟩ := h.exists_chain h.wf.entry hchain
    refine ⟨c'.entry :: blocks', ⟨rfl, hchain'⟩, ?_⟩
    rw [map_cons, hmap, h.entry, h.original_entry]

/-! ## Where the metadata places a block -/

/-- A region protects the block, or a handler body is known to hold it. -/
def Marked (c : Cfg ι π) (b : Nat) : Prop :=
  ∃ region ∈ c.regions, b ∈ region.protectedBlocks ∨
    ∃ handler ∈ region.handlers, ∃ blocks, handler.body = .known blocks ∧ b ∈ blocks

theorem placement_congr (h : c'.regions = c.regions) (b : Nat) : c'.placement b = c.placement b := by
  unfold placement
  rw [h]

theorem placement_eq_iff : c.placement b = c.placement b' ↔
    ∀ region ∈ c.regions, (b ∈ region.protectedBlocks ↔ b' ∈ region.protectedBlocks) ∧
      ∀ handler ∈ region.handlers, ∀ blocks, handler.body = .known blocks →
        (b ∈ blocks ↔ b' ∈ blocks) := by
  unfold placement
  rw [map_inj_left]
  refine forall_congr' fun region => imp_congr_right fun _ => ?_
  rw [Prod.mk.injEq, decide_eq_decide, map_inj_left]
  refine and_congr_right fun _ => forall_congr' fun handler => imp_congr_right fun _ => ?_
  cases handler.body with
  | unknown => simp [HandlerBody.blocks]
  | known blocks => simp [HandlerBody.blocks]

theorem placement_of_not_marked (hb : ¬ c.Marked b) (hb' : ¬ c.Marked b') :
    c.placement b = c.placement b' := by
  rw [placement_eq_iff]
  intro region hregion
  refine ⟨iff_of_false ?_ ?_, ?_⟩
  · exact fun h => hb ⟨region, hregion, Or.inl h⟩
  · exact fun h => hb' ⟨region, hregion, Or.inl h⟩
  · intro handler hhandler blocks hknown
    refine iff_of_false ?_ ?_
    · exact fun h => hb ⟨region, hregion, Or.inr ⟨handler, hhandler, blocks, hknown, h⟩⟩
    · exact fun h => hb' ⟨region, hregion, Or.inr ⟨handler, hhandler, blocks, hknown, h⟩⟩

theorem Marked.of_placement (h : c.Marked b) (heq : c.placement b = c.placement b') :
    c.Marked b' := by
  rw [placement_eq_iff] at heq
  obtain ⟨region, hregion, hmarks⟩ := h
  obtain ⟨hprotected, hbodies⟩ := heq region hregion
  refine ⟨region, hregion, hmarks.imp hprotected.mp ?_⟩
  intro ⟨handler, hhandler, blocks, hknown, hb⟩
  exact ⟨handler, hhandler, blocks, hknown, (hbodies handler hhandler blocks hknown).mp hb⟩

theorem NamesSlots.not_marked (hn : c.NamesSlots) (hb : c.blockBound ≤ b) : ¬ c.Marked b := by
  intro ⟨region, hregion, hmarks⟩
  rcases hmarks with hprotected | ⟨handler, hhandler, blocks, hknown, hbody⟩
  · have := hn.protected_lt region hregion b hprotected
    omega
  · have := hn.body_lt region hregion handler hhandler blocks hknown b hbody
    omega

/-! ## Whole runs -/

/-- The rounds of a run whose graphs, before each round, satisfy `P`; `copied` lists the
blocks copied, each followed by a fresh block for its copy. -/
inductive Rounds (P : Cfg ι π → Prop) : Cfg ι π → List Nat → Cfg ι π → Prop
  | done {c : Cfg ι π} : c.roundCycle = some none → Rounds P c [] c
  | round {c c₁ c' : Cfg ι π} {cycle : MultiEntryCycle} {header : Nat} {region : Nat → Bool}
      {copied rest : List Nat} : P c → c.roundCycle = some (some (cycle, header, region)) →
      c.splitCycle cycle header region = some (copied, c₁) → Rounds P c₁ rest c' →
      Rounds P c (copied ++ rest) c'

/-- No block the next round copies is placed by the metadata. -/
def SplitsUnplaced (c : Cfg ι π) : Prop :=
  ∀ cycle header region, c.roundCycle = some (some (cycle, header, region)) →
    ∀ b ∈ c.blockIds, region b → ¬ c.Marked b

/-- Each copy is placed where the block it copies is, and the walks from the entry pass the
same code with the same placement. -/
structure KeepsMetadata (c : Cfg ι π) (copied : List Nat) (c' : Cfg ι π) : Prop where
  copy : ∀ (i b : Nat), copied[i]? = some b → c'.placement (c.blockBound + i) = c'.placement b
  walk : ∀ passed, (∃ blocks, c'.IsWalk blocks ∧ c'.passage blocks = passed) ↔
    ∃ blocks, c.IsWalk blocks ∧ c.passage blocks = passed

theorem makeReducible_rounds {fuel n : Nat} (h : makeReducible fuel c = some (n, c')) :
    ∃ copied, copied.length = n ∧ Rounds (fun _ => True) c copied c' := by
  induction fuel generalizing c n with
  | zero => cases h
  | succ fuel ih =>
    unfold makeReducible at h
    obtain ⟨found, hfound, h⟩ := Option.bind_eq_some_iff.mp h
    cases found with
    | none =>
      cases h
      exact ⟨[], rfl, .done hfound⟩
    | some found =>
      obtain ⟨cycle, header, region⟩ := found
      obtain ⟨⟨copied, c₁⟩, hsplit, h⟩ := Option.bind_eq_some_iff.mp h
      obtain ⟨⟨duplicated, c₂⟩, hrest, h⟩ := Option.bind_eq_some_iff.mp h
      cases h
      obtain ⟨rest, rfl, hrounds⟩ := ih hrest
      exact ⟨copied ++ rest, length_append, .round trivial hfound hsplit hrounds⟩

theorem marked_congr (h : c'.regions = c.regions) (b : Nat) : c'.Marked b ↔ c.Marked b := by
  unfold Marked
  rw [h]

/-- What a round hands to the next: the metadata names no block of the new graph that the
old one had not. -/
theorem Covers.marked_lt (h : Covers c c' original)
    (hbound : c.blockBound ≤ c'.blockBound) (hm : ∀ b, c.Marked b → b < c.blockBound) :
    ∀ b, c'.Marked b → b < c'.blockBound :=
  fun b hb => (hm b ((marked_congr h.regions b).mp hb)).trans_le hbound

/-- A live block of a split is placed like the block it stands for when no block the
metadata places is copied. -/
theorem placement_originalOf (hm : ∀ b, c.Marked b → b < c.blockBound)
    (hcopied : ∀ b ∈ copied, ¬ c.Marked b) (hb : b < c.blockBound + copied.length) :
    c.placement b = c.placement (originalOf c.blockBound copied b) := by
  by_cases hold : b < c.blockBound
  · rw [originalOf_old copied hold]
  · obtain ⟨x, hx⟩ : ∃ x, copied[b - c.blockBound]? = some x :=
      ⟨_, getElem?_eq_getElem (by omega)⟩
    have horiginal : originalOf c.blockBound copied (c.blockBound + (b - c.blockBound)) = x :=
      originalOf_new hx
    rw [show c.blockBound + (b - c.blockBound) = b by omega] at horiginal
    rw [horiginal]
    exact placement_of_not_marked (fun h => hold (hm b h)) (hcopied x (mem_of_getElem? hx))

/-- Rounds that copy no placed block cover the graph, placements included. -/
theorem Rounds.keeps (h : Rounds SplitsUnplaced c copied c') (hc : c.WF)
    (hm : ∀ b, c.Marked b → b < c.blockBound) : (∀ b ∈ copied, ¬ c.Marked b) ∧
      ∃ original, Covers c c' original ∧
        ∀ b, c'.containsBlock b → c.placement b = c.placement (original b) := by
  induction h with
  | done => exact ⟨fun b hb => (by cases hb), id, Covers.refl hc, fun _ _ => rfl⟩
  | @round c c₁ c' cycle header region copied rest hp hfound hsplit _ ih =>
    obtain ⟨hlist, hbound, _, hcovers⟩ := splitCycle_spec hc hsplit
    obtain ⟨hrest, original, hcovers', hplace⟩ := ih hcovers.wf
      (hcovers.marked_lt (by omega) hm)
    have hcopied : ∀ b ∈ copied, ¬ c.Marked b := by
      intro b hb
      rw [hlist, mem_filter] at hb
      exact hp cycle header region hfound b hb.1 hb.2
    refine ⟨?_, _, hcovers.trans hcovers', ?_⟩
    · intro b hb
      rcases mem_append.mp hb with hb | hb
      · exact hcopied b hb
      · rw [← marked_congr hcovers.regions]
        exact hrest b hb
    · intro b hb
      obtain ⟨block, hblock⟩ := Option.isSome_iff_exists.mp hb
      obtain ⟨block₁, hblock₁, _⟩ := hcovers'.block b block hblock
      have hlt : original b < c₁.blockBound := block_lt (by rw [containsBlock, hblock₁]; rfl)
      have hfirst := hplace b hb
      rw [placement_congr hcovers.regions, placement_congr hcovers.regions] at hfirst
      exact hfirst.trans (placement_originalOf hm hcopied (hlt.trans_eq hbound))

theorem Rounds.regions {P : Cfg ι π → Prop} (h : Rounds P c copied c') (hc : c.WF) : c'.regions = c.regions := by
  induction h with
  | done => rfl
  | round _ _ hsplit _ ih =>
    obtain ⟨_, _, _, hcovers⟩ := splitCycle_spec hc hsplit
    exact (ih hcovers.wf).trans hcovers.regions

theorem Rounds.splitsUnplaced (h : Rounds (fun _ => True) c copied c')
    (hc : c.WF) (hcopied : ∀ b ∈ copied, ¬ c.Marked b) : Rounds SplitsUnplaced c copied c' := by
  induction h with
  | done hfound => exact .done hfound
  | @round c c₁ c' cycle header region copied rest _ hfound hsplit _ ih =>
    obtain ⟨hlist, _, _, hcovers⟩ := splitCycle_spec hc hsplit
    refine .round ?_ hfound hsplit (ih hcovers.wf ?_)
    · intro cycle' header' region' hfound' b hb hregion
      rw [hfound] at hfound'
      cases hfound'
      refine hcopied b (mem_append_left _ ?_)
      rw [hlist]
      exact mem_filter.mpr ⟨hb, hregion⟩
    · intro b hb
      rw [marked_congr hcovers.regions]
      exact hcopied b (mem_append_right _ hb)

theorem Covers.passage_eq (h : Covers c c' original)
    (hplace : ∀ b, c'.containsBlock b → c.placement b = c.placement (original b)) (hw : c'.IsWalk blocks) :
    c'.passage blocks = c.passage (blocks.map original) := by
  unfold passage
  rw [map_map]
  refine map_congr_left fun b hb => ?_
  have hlive := hw.live h.wf b hb
  obtain ⟨block', hblock'⟩ := Option.isSome_iff_exists.mp hlive
  obtain ⟨block, hblock, heq⟩ := h.block b block' hblock'
  rw [Function.comp_apply, instructions_eq hblock', instructions_eq hblock, heq,
    placement_congr h.regions, hplace b hlive]

/-- Splitting keeps the exception metadata of copies and of walks exactly when every round
copies only blocks that no region protects and no known handler body holds. -/
theorem makeReducible_keepsMetadata {fuel n : Nat} (hc : c.WF) (hn : c.NamesSlots)
    (h : makeReducible fuel c = some (n, c')) :
    ∃ copied, copied.length = n ∧ Rounds (fun _ => True) c copied c' ∧
      (c.KeepsMetadata copied c' ↔ Rounds SplitsUnplaced c copied c') := by
  obtain ⟨copied, hlength, hrounds⟩ := makeReducible_rounds h
  have hm : ∀ b, c.Marked b → b < c.blockBound := by
    intro b hb
    by_contra hle
    exact hn.not_marked (Nat.le_of_not_lt hle) hb
  refine ⟨copied, hlength, hrounds, ?_, ?_⟩
  · intro hkeeps
    refine hrounds.splitsUnplaced hc fun b hb hmarked => ?_
    obtain ⟨i, hi⟩ := getElem?_of_mem hb
    have hcopy := hkeeps.copy i b hi
    rw [placement_congr (hrounds.regions hc), placement_congr (hrounds.regions hc)] at hcopy
    exact hn.not_marked (Nat.le_add_right _ _) (hmarked.of_placement hcopy.symm)
  · intro hunplaced
    obtain ⟨hcopied, original, hcovers, hplace⟩ := hunplaced.keeps hc hm
    constructor
    · intro i b hi
      rw [placement_congr hcovers.regions, placement_congr hcovers.regions]
      exact placement_of_not_marked (hn.not_marked (Nat.le_add_right _ _))
        (hcopied b (mem_of_getElem? hi))
    · intro passed
      constructor
      · rintro ⟨blocks, hw, rfl⟩
        exact ⟨blocks.map original, hcovers.mirrors.isWalk hw, (hcovers.passage_eq hplace hw).symm⟩
      · rintro ⟨blocks, hw, rfl⟩
        obtain ⟨blocks', hw', rfl⟩ := hcovers.mirrors.exists_walk hw
        exact ⟨blocks', hw', hcovers.passage_eq hplace hw'⟩

/-- A cycle between blocks 1 and 2 that the entry enters at both, and a region around
`protectedBlocks` with its handler at 3. -/
def twoEntries (protectedBlocks : Finset Nat) : Cfg Nat Unit :=
  { ofParts [[10], [11], [12], [13]] [(0, 1, .conditionalTrue, ()), (0, 2, .conditionalFalse, ()),
      (1, 2, .fallthrough, ()), (2, 1, .back, ()), (2, 3, .exceptionHandler, ())] with
    regions := [⟨0, protectedBlocks, [⟨3, .known {3}, .catchAll⟩], none⟩] }

theorem wf_twoEntries (protectedBlocks : Finset Nat) : (twoEntries protectedBlocks).WF :=
  have h : (ofParts _ _).WF := wf_ofParts rfl
  ⟨h.graph, h.entry⟩

theorem not_marked_twoEntries {protectedBlocks : Finset Nat} (hb : b ∉ protectedBlocks)
    (hbody : b ≠ 3) : ¬ (twoEntries protectedBlocks).Marked b := by
  intro ⟨region, hregion, hmarks⟩
  cases mem_singleton.mp hregion
  rcases hmarks with hprotected | ⟨handler, hhandler, blocks, hknown, hmem⟩
  · exact hb hprotected
  · cases mem_singleton.mp hhandler
    cases hknown
    exact hbody (Finset.mem_singleton.mp hmem)

theorem namesSlots_twoEntries : (twoEntries {1}).NamesSlots := by
  refine ⟨?_, ?_, fun _ h => (by cases h)⟩
  · intro region hregion b hb
    cases mem_singleton.mp hregion
    cases Finset.mem_singleton.mp hb
    decide
  · intro region hregion handler hhandler blocks hknown b hb
    cases mem_singleton.mp hregion
    cases mem_singleton.mp hhandler
    cases hknown
    cases Finset.mem_singleton.mp hb
    decide

theorem filter_twoEntries {cycle : MultiEntryCycle} {header : Nat} {region : Nat → Bool}
    (h : (twoEntries {1}).roundCycle = some (some (cycle, header, region))) :
    (twoEntries {1}).blockIds.filter region = [2] := by
  have hround : ((twoEntries {1}).roundCycle.map fun found =>
      found.map fun x => (twoEntries {1}).blockIds.filter x.2.2) = some (some [2]) := rfl
  rw [h] at hround
  exact Option.some.inj (Option.some.inj hround)

/-- The run copies block 2 only, which the region around block 1 leaves out. -/
theorem makeReducible_keepsMetadata_twoEntries : ∃ copied c',
    makeReducible 3 (twoEntries {1}) = some (1, c') ∧ copied.length = 1 ∧
      (twoEntries {1}).KeepsMetadata copied c' := by
  have hany : (makeReducible 3 (twoEntries {1})).any (fun r => r.1 = 1) := rfl
  obtain ⟨⟨n, c'⟩, hrun, hn⟩ := (Option.any_eq_true _ _).mp hany
  cases of_decide_eq_true hn
  obtain ⟨copied, hlength, hrounds, hiff⟩ :=
    makeReducible_keepsMetadata (wf_twoEntries {1}) namesSlots_twoEntries hrun
  refine ⟨copied, c', hrun, hlength, hiff.mpr (hrounds.splitsUnplaced (wf_twoEntries {1}) ?_)⟩
  cases hrounds with
  | done => cases hlength
  | round _ hfound hsplit _ =>
    obtain ⟨rfl, _⟩ := splitCycle_spec (wf_twoEntries {1}) hsplit
    rw [filter_twoEntries hfound] at hlength ⊢
    cases eq_nil_of_length_eq_zero (Nat.succ.inj hlength)
    intro b hb
    cases mem_singleton.mp hb
    exact not_marked_twoEntries (by decide) (by decide)

/-- The copy of the protected block 2 is entered from the entry and is not protected. -/
theorem makeReducible_twoEntries_unprotected : ∃ c',
    makeReducible 3 (twoEntries {2}) = some (1, c') ∧ 4 ∈ c'.successors c'.entry ∧
      c'.instructions 4 = c'.instructions 2 ∧ ¬ (twoEntries {2}).KeepsMetadata [2] c' := by
  have hany : (makeReducible 3 (twoEntries {2})).any (fun r => r.1 = 1 ∧
      4 ∈ r.2.successors r.2.entry ∧ r.2.instructions 4 = r.2.instructions 2 ∧
      r.2.placement 4 ≠ r.2.placement 2) := rfl
  obtain ⟨⟨n, c'⟩, hrun, hn⟩ := (Option.any_eq_true _ _).mp hany
  obtain ⟨rfl, hmem, hcode, hplace⟩ := of_decide_eq_true hn
  exact ⟨c', hrun, hmem, hcode, fun hkeeps => hplace (hkeeps.copy 0 2 rfl)⟩

end CfgLib.Cfg

import CfgLib.Cfg.Rewrite
import CfgLib.Transform.Cleanup

/-!
# Identity records

What the record of a mutation or a pass says about the graph before and after
it.  The passes write into one record as they go; a merge may do so because the
order it visits blocks in never lets it fold a block that has absorbed another.
-/

namespace CfgLib

open List

/-! ## The axes of a graph -/

namespace Cfg

variable {ι π : Type}

def blockAxis (c : Cfg ι π) : Axis := ⟨fun b => c.containsBlock b, c.blockBound, fun _ => block_lt⟩

theorem containsEdge_iff {c : Cfg ι π} {e : Nat} :
    c.containsEdge e ↔ ∃ r, c.edge e = some r := Option.isSome_iff_exists

def edgeAxis (c : Cfg ι π) : Axis :=
  ⟨fun e => c.containsEdge e, c.edgeBound, fun _ h => by
    obtain ⟨r, hr⟩ := containsEdge_iff.mp h
    exact edge_lt hr⟩

end Cfg

namespace Transform

open CfgLib.Lib

variable {ι π : Type} {c₀ c c' : Cfg ι π} {R R' : Rewrite}

/-- The record tells the truth about blocks and edges; an edge it does not
mention kept its endpoints, and an edge is only ever replaced by itself. -/
structure Records (c c' : Cfg ι π) (R : Rewrite) : Prop where
  blocks : Tracks c.blockAxis c'.blockAxis R.blocks R.createdBlocks
  edges : Tracks c.edgeAxis c'.edgeAxis R.edges R.createdEdges
  edges_self : ∀ e l, R.edges e = some l → ∀ y ∈ l, y = e
  endpoints : ∀ e r, c.edge e = some r → R.edges e = none →
    ∃ r', c'.edge e = some r' ∧ r'.source = r.source ∧ r'.target = r.target

theorem Records.refl (c : Cfg ι π) : Records c c .new where
  blocks := .refl _
  edges := .refl _
  edges_self := fun _ _ h => by cases h
  endpoints := fun e r hr _ => ⟨r, hr, rfl, rfl⟩

theorem freshAt_of_self {map : ReplacementMap} (h : ∀ e l, map e = some l → ∀ y ∈ l, y = e)
    (k : Nat) : FreshAt k map :=
  fun x l hx hl y hy => h x l hl y hy ▸ hx

theorem Records.compose {c'' : Cfg ι π} (h : Records c c' R) (h' : Records c' c'' R')
    (hf : FreshAt c.blockBound R.blocks) (hf' : FreshAt c.blockBound R'.blocks) :
    Records c c'' (R.compose R') where
  blocks := h.blocks.compose h'.blocks hf hf'
  edges := h.edges.compose h'.edges (freshAt_of_self h.edges_self _)
    (freshAt_of_self h'.edges_self _)
  edges_self := by
    intro e l hl y hy
    rcases composed_cases hl with ⟨l₁, hl₁, rfl⟩ | ⟨_, hl₂⟩
    · obtain ⟨z, hz, hyz⟩ := mem_flatMap.mp (mem_unique.mp hy)
      obtain rfl := h.edges_self e l₁ hl₁ z hz
      cases hm : R'.edges z with
      | none => rwa [replacementsOf_none hm, mem_singleton] at hyz
      | some l₂ =>
        rw [replacementsOf_some hm] at hyz
        exact h'.edges_self z l₂ hm y hyz
    · exact h'.edges_self e l hl₂ y hy
  endpoints := by
    intro e r hr hnone
    obtain ⟨hn₁, hn₂⟩ := composed_none hnone
    obtain ⟨r₁, hr₁, hs₁, ht₁⟩ := h.endpoints e r hr hn₁
    obtain ⟨r₂, hr₂, hs₂, ht₂⟩ := h'.endpoints e r₁ hr₁ hn₂
    exact ⟨r₂, hr₂, hs₂.trans hs₁, ht₂.trans ht₁⟩

/-! ## Recording as a pass goes -/

/-- The edges `gone` go, the edges `kept` stay under their identity, and no other
edge changes its endpoints. -/
structure Rewires (c : Cfg ι π) (gone kept : List Nat) (c' : Cfg ι π) : Prop where
  edgeBound : c'.edgeBound = c.edgeBound
  edge : ∀ e, c'.containsEdge e ↔ c.containsEdge e ∧ e ∉ gone
  gone_live : ∀ e ∈ gone, c.containsEdge e
  kept_live : ∀ e ∈ kept, c'.containsEdge e
  endpoints : ∀ e r, c.edge e = some r → e ∉ gone → e ∉ kept →
    ∃ r', c'.edge e = some r' ∧ r'.source = r.source ∧ r'.target = r.target

/-- One edit inside a pass: block `d` goes and becomes `l`, the edges `gone` go,
and the edges `kept` stay under their identity. -/
structure Retires (c : Cfg ι π) (d : Nat) (l gone kept : List Nat) (c' : Cfg ι π) : Prop
    extends Rewires c gone kept c' where
  blockBound : c'.blockBound = c.blockBound
  live : c.containsBlock d
  block : ∀ i, c'.containsBlock i ↔ c.containsBlock i ∧ i ≠ d
  replaced : ∀ y ∈ l, c'.containsBlock y

/-- The edges of the record after an edit, as far as it can be read. -/
structure RecordsEdges (R : Rewrite) (gone kept : List Nat) (R' : Rewrite) : Prop where
  edges : ∀ e, R'.edges e =
    if e ∈ kept then some [e] else if e ∈ gone then some [] else R.edges e
  createdEdges : R'.createdEdges = R.createdEdges

/-- The record after an edit, as far as it can be read. -/
structure RecordsEdit (R : Rewrite) (d : Nat) (l gone kept : List Nat) (R' : Rewrite) : Prop
    extends RecordsEdges R gone kept R' where
  blocks : ∀ b, R'.blocks b = if b = d then some (unique l) else R.blocks b
  createdBlocks : R'.createdBlocks = R.createdBlocks

variable {sb tb : BasicBlock ι} {gone kept moved order : List Nat} {connecting id n outgoing target : Nat}

theorem Records.rewire (h : Records c₀ c R) (hebound : c.edgeBound = c₀.edgeBound) (he : Rewires c gone kept c')
    (hR : RecordsEdges R gone kept R') : Tracks c₀.edgeAxis c'.edgeAxis R'.edges R'.createdEdges ∧
      (∀ e l, R'.edges e = some l → ∀ y ∈ l, y = e) ∧
      ∀ e r, c₀.edge e = some r → R'.edges e = none →
        ∃ r', c'.edge e = some r' ∧ r'.source = r.source ∧ r'.target = r.target := by
  have hb := h.edges
  refine ⟨⟨?_, ?_, ?_, ?_, ?_, ?_, ?_⟩, ?_, ?_⟩
  · change c₀.edgeBound ≤ c'.edgeBound
    rw [he.edgeBound, hebound]
  · intro x m hm
    change x < c'.edgeBound
    rw [hR.edges] at hm
    split at hm
    · next hx => exact c'.edgeAxis.lt x (he.kept_live x hx)
    rw [he.edgeBound]
    split at hm
    · next hx => exact c.edgeAxis.lt x (he.gone_live x hx)
    · exact hb.dom x m hm
  · intro x hx hnone
    rw [hR.edges] at hnone
    split at hnone
    · cases hnone
    split at hnone
    · cases hnone
    next hgone => exact (he.edge x).mpr ⟨hb.kept x hx hnone, hgone⟩
  · intro x m hm y hy
    rw [hR.edges] at hm
    split at hm
    · next hx =>
      obtain rfl := Option.some.inj hm
      obtain rfl := mem_singleton.mp hy
      exact he.kept_live y hx
    split at hm
    · obtain rfl := Option.some.inj hm
      cases hy
    next hgone =>
    obtain rfl := h.edges_self x m hm y hy
    exact (he.edge y).mpr ⟨hb.replaced y m hm y hy, hgone⟩
  · intro x m hx hm
    obtain ⟨hlive, hgone⟩ := (he.edge x).mp hx
    rw [hR.edges] at hm
    split at hm
    · obtain rfl := Option.some.inj hm
      exact mem_singleton_self x
    · exact hb.self x m hlive (by simpa [hgone] using hm)
  · intro x
    rw [hR.createdEdges, hb.created_iff]
    change c.containsEdge x ∧ c₀.edgeBound ≤ x ↔ c'.containsEdge x ∧ c₀.edgeBound ≤ x
    constructor
    · rintro ⟨hlive, hle⟩
      have : x < c.edgeBound := c.edgeAxis.lt x hlive
      omega
    · rintro ⟨hlive, hle⟩
      exact ⟨((he.edge x).mp hlive).1, hle⟩
  · intro x hx hlt
    exact hb.old x ((he.edge x).mp hx).1 hlt
  · intro e m hm y hy
    rw [hR.edges] at hm
    split at hm
    · obtain rfl := Option.some.inj hm
      exact mem_singleton.mp hy
    split at hm
    · obtain rfl := Option.some.inj hm
      cases hy
    · exact h.edges_self e m hm y hy
  · intro e r hr hnone
    rw [hR.edges] at hnone
    split at hnone
    · cases hnone
    next hkept =>
    split at hnone
    · cases hnone
    next hgone =>
    obtain ⟨r₁, hr₁, hs₁, ht₁⟩ := h.endpoints e r hr hnone
    obtain ⟨r₂, hr₂, hs₂, ht₂⟩ := he.endpoints e r₁ hr₁ hgone hkept
    exact ⟨r₂, hr₂, hs₂.trans hs₁, ht₂.trans ht₁⟩

variable {folds : List (Fold ι π)} {b d source : Nat} {s' : Session ι π}

/-- An edit of a pass that allocates nothing is recorded truthfully, unless the
block that goes is one the record already names as a replacement. -/
theorem Records.edit {l : List Nat} (h : Records c₀ c R)
    (hbound : c.blockBound = c₀.blockBound) (hebound : c.edgeBound = c₀.edgeBound)
    (he : Retires c d l gone kept c') (hR : RecordsEdit R d l gone kept R')
    (hstale : ∀ x l', R.blocks x = some l' → d ∉ l') : Records c₀ c' R' where
  blocks := by
    have hb := h.blocks
    refine ⟨?_, ?_, ?_, ?_, ?_, ?_, ?_⟩
    · change c₀.blockBound ≤ c'.blockBound
      rw [he.blockBound, hbound]
    · intro x m hm
      change x < c'.blockBound
      rw [he.blockBound]
      rw [hR.blocks] at hm
      split at hm
      · next hx => exact hx ▸ Cfg.block_lt he.live
      · exact hb.dom x m hm
    · intro x hx hnone
      rw [hR.blocks] at hnone
      split at hnone
      · cases hnone
      next hne => exact (he.block x).mpr ⟨hb.kept x hx hnone, hne⟩
    · intro x m hm y hy
      rw [hR.blocks] at hm
      split at hm
      · obtain rfl := Option.some.inj hm
        exact he.replaced y (mem_unique.mp hy)
      · refine (he.block y).mpr ⟨hb.replaced x m hm y hy, ?_⟩
        rintro rfl
        exact hstale x m hm hy
    · intro x m hx hm
      obtain ⟨hlive, hne⟩ := (he.block x).mp hx
      rw [hR.blocks, if_neg hne] at hm
      exact hb.self x m hlive hm
    · intro x
      rw [hR.createdBlocks, hb.created_iff]
      change c.containsBlock x ∧ c₀.blockBound ≤ x ↔ c'.containsBlock x ∧ c₀.blockBound ≤ x
      constructor
      · rintro ⟨hlive, hle⟩
        have := Cfg.block_lt hlive
        omega
      · rintro ⟨hlive, hle⟩
        exact ⟨((he.block x).mp hlive).1, hle⟩
    · intro x hx hlt
      exact hb.old x ((he.block x).mp hx).1 hlt
  edges := (h.rewire hebound he.toRewires hR.toRecordsEdges).1
  edges_self := (h.rewire hebound he.toRewires hR.toRecordsEdges).2.1
  endpoints := (h.rewire hebound he.toRewires hR.toRecordsEdges).2.2

/-! ## The three edits -/

theorem recordsEdit_fold (R : Rewrite) (target source : Nat) (hne : connecting ∉ moved) :
    RecordsEdit R target [source] [connecting] moved
      (((R.recordEdge connecting []).recordKept moved).recordBlock target [source]) where
  blocks := by
    intro b
    by_cases hb : b = target
    · subst hb; simp [Rewrite.recordBlock]
    · simp [Rewrite.recordBlock, Rewrite.recordEdge, hb]
  edges := by
    intro e
    change ((R.recordEdge connecting []).recordKept moved).edges e = _
    rw [Rewrite.edges_recordKept]
    by_cases he : e ∈ moved
    · simp [he]
    · by_cases hc : e = connecting
      · subst hc; simp [he, Rewrite.recordEdge, unique_nil]
      · simp [he, hc, Rewrite.recordEdge]
  createdBlocks := by simp [Rewrite.recordBlock, Rewrite.recordEdge]
  createdEdges := by simp [Rewrite.recordBlock, Rewrite.recordEdge]

theorem IsFold.retires (h : IsFold c source target connecting sb tb c')
    (hmoved : ∀ e, e ∈ moved ↔ ∃ r, c'.edge e = some r ∧ r.source = source) :
    Retires c target [source] [connecting] moved c' where
  blockBound := h.blockBound
  edgeBound := h.edgeBound
  live := by simp [Cfg.containsBlock, h.target_block]
  block := h.contains_iff
  replaced := by
    intro y hy
    obtain rfl := mem_singleton.mp hy
    exact (h.contains_iff y).mpr ⟨by simp [Cfg.containsBlock, h.source_block], h.ne⟩
  edge := by
    intro e
    simp only [Cfg.containsEdge, h.edge, mem_singleton]
    by_cases he : e = connecting <;> simp [he]
  gone_live := by
    intro e he
    obtain rfl := mem_singleton.mp he
    obtain ⟨r, hr, _⟩ := h.connects
    exact Cfg.containsEdge_iff.mpr ⟨r, hr⟩
  kept_live := by
    intro e he
    obtain ⟨r, hr, _⟩ := (hmoved e).mp he
    exact Cfg.containsEdge_iff.mpr ⟨r, hr⟩
  endpoints := by
    intro e r hr hgone hkept
    have hec : e ≠ connecting := fun he => hgone (mem_singleton.mpr he)
    refine ⟨_, h.edge_old hr hec, ?_, Cfg.target_moveSource _ _ _⟩
    have hne : r.source ≠ target := by
      intro hs
      refine hkept ((hmoved e).mpr ⟨_, h.edge_old hr hec, ?_⟩)
      rw [Cfg.source_moveSource, if_pos hs]
    rw [Cfg.source_moveSource, if_neg hne]

theorem IsFold.connecting_not_moved (h : IsFold c source target connecting sb tb c')
    (hmoved : ∀ e, e ∈ moved ↔ ∃ r, c'.edge e = some r ∧ r.source = source) :
    connecting ∉ moved := by
  intro hmem
  obtain ⟨r, hr, _⟩ := (hmoved connecting).mp hmem
  rw [h.edge, if_pos rfl] at hr
  cases hr

theorem recordsEdit_bypass (R : Rewrite) {bypassed : List Nat} (hne : outgoing ∉ bypassed) :
    RecordsEdit R id [] [outgoing] bypassed
      (((R.recordKept bypassed).recordEdge outgoing []).recordBlock id []) where
  blocks := by
    intro b
    by_cases hb : b = id
    · subst hb; simp [Rewrite.recordBlock]
    · simp [Rewrite.recordBlock, Rewrite.recordEdge, hb]
  edges := by
    intro e
    change Function.update (R.recordKept bypassed).edges outgoing _ e = _
    by_cases hc : e = outgoing
    · subst hc; simp [hne, unique_nil]
    · simp [hc, Rewrite.edges_recordKept]
  createdBlocks := by simp [Rewrite.recordBlock, Rewrite.recordEdge]
  createdEdges := by simp [Rewrite.recordBlock, Rewrite.recordEdge]

theorem IsBypass.outgoing_not_incoming (hc : c.WF)
    (h : IsBypass c id target outgoing c') : outgoing ∉ c.incoming id := by
  intro hmem
  obtain ⟨r, hr, ht⟩ := hc.mem_incoming.mp hmem
  obtain ⟨r', hr', _, ht', _⟩ := h.leaves
  rw [hr] at hr'
  cases hr'
  exact h.ne (ht'.symm.trans ht)

theorem IsBypass.retires (hc : c.WF) (h : IsBypass c id target outgoing c') :
    Retires c id [] [outgoing] (c.incoming id) c' where
  blockBound := h.blockBound
  edgeBound := h.edgeBound
  live := by
    obtain ⟨label, hb⟩ := h.empty
    simp [Cfg.containsBlock, hb]
  block := h.contains_iff
  replaced := fun y hy => by cases hy
  edge := by
    intro e
    simp only [Cfg.containsEdge, h.edge, mem_singleton]
    by_cases he : e = outgoing <;> simp [he]
  gone_live := by
    intro e he
    obtain rfl := mem_singleton.mp he
    obtain ⟨r, hr, _⟩ := h.leaves
    exact Cfg.containsEdge_iff.mpr ⟨r, hr⟩
  kept_live := by
    intro e he
    have hne : e ≠ outgoing := by
      rintro rfl
      exact h.outgoing_not_incoming hc he
    obtain ⟨r, hr, _⟩ := hc.mem_incoming.mp he
    simp [Cfg.containsEdge, h.edge, hne, hr]
  endpoints := by
    intro e r hr hgone hkept
    have hec : e ≠ outgoing := fun he => hgone (mem_singleton.mpr he)
    have hne : r.target ≠ id := fun ht => hkept (hc.mem_incoming.mpr ⟨r, hr, ht⟩)
    refine ⟨_, by rw [h.edge, if_neg hec, hr]; rfl, Cfg.source_moveTarget _ _ _, ?_⟩
    rw [Cfg.target_moveTarget, if_neg hne]

theorem recordsEdit_removal (R : Rewrite) (b : Nat) (incident : List Nat) :
    RecordsEdit R b [] incident [] ((R.recordRemoved incident).recordBlock b []) where
  blocks := by
    intro x
    by_cases hb : x = b
    · subst hb; simp [Rewrite.recordBlock]
    · simp [Rewrite.recordBlock, hb]
  edges := by
    intro e
    change (R.recordRemoved incident).edges e = _
    rw [Rewrite.edges_recordRemoved]
    simp
  createdBlocks := by simp [Rewrite.recordBlock]
  createdEdges := by simp [Rewrite.recordBlock]

theorem retires_removal (hc : c.WF) (h : c.IsRemoval b c') :
    Retires c b [] (c.outgoing b ++ c.incoming b) [] c' := by
  have hincident : ∀ e r, c.edge e = some r →
      (e ∈ c.outgoing b ++ c.incoming b ↔ r.source = b ∨ r.target = b) := by
    intro e r hr
    rw [mem_append, hc.mem_outgoing, hc.mem_incoming]
    simp [hr]
  have hedge : ∀ e r, c.edge e = some r → e ∉ c.outgoing b ++ c.incoming b →
      c'.edge e = some r := by
    intro e r hr hout
    rw [hincident e r hr] at hout
    rw [h.edge, hr, Option.bind_some, if_neg hout]
  refine ⟨⟨h.edgeBound, ?_, ?_, fun e he => (by cases he), ?_⟩, h.blockBound, h.live,
    h.contains_iff, fun y hy => (by cases hy)⟩
  · intro e
    constructor
    · intro hlive
      obtain ⟨r, hr⟩ := Cfg.containsEdge_iff.mp hlive
      rw [h.edge] at hr
      obtain ⟨r₀, hr₀, hkeep⟩ := Option.bind_eq_some_iff.mp hr
      refine ⟨Cfg.containsEdge_iff.mpr ⟨r₀, hr₀⟩, ?_⟩
      rw [hincident e r₀ hr₀]
      intro hin
      rw [if_pos hin] at hkeep
      cases hkeep
    · rintro ⟨hlive, hout⟩
      obtain ⟨r, hr⟩ := Cfg.containsEdge_iff.mp hlive
      exact Cfg.containsEdge_iff.mpr ⟨r, hedge e r hr hout⟩
  · intro e he
    rcases mem_append.mp he with he | he
    · obtain ⟨r, hr, _⟩ := hc.mem_outgoing.mp he
      exact Cfg.containsEdge_iff.mpr ⟨r, hr⟩
    · obtain ⟨r, hr, _⟩ := hc.mem_incoming.mp he
      exact Cfg.containsEdge_iff.mpr ⟨r, hr⟩
  · intro e r hr hout _
    exact ⟨r, hedge e r hr hout, rfl, rfl⟩

/-! ## Passes that only remove -/

/-- A pass that maps no block to another, at some point of its run. -/
structure Removing (c₀ c : Cfg ι π) (R : Rewrite) : Prop where
  wf : c.WF
  records : Records c₀ c R
  blockBound : c.blockBound = c₀.blockBound
  edgeBound : c.edgeBound = c₀.edgeBound
  removed : ∀ x l, R.blocks x = some l → l = []

theorem Removing.init (hc : c.WF) : Removing c c .new :=
  ⟨hc, .refl c, rfl, rfl, fun _ _ h => by cases h⟩

theorem Removing.edit (h : Removing c₀ c R) (hc' : c'.WF)
    (he : Retires c d [] gone kept c') (hR : RecordsEdit R d [] gone kept R') :
    Removing c₀ c' R' where
  wf := hc'
  records := by
    refine h.records.edit h.blockBound h.edgeBound he hR ?_
    intro x l' hl' hmem
    rw [h.removed x l' hl'] at hmem
    cases hmem
  blockBound := he.blockBound.trans h.blockBound
  edgeBound := he.edgeBound.trans h.edgeBound
  removed := by
    intro x l hl
    rw [hR.blocks] at hl
    split at hl
    · exact (Option.some.inj hl).symm
    · exact h.removed x l hl

theorem Removing.freshAt (h : Removing c₀ c R) (k : Nat) : FreshAt k R.blocks := by
  intro x l _ hl y hy
  rw [h.removed x l hl] at hy
  cases hy

theorem Removing.removeBlockRecording {removed : Bool} (h : Removing c₀ c R)
    (hrun : c.removeBlockRecording b R = some (removed, c', R')) : Removing c₀ c' R' := by
  unfold Cfg.removeBlockRecording at hrun
  split at hrun
  · next hlive =>
    simp only [Option.map_eq_some_iff, Prod.exists] at hrun
    obtain ⟨removed', c₁, hremove, heq⟩ := hrun
    cases heq
    obtain ⟨_, hrem⟩ := Cfg.removeBlock_spec h.wf hlive hremove
    exact h.edit hrem.wf (retires_removal h.wf hrem) (recordsEdit_removal R b _)
  · cases hrun
    exact h

theorem Removing.removeBlocksRecording {doomed : List Nat} (h : Removing c₀ c R)
    (hrun : Transform.removeBlocksRecording c doomed R = some (c', R')) : Removing c₀ c' R' := by
  induction doomed generalizing c R with
  | nil =>
    cases hrun
    exact h
  | cons b doomed ih =>
    unfold Transform.removeBlocksRecording at hrun ih
    simp only [foldlM_cons, Option.bind_eq_bind, Option.bind_eq_some_iff, Prod.exists] at hrun
    obtain ⟨c₁, R₁, ⟨removed, c₂, R₂, hremove, heq⟩, hrun⟩ := hrun
    cases heq
    exact ih (h.removeBlockRecording hremove) hrun

theorem removeUnreachableMapped_removing (hc : c.WF)
    (hrun : removeUnreachableMapped c = some (n, c', R)) : Removing c c' R := by
  unfold removeUnreachableMapped at hrun
  simp only [Option.bind_eq_bind, Option.bind_eq_some_iff, Prod.exists] at hrun
  obtain ⟨reached, _, c₁, R₁, hremove, heq⟩ := hrun
  cases heq
  exact (Removing.init hc).removeBlocksRecording hremove

theorem Removing.bypassAlong {removed : Nat} {s : Session ι π} (hmap : s.mapping = some R) (h : Removing c₀ s.cfg R)
    (hrun : Transform.bypassAlong order removed s = some (n, s')) :
    ∃ R', s'.mapping = some R' ∧ Removing c₀ s'.cfg R' ∧ s'.folds = s.folds := by
  induction order generalizing s R removed with
  | nil =>
    cases hrun
    exact ⟨R, hmap, h, rfl⟩
  | cons id order ih =>
    unfold Transform.bypassAlong at hrun ih
    rw [foldlM_cons] at hrun
    rcases bypassBlock_spec h.wf id with hno | ⟨s₁, target, outgoing, hyes, hby, hmap₁, hfolds₁⟩
    · simp only [hno, Option.bind_eq_bind, Option.bind_some] at hrun
      exact ih hmap h hrun
    · simp only [hyes, Option.bind_eq_bind, Option.bind_some] at hrun
      rw [hmap] at hmap₁
      obtain ⟨R', hR', hrem, hfolds⟩ := ih hmap₁ (h.edit hby.wf (hby.retires h.wf)
        (recordsEdit_bypass R (hby.outgoing_not_incoming h.wf))) hrun
      exact ⟨R', hR', hrem, hfolds.trans hfolds₁⟩

theorem removeEmptyBlocksInner_removing
    (hc : c.WF) (hrun : removeEmptyBlocksInner ⟨c, some .new, folds⟩ = some (n, s')) :
    ∃ R', s'.mapping = some R' ∧ Removing c s'.cfg R' ∧ s'.folds = folds := by
  unfold removeEmptyBlocksInner at hrun
  simp only [Option.bind_eq_bind, Option.bind_eq_some_iff] at hrun
  obtain ⟨order, _, hrun⟩ := hrun
  exact Removing.bypassAlong (s := ⟨c, some .new, folds⟩) rfl (.init hc) hrun

/-! ## Merging -/

/-- A merge at some point of its run over an order of blocks: those in `pre` have
had their turn, those in `done` have had it or are having it. -/
structure Merging (c₀ : Cfg ι π) (pre done : List Nat) (s : Session ι π) (R : Rewrite) :
    Prop where
  mapping : s.mapping = some R
  wf : s.cfg.WF
  records : Records c₀ s.cfg R
  blockBound : s.cfg.blockBound = c₀.blockBound
  edgeBound : s.cfg.edgeBound = c₀.edgeBound
  entry : s.cfg.entry = c₀.entry
  source : ∀ e r r₀, s.cfg.edge e = some r → c₀.edge e = some r₀ →
    r.source = r₀.source ∨ r.source ∈ done
  settled : ∀ e r r₀, s.cfg.edge e = some r → c₀.edge e = some r₀ →
    r₀.source ∈ pre → r.source ∈ pre
  incoming : ∀ e r₀, c₀.edge e = some r₀ → s.cfg.containsBlock r₀.target →
    ∃ r, s.cfg.edge e = some r ∧ r.target = r₀.target
  original : ∀ e r, s.cfg.edge e = some r → ∃ r₀, c₀.edge e = some r₀
  entries : ∀ x l, R.blocks x = some l → ∃ f ∈ s.folds, f.target = x ∧ l = [f.source]
  absorbers : ∀ x l, R.blocks x = some l → ∀ y ∈ l, y ∈ done

/-- Each block of the order but the entry comes after one that leads to it. -/
structure Discovers (c₀ : Cfg ι π) (order : List Nat) : Prop where
  nodup : order.Nodup
  parent : ∀ pre n post, order = pre ++ n :: post → n = c₀.entry ∨ ∃ v ∈ pre, n ∈ c₀.successors v

theorem Merging.init (hc : c.WF) (folds : List (Fold ι π)) :
    Merging c [] [] ⟨c, some .new, folds⟩ .new where
  mapping := rfl
  wf := hc
  records := .refl c
  blockBound := rfl
  edgeBound := rfl
  entry := rfl
  source := by
    intro e r r₀ hr hr₀
    rw [hr] at hr₀
    cases hr₀
    exact Or.inl rfl
  settled := fun _ _ _ _ _ h => by cases h
  incoming := fun e r₀ hr₀ _ => ⟨r₀, hr₀, rfl⟩
  original := fun e r hr => ⟨r, hr⟩
  entries := fun _ _ h => by cases h
  absorbers := fun _ _ h => by cases h

variable {pre post : List Nat} {cur : Nat} {s s' : Session ι π}

theorem Merging.begin (h : Merging c₀ pre pre s R) (cur : Nat) :
    Merging c₀ pre (pre ++ [cur]) s R :=
  { h with
    source := fun e r r₀ hr hr₀ => (h.source e r r₀ hr hr₀).imp_right (mem_append_left _)
    absorbers := fun x l hl y hy => mem_append_left _ (h.absorbers x l hl y hy) }

theorem Merging.finish (h : Merging c₀ pre (pre ++ [cur]) s R) :
    Merging c₀ (pre ++ [cur]) (pre ++ [cur]) s R :=
  { h with
    settled := by
      intro e r r₀ hr hr₀ hmem
      rcases mem_append.mp hmem with hmem | hmem
      · exact mem_append_left _ (h.settled e r r₀ hr hr₀ hmem)
      · rcases h.source e r r₀ hr hr₀ with heq | hdone
        · rw [heq]
          exact mem_append_right _ hmem
        · exact hdone }

/-- A block that has had its turn is not folded away later: the edge into it came
from a block before it, and edges of such blocks stay with them. -/
theorem Merging.target_not_done (hc₀ : c₀.WF) (h : Merging c₀ pre (pre ++ [cur]) s R)
    (horder : Discovers c₀ order) (hsplit : order = pre ++ cur :: post)
    (hfold : IsFold s.cfg cur target connecting sb tb c') : target ∉ pre ++ [cur] := by
  intro hmem
  rcases mem_append.mp hmem with hmem | hmem
  swap
  · exact hfold.ne (mem_singleton.mp hmem).symm
  obtain ⟨pre₁, post₁, hpre⟩ := append_of_mem hmem
  have hparent : target = c₀.entry ∨ ∃ v ∈ pre₁, target ∈ c₀.successors v := by
    refine horder.parent pre₁ target (post₁ ++ cur :: post) ?_
    rw [hsplit, hpre, append_assoc, cons_append]
  rcases hparent with hentry | ⟨v, hv, hsucc⟩
  · exact hfold.ne_entry (hentry.trans h.entry.symm)
  obtain ⟨e, r₀, hr₀, hs₀, ht₀⟩ := hc₀.mem_successors.mp hsucc
  have hlive : s.cfg.containsBlock r₀.target := by
    rw [ht₀]
    simp [Cfg.containsBlock, hfold.target_block]
  obtain ⟨r, hr, ht⟩ := h.incoming e r₀ hr₀ hlive
  obtain rfl := hfold.sole_incoming e r hr (ht.trans ht₀)
  obtain ⟨r', hr', hs', _⟩ := hfold.connects
  rw [hr] at hr'
  cases hr'
  have hvpre : r₀.source ∈ pre := by
    rw [hs₀, hpre]
    exact mem_append_left _ hv
  have hcur := h.settled e r r₀ hr hr₀ hvpre
  rw [hs'] at hcur
  have hnodup := horder.nodup
  rw [hsplit] at hnodup
  exact (nodup_append.mp hnodup).2.2 cur hcur cur mem_cons_self rfl

theorem Merging.fold (hc₀ : c₀.WF) (h : Merging c₀ pre (pre ++ [cur]) s R)
    (horder : Discovers c₀ order) (hsplit : order = pre ++ cur :: post)
    (hfold : IsFold s.cfg cur target connecting sb tb s'.cfg)
    (hmoved : ∀ e, e ∈ moved ↔ ∃ r, s'.cfg.edge e = some r ∧ r.source = cur)
    (hmap : s'.mapping = s.mapping.map fun mapping =>
      ((mapping.recordEdge connecting []).recordKept moved).recordBlock target [cur])
    (hfolds : s'.folds = s.folds ++ [⟨s.cfg, cur, target⟩]) :
    ∃ R', Merging c₀ pre (pre ++ [cur]) s' R' := by
  have hout := h.target_not_done hc₀ horder hsplit hfold
  have hR := recordsEdit_fold R target cur (hfold.connecting_not_moved hmoved)
  have hretires := hfold.retires hmoved
  refine ⟨((R.recordEdge connecting []).recordKept moved).recordBlock target [cur], ?_⟩
  exact {
    mapping := by rw [hmap, h.mapping]; rfl
    wf := hfold.wf
    records := h.records.edit h.blockBound h.edgeBound hretires hR
      fun x l' hl' hmem => hout (h.absorbers x l' hl' target hmem)
    blockBound := hfold.blockBound.trans h.blockBound
    edgeBound := hfold.edgeBound.trans h.edgeBound
    entry := hfold.frame.entry.trans h.entry
    source := by
      intro e r r₀ hr hr₀
      obtain ⟨_, r₁, hr₁, rfl⟩ := hfold.edge_cases hr
      rw [Cfg.source_moveSource]
      split
      · exact Or.inr (mem_append_right _ (mem_singleton_self cur))
      · exact h.source e r₁ r₀ hr₁ hr₀
    settled := by
      intro e r r₀ hr hr₀ hmem
      obtain ⟨_, r₁, hr₁, rfl⟩ := hfold.edge_cases hr
      have hpre := h.settled e r₁ r₀ hr₁ hr₀ hmem
      have hne : r₁.source ≠ target := by
        intro he
        exact hout (mem_append_left _ (he ▸ hpre))
      rw [Cfg.source_moveSource, if_neg hne]
      exact hpre
    incoming := by
      intro e r₀ hr₀ hlive
      obtain ⟨hlive₁, hne⟩ := (hfold.contains_iff _).mp hlive
      obtain ⟨r, hr, ht⟩ := h.incoming e r₀ hr₀ hlive₁
      have hec : e ≠ connecting := by
        rintro rfl
        obtain ⟨r', hr', _, ht', _⟩ := hfold.connects
        rw [hr] at hr'
        cases hr'
        exact hne (ht.symm.trans ht')
      exact ⟨_, hfold.edge_old hr hec, (Cfg.target_moveSource _ _ _).trans ht⟩
    original := by
      intro e r hr
      obtain ⟨_, r₁, hr₁, _⟩ := hfold.edge_cases hr
      exact h.original e r₁ hr₁
    entries := by
      intro x l hl
      rw [hR.blocks] at hl
      rw [hfolds]
      split at hl
      · next hx =>
        obtain rfl := Option.some.inj hl
        exact ⟨⟨s.cfg, cur, target⟩, by simp, hx.symm, rfl⟩
      · obtain ⟨f, hf, hft, hfl⟩ := h.entries x l hl
        exact ⟨f, mem_append_left _ hf, hft, hfl⟩
    absorbers := by
      intro x l hl y hy
      rw [hR.blocks] at hl
      split at hl
      · obtain rfl := Option.some.inj hl
        rw [mem_unique] at hy
        exact mem_append_right _ hy
      · exact h.absorbers x l hl y hy }

theorem Merging.mergeFrom (hc₀ : c₀.WF) (horder : Discovers c₀ order) (hsplit : order = pre ++ cur :: post) {fuel : Nat}
    (h : Merging c₀ pre (pre ++ [cur]) s R) (hrun : Transform.mergeFrom cur fuel s = some (n, s')) :
    ∃ R', Merging c₀ pre (pre ++ [cur]) s' R' := by
  induction fuel generalizing s R n with
  | zero => cases hrun
  | succ fuel ih =>
    unfold Transform.mergeFrom at hrun
    split at hrun
    · cases hrun
      exact ⟨R, h⟩
    next connecting hsole =>
    obtain ⟨⟨record, hrecord, _⟩, _⟩ := h.wf.soleOutgoing hsole
    simp only [hrecord, Option.bind_eq_bind, Option.bind_some] at hrun
    rcases contractEdgeInner_spec h.wf cur record.target with
      hno | ⟨s₁, e, sb, tb, moved, hyes, hfold, hmoved, hmap, hfolds⟩
    · simp only [hno, Option.bind_some] at hrun
      cases hrun
      exact ⟨R, h⟩
    · simp only [hyes, Option.bind_some, if_true, Option.bind_eq_some_iff, Prod.exists] at hrun
      obtain ⟨merged, s₂, hrun, heq⟩ := hrun
      cases heq
      obtain ⟨R₁, h₁⟩ := h.fold hc₀ horder hsplit hfold hmoved hmap hfolds
      exact ih h₁ hrun

theorem Merging.mergeAlong (hc₀ : c₀.WF) (horder : Discovers c₀ order) {merged : Nat} (hsplit : order = pre ++ post)
    (h : Merging c₀ pre pre s R) (hrun : Transform.mergeAlong post merged s = some (n, s')) :
    ∃ R', Merging c₀ order order s' R' := by
  induction post generalizing s R pre merged with
  | nil =>
    cases hrun
    rw [append_nil] at hsplit
    exact ⟨R, hsplit ▸ h⟩
  | cons cur post ih =>
    unfold Transform.mergeAlong at hrun ih
    rw [foldlM_cons] at hrun
    have hsplit' : order = (pre ++ [cur]) ++ post := by simp [hsplit]
    by_cases hlive : s.cfg.containsBlock cur
    · simp only [hlive, if_true, Option.bind_eq_bind, Option.bind_eq_some_iff, Prod.exists] at hrun
      obtain ⟨_, s₁, ⟨more, s₂, hfrom, heq⟩, hrun⟩ := hrun
      cases heq
      obtain ⟨R₁, h₁⟩ := Merging.mergeFrom hc₀ horder hsplit (h.begin cur) hfrom
      exact ih hsplit' h₁.finish hrun
    · simp only [hlive, Option.bind_eq_bind] at hrun
      exact ih hsplit' (h.begin cur).finish hrun

theorem mergeBlocksInner_merging (hc : c.WF) (hrun : mergeBlocksInner ⟨c, some .new, folds⟩ = some (n, s')) :
    ∃ order R', Merging c order order s' R' := by
  unfold mergeBlocksInner at hrun
  simp only [Option.bind_eq_bind, Option.bind_eq_some_iff] at hrun
  obtain ⟨order, horder, hrun⟩ := hrun
  obtain ⟨hnodup, hparent⟩ := depthFirstPreorder_ordered horder
  obtain ⟨R', h⟩ := Merging.mergeAlong hc ⟨hnodup, hparent⟩ (nil_append order).symm
    (.init hc folds) hrun
  exact ⟨order, R', h⟩

end Transform

end CfgLib

import CfgLib.Transform.Reducible
import Mathlib.Data.List.Chain

/-!
# What node splitting keeps

A round of `graph/reducible.rs` covers the graph it splits: every block of the
result stands for a block of the graph, with its code and its edges.  Exception
metadata is left as it is, so a copy of a protected block is not protected.
-/

namespace CfgLib.Cfg

open CfgLib.Lib List

variable {ι π : Type} {c c' : Cfg ι π}

def HasEdge (c : Cfg ι π) (r : Store.EdgeRecord (Edge π)) : Prop := ∃ e, c.edge e = some r

structure Covers (c c' : Cfg ι π) (original : Nat → Nat) : Prop where
  wf : c'.WF
  entry : c'.entry = c.entry
  original_entry : original c.entry = c.entry
  regions : c'.regions = c.regions
  block : ∀ b block', c'.block b = some block' →
    ∃ block, c.block (original b) = some block ∧ block'.instructions = block.instructions
  edge : ∀ r, c'.HasEdge r → c.HasEdge ⟨original r.source, original r.target, r.payload⟩
  lift : ∀ b, c'.containsBlock b → ∀ r, c.HasEdge r → r.source = original b →
    ∃ t, c'.HasEdge ⟨b, t, r.payload⟩ ∧ original t = r.target

theorem Covers.refl (hc : c.WF) : Covers c c id where
  wf := hc
  entry := rfl
  original_entry := rfl
  regions := rfl
  block := fun _ block hb => ⟨block, hb, rfl⟩
  edge := fun _ hr => hr
  lift := by
    intro b _ r hr hs
    refine ⟨r.target, ?_, rfl⟩
    cases r
    cases hs
    exact hr

variable {c₁ : Cfg ι π} {copied : List Nat} {b : Nat} {original : Nat → Nat} {copyOf : Nat → Option Nat}
  {r : Store.EdgeRecord (Edge π)}

theorem Covers.trans {f g : Nat → Nat} (h : Covers c c₁ f) (h' : Covers c₁ c' g) :
    Covers c c' (f ∘ g) where
  wf := h'.wf
  entry := h'.entry.trans h.entry
  original_entry := by
    have hg := h'.original_entry
    rw [h.entry] at hg
    rw [Function.comp_apply, hg, h.original_entry]
  regions := h'.regions.trans h.regions
  block := by
    intro b block' hb
    obtain ⟨block₁, hb₁, heq₁⟩ := h'.block b block' hb
    obtain ⟨block, hblock, heq⟩ := h.block (g b) block₁ hb₁
    exact ⟨block, hblock, heq₁.trans heq⟩
  edge := fun r hr => h.edge _ (h'.edge r hr)
  lift := by
    intro b hb r hr hs
    obtain ⟨block', hblock'⟩ := Option.isSome_iff_exists.mp hb
    obtain ⟨block₁, hblock₁, _⟩ := h'.block b block' hblock'
    have hlive : c₁.containsBlock (g b) := by
      rw [containsBlock, hblock₁]
      rfl
    obtain ⟨t₁, ht₁, heq₁⟩ := h.lift (g b) hlive r hr hs
    obtain ⟨t, ht, heq⟩ := h'.lift b hb _ ht₁ rfl
    refine ⟨t, ht, ?_⟩
    rw [Function.comp_apply, heq]
    exact heq₁

/-! ## Copying the blocks -/

/-- The graph after the blocks `done` have been copied. -/
structure Copied (c : Cfg ι π) (done : List Nat) (s : Copying ι π) : Prop where
  wf : s.cfg.WF
  frame : SameFrame c s.cfg
  bound : s.cfg.blockBound = c.blockBound + done.length
  edge : ∀ e, s.cfg.edge e = c.edge e
  block_old : ∀ b < c.blockBound, s.cfg.block b = c.block b
  block_new : ∀ (j b : Nat), done[j]? = some b → ∃ block copy, c.block b = some block ∧
    s.cfg.block (c.blockBound + j) = some copy ∧ copy.instructions = block.instructions
  copyOf_some : ∀ (j b : Nat), done[j]? = some b → s.copyOf b = some (c.blockBound + j)
  copyOf_none : ∀ b, b ∉ done → s.copyOf b = none

variable {s : Copying ι π} {cycle : MultiEntryCycle} {bound copy : Nat} {new new' : Store.EdgeRecord (Edge π) → Prop}

theorem Copied.step {done : List Nat} {s' : Copying ι π} (h : Copied c done s)
    (hb : b < c.blockBound) (hnew : b ∉ done) (hs : copyBlock s b = some s') :
    Copied c (done ++ [b]) s' := by
  unfold copyBlock at hs
  obtain ⟨⟨copy, cfg⟩, hcopy, hs⟩ := Option.bind_eq_some_iff.mp hs
  obtain ⟨block, hblock, hs⟩ := Option.bind_eq_some_iff.mp hs
  cases hs
  obtain ⟨rfl, hwf, hframe, hblocks, hedges, hbound, _⟩ := newBlock_spec h.wf hcopy
  have hboundEq := h.bound
  have hblock₀ : c.block b = some block := by
    rw [hblocks, if_neg (by omega), h.block_old b hb] at hblock
    exact hblock
  have hread : ∀ i, (cfg.modifyBlock s.cfg.blockBound fun empty =>
      { empty with instructions := empty.instructions ++ block.instructions }).block i =
        if i = s.cfg.blockBound then some ⟨block.instructions, none⟩ else s.cfg.block i := by
    intro i
    rw [block_modifyBlock, hblocks]
    by_cases hi : i = s.cfg.blockBound
    · rw [if_pos hi, if_pos hi, if_pos hi]
      rfl
    · rw [if_neg hi, if_neg hi, if_neg hi]
  refine ⟨hwf.modifyBlock _ _, h.frame.trans (hframe.trans ⟨rfl, rfl, rfl⟩), ?_, ?_, ?_, ?_, ?_, ?_⟩
  · rw [blockBound_modifyBlock, hbound, hboundEq, length_append, length_singleton]
    omega
  · exact fun e => (hedges e).trans (h.edge e)
  · intro i hi
    refine (hread i).trans ?_
    rw [if_neg (by omega)]
    exact h.block_old i hi
  · intro j x hj
    by_cases hlt : j < done.length
    · rw [getElem?_append_left hlt] at hj
      obtain ⟨blk, cp, hblk, hcp, heq⟩ := h.block_new j x hj
      refine ⟨blk, cp, hblk, ?_, heq⟩
      refine (hread _).trans ?_
      rw [if_neg (by omega)]
      exact hcp
    · rw [getElem?_append_right (by omega)] at hj
      obtain ⟨hzero, hget⟩ := List.getElem?_eq_some_iff.mp hj
      simp only [length_singleton] at hzero
      have hjEq : j = done.length := by omega
      subst hjEq
      simp only [Nat.sub_self, getElem_cons_zero] at hget
      subst hget
      refine ⟨block, ⟨block.instructions, none⟩, hblock₀, ?_, rfl⟩
      refine (hread _).trans ?_
      rw [if_pos (by omega)]
  · intro j x hj
    by_cases hlt : j < done.length
    · rw [getElem?_append_left hlt] at hj
      have hx : x ≠ b := by
        intro heq
        rw [heq] at hj
        exact hnew (mem_of_getElem? hj)
      exact (Function.update_of_ne hx _ _).trans (h.copyOf_some j x hj)
    · rw [getElem?_append_right (by omega)] at hj
      obtain ⟨hzero, hget⟩ := List.getElem?_eq_some_iff.mp hj
      simp only [length_singleton] at hzero
      have hjEq : j = done.length := by omega
      subst hjEq
      simp only [Nat.sub_self, getElem_cons_zero] at hget
      subst hget
      simp only [Function.update_self, hboundEq]
  · intro x hx
    rw [mem_append, mem_singleton, not_or] at hx
    exact (Function.update_of_ne hx.2 _ _).trans (h.copyOf_none x hx.1)

theorem copied_foldlM (hc : c.WF) (hnodup : copied.Nodup) (hlt : ∀ b ∈ copied, b < c.blockBound)
    (hs : copied.foldlM copyBlock ⟨c, fun _ => none⟩ = some s) : Copied c copied s := by
  have hstart : Copied c [] ⟨c, fun _ => none⟩ := by
    refine ⟨hc, ⟨rfl, rfl, rfl⟩, rfl, fun _ => rfl, fun _ _ => rfl, ?_, ?_, fun _ _ => rfl⟩
    · intro j b h
      cases h
    · intro j b h
      cases h
  have hfold := foldlM_option
    (I := fun done s => done.Nodup → (∀ b ∈ done, b < c.blockBound) → Copied c done s) ?_
    (fun _ _ => hstart) hs
  · exact hfold hnodup hlt
  · intro done b s s' h hstep hnodup hlt
    rw [nodup_append] at hnodup
    refine (h hnodup.1 fun x hx => hlt x (mem_append_left _ hx)).step
      (hlt b (mem_append_right _ mem_cons_self)) ?_ hstep
    exact fun hmem => hnodup.2.2 b hmem b mem_cons_self rfl

/-! ## Copying the edges -/

theorem addWeightedEdge_spec (h : c.WF) {source target e : Nat} {edge : Edge π}
    (hs : c.addWeightedEdgeWithPayload source target edge = some (e, c')) :
    c'.WF ∧ SameFrame c c' ∧ (∀ i, c'.block i = c.block i) ∧ c'.blockBound = c.blockBound ∧
      ∀ r, c'.HasEdge r ↔ c.HasEdge r ∨ r = ⟨source, target, edge⟩ := by
  obtain ⟨g, hadd, heq⟩ := Option.map_eq_some_iff.mp hs
  cases heq
  obtain ⟨_, _, hnodes, hedges, hedge, _⟩ := Store.Naive.addEdge_spec hadd
  obtain ⟨hwf, hframe, hblock, hbound⟩ := h.withGraph (h.graph.addEdge hadd) hnodes
  refine ⟨hwf, hframe, hblock, hbound, fun r => ?_⟩
  constructor
  · rintro ⟨i, hi⟩
    have hi' : g.edge i = some r := hi
    rw [hedge] at hi'
    split at hi'
    · exact Or.inr (Option.some.inj hi').symm
    · exact Or.inl ⟨i, hi'⟩
  · rintro (⟨i, hi⟩ | rfl)
    · refine ⟨i, ?_⟩
      change g.edge i = some r
      rw [hedge, if_neg (show i ≠ c.graph.edges.length from Nat.ne_of_lt (edge_lt hi))]
      exact hi
    · refine ⟨c.graph.edges.length, ?_⟩
      change g.edge c.graph.edges.length = _
      rw [hedge, if_pos rfl]

structure Grown (c : Cfg ι π) (new : Store.EdgeRecord (Edge π) → Prop) (c' : Cfg ι π) : Prop where
  wf : c'.WF
  frame : SameFrame c c'
  block : ∀ b, c'.block b = c.block b
  bound : c'.blockBound = c.blockBound
  edge : ∀ r, c'.HasEdge r ↔ c.HasEdge r ∨ new r

theorem Grown.refl (hc : c.WF) : Grown c (fun _ => False) c :=
  ⟨hc, ⟨rfl, rfl, rfl⟩, fun _ => rfl, rfl, fun _ => (or_iff_left id).symm⟩

theorem Grown.trans (h : Grown c new c₁) (h' : Grown c₁ new' c') : Grown c (fun r => new r ∨ new' r) c' :=
  ⟨h'.wf, h.frame.trans h'.frame, fun b => (h'.block b).trans (h.block b), h'.bound.trans h.bound,
    fun r => (h'.edge r).trans ((or_congr_left (h.edge r)).trans or_assoc)⟩

theorem Grown.congr (h : Grown c new c') (hnew : ∀ r, new r ↔ new' r) : Grown c new' c' :=
  ⟨h.wf, h.frame, h.block, h.bound, fun r => (h.edge r).trans (or_congr_right (hnew r))⟩

def edgeCopy (copyOf : Nat → Option Nat) (copy : Nat) (r : Store.EdgeRecord (Edge π)) :
    Store.EdgeRecord (Edge π) :=
  ⟨copy, (copyOf r.target).getD r.target, r.payload⟩

theorem foldlM_copyEdge {records : List (Store.EdgeRecord (Edge π))} (hc : c.WF)
    (hs : records.foldlM (copyEdge copyOf copy) c = some c') :
    Grown c (fun r => ∃ r₀ ∈ records, r = edgeCopy copyOf copy r₀) c' := by
  refine foldlM_option (I := fun done c' =>
    Grown c (fun r => ∃ r₀ ∈ done, r = edgeCopy copyOf copy r₀) c') ?_ ?_ hs
  · intro done r₀ c₁ c₂ h hstep
    obtain ⟨⟨e, c₃⟩, hadd, heq⟩ := Option.map_eq_some_iff.mp hstep
    cases heq
    obtain ⟨hwf, hframe, hblock, hbound, hedge⟩ := addWeightedEdge_spec h.wf hadd
    have hone : Grown c₁ (fun r => r = edgeCopy copyOf copy r₀) c₃ :=
      ⟨hwf, hframe, hblock, hbound, hedge⟩
    refine (h.trans hone).congr fun r => ?_
    simp only [mem_append, mem_singleton, or_and_right, exists_or, exists_eq_left]
  · refine (Grown.refl hc).congr fun r => ?_
    simp

theorem mem_outgoing_records (hc : c.WF) :
    r ∈ (c.outgoing b).filterMap c.edge ↔ c.HasEdge r ∧ r.source = b := by
  rw [mem_filterMap]
  constructor
  · intro ⟨e, he, hr⟩
    obtain ⟨r', hr', hs⟩ := hc.mem_outgoing.mp he
    rw [hr] at hr'
    cases hr'
    exact ⟨⟨e, hr⟩, hs⟩
  · intro ⟨⟨e, hr⟩, hs⟩
    exact ⟨e, hc.mem_outgoing.mpr ⟨r, hr, hs⟩, hr⟩

def CopiesOf (c : Cfg ι π) (copyOf : Nat → Option Nat) (copied : List Nat)
    (r : Store.EdgeRecord (Edge π)) : Prop :=
  ∃ b ∈ copied, ∃ copy, copyOf b = some copy ∧
    ∃ r₀, c.HasEdge r₀ ∧ r₀.source = b ∧ r = edgeCopy copyOf copy r₀

theorem foldlM_copyEdges (hc : c.WF) (hcopies : ∀ b ∈ copied, ∀ b' copy, copyOf b' = some copy → copy ≠ b)
    (hs : copied.foldlM (copyEdges copyOf) c = some c') : Grown c (CopiesOf c copyOf copied) c' := by
  have hfold := foldlM_option (I := fun done c' =>
    (∀ b ∈ done, b ∈ copied) → Grown c (CopiesOf c copyOf done) c') ?_ ?_ hs
  · exact hfold fun b hb => hb
  · intro done b c₁ c₂ h hstep hmem
    have hgrown := h fun x hx => hmem x (mem_append_left _ hx)
    have hb : b ∈ copied := hmem b (mem_append_right _ mem_cons_self)
    obtain ⟨copy, hcopy, hfold⟩ := Option.bind_eq_some_iff.mp hstep
    -- no edge of a copy leads out of `b`, so its records are still those of `c`
    have hrecords : ∀ r, r ∈ (c₁.outgoing b).filterMap c₁.edge ↔ c.HasEdge r ∧ r.source = b := by
      intro r
      rw [mem_outgoing_records hgrown.wf, hgrown.edge]
      refine and_congr_left fun hsource => or_iff_left ?_
      intro ⟨x, _, copy', hcopy', r₀, _, _, heq⟩
      rw [heq] at hsource
      exact hcopies b hb x copy' hcopy' hsource
    refine (hgrown.trans (foldlM_copyEdge hgrown.wf hfold)).congr fun r => ?_
    constructor
    · rintro (⟨x, hx, hrest⟩ | ⟨r₀, hr₀, heq⟩)
      · exact ⟨x, mem_append_left _ hx, hrest⟩
      · obtain ⟨hedge, hsource⟩ := (hrecords r₀).mp hr₀
        exact ⟨b, mem_append_right _ mem_cons_self, copy, hcopy, r₀, hedge, hsource, heq⟩
    · intro ⟨x, hx, copy', hcopy', r₀, hedge, hsource, heq⟩
      rcases mem_append.mp hx with hx | hx
      · exact Or.inl ⟨x, hx, copy', hcopy', r₀, hedge, hsource, heq⟩
      · cases mem_singleton.mp hx
        rw [hcopy] at hcopy'
        cases hcopy'
        exact Or.inr ⟨r₀, (hrecords r₀).mpr ⟨hedge, hsource⟩, heq⟩
  · intro _
    refine (Grown.refl hc).congr fun r => ?_
    simp [CopiesOf]

/-! ## Redirecting the entries -/

structure Retargeted (original : Nat → Nat) (c c' : Cfg ι π) : Prop where
  wf : c'.WF
  frame : SameFrame c c'
  block : ∀ b, c'.block b = c.block b
  bound : c'.blockBound = c.blockBound
  edge : ∀ e, (c'.edge e).map (fun r => (r.source, original r.target, r.payload)) =
    (c.edge e).map fun r => (r.source, original r.target, r.payload)

theorem Retargeted.refl (original : Nat → Nat) (hc : c.WF) : Retargeted original c c :=
  ⟨hc, ⟨rfl, rfl, rfl⟩, fun _ => rfl, rfl, fun _ => rfl⟩

theorem Retargeted.trans (h : Retargeted original c c₁) (h' : Retargeted original c₁ c') : Retargeted original c c' :=
  ⟨h'.wf, h.frame.trans h'.frame, fun b => (h'.block b).trans (h.block b), h'.bound.trans h.bound,
    fun e => (h'.edge e).trans (h.edge e)⟩

theorem exists_target {o o' : Option (Store.EdgeRecord (Edge π))}
    (h : o'.map (fun r => (r.source, original r.target, r.payload)) =
      o.map fun r => (r.source, original r.target, r.payload)) (hr : o = some r) :
    ∃ t, o' = some ⟨r.source, t, r.payload⟩ ∧ original t = original r.target := by
  rw [hr, Option.map_some, Option.map_eq_some_iff] at h
  obtain ⟨r', hr', heq⟩ := h
  simp only [Prod.mk.injEq] at heq
  obtain ⟨hs, ht, hp⟩ := heq
  refine ⟨r'.target, ?_, ht⟩
  rw [hr', ← hs, ← hp]

theorem Retargeted.hasEdge (h : Retargeted original c c') (hr : c.HasEdge r) :
    ∃ t, c'.HasEdge ⟨r.source, t, r.payload⟩ ∧ original t = original r.target := by
  obtain ⟨e, he⟩ := hr
  obtain ⟨t, ht, heq⟩ := exists_target (h.edge e) he
  exact ⟨t, ⟨e, ht⟩, heq⟩

theorem Retargeted.hasEdge_before (h : Retargeted original c c') (hr : c'.HasEdge r) :
    ∃ t, c.HasEdge ⟨r.source, t, r.payload⟩ ∧ original t = original r.target := by
  obtain ⟨e, he⟩ := hr
  obtain ⟨t, ht, heq⟩ := exists_target (h.edge e).symm he
  exact ⟨t, ⟨e, ht⟩, heq⟩

/-- Redirecting edges whose target stands for the same block as the copy. -/
theorem foldlM_redirectTo {edges : List Nat} (hc : c.WF)
    (hedges : ∀ e ∈ edges, ∀ r, c.edge e = some r → original r.target = original copy)
    (hs : edges.foldlM (redirectTo copy) c = some c') : Retargeted original c c' := by
  have hfold := foldlM_option (I := fun done c' =>
    (∀ e ∈ done, e ∈ edges) → Retargeted original c c') ?_ (fun _ => Retargeted.refl original hc) hs
  · exact hfold fun e he => he
  · intro done e c₁ c₂ h hstep hmem
    have hsame := h fun x hx => hmem x (mem_append_left _ hx)
    have he : e ∈ edges := hmem e (mem_append_right _ mem_cons_self)
    obtain ⟨⟨old, c₃⟩, hredirect, heq⟩ := Option.map_eq_some_iff.mp hstep
    cases heq
    obtain ⟨hwf, hframe, hblock, hbound, _, r, hr, _, hcase⟩ := redirectEdge_spec hsame.wf hredirect
    refine hsame.trans ⟨hwf, hframe, hblock, hbound, fun i => ?_⟩
    rcases hcase with ⟨_, hsameCfg⟩ | ⟨_, hedge⟩
    · simp only at hsameCfg ⊢
      rw [hsameCfg]
    · refine (congrArg (Option.map _) (hedge i)).trans ?_
      by_cases hi : i = e
      · have htarget : original r.target = original copy := by
          have hbefore := hsame.edge e
          obtain ⟨t, ht, heq⟩ := exists_target hbefore.symm hr
          rw [← heq]
          exact hedges e he _ ht
        rw [if_pos hi, hi, hr, Option.map_some, Option.map_some, htarget]
        rfl
      · rw [if_neg hi]

theorem foldlM_redirectEntry {entries : List Nat} (hc : c.WF)
    (hcopies : ∀ entry copy, copyOf entry = some copy → original copy = original entry)
    (hs : entries.foldlM (redirectEntry cycle copyOf) c = some c') : Retargeted original c c' := by
  refine foldlM_option (I := fun _ c' => Retargeted original c c') ?_ (Retargeted.refl original hc) hs
  intro done entry c₁ c₂ h hstep
  obtain ⟨copy, hcopy, hfold⟩ := Option.bind_eq_some_iff.mp hstep
  refine h.trans (foldlM_redirectTo h.wf ?_ hfold)
  intro e he r hr
  obtain ⟨r', hr', htarget⟩ := h.wf.mem_incoming.mp (mem_filter.mp he).1
  rw [hr] at hr'
  cases hr'
  rw [htarget, hcopies entry copy hcopy]

/-! ## One round -/

/-- The block a block stands for, after the blocks `copied` have been copied in order. -/
def originalOf (bound : Nat) (copied : List Nat) (b : Nat) : Nat :=
  if b < bound then b else copied.getD (b - bound) b

theorem originalOf_old (copied : List Nat) (h : b < bound) :
    originalOf bound copied b = b := if_pos h

theorem originalOf_new {j : Nat} (h : copied[j]? = some b) :
    originalOf bound copied (bound + j) = b := by
  unfold originalOf
  rw [if_neg (by omega), Nat.add_sub_cancel_left, getD_eq_getElem?_getD, h]
  rfl

theorem splitCycle_spec (hc : c.WF) {header : Nat} {region : Nat → Bool}
    (hs : c.splitCycle cycle header region = some (copied, c')) :
    copied = c.blockIds.filter region ∧ c'.blockBound = c.blockBound + copied.length ∧
      (∀ b < c'.blockBound, c.blockBound ≤ b → c'.containsBlock b) ∧
      Covers c c' (originalOf c.blockBound copied) := by
  unfold splitCycle at hs
  obtain ⟨s, hcopy, hs⟩ := Option.bind_eq_some_iff.mp hs
  obtain ⟨c₁, hedges, hs⟩ := Option.bind_eq_some_iff.mp hs
  obtain ⟨c₂, hredirect, hs⟩ := Option.bind_eq_some_iff.mp hs
  cases hs
  generalize hlist : c.blockIds.filter region = copied at *
  have hlive : ∀ b ∈ copied, c.containsBlock b := by
    intro b hb
    rw [← hlist] at hb
    exact mem_blockIds.mp (mem_of_mem_filter hb)
  have hlt : ∀ b ∈ copied, b < c.blockBound := fun b hb => block_lt (hlive b hb)
  have hnodup : copied.Nodup := by
    rw [← hlist]
    exact (nodup_range.filter _).filter _
  have h₀ := copied_foldlM hc hnodup hlt hcopy
  -- a copy is named after the block at its place in the list
  have hcopyOf : ∀ b copy, s.copyOf b = some copy →
      ∃ j, copied[j]? = some b ∧ copy = c.blockBound + j := by
    intro b copy h
    have hmem : b ∈ copied := by
      by_contra hnot
      rw [h₀.copyOf_none b hnot] at h
      cases h
    obtain ⟨j, hj⟩ := getElem?_of_mem hmem
    rw [h₀.copyOf_some j b hj] at h
    cases h
    exact ⟨j, hj, rfl⟩
  have horiginal : ∀ b copy, s.copyOf b = some copy →
      originalOf c.blockBound copied copy = originalOf c.blockBound copied b := by
    intro b copy h
    obtain ⟨j, hj, rfl⟩ := hcopyOf b copy h
    rw [originalOf_new hj, originalOf_old copied (hlt b (mem_of_getElem? hj))]
  have htarget : ∀ t < c.blockBound,
      originalOf c.blockBound copied ((s.copyOf t).getD t) = t := by
    intro t ht
    cases htc : s.copyOf t with
    | none => rw [Option.getD_none, originalOf_old copied ht]
    | some copy => rw [Option.getD_some, horiginal t copy htc, originalOf_old copied ht]
  have h₁ := foldlM_copyEdges h₀.wf (fun b hb b' copy h => by
    obtain ⟨j, _, rfl⟩ := hcopyOf b' copy h
    have := hlt b hb
    omega) hedges
  have h₂ := foldlM_redirectEntry h₁.wf horiginal hredirect
  have hbound : c'.blockBound = c.blockBound + copied.length :=
    h₂.bound.trans (h₁.bound.trans h₀.bound)
  have hblock : ∀ b, c'.block b = s.cfg.block b := fun b => (h₂.block b).trans (h₁.block b)
  have hframe : SameFrame c c' := h₀.frame.trans (h₁.frame.trans h₂.frame)
  have hsame : ∀ r, s.cfg.HasEdge r ↔ c.HasEdge r := fun r =>
    exists_congr fun e => by rw [h₀.edge e]
  have hbelow : ∀ r, c.HasEdge r → r.source < c.blockBound ∧ r.target < c.blockBound := by
    intro r ⟨e, he⟩
    exact ⟨block_lt (hc.source_live he), block_lt (hc.target_live he)⟩
  have hnew : ∀ b, c.blockBound ≤ b → b < c'.blockBound → ∃ j x, copied[j]? = some x ∧
      b = c.blockBound + j := by
    intro b hle hb
    obtain ⟨x, hx⟩ : ∃ x, copied[b - c.blockBound]? = some x :=
      ⟨_, getElem?_eq_getElem (by omega)⟩
    exact ⟨b - c.blockBound, x, hx, by omega⟩
  refine ⟨rfl, hbound, ?_, h₂.wf, hframe.entry, originalOf_old _ (block_lt hc.entry),
    hframe.regions, ?_, ?_, ?_⟩
  · intro b hb hle
    obtain ⟨j, x, hx, rfl⟩ := hnew b hle hb
    obtain ⟨_, copy, _, hcopied, _⟩ := h₀.block_new j x hx
    rw [containsBlock, hblock, hcopied]
    rfl
  · intro b block' hb
    have hltb : b < c'.blockBound := block_lt (by rw [containsBlock, hb]; rfl)
    rw [hblock] at hb
    by_cases hold : b < c.blockBound
    · rw [h₀.block_old b hold] at hb
      exact ⟨block', by rw [originalOf_old copied hold]; exact hb, rfl⟩
    · obtain ⟨j, x, hx, rfl⟩ := hnew b (by omega) hltb
      obtain ⟨block, copy, hblk, hcopied, heq⟩ := h₀.block_new j x hx
      rw [hcopied] at hb
      cases hb
      exact ⟨block, by rw [originalOf_new hx]; exact hblk, heq⟩
  · intro r hr
    obtain ⟨t, ht, heq⟩ := h₂.hasEdge_before hr
    rw [← heq]
    rcases (h₁.edge _).mp ht with hold | ⟨b, hb, copy, hcopy', r₀, hr₀, hsource, hrec⟩
    · have hold' := (hsame _).mp hold
      obtain ⟨hs, ht'⟩ := hbelow _ hold'
      rw [originalOf_old copied hs, originalOf_old copied ht']
      exact hold'
    · have hr₀' := (hsame _).mp hr₀
      obtain ⟨hs₀, ht₀⟩ := hbelow _ hr₀'
      simp only [edgeCopy, Store.EdgeRecord.mk.injEq] at hrec
      obtain ⟨hs, ht', hp⟩ := hrec
      rw [hs, hp, ht', htarget _ ht₀, horiginal b copy hcopy', originalOf_old copied (hlt b hb), ← hsource]
      exact hr₀'
  · intro b hb r hr hs
    by_cases hold : b < c.blockBound
    · rw [originalOf_old copied hold] at hs
      obtain ⟨t, ht, heq⟩ := h₂.hasEdge ((h₁.edge r).mpr (Or.inl ((hsame r).mpr hr)))
      rw [hs] at ht
      exact ⟨t, ht, heq.trans (originalOf_old copied (hbelow r hr).2)⟩
    · obtain ⟨j, x, hx, rfl⟩ := hnew b (by omega) (block_lt hb)
      rw [originalOf_new hx] at hs
      have hcopyx := h₀.copyOf_some j x hx
      obtain ⟨t, ht, heq⟩ := h₂.hasEdge ((h₁.edge _).mpr (Or.inr ⟨x, mem_of_getElem? hx,
        _, hcopyx, r, (hsame r).mpr hr, hs, rfl⟩))
      exact ⟨t, ht, heq.trans (htarget _ (hbelow r hr).2)⟩

end CfgLib.Cfg

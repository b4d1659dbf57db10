import CfgLib.Cfg.Trace

/-!
# Edge contraction

`transform/contract.rs`: folding one block into the block that leads to it.
The one contraction every merge goes through, with its identity record.
-/

namespace CfgLib.Transform

open CfgLib.Lib

variable {ι π : Type}

/-- A contraction that happened, with the graph it was applied to. -/
structure Fold (ι π : Type) where
  before : Cfg ι π
  source : Nat
  target : Nat

/-- What a pass works on: the graph, the identity record when one is kept, and
as ghost state the contractions made so far. -/
structure Session (ι π : Type) where
  cfg : Cfg ι π
  mapping : Option Rewrite
  folds : List (Fold ι π)

def contractEdgeInner (s : Session ι π) (source target : Nat) : Option (Bool × Session ι π) :=
  let c := s.cfg
  if source = target ∨ target = c.entry then some (false, s)
  else match c.soleOutgoing source with
    | none => some (false, s)
    | some connecting => do
      let record ← c.edge connecting
      if c.soleIncoming target ≠ some connecting ∨ record.target ≠ target ∨
          record.payload.kind.isExceptional = true ∨ c.canFoldInto source target = false then
        pure (false, s)
      else
        let targetBlock ← c.block target
        let c := c.modifyBlock target fun b => { b with instructions := [] }
        let c := c.modifyBlock source fun b =>
          { instructions := b.instructions ++ targetBlock.instructions
            label := b.label.or targetBlock.label }
        let c := (c.removeEdge connecting).2
        let c ← c.moveOutgoingEdges target source
        let moved := c.outgoing source
        let (_, c) ← c.removeBlock target
        pure (true,
          { cfg := c
            mapping := s.mapping.map fun mapping =>
              ((mapping.recordEdge connecting []).recordKept moved).recordBlock target [source]
            folds := s.folds ++ [⟨s.cfg, source, target⟩] })

structure IsFold (c : Cfg ι π) (source target connecting : Nat) (sb tb : BasicBlock ι)
    (c' : Cfg ι π) : Prop where
  wf : c'.WF
  frame : c.SameFrame c'
  ne : source ≠ target
  ne_entry : target ≠ c.entry
  connects : ∃ r, c.edge connecting = some r ∧ r.source = source ∧ r.target = target ∧
    r.payload.kind.isExceptional = false
  sole_outgoing : ∀ e r, c.edge e = some r → r.source = source → e = connecting
  sole_incoming : ∀ e r, c.edge e = some r → r.target = target → e = connecting
  not_anchor : target ∉ c.anchors
  placement : c.placement source = c.placement target
  source_block : c.block source = some sb
  target_block : c.block target = some tb
  block : ∀ i, c'.block i =
    if i = target then none
    else if i = source then
      some { instructions := sb.instructions ++ tb.instructions, label := sb.label.or tb.label }
    else c.block i
  edge : ∀ e, c'.edge e =
    if e = connecting then none else (c.edge e).map (Cfg.moveSource target source)
  blockBound : c'.blockBound = c.blockBound
  edgeBound : c'.edgeBound = c.edgeBound

theorem contractEdgeInner_spec {s : Session ι π} (h : s.cfg.WF) (source target : Nat) :
    contractEdgeInner s source target = some (false, s) ∨
      ∃ s' connecting sb tb moved, contractEdgeInner s source target = some (true, s') ∧
        IsFold s.cfg source target connecting sb tb s'.cfg ∧
        (∀ e, e ∈ moved ↔ ∃ r, s'.cfg.edge e = some r ∧ r.source = source) ∧
        s'.mapping = s.mapping.map (fun mapping =>
          ((mapping.recordEdge connecting []).recordKept moved).recordBlock target [source]) ∧
        s'.folds = s.folds ++ [⟨s.cfg, source, target⟩] := by
  generalize hres : contractEdgeInner s source target = res
  unfold contractEdgeInner at hres
  simp only at hres
  split at hres
  · exact Or.inl hres.symm
  next hpre =>
  have hne : source ≠ target := fun he => hpre (Or.inl he)
  have hentry : target ≠ s.cfg.entry := fun he => hpre (Or.inr he)
  split at hres
  · exact Or.inl hres.symm
  next connecting hsole =>
  obtain ⟨⟨record, hrecord, hsource⟩, hout⟩ := h.soleOutgoing hsole
  simp only [Option.bind_eq_bind, hrecord, Option.bind_some] at hres
  split at hres
  · exact Or.inl hres.symm
  next hguard =>
  simp only [not_or, not_not, Bool.not_eq_true, Bool.not_eq_false] at hguard
  obtain ⟨hsoleIn, htarget, hkind, hfold⟩ := hguard
  have hin := h.soleIncoming hsoleIn
  obtain ⟨hanchor, hplacement⟩ := Cfg.canFoldInto_spec hfold
  obtain ⟨sb, hsb⟩ := Option.isSome_iff_exists.mp (hsource ▸ h.source_live hrecord)
  obtain ⟨tb, htb⟩ := Option.isSome_iff_exists.mp (htarget ▸ h.target_live hrecord)
  simp only [htb, Option.bind_some] at hres
  -- the payload edits and the removal of the connecting edge
  set c₂ := (s.cfg.modifyBlock target fun b => { b with instructions := [] }).modifyBlock source
    fun b => { instructions := b.instructions ++ tb.instructions, label := b.label.or tb.label }
    with hc₂
  have hwf₂ : c₂.WF := (h.modifyBlock _ _).modifyBlock _ _
  have hblock₂ : ∀ i, c₂.block i = if i = source then
      some { instructions := sb.instructions ++ tb.instructions, label := sb.label.or tb.label }
      else if i = target then some { tb with instructions := [] } else s.cfg.block i := by
    intro i
    rw [hc₂, Cfg.block_modifyBlock, Cfg.block_modifyBlock]
    by_cases hs : i = source
    · subst hs
      simp [hne, hsb]
    · by_cases ht : i = target
      · subst ht
        simp [hs, htb]
      · simp [hs, ht]
  obtain ⟨hwf₃, hframe₃, hblock₃, hedge₃, hbound₃, hebound₃⟩ :=
    Cfg.removeEdge_spec hwf₂ connecting
  set c₃ := (c₂.removeEdge connecting).2 with hc₃
  have hbound : c₃.blockBound = s.cfg.blockBound := by
    rw [hbound₃, hc₂, Cfg.blockBound_modifyBlock, Cfg.blockBound_modifyBlock]
  have hlive₃ : c₃.containsBlock source := by
    rw [Cfg.containsBlock, hblock₃, hblock₂, if_pos rfl]
    rfl
  have hlt : target < c₃.blockBound := by
    rw [hbound]
    exact Cfg.block_lt (by simp [Cfg.containsBlock, htb])
  obtain ⟨c₄, hc₄⟩ := Cfg.exists_moveOutgoingEdges hlt hlive₃
  obtain ⟨hwf₄, hframe₄, hblock₄, hedge₄, hbound₄, hebound₄⟩ :=
    Cfg.moveOutgoingEdges_spec hwf₃ hc₄
  have hframe₂ : s.cfg.SameFrame c₂ := ⟨rfl, rfl, rfl⟩
  have hframe : s.cfg.SameFrame c₄ := (hframe₂.trans hframe₃).trans hframe₄
  have hedge : ∀ e, c₄.edge e =
      if e = connecting then none else (s.cfg.edge e).map (Cfg.moveSource target source) := by
    intro e
    rw [hedge₄, hedge₃]
    split
    · rfl
    · rfl
  have hlive₄ : c₄.containsBlock target := by
    rw [Cfg.containsBlock, hblock₄, hblock₃, hblock₂, if_neg (Ne.symm hne), if_pos rfl]
    rfl
  obtain ⟨c₅, hc₅⟩ := Cfg.exists_removeBlock (c := c₄) (b := target)
    (by rw [hframe.entry]; exact hentry)
  obtain ⟨-, hrem⟩ := Cfg.removeBlock_spec hwf₄ hlive₄ hc₅
  -- no edge of the target is left by then
  have hedge₅ : ∀ e, c₅.edge e = c₄.edge e := by
    intro e
    rw [hrem.edge]
    cases hr : c₄.edge e with
    | none => rfl
    | some r =>
      rw [hedge] at hr
      split at hr
      · cases hr
      next hec =>
      obtain ⟨r₀, hr₀, rfl⟩ := Option.map_eq_some_iff.mp hr
      have ht : r₀.target ≠ target := fun ht => hec (hin e r₀ hr₀ ht)
      have hs : (Cfg.moveSource target source r₀).source ≠ target := by
        rw [Cfg.source_moveSource]
        split
        · exact hne
        · assumption
      simp [hs, ht]
  right
  rw [hc₄] at hres
  simp only [Option.bind_some, hc₅] at hres
  refine ⟨_, connecting, sb, tb, c₄.outgoing source, hres.symm, ?_, ?_, rfl, rfl⟩
  · exact {
      wf := hrem.wf
      frame := hframe.trans hrem.frame
      ne := hne
      ne_entry := hentry
      connects := ⟨record, hrecord, hsource, htarget, hkind⟩
      sole_outgoing := hout
      sole_incoming := hin
      not_anchor := hanchor
      placement := hplacement
      source_block := hsb
      target_block := htb
      block := by
        intro i
        rw [hrem.block, hblock₄, hblock₃, hblock₂]
        by_cases ht : i = target
        · simp [ht]
        · simp [ht]
      edge := fun e => (hedge₅ e).trans (hedge e)
      blockBound := hrem.blockBound.trans (hbound₄.trans hbound)
      edgeBound := hrem.edgeBound.trans (hebound₄.trans hebound₃) }
  · intro e
    rw [hwf₄.mem_outgoing]
    simp only [hedge₅]

def contractEdge (c : Cfg ι π) (source target : Nat) : Option (Bool × Cfg ι π) :=
  (contractEdgeInner ⟨c, none, []⟩ source target).map fun (happened, s) => (happened, s.cfg)

/-- Contract an edge; a record comes back when it happened. -/
def contractEdgeMapped (c : Cfg ι π) (source target : Nat) : Option (Option Rewrite × Cfg ι π) :=
  (contractEdgeInner ⟨c, some .new, []⟩ source target).map fun (happened, s) =>
    (if happened then s.mapping else none, s.cfg)

/-! ## Traces -/

/-- Folding cannot put a throwing instruction under an unwind edge: no instruction
of the source throws, or no unwind edge leaves the target. -/
def FoldSafe (throws : ι → Bool) (c : Cfg ι π) (source target : Nat) : Prop :=
  (∀ block, c.block source = some block → ∀ a ∈ block.instructions, throws a = false) ∨
    ∀ t, ¬ c.flow.unwind target t

namespace IsFold

variable {c c' : Cfg ι π} {source target connecting : Nat} {sb tb : BasicBlock ι}
  {P : EdgeKind → Prop}

section

variable (h : IsFold c source target connecting sb tb c')
include h

theorem contains_iff (i : Nat) : c'.containsBlock i ↔ c.containsBlock i ∧ i ≠ target := by
  simp only [Cfg.containsBlock, h.block]
  by_cases ht : i = target
  · simp [ht]
  · by_cases hs : i = source
    · subst hs
      simp [ht, h.source_block]
    · simp [ht, hs]

variable {a e t : Nat} {r : Store.EdgeRecord (Edge π)}

theorem edge_cases (hr : c'.edge e = some r) :
    e ≠ connecting ∧ ∃ r₀, c.edge e = some r₀ ∧ r = Cfg.moveSource target source r₀ := by
  rw [h.edge] at hr
  split at hr
  · cases hr
  · next he =>
    obtain ⟨r₀, hr₀, rfl⟩ := Option.map_eq_some_iff.mp hr
    exact ⟨he, r₀, hr₀, rfl⟩

theorem edge_old (hr : c.edge e = some r) (he : e ≠ connecting) :
    c'.edge e = some (Cfg.moveSource target source r) := by
  rw [h.edge, if_neg he, hr]
  rfl

theorem leads_source : c'.Leads P source t ↔ c.Leads P target t := by
  constructor
  · rintro ⟨e, r, hr, hs, ht, hk⟩
    obtain ⟨hec, r₀, hr₀, rfl⟩ := h.edge_cases hr
    rw [Cfg.source_moveSource] at hs
    rw [Cfg.target_moveSource] at ht
    rw [Cfg.payload_moveSource] at hk
    split at hs
    · next hs₀ => exact ⟨e, r₀, hr₀, hs₀, ht, hk⟩
    · exact absurd (h.sole_outgoing e r₀ hr₀ hs) hec
  · rintro ⟨e, r, hr, hs, ht, hk⟩
    have hec : e ≠ connecting := by
      rintro rfl
      obtain ⟨r', hr', hs', _⟩ := h.connects
      rw [hr] at hr'
      cases hr'
      exact h.ne (hs'.symm.trans hs)
    refine ⟨e, _, h.edge_old hr hec, ?_, by simpa using ht, by simpa using hk⟩
    rw [Cfg.source_moveSource, if_pos hs]

theorem leads_other (hs : a ≠ source) (ht : a ≠ target) : c'.Leads P a t ↔ c.Leads P a t := by
  constructor
  · rintro ⟨e, r, hr, hsrc, htgt, hk⟩
    obtain ⟨_, r₀, hr₀, rfl⟩ := h.edge_cases hr
    rw [Cfg.source_moveSource] at hsrc
    rw [Cfg.target_moveSource] at htgt
    rw [Cfg.payload_moveSource] at hk
    split at hsrc
    · exact absurd hsrc.symm hs
    · exact ⟨e, r₀, hr₀, hsrc, htgt, hk⟩
  · rintro ⟨e, r, hr, hsrc, htgt, hk⟩
    have hec : e ≠ connecting := by
      rintro rfl
      obtain ⟨r', hr', hs', _⟩ := h.connects
      rw [hr] at hr'
      cases hr'
      exact hs (hsrc.symm.trans hs')
    refine ⟨e, _, h.edge_old hr hec, ?_, by simpa using htgt, by simpa using hk⟩
    rw [Cfg.source_moveSource, if_neg (hsrc ▸ ht), hsrc]

theorem leads_before (hl : c.Leads P a t) (hat : a = source ∨ t = target) :
    a = source ∧ t = target ∧ ∃ kind, P kind ∧ kind.isExceptional = false := by
  obtain ⟨e, r, hr, hs, ht, hk⟩ := hl
  have hec : e = connecting := by
    rcases hat with rfl | rfl
    · exact h.sole_outgoing e r hr hs
    · exact h.sole_incoming e r hr ht
  obtain ⟨r', hr', hs', ht', hk'⟩ := h.connects
  rw [← hec, hr] at hr'
  cases hr'
  exact ⟨hs.symm.trans hs', ht.symm.trans ht', _, hk, hk'⟩

theorem folds : Flow.Folds c.flow c'.flow source target sb.instructions tb.instructions where
  ne := h.ne
  source := Cfg.code_eq_some h.source_block
  target := Cfg.code_eq_some h.target_block
  merged := by
    have hblock : c'.block source = some { instructions := sb.instructions ++ tb.instructions
                                           label := sb.label.or tb.label } := by
      rw [h.block, if_neg h.ne, if_pos rfl]
    exact Cfg.code_eq_some hblock
  code_other := by
    intro b hs ht
    simp only [Cfg.flow]
    rw [h.block, if_neg ht, if_neg hs]
  normal_source := by
    intro t
    constructor
    · exact fun hl => (h.leads_before (P := Cfg.Sequential) hl (Or.inl rfl)).2.1
    · rintro rfl
      obtain ⟨r, hr, hs, ht, hk⟩ := h.connects
      refine ⟨connecting, r, hr, hs, ht, ?_⟩
      intro hunwind
      rw [hunwind] at hk
      cases hk
  unwind_source := by
    intro t hl
    obtain ⟨_, _, kind, rfl, hk⟩ := h.leads_before (P := Cfg.Unwinding) hl (Or.inl rfl)
    cases hk
  normal_target := fun a hl => (h.leads_before (P := Cfg.Sequential) hl (Or.inr rfl)).1
  unwind_target := by
    intro a hl
    obtain ⟨_, _, kind, rfl, hk⟩ := h.leads_before (P := Cfg.Unwinding) hl (Or.inr rfl)
    cases hk
  normal_merged := fun t => h.leads_source (P := Cfg.Sequential)
  unwind_merged := fun t => h.leads_source (P := Cfg.Unwinding)
  normal_other := fun a t hs ht => h.leads_other (P := Cfg.Sequential) hs ht
  unwind_other := fun a t hs ht => h.leads_other (P := Cfg.Unwinding) hs ht

theorem sameTraces {throws : ι → Bool} (hsafe : FoldSafe throws c source target) : Cfg.SameTraces throws c c' := by
  have hsame := h.folds.sameTraces (hsafe.imp_left fun hno => hno sb h.source_block)
    (Ne.symm h.ne_entry)
  unfold Cfg.SameTraces
  rwa [h.frame.entry]

end

end IsFold

end CfgLib.Transform

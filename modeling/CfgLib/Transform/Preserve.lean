import CfgLib.Transform.Cleanup

/-!
# What cleanup preserves

Any sequence of cleanup passes returns.  It keeps the anchors and every region,
and a surviving block holds the instructions of blocks with its own regions and
handler bodies.  It keeps every trace as long as no contraction puts a throwing
instruction of its source under an unwind edge of its target.
-/

namespace CfgLib.Transform

open CfgLib.Lib List

variable {ι π : Type} {c c' c'' : Cfg ι π}

/-! ## Traces -/

namespace IsBypass

variable {id target outgoing : Nat} {P : EdgeKind → Prop}

theorem leads_iff (h : IsBypass c id target outgoing c') {a b : Nat} (ha : a ≠ id) :
    c'.Leads P a b ↔ c.Leads P a b ∧ b ≠ id ∨ c.Leads P a id ∧ b = target := by
  constructor
  · rintro ⟨e, r, hr, hs, ht, hk⟩
    rw [h.edge] at hr
    split at hr
    · cases hr
    obtain ⟨r₀, hr₀, rfl⟩ := Option.map_eq_some_iff.mp hr
    rw [Cfg.source_moveTarget] at hs
    rw [Cfg.payload_moveTarget] at hk
    rw [Cfg.target_moveTarget] at ht
    split at ht
    · next hid => exact Or.inr ⟨⟨e, r₀, hr₀, hs, hid, hk⟩, ht.symm⟩
    · next hid => exact Or.inl ⟨⟨e, r₀, hr₀, hs, ht, hk⟩, ht ▸ hid⟩
  · -- an edge that does not leave the bypassed block survives
    have hkeep : ∀ e r, c.edge e = some r → r.source = a →
        c'.edge e = some (Cfg.moveTarget id target r) := by
      intro e r hr hs
      have hne : e ≠ outgoing := by
        rintro rfl
        obtain ⟨r', hr', hs', _⟩ := h.leaves
        rw [hr] at hr'
        cases hr'
        exact ha (hs.symm.trans hs')
      rw [h.edge, if_neg hne, hr]
      rfl
    rintro (⟨⟨e, r, hr, hs, ht, hk⟩, hb⟩ | ⟨⟨e, r, hr, hs, ht, hk⟩, rfl⟩)
    · refine ⟨e, _, hkeep e r hr hs, by simpa using hs, ?_, by simpa using hk⟩
      rw [Cfg.target_moveTarget, if_neg (ht ▸ hb), ht]
    · refine ⟨e, _, hkeep e r hr hs, by simpa using hs, ?_, by simpa using hk⟩
      rw [Cfg.target_moveTarget, if_pos ht]

theorem bypasses (h : IsBypass c id target outgoing c') :
    Flow.Bypasses c.flow c'.flow id target where
  ne := h.ne
  empty := by
    obtain ⟨label, hb⟩ := h.empty
    exact Cfg.code_eq_some hb
  code_other := by
    intro b hb
    simp only [Cfg.flow, h.block, if_neg hb]
  normal_source := by
    intro b
    obtain ⟨r, hr, hs, ht, hk⟩ := h.leaves
    constructor
    · rintro ⟨e, r', hr', hs', ht', _⟩
      obtain rfl := h.sole_outgoing e r' hr' hs'
      rw [hr] at hr'
      cases hr'
      exact ht'.symm.trans ht
    · rintro rfl
      refine ⟨outgoing, r, hr, hs, ht, ?_⟩
      intro hunwind
      rw [hunwind] at hk
      cases hk
  normal_iff := fun a b ha => h.leads_iff (P := Cfg.Sequential) ha
  unwind_iff := fun a b ha => h.leads_iff (P := Cfg.Unwinding) ha

end IsBypass

variable {fs : List (Fold ι π)} {throws : ι → Bool}

/-- A closed set reads the same after a block outside it is removed. -/
theorem Closed.agrees {K : Nat → Prop} {b : Nat} (hK : Closed c K)
    (hrem : c.IsRemoval b c') (hb : ¬ K b) : Flow.Agrees throws c.flow c'.flow K := by
  have hout : ∀ {a}, K a → a ≠ b := fun ha he => hb (he ▸ ha)
  have hleads : ∀ (P : EdgeKind → Prop) a t, K a → (c'.Leads P a t ↔ c.Leads P a t) := by
    intro P a t ha
    constructor
    · rintro ⟨e, r, hr, hs, ht, hk⟩
      rw [hrem.edge] at hr
      obtain ⟨r₀, hr₀, hkeep⟩ := Option.bind_eq_some_iff.mp hr
      split at hkeep
      · cases hkeep
      · cases hkeep
        exact ⟨e, r, hr₀, hs, ht, hk⟩
    · rintro ⟨e, r, hr, hs, ht, hk⟩
      refine ⟨e, r, ?_, hs, ht, hk⟩
      have htarget := hout (hK.edge e r hr (hs ▸ ha))
      have hsource : r.source ≠ b := hs ▸ hout ha
      rw [hrem.edge, hr]
      simp [hsource, htarget]
  refine ⟨?_, ?_, ?_, ?_, ?_⟩
  · intro x hx
    simp only [Cfg.flow, hrem.block, if_neg (hout hx)]
  · exact fun a t ha => hleads Cfg.Sequential a t ha
  · exact fun a t ha => hleads Cfg.Unwinding a t ha
  · rintro a t l ha _ ⟨e, r, hr, hs, rfl, _⟩
    exact hK.edge e r hr (hs ▸ ha)
  · rintro a t l x ha _ _ _ ⟨e, r, hr, hs, rfl, _⟩
    exact hK.edge e r hr (hs ▸ ha)

def AllSafe (throws : ι → Bool) (folds : List (Fold ι π)) : Prop :=
  ∀ f ∈ folds, FoldSafe throws f.before f.source f.target

theorem Edit.sameTraces (h : Edit c fs c') (hsafe : AllSafe throws fs) : Cfg.SameTraces throws c c' := by
  cases h with
  | fold h => exact h.sameTraces (hsafe _ mem_cons_self)
  | bypass h =>
    unfold Cfg.SameTraces
    rw [h.frame.entry]
    exact h.bypasses.sameTraces (Ne.symm h.ne_entry)
  | drop h hK hb =>
    unfold Cfg.SameTraces
    rw [h.frame.entry]
    exact (hK.agrees h hb).sameTraces hK.entry

theorem Edits.sameTraces {n : Nat} (h : Edits n c fs c') (hsafe : AllSafe throws fs) :
    Cfg.SameTraces throws c c' := by
  induction h with
  | refl => exact .refl throws _
  | step he _ ih =>
    have hsafe₁ := fun f hf => hsafe f (mem_append_left _ hf)
    have hsafe₂ := fun f hf => hsafe f (mem_append_right _ hf)
    exact (he.sameTraces hsafe₁).trans (ih hsafe₂)

/-! ## Exception metadata -/

/-- Anchors survive, no block changes its regions or known bodies, and a
surviving block holds its own instructions and those of blocks placed alike. -/
structure Keeps (c c' : Cfg ι π) : Prop where
  frame : c.SameFrame c'
  anchor : ∀ a ∈ c.anchors, c.containsBlock a → c'.containsBlock a
  instructions : ∀ b, c'.containsBlock b → c.containsBlock b ∧
    ∃ rest, c'.instructions b = (b :: rest).flatMap c.instructions ∧
      ∀ o ∈ rest, c.containsBlock o ∧ c.placement o = c.placement b

theorem anchors_eq (h : c.SameFrame c') : c'.anchors = c.anchors := by
  unfold Cfg.anchors
  rw [h.regions, h.cleanups]

theorem placement_eq (h : c.SameFrame c') (b : Nat) : c'.placement b = c.placement b := by
  unfold Cfg.placement
  rw [h.regions]

theorem Keeps.refl (c : Cfg ι π) : Keeps c c where
  frame := ⟨rfl, rfl, rfl⟩
  anchor := fun _ _ h => h
  instructions := fun b hb => ⟨hb, [], by simp, by simp⟩

theorem Keeps.trans (h : Keeps c c') (h' : Keeps c' c'') : Keeps c c'' where
  frame := h.frame.trans h'.frame
  anchor := fun a ha hlive =>
    h'.anchor a (anchors_eq h.frame ▸ ha) (h.anchor a ha hlive)
  instructions := by
    intro b hb
    obtain ⟨hb', rest', hcode', hrest'⟩ := h'.instructions b hb
    obtain ⟨hb₀, rest, hcode, hrest⟩ := h.instructions b hb'
    -- the blocks each middle block was made of
    have hparts : ∀ l : List Nat, (∀ o ∈ l, c'.containsBlock o ∧ c'.placement o = c'.placement b) →
        ∃ l₀ : List Nat, l.flatMap c'.instructions = l₀.flatMap c.instructions ∧
          ∀ o ∈ l₀, c.containsBlock o ∧ c.placement o = c.placement b := by
      intro l
      induction l with
      | nil => exact fun _ => ⟨[], rfl, by simp⟩
      | cons o l ih =>
        intro hl
        obtain ⟨l₀, hl₀, hmem⟩ := ih fun x hx => hl x (mem_cons_of_mem o hx)
        obtain ⟨holive, hoplace⟩ := hl o mem_cons_self
        obtain ⟨ho, more, hmore, hmoremem⟩ := h.instructions o holive
        rw [placement_eq h.frame, placement_eq h.frame] at hoplace
        refine ⟨(o :: more) ++ l₀, ?_, ?_⟩
        · rw [flatMap_cons, hmore, hl₀, flatMap_append]
        · intro x hx
          rcases mem_append.mp hx with hx | hx
          · rcases mem_cons.mp hx with rfl | hx
            · exact ⟨ho, hoplace⟩
            · exact ⟨(hmoremem x hx).1, (hmoremem x hx).2.trans hoplace⟩
          · exact hmem x hx
    obtain ⟨l₀, hl₀, hmem⟩ := hparts rest' hrest'
    refine ⟨hb₀, rest ++ l₀, ?_, ?_⟩
    · rw [hcode', flatMap_cons, hcode, hl₀, ← flatMap_append, cons_append]
    · intro o ho
      rcases mem_append.mp ho with ho | ho
      · exact hrest o ho
      · exact hmem o ho

theorem keeps_of_removed {d : Nat} (hframe : c.SameFrame c') (hd : d ∉ c.anchors ∨ ¬ c.containsBlock d)
    (hblock : ∀ i, c'.block i = if i = d then none else c.block i) : Keeps c c' where
  frame := hframe
  anchor := by
    intro a ha hlive
    have hne : a ≠ d := by
      rintro rfl
      exact hd.elim (fun h => h ha) (fun h => h hlive)
    rwa [Cfg.containsBlock, hblock, if_neg hne]
  instructions := by
    intro b hb
    have hne : b ≠ d := by
      rintro rfl
      simp [Cfg.containsBlock, hblock] at hb
    have heq : c'.block b = c.block b := by rw [hblock, if_neg hne]
    refine ⟨?_, [], ?_, by simp⟩
    · rwa [Cfg.containsBlock, heq] at hb
    · simp [Cfg.instructions_congr heq]

theorem IsFold.keeps {source target connecting : Nat} {sb tb : BasicBlock ι}
    (h : IsFold c source target connecting sb tb c') : Keeps c c' where
  frame := h.frame
  anchor := fun a ha hlive =>
    (h.contains_iff a).mpr ⟨hlive, fun he => h.not_anchor (he ▸ ha)⟩
  instructions := by
    intro b hb
    obtain ⟨hlive, hne⟩ := (h.contains_iff b).mp hb
    refine ⟨hlive, ?_⟩
    by_cases hs : b = source
    · subst hs
      refine ⟨[target], ?_, ?_⟩
      · have hmerged : c'.block b = some { instructions := sb.instructions ++ tb.instructions
                                           label := sb.label.or tb.label } := by
          rw [h.block, if_neg hne, if_pos rfl]
        rw [Cfg.instructions_eq hmerged]
        simp [Cfg.instructions_eq h.source_block, Cfg.instructions_eq h.target_block]
      · intro o ho
        obtain rfl := mem_singleton.mp ho
        exact ⟨by simp [Cfg.containsBlock, h.target_block], h.placement.symm⟩
    · refine ⟨[], ?_, by simp⟩
      have heq : c'.block b = c.block b := by rw [h.block, if_neg hne, if_neg hs]
      simp [Cfg.instructions_congr heq]

theorem Edit.keeps (h : Edit c fs c') : Keeps c c' := by
  cases h with
  | fold h => exact h.keeps
  | bypass h => exact keeps_of_removed h.frame (Or.inl h.not_anchor) h.block
  | @drop _ b K h hK hb =>
    refine keeps_of_removed h.frame ?_ h.block
    by_cases ha : b ∈ c.anchors
    · exact Or.inr fun hlive => hb (hK.anchor b ha hlive)
    · exact Or.inl ha

theorem Edits.keeps {n : Nat} (h : Edits n c fs c') : Keeps c c' := by
  induction h with
  | refl c => exact .refl c
  | step he _ ih => exact he.keeps.trans ih

/-! ## Any sequence of passes -/

inductive Pass where
  | mergeBlocks
  | removeEmptyBlocks
  | removeUnreachable
  | contractEdge (source target : Nat)
  | simplify

def Pass.run (s : Session ι π) : Pass → Option (Session ι π)
  | .mergeBlocks => (mergeBlocksInner s).map (·.2)
  | .removeEmptyBlocks => (removeEmptyBlocksInner s).map (·.2)
  | .removeUnreachable => (removeUnreachableMapped s.cfg).map fun (_, c, _) => { s with cfg := c }
  | .contractEdge source target => (contractEdgeInner s source target).map (·.2)
  | .simplify => (simplifyInner s).map (·.2)

def runPasses (s : Session ι π) (passes : List Pass) : Option (Session ι π) :=
  passes.foldlM Pass.run s

theorem Pass.run_ran {s : Session ι π} (h : s.cfg.WF) (pass : Pass) :
    ∃ n s', pass.run s = some s' ∧ Ran n s s' := by
  cases pass with
  | mergeBlocks =>
    obtain ⟨n, s', hrun, hran⟩ := mergeBlocksInner_ran h
    exact ⟨n, s', by simp [Pass.run, hrun], hran⟩
  | removeEmptyBlocks =>
    obtain ⟨n, s', hrun, hran⟩ := removeEmptyBlocksInner_ran h
    exact ⟨n, s', by simp [Pass.run, hrun], hran⟩
  | removeUnreachable =>
    obtain ⟨n, c', mapping, hrun, hedits⟩ := removeUnreachableMapped_edits h
    exact ⟨n, { s with cfg := c' }, by simp [Pass.run, hrun], rfl, [], by simp, hedits⟩
  | contractEdge source target =>
    obtain ⟨happened, s', hrun, hran⟩ := contractEdgeInner_ran h source target
    exact ⟨_, s', by simp [Pass.run, hrun], hran⟩
  | simplify =>
    obtain ⟨n, s', hrun, hran⟩ := simplifyInner_ran h
    exact ⟨n, s', by simp [Pass.run, hrun], hran⟩

theorem runPasses_ran {s : Session ι π} (h : s.cfg.WF) (passes : List Pass) :
    ∃ n s', runPasses s passes = some s' ∧ Ran n s s' := by
  induction passes generalizing s with
  | nil => exact ⟨0, s, rfl, .refl s⟩
  | cons pass passes ih =>
    obtain ⟨n, s₁, hrun, hran⟩ := pass.run_ran h
    obtain ⟨m, s', hruns, hran'⟩ := ih (hran.wf h)
    refine ⟨n + m, s', ?_, hran.trans hran'⟩
    unfold runPasses at hruns ⊢
    rw [foldlM_cons, hrun]
    exact hruns

/-- Any sequence of passes returns, keeps the exception metadata true, and keeps
every trace if each contraction it makes is safe. -/
theorem runPasses_preserves (throws : ι → Bool) (hc : c.WF) (passes : List Pass) :
    ∃ s, runPasses ⟨c, none, []⟩ passes = some s ∧ Keeps c s.cfg ∧
      (AllSafe throws s.folds → Cfg.SameTraces throws c s.cfg) := by
  obtain ⟨n, s, hrun, _, fs, hfs, hedits⟩ := runPasses_ran (s := ⟨c, none, []⟩) hc passes
  refine ⟨s, hrun, hedits.keeps, ?_⟩
  intro hsafe
  rw [hfs] at hsafe
  exact hedits.sameTraces hsafe

def guardedChain : Cfg Nat Unit :=
  Cfg.ofParts [[1], [2], [9]] [(0, 1, .fallthrough, ()), (1, 2, .exceptionUnwind, ())]

theorem wf_guardedChain : guardedChain.WF := Cfg.wf_ofParts rfl

/-- Merging is safe when only the second block throws. -/
theorem runPasses_preserves_guardedChain :
    ∃ s, runPasses ⟨guardedChain, none, []⟩ [.mergeBlocks] = some s ∧
      Keeps guardedChain s.cfg ∧ Cfg.SameTraces (· == 2) guardedChain s.cfg := by
  obtain ⟨s, hrun, hkeeps, hsame⟩ := runPasses_preserves (· == 2) wf_guardedChain [.mergeBlocks]
  refine ⟨s, hrun, hkeeps, hsame ?_⟩
  have hfolds : s.folds = [⟨guardedChain, 0, 1⟩] := by
    cases hrun
    rfl
  intro f hf
  rw [hfolds] at hf
  obtain rfl := mem_singleton.mp hf
  left
  intro block hblock
  cases hblock
  simp

/-- When the first block throws too, merging lets it unwind to the handler. -/
theorem mergeBlocks_guardedChain_adds_unwind :
    ∃ s, runPasses ⟨guardedChain, none, []⟩ [.mergeBlocks] = some s ∧
      ¬ Cfg.SameTraces (fun a => a == 1 || a == 2) guardedChain s.cfg := by
  refine ⟨_, rfl, ?_⟩
  intro hsame
  generalize hc' : Session.cfg _ = c' at hsame
  have hraise : c'.flow.Step (fun a => a == 1 || a == 2) (0, 0) none (2, 0) := by
    subst hc'
    exact .raise (a := 1) rfl rfl rfl ⟨1, _, rfl, rfl, rfl, rfl⟩
  have hexec : c'.flow.Step (fun a => a == 1 || a == 2) (2, 0) (some 9) (2, 1) := by
    subst hc'
    exact .exec rfl rfl
  have hentry : c'.entry = 0 := by
    subst hc'
    rfl
  have hafter : Emits (c'.flow.Step fun a => a == 1 || a == 2) (c'.entry, 0) [9] := by
    rw [hentry]
    exact ⟨(2, 1), (Plus.silent_single hraise hexec).run⟩
  have hbefore := (hsame.partial_iff [9]).mpr hafter
  have hhead : 9 = 1 := by
    refine Flow.head_of_emits (b := 0) (x := 1) rfl ?_ hbefore
    rintro t ⟨e, r, hr, hs, _, hk⟩
    match e, hr with
    | 0, hr => cases hr; cases hk
    | 1, hr => cases hr; cases hs
  cases hhead

end CfgLib.Transform

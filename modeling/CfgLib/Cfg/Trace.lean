import CfgLib.Cfg.Mutation
import CfgLib.Lib.Flow

/-!
# Traces of a control-flow graph

The instructions a path from the entry executes.  An unwind edge leaves before
any throwing instruction of its source block, every other edge from the block's
end.
-/

namespace CfgLib.Cfg

open CfgLib.Lib

variable {ι π : Type}

def Leads (c : Cfg ι π) (P : EdgeKind → Prop) (a b : Nat) : Prop :=
  ∃ e r, c.edge e = some r ∧ r.source = a ∧ r.target = b ∧ P r.payload.kind

/-- Control goes along the edge from the end of its source. -/
def Sequential (kind : EdgeKind) : Prop := kind ≠ .exceptionUnwind

/-- Control goes along the edge from before a throwing instruction. -/
def Unwinding (kind : EdgeKind) : Prop := kind = .exceptionUnwind

def flow (c : Cfg ι π) : Flow ι where
  code b := (c.block b).map (·.instructions)
  normal := c.Leads Sequential
  unwind := c.Leads Unwinding

/-- The entry of both graphs shows the same traces, partial and maximal. -/
def SameTraces (throws : ι → Bool) (c c' : Cfg ι π) : Prop :=
  Lib.SameTraces (c.flow.Step throws) (c.entry, 0) (c'.flow.Step throws) (c'.entry, 0)

theorem SameTraces.refl (throws : ι → Bool) (c : Cfg ι π) : SameTraces throws c c :=
  Lib.SameTraces.refl _ _

theorem SameTraces.trans {throws : ι → Bool} {c₁ c₂ c₃ : Cfg ι π} (h : SameTraces throws c₁ c₂)
    (h' : SameTraces throws c₂ c₃) : SameTraces throws c₁ c₃ :=
  Lib.SameTraces.trans h h'

variable {c c' : Cfg ι π}

variable {block : BasicBlock ι} {b : Nat}

theorem code_eq_some (h : c.block b = some block) : c.flow.code b = some block.instructions := by
  simp [flow, h]

def instructions (c : Cfg ι π) (b : Nat) : List ι := (c.flow.code b).getD []

theorem instructions_eq (h : c.block b = some block) : c.instructions b = block.instructions := by
  unfold instructions
  rw [code_eq_some h]
  rfl

theorem instructions_congr (h : c'.block b = c.block b) : c'.instructions b = c.instructions b := by
  simp only [instructions, flow, h]

/-! ## Splitting -/

namespace IsSplit

variable {id index : Nat} {payload : π} {b : BasicBlock ι} {P : EdgeKind → Prop}

theorem id_lt (h : IsSplit c id index payload b c') : id < c.blockBound :=
  block_lt (by simp [containsBlock, h.head])

variable {a e t : Nat} {r : Store.EdgeRecord (Edge π)}

theorem edge_cases (h : IsSplit c id index payload b c') (hr : c'.edge e = some r) :
    (e = c.edgeBound ∧ r = ⟨id, c.blockBound, ⟨.fallthrough, none, payload⟩⟩) ∨
      ∃ r₀, c.edge e = some r₀ ∧ r = moveSource id c.blockBound r₀ := by
  rw [h.edge] at hr
  split at hr
  · next he => exact Or.inl ⟨he, (Option.some.inj hr).symm⟩
  · obtain ⟨r₀, hr₀, rfl⟩ := Option.map_eq_some_iff.mp hr
    exact Or.inr ⟨r₀, hr₀, rfl⟩

theorem edge_old (h : IsSplit c id index payload b c') (hr : c.edge e = some r) :
    c'.edge e = some (moveSource id c.blockBound r) := by
  rw [h.edge, if_neg (Nat.ne_of_lt (edge_lt hr)), hr]
  rfl

theorem leads_head (h : IsSplit c id index payload b c') :
    c'.Leads P id t ↔ t = c.blockBound ∧ P .fallthrough := by
  constructor
  · rintro ⟨e, r, hr, hs, ht, hk⟩
    rcases h.edge_cases hr with ⟨_, rfl⟩ | ⟨r₀, _, rfl⟩
    · exact ⟨ht.symm, hk⟩
    · rw [source_moveSource] at hs
      have := h.id_lt
      split at hs
      · omega
      · contradiction
  · rintro ⟨rfl, hk⟩
    exact ⟨c.edgeBound, _, by rw [h.edge, if_pos rfl], rfl, rfl, hk⟩

theorem leads_tail (hc : c.WF) (h : IsSplit c id index payload b c') :
    c'.Leads P c.blockBound t ↔ c.Leads P id t := by
  have hid := h.id_lt
  constructor
  · rintro ⟨e, r, hr, hs, ht, hk⟩
    rcases h.edge_cases hr with ⟨_, rfl⟩ | ⟨r₀, hr₀, rfl⟩
    · exact absurd hs (Nat.ne_of_lt hid)
    · have hlt := block_lt (hc.source_live hr₀)
      rw [source_moveSource] at hs
      rw [target_moveSource] at ht
      rw [payload_moveSource] at hk
      split at hs
      · next hs₀ => exact ⟨e, r₀, hr₀, hs₀, ht, hk⟩
      · omega
  · rintro ⟨e, r, hr, hs, ht, hk⟩
    refine ⟨e, _, h.edge_old hr, ?_, ?_, ?_⟩
    · rw [source_moveSource, if_pos hs]
    · rw [target_moveSource, ht]
    · rwa [payload_moveSource]

theorem leads_other (h : IsSplit c id index payload b c') (ha : a ≠ id)
    (ha' : a ≠ c.blockBound) : c'.Leads P a t ↔ c.Leads P a t := by
  constructor
  · rintro ⟨e, r, hr, hs, ht, hk⟩
    rcases h.edge_cases hr with ⟨_, rfl⟩ | ⟨r₀, hr₀, rfl⟩
    · exact absurd hs.symm ha
    · rw [source_moveSource] at hs
      rw [target_moveSource] at ht
      rw [payload_moveSource] at hk
      split at hs
      · exact absurd hs.symm ha'
      · exact ⟨e, r₀, hr₀, hs, ht, hk⟩
  · rintro ⟨e, r, hr, hs, ht, hk⟩
    refine ⟨e, _, h.edge_old hr, ?_, ?_, ?_⟩
    · rw [source_moveSource, if_neg (hs ▸ ha), hs]
    · rw [target_moveSource, ht]
    · rwa [payload_moveSource]

theorem leads_into_tail (hc : c.WF) (h : IsSplit c id index payload b c')
    (hl : c'.Leads P a c.blockBound) : a = id ∧ P .fallthrough := by
  obtain ⟨e, r, hr, hs, ht, hk⟩ := hl
  rcases h.edge_cases hr with ⟨_, rfl⟩ | ⟨r₀, hr₀, rfl⟩
  · exact ⟨hs.symm, hk⟩
  · have := block_lt (hc.target_live hr₀)
    rw [target_moveSource] at ht
    omega

theorem folds (hc : c.WF) (h : IsSplit c id index payload b c') :
    Flow.Folds c'.flow c.flow id c.blockBound (b.instructions.take index)
      (b.instructions.drop index) where
  ne := Nat.ne_of_lt h.id_lt
  source := by
    have hblock : c'.block id = some { b with instructions := b.instructions.take index } := by
      rw [h.block, if_neg (Nat.ne_of_lt h.id_lt), if_pos rfl]
    exact code_eq_some hblock
  target := code_eq_some (by rw [h.block, if_pos rfl])
  merged := by
    rw [List.take_append_drop]
    exact code_eq_some h.head
  code_other := by
    intro i hi hi'
    simp only [flow]
    rw [h.block, if_neg hi', if_neg hi]
  normal_source := by
    intro t
    refine Iff.trans (h.leads_head (P := Sequential)) ?_
    simp [Sequential]
  unwind_source := by
    intro t
    exact fun hu => by cases ((h.leads_head (P := Unwinding)).mp hu).2
  normal_target := fun a ha => (h.leads_into_tail hc (P := Sequential) ha).1
  unwind_target := by
    intro a ha
    cases (h.leads_into_tail hc (P := Unwinding) ha).2
  normal_merged := fun t => (h.leads_tail hc (P := Sequential)).symm
  unwind_merged := fun t => (h.leads_tail hc (P := Unwinding)).symm
  normal_other := fun a t ha ha' => (h.leads_other (P := Sequential) ha ha').symm
  unwind_other := fun a t ha ha' => (h.leads_other (P := Unwinding) ha ha').symm

/-- Splitting keeps every trace when nothing before the split point throws or
no unwind edge leaves the block. -/
theorem sameTraces (hc : c.WF) (h : IsSplit c id index payload b c') {throws : ι → Bool}
    (hsafe : (∀ a ∈ b.instructions.take index, throws a = false) ∨ ∀ t, ¬ c.flow.unwind id t) :
    SameTraces throws c c' := by
  have hentry : c'.entry ≠ c.blockBound := by
    rw [h.entry]
    exact Nat.ne_of_lt (block_lt hc.entry)
  have hsafe' : (∀ a ∈ b.instructions.take index, throws a = false) ∨
      ∀ t, ¬ c'.flow.unwind c.blockBound t :=
    hsafe.imp_right fun hn t hu => hn t ((h.leads_tail hc (P := Unwinding)).mp hu)
  have hsame := ((h.folds hc).sameTraces hsafe' hentry).symm
  unfold SameTraces
  rwa [h.entry] at hsame ⊢

end IsSplit

end CfgLib.Cfg

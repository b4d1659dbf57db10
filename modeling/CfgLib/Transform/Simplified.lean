import CfgLib.Transform.Preserve

/-!
# Simplified graphs

What `simplify` of `transform/cleanup.rs` leaves: no block is out of reach, no empty block
can be bypassed and no edge contracted, so that simplifying again changes nothing.
-/

namespace CfgLib.Transform

open CfgLib.Lib Relation List

variable {ι π : Type} {c c' : Cfg ι π} {s s' : Session ι π} {n id source target : Nat}

/-- The block is empty and neither the entry nor an anchor, and its only edge falls
through to another block. -/
def Bypassable (c : Cfg ι π) (id : Nat) : Prop :=
  id ≠ c.entry ∧ id ∉ c.anchors ∧ (∃ label, c.block id = some ⟨[], label⟩) ∧
    ∃ e r, c.outgoing id = [e] ∧ c.edge e = some r ∧ fallsThrough r.payload.kind = true ∧ r.target ≠ id

/-- One edge is all that leaves `source` and all that enters `target`, and the exception
metadata lets the blocks be one. -/
def Contractible (c : Cfg ι π) (source target : Nat) : Prop :=
  source ≠ target ∧ target ≠ c.entry ∧ c.canFoldInto source target = true ∧
    ∃ e r, c.outgoing source = [e] ∧ c.incoming target = [e] ∧ c.edge e = some r ∧ r.payload.kind.isExceptional = false

/-- Nothing is left for any of the three passes. -/
structure IsSimplified (c : Cfg ι π) : Prop where
  reached : ∀ b, c.containsBlock b → ∃ root, (root = c.entry ∨ root ∈ c.anchors ∧ c.containsBlock root) ∧
    ReflTransGen (c.view.Adjacent .outgoing) root b
  bypassed : ∀ id, ReflTransGen (c.view.Adjacent .outgoing) c.entry id → ¬ Bypassable c id
  contracted : ∀ source target, ReflTransGen (c.view.Adjacent .outgoing) c.entry source → ¬ Contractible c source target

/-! ## Refusals -/

theorem bypassBlock_refused (hno : bypassBlock s id = some (false, s')) : ¬ Bypassable s.cfg id := by
  rintro ⟨hentry, hanchor, ⟨label, hblock⟩, e, r, hout, hr, hfalls, hne⟩
  simp only [bypassBlock, hblock] at hno
  rw [if_neg (by simp [hentry, hanchor, Cfg.isAnchor, BasicBlock.isEmpty])] at hno
  simp only [Cfg.soleOutgoing_eq_some.mpr hout, hr, Option.bind_eq_bind, Option.bind_some] at hno
  rw [if_neg (by simp [hfalls, hne])] at hno
  obtain ⟨c₁, _, hno⟩ := Option.bind_eq_some_iff.mp hno
  obtain ⟨⟨_, c₂⟩, _, hno⟩ := Option.bind_eq_some_iff.mp hno
  cases hno

theorem contractEdgeInner_refused (h : s.cfg.WF) (hno : contractEdgeInner s source target = some (false, s')) :
    ¬ Contractible s.cfg source target := by
  rintro ⟨hne, hentry, hfold, e, r, hout, hin, hr, hkind⟩
  have htarget : r.target = target := by
    obtain ⟨r', hr', ht⟩ := h.mem_incoming.mp (hin ▸ mem_singleton_self e)
    cases hr.symm.trans hr'
    exact ht
  simp only [contractEdgeInner] at hno
  rw [if_neg (by simp [hne, hentry])] at hno
  simp only [Cfg.soleOutgoing_eq_some.mpr hout, hr, Option.bind_eq_bind, Option.bind_some] at hno
  rw [if_neg (by simp [Cfg.soleIncoming_eq_some.mpr hin, htarget, hkind, hfold])] at hno
  obtain ⟨_, _, hno⟩ := Option.bind_eq_some_iff.mp hno
  obtain ⟨_, _, hno⟩ := Option.bind_eq_some_iff.mp hno
  obtain ⟨⟨_, _⟩, _, hno⟩ := Option.bind_eq_some_iff.mp hno
  cases hno

/-! ## Passes that do nothing -/

theorem bypassAlong_zero (h : s.cfg.WF) : ∀ {order : List Nat}, bypassAlong order 0 s = some (0, s') →
    s' = s ∧ ∀ id ∈ order, ¬ Bypassable s.cfg id
  | [], hrun => by
    cases hrun
    exact ⟨rfl, fun _ hid => absurd hid not_mem_nil⟩
  | id :: order, hrun => by
    unfold bypassAlong at hrun
    rw [foldlM_cons] at hrun
    rcases bypassBlock_spec h id with hno | ⟨s₁, _, _, hyes, hbypass, _⟩
    · simp only [Option.bind_eq_bind, hno, Option.bind_some] at hrun
      obtain ⟨hsame, hall⟩ := bypassAlong_zero h hrun
      exact ⟨hsame, forall_mem_cons.mpr ⟨bypassBlock_refused hno, hall⟩⟩
    · -- the count does not fall again
      simp only [Option.bind_eq_bind, hyes, Option.bind_some] at hrun
      obtain ⟨n, s₂, hrest, _⟩ := bypassAlong_ran hbypass.wf order 1
      have heq : 0 = 1 + n := (Prod.mk.inj (Option.some.inj (hrun.symm.trans hrest))).1
      omega

theorem mergeFrom_zero (h : s.cfg.WF) {fuel : Nat} (hrun : mergeFrom source fuel s = some (0, s')) :
    s' = s ∧ ∀ target, ¬ Contractible s.cfg source target := by
  cases fuel with
  | zero => cases hrun
  | succ fuel =>
    unfold mergeFrom at hrun
    split at hrun
    · next hsole =>
      cases hrun
      refine ⟨rfl, fun target hcontract => ?_⟩
      obtain ⟨_, _, _, e, _, hout, _⟩ := hcontract
      rw [Cfg.soleOutgoing_eq_some.mpr hout] at hsole
      cases hsole
    · next connecting hsole =>
      obtain ⟨record, hrecord, hrun⟩ := Option.bind_eq_some_iff.mp hrun
      obtain ⟨⟨happened, s₁⟩, hcontract, hrun⟩ := Option.bind_eq_some_iff.mp hrun
      cases happened with
      | true =>
        obtain ⟨⟨merged, _⟩, _, hrun⟩ := Option.bind_eq_some_iff.mp hrun
        cases hrun
      | false =>
        have hsame : s₁ = s := by
          rcases contractEdgeInner_spec h source record.target with hno | ⟨_, _, _, _, _, hyes, _⟩
          · exact (Prod.mk.inj (Option.some.inj (hcontract.symm.trans hno))).2
          · cases (Prod.mk.inj (Option.some.inj (hcontract.symm.trans hyes))).1
        cases hrun
        refine ⟨hsame, fun target hable => ?_⟩
        obtain ⟨_, _, _, e, r, hout, hin, hr, _⟩ := id hable
        obtain rfl := Option.some.inj ((Cfg.soleOutgoing_eq_some.mpr hout).symm.trans hsole)
        obtain ⟨r', hr', rfl⟩ := h.mem_incoming.mp (hin ▸ mem_singleton_self e)
        cases hrecord.symm.trans hr'
        exact contractEdgeInner_refused h hcontract hable

theorem mergeAlong_zero (h : s.cfg.WF) : ∀ {order : List Nat}, mergeAlong order 0 s = some (0, s') →
    s' = s ∧ ∀ source ∈ order, ∀ target, ¬ Contractible s.cfg source target
  | [], hrun => by
    cases hrun
    exact ⟨rfl, fun _ hid => absurd hid not_mem_nil⟩
  | source :: order, hrun => by
    unfold mergeAlong at hrun
    rw [foldlM_cons] at hrun
    by_cases hlive : s.cfg.containsBlock source
    · have hbound := blockCount_le s.cfg
      obtain ⟨more, s₁, hmerge, hran⟩ := mergeFrom_ran h source (s.cfg.blockBound + 1) (by omega)
      simp only [hlive, if_true, Option.bind_eq_bind, hmerge, Option.bind_some] at hrun
      obtain ⟨n, s₂, hrest, _⟩ := mergeAlong_ran (hran.wf h) order (0 + more)
      have heq : 0 = 0 + more + n := (Prod.mk.inj (Option.some.inj (hrun.symm.trans hrest))).1
      obtain rfl : more = 0 := by omega
      obtain ⟨hkept, hhead⟩ := mergeFrom_zero h hmerge
      rw [hkept] at hrun
      obtain ⟨hsame, hall⟩ := mergeAlong_zero h hrun
      exact ⟨hsame, forall_mem_cons.mpr ⟨hhead, hall⟩⟩
    · simp only [hlive, Option.bind_eq_bind] at hrun
      obtain ⟨hsame, hall⟩ := mergeAlong_zero h hrun
      refine ⟨hsame, forall_mem_cons.mpr ⟨fun target hable => hlive ?_, hall⟩⟩
      -- a removed block has no edge
      obtain ⟨_, _, _, e, _, hout, _⟩ := hable
      obtain ⟨r, hr, rfl⟩ := h.mem_outgoing.mp (hout ▸ mem_singleton_self e)
      exact h.source_live hr

theorem removeUnreachableMapped_zero (h : c.WF) {mapping : Rewrite}
    (hrun : removeUnreachableMapped c = some (0, c', mapping)) : c' = c ∧
      ∀ b, c.containsBlock b → ∃ root, (root = c.entry ∨ root ∈ c.anchors ∧ c.containsBlock root) ∧
        ReflTransGen (c.view.Adjacent .outgoing) root b := by
  have hroots : ∀ root ∈ c.entry :: c.anchors.filter c.containsBlock, root < c.view.toGraphView.nodeBound := by
    intro root hroot
    rcases mem_cons.mp hroot with rfl | hroot
    · exact Cfg.block_lt h.entry
    · exact Cfg.block_lt (mem_filter.mp hroot).2
  obtain ⟨reached, hreached, hiff⟩ := reachable_spec h.lawful_view hroots .outgoing
  simp only [removeUnreachableMapped, hreached, Option.bind_eq_bind, Option.bind_some] at hrun
  obtain ⟨⟨c₁, _⟩, hremove, heq⟩ := Option.bind_eq_some_iff.mp hrun
  obtain ⟨hlen, heq⟩ := Prod.mk.inj (Option.some.inj heq)
  have hnone := eq_nil_of_length_eq_zero hlen
  rw [hnone] at hremove
  cases hremove
  refine ⟨(Prod.mk.inj heq).1.symm, fun b hb => ?_⟩
  have hmarked : reached b := by
    by_contra hno
    have hmem : b ∈ c.blockIds.filter fun block => !reached block :=
      mem_filter.mpr ⟨Cfg.mem_blockIds.mpr hb, by simpa using hno⟩
    rw [hnone] at hmem
    cases hmem
  obtain ⟨root, hroot, hwalk⟩ := (hiff b).mp hmarked
  exact ⟨root, (mem_cons.mp hroot).imp_right mem_filter.mp, hwalk⟩

/-! ## The last round -/

theorem simplifyRound_zero (h : s.cfg.WF) (hrun : simplifyRound s = some (0, s')) :
    s'.cfg = s.cfg ∧ IsSimplified s.cfg ∧ ∃ m, simplifyRound s' = some (0, ⟨s'.cfg, m, s'.folds⟩) := by
  obtain ⟨n₁, c₁, um, n₂, s₂, em, n₃, s₃, mm, hun, _, hempty, _, hem, hmerge, _, hmm, hround⟩ := simplifyRound_parts h
  obtain ⟨hsum, rfl⟩ := Prod.mk.inj (Option.some.inj (hrun.symm.trans hround))
  obtain ⟨rfl, rfl, rfl⟩ : n₁ = 0 ∧ n₂ = 0 ∧ n₃ = 0 := by omega
  obtain ⟨rfl, hreached⟩ := removeUnreachableMapped_zero h hun
  obtain ⟨order, horder, hmem⟩ := depthFirstPreorder_spec h.lawful_view (Cfg.block_lt h.entry) .outgoing
  have hbypass := hempty
  simp only [removeEmptyBlocksInner, horder, Option.bind_eq_bind, Option.bind_some] at hbypass
  obtain ⟨rfl, hbypassed⟩ := bypassAlong_zero (s := ⟨s.cfg, some .new, s.folds⟩) h hbypass
  have hcontract := hmerge
  simp only [mergeBlocksInner, horder, Option.bind_eq_bind, Option.bind_some] at hcontract
  obtain ⟨rfl, hcontracted⟩ := mergeAlong_zero (s := ⟨s.cfg, some .new, s.folds⟩) h hcontract
  refine ⟨rfl, ⟨hreached, fun id hid => hbypassed id ((hmem id).mpr hid),
    fun source target hsource => hcontracted source ((hmem source).mpr hsource) target⟩, ?_⟩
  simp [simplifyRound, hun, hempty, hmerge]

theorem simplifyLoop_end {fuel sum : Nat} (h : s.cfg.WF) (hrun : simplifyLoop fuel sum s = some (n, s')) :
    ∃ s₀ : Session ι π, s₀.cfg.WF ∧ simplifyRound s₀ = some (0, s') := by
  induction fuel generalizing s sum with
  | zero => cases hrun
  | succ fuel ih =>
    obtain ⟨round, s₁, hround, hran⟩ := simplifyRound_ran h
    simp only [simplifyLoop, hround, Option.bind_eq_bind, Option.bind_some] at hrun
    split at hrun
    · next hzero =>
      cases hrun
      exact ⟨s, h, hzero ▸ hround⟩
    · exact ih (hran.wf h) hrun

/-! ## What is removed -/

theorem length_blockIds_drop (hbound : c'.blockBound = c.blockBound) (hid : c.containsBlock id)
    (hiff : ∀ i, c'.containsBlock i ↔ c.containsBlock i ∧ i ≠ id) : c'.blockIds.length + 1 = c.blockIds.length := by
  have hnodup : c.blockIds.Nodup := nodup_range.filter _
  have hids : c'.blockIds = c.blockIds.erase id := by
    rw [hnodup.erase_eq_filter, Cfg.blockIds, Cfg.blockIds, hbound, filter_filter]
    refine filter_congr fun i _ => ?_
    rw [Bool.eq_iff_iff, hiff i]
    simp [and_comm]
  rw [hids, length_erase_of_mem (Cfg.mem_blockIds.mpr hid)]
  have := length_pos_of_mem (Cfg.mem_blockIds.mpr hid)
  omega

theorem Edit.length_blockIds {fs : List (Fold ι π)} (h : Edit c fs c') : c'.blockIds.length + 1 = c.blockIds.length := by
  cases h with
  | fold h =>
    exact length_blockIds_drop h.blockBound (by simp [Cfg.containsBlock, h.target_block]) h.contains_iff
  | bypass h =>
    obtain ⟨label, hb⟩ := h.empty
    exact length_blockIds_drop h.blockBound (by simp [Cfg.containsBlock, hb]) h.contains_iff
  | drop h => exact length_blockIds_drop h.blockBound h.live h.contains_iff

theorem Edits.length_blockIds {fs : List (Fold ι π)} (h : Edits n c fs c') : c'.blockIds.length + n = c.blockIds.length := by
  induction h with
  | refl => rfl
  | step he _ ih =>
    rw [← he.length_blockIds, ← ih]
    omega

/-- Simplifying ends, counts the blocks it removes, leaves nothing for its passes and
changes nothing when it is run again. -/
theorem simplifyInner_settles (hc : c.WF) (mapping : Option Rewrite) :
    ∃ n s', simplifyInner ⟨c, mapping, []⟩ = some (n, s') ∧ s'.cfg.blockIds.length + n = c.blockIds.length ∧
      Keeps c s'.cfg ∧ IsSimplified s'.cfg ∧ ∃ m, simplifyInner s' = some (0, ⟨s'.cfg, m, s'.folds⟩) := by
  obtain ⟨n, s', hrun, hran⟩ := simplifyInner_ran (s := ⟨c, mapping, []⟩) hc
  obtain ⟨s₀, hwf, hround⟩ := simplifyLoop_end hc hrun
  obtain ⟨hsame, hsimple, m, hagain⟩ := simplifyRound_zero hwf hround
  obtain ⟨_, fs, _, hedits⟩ := hran
  refine ⟨n, s', hrun, hedits.length_blockIds, hedits.keeps, hsame ▸ hsimple, m, ?_⟩
  rw [simplifyInner, simplifyLoop, hagain]
  rfl

/-- The two blocks of the chain are one, the handler stays behind the unwind edge. -/
theorem simplifyInner_settles_guardedChain : ∃ s', simplifyInner ⟨guardedChain, none, []⟩ = some (1, s') ∧
    s'.cfg.blockIds = [0, 2] ∧ IsSimplified s'.cfg := by
  obtain ⟨n, s', hrun, _, _, hsimple, _⟩ := simplifyInner_settles wf_guardedChain none
  have hresult : (simplifyInner ⟨guardedChain, none, []⟩).map (fun r => (r.1, r.2.cfg.blockIds)) = some (1, [0, 2]) := rfl
  rw [hrun] at hresult
  obtain ⟨rfl, hids⟩ := Prod.mk.inj (Option.some.inj hresult)
  exact ⟨s', hrun, hids, hsimple⟩

end CfgLib.Transform

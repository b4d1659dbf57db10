import CfgLib.Graph.Traverse
import CfgLib.Transform.Contract

/-!
# Cleanup passes

`transform/cleanup.rs`: removing unreachable blocks, merging linear chains,
bypassing empty blocks, and all three until nothing changes.  Every pass is a
run of three kinds of edit, and each kind says what it does once.
-/

namespace CfgLib.Transform

open CfgLib.Lib Relation List

variable {ι π : Type}

/-! ## The passes -/

def removeBlocksRecording (c : Cfg ι π) (doomed : List Nat) (mapping : Rewrite) :
    Option (Cfg ι π × Rewrite) :=
  doomed.foldlM (fun (c, mapping) block => do
    let (_, c, mapping) ← c.removeBlockRecording block mapping
    pure (c, mapping)) (c, mapping)

/-- Remove the blocks that neither the entry nor a live anchor reaches. -/
def removeUnreachableMapped (c : Cfg ι π) : Option (Nat × Cfg ι π × Rewrite) := do
  let roots := c.entry :: c.anchors.filter c.containsBlock
  let reached ← reachable c.view.toGraphView roots .outgoing
  let doomed := c.blockIds.filter fun block => !reached block
  let (c, mapping) ← removeBlocksRecording c doomed .new
  pure (doomed.length, c, mapping)

/-- Contract the sole edge out of `source` while that is possible. -/
def mergeFrom (source : Nat) : Nat → Session ι π → Option (Nat × Session ι π)
  | 0, _ => none
  | fuel + 1, s =>
    match s.cfg.soleOutgoing source with
    | none => some (0, s)
    | some connecting => do
      let record ← s.cfg.edge connecting
      let (happened, s) ← contractEdgeInner s source record.target
      if happened then
        let (merged, s) ← mergeFrom source fuel s
        pure (merged + 1, s)
      else pure (0, s)

/-- Merge from each block of an order that is still live. -/
def mergeAlong (order : List Nat) (merged : Nat) (s : Session ι π) : Option (Nat × Session ι π) :=
  order.foldlM (fun (merged, s) source =>
    if s.cfg.containsBlock source then do
      let (more, s) ← mergeFrom source (s.cfg.blockBound + 1) s
      pure (merged + more, s)
    else pure (merged, s)) (merged, s)

def mergeBlocksInner (s : Session ι π) : Option (Nat × Session ι π) := do
  let order ← depthFirstPreorder s.cfg.view.toGraphView s.cfg.entry .outgoing
  mergeAlong order 0 s

/-- Whether an empty block may be bypassed along `kind`. -/
def fallsThrough : EdgeKind → Bool
  | .fallthrough | .unconditional => true
  | _ => false

def bypassBlock (s : Session ι π) (id : Nat) : Option (Bool × Session ι π) :=
  let c := s.cfg
  match c.block id with
  | none => some (false, s)
  | some block =>
    if id = c.entry ∨ block.isEmpty = false ∨ c.isAnchor id = true then some (false, s)
    else match c.soleOutgoing id with
      | none => some (false, s)
      | some outgoing => do
        let record ← c.edge outgoing
        if fallsThrough record.payload.kind = false ∨ record.target = id then pure (false, s)
        else
          let bypassed := c.incoming id
          let c ← c.redirectEdgesTo id record.target
          let c := (c.removeEdge outgoing).2
          let (_, c) ← c.removeBlock id
          pure (true,
            { s with
              cfg := c
              mapping := s.mapping.map fun mapping =>
                ((mapping.recordKept bypassed).recordEdge outgoing []).recordBlock id [] })

def bypassAlong (order : List Nat) (removed : Nat) (s : Session ι π) : Option (Nat × Session ι π) :=
  order.foldlM (fun (removed, s) id => do
    let (happened, s) ← bypassBlock s id
    pure (if happened then removed + 1 else removed, s)) (removed, s)

def removeEmptyBlocksInner (s : Session ι π) : Option (Nat × Session ι π) := do
  let order ← depthFirstPreorder s.cfg.view.toGraphView s.cfg.entry .outgoing
  bypassAlong order 0 s

/-- The three passes once, their records composed in order. -/
def simplifyRound (s : Session ι π) : Option (Nat × Session ι π) := do
  let (unreachable, c, unreachableMap) ← removeUnreachableMapped s.cfg
  let (empty, s₁) ← removeEmptyBlocksInner ⟨c, some .new, s.folds⟩
  let emptyMap ← s₁.mapping
  let (merged, s₂) ← mergeBlocksInner ⟨s₁.cfg, some .new, s₁.folds⟩
  let mergedMap ← s₂.mapping
  pure (unreachable + empty + merged,
    { cfg := s₂.cfg
      mapping := s.mapping.map fun mapping =>
        ((mapping.compose unreachableMap).compose emptyMap).compose mergedMap
      folds := s₂.folds })

/-- Rounds until one changes nothing. -/
def simplifyLoop : Nat → Nat → Session ι π → Option (Nat × Session ι π)
  | 0, _, _ => none
  | fuel + 1, total, s => do
    let (round, s) ← simplifyRound s
    if round = 0 then pure (total, s) else simplifyLoop fuel (total + round) s

/-- Run all simplification passes and compose their rewrite maps. -/
def simplifyInner (s : Session ι π) : Option (Nat × Session ι π) :=
  simplifyLoop (s.cfg.blockBound + 1) 0 s

/-! ## The edits -/

structure IsBypass (c : Cfg ι π) (id target outgoing : Nat) (c' : Cfg ι π) : Prop where
  wf : c'.WF
  frame : c.SameFrame c'
  ne : target ≠ id
  ne_entry : id ≠ c.entry
  not_anchor : id ∉ c.anchors
  empty : ∃ label, c.block id = some ⟨[], label⟩
  leaves : ∃ r, c.edge outgoing = some r ∧ r.source = id ∧ r.target = target ∧
    fallsThrough r.payload.kind = true
  sole_outgoing : ∀ e r, c.edge e = some r → r.source = id → e = outgoing
  block : ∀ i, c'.block i = if i = id then none else c.block i
  edge : ∀ e, c'.edge e =
    if e = outgoing then none else (c.edge e).map (Cfg.moveTarget id target)
  blockBound : c'.blockBound = c.blockBound
  edgeBound : c'.edgeBound = c.edgeBound

variable {c c' : Cfg ι π} {fs : List (Fold ι π)} {n : Nat} {s s' : Session ι π}

theorem IsBypass.contains_iff {id target outgoing : Nat} (h : IsBypass c id target outgoing c') (i : Nat) :
    c'.containsBlock i ↔ c.containsBlock i ∧ i ≠ id := by
  simp only [Cfg.containsBlock, h.block]
  by_cases hi : i = id <;> simp [hi]

theorem bypassBlock_spec (h : s.cfg.WF) (id : Nat) : bypassBlock s id = some (false, s) ∨
      ∃ s' target outgoing, bypassBlock s id = some (true, s') ∧
        IsBypass s.cfg id target outgoing s'.cfg ∧ s'.mapping = s.mapping.map (fun mapping =>
          ((mapping.recordKept (s.cfg.incoming id)).recordEdge outgoing []).recordBlock id []) ∧
        s'.folds = s.folds := by
  generalize hres : bypassBlock s id = res
  unfold bypassBlock at hres
  simp only at hres
  split at hres
  · exact Or.inl hres.symm
  next block hblock =>
  split at hres
  · exact Or.inl hres.symm
  next hpre =>
  simp only [not_or, Bool.not_eq_false, Bool.not_eq_true] at hpre
  obtain ⟨hentry, hempty, hanchor⟩ := hpre
  split at hres
  · exact Or.inl hres.symm
  next outgoing hsole =>
  obtain ⟨⟨record, hrecord, hsource⟩, hout⟩ := h.soleOutgoing hsole
  simp only [Option.bind_eq_bind, hrecord, Option.bind_some] at hres
  split at hres
  · exact Or.inl hres.symm
  next hguard =>
  simp only [not_or, Bool.not_eq_false] at hguard
  obtain ⟨hkind, hne⟩ := hguard
  have hlive : s.cfg.containsBlock id := by simp [Cfg.containsBlock, hblock]
  obtain ⟨c₁, hc₁⟩ := Cfg.exists_redirectEdgesTo (Cfg.block_lt hlive) (h.target_live hrecord)
  obtain ⟨hwf₁, hframe₁, hblock₁, hedge₁, hbound₁, hebound₁⟩ := Cfg.redirectEdgesTo_spec h hc₁
  obtain ⟨hwf₂, hframe₂, hblock₂, hedge₂, hbound₂, hebound₂⟩ := Cfg.removeEdge_spec hwf₁ outgoing
  set c₂ := (c₁.removeEdge outgoing).2 with hc₂
  have hframe : s.cfg.SameFrame c₂ := hframe₁.trans hframe₂
  have hlive₂ : c₂.containsBlock id := by
    rw [Cfg.containsBlock, hblock₂, hblock₁]
    exact hlive
  obtain ⟨c₃, hc₃⟩ := Cfg.exists_removeBlock (c := c₂) (b := id)
    (by rw [hframe.entry]; exact hentry)
  obtain ⟨-, hrem⟩ := Cfg.removeBlock_spec hwf₂ hlive₂ hc₃
  have hedge : ∀ e, c₂.edge e =
      if e = outgoing then none else (s.cfg.edge e).map (Cfg.moveTarget id record.target) := by
    intro e
    rw [hedge₂, hedge₁]
  -- no edge of the block is left by then
  have hedge₃ : ∀ e, c₃.edge e = c₂.edge e := by
    intro e
    rw [hrem.edge]
    cases hr : c₂.edge e with
    | none => rfl
    | some r =>
      rw [hedge] at hr
      split at hr
      · cases hr
      next hec =>
      obtain ⟨r₀, hr₀, rfl⟩ := Option.map_eq_some_iff.mp hr
      have hs : r₀.source ≠ id := fun hs => hec (hout e r₀ hr₀ hs)
      have ht : (Cfg.moveTarget id record.target r₀).target ≠ id := by
        rw [Cfg.target_moveTarget]
        split
        · exact hne
        · assumption
      simp [hs, ht]
  right
  simp only [hc₁, Option.bind_some, ← hc₂, hc₃] at hres
  refine ⟨_, record.target, outgoing, hres.symm, ?_, rfl, rfl⟩
  exact {
    wf := hrem.wf
    frame := hframe.trans hrem.frame
    ne := hne
    ne_entry := hentry
    not_anchor := by simpa [Cfg.isAnchor] using hanchor
    empty := by
      refine ⟨block.label, hblock.trans ?_⟩
      have : block.instructions = [] := by simpa [BasicBlock.isEmpty] using hempty
      rw [← this]
    leaves := ⟨record, hrecord, hsource, rfl, hkind⟩
    sole_outgoing := hout
    block := by
      intro i
      rw [hrem.block, hblock₂, hblock₁]
    edge := fun e => (hedge₃ e).trans (hedge e)
    blockBound := hrem.blockBound.trans (hbound₂.trans hbound₁)
    edgeBound := hrem.edgeBound.trans (hebound₂.trans hebound₁) }

/-- A set of blocks that holds the entry and the live anchors and that no edge leaves. -/
structure Closed (c : Cfg ι π) (K : Nat → Prop) : Prop where
  entry : K c.entry
  anchor : ∀ a ∈ c.anchors, c.containsBlock a → K a
  edge : ∀ e r, c.edge e = some r → K r.source → K r.target

inductive Edit : Cfg ι π → List (Fold ι π) → Cfg ι π → Prop
  | fold {c c' : Cfg ι π} {source target connecting : Nat} {sb tb : BasicBlock ι} :
    IsFold c source target connecting sb tb c' → Edit c [⟨c, source, target⟩] c'
  | bypass {c c' : Cfg ι π} {id target outgoing : Nat} :
    IsBypass c id target outgoing c' → Edit c [] c'
  | drop {c c' : Cfg ι π} {b : Nat} {K : Nat → Prop} :
    c.IsRemoval b c' → Closed c K → ¬ K b → Edit c [] c'

/-- A number of edits in a row, with the contractions among them. -/
inductive Edits : Nat → Cfg ι π → List (Fold ι π) → Cfg ι π → Prop
  | refl (c : Cfg ι π) : Edits 0 c [] c
  | step {n : Nat} {c c' c'' : Cfg ι π} {fs gs : List (Fold ι π)} :
    Edit c fs c' → Edits n c' gs c'' → Edits (n + 1) c (fs ++ gs) c''

theorem Edits.trans {m : Nat} {c'' : Cfg ι π} {gs : List (Fold ι π)}
    (h : Edits n c fs c') (h' : Edits m c' gs c'') : Edits (n + m) c (fs ++ gs) c'' := by
  induction h with
  | refl => rwa [Nat.zero_add]
  | @step n _ _ _ fs₁ gs₁ he _ ih =>
    rw [show n + 1 + m = (n + m) + 1 by omega, append_assoc]
    exact .step he (ih h')

theorem Edits.single (h : Edit c fs c') : Edits 1 c fs c' := by
  have := Edits.step h (.refl c')
  rwa [append_nil] at this

theorem Edit.wf (h : Edit c fs c') : c'.WF := by
  cases h with
  | fold h => exact h.wf
  | bypass h => exact h.wf
  | drop h => exact h.wf

theorem Edits.wf (h : Edits n c fs c') (hc : c.WF) : c'.WF := by
  induction h with
  | refl => exact hc
  | step he _ ih => exact ih he.wf

/-! ## Every edit removes a block -/

def blockCount (c : Cfg ι π) : Nat :=
  total (fun b => if c.containsBlock b then 1 else 0) (List.range c.blockBound)

theorem blockCount_le (c : Cfg ι π) : blockCount c ≤ c.blockBound := by
  refine Nat.le_trans (total_le (f := fun _ => 1) ?_) ?_
  · intro b _
    split <;> simp
  · rw [total_one, length_range]

theorem blockCount_drop (hbound : c'.blockBound = c.blockBound) (b : Nat)
    (hb : c.containsBlock b) (hiff : ∀ i, c'.containsBlock i ↔ c.containsBlock i ∧ i ≠ b) :
    blockCount c' + 1 ≤ blockCount c := by
  unfold blockCount
  rw [hbound]
  refine total_drop ?_ (mem_range.mpr (Cfg.block_lt hb)) ?_
  · intro i _
    by_cases hi : c'.containsBlock i
    · simp [hi, ((hiff i).mp hi).1]
    · simp [hi]
  · have hb' : ¬ c'.containsBlock b := fun h => ((hiff b).mp h).2 rfl
    simp [hb, hb']

theorem Edit.blockCount (h : Edit c fs c') : blockCount c' + 1 ≤ blockCount c := by
  cases h with
  | @fold _ _ target _ _ _ h =>
    exact blockCount_drop h.blockBound target (by simp [Cfg.containsBlock, h.target_block])
      h.contains_iff
  | @bypass _ id _ _ h =>
    obtain ⟨label, hb⟩ := h.empty
    exact blockCount_drop h.blockBound id (by simp [Cfg.containsBlock, hb]) h.contains_iff
  | drop h => exact blockCount_drop h.blockBound _ h.live h.contains_iff

theorem Edits.blockCount (h : Edits n c fs c') :
    Transform.blockCount c' + n ≤ Transform.blockCount c := by
  induction h with
  | refl => exact Nat.le_refl _
  | step he _ ih =>
    have := he.blockCount
    omega

/-! ## Every pass is a run of edits -/

/-- `s'` is what `n` edits make of `s`; a record is kept throughout or not at all. -/
def Ran (n : Nat) (s s' : Session ι π) : Prop :=
  s'.mapping.isSome = s.mapping.isSome ∧
    ∃ fs, s'.folds = s.folds ++ fs ∧ Edits n s.cfg fs s'.cfg

theorem Ran.refl (s : Session ι π) : Ran 0 s s := ⟨rfl, [], (append_nil _).symm, .refl _⟩

theorem Ran.trans {m : Nat} {s'' : Session ι π} (h : Ran n s s') (h' : Ran m s' s'') :
    Ran (n + m) s s'' := by
  obtain ⟨hmap, fs, hfs, hedits⟩ := h
  obtain ⟨hmap', gs, hgs, hedits'⟩ := h'
  exact ⟨hmap'.trans hmap, fs ++ gs, by rw [hgs, hfs, append_assoc], hedits.trans hedits'⟩

theorem Ran.wf (h : Ran n s s') (hs : s.cfg.WF) : s'.cfg.WF := by
  obtain ⟨_, fs, _, hedits⟩ := h
  exact hedits.wf hs

theorem Ran.blockCount (h : Ran n s s') :
    Transform.blockCount s'.cfg + n ≤ Transform.blockCount s.cfg := by
  obtain ⟨_, fs, _, hedits⟩ := h
  exact hedits.blockCount

theorem contractEdgeInner_ran (h : s.cfg.WF) (source target : Nat) :
    ∃ happened s', contractEdgeInner s source target = some (happened, s') ∧
      Ran (if happened then 1 else 0) s s' := by
  rcases contractEdgeInner_spec h source target with
    hno | ⟨s', _, _, _, _, hyes, hfold, _, hmap, hfolds⟩
  · exact ⟨false, s, hno, .refl s⟩
  · exact ⟨true, s', hyes, by rw [hmap, Option.isSome_map], _, hfolds, .single (.fold hfold)⟩

theorem bypassBlock_ran (h : s.cfg.WF) (id : Nat) :
    ∃ happened s', bypassBlock s id = some (happened, s') ∧
      Ran (if happened then 1 else 0) s s' := by
  rcases bypassBlock_spec h id with hno | ⟨s', _, _, hyes, hbypass, hmap, hfolds⟩
  · exact ⟨false, s, hno, .refl s⟩
  · exact ⟨true, s', hyes, by rw [hmap, Option.isSome_map], [], by rw [hfolds, append_nil],
      .single (.bypass hbypass)⟩

theorem mergeFrom_ran (h : s.cfg.WF) (source fuel : Nat) (hfuel : blockCount s.cfg < fuel) :
    ∃ n s', mergeFrom source fuel s = some (n, s') ∧ Ran n s s' := by
  induction fuel generalizing s with
  | zero => omega
  | succ fuel ih =>
    unfold mergeFrom
    split
    · exact ⟨0, s, rfl, .refl s⟩
    next connecting hsole =>
    obtain ⟨⟨record, hrecord, _⟩, _⟩ := h.soleOutgoing hsole
    obtain ⟨happened, s₁, hcontract, hran⟩ := contractEdgeInner_ran h source record.target
    simp only [Option.bind_eq_bind, hrecord, Option.bind_some, hcontract]
    cases happened with
    | false => exact ⟨0, s₁, rfl, hran⟩
    | true =>
      have hcount := hran.blockCount
      simp only [if_true] at hran hcount
      obtain ⟨n, s₂, hmerge, hran₂⟩ := ih (hran.wf h) (by omega)
      exact ⟨n + 1, s₂, by simp [hmerge], by rw [Nat.add_comm]; exact hran.trans hran₂⟩

theorem mergeAlong_ran (h : s.cfg.WF) (order : List Nat) (merged : Nat) :
    ∃ n s', mergeAlong order merged s = some (merged + n, s') ∧ Ran n s s' := by
  induction order generalizing s merged with
  | nil => exact ⟨0, s, rfl, .refl s⟩
  | cons source order ih =>
    have hcons : ∀ more s₁, Ran more s s₁ →
        ∃ n s', mergeAlong order (merged + more) s₁ = some (merged + n, s') ∧ Ran n s s' := by
      intro more s₁ hran
      obtain ⟨n, s', hmerge, hran'⟩ := ih (hran.wf h) (merged + more)
      exact ⟨more + n, s', by rw [hmerge, Nat.add_assoc], hran.trans hran'⟩
    unfold mergeAlong
    rw [foldlM_cons]
    by_cases hlive : s.cfg.containsBlock source
    · have hbound := blockCount_le s.cfg
      obtain ⟨more, s₁, hmerge, hran⟩ := mergeFrom_ran h source (s.cfg.blockBound + 1)
        (by omega)
      simp only [hlive, if_true, Option.bind_eq_bind, hmerge, Option.bind_some]
      exact hcons more s₁ hran
    · simp only [hlive, Option.bind_eq_bind]
      exact hcons 0 s (.refl s)

theorem exists_depthFirstPreorder (h : c.WF) :
    ∃ order, depthFirstPreorder c.view.toGraphView c.entry .outgoing = some order :=
  let hlt : c.entry < c.view.nodeBound := Cfg.block_lt h.entry
  ⟨_, by rw [depthFirstPreorder, if_pos hlt]⟩

theorem mergeBlocksInner_ran (h : s.cfg.WF) :
    ∃ n s', mergeBlocksInner s = some (n, s') ∧ Ran n s s' := by
  obtain ⟨order, horder⟩ := exists_depthFirstPreorder h
  obtain ⟨n, s', hmerge, hran⟩ := mergeAlong_ran h order 0
  refine ⟨n, s', ?_, hran⟩
  rw [Nat.zero_add] at hmerge
  simp [mergeBlocksInner, horder, hmerge]

theorem bypassAlong_ran (h : s.cfg.WF) (order : List Nat) (removed : Nat) :
    ∃ n s', bypassAlong order removed s = some (removed + n, s') ∧ Ran n s s' := by
  induction order generalizing s removed with
  | nil => exact ⟨0, s, rfl, .refl s⟩
  | cons id order ih =>
    obtain ⟨happened, s₁, hbypass, hran⟩ := bypassBlock_ran h id
    obtain ⟨n, s', hrest, hran'⟩ := ih (hran.wf h) (if happened then removed + 1 else removed)
    refine ⟨(if happened then 1 else 0) + n, s', ?_, hran.trans hran'⟩
    have hsum : (if happened then removed + 1 else removed) + n =
        removed + ((if happened then 1 else 0) + n) := by
      split <;> omega
    rw [hsum] at hrest
    unfold bypassAlong at hrest ⊢
    rw [foldlM_cons]
    simp only [Option.bind_eq_bind, hbypass, Option.bind_some]
    exact hrest

theorem removeEmptyBlocksInner_ran (h : s.cfg.WF) :
    ∃ n s', removeEmptyBlocksInner s = some (n, s') ∧ Ran n s s' := by
  obtain ⟨order, horder⟩ := exists_depthFirstPreorder h
  obtain ⟨n, s', hbypass, hran⟩ := bypassAlong_ran h order 0
  refine ⟨n, s', ?_, hran⟩
  rw [Nat.zero_add] at hbypass
  simp [removeEmptyBlocksInner, horder, hbypass]

theorem Closed.removal {K : Nat → Prop} (h : Closed c K) {b : Nat} (hrem : c.IsRemoval b c') : Closed c' K where
  entry := by rw [hrem.frame.entry]; exact h.entry
  anchor := by
    intro a ha hlive
    have hsame : c'.anchors = c.anchors := by
      unfold Cfg.anchors
      rw [hrem.frame.regions, hrem.frame.cleanups]
    exact h.anchor a (hsame ▸ ha) ((hrem.contains_iff a).mp hlive).1
  edge := by
    intro e r hr hs
    rw [hrem.edge] at hr
    obtain ⟨r₀, hr₀, hkeep⟩ := Option.bind_eq_some_iff.mp hr
    split at hkeep
    · cases hkeep
    · cases hkeep
      exact h.edge e r hr₀ hs

theorem removeBlocksRecording_edits {K : Nat → Prop} (h : c.WF) (hK : Closed c K)
    {doomed : List Nat} (hnodup : doomed.Nodup) (hout : ∀ b ∈ doomed, c.containsBlock b ∧ ¬ K b) (mapping : Rewrite) :
    ∃ c' mapping', removeBlocksRecording c doomed mapping = some (c', mapping') ∧
      Edits doomed.length c [] c' := by
  induction doomed generalizing c mapping with
  | nil => exact ⟨c, mapping, rfl, .refl c⟩
  | cons b doomed ih =>
    obtain ⟨hlive, hb⟩ := hout b mem_cons_self
    have hentry : b ≠ c.entry := fun he => hb (he ▸ hK.entry)
    obtain ⟨c₁, hc₁⟩ := Cfg.exists_removeBlock (c := c) hentry
    obtain ⟨-, hrem⟩ := Cfg.removeBlock_spec h hlive hc₁
    obtain ⟨hbout, hrest⟩ := nodup_cons.mp hnodup
    have hout₁ : ∀ x ∈ doomed, c₁.containsBlock x ∧ ¬ K x := by
      intro x hx
      obtain ⟨hxlive, hxK⟩ := hout x (mem_cons_of_mem b hx)
      exact ⟨(hrem.contains_iff x).mpr ⟨hxlive, fun he => hbout (he ▸ hx)⟩, hxK⟩
    obtain ⟨c', mapping', hrun, hedits⟩ := ih hrem.wf (hK.removal hrem) hrest hout₁
      ((mapping.recordRemoved (c.outgoing b ++ c.incoming b)).recordBlock b [])
    refine ⟨c', mapping', ?_, .step (.drop hrem hK hb) hedits⟩
    unfold removeBlocksRecording at hrun ⊢
    rw [foldlM_cons]
    simp only [Cfg.removeBlockRecording, hlive, if_true, hc₁, Option.map_some,
      Option.bind_eq_bind, Option.bind_some]
    exact hrun

theorem removeUnreachableMapped_edits (h : c.WF) :
    ∃ n c' mapping, removeUnreachableMapped c = some (n, c', mapping) ∧ Edits n c [] c' := by
  have hroots : ∀ root ∈ c.entry :: c.anchors.filter c.containsBlock,
      root < c.view.toGraphView.nodeBound := by
    intro root hroot
    rcases mem_cons.mp hroot with rfl | hroot
    · exact Cfg.block_lt h.entry
    · exact Cfg.block_lt (mem_filter.mp hroot).2
  obtain ⟨reached, hreached, hiff⟩ := reachable_spec h.lawful_view hroots .outgoing
  have hK : Closed c (fun b => reached b) := by
    refine ⟨?_, ?_, ?_⟩
    · exact (hiff _).mpr ⟨c.entry, mem_cons_self, .refl⟩
    · intro a ha hlive
      exact (hiff _).mpr ⟨a, mem_cons_of_mem _ (mem_filter.mpr ⟨ha, hlive⟩), .refl⟩
    · intro e r hr hs
      obtain ⟨root, hroot, hreach⟩ := (hiff _).mp hs
      exact (hiff _).mpr ⟨root, hroot, hreach.tail (h.mem_successors.mpr ⟨e, r, hr, rfl, rfl⟩)⟩
  have hout : ∀ b ∈ c.blockIds.filter fun block => !reached block,
      c.containsBlock b ∧ ¬ reached b := by
    intro b hb
    obtain ⟨hmem, hno⟩ := mem_filter.mp hb
    exact ⟨Cfg.mem_blockIds.mp hmem, by simpa using hno⟩
  have hnodup : c.blockIds.Nodup := h.lawful_view.nodeIds_nodup
  obtain ⟨c', mapping, hrun, hedits⟩ := removeBlocksRecording_edits h hK (hnodup.filter _) hout .new
  refine ⟨_, c', mapping, ?_, hedits⟩
  simp [removeUnreachableMapped, hreached, hrun]

/-- The three passes of a round and what it makes of their records. -/
theorem simplifyRound_parts (h : s.cfg.WF) : ∃ n₁ c₁ um n₂ s₂ em n₃ s₃ mm,
      removeUnreachableMapped s.cfg = some (n₁, c₁, um) ∧ Edits n₁ s.cfg [] c₁ ∧
      removeEmptyBlocksInner ⟨c₁, some .new, s.folds⟩ = some (n₂, s₂) ∧
      Ran n₂ ⟨c₁, some .new, s.folds⟩ s₂ ∧ s₂.mapping = some em ∧
      mergeBlocksInner ⟨s₂.cfg, some .new, s₂.folds⟩ = some (n₃, s₃) ∧
      Ran n₃ ⟨s₂.cfg, some .new, s₂.folds⟩ s₃ ∧ s₃.mapping = some mm ∧
      simplifyRound s = some (n₁ + n₂ + n₃,
        ⟨s₃.cfg, s.mapping.map fun mapping => ((mapping.compose um).compose em).compose mm,
          s₃.folds⟩) := by
  obtain ⟨n₁, c₁, um, hun, hedits⟩ := removeUnreachableMapped_edits h
  have hwf₁ := hedits.wf h
  obtain ⟨n₂, s₂, hempty, hran₂⟩ :=
    removeEmptyBlocksInner_ran (s := ⟨c₁, some .new, s.folds⟩) hwf₁
  obtain ⟨em, hem⟩ := Option.isSome_iff_exists.mp hran₂.1
  obtain ⟨n₃, s₃, hmerge, hran₃⟩ :=
    mergeBlocksInner_ran (s := ⟨s₂.cfg, some .new, s₂.folds⟩) (hran₂.wf hwf₁)
  obtain ⟨mm, hmm⟩ := Option.isSome_iff_exists.mp hran₃.1
  refine ⟨n₁, c₁, um, n₂, s₂, em, n₃, s₃, mm, hun, hedits, hempty, hran₂, hem, hmerge, hran₃, hmm, ?_⟩
  simp [simplifyRound, hun, hempty, hem, hmerge, hmm]

theorem simplifyRound_ran (h : s.cfg.WF) : ∃ n s', simplifyRound s = some (n, s') ∧ Ran n s s' := by
  obtain ⟨n₁, c₁, um, n₂, s₂, em, n₃, s₃, mm, _, hedits, _, hran₂, _, _, hran₃, _, hround⟩ :=
    simplifyRound_parts h
  refine ⟨_, _, hround, ?_⟩
  obtain ⟨_, fs₂, hfs₂, hedits₂⟩ := hran₂
  obtain ⟨_, fs₃, hfs₃, hedits₃⟩ := hran₃
  refine ⟨by simp, fs₂ ++ fs₃, ?_, (hedits.trans hedits₂).trans hedits₃⟩
  rw [hfs₃, hfs₂, append_assoc]

theorem simplifyLoop_ran (h : s.cfg.WF) (fuel sum : Nat) (hfuel : blockCount s.cfg < fuel) :
    ∃ n s', simplifyLoop fuel sum s = some (sum + n, s') ∧ Ran n s s' := by
  induction fuel generalizing s sum with
  | zero => omega
  | succ fuel ih =>
    obtain ⟨round, s₁, hround, hran⟩ := simplifyRound_ran h
    unfold simplifyLoop
    simp only [Option.bind_eq_bind, hround, Option.bind_some]
    by_cases hzero : round = 0
    · subst hzero
      exact ⟨0, s₁, rfl, hran⟩
    · have hcount := hran.blockCount
      obtain ⟨n, s', hloop, hran'⟩ := ih (hran.wf h) (sum + round) (by omega)
      exact ⟨round + n, s', by rw [if_neg hzero, hloop, Nat.add_assoc], hran.trans hran'⟩

theorem simplifyInner_ran (h : s.cfg.WF) : ∃ n s', simplifyInner s = some (n, s') ∧ Ran n s s' := by
  have hbound := blockCount_le s.cfg
  obtain ⟨n, s', hloop, hran⟩ := simplifyLoop_ran h (s.cfg.blockBound + 1) 0 (by omega)
  rw [Nat.zero_add] at hloop
  exact ⟨n, s', hloop, hran⟩

end CfgLib.Transform

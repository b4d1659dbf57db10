import CfgLib.Graph.Diff.Isomorphism

/-!
# Renumbered graphs are identical

Compared with a renumbering of itself, a graph whose blocks the entry all
reaches is identical, and the walk from the entries makes no other pairs than
those of the renumbering.
-/

namespace CfgLib

open Lib Relation List

/-! ## Pairs along renamed edges -/

/-- The edges of a block with their targets renamed. -/
def renameTarget (ν : Nat → Nat) (e : Nat × Nat) : Nat × Nat := (e.1, ν e.2)

theorem chunkByKind_map (ν : Nat → Nat) (edges : List (Nat × Nat)) :
    chunkByKind (edges.map (renameTarget ν)) = (chunkByKind edges).map (List.map (renameTarget ν)) := by
  induction edges with
  | nil => rfl
  | cons e rest ih =>
    rw [map_cons, chunkByKind, chunkByKind, ih]
    cases chunkByKind rest with
    | nil => rfl
    | cons group groups =>
      cases group with
      | nil => rfl
      | cons e' group =>
        by_cases hkind : e.1 = e'.1
        · simp only [map_cons, renameTarget, hkind, if_true]
        · simp only [map_cons, map_nil, renameTarget, hkind, if_false]

theorem kindOf_map (ν : Nat → Nat) (group : List (Nat × Nat)) :
    kindOf (group.map (renameTarget ν)) = kindOf group := by
  cases group <;> rfl

theorem pairedTargets_map (ν : Nat → Nat) (groups : List (List (Nat × Nat))) :
    pairedTargets groups (groups.map (List.map (renameTarget ν))) = groups.flatten.map fun e => (e.2, ν e.2) := by
  induction groups with
  | nil => rfl
  | cons group groups ih =>
    have hzip : ((group.zip (group.map (renameTarget ν))).map fun p => (p.1.2, p.2.2)) =
        group.map fun e => (e.2, ν e.2) := by
      rw [zip_map_right, List.map_map]
      induction group with
      | nil => rfl
      | cons e group ih => exact congrArg _ (ih)
    rw [map_cons, pairedTargets, dropWhile_cons, kindOf_map]
    simp only [Nat.lt_irrefl, decide_false, Bool.false_eq_true, if_false, kindOf_map, if_true]
    rw [ih, hzip, flatten_cons, map_append]

/-! ## Renumbered sides -/

structure Side.Renumbered (left right : Side) (ν : Nat → Nat) : Prop where
  blocks : Set.BijOn ν {b | b ∈ left.blocks} {b | b ∈ right.blocks}
  entry : ν left.entry = right.entry
  fingerprint : ∀ b ∈ left.blocks, (right.facts (ν b)).fingerprint = (left.facts b).fingerprint
  outEdges : ∀ b ∈ left.blocks, (right.facts (ν b)).outEdges = (left.facts b).outEdges.map (renameTarget ν)

section

variable {left right : Side} {ν : Nat → Nat}

/-- A walk that makes no other pairs than those of the renumbering, and whose matched blocks are
settled or still queued. -/
structure Tracking (left right : Side) (ν : Nat → Nat) (settled : Nat → Prop)
    (s : Matching × List (Nat × Nat)) : Prop extends Walking left right s where
  pairs : ∀ l r, s.1.rightOf.get l = some r → r = ν l
  queued : ∀ p ∈ s.2, p.2 = ν p.1
  covered : ∀ l, (s.1.rightOf.get l).isSome → settled l ∨ (l, ν l) ∈ s.2

variable {s s' : Matching × List (Nat × Nat)} {settled : Nat → Prop}

/-- Two targets that the renumbering pairs are paired once they have been looked at. -/
theorem Tracking.takePair (hν : left.Renumbered right ν)
    (h : Tracking left right ν settled s) {t : Nat} (ht : t ∈ left.blocks) :
    Tracking left right ν settled (takePair left right s (t, ν t)) ∧
      (∀ l, (s.1.rightOf.get l).isSome → ((CfgLib.takePair left right s (t, ν t)).1.rightOf.get l).isSome) ∧
      ((CfgLib.takePair left right s (t, ν t)).1.rightOf.get t).isSome := by
  have hwalk := (h.toWalking.takePair (p := (t, ν t)) ht (hν.blocks.mapsTo ht)).1
  cases hmatched : s.1.rightOf.get t with
  | some r =>
    have hskip : CfgLib.takePair left right s (t, ν t) = s := by
      simp [CfgLib.takePair, Matching.bothFree, hmatched]
    rw [hskip, hmatched]
    exact ⟨h, fun _ hl => hl, rfl⟩
  | none =>
    -- The counterpart is free too: its only possible partner is the target itself.
    have hfree : s.1.leftOf.get (ν t) = none := by
      cases hl : s.1.leftOf.get (ν t) with
      | none => rfl
      | some l =>
        have hget := (h.matching.inverse l (ν t)).mpr hl
        have htl : t = l := hν.blocks.injOn ht (h.matching.left_live l _ hget) (h.pairs l _ hget)
        rw [htl, hget] at hmatched
        cases hmatched
    have htake : CfgLib.takePair left right s (t, ν t) = (s.1.pair t (ν t), s.2 ++ [(t, ν t)]) := by
      simp [CfgLib.takePair, Matching.bothFree, hmatched, hfree, hν.fingerprint t ht]
    rw [htake] at hwalk ⊢
    refine ⟨⟨hwalk, ?_, ?_, ?_⟩, ?_, ?_⟩
    · intro l r hlr
      simp only [Matching.pair, FiniteMap.get_insert] at hlr
      split at hlr
      · next hl => rw [hl, Option.some.inj hlr]
      · exact h.pairs l r hlr
    · intro p hp
      rcases mem_append.mp hp with hp | hp
      · exact h.queued p hp
      · rw [mem_singleton.mp hp]
    · intro l hl
      simp only [Matching.pair, FiniteMap.get_insert] at hl
      split at hl
      · next hlt =>
        rw [hlt]
        exact Or.inr (mem_append_right _ (mem_singleton.mpr rfl))
      · exact (h.covered l hl).imp_right (mem_append_left _)
    · intro l hl
      simp only [Matching.pair, FiniteMap.get_insert]
      split
      · rfl
      · exact hl
    · simp [Matching.pair]

theorem Tracking.foldl (hν : left.Renumbered right ν) {targets : List Nat} (htargets : ∀ t ∈ targets, t ∈ left.blocks)
    (h : Tracking left right ν settled s)
    (hs : (targets.map fun t => (t, ν t)).foldl (CfgLib.takePair left right) s = s') :
    Tracking left right ν settled s' ∧
      (∀ l, (s.1.rightOf.get l).isSome → (s'.1.rightOf.get l).isSome) ∧
      ∀ t ∈ targets, (s'.1.rightOf.get t).isSome := by
  induction targets generalizing s with
  | nil =>
    rw [map_nil, foldl_nil] at hs
    subst hs
    exact ⟨h, fun _ hl => hl, fun _ ht => (not_mem_nil ht).elim⟩
  | cons t targets ih =>
    obtain ⟨hnext, hkept, ht⟩ := h.takePair hν (htargets t mem_cons_self)
    obtain ⟨hend, hkept', hall⟩ := ih (fun t' ht' => htargets t' (mem_cons_of_mem t ht')) hnext hs
    refine ⟨hend, fun l hl => hkept' l (hkept l hl), ?_⟩
    intro t' ht'
    rcases mem_cons.mp ht' with rfl | ht'
    · exact hkept' _ ht
    · exact hall t' ht'

/-- The walk makes the right pairs, and the targets of settled blocks are matched. -/
def OnTrack (left right : Side) (ν : Nat → Nat) (s : Matching × List (Nat × Nat)) : Prop :=
  ∃ settled : Nat → Prop, Tracking left right ν settled s ∧
    ∀ l, settled l → ∀ e ∈ (left.facts l).outEdges, (s.1.rightOf.get e.2).isSome

theorem OnTrack.turn (hleft : left.WF) (hν : left.Renumbered right ν)
    (h : OnTrack left right ν s) (hs : followTurn left right s = some s') : OnTrack left right ν s' := by
  obtain ⟨settled, htrack, hsettled⟩ := h
  obtain ⟨m, pending⟩ := s
  cases pending with
  | nil => cases hs
  | cons p pending =>
    obtain ⟨l, r⟩ := p
    obtain rfl : r = ν l := htrack.queued (l, r) mem_cons_self
    have hl : l ∈ left.blocks := (htrack.pending (l, ν l) mem_cons_self).1
    rw [followTurn, hν.outEdges l hl, chunkByKind_map, pairedTargets_map, flatten_chunkByKind,
      Option.some.injEq] at hs
    have hrest : Tracking left right ν (fun a => settled a ∨ a = l) (m, pending) := by
      refine ⟨⟨htrack.matching, fun q hq => htrack.pending q (mem_cons_of_mem _ hq)⟩, htrack.pairs,
        fun q hq => htrack.queued q (mem_cons_of_mem _ hq), ?_⟩
      intro a ha
      rcases htrack.covered a ha with ha | ha
      · exact Or.inl (Or.inl ha)
      · rcases mem_cons.mp ha with ha | ha
        · exact Or.inl (Or.inr (Prod.mk.inj ha).1)
        · exact Or.inr ha
    have htargets : ∀ t ∈ (left.facts l).outEdges.map (·.2), t ∈ left.blocks := by
      intro t ht
      obtain ⟨e, he, rfl⟩ := mem_map.mp ht
      exact hleft.closed l hl e he
    have hmap : (((left.facts l).outEdges.map (·.2)).map fun t => (t, ν t)) =
        (left.facts l).outEdges.map fun e => (e.2, ν e.2) := List.map_map
    rw [← hmap] at hs
    obtain ⟨hend, hkept, hall⟩ := hrest.foldl hν htargets hs
    refine ⟨_, hend, ?_⟩
    rintro a (ha | rfl) e he
    · exact hkept e.2 (hsettled a ha e he)
    · exact hall e.2 (mem_map_of_mem he)

/-- The walk from the entries makes the pairs of the renumbering, and its matched blocks are closed
under edges. -/
theorem followEdges_renumbered (hleft : left.WF) (hright : right.WF) (hν : left.Renumbered right ν)
    {m : Matching} (hm : followEdges left right (Matching.empty.pair left.entry right.entry)
      (left.entry, right.entry) = m) :
    (∀ l r, m.rightOf.get l = some r → r = ν l) ∧ m.rightOf.get left.entry = some right.entry ∧
      ∀ l, (m.rightOf.get l).isSome → ∀ e ∈ (left.facts l).outEdges, (m.rightOf.get e.2).isSome := by
  have hwalk := followEdges_oneToOne hleft hright (Matching.oneToOne_start hleft hright)
    (p := (left.entry, right.entry)) hleft.entry hright.entry
  have hstart : OnTrack left right ν
      (Matching.empty.pair left.entry right.entry, [(left.entry, right.entry)]) := by
    have hget : ∀ l r, (Matching.empty.pair left.entry right.entry).rightOf.get l = some r →
        l = left.entry ∧ r = ν l := by
      intro l r h
      simp only [Matching.pair, Matching.empty, FiniteMap.get_insert, FiniteMap.get_empty] at h
      split at h
      · next hl => exact ⟨hl, by rw [hl, hν.entry, Option.some.inj h]⟩
      · cases h
    refine ⟨fun _ => False, ⟨⟨Matching.oneToOne_start hleft hright, ?_⟩, ?_, ?_, ?_⟩, fun _ h => h.elim⟩
    · intro p hp
      rw [mem_singleton.mp hp]
      exact ⟨hleft.entry, hright.entry⟩
    · exact fun l r h => (hget l r h).2
    · intro p hp
      rw [mem_singleton.mp hp]
      exact hν.entry.symm
    · intro l hl
      obtain ⟨r, hr⟩ := Option.isSome_iff_exists.mp hl
      obtain ⟨rfl, _⟩ := hget l r hr
      rw [hν.entry]
      exact Or.inr mem_cons_self
  obtain ⟨settled, htrack, hsettled⟩ := iterate_invariant (I := OnTrack left right ν)
    (fun _ _ h hs => h.turn hleft hν hs) (left.blocks.length + 1) hstart
  have hexit := hwalk.2
  rw [followEdges] at hm
  generalize iterate (followTurn left right) (left.blocks.length + 1)
    (Matching.empty.pair left.entry right.entry, [(left.entry, right.entry)]) = s at *
  obtain ⟨m', pending⟩ := s
  subst hm
  cases pending with
  | cons p pending => cases hexit
  | nil =>
    refine ⟨htrack.pairs, htrack.matching.entry, ?_⟩
    intro l hl
    rcases htrack.covered l hl with hl | hl
    · exact hsettled l hl
    · cases hl

/-- With every block matched by the first walk there is nothing left to choose. -/
theorem foldl_takeCandidate {blocks : List Nat} {s : Matching × (Nat × Nat × List Nat → List Nat)}
    (h : ∀ b ∈ blocks, (s.1.rightOf.get b).isSome) : blocks.foldl (takeCandidate left right) s = s := by
  induction blocks with
  | nil => rfl
  | cons b blocks ih =>
    rw [foldl_cons, takeCandidate, if_pos (h b mem_cons_self)]
    exact ih fun b' hb' => h b' (mem_cons_of_mem b hb')

theorem CfgDiff.matchSides_renumbered (hleft : left.WF) (hright : right.WF) (hν : left.Renumbered right ν)
    (hreach : ∀ b ∈ left.blocks,
      ReflTransGen (fun a b => ∃ e ∈ (left.facts a).outEdges, e.2 = b) left.entry b) :
    ∀ b ∈ left.blocks, (matchSides left right).rightOf.get b = some (ν b) := by
  obtain ⟨hpairs, hentry, hclosed⟩ := followEdges_renumbered hleft hright hν rfl
  have hmatched : ∀ b ∈ left.blocks, ((followEdges left right (Matching.empty.pair left.entry right.entry)
      (left.entry, right.entry)).rightOf.get b).isSome := by
    intro b hb
    have h := hreach b hb
    clear hb
    induction h with
    | refl => rw [hentry]; rfl
    | tail _ hedge ih =>
      obtain ⟨e, he, rfl⟩ := hedge
      exact hclosed _ ih e he
  intro b hb
  have hsides : matchSides left right = followEdges left right (Matching.empty.pair left.entry right.entry)
      (left.entry, right.entry) := by
    simp only [matchSides]
    rw [foldl_takeCandidate]
    exact hmatched
  rw [hsides]
  obtain ⟨r, hr⟩ := Option.isSome_iff_exists.mp (hmatched b hb)
  rw [hr, hpairs b r hr]

end

/-! ## Renumbered graphs -/

variable {ι π ι' π' : Type}

/-- The same graph under other block numbers, with the adjacency order of every block kept. -/
structure Cfg.RenumberedBlocks (c : Cfg ι π) (c' : Cfg ι' π') (ν : Nat → Nat) : Prop where
  blocks : Set.BijOn ν {b | c.containsBlock b} {b | c'.containsBlock b}
  entry : ν c.entry = c'.entry
  instructions : ∀ b, c.containsBlock b →
    (c'.block (ν b)).map (·.instructions.length) = (c.block b).map (·.instructions.length)
  edges : ∀ b, c.containsBlock b → c'.outEdges (ν b) = (c.outEdges b).map fun e => (e.1, ν e.2)

namespace Cfg

variable {c : Cfg ι π} {c' : Cfg ι' π'}

theorem WF.incoming_perm (h : c.WF) (b : Nat) :
    (c.incoming b).Perm ((c.blockIds.flatMap c.outgoing).filter
      fun e => ((c.edge e).map fun r => r.target == b).getD false) := by
  have hnodup : (c.blockIds.flatMap c.outgoing).Nodup := by
    rw [nodup_flatMap]
    refine ⟨fun a _ => h.graph.nodup .outgoing a, c.nodup_blockIds.imp ?_⟩
    intro a a' hne e he he'
    obtain ⟨r, hr, rfl⟩ := h.mem_outgoing.mp he
    obtain ⟨r', hr', rfl⟩ := h.mem_outgoing.mp he'
    rw [hr, Option.some.injEq] at hr'
    exact hne (congrArg _ hr')
  have hincoming : (c.incoming b).Nodup := h.graph.nodup .incoming b
  rw [perm_ext_iff_of_nodup hincoming (hnodup.filter _)]
  intro e
  rw [mem_filter, mem_flatMap]
  constructor
  · intro he
    obtain ⟨r, hr, rfl⟩ := h.mem_incoming.mp he
    refine ⟨⟨r.source, mem_blockIds.mpr (h.source_live hr), h.mem_outgoing.mpr ⟨r, hr, rfl⟩⟩, ?_⟩
    simp [hr]
  · rintro ⟨⟨a, _, he⟩, htarget⟩
    obtain ⟨r, hr, _⟩ := h.mem_outgoing.mp he
    simp only [hr, Option.map_some, Option.getD_some, beq_iff_eq] at htarget
    exact h.mem_incoming.mpr ⟨r, hr, htarget⟩

theorem WF.length_incoming (h : c.WF) (b : Nat) :
    (c.incoming b).length = (c.blockIds.flatMap c.outEdges).countP fun e => e.2 == b := by
  rw [(h.incoming_perm b).length_eq, ← countP_eq_length_filter, countP_flatMap, countP_flatMap]
  congr 1
  apply map_congr_left
  intro a _
  simp only [Function.comp_apply, outEdges, countP_filterMap, Option.map_map]
  rfl

variable {b : Nat} {ν : Nat → Nat}

theorem RenumberedBlocks.length_incoming (h : c.WF) (h' : c'.WF)
    (hν : c.RenumberedBlocks c' ν) (hb : c.containsBlock b) : (c'.incoming (ν b)).length = (c.incoming b).length := by
  have hblocks : c'.blockIds.Perm (c.blockIds.map ν) := by
    rw [perm_ext_iff_of_nodup c'.nodup_blockIds
      (List.Nodup.map_on (fun a ha a' ha' => hν.blocks.injOn (mem_blockIds.mp ha) (mem_blockIds.mp ha'))
        c.nodup_blockIds)]
    intro r
    rw [mem_blockIds, mem_map]
    constructor
    · intro hr
      obtain ⟨a, ha, rfl⟩ := hν.blocks.surjOn hr
      exact ⟨a, mem_blockIds.mpr ha, rfl⟩
    · rintro ⟨a, ha, rfl⟩
      exact hν.blocks.mapsTo (mem_blockIds.mp ha)
  have hedges : (c.blockIds.map ν).flatMap c'.outEdges =
      (c.blockIds.flatMap c.outEdges).map fun e => (e.1, ν e.2) := by
    rw [flatMap_map, map_flatMap]
    apply flatMap_congr
    intro a ha
    exact hν.edges a (mem_blockIds.mp ha)
  rw [h.length_incoming, h'.length_incoming, (hblocks.flatMap_right _).countP_eq, hedges, countP_map]
  apply countP_congr
  intro e he
  obtain ⟨a, _, he⟩ := mem_flatMap.mp he
  simp only [Function.comp_apply, beq_iff_eq]
  exact ⟨fun heq => hν.blocks.injOn (h.outEdges_live he) hb heq, fun heq => congrArg ν heq⟩

theorem RenumberedBlocks.side (h : c.WF) (h' : c'.WF) (hν : c.RenumberedBlocks c' ν) :
    (Side.new c).Renumbered (Side.new c') ν := by
  have hout : ∀ b, c.containsBlock b → ((Side.new c').facts (ν b)).outEdges =
      ((Side.new c).facts b).outEdges.map (renameTarget ν) := by
    intro b hb
    -- The sort reads only the kinds, which renaming the targets keeps.
    have hsort : ∀ edges : List (Nat × Nat),
        (edges.mergeSort fun e e' => e.1 ≤ e'.1).map (renameTarget ν) =
          (edges.map (renameTarget ν)).mergeSort fun e e' => e.1 ≤ e'.1 :=
      fun _ => map_mergeSort fun _ _ _ _ => rfl
    simp only [Side.new]
    rw [hν.edges b hb, hsort, List.map_map, List.map_map]
    rfl
  have hset : {b | b ∈ (Side.new c).blocks} = {b | c.containsBlock b} := Set.ext fun _ => mem_blockIds
  have hset' : {b | b ∈ (Side.new c').blocks} = {b | c'.containsBlock b} := Set.ext fun _ => mem_blockIds
  refine ⟨?_, hν.entry, ?_, fun b hb => hout b (mem_blockIds.mp hb)⟩
  · rw [hset, hset']
    exact hν.blocks
  · intro b hb
    have hlive := mem_blockIds.mp hb
    have hfacts := hout b hlive
    have hinstructions := hν.instructions b hlive
    have hincoming := hν.length_incoming h h' hlive
    simp only [Side.new] at hfacts ⊢
    rw [hfacts, hinstructions, hincoming, length_map, List.map_map]
    rfl

theorem mem_successors_iff {a : Nat} : b ∈ c.successors a ↔ ∃ e ∈ c.outEdges a, e.2 = b := by
  simp only [successors, outEdges, mem_filterMap, Option.map_eq_some_iff]
  constructor
  · rintro ⟨id, hid, r, hr, rfl⟩
    exact ⟨_, ⟨id, hid, r, hr, rfl⟩, rfl⟩
  · rintro ⟨e, ⟨id, hid, r, hr, rfl⟩, rfl⟩
    exact ⟨id, hid, r, hr, rfl⟩

end Cfg

namespace CfgDiff

variable {c : Cfg ι π} {c' : Cfg ι' π'}

/-- A renumbering of a graph whose blocks the entry all reaches is identical to it, and the pairs are
those of the renumbering. -/
theorem isIdentical_of_renumbered (h : c.WF) (h' : c'.WF)
    (hreach : ∀ b, c.containsBlock b → ReflTransGen (fun a b => b ∈ c.successors a) c.entry b)
    {ν : Nat → Nat} (hν : c.RenumberedBlocks c' ν) : (compute c c').isIdentical ∧
      ((compute c c').matched.map fun p => (p.left, p.right)) = c.blockIds.map fun b => (b, ν b) := by
  have hget : ∀ b, c.containsBlock b → (matchSides (.new c) (.new c')).rightOf.get b = some (ν b) := by
    intro b hb
    apply matchSides_renumbered h.side h'.side (hν.side h h') ?_ b (Cfg.mem_blockIds.mpr hb)
    intro b hb
    apply ReflTransGen.mono ?_ _ _ (hreach b (Cfg.mem_blockIds.mp hb))
    intro a t hat
    obtain ⟨e, he, rfl⟩ := Cfg.mem_successors_iff.mp hat
    exact ⟨_, (Side.outEdges_perm c a).symm.subset (mem_map_of_mem he), rfl⟩
  have hm := matchSides_oneToOne h.side h'.side
  refine ⟨isIdentical_iff.mpr ⟨?_, ?_, ?_⟩, ?_⟩
  · apply filter_eq_nil_iff.mpr
    intro b hb
    rw [hget b (Cfg.mem_blockIds.mp hb)]
    exact Bool.false_ne_true
  · apply filter_eq_nil_iff.mpr
    intro r hr
    obtain ⟨b, hb, rfl⟩ := hν.blocks.surjOn (Cfg.mem_blockIds.mp hr)
    rw [(hm.inverse b (ν b)).mp (hget b hb)]
    exact Bool.false_ne_true
  · intro p hp
    obtain ⟨b, hb, r, hr, rfl⟩ := mem_matched.mp hp
    have hlive := Cfg.mem_blockIds.mp hb
    rw [hget b hlive, Option.some.injEq] at hr
    subst hr
    refine ⟨?_, ?_⟩
    · simp only [blockMatch, (hν.side h h').fingerprint b hb, bne_self_eq_false]
    · simp only [blockMatch, Bool.not_eq_false']
      rw [edgesPreserved_iff (ν := ν) fun e he => hget e.2 (Cfg.mem_blockIds.mp (h.side.closed b hb e he)),
        (hν.side h h').outEdges b hb]
      exact List.Perm.refl _
  · simp only [compute]
    rw [map_filterMap, ← filterMap_eq_map]
    change c.blockIds.filterMap _ = _
    apply filterMap_congr
    intro b hb
    rw [hget b (Cfg.mem_blockIds.mp hb)]
    rfl

/-- The comparison is sound for every two graphs, and complete for graphs whose blocks the entry all
reaches: the pairs are one-to-one, pair the entries and split both graphs with the unmatched blocks;
identical graphs are isomorphic under the pairs; and a renumbering is identical under its own pairs. -/
theorem compare_exact (h : c.WF) (h' : c'.WF) :
    ((∀ p ∈ (compute c c').matched, ∀ q ∈ (compute c c').matched, p.left = q.left ↔ p.right = q.right) ∧
      (∃ p ∈ (compute c c').matched, p.left = c.entry ∧ p.right = c'.entry) ∧
      ((compute c c').matched.map (·.left) ++ (compute c c').leftOnly).Perm c.blockIds ∧
      ((compute c c').matched.map (·.right) ++ (compute c c').rightOnly).Perm c'.blockIds) ∧
    ((compute c c').isIdentical → ∃ ν, c.Isomorphic c' ν ∧
      ((compute c c').matched.map fun p => (p.left, p.right)) = c.blockIds.map fun b => (b, ν b)) ∧
    ((∀ b, c.containsBlock b → ReflTransGen (fun a b => b ∈ c.successors a) c.entry b) →
      ∀ ν, c.RenumberedBlocks c' ν → (compute c c').isIdentical ∧
        ((compute c c').matched.map fun p => (p.left, p.right)) = c.blockIds.map fun b => (b, ν b)) := by
  have hm := matchSides_oneToOne h.side h'.side
  refine ⟨⟨?_, ?_, partitions h h'⟩, isomorphic_of_isIdentical h h', fun hreach ν =>
    isIdentical_of_renumbered h h' hreach⟩
  · intro p hp q hq
    obtain ⟨b, _, r, hr, rfl⟩ := mem_matched.mp hp
    obtain ⟨b', _, r', hr', rfl⟩ := mem_matched.mp hq
    constructor
    · intro heq
      change b = b' at heq
      rw [heq, hr', Option.some.injEq] at hr
      exact hr.symm
    · intro heq
      change r = r' at heq
      rw [← heq] at hr'
      exact hm.inverse.injective hr hr'
  · exact ⟨_, mem_matched.mpr ⟨c.entry, Cfg.mem_blockIds.mpr h.entry, c'.entry, hm.entry, rfl⟩, rfl, rfl⟩

/-- Three blocks in a row, and the same row numbered in another order. -/
def row : Cfg Nat Unit := .ofParts [[7], [], []] [(0, 1, .fallthrough, ()), (1, 2, .fallthrough, ())]

def rowSwapped : Cfg Nat Unit := .ofParts [[7], [], []] [(0, 2, .fallthrough, ()), (2, 1, .fallthrough, ())]

theorem row_renumbered : row.RenumberedBlocks rowSwapped fun b => if b = 1 then 2 else if b = 2 then 1 else b := by
  have hlive : ∀ b, row.containsBlock b ↔ b = 0 ∨ b = 1 ∨ b = 2 := by
    intro b
    rw [← Cfg.mem_blockIds, show row.blockIds = [0, 1, 2] from rfl]
    simp
  have hlive' : ∀ b, rowSwapped.containsBlock b ↔ b = 0 ∨ b = 1 ∨ b = 2 := by
    intro b
    rw [← Cfg.mem_blockIds, show rowSwapped.blockIds = [0, 1, 2] from rfl]
    simp
  refine ⟨⟨?_, ?_, ?_⟩, rfl, ?_, ?_⟩
  · intro b hb
    rcases (hlive b).mp hb with rfl | rfl | rfl <;> rfl
  · intro b hb b' hb' h
    rcases (hlive b).mp hb with rfl | rfl | rfl <;> rcases (hlive b').mp hb' with rfl | rfl | rfl <;>
      first | rfl | cases h
  · intro r hr
    rcases (hlive' r).mp hr with rfl | rfl | rfl
    · exact ⟨0, rfl, rfl⟩
    · exact ⟨2, rfl, rfl⟩
    · exact ⟨1, rfl, rfl⟩
  · intro b hb
    rcases (hlive b).mp hb with rfl | rfl | rfl <;> rfl
  · intro b hb
    rcases (hlive b).mp hb with rfl | rfl | rfl <;> rfl

theorem compare_exact_row : (compute row rowSwapped).isIdentical ∧
    ((compute row rowSwapped).matched.map fun p => (p.left, p.right)) = [(0, 0), (1, 2), (2, 1)] := by
  have hreach : ∀ b, row.containsBlock b → ReflTransGen (fun a b => b ∈ row.successors a) row.entry b := by
    intro b hb
    have hfirst : ReflTransGen (fun a b => b ∈ row.successors a) row.entry 1 := .single (by decide)
    rw [← Cfg.mem_blockIds, show row.blockIds = [0, 1, 2] from rfl] at hb
    simp only [mem_cons, not_mem_nil, or_false] at hb
    rcases hb with rfl | rfl | rfl
    · exact .refl
    · exact hfirst
    · exact hfirst.tail (by decide)
  exact (compare_exact (Cfg.wf_ofParts rfl) (Cfg.wf_ofParts rfl)).2.2 hreach _ row_renumbered

end CfgDiff

end CfgLib

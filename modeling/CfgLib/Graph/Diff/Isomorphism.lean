import CfgLib.Graph.Diff
import Mathlib.Data.Set.Function

/-!
# Identical graphs are isomorphic

What the report of a comparison says about the two graphs: the pairs and the
unmatched blocks split the live blocks of both, and when nothing is unmatched
and nothing changed the pairing carries one graph to the other.
-/

namespace CfgLib

open Lib List

/-! ## Sides of graphs -/

variable {ι π ι' π' : Type}

theorem Side.outEdges_perm (c : Cfg ι π) (b : Nat) :
    ((Side.new c).facts b).outEdges.Perm ((c.outEdges b).map fun e => (e.1.discriminant, e.2)) :=
  mergeSort_perm _ _

theorem Cfg.WF.outEdges_live {c : Cfg ι π} (h : c.WF) {b : Nat} {e : EdgeKind × Nat} (he : e ∈ c.outEdges b) :
    c.containsBlock e.2 := by
  obtain ⟨id, _, hid⟩ := mem_filterMap.mp he
  obtain ⟨r, hr, rfl⟩ := Option.map_eq_some_iff.mp hid
  exact h.target_live hr

theorem Cfg.nodup_blockIds (c : Cfg ι π) : c.blockIds.Nodup := List.Nodup.filter _ nodup_range

theorem Cfg.WF.side {c : Cfg ι π} (h : c.WF) : (Side.new c).WF := by
  refine ⟨c.nodup_blockIds, Cfg.mem_blockIds.mpr h.entry, ?_⟩
  intro b _ e he
  obtain ⟨e', he', rfl⟩ := mem_map.mp ((Side.outEdges_perm c b).subset he)
  exact Cfg.mem_blockIds.mpr (h.outEdges_live he')

/-! ## The comparison of edges -/

theorem pairLe_iff (a b : Nat × Nat) : pairLe a b ↔ a.1 < b.1 ∨ (a.1 = b.1 ∧ a.2 ≤ b.2) := by
  simp [pairLe]

theorem mergeSort_pairLe_eq_iff (l l' : List (Nat × Nat)) :
    l.mergeSort pairLe = l'.mergeSort pairLe ↔ l.Perm l' := by
  have htrans : ∀ a b c : Nat × Nat, pairLe a b → pairLe b c → pairLe a c := by
    intro a b c hab hbc
    rw [pairLe_iff] at *
    omega
  have htotal : ∀ a b : Nat × Nat, (pairLe a b || pairLe b a) = true := by
    intro a b
    rw [Bool.or_eq_true, pairLe_iff, pairLe_iff]
    omega
  constructor
  · intro h
    refine (mergeSort_perm l pairLe).symm.trans ?_
    rw [h]
    exact mergeSort_perm l' pairLe
  · intro h
    apply List.Perm.eq_of_pairwise ?_ (pairwise_mergeSort htrans htotal l)
      (pairwise_mergeSort htrans htotal l')
    · exact (mergeSort_perm l pairLe).trans (h.trans (mergeSort_perm l' pairLe).symm)
    · intro a b _ _ hab hba
      rw [pairLe_iff] at hab hba
      exact Prod.ext (by omega) (by omega)

theorem mapM_eq_some_map {α β : Type} {f : α → Option β} {g : α → β} {l : List α} (h : ∀ a ∈ l, f a = some (g a)) :
    l.mapM f = some (l.map g) := by
  induction l with
  | nil => rfl
  | cons a l ih =>
    rw [mapM_cons, h a mem_cons_self, ih fun b hb => h b (mem_cons_of_mem a hb)]
    rfl

/-- Where every target has its counterpart, the edges are preserved when renaming the targets of the
left edges gives the right edges. -/
theorem edgesPreserved_iff {left right : BlockFacts} {m : Matching} {ν : Nat → Nat}
    (h : ∀ e ∈ left.outEdges, m.rightOf.get e.2 = some (ν e.2)) :
    edgesPreserved left right m ↔ (left.outEdges.map fun e => (e.1, ν e.2)).Perm right.outEdges := by
  have hmapped : (left.outEdges.mapM fun e => (m.rightOf.get e.2).map fun counterpart => (e.1, counterpart)) =
      some (left.outEdges.map fun e => (e.1, ν e.2)) := by
    apply mapM_eq_some_map
    intro e he
    rw [h e he, Option.map_some]
  unfold edgesPreserved
  rw [hmapped]
  exact beq_iff_eq.trans (mergeSort_pairLe_eq_iff _ _)

/-! ## Isomorphisms -/

/-- A renaming of the live blocks that carries one graph to the other: the entry, the number of
instructions of every block, and its outgoing edges, as a multiset of kinds and targets. -/
structure Cfg.Isomorphic (c : Cfg ι π) (c' : Cfg ι' π') (ν : Nat → Nat) : Prop where
  blocks : Set.BijOn ν {b | c.containsBlock b} {b | c'.containsBlock b}
  entry : ν c.entry = c'.entry
  instructions : ∀ b, c.containsBlock b →
    (c'.block (ν b)).map (·.instructions.length) = (c.block b).map (·.instructions.length)
  edges : ∀ b, c.containsBlock b → ((c.outEdges b).map fun e => (e.1, ν e.2)).Perm (c'.outEdges (ν b))

theorem Side.perm_outEdges_iff (c : Cfg ι π) (c' : Cfg ι' π') (ν : Nat → Nat) (b b' : Nat) :
    (((Side.new c).facts b).outEdges.map fun e => (e.1, ν e.2)).Perm ((Side.new c').facts b').outEdges ↔
      ((c.outEdges b).map fun e => (e.1, ν e.2)).Perm (c'.outEdges b') := by
  have hdisc : Function.Injective fun e : EdgeKind × Nat => (e.1.discriminant, e.2) := by
    intro e e' h
    rw [Prod.mk.injEq] at h
    exact Prod.ext (EdgeKind.discriminant_injective h.1) h.2
  have hleft := (Side.outEdges_perm c b).map fun e => (e.1, ν e.2)
  have hright := Side.outEdges_perm c' b'
  rw [hleft.congr_left, hright.congr_right, ← map_perm_map_iff hdisc, map_map, map_map]
  rfl

namespace CfgDiff

variable {c : Cfg ι π} {c' : Cfg ι' π'}

theorem mem_matched {p : BlockMatch} : p ∈ (compute c c').matched ↔ ∃ b ∈ c.blockIds, ∃ r,
      (matchSides (.new c) (.new c')).rightOf.get b = some r ∧
        blockMatch (.new c) (.new c') (matchSides (.new c) (.new c')) b r = p := by
  simp only [compute, mem_filterMap, Option.map_eq_some_iff]
  rfl

theorem matched_left : (compute c c').matched.map (·.left) =
    c.blockIds.filter fun b => ((matchSides (.new c) (.new c')).rightOf.get b).isSome := by
  simp only [compute]
  rw [map_filterMap]
  change c.blockIds.filterMap _ = _
  induction c.blockIds with
  | nil => rfl
  | cons b blocks ih =>
    rw [filterMap_cons, filter_cons, ← ih]
    cases (matchSides (.new c) (.new c')).rightOf.get b <;> rfl

theorem matched_right : (compute c c').matched.map (·.right) =
    c.blockIds.filterMap (matchSides (.new c) (.new c')).rightOf.get := by
  simp only [compute]
  rw [map_filterMap]
  change c.blockIds.filterMap _ = _
  congr 1
  funext b
  cases (matchSides (.new c) (.new c')).rightOf.get b <;> rfl

/-- The pairs and the unmatched blocks split the live blocks of both graphs. -/
theorem partitions (h : c.WF) (h' : c'.WF) :
    ((compute c c').matched.map (·.left) ++ (compute c c').leftOnly).Perm c.blockIds ∧
      ((compute c c').matched.map (·.right) ++ (compute c c').rightOnly).Perm c'.blockIds := by
  have hm := matchSides_oneToOne h.side h'.side
  constructor
  · rw [matched_left]
    have hnone : (compute c c').leftOnly =
        c.blockIds.filter fun b => !((matchSides (.new c) (.new c')).rightOf.get b).isSome := by
      apply filter_congr
      intro b _
      exact (Option.not_isSome _).symm
    rw [hnone]
    exact filter_append_perm _ c.blockIds
  · rw [matched_right]
    exact hm.inverse.split_perm c.nodup_blockIds c'.nodup_blockIds hm.left_live hm.right_live

theorem isIdentical_iff : (compute c c').isIdentical ↔
    (compute c c').leftOnly = [] ∧ (compute c c').rightOnly = [] ∧
      ∀ p ∈ (compute c c').matched, p.instructionCountChanged = false ∧ p.edgesChanged = false := by
  simp only [isIdentical, Bool.and_eq_true, List.isEmpty_iff, all_eq_true, Bool.not_eq_true', and_assoc]

theorem isomorphic_of_isIdentical (h : c.WF) (h' : c'.WF) (hid : (compute c c').isIdentical) :
    ∃ ν, c.Isomorphic c' ν ∧
      ((compute c c').matched.map fun p => (p.left, p.right)) = c.blockIds.map fun b => (b, ν b) := by
  obtain ⟨hleft, hright, hpairs⟩ := isIdentical_iff.mp hid
  have hm := matchSides_oneToOne h.side h'.side
  have hmem : ∀ p, p ∈ (compute c c').matched ↔ _ := fun p => mem_matched
  generalize hM : matchSides (.new c) (.new c') = m at hm hmem
  obtain ⟨ν, hν⟩ : ∃ ν : Nat → Nat, ∀ b, c.containsBlock b → m.rightOf.get b = some (ν b) := by
    refine ⟨fun b => (m.rightOf.get b).getD 0, ?_⟩
    intro b hb
    have hnot := filter_eq_nil_iff.mp hleft b (Cfg.mem_blockIds.mpr hb)
    rw [hM] at hnot
    cases hr : m.rightOf.get b with
    | none => simp [hr] at hnot
    | some r => simp [hr]
  have hlive : ∀ b, c.containsBlock b → c'.containsBlock (ν b) := fun b hb =>
    Cfg.mem_blockIds.mp (hm.right_live b _ (hν b hb))
  have hpair : ∀ b, c.containsBlock b → _ := fun b hb =>
    hpairs _ ((hmem _).mpr ⟨b, Cfg.mem_blockIds.mpr hb, ν b, hν b hb, rfl⟩)
  refine ⟨ν, ⟨⟨hlive, ?_, ?_⟩, ?_, ?_, ?_⟩, ?_⟩
  · intro b hb b' hb' he
    have hb'' := hν b' hb'
    rw [← he] at hb''
    exact hm.inverse.injective (hν b hb) hb''
  · intro r hr
    have hnot := filter_eq_nil_iff.mp hright r (Cfg.mem_blockIds.mpr hr)
    rw [hM] at hnot
    cases hl : m.leftOf.get r with
    | none => simp [hl] at hnot
    | some l =>
      have hget := (hm.inverse l r).mpr hl
      have hlmem := Cfg.mem_blockIds.mp (hm.left_live l r hget)
      rw [hν l hlmem] at hget
      exact ⟨l, hlmem, Option.some.inj hget⟩
  · have hentry := hm.entry
    change m.rightOf.get c.entry = some c'.entry at hentry
    rw [hν c.entry h.entry] at hentry
    exact Option.some.inj hentry
  · intro b hb
    obtain ⟨hcount, _⟩ := hpair b hb
    simp only [blockMatch, Side.new, bne_eq_false_iff_eq] at hcount
    obtain ⟨block, hblock⟩ := Option.isSome_iff_exists.mp hb
    obtain ⟨block', hblock'⟩ := Option.isSome_iff_exists.mp (hlive b hb)
    simp only [hblock, hblock', Option.map_some, Option.getD_some] at hcount ⊢
    rw [hcount]
  · intro b hb
    obtain ⟨_, hedges⟩ := hpair b hb
    simp only [blockMatch, Bool.not_eq_false'] at hedges
    rw [← Side.perm_outEdges_iff]
    refine (edgesPreserved_iff (m := m) ?_).mp hedges
    intro e he
    exact hν e.2 (Cfg.mem_blockIds.mp (h.side.closed b (Cfg.mem_blockIds.mpr hb) e he))
  · simp only [compute]
    rw [map_filterMap, ← filterMap_eq_map, hM]
    change c.blockIds.filterMap _ = _
    apply filterMap_congr
    intro b hb
    rw [hν b (Cfg.mem_blockIds.mp hb)]
    rfl

end CfgDiff

end CfgLib

import CfgLib.Lib.Cycles
import CfgLib.Lib.Frontier

/-!
# Definitions and joins

What a walk through a rooted graph last defined, when some vertices write a value
and joins carry parameters for it.  With parameters at the live vertices of the
iterated frontier, a live vertex without one is reached by a single definition, and
every parameter stands where two definitions meet.
-/

namespace CfgLib.Lib

open Relation List

variable {V : Type} {E : V → V → Prop} {r a b : V}

/-- What a walk carries: the value at the entry, what a vertex wrote, or a parameter. -/
inductive Definition (V : Type) where
  | entry
  | write (vertex : V)
  | param (vertex : V)
  deriving DecidableEq

def Definition.site (r : V) : Definition V → V
  | .entry => r
  | .write v | .param v => v

section Last

variable (writes placed : V → Prop) [DecidablePred writes] [DecidablePred placed]

/-- What a walk carries after `v`; the parameter comes before what `v` writes. -/
def passVertex (d : Definition V) (v : V) : Definition V :=
  if writes v then .write v else if placed v then .param v else d

/-- What a walk carries after it passed the given vertices. -/
def lastDefinition (passed : List V) : Definition V := passed.foldl (passVertex writes placed) .entry

def SingleDefinition (E : V → V → Prop) (r b : V) : Prop :=
  ∀ p q, Walk E r b p → Walk E r b q →
    lastDefinition writes placed p.dropLast = lastDefinition writes placed q.dropLast

/-- Two walks from `r` come to `b` with different definitions. -/
def DefinitionsMeet (E : V → V → Prop) (r b : V) : Prop :=
  ∃ p q, Walk E r b p ∧ Walk E r b q ∧
    lastDefinition writes placed p.dropLast ≠ lastDefinition writes placed q.dropLast

variable {writes placed}

theorem passVertex_of_not {v : V} (hw : ¬ writes v) (hp : ¬ placed v) (d : Definition V) :
    passVertex writes placed d v = d := by
  rw [passVertex, if_neg hw, if_neg hp]

theorem passVertex_ne_entry {v : V} (h : writes v ∨ placed v) (d : Definition V) :
    passVertex writes placed d v ≠ .entry := by
  unfold passVertex
  split
  · simp
  · next hw =>
    rw [if_pos (h.resolve_left hw)]
    simp

theorem site_passVertex {v : V} (h : v = r ∨ writes v ∨ placed v) :
    (passVertex writes placed .entry v).site r = v := by
  unfold passVertex
  split
  · rfl
  · next hw =>
    split
    · rfl
    · next hp => exact (h.resolve_right (not_or.mpr ⟨hw, hp⟩)).symm

theorem lastDefinition_cases (r : V) (rest : List V) : ∃ before v after,
    r :: rest = before ++ v :: after ∧
    lastDefinition writes placed (r :: rest) = passVertex writes placed .entry v ∧
    ((v = r ∧ before = []) ∨ writes v ∨ placed v) ∧ ∀ u ∈ after, ¬ (writes u ∨ placed u) := by
  induction rest using List.reverseRecOn with
  | nil => exact ⟨[], r, [], rfl, rfl, Or.inl ⟨rfl, rfl⟩, fun _ hu => absurd hu not_mem_nil⟩
  | append_singleton rest u ih =>
    have hfold : lastDefinition writes placed (r :: (rest ++ [u])) =
        passVertex writes placed (lastDefinition writes placed (r :: rest)) u := by
      unfold lastDefinition
      rw [← cons_append, foldl_append]
      rfl
    rw [hfold]
    by_cases hu : writes u ∨ placed u
    · refine ⟨r :: rest, u, [], by simp, ?_, Or.inr hu, fun _ hm => absurd hm not_mem_nil⟩
      unfold passVertex
      split
      · rfl
      · next hw => rw [if_pos (hu.resolve_left hw), if_pos (hu.resolve_left hw)]
    · obtain ⟨before, v, after, hsplit, hlast, hv, hafter⟩ := ih
      rw [passVertex_of_not (fun hw => hu (Or.inl hw)) (fun hp => hu (Or.inr hp))]
      refine ⟨before, v, after ++ [u], ?_, hlast, hv, fun x hx => ?_⟩
      · rw [← cons_append, hsplit]
        simp
      · rcases mem_append.mp hx with hx | hx
        · exact hafter x hx
        · rw [mem_singleton.mp hx]
          exact hu

end Last

/-! ## Walks beyond a vertex -/

theorem Walk.eq_dropLast {p : List V} (h : Walk E a b p) : p = p.dropLast ++ [b] := by
  cases h with
  | single => rfl
  | snoc _ _ => rw [dropLast_concat]

theorem Walk.eq_cons {p : List V} (h : Walk E a b p) : ∃ rest, p = a :: rest := by
  induction h with
  | single => exact ⟨[], rfl⟩
  | @snoc b c p _ _ ih =>
    obtain ⟨rest, rfl⟩ := ih
    exact ⟨rest ++ [c], rfl⟩

theorem Walk.passed_cases {p : List V} (h : Walk E a b p) :
    (p.dropLast = [] ∧ b = a) ∨ ∃ rest, p.dropLast = a :: rest := by
  cases h with
  | single => exact Or.inl ⟨rfl, rfl⟩
  | snoc hw _ =>
    rw [dropLast_concat]
    exact Or.inr hw.eq_cons

theorem exists_last_occurrence {l : List V} (h : a ∈ l) :
    ∃ before after, l = before ++ a :: after ∧ a ∉ after := by
  obtain ⟨after, before, hl, hnot⟩ := eq_append_cons_of_mem (mem_reverse.mpr h)
  refine ⟨before.reverse, after.reverse, ?_, fun hm => hnot (mem_reverse.mp hm)⟩
  rw [← reverse_reverse l, hl]
  simp

theorem Dominates.of_tail {x v : V} {before after : List V} (hd : Dominates E r x b)
    (hw : Walk E r b (before ++ v :: after)) (hx : x ∉ v :: after) : Dominates E r x v := by
  rw [dominates_iff_not_avoids] at hd ⊢
  intro hav
  have htail := (hw.split rfl).2.within (P := fun y => y ≠ x) (fun y hy he => hx (he ▸ hy))
    mem_cons_self
  exact hd (hav.trans htail.2)

/-- A walk that goes on from `a` stays where `a` dominates or meets its frontier. -/
theorem Walk.frontier {p : List V} (hreach : ReflTransGen E r a) (h : Walk E a b p) :
    p = [a] ∨ StrictlyDominates E r a b ∨ ∃ y ∈ p.tail, InFrontier E r a y := by
  induction h with
  | single => exact Or.inl rfl
  | @snoc b c p hw he ih =>
    have hb : ReflTransGen E r b := hreach.trans hw.reaches
    have htail : (p ++ [c]).tail = p.tail ++ [c] :=
      tail_append_of_ne_nil (ne_nil_of_mem hw.source_mem)
    rw [htail]
    have hstep : Dominates E r a b → StrictlyDominates E r a c ∨ ∃ y ∈ p.tail ++ [c], InFrontier E r a y := by
      intro hd
      by_cases hs : StrictlyDominates E r a c
      · exact Or.inl hs
      · exact Or.inr ⟨c, by simp, hb.tail he, hs, b, hb, he, hd⟩
    rcases ih with rfl | hs | ⟨y, hy, hf⟩
    · have hba : b = a := mem_singleton.mp hw.target_mem
      exact Or.inr (hstep (hba ▸ Dominates.refl _ _ _))
    · exact Or.inr (hstep hs.2)
    · exact Or.inr (Or.inr ⟨y, mem_append_left _ hy, hf⟩)

/-! ## Parameters at the live joins -/

section Placement

variable {writes placed live : V → Prop} [DecidablePred writes] [DecidablePred placed]

/-- What the entry and the vertices that write lead into. -/
def Joins (E : V → V → Prop) (r : V) (writes : V → Prop) : V → Prop :=
  IteratedFrontier E r (fun v => v = r ∨ writes v) fun _ => True

omit [DecidablePred writes] in
theorem Walk.live_back (hlive : ∀ v u, E v u → live u → ¬ writes v → live v) {p : List V}
    (h : Walk E a b p) (hp : ∀ u ∈ p.dropLast, ¬ writes u) (hb : live b) : live a := by
  induction h with
  | single => exact hb
  | snoc hw he ih =>
    rw [dropLast_concat] at hp
    exact ih (fun u hu => hp u (dropLast_subset _ hu)) (hlive _ _ he hb (hp _ hw.target_mem))

variable (hplaced : ∀ v, ReflTransGen E r v → (placed v ↔ live v ∧ Joins E r writes v))
  (hlive : ∀ v u, E v u → live u → ¬ writes v → live v)
include hplaced hlive

omit [DecidablePred writes] [DecidablePred placed] in
/-- The last definition on the way to a live vertex without a parameter dominates it. -/
theorem site_dominates (hb : live b) (hnot : ¬ placed b) {v : V} {before after : List V}
    (hw : Walk E r b (before ++ v :: (after ++ [b]))) (hv : v = r ∨ writes v ∨ placed v)
    (hafter : ∀ u ∈ after, ¬ (writes u ∨ placed u)) : StrictlyDominates E r v b := by
  obtain ⟨hto, hfrom⟩ := hw.split rfl
  rcases hfrom.frontier hto.reaches with hone | hs | ⟨y, hy, hf⟩
  · simp at hone
  · exact hs
  · exfalso
    have hjoin : Joins E r writes y := by
      rcases hv with hv | hv | hv
      · exact .of_def (Or.inl hv) hf trivial
      · exact .of_def (Or.inr hv) hf trivial
      · exact .of_member ((hplaced v hto.reaches).mp hv).2 hf trivial
    rw [tail_cons] at hy
    obtain ⟨l, l', hl⟩ := append_of_mem hy
    have hrest : Walk E y b (y :: l') := by
      rw [hl] at hfrom
      exact (@Walk.split _ _ _ _ _ _ hfrom (v :: l) _ rfl).2
    have hdrop : after = l ++ (y :: l').dropLast := by
      have h := congrArg List.dropLast hl
      rwa [dropLast_concat, dropLast_append_of_ne_nil (cons_ne_nil y l')] at h
    have hylive : live y := hrest.live_back hlive (fun u hu hwu =>
      hafter u (by rw [hdrop]; exact mem_append_right _ hu) (Or.inl hwu)) hb
    have hyplaced : placed y := (hplaced y hf.1).mpr ⟨hylive, hjoin⟩
    rcases mem_append.mp hy with hy | hy
    · exact hafter y hy (Or.inr hyplaced)
    · rw [mem_singleton.mp hy] at hyplaced
      exact hnot hyplaced

theorem singleDefinition_of_not_placed (hb : live b) (hnot : ¬ placed b) :
    SingleDefinition writes placed E r b := by
  intro p q hp hq
  have hsite : ∀ {p rest before v after}, Walk E r b p → p.dropLast = r :: rest →
      r :: rest = before ++ v :: after → ((v = r ∧ before = []) ∨ writes v ∨ placed v) →
      (∀ u ∈ after, ¬ (writes u ∨ placed u)) →
      Walk E r b (before ++ v :: (after ++ [b])) ∧ StrictlyDominates E r v b := by
    intro p rest before v after hp hrest hsplit hv hafter
    have heq : p = before ++ v :: (after ++ [b]) := by
      rw [hp.eq_dropLast, hrest, hsplit]
      simp
    rw [heq] at hp
    exact ⟨hp, site_dominates hplaced hlive hb hnot hp (hv.imp_left And.left) hafter⟩
  -- a walk that comes back to the entry would have a definition that dominates the entry
  have hmoved : ∀ {p rest}, Walk E r b p → p.dropLast = r :: rest → b ≠ r := by
    intro p rest hp hrest hbr
    obtain ⟨before, v, after, hsplit, _, hv, hafter⟩ :=
      @lastDefinition_cases V writes placed _ _ r rest
    obtain ⟨_, hs⟩ := hsite hp hrest hsplit hv hafter
    subst hbr
    exact hs.1 (mem_singleton.mp (hs.2 [b] .single))
  rcases hp.passed_cases with ⟨hp₀, hbr⟩ | ⟨rest, hrest⟩ <;>
    rcases hq.passed_cases with ⟨hq₀, hbr'⟩ | ⟨rest', hrest'⟩
  · rw [hp₀, hq₀]
  · exact absurd hbr (hmoved hq hrest')
  · exact absurd hbr' (hmoved hp hrest)
  · obtain ⟨before, v, after, hsplit, hlast, hv, hafter⟩ :=
      @lastDefinition_cases V writes placed _ _ r rest
    obtain ⟨before', v', after', hsplit', hlast', hv', hafter'⟩ :=
      @lastDefinition_cases V writes placed _ _ r rest'
    obtain ⟨hwalk, hs⟩ := hsite hp hrest hsplit hv hafter
    obtain ⟨hwalk', hs'⟩ := hsite hq hrest' hsplit' hv' hafter'
    -- each of the two stands before the other on the other's walk
    have hbefore : ∀ {before after : List V} {v x : V}, Walk E r b (before ++ v :: (after ++ [b])) →
        ((v = r ∧ before = []) ∨ writes v ∨ placed v) → (∀ u ∈ after, ¬ (writes u ∨ placed u)) →
        StrictlyDominates E r x b → x ≠ v → (x = r ∨ writes x ∨ placed x) → Dominates E r x v := by
      intro before after v x hwalk hv hafter hs hne hx
      rcases hx with rfl | hx
      · exact Dominates.root _ _ _
      · refine hs.2.of_tail hwalk fun hmem => ?_
        rcases mem_cons.mp hmem with he | hmem
        · exact hne he
        · rcases mem_append.mp hmem with hmem | hmem
          · exact hafter x hmem hx
          · exact hs.1 (mem_singleton.mp hmem)
    have hvv : v = v' := by
      by_contra hne
      exact hne ((hbefore hwalk' hv' hafter' hs hne (hv.imp_left And.left)).antisymm
        (hbefore hwalk hv hafter hs' (Ne.symm hne) (hv'.imp_left And.left)) (hs.2.reaches hp.reaches))
    rw [hrest, hrest', hlast, hlast', hvv]

theorem definitionsMeet_of_placed (hreach : ReflTransGen E r b) (hb : placed b) :
    DefinitionsMeet writes placed E r b := by
  obtain ⟨hblive, hjoin⟩ := (hplaced b hreach).mp hb
  obtain ⟨n, hn, hf⟩ : ∃ n, (n = r ∨ writes n ∨ Joins E r writes n) ∧ InFrontier E r n b := by
    cases hjoin with
    | of_def hd hf _ => exact ⟨_, hd.imp_right Or.inl, hf⟩
    | of_member hm hf _ => exact ⟨_, Or.inr (Or.inr hm), hf⟩
  obtain ⟨_, hnot, p, hp, he, hd⟩ := id hf
  obtain ⟨w, hw⟩ := reaches_iff_walk.mp hp
  obtain ⟨before, after, hsplit, hlast⟩ := exists_last_occurrence (hd w hw)
  -- from its last visit to `n` on, the walk stays where `n` dominates
  have hregion : ∀ z ∈ n :: after, Dominates E r n z := by
    intro z hz
    rcases mem_cons.mp hz with rfl | hz
    · exact Dominates.refl _ _ _
    · obtain ⟨l, l', rfl⟩ := append_of_mem hz
      have hw' : Walk E r p ((before ++ n :: l) ++ z :: l') := by
        rw [hsplit] at hw
        simpa using hw
      exact hd.of_tail hw' fun hmem => hlast (mem_append_right l hmem)
  obtain ⟨rest, rfl⟩ := hw.eq_cons
  obtain ⟨before₁, v, after₁, hsplit₁, hlast₁, hv, hafter₁⟩ :=
    @lastDefinition_cases V writes placed _ _ r rest
  have hdom : Dominates E r n v := by
    rcases append_eq_append_iff.mp (hsplit₁.symm.trans hsplit) with ⟨m, hm, hm'⟩ | ⟨m, hm, hm'⟩
    · cases m with
      | nil => exact hregion v (by cases hm'; exact mem_cons_self)
      | cons x m =>
        -- `n` lies past the last definition
        obtain ⟨rfl, rfl⟩ := List.cons.inj hm'
        have hnone := fun u hu => hafter₁ u (mem_append_right m hu)
        rcases hn with rfl | hn | hn
        · exact Dominates.root _ _ _
        · exact absurd (Or.inl hn) (hnone n mem_cons_self)
        · have hnwalk : Walk E n b ((n :: after) ++ [b]) := by
            rw [hsplit] at hw
            exact .snoc (hw.split rfl).2 he
          have hnlive : live n := hnwalk.live_back hlive (fun u hu hwu => by
            rw [dropLast_concat] at hu
            exact hnone u hu (Or.inl hwu)) hblive
          exact absurd (Or.inr ((hplaced n hf.reaches).mpr ⟨hnlive, hn⟩)) (hnone n mem_cons_self)
    · exact hregion v (by rw [hm']; exact mem_append_right m mem_cons_self)
  -- another walk comes to `b` outside of that region
  obtain ⟨q, hq, hqn⟩ : ∃ q, Walk E r b q ∧ n ∉ q.dropLast := by
    by_cases hnb : n = b
    · obtain ⟨q, hq⟩ := reaches_iff_walk.mp hreach
      obtain ⟨l, l', rfl, hl⟩ := eq_append_cons_of_mem hq.target_mem
      exact ⟨l ++ [b], (hq.split rfl).1, by rw [dropLast_concat, hnb]; exact hl⟩
    · obtain ⟨q, hq, hmem⟩ := avoids_iff_walk.mp (Classical.not_not.mp fun hav =>
        hnot ⟨hnb, dominates_iff_not_avoids.mpr hav⟩)
      exact ⟨q, hq, fun hc => hmem (dropLast_subset _ hc)⟩
  refine ⟨_, q, .snoc hw he, hq, ?_⟩
  rw [dropLast_concat]
  rcases hq.passed_cases with ⟨hq₀, hbr⟩ | ⟨rest', hrest'⟩
  · rw [hq₀, hlast₁]
    refine passVertex_ne_entry ?_ _
    rcases hv with ⟨hvr, _⟩ | hv
    · exact Or.inr (by rwa [hvr, ← hbr])
    · exact hv
  · obtain ⟨before₂, v', after₂, hsplit₂, hlast₂, hv', _⟩ :=
      @lastDefinition_cases V writes placed _ _ r rest'
    rw [hrest', hlast₁, hlast₂]
    intro heq
    have hsites := congrArg (Definition.site r) heq
    rw [site_passVertex (hv.imp_left And.left), site_passVertex (hv'.imp_left And.left)] at hsites
    subst hsites
    -- the walk to the vertex of the other definition does not visit `n`
    have hq' : Walk E r b (before₂ ++ v :: (after₂ ++ [b])) := by
      rw [hq.eq_dropLast, hrest', hsplit₂] at hq
      simpa using hq
    refine hqn ?_
    rw [hrest', hsplit₂]
    rcases mem_append.mp (hdom _ (hq'.split rfl).1) with hmem | hmem
    · exact mem_append_left _ hmem
    · exact mem_append_right _ (by rw [mem_singleton.mp hmem]; exact mem_cons_self)

end Placement

end CfgLib.Lib

import CfgLib.Graph.Dominator.Tree

/-!
# The dominator tree is dominance

A tree computed from a root answers its queries by the paths of the graph, its
accessors agree with each other, and it is determined by the edge relation
alone: neither adjacency order, parallel edges nor the state of the reused
buffers shows in it.
-/

namespace CfgLib.Dominator.DominatorTree

open CfgLib.Lib Relation List

/-- The queries mean what dominance in the graph means. -/
structure IsDominance (g : GraphView) (root : Nat) (t : DominatorTree) : Prop where
  isReachable_iff : ∀ b, t.isReachable b ↔ ReflTransGen g.Edge root b
  dominates_iff : ∀ a b, t.isReachable b → (t.dominates a b ↔ Dominates g.Edge root a b)
  idom_unique : ∀ b, t.isReachable b → b ≠ root →
    ∃ a, t.idom b = some a ∧ IsIdom g.Edge root a b ∧ ∀ c, IsIdom g.Edge root c b → c = a
  idom_none : ∀ b, t.idom b = none ↔ b = root ∨ ¬ t.isReachable b

/-- The accessors describe one tree over the nodes below `bound`. -/
structure Consistent (bound : Nat) (t : DominatorTree) : Prop where
  preorder_lt : ∀ v ∈ t.preorder, v < bound
  position : ∀ v k, t.preorder[k]? = some v ↔ t.pre v = some k
  interval : ∀ v, t.isReachable v → ∃ start stop, t.span v = (start, stop) ∧ start < stop ∧
    stop ≤ t.preorder.length ∧ t.subtree v = (t.preorder.drop start).take (stop - start)
  mem_subtree : ∀ a b, b ∈ t.subtree a ↔ t.isReachable b ∧ t.dominates a b
  children_eq : ∀ v, t.children v = (List.range bound).filter fun c => t.idom c = some v
  level_root : ∀ v, t.isReachable v → t.idom v = none → t.level v = some 0
  level_child : ∀ v p, t.idom v = some p → t.level v = (t.level p).map (· + 1)
  level_count : ∀ v, t.isReachable v →
    t.level v = some ((List.range bound).countP fun a => t.strictlyDominates a v)
  level_none : ∀ v, ¬ t.isReachable v → t.level v = none

/-! ## The accessors of a represented forest -/

theorem countP_insert {l : List Nat} {c : Nat} {p q : Nat → Bool} (hl : l.Nodup) (hc : c ∈ l)
    (hp : p c = false) (hq : ∀ a, q a = true ↔ a = c ∨ p a = true) :
    l.countP q = l.countP p + 1 := by
  induction l with
  | nil => cases hc
  | cons a l ih =>
    obtain ⟨ha, hl⟩ := nodup_cons.mp hl
    rw [countP_cons, countP_cons]
    by_cases hac : a = c
    · subst hac
      have hsame : l.countP q = l.countP p := by
        apply countP_congr
        intro x hx
        rw [hq x]
        constructor
        · rintro (rfl | h)
          · exact absurd hx ha
          · exact h
        · exact Or.inr
      rw [if_pos ((hq a).mpr (Or.inl rfl)), if_neg (by simp [hp]), hsame]
    · have hmem : c ∈ l := (mem_cons.mp hc).resolve_left (Ne.symm hac)
      have hiff : q a = true ↔ p a = true := by
        rw [hq a]
        exact ⟨fun h => h.resolve_left hac, Or.inr⟩
      rw [ih hl hmem]
      by_cases hpa : p a = true
      · rw [if_pos hpa, if_pos (hiff.mpr hpa)]
      · rw [if_neg hpa, if_neg fun h => hpa (hiff.mp h)]

section

variable {F : Forest} {roots : List Nat} {t : DominatorTree}

theorem Represents.strictlyDominates_iff (h : Represents F roots t) {a b : Nat} (hb : b ∈ t.order) :
    t.strictlyDominates a b ↔ a ≠ b ∧ Anc F.parent a b := by
  simp [strictlyDominates, ← h.dominates_iff hb]

theorem Represents.level_count (h : Represents F roots t) (hlt : ∀ v ∈ t.order, v < F.bound) (v : Nat)
    (hv : v ∈ t.order) :
    t.level v = some ((List.range F.bound).countP fun a => t.strictlyDominates a v) := by
  generalize hm : F.rank v = m
  induction m using Nat.strongRecOn generalizing v with
  | ind m ih =>
    have hlevel := h.level_eq hv
    cases hp : F.parent v with
    | none =>
      rw [hp] at hlevel
      have hzero : (List.range F.bound).countP (fun a => t.strictlyDominates a v) = 0 := by
        rw [countP_eq_zero]
        intro a _ hs
        obtain ⟨hne, hanc⟩ := (h.strictlyDominates_iff hv).mp hs
        exact hne (Forest.anc_root hp hanc)
      rw [hzero]
      exact hlevel
    | some p =>
      rw [hp] at hlevel
      have hpv : Anc F.parent p v := .step hp .refl
      have hpmem := h.anc_mem_order hv hpv
      have hrank := F.rank_lt v p hp
      have hcount : (List.range F.bound).countP (fun a => t.strictlyDominates a v) =
          (List.range F.bound).countP (fun a => t.strictlyDominates a p) + 1 := by
        apply countP_insert nodup_range (mem_range.mpr (hlt p hpmem))
        · simp [strictlyDominates]
        · intro a
          rw [h.strictlyDominates_iff hv, h.strictlyDominates_iff hpmem]
          constructor
          · rintro ⟨hne, hanc⟩
            by_cases hap : a = p
            · exact Or.inl hap
            · exact Or.inr ⟨hap, hanc.parent hne hp⟩
          · rintro (rfl | ⟨_, hanc⟩)
            · exact ⟨fun e => by rw [e] at hrank; omega, hpv⟩
            · refine ⟨fun e => ?_, hanc.trans hpv⟩
              have := Forest.rank_anc hanc
              rw [e] at this
              omega
      dsimp only at hlevel
      rw [hlevel, ih (F.rank p) (by omega) p hpmem rfl, hcount]
      rfl

theorem Represents.consistent (h : Represents F roots t) (hroots : ∀ r ∈ roots, r < F.bound)
    (hparent : ∀ v, F.parent v ≠ none → v ∈ t.order) : Consistent F.bound t := by
  have hlt : ∀ v ∈ t.order, v < F.bound := by
    intro v hv
    obtain ⟨r, hr, hanc⟩ := h.mem_order.mp hv
    exact Forest.flat_lt (hroots r hr) (Forest.mem_flat.mpr hanc)
  refine ⟨hlt, fun v k => h.pre_eq_some.symm, ?_, ?_, ?_, ?_, ?_, ?_, ?_⟩
  · intro v hv
    obtain ⟨before, after, horder, hspan⟩ := h.span_eq (h.isReachable_iff.mp hv)
    have hpos := NumberingBuffers.flat_length_pos (F := F) v
    refine ⟨_, _, hspan, by omega, ?_, by simp [subtree, hspan, preorder]⟩
    rw [preorder, horder]
    simp
  · intro a b
    by_cases ha : a ∈ t.order
    · rw [h.subtree_eq ha, Forest.mem_flat]
      constructor
      · intro hanc
        have hb : b ∈ t.order := by
          obtain ⟨r, hr, hra⟩ := h.mem_order.mp ha
          exact h.mem_order.mpr ⟨r, hr, hra.trans hanc⟩
        exact ⟨h.isReachable_iff.mpr hb, (h.dominates_iff hb).mpr hanc⟩
      · rintro ⟨hb, hdom⟩
        exact (h.dominates_iff (h.isReachable_iff.mp hb)).mp hdom
    · rw [h.subtree_of_not_mem ha]
      constructor
      · simp
      · rintro ⟨hb, hdom⟩
        have hb' := h.isReachable_iff.mp hb
        exact absurd (h.anc_mem_order hb' ((h.dominates_iff hb').mp hdom)) ha
  · intro v
    have hkids : ((List.range F.bound).filter fun c => t.idom c = some v) = F.kids v := by
      simp only [idom, h.parent]
      rfl
    rw [hkids]
    by_cases hv : v ∈ t.order
    · exact h.children_eq hv
    · rw [h.children_of_not_mem hv]
      symm
      rw [eq_nil_iff_forall_not_mem]
      intro c hc
      have hp := Forest.mem_kids.mp hc
      exact hv (h.anc_mem_order (hparent c (by simp [hp])) (.step hp .refl))
  · intro v hv hnone
    have := h.level_eq (h.isReachable_iff.mp hv)
    have hp : F.parent v = none := by rw [← h.parent]; exact hnone
    rwa [hp] at this
  · intro v p hvp
    have hp : F.parent v = some p := by rw [← h.parent]; exact hvp
    have := h.level_eq (hparent v (by simp [hp]))
    rwa [hp] at this
  · exact fun v hv => h.level_count hlt v (h.isReachable_iff.mp hv)
  · intro v hv
    have hnone : t.pre v = none := by simpa [isReachable] using hv
    simp [level, hnone]

end

/-! ## The computed tree -/

variable {g : GraphView} {root : Nat}

open ConstructionBuffers (IsIdomTable immediateDominators_spec)

theorem reaches_lt (hg : g.Lawful) (hroot : root < g.nodeBound) {v : Nat}
    (h : ReflTransGen g.Edge root v) : v < g.nodeBound := by
  rcases h.cases_tail with rfl | ⟨_, _, he⟩
  · exact hroot
  · exact (hg.edge_lt he).2

theorem anc_iff_dominates {idom : Nat → Option Nat} (h : IsIdomTable g root idom) {a b : Nat}
    (hb : ReflTransGen g.Edge root b) : Anc idom a b ↔ Dominates g.Edge root a b := by
  have hparent : ∀ b c, idom b = some c → ReflTransGen g.Edge root b ∧ IsIdom g.Edge root c b := by
    intro b c hbc
    have hreach : ReflTransGen g.Edge root b := by
      by_contra hno
      rw [h.idom_unreached b hno] at hbc
      cases hbc
    have hne : b ≠ root := fun e => by
      rw [e, h.idom_root] at hbc
      cases hbc
    obtain ⟨c', hc', hidom⟩ := h.idom_some b hreach hne
    rw [hbc] at hc'
    cases hc'
    exact ⟨hreach, hidom⟩
  constructor
  · intro hanc
    induction hanc with
    | refl => exact .refl _ _ _
    | step hp _ ih =>
      have hidom := (hparent _ _ hp).2
      exact (ih (hidom.strict.2.reaches hb)).trans hidom.strict.2
  · intro hdom
    obtain ⟨rank, _, _, hrank⟩ := h.ranked
    generalize hm : rank b = m
    induction m using Nat.strongRecOn generalizing b with
    | ind m ih =>
      by_cases hab : a = b
      · rw [hab]
        exact .refl
      · have hne : b ≠ root := by
          rintro rfl
          have := hdom [b] .single
          exact hab (by simpa using this)
        obtain ⟨c, hc, hidom⟩ := h.idom_some b hb hne
        have hac := hidom.least a ⟨hab, hdom⟩
        have hlt := hrank b c hc
        exact .step hc (ih (rank c) (by omega) (hidom.strict.2.reaches hb) hac rfl)

theorem represents_computeFromIn (hg : g.Lawful) (hbound : checkBound g.nodeBound)
    (hroot : root < g.nodeBound) (scratch : DominatorScratch) :
    ∃ scratch' t F, computeFromIn scratch g root = some (scratch', t) ∧ Represents F [root] t ∧
      F.bound = g.nodeBound ∧ IsIdomTable g root F.parent := by
  obtain ⟨_, htable⟩ := immediateDominators_spec hg hroot scratch.construction
  obtain ⟨rank, top, htop, hrank⟩ := htable.ranked
  have hlt : ∀ c p, (scratch.construction.immediateDominators g root).2 c = some p →
      c < g.nodeBound := by
    intro c p hp
    by_contra hge
    rw [htable.idom_unreached c fun hc => hge (reaches_lt hg hroot hc)] at hp
    cases hp
  let F : Forest := ⟨g.nodeBound, (scratch.construction.immediateDominators g root).2, rank, top,
    hlt, hrank, htop⟩
  refine ⟨_, _, F, by rw [computeFromIn, if_pos ⟨hbound, hroot⟩], ?_, rfl, htable⟩
  have hroots : ∀ r ∈ [root], F.parent r = none ∧ r < F.bound := by
    intro r hr
    rw [mem_singleton.mp hr]
    exact ⟨htable.idom_root, hroot⟩
  exact ⟨rfl, nodup_singleton root, fun r hr => (hroots r hr).1,
    NumberingBuffers.number_spec F scratch.numbering (nodup_singleton root) hroots⟩

theorem isDominance_of_represents {F : Forest} {t : DominatorTree} (h : Represents F [root] t) (htable : IsIdomTable g root F.parent) :
    IsDominance g root t := by
  have hmem : ∀ b, b ∈ t.order ↔ ReflTransGen g.Edge root b := by
    intro b
    rw [h.mem_order]
    constructor
    · rintro ⟨r, hr, hanc⟩
      rw [mem_singleton.mp hr] at hanc
      by_cases hb : ReflTransGen g.Edge root b
      · exact hb
      · cases hanc with
        | refl => exact .refl
        | step hp _ =>
          rw [htable.idom_unreached b hb] at hp
          cases hp
    · intro hb
      exact ⟨root, by simp, (anc_iff_dominates htable hb).mpr (.root _ _ _)⟩
  refine ⟨fun b => h.isReachable_iff.trans (hmem b), ?_, ?_, ?_⟩
  · intro a b hb
    have hb' := h.isReachable_iff.mp hb
    rw [h.dominates_iff hb']
    exact anc_iff_dominates htable ((hmem b).mp hb')
  · intro b hb hne
    have hreach := (hmem b).mp (h.isReachable_iff.mp hb)
    obtain ⟨a, ha, hidom⟩ := htable.idom_some b hreach hne
    exact ⟨a, by rw [idom, h.parent]; exact ha, hidom, fun c hc => hc.unique hidom hreach⟩
  · intro b
    rw [idom, h.parent, h.isReachable_iff, hmem]
    constructor
    · intro hnone
      by_contra hc
      simp only [not_or, not_not] at hc
      obtain ⟨a, ha, _⟩ := htable.idom_some b hc.2 hc.1
      rw [hnone] at ha
      cases ha
    · rintro (rfl | hno)
      · exact htable.idom_root
      · exact htable.idom_unreached b hno

theorem isIdomTable_unique {g' : GraphView} (hedge : ∀ a b, g'.Edge a b ↔ g.Edge a b)
    {idom idom' : Nat → Option Nat} (h : IsIdomTable g root idom) (h' : IsIdomTable g' root idom') :
    idom' = idom := by
  have hE : g'.Edge = g.Edge := funext fun a => funext fun b => propext (hedge a b)
  have hsome := h'.idom_some
  have hnone := h'.idom_unreached
  rw [hE] at hsome hnone
  funext v
  by_cases hv : ReflTransGen g.Edge root v
  · by_cases hne : v = root
    · rw [hne, h.idom_root, h'.idom_root]
    · obtain ⟨a, ha, hidom⟩ := h.idom_some v hv hne
      obtain ⟨a', ha', hidom'⟩ := hsome v hv hne
      rw [ha, ha', hidom'.unique hidom hv]
  · rw [h.idom_unreached v hv, hnone v hv]

theorem computeFromIn_congr {g' : GraphView} (hg : g.Lawful) (hg' : g'.Lawful)
    (hbound : g'.nodeBound = g.nodeBound) (hedge : ∀ a b, g'.Edge a b ↔ g.Edge a b)
    (scratch scratch' : DominatorScratch) :
    (computeFromIn scratch' g' root).map Prod.snd = (computeFromIn scratch g root).map Prod.snd := by
  by_cases hok : checkBound g.nodeBound ∧ root < g.nodeBound
  · have hok' : checkBound g'.nodeBound ∧ root < g'.nodeBound := by rwa [hbound]
    have htable := isIdomTable_unique hedge
      (immediateDominators_spec hg hok.2 scratch.construction).2
      (immediateDominators_spec hg' hok'.2 scratch'.construction).2
    rw [computeFromIn, computeFromIn, if_pos hok, if_pos hok']
    dsimp only [Option.map_some]
    rw [htable, hbound]
    rfl
  · have hok' : ¬ (checkBound g'.nodeBound ∧ root < g'.nodeBound) := by rwa [hbound]
    rw [computeFromIn, computeFromIn, if_neg hok, if_neg hok']

/-- The computed tree is the dominance relation of the graph, its accessors agree
with one another, and nothing but the edge relation shows in it. -/
theorem computeFromIn_isDominance (hg : g.Lawful) (hbound : checkBound g.nodeBound)
    (hroot : root < g.nodeBound) (scratch : DominatorScratch) :
    ∃ t, (computeFromIn scratch g root).map Prod.snd = some t ∧ computeFrom g root = some t ∧
      (computeIn scratch ⟨g, root⟩).map Prod.snd = some t ∧ compute ⟨g, root⟩ = some t ∧
      IsDominance g root t ∧ Consistent g.nodeBound t ∧
      ∀ (g' : GraphView) (scratch' : DominatorScratch), g'.Lawful → g'.nodeBound = g.nodeBound →
        (∀ a b, g'.Edge a b ↔ g.Edge a b) →
        (computeFromIn scratch' g' root).map Prod.snd = some t := by
  obtain ⟨scratch₁, t, F, hrun, hrep, hFbound, htable⟩ :=
    represents_computeFromIn hg hbound hroot scratch
  have hany : ∀ (g' : GraphView) (scratch' : DominatorScratch), g'.Lawful →
      g'.nodeBound = g.nodeBound → (∀ a b, g'.Edge a b ↔ g.Edge a b) →
      (computeFromIn scratch' g' root).map Prod.snd = some t := by
    intro g' scratch' hg' hb hedge
    rw [computeFromIn_congr hg hg' hb hedge scratch scratch', hrun]
    rfl
  have hsame := fun scratch' => hany g scratch' hg rfl fun _ _ => Iff.rfl
  have hdom := isDominance_of_represents hrep htable
  refine ⟨t, hsame scratch, hsame .new, hsame scratch, hsame .new, hdom, ?_, hany⟩
  rw [← hFbound]
  refine hrep.consistent ?_ ?_
  · intro r hr
    rw [mem_singleton.mp hr, hFbound]
    exact hroot
  · intro v hv
    rw [← hrep.isReachable_iff, hdom.isReachable_iff]
    by_contra hno
    exact hv (htable.idom_unreached v hno)

theorem bounds_of_compute {g : RootedView} {dom : DominatorTree} (h : compute g = some dom) :
    checkBound g.nodeBound ∧ g.root < g.nodeBound := by
  unfold compute computeIn computeFromIn at h
  by_contra hbounds
  rw [if_neg hbounds] at h
  cases h

/-- An irreducible cycle behind two entries, parallel edges, a self-loop, an
unreachable node and a hole. -/
def sampleView : GraphView := .ofEdges 6 [0, 1, 2, 3, 4]
  [(0, 1), (0, 2), (0, 1), (1, 2), (2, 1), (1, 3), (3, 3), (4, 3)]

theorem lawful_sampleView : sampleView.Lawful :=
  GraphView.lawful_ofEdges (by decide) (by decide) (by decide)

theorem computeFromIn_isDominance_sampleView :
    ∃ t, (computeFromIn .new sampleView 0).map Prod.snd = some t ∧ t.children 0 = [1, 2] ∧
      IsDominance sampleView 0 t ∧ Consistent 6 t := by
  obtain ⟨t, hrun, _, _, _, hdom, hcons, _⟩ := computeFromIn_isDominance
    lawful_sampleView (by decide) (by decide : 0 < sampleView.nodeBound) .new
  refine ⟨t, hrun, ?_, hdom, hcons⟩
  have hchildren : ((computeFromIn .new sampleView 0).map Prod.snd).map (fun t => t.children 0) =
      some [1, 2] := by decide
  rw [hrun] at hchildren
  exact Option.some.inj hchildren

end CfgLib.Dominator.DominatorTree

import CfgLib.Graph.Dominator.Completion
import CfgLib.Graph.Dominator.Post.Cut

/-!
# Post-dominator trees over a virtual exit

`graph/dominator/post.rs` and `augmented.rs`: the dominator tree of the reversed
reachable blocks behind a virtual exit, less that exit.  A block is above another where
every walk from the other to an exit or a cut root visits it.
-/

namespace CfgLib

open CfgLib.Lib Relation List

/-- The view with every edge turned round. -/
def GraphView.reversed (g : GraphView) : GraphView :=
  { g with
    successors := g.predecessors
    predecessors := g.successors }

theorem GraphView.Lawful.reversed {g : GraphView} (h : g.Lawful) : g.reversed.Lawful :=
  ⟨h.nodeIds_lt, h.nodeIds_nodup, h.predecessors_lt, h.successors_lt, h.predecessors_live, h.successors_live,
    fun source target hs ht => (h.transpose target source ht hs).symm⟩

theorem GraphView.Lawful.edge_reversed {g : GraphView} (h : g.Lawful) : g.reversed.Edge = fun a b => g.Edge b a := by
  funext a b
  refine propext ⟨fun he => (h.mem_predecessors he.1).mp he.2, fun he => ?_⟩
  have ha := (h.edge_lt he).2
  exact ⟨ha, (h.mem_predecessors ha).mpr he⟩

/-- Neither the order of the lists shows in the edges nor in whether a view is lawful. -/
theorem GraphView.Lawful.of_perm {g g' : GraphView} (h : g.Lawful) (hbound : g'.nodeBound = g.nodeBound)
    (hids : g'.nodeIds = g.nodeIds) (hs : ∀ n, (g'.successors n).Perm (g.successors n))
    (hp : ∀ n, (g'.predecessors n).Perm (g.predecessors n)) : g'.Lawful ∧ g'.Edge = g.Edge := by
  refine ⟨⟨?_, ?_, ?_, ?_, ?_, ?_, ?_⟩, funext fun a => funext fun b => ?_⟩
  all_goals simp only [GraphView.Edge, hbound, hids, (hs _).mem_iff, (hp _).mem_iff, (hs _).count_eq, (hp _).count_eq]
  exacts [h.nodeIds_lt, h.nodeIds_nodup, h.successors_lt, h.predecessors_lt, h.successors_live, h.predecessors_live,
    h.transpose]

namespace Dominator

open ConstructionBuffers DominatorTree

/-! ## The augmented graph -/

/-- The reverse of the reachable blocks, behind a virtual exit one past the bound. -/
def augmentedReverse (g : GraphView) (cut : CutBuffers) (found : ExitStructure) : GraphView where
  nodeBound := g.nodeBound + 1
  nodeIds := (range g.nodeBound).filter cut.reachable ++ [g.nodeBound]
  successors n := (if n = g.nodeBound then found.exits ++ found.cutRoots else []) ++
    if n < g.nodeBound ∧ cut.reachable n then (g.predecessors n).filter cut.reachable else []
  predecessors n :=
    if n < g.nodeBound ∧ cut.reachable n then g.successors n ++ if cut.exitEdge n then [g.nodeBound] else []
    else []

variable {g : RootedView} {cut : CutBuffers} {found : ExitStructure} {a b : Nat}

def IsEnd (g : RootedView) (e : Nat) : Prop := IsExit g e ∨ IsCutRoot g e

theorem IsEnd.reached (h : IsEnd g b) : Reached g b := h.elim And.left fun h => h.trapped.1

theorem Analyzed.nodup (h : Analyzed g cut found) : (found.exits ++ found.cutRoots).Nodup :=
  nodup_append'.mpr ⟨h.exits_ascending.imp Nat.ne_of_lt, h.cutRoots_ascending.imp Nat.ne_of_lt, fun n hn hn' =>
    ((h.mem_cutRoots n).mp hn').trapped.2 ⟨((h.mem_exits n).mp hn).1, n, .refl, ((h.mem_exits n).mp hn).2⟩⟩

theorem Analyzed.mem_ends (h : Analyzed g cut found) : b ∈ found.exits ++ found.cutRoots ↔ IsEnd g b :=
  mem_append.trans (or_congr (h.mem_exits b) (h.mem_cutRoots b))

theorem augmentedReverse_spec (hg : g.Lawful) (hroot : g.root < g.nodeBound) (h : Analyzed g cut found) :
    IsPart g (Reached g) (g.closedPart cut.reachable) ∧
      (∀ r ∈ found.exits ++ found.cutRoots, r ∈ (g.closedPart cut.reachable).reversed.nodeIds) ∧
      (augmentedReverse g.toGraphView cut found).Lawful ∧ (augmentedReverse g.toGraphView cut found).Edge =
        (virtualRoot (g.closedPart cut.reachable).reversed (found.exits ++ found.cutRoots)).Edge := by
  have hpart := isPart_closedPart hg h.reachable_iff fun ha he => ha.tail he
  have hlive : ∀ r ∈ found.exits ++ found.cutRoots, r ∈ (g.closedPart cut.reachable).reversed.nodeIds := fun r hr =>
    have hr := (h.mem_ends.mp hr).reached
    (hpart.live_iff r).mpr ⟨reaches_lt hg hroot hr, hr⟩
  refine ⟨hpart, hlive, (lawful_virtualRoot hpart.lawful.reversed h.nodup hlive).of_perm rfl rfl (fun n => ?_) fun n => ?_⟩
  · unfold augmentedReverse virtualRoot GraphView.reversed GraphView.closedPart
    by_cases hn : n < g.nodeBound <;> simp [hn]
  · unfold augmentedReverse virtualRoot GraphView.reversed GraphView.closedPart
    have hend : n ∈ found.exits ++ found.cutRoots ↔ cut.exitEdge n = true := h.mem_ends.trans (h.exitEdge_iff n).symm
    by_cases hn : n < g.nodeBound
    · by_cases hr : cut.reachable n = true
      · simpa [hn, hr, ← hend] using perm_append_comm
      · have hno : cut.exitEdge n = false := Bool.eq_false_iff.mpr fun he =>
          hr ((h.reachable_iff n).mpr (h.mem_ends.mp (hend.mpr he)).reached)
        simp [hn, hr, hend, hno]
    · simp [hn]

/-- The component of what the root reaches has a block where it is entered. -/
theorem exists_entryBlock (hb : Reached g b) : ∃ t, g.Mutual b t ∧ IsEntryBlock g t := by
  suffices ∀ c, Reached g c → g.Mutual b c → ∃ t, g.Mutual b t ∧ IsEntryBlock g t from this b hb ⟨.refl, .refl⟩
  intro c hc
  induction hc with
  | refl => exact fun h => ⟨_, h, Or.inl rfl⟩
  | @tail p c hp he ih =>
    intro hbc
    by_cases hbp : g.Mutual b p
    · exact ih hbp
    · exact ⟨c, hbc, Or.inr ⟨p, hp, he, fun h => hbp ⟨hbc.1.trans h.1, h.2.trans hbc.2⟩⟩⟩

/-- Every reachable block leads to an exit or a cut root. -/
theorem exists_end (hg : g.Lawful) (hroot : g.root < g.nodeBound) (hb : Reached g b) :
    ∃ e, IsEnd g e ∧ ReflTransGen g.Edge b e := by
  by_cases hexit : ReachesExit g b
  · obtain ⟨_, e, hbe, he⟩ := hexit
    exact ⟨e, Or.inl ⟨hb.trans hbe, he⟩, hbe⟩
  -- in a component that no edge leaves, some edge closes a walk at an entry block
  obtain ⟨x, hbx, hx⟩ := exists_sink (Set.finite_lt_nat g.nodeBound) fun c hc => reaches_lt hg hroot (hb.trans hc)
  obtain ⟨t, hxt, ht⟩ := exists_entryBlock (hb.trans hbx)
  have htrapped := Trapped.reaches ⟨hb, hexit⟩ (hbx.trans hxt.1)
  obtain ⟨c, hc⟩ := htrapped.exists_edge (reaches_lt hg hroot htrapped.1)
  obtain ⟨q, htq, hqt⟩ : ∃ q, ReflTransGen g.Edge t q ∧ g.Edge q t := by
    rcases ((hx c (hxt.1.tail hc)).trans hxt.1).cases_tail with rfl | ⟨q, hcq, hqt⟩
    · exact ⟨t, .refl, hc⟩
    · exact ⟨q, .head hc hcq, hqt⟩
  have hxq := hxt.1.trans htq
  exact ⟨q, Or.inr ⟨htrapped.reaches htq, fun a ha => (hx a (hxq.trans ha)).trans hxq, t, hqt, ht⟩, hbx.trans hxq⟩

/-! ## The tree -/

inductive PostNode where
  | node (block : Nat)
  | exit
  deriving DecidableEq, Repr

/-- Every buffer `computeIn` fills, owned by the caller. -/
structure PostDominatorScratch where
  dominators : DominatorScratch
  cut : CutBuffers

/-- A post-dominator tree computed from a rooted directed graph. -/
structure PostDominatorTree extends ExitStructure where
  /-- The forest over the reachable blocks, whose roots are the children of the virtual exit. -/
  tree : DominatorTree

namespace PostDominatorTree

def exitChildren (bound : Nat) (above : Nat → Option Nat) : List Nat :=
  (range bound).filter fun block => above block = some bound

/-- `none` stands for the panics on a bound without an index for the virtual exit and on a root past the bound. -/
def computeIn (scratch : PostDominatorScratch) (g : RootedView) : Option (PostDominatorScratch × PostDominatorTree) :=
  if g.nodeBound < 0xFFFFFFFF ∧ g.root < g.nodeBound then do
    let (cut, found) ← CutBuffers.analyze g.toGraphView g.root
    let (construction, above) :=
      scratch.dominators.construction.immediateDominators (augmentedReverse g.toGraphView cut found) g.nodeBound
    -- a block below the virtual exit keeps no parent
    let parent := forestParent g.nodeBound above
    let (numbering, numbered) :=
      scratch.dominators.numbering.number parent g.nodeBound (exitChildren g.nodeBound above)
    some (⟨⟨construction, numbering⟩, cut⟩, ⟨found, fromNumbered parent numbered⟩)
  else none

/-- Whether the root reaches `block`. -/
def contains (t : PostDominatorTree) (block : Nat) : Bool := t.tree.isReachable block

def lift (parent : Option Nat) : PostNode := parent.elim .exit .node

def ipdom (t : PostDominatorTree) (block : Nat) : Option PostNode :=
  if t.contains block then some (lift (t.tree.idom block)) else none

def postDominates (t : PostDominatorTree) (postDominator block : Nat) : Bool := t.tree.dominates postDominator block

def strictlyPostDominates (t : PostDominatorTree) (postDominator block : Nat) : Bool :=
  t.tree.strictlyDominates postDominator block

/-- Every walk from `b` to an exit or a cut root visits `a`. -/
def PostDominates (g : RootedView) (a b : Nat) : Prop := ∀ e, IsEnd g e → ∀ p, Walk g.Edge b e p → a ∈ p

structure IsPostTree (g : RootedView) (F : Forest) (t : PostDominatorTree) : Prop where
  analyzed : ∃ cut, Analyzed g cut t.toExitStructure
  represents : ∃ roots, Represents F roots t.tree
  mem_order : ∀ b, b ∈ t.tree.order ↔ Reached g b
  parent_reached : ∀ b p, F.parent b = some p → Reached g b
  anc_iff : ∀ a b, Reached g b → (Anc F.parent a b ↔ PostDominates g a b)

theorem computeIn_spec (hg : g.Lawful) (hbound : g.nodeBound < 0xFFFFFFFF) (hroot : g.root < g.nodeBound)
    (scratch : PostDominatorScratch) : ∃ scratch' t F, computeIn scratch g = some (scratch', t) ∧ IsPostTree g F t := by
  obtain ⟨cut, found, hrun, hfound⟩ := analyze_spec hg hroot
  obtain ⟨hpart, hlive, hlawful, hedge⟩ := augmentedReverse_spec hg hroot hfound
  have htable := (immediateDominators_spec hlawful (Nat.lt_succ_self g.nodeBound) scratch.dominators.construction).2
  generalize habove : (scratch.dominators.construction.immediateDominators
    (augmentedReverse g.toGraphView cut found) g.nodeBound).2 = above at htable
  have hvirtual : IsIdomTable (virtualRoot (g.closedPart cut.reachable).reversed
      (found.exits ++ found.cutRoots)).toGraphView g.nodeBound above :=
    ⟨hedge ▸ htable.idom_some, htable.idom_root, hedge ▸ htable.idom_unreached, htable.ranked⟩
  -- the edges of the reached part, read backwards
  have hpe : (g.closedPart cut.reachable).reversed.Edge = fun a b => Reached g b ∧ g.Edge b a := by
    rw [hpart.lawful.edge_reversed]
    exact funext fun a => funext fun b => propext (hpart.edge_iff b a)
  have hwalk : ∀ {b e p}, Reached g b → (Walk (fun a b => Reached g a ∧ g.Edge a b) b e p ↔ Walk g.Edge b e p) := by
    refine fun hb => ⟨fun h => ?_, fun h => ?_⟩ <;> induction h with
    | single => exact .single
    | snoc hw he ih => first | exact ih.snoc he.2 | exact ih.snoc ⟨hb.trans hw.reaches, he⟩
  let part : RootedView := ⟨(g.closedPart cut.reachable).reversed, g.nodeBound⟩
  have hmem : ∀ b, b ∈ part.nodeIds ↔ Reached g b := fun b =>
    (hpart.live_iff b).trans ⟨And.right, fun hb => ⟨reaches_lt hg hroot hb, hb⟩⟩
  have hcover : ∀ b ∈ part.nodeIds, ∃ e ∈ found.exits ++ found.cutRoots, ReflTransGen part.Edge e b := by
    intro b hb
    obtain ⟨e, he, hbe⟩ := exists_end hg hroot ((hmem b).mp hb)
    obtain ⟨p, hp⟩ := reaches_iff_walk.mp hbe
    exact ⟨e, hfound.mem_ends.mpr he, hpe ▸ ((hwalk ((hmem b).mp hb)).mpr hp).reverse.reaches⟩
  have hstarts : ∀ r, r ∈ exitChildren g.nodeBound above ↔ r ∈ part.nodeIds ∧ forestParent g.nodeBound above r = none := by
    intro r
    rw [exitChildren, mem_filter, mem_range, decide_eq_true_eq]
    constructor
    · rintro ⟨hlt, hr⟩
      exact ⟨(reaches_virtualRoot hpart.lawful.reversed hlive hcover hlt).mp (isIdomTable_parent hvirtual hr).1,
        by simp [forestParent, hr]⟩
    · rintro ⟨hr, hnone⟩
      have hlt := ((hpart.live_iff r).mp hr).1
      have hto := (reaches_virtualRoot hpart.lawful.reversed hlive hcover hlt).mpr hr
      obtain ⟨d, hd, hidom⟩ := hvirtual.idom_some r hto hlt.ne
      have hdlt := reaches_lt hlawful (Nat.lt_succ_self g.nodeBound) (hedge ▸ hidom.strict.2.reaches hto)
      rcases (Nat.lt_succ_iff.mp hdlt).lt_or_eq with hdb | rfl
      · exact absurd ((forestParent_eq_some.mpr ⟨hlt, hd, hdb⟩).symm.trans hnone) (Option.some_ne_none d)
      · exact ⟨hlt, hd⟩
  have hrun' : (computeIn scratch g).map Prod.snd = some ⟨found, fromNumbered (forestParent g.nodeBound above)
      (scratch.dominators.numbering.number (forestParent g.nodeBound above) g.nodeBound
        (exitChildren g.nodeBound above)).2⟩ := by
    subst habove
    rw [computeIn, if_pos ⟨hbound, hroot⟩, hrun]
    rfl
  obtain ⟨⟨scratch', t⟩, hsome, rfl⟩ := Option.map_eq_some_iff.mp hrun'
  obtain ⟨F, _, hrep, horder, hchild, hanc⟩ := represents_forestParent hpart.lawful.reversed hlive hcover hvirtual
    (nodup_range.filter _) hstarts scratch.dominators.numbering rfl
  refine ⟨scratch', _, F, hsome, ⟨cut, hfound⟩, ⟨_, hrep⟩, fun b => (horder b).trans (hmem b),
    fun b p hp => (hmem b).mp (hchild b p hp), fun a b hb => (hanc a b ((hmem b).mpr hb)).trans ?_⟩
  simp only [part, hpe, hfound.mem_ends, dominates_reverse (E := fun a b => Reached g a ∧ g.Edge a b), hwalk hb,
    PostDominates]

theorem isPostTree_of_computeIn (hg : g.Lawful) {scratch scratch' : PostDominatorScratch} {t : PostDominatorTree}
    (h : computeIn scratch g = some (scratch', t)) : g.root < g.nodeBound ∧ ∃ F, IsPostTree g F t := by
  by_cases hbounds : g.nodeBound < 0xFFFFFFFF ∧ g.root < g.nodeBound
  · obtain ⟨_, t', F, hrun, hF⟩ := computeIn_spec hg hbounds.1 hbounds.2 scratch
    rw [h] at hrun
    cases hrun
    exact ⟨hbounds.2, F, hF⟩
  · rw [computeIn, if_neg hbounds] at h
    cases h

theorem rank_anc_lt {F : Forest} (h : Anc F.parent a b) (hne : a ≠ b) : F.rank a < F.rank b := by
  cases h with
  | refl => exact absurd rfl hne
  | step hp hac => exact (Forest.rank_anc hac).trans_lt (F.rank_lt _ _ hp)

theorem parent_iff {F : Forest} {p : Nat} : F.parent b = some p ↔
    p ≠ b ∧ Anc F.parent p b ∧ ∀ c, c ≠ b → Anc F.parent c b → Anc F.parent c p := by
  have hne : ∀ {q}, F.parent b = some q → q ≠ b := fun hq heq => Nat.lt_irrefl _ (heq ▸ F.rank_lt b _ hq)
  refine ⟨fun h => ⟨hne h, .step h .refl, fun c hc hcb => hcb.parent hc h⟩, fun ⟨hpb, hanc, hleast⟩ => ?_⟩
  cases hq : F.parent b with
  | none => exact absurd (Forest.anc_root hq hanc) hpb
  | some q =>
    have hle := Forest.rank_anc (hleast q (hne hq) (.step hq .refl))
    by_contra hqp
    have hlt := rank_anc_lt (hanc.parent hpb hq) fun heq => hqp (heq ▸ rfl)
    omega

namespace IsPostTree

variable {F : Forest} {t : PostDominatorTree} (h : IsPostTree g F t)
include h

theorem contains_iff : t.contains b ↔ Reached g b := by
  obtain ⟨_, hrep⟩ := h.represents
  exact hrep.isReachable_iff.trans (h.mem_order b)

theorem postDominates_iff (hb : Reached g b) : t.postDominates a b ↔ Anc F.parent a b := by
  obtain ⟨_, hrep⟩ := h.represents
  exact hrep.dominates_iff ((h.mem_order b).mpr hb)

theorem reached_of_anc (hb : Reached g b) (hab : Anc F.parent a b) : Reached g a := by
  obtain ⟨_, hrep⟩ := h.represents
  exact (h.mem_order a).mp (hrep.anc_mem_order ((h.mem_order b).mpr hb) hab)

theorem ipdom_eq (hb : Reached g b) : t.ipdom b = some (lift (F.parent b)) := by
  obtain ⟨_, hrep⟩ := h.represents
  rw [ipdom, if_pos (h.contains_iff.mpr hb), DominatorTree.idom, hrep.parent]

theorem ipdom_none : t.ipdom b = none ↔ ¬ Reached g b := by
  rw [← h.contains_iff, ipdom]
  split <;> simp [*]

theorem ipdom_node {p : Nat} : t.ipdom b = some (.node p) ↔ F.parent b = some p := by
  by_cases hb : Reached g b
  · rw [h.ipdom_eq hb]
    cases F.parent b <;> simp [lift]
  · rw [h.ipdom_none.mpr hb]
    exact iff_of_false (Option.some_ne_none _).symm fun hp => hb (h.parent_reached b p hp)

/-- An edge ends where its tail's immediate post-dominator post-dominates. -/
theorem anc_of_edge {p : Nat} (he : g.Edge a b) (hp : F.parent a = some p) : Anc F.parent p b := by
  have ha := h.parent_reached a p hp
  obtain ⟨hne, hpa, _⟩ := parent_iff.mp hp
  rw [h.anc_iff p b (ha.tail he)]
  exact fun e hend q hq => (mem_cons.mp ((h.anc_iff p a ha).mp hpa e hend _ (hq.cons he))).resolve_left hne

end IsPostTree

/-- The queries say of the blocks what the walks to the exits and the cut roots say. -/
structure IsPostDominance (g : RootedView) (t : PostDominatorTree) : Prop where
  analyzed : ∃ cut, Analyzed g cut t.toExitStructure
  exists_end : ∀ b, Reached g b → ∃ e, IsEnd g e ∧ ReflTransGen g.Edge b e
  contains_iff : ∀ b, t.contains b ↔ Reached g b
  postDominates_iff : ∀ a b, Reached g b → (t.postDominates a b ↔ PostDominates g a b)
  ipdom_none : ∀ b, t.ipdom b = none ↔ ¬ Reached g b
  ipdom_exit : ∀ b, t.ipdom b = some .exit ↔ Reached g b ∧ ∀ a, PostDominates g a b → a = b
  ipdom_node : ∀ b p, t.ipdom b = some (.node p) ↔ Reached g b ∧ p ≠ b ∧ PostDominates g p b ∧
    ∀ a, a ≠ b → PostDominates g a b → PostDominates g a p
  parent_property : ∀ a b p, g.Edge a b → t.ipdom a = some (.node p) → t.postDominates p b

/-- The computed tree is post-dominance over the exits and the cut. -/
theorem computeIn_isPostDominance (hg : g.Lawful) (hbound : g.nodeBound < 0xFFFFFFFF) (hroot : g.root < g.nodeBound)
    (scratch : PostDominatorScratch) :
    ∃ scratch' t, computeIn scratch g = some (scratch', t) ∧ IsPostDominance g t := by
  obtain ⟨scratch', t, F, hrun, h⟩ := computeIn_spec hg hbound hroot scratch
  refine ⟨scratch', t, hrun, h.analyzed, fun b => exists_end hg hroot, fun b => h.contains_iff, fun a b hb => ?_,
    fun b => h.ipdom_none, fun b => ?_, fun b p => ?_, fun a b p he hp => ?_⟩
  · rw [h.postDominates_iff hb, h.anc_iff a b hb]
  · by_cases hb : Reached g b
    · simp only [h.ipdom_eq hb, hb, true_and, ← h.anc_iff _ b hb]
      cases hp : F.parent b with
      | none => exact iff_of_true rfl fun a ha => Forest.anc_root hp ha
      | some p => exact iff_of_false (by simp [lift]) fun hall => (parent_iff.mp hp).1 (hall p (.step hp .refl))
    · simp [h.ipdom_none.mpr hb, hb]
  · rw [h.ipdom_node, parent_iff]
    constructor
    · intro hp
      have hb := h.parent_reached b p (parent_iff.mpr hp)
      have hpr := h.reached_of_anc hb hp.2.1
      exact ⟨hb, hp.1, (h.anc_iff p b hb).mp hp.2.1, fun a hab ha =>
        (h.anc_iff a p hpr).mp (hp.2.2 a hab ((h.anc_iff a b hb).mpr ha))⟩
    · rintro ⟨hb, hne, hpb, hleast⟩
      have hanc := (h.anc_iff p b hb).mpr hpb
      exact ⟨hne, hanc, fun a hab ha => (h.anc_iff a p (h.reached_of_anc hb hanc)).mpr
        (hleast a hab ((h.anc_iff a b hb).mp ha))⟩
  · have hp := h.ipdom_node.mp hp
    exact (h.postDominates_iff ((h.parent_reached a p hp).tail he)).mpr (h.anc_of_edge he hp)

theorem computeIn_isPostDominance_sampleView : ∃ scratch' t,
    computeIn ⟨.new, ⟨fun _ => false, fun _ => false⟩⟩ ⟨sampleView, 0⟩ = some (scratch', t) ∧
      IsPostDominance ⟨sampleView, 0⟩ t :=
  computeIn_isPostDominance lawful_sampleView (by decide) (by decide) _

end PostDominatorTree

end Dominator

end CfgLib

import CfgLib.Graph.Condensation
import CfgLib.Graph.Dominator.Frontier
import CfgLib.Graph.Dominator.Post.Tree

/-!
# Control dependence

`graph/cdg.rs` and `PostDominatorTree::control_dependents`: a block depends on an arm of a
branch when it post-dominates the target of the arm and does not strictly post-dominate the branch.
-/

namespace CfgLib.Dominator.PostDominatorTree

open CfgLib.Lib CfgLib.Store Relation List DominatorTree

def climb (t : PostDominatorTree) (stop : Option PostNode) : Nat → Nat → List Nat
  | 0, _ => []
  | fuel + 1, block => block :: match t.ipdom block with
    | some (.node parent) => if stop = some (.node parent) then [] else t.climb stop fuel parent
    | _ => []

/-- The blocks that depend on the arm from `source` to `target`, the nearest first. -/
def controlDependents (t : PostDominatorTree) (source target : Nat) : List Nat :=
  let stop := t.ipdom source
  let belowStop := t.contains target && match stop with
    | none => false
    | some .exit => true
    | some (.node top) => t.strictlyPostDominates top target
  -- the level of a block is its distance from the top of its tree
  if belowStop then t.climb stop (t.tree.levelAt target + 1) target else []

/-- What depends on the arms of `controller`, each once, ascending. -/
def dependentsOf (g : GraphView) (t : PostDominatorTree) (controller : Nat) : List Nat :=
  ascending ((g.successors controller).flatMap (t.controlDependents controller))

/-- A node for each index and an edge from each controller to each dependent; `none` is the
panic on exhausted identities. -/
def controlDependenceGraph (g : GraphView) (t : PostDominatorTree) : Option (Naive Nat Unit) := do
  let nodes ← (range g.nodeBound).foldlM (fun m node => m.addNode node) .empty
  ((g.nodeIds.insertionSort (· ≤ ·)).filter t.contains).foldlM (fun m controller =>
    (dependentsOf g t controller).foldlM (fun m dependent => m.addEdge controller dependent ()) m) nodes

variable {g : RootedView} {F : Forest} {t : PostDominatorTree} {a b c : Nat}

theorem strict_anc_iff : a ≠ b ∧ Anc F.parent a b ↔ ∃ p, F.parent b = some p ∧ Anc F.parent a p := by
  constructor
  · rintro ⟨hne, hab⟩
    cases hab with
    | refl => exact absurd rfl hne
    | step hp hac => exact ⟨_, hp, hac⟩
  · rintro ⟨p, hp, hap⟩
    refine ⟨?_, .step hp hap⟩
    rintro rfl
    exact Nat.lt_irrefl _ ((F.rank_lt a p hp).trans_le (Forest.rank_anc hap))

namespace IsPostTree

variable (h : IsPostTree g F t)
include h

theorem mem_climb {stop : Option PostNode} : ∀ {fuel block}, Reached g block → t.tree.levelAt block < fuel →
    (∀ p, stop = some (.node p) → p ≠ block ∧ Anc F.parent p block) →
      (b ∈ t.climb stop fuel block ↔ Anc F.parent b block ∧ ∀ p, stop = some (.node p) → ¬ Anc F.parent b p) := by
  obtain ⟨_, hrep⟩ := h.represents
  intro fuel
  induction fuel with
  | zero => exact fun _ hlt => absurd hlt (Nat.not_lt_zero _)
  | succ fuel ih =>
    intro block hb hlt hstop
    have hself : ∀ p, stop = some (.node p) → ¬ Anc F.parent block p := fun p hs hbp =>
      Nat.lt_irrefl _ ((rank_anc_lt (hstop p hs).2 (hstop p hs).1).trans_le (Forest.rank_anc hbp))
    rw [climb, mem_cons, h.ipdom_eq hb]
    have hup : Anc F.parent b block ↔ b = block ∨ ∃ p, F.parent block = some p ∧ Anc F.parent b p := by
      rw [← strict_anc_iff]
      by_cases hne : b = block
      · simp [hne, Anc.refl]
      · simp [hne]
    rw [hup]
    cases hp : F.parent block with
    | none =>
      suffices b = block → ∀ p, stop = some (.node p) → ¬ Anc F.parent b p by simpa [lift] using this
      rintro rfl
      exact hself
    | some parent =>
      have hb' := h.reached_of_anc hb (.step hp .refl)
      have hlevel := hrep.levelAt_child ((h.mem_order block).mpr hb) hp
      have hself' : b = block → ∀ p, stop = some (.node p) → ¬ Anc F.parent b p := by
        rintro rfl
        exact hself
      simp only [lift, Option.elim_some, Option.some.injEq, exists_eq_left', or_and_right, and_iff_left_of_imp hself']
      refine or_congr_right ?_
      split
      · next hs => exact iff_of_false not_mem_nil fun hanc => hanc.2 parent hs hanc.1
      · next hs =>
        refine ih hb' (by omega) fun p hp' => ⟨?_, (hstop p hp').2.parent (hstop p hp').1 hp⟩
        rintro rfl
        exact hs hp'

/-- What depends on an arm post-dominates its target, but not strictly its source. -/
theorem mem_controlDependents (he : g.Edge a c) (ha : Reached g a) : b ∈ t.controlDependents a c ↔
    PostDominates g b c ∧ ¬ (b ≠ a ∧ PostDominates g b a) := by
  have hc := ha.tail he
  rw [← h.anc_iff b c hc, ← h.anc_iff b a ha, strict_anc_iff]
  unfold controlDependents
  simp only [h.ipdom_eq ha, h.contains_iff.mpr hc, Bool.true_and]
  cases hp : F.parent a with
  | none =>
    simp only [lift, Option.elim_none, if_true]
    rw [h.mem_climb hc (Nat.lt_succ_self _) fun p hp => by cases hp]
    simp
  | some top =>
    have htop := h.anc_of_edge he hp
    change b ∈ (if t.strictlyPostDominates top c then t.climb (some (.node top)) _ c else []) ↔ _
    by_cases hne : top = c
    · -- the arm leads to where the paths of its source meet again
      simp [strictlyPostDominates, strictlyDominates, hne]
    · have hs : t.strictlyPostDominates top c = true :=
        Bool.and_eq_true_iff.mpr ⟨decide_eq_true hne, (h.postDominates_iff hc).mpr htop⟩
      rw [if_pos hs, h.mem_climb hc (Nat.lt_succ_self _) fun p hp' => by cases hp'; exact ⟨hne, htop⟩]
      simp

end IsPostTree

structure IsControlDependence (g : RootedView) (m : Naive Nat Unit) (pairs : List (Nat × Nat)) : Prop where
  nodes_eq : m.nodes = (range g.nodeBound).map some
  edges_eq : m.edges = pairs.map fun pair => some ⟨pair.1, pair.2, ()⟩
  ascending : pairs.Pairwise fun p q => p.1 < q.1 ∨ p.1 = q.1 ∧ p.2 < q.2
  mem_iff : ∀ a b, (a, b) ∈ pairs ↔
    Reached g a ∧ ∃ c, g.Edge a c ∧ PostDominates g b c ∧ ¬ (b ≠ a ∧ PostDominates g b a)
  governed : ∀ b, Reached g b → ¬ PostDominates g b g.root → ∃ a, (a, b) ∈ pairs

theorem controlDependenceGraph_exact (hg : g.Lawful) (hroot : g.root ∈ g.nodeIds) {scratch scratch' : PostDominatorScratch}
    (ht : computeIn scratch g = some (scratch', t)) {m : Naive Nat Unit}
    (hm : controlDependenceGraph g.toGraphView t = some m) : ∃ pairs, IsControlDependence g m pairs := by
  obtain ⟨_, F, h⟩ := isPostTree_of_computeIn hg ht
  obtain ⟨nodes, hnodes, hm⟩ := Option.bind_eq_some_iff.mp hm
  have hadded := foldlM_option (I := fun done (m : Naive Nat Unit) => m.nodes = done.map some ∧ m.edges = [])
    (fun done node m m' h hs => by
      obtain ⟨hnodes, hedges, _⟩ := Naive.addNode_spec hs
      rw [hnodes, hedges, h.1, h.2, map_append]
      exact ⟨rfl, rfl⟩) ⟨rfl, rfl⟩ hnodes
  have hwired := foldlM_option (I := fun done (m : Naive Nat Unit) => m.nodes = nodes.nodes ∧ m.edges =
      (done.flatMap fun a => (dependentsOf g.toGraphView t a).map (a, ·)).map fun pair => some ⟨pair.1, pair.2, ()⟩)
    (fun done a m m' h hs => by
      have hall := foldlM_option (I := fun done' (m' : Naive Nat Unit) => m'.nodes = m.nodes ∧
          m'.edges = m.edges ++ done'.map fun b => some ⟨a, b, ()⟩)
        (fun done b m m' h hs => by
          obtain ⟨_, _, hnodes, hedges, _⟩ := Naive.addEdge_spec hs
          rw [hnodes, hedges, h.1, h.2, map_append, append_assoc]
          exact ⟨rfl, rfl⟩) ⟨rfl, (append_nil _).symm⟩ hs
      rw [hall.1, hall.2, h.1, h.2]
      simp) ⟨rfl, hadded.2⟩ hm
  have hmem : ∀ a b, (a, b) ∈ ((g.nodeIds.insertionSort (· ≤ ·)).filter t.contains).flatMap
      (fun a => (dependentsOf g.toGraphView t a).map (a, ·)) ↔
        Reached g a ∧ ∃ c, g.Edge a c ∧ PostDominates g b c ∧ ¬ (b ≠ a ∧ PostDominates g b a) := by
    intro a b
    simp only [mem_flatMap, mem_filter, mem_insertionSort, h.contains_iff, dependentsOf, mem_map, mem_ascending, Prod.mk.injEq]
    constructor
    · rintro ⟨_, ⟨hlive, ha⟩, _, ⟨c, hc, hb⟩, rfl, rfl⟩
      have he : g.Edge _ c := ⟨hg.nodeIds_lt _ hlive, hc⟩
      exact ⟨ha, c, he, (h.mem_controlDependents he ha).mp hb⟩
    · rintro ⟨ha, c, he, hb⟩
      exact ⟨a, ⟨reaches_live hg hroot ha, ha⟩, b, ⟨c, he.2, (h.mem_controlDependents he ha).mpr hb⟩, rfl, rfl⟩
  refine ⟨_, hwired.1.trans hadded.1, hwired.2, ?_, hmem, fun b hb hno => ?_⟩
  · refine pairwise_flatMap.mpr ⟨fun a _ => pairwise_map.mpr ((pairwise_ascending _).imp fun hlt => Or.inr ⟨rfl, hlt⟩), ?_⟩
    refine ((pairwise_lt_insertionSort hg.nodeIds_nodup).filter _).imp fun hlt p hp q hq => ?_
    obtain ⟨_, _, rfl⟩ := mem_map.mp hp
    obtain ⟨_, _, rfl⟩ := mem_map.mp hq
    exact Or.inl hlt
  · simp only [hmem]
    -- some arm on the way from the root commits to the block
    suffices ∀ c, Reached g c → PostDominates g b c → ∃ a, Reached g a ∧ ∃ c, g.Edge a c ∧ PostDominates g b c ∧
      ¬ (b ≠ a ∧ PostDominates g b a) from this b hb fun _ _ _ hp => hp.source_mem
    intro c hc
    induction hc with
    | refl => exact fun hbc => absurd hbc hno
    | @tail a c ha he ih =>
      intro hbc
      by_cases hba : PostDominates g b a
      · exact ih hba
      · exact ⟨a, ha, c, he, hbc, fun hstrict => hba hstrict.2⟩

theorem controlDependenceGraph_exact_sampleView : ∃ scratch' t m pairs,
    computeIn ⟨.new, ⟨fun _ => false, fun _ => false⟩⟩ ⟨sampleView, 0⟩ = some (scratch', t) ∧
      controlDependenceGraph sampleView t = some m ∧ IsControlDependence ⟨sampleView, 0⟩ m pairs := by
  have hrun : ((computeIn ⟨.new, ⟨fun _ => false, fun _ => false⟩⟩ ⟨sampleView, 0⟩).bind fun r =>
      controlDependenceGraph sampleView r.2).isSome := rfl
  obtain ⟨m, hm⟩ := Option.isSome_iff_exists.mp hrun
  obtain ⟨⟨scratch', t⟩, ht, hm⟩ := Option.bind_eq_some_iff.mp hm
  obtain ⟨pairs, h⟩ := controlDependenceGraph_exact (g := ⟨sampleView, 0⟩) lawful_sampleView (by decide) ht hm
  exact ⟨scratch', t, m, pairs, ht, hm, h⟩

end CfgLib.Dominator.PostDominatorTree

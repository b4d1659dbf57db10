import CfgLib.Graph.View
import CfgLib.Lib.FiniteMap
import Mathlib.Algebra.Order.BigOperators.Group.Finset
import Mathlib.Data.Finset.Sort

/-!
# Greedy colouring

`transform/coloring.rs`: colours for the nodes of any graph, fewest neighbors first, each
the least that no neighbor has.
-/

namespace CfgLib.Transform

open CfgLib.Lib List

/-- A colour for each node, and the number of colours. -/
structure ColorAssignment where
  assignment : FiniteMap Nat Nat
  colorCount : Nat

/-- The other nodes that share an edge with a node, whichever way it points. -/
def neighborsOf (g : GraphView) (node : Nat) : Finset Nat :=
  ((g.successors node ++ g.predecessors node).filter (· ≠ node)).toFinset

/-- The least colour that ascending colours leave free, counting from `color`. -/
def firstFree : List Nat → Nat → Nat
  | [], color => color
  | used :: rest, color =>
    if used = color then firstFree rest (color + 1)
    else if color < used then color
    else firstFree rest color

def colorNode (g : GraphView) (coloring : ColorAssignment) (node : Nat) : ColorAssignment :=
  let usedColors := (neighborsOf g node).biUnion fun neighbor => (coloring.assignment.get neighbor).toFinset
  let color := firstFree usedColors.sort 0
  ⟨coloring.assignment.insert node color, max coloring.colorCount (color + 1)⟩

def colorGraph (g : GraphView) : ColorAssignment :=
  (g.nodeIds.mergeSort fun a b => (neighborsOf g a).card ≤ (neighborsOf g b).card).foldl (colorNode g) ⟨.empty, 0⟩

/-- No two adjacent nodes share a colour, the colours are those below the count, and no
more than the neighbors of one node and itself need. -/
structure ColorAssignment.Proper (g : GraphView) (coloring : ColorAssignment) : Prop where
  assigned : ∀ n, (coloring.assignment.get n).isSome ↔ n ∈ g.nodeIds
  adjacent : ∀ n ∈ g.nodeIds, ∀ m, g.Edge n m → n ≠ m → coloring.assignment.get n ≠ coloring.assignment.get m
  used : ∀ k, (∃ n, coloring.assignment.get n = some k) ↔ k < coloring.colorCount
  count : ∀ d, (∀ n ∈ g.nodeIds, (neighborsOf g n).card ≤ d) → coloring.colorCount ≤ d + 1

/-- The first free colour is not used, every smaller one is, and there are no more smaller
ones than used ones. -/
theorem firstFree_spec {used : List Nat} : ∀ {color : Nat}, used.Pairwise (· < ·) → (∀ k ∈ used, color ≤ k) →
    firstFree used color ∉ used ∧ color ≤ firstFree used color ∧
      (∀ k, color ≤ k → k < firstFree used color → k ∈ used) ∧ firstFree used color ≤ color + used.length := by
  induction used with
  | nil => exact fun _ _ => ⟨not_mem_nil, Nat.le_refl _, fun k h h' => absurd h (Nat.not_le.mpr h'), Nat.le_refl _⟩
  | cons used rest ih =>
    intro color hsorted hle
    obtain ⟨hlt, hsorted⟩ := pairwise_cons.mp hsorted
    unfold firstFree
    by_cases he : used = color
    · rw [if_pos he]
      have hall : ∀ k ∈ rest, color + 1 ≤ k := fun k hk => he ▸ hlt k hk
      obtain ⟨hfree, hge, hmem, hlen⟩ := ih hsorted hall
      refine ⟨fun h => ?_, by omega, fun k hk hk' => ?_, by rw [length_cons]; omega⟩
      · rcases mem_cons.mp h with h | h
        · omega
        · exact hfree h
      · rcases Nat.eq_or_lt_of_le hk with h | h
        · rw [← h, ← he]
          exact mem_cons_self
        · exact mem_cons_of_mem _ (hmem k h hk')
    · have hused := hle used mem_cons_self
      rw [if_neg he, if_pos (by omega)]
      refine ⟨fun h => ?_, Nat.le_refl _, fun k h h' => absurd h (Nat.not_le.mpr h'), Nat.le_add_right _ _⟩
      rcases mem_cons.mp h with h | h
      · exact he h.symm
      · have := hlt _ h
        omega

variable {g : GraphView}

theorem mem_neighborsOf {n m : Nat} :
    m ∈ neighborsOf g n ↔ (m ∈ g.successors n ∨ m ∈ g.predecessors n) ∧ m ≠ n := by
  simp [neighborsOf, or_and_right]

theorem neighborsOf_symm (hg : g.Lawful) {n m : Nat} (hn : n ∈ g.nodeIds) (h : m ∈ neighborsOf g n) :
    n ∈ neighborsOf g m := by
  obtain ⟨hadj, hne⟩ := mem_neighborsOf.mp h
  have hnlt := hg.nodeIds_lt n hn
  refine mem_neighborsOf.mpr ⟨?_, Ne.symm hne⟩
  rcases hadj with hm | hm
  · exact Or.inr ((hg.mem_predecessors (hg.successors_lt n m hnlt hm)).mpr ⟨hnlt, hm⟩)
  · exact Or.inl ((hg.mem_predecessors hnlt).mp hm).2

/-- Some nodes have been coloured. -/
structure Coloring (g : GraphView) (done : List Nat) (coloring : ColorAssignment) : Prop where
  assigned : ∀ n, (coloring.assignment.get n).isSome ↔ n ∈ done
  adjacent : ∀ n m k, m ∈ neighborsOf g n → coloring.assignment.get n = some k → coloring.assignment.get m ≠ some k
  used : ∀ k, (∃ n, coloring.assignment.get n = some k) ↔ k < coloring.colorCount
  count : ∀ d, (∀ n ∈ done, (neighborsOf g n).card ≤ d) → coloring.colorCount ≤ d + 1

theorem Coloring.colorNode (hg : g.Lawful) {done : List Nat} {coloring : ColorAssignment}
    (h : Coloring g done coloring) {node : Nat} (hlive : ∀ n ∈ done ++ [node], n ∈ g.nodeIds) (hnew : node ∉ done) :
    Coloring g (done ++ [node]) (Transform.colorNode g coloring node) := by
  let usedColors := (neighborsOf g node).biUnion fun neighbor => (coloring.assignment.get neighbor).toFinset
  have hget : ∀ n, (Transform.colorNode g coloring node).assignment.get n =
      if n = node then some (firstFree usedColors.sort 0) else coloring.assignment.get n := fun n => rfl
  have hcount : (Transform.colorNode g coloring node).colorCount =
      max coloring.colorCount (firstFree usedColors.sort 0 + 1) := rfl
  have hmem : ∀ k, k ∈ usedColors.sort ↔ ∃ m ∈ neighborsOf g node, coloring.assignment.get m = some k := by
    intro k
    simp [usedColors]
  obtain ⟨hfree, _, hbelow, hlength⟩ := firstFree_spec usedColors.sortedLT_sort.pairwise fun k _ => Nat.zero_le k
  have hlength : firstFree usedColors.sort 0 ≤ (neighborsOf g node).card := by
    rw [Nat.zero_add, Finset.length_sort] at hlength
    have hcard : usedColors.card ≤ (neighborsOf g node).card * 1 := by
      refine Finset.card_biUnion_le_card_mul _ _ _ fun m _ => ?_
      cases coloring.assignment.get m with
      | none => simp
      | some k => simp
    omega
  generalize firstFree usedColors.sort 0 = color at hget hcount hfree hbelow hlength
  have hnode : coloring.assignment.get node = none := by
    rw [← Option.not_isSome_iff_eq_none, h.assigned]
    exact hnew
  constructor
  · intro n
    rw [hget, mem_append, mem_singleton]
    split
    · next hn => simp [hn]
    · next hn => simp [hn, h.assigned]
  · intro n m k hnm hn hm
    rw [hget] at hn hm
    -- one of the two got its colour last
    split at hn
    · next he =>
      subst he
      rw [if_neg (mem_neighborsOf.mp hnm).2] at hm
      cases hn
      exact hfree ((hmem _).mpr ⟨m, hnm, hm⟩)
    · next hne =>
      split at hm
      · next he =>
        subst he
        cases hm
        have hdone : n ∈ done := (h.assigned n).mp (Option.isSome_iff_exists.mpr ⟨_, hn⟩)
        exact hfree ((hmem _).mpr ⟨n, neighborsOf_symm hg (hlive n (mem_append_left _ hdone)) hnm, hn⟩)
      · exact h.adjacent n m k hnm hn hm
  · intro k
    rw [hcount, lt_max_iff, ← h.used k, Nat.lt_succ_iff]
    constructor
    · rintro ⟨n, hn⟩
      rw [hget] at hn
      split at hn
      · exact Or.inr (Nat.le_of_eq (Option.some.inj hn).symm)
      · exact Or.inl ⟨n, hn⟩
    · rintro (⟨n, hn⟩ | hk)
      · refine ⟨n, ?_⟩
        rw [hget, if_neg (fun he => by rw [he, hnode] at hn; cases hn)]
        exact hn
      · rcases Nat.eq_or_lt_of_le hk with rfl | hlt
        · exact ⟨node, by rw [hget, if_pos rfl]⟩
        · -- every smaller colour is already a neighbor's
          obtain ⟨m, hm, hcolor⟩ := (hmem k).mp (hbelow k (Nat.zero_le k) hlt)
          exact ⟨m, by rw [hget, if_neg (mem_neighborsOf.mp hm).2, hcolor]⟩
  · intro d hd
    rw [hcount]
    have hdone := h.count d fun n hn => hd n (mem_append_left _ hn)
    have hnode := hd node (mem_append_right _ (mem_singleton_self _))
    omega

theorem colorGraph_proper (hg : g.Lawful) : (colorGraph g).Proper g := by
  let order := g.nodeIds.mergeSort fun a b => (neighborsOf g a).card ≤ (neighborsOf g b).card
  have hperm : order.Perm g.nodeIds := mergeSort_perm _ _
  have hfold : ∀ (todo done : List Nat) (coloring : ColorAssignment), (done ++ todo).Perm g.nodeIds →
      Coloring g done coloring → Coloring g (done ++ todo) (todo.foldl (colorNode g) coloring) := by
    intro todo
    induction todo with
    | nil =>
      intro done coloring _ h
      rwa [append_nil]
    | cons node todo ih =>
      intro done coloring hsplit h
      have happend : done ++ node :: todo = (done ++ [node]) ++ todo := by rw [append_assoc]; rfl
      have hnodup : (done ++ node :: todo).Nodup := hsplit.nodup_iff.mpr hg.nodeIds_nodup
      rw [happend] at hsplit ⊢
      refine ih _ _ hsplit (h.colorNode hg (fun n hn => ?_) fun hmem => ?_)
      · exact hsplit.mem_iff.mp (mem_append_left _ hn)
      · exact disjoint_of_nodup_append hnodup hmem mem_cons_self
  have hdone := hfold order [] ⟨.empty, 0⟩ hperm ⟨by simp, by simp, by simp, by simp⟩
  refine ⟨fun n => (hdone.assigned n).trans hperm.mem_iff, fun n hn m he hne heq => ?_, hdone.used, fun d hd => ?_⟩
  · obtain ⟨k, hk⟩ := Option.isSome_iff_exists.mp ((hdone.assigned n).mpr (hperm.mem_iff.mpr hn))
    exact hdone.adjacent n m k (mem_neighborsOf.mpr ⟨Or.inl he.2, Ne.symm hne⟩) hk (heq.symm.trans hk)
  · exact hdone.count d fun n hn => hd n (hperm.mem_iff.mp hn)

end CfgLib.Transform

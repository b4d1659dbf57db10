import CfgLib.Graph.Dominator.Dominance
import CfgLib.Graph.Kosaraju
import CfgLib.Lib.CountingSort

/-!
# Dominance extended from a tree to a forest

`graph/virtual_root.rs` and `graph/dominator/forest.rs`: code the root does not
reach gets trees of its own, the trees of a virtual root in front of the graph's
root and one block of each source component.  A walk from the virtual root is a walk from
one of these, so the forest is dominance by all walks from them.
-/

namespace CfgLib

open CfgLib.Lib Relation List

def virtualRoot (g : GraphView) (roots : List Nat) : RootedView where
  nodeBound := g.nodeBound + 1
  nodeIds := g.nodeIds ++ [g.nodeBound]
  successors n :=
    (if n = g.nodeBound then roots else []) ++ if n < g.nodeBound then g.successors n else []
  predecessors n :=
    (if n < g.nodeBound ∧ n ∈ roots then [g.nodeBound] else []) ++
      if n < g.nodeBound then g.predecessors n else []
  root := g.nodeBound

/-- `VirtualRoot::new`; `none` is the panic on roots that do not ascend strictly. -/
def virtualRoot? (g : GraphView) (roots : List Nat) : Option RootedView :=
  if roots.IsChain (· < ·) then some (virtualRoot g roots) else none

section VirtualRoot

variable {g : GraphView} {roots : List Nat}

theorem edge_virtualRoot (a b : Nat) :
    (virtualRoot g roots).Edge a b ↔ g.Edge a b ∨ a = g.nodeBound ∧ b ∈ roots := by
  unfold GraphView.Edge virtualRoot
  dsimp only
  constructor
  · rintro ⟨_, hb⟩
    rcases mem_append.mp hb with hb | hb
    · split at hb
      · next ha => exact Or.inr ⟨ha, hb⟩
      · cases hb
    · split at hb
      · next ha => exact Or.inl ⟨ha, hb⟩
      · cases hb
  · rintro (⟨ha, hb⟩ | ⟨rfl, hb⟩)
    · refine ⟨by omega, mem_append.mpr (Or.inr ?_)⟩
      rwa [if_pos ha]
    · refine ⟨by omega, mem_append.mpr (Or.inl ?_)⟩
      rwa [if_pos rfl]

theorem lawful_virtualRoot (hg : g.Lawful) (hnodup : roots.Nodup) (hlive : ∀ r ∈ roots, r ∈ g.nodeIds) :
    (virtualRoot g roots).Lawful := by
  have hlt : ∀ r ∈ roots, r < g.nodeBound := fun r hr => hg.nodeIds_lt r (hlive r hr)
  have hsucc : ∀ n m, m ∈ (virtualRoot g roots).successors n →
      m ∈ roots ∨ n < g.nodeBound ∧ m ∈ g.successors n := by
    intro n m hm
    rcases mem_append.mp hm with hm | hm
    · split at hm
      · exact Or.inl hm
      · cases hm
    · split at hm
      · next hn => exact Or.inr ⟨hn, hm⟩
      · cases hm
  have hpred : ∀ n m, m ∈ (virtualRoot g roots).predecessors n →
      m = g.nodeBound ∨ n < g.nodeBound ∧ m ∈ g.predecessors n := by
    intro n m hm
    rcases mem_append.mp hm with hm | hm
    · split at hm
      · exact Or.inl (mem_singleton.mp hm)
      · cases hm
    · split at hm
      · next hn => exact Or.inr ⟨hn, hm⟩
      · cases hm
  have hold : ∀ n, n ∈ (virtualRoot g roots).nodeIds → n < g.nodeBound → n ∈ g.nodeIds := by
    intro n hn hlt
    rcases mem_append.mp hn with hn | hn
    · exact hn
    · rw [mem_singleton.mp hn] at hlt
      omega
  refine ⟨?_, ?_, ?_, ?_, ?_, ?_, ?_⟩
  · intro n hn
    rcases mem_append.mp hn with hn | hn
    · exact Nat.lt_succ_of_lt (hg.nodeIds_lt n hn)
    · rw [mem_singleton.mp hn]
      exact Nat.lt_succ_self _
  · refine nodup_append.mpr ⟨hg.nodeIds_nodup, nodup_singleton _, ?_⟩
    intro a ha b hb hab
    rw [mem_singleton.mp hb] at hab
    have := hg.nodeIds_lt a ha
    omega
  · intro n m _ hm
    rcases hsucc n m hm with hm | ⟨hn, hm⟩
    · exact Nat.lt_succ_of_lt (hlt m hm)
    · exact Nat.lt_succ_of_lt (hg.successors_lt n m hn hm)
  · intro n m _ hm
    rcases hpred n m hm with rfl | ⟨hn, hm⟩
    · exact Nat.lt_succ_self _
    · exact Nat.lt_succ_of_lt (hg.predecessors_lt n m hn hm)
  · intro n hn m hm
    rcases hsucc n m hm with hm | ⟨hlt, hm⟩
    · exact mem_append.mpr (Or.inl (hlive m hm))
    · exact mem_append.mpr (Or.inl (hg.successors_live n (hold n hn hlt) m hm))
  · intro n hn m hm
    rcases hpred n m hm with rfl | ⟨hlt, hm⟩
    · exact mem_append.mpr (Or.inr (by simp))
    · exact mem_append.mpr (Or.inl (hg.predecessors_live n (hold n hn hlt) m hm))
  · intro source target hs ht
    have hs' : source < g.nodeBound + 1 := hs
    have ht' : target < g.nodeBound + 1 := ht
    have hcount : ∀ {l : List Nat}, (∀ m ∈ l, m < g.nodeBound) → l.count g.nodeBound = 0 :=
      fun h => count_eq_zero.mpr fun hm => Nat.lt_irrefl _ (h _ hm)
    unfold virtualRoot
    dsimp only
    rw [count_append, count_append]
    by_cases hsb : source = g.nodeBound
    · rw [if_pos hsb, if_neg (by omega : ¬ source < g.nodeBound), count_nil, Nat.add_zero, hsb]
      by_cases htb : target < g.nodeBound
      · rw [if_pos htb, hcount fun m hm => hg.predecessors_lt target m htb hm, Nat.add_zero]
        by_cases hmem : target ∈ roots
        · rw [if_pos ⟨htb, hmem⟩, count_eq_one_of_mem hnodup hmem]
          simp
        · rw [if_neg fun h => hmem h.2, count_eq_zero.mpr hmem]
          simp
      · have hnot : target ∉ roots := fun hmem => htb (hlt target hmem)
        rw [if_neg htb, if_neg fun h => htb h.1, count_eq_zero.mpr hnot]
        simp
    · have hsl : source < g.nodeBound := by omega
      rw [if_neg hsb, if_pos hsl, count_nil, Nat.zero_add]
      by_cases htb : target < g.nodeBound
      · rw [if_pos htb, hg.transpose source target hsl htb]
        split
        · simp [Ne.symm hsb]
        · simp
      · have hteq : target = g.nodeBound := by omega
        rw [if_neg htb, if_neg fun h => htb h.1, hteq,
          hcount fun m hm => hg.successors_lt source m hsl hm]
        simp

end VirtualRoot

section Walks

variable {g : GraphView} {roots : List Nat}

theorem walk_virtualRoot (hg : g.Lawful) (hlt : ∀ r ∈ roots, r < g.nodeBound) {b : Nat} {p : List Nat}
    (h : Walk (virtualRoot g roots).Edge g.nodeBound b p) :
    (b = g.nodeBound ∧ p = [g.nodeBound]) ∨ ∃ r ∈ roots, ∃ q, Walk g.Edge r b q ∧ p = g.nodeBound :: q := by
  induction h with
  | single => exact Or.inl ⟨rfl, rfl⟩
  | @snoc b c p hw he ih =>
    right
    rcases (edge_virtualRoot b c).mp he with hbc | ⟨hb, hc⟩
    · rcases ih with ⟨rfl, _⟩ | ⟨r, hr, q, hq, rfl⟩
      · exact absurd hbc.1 (Nat.lt_irrefl _)
      · exact ⟨r, hr, q ++ [c], hq.snoc hbc, rfl⟩
    · rcases ih with ⟨_, rfl⟩ | ⟨r, hr, q, hq, _⟩
      · exact ⟨c, hc, [c], .single, rfl⟩
      · cases hq with
        | single => exact absurd (hb ▸ hlt _ hr) (Nat.lt_irrefl _)
        | snoc _ hbe => exact absurd (hb ▸ (hg.edge_lt hbe).2) (Nat.lt_irrefl _)

theorem walk_behind {r b : Nat} {q : List Nat} (hr : r ∈ roots) (h : Walk g.Edge r b q) :
    Walk (virtualRoot g roots).Edge g.nodeBound b (g.nodeBound :: q) := by
  induction h with
  | single => exact .snoc .single ((edge_virtualRoot _ _).mpr (Or.inr ⟨rfl, hr⟩))
  | snoc _ he ih => exact .snoc ih ((edge_virtualRoot _ _).mpr (Or.inl he))

theorem dominates_virtualRoot (hg : g.Lawful) (hlt : ∀ r ∈ roots, r < g.nodeBound) {a b : Nat} (ha : a ≠ g.nodeBound)
    (hb : b ≠ g.nodeBound) : Dominates (virtualRoot g roots).Edge g.nodeBound a b ↔ ∀ r ∈ roots, Dominates g.Edge r a b := by
  constructor
  · intro h r hr q hq
    exact (mem_cons.mp (h _ (walk_behind hr hq))).resolve_left ha
  · intro h p hp
    rcases walk_virtualRoot hg hlt hp with ⟨heq, _⟩ | ⟨r, hr, q, hq, rfl⟩
    · exact absurd heq hb
    · exact mem_cons_of_mem _ (h r hr q hq)

end Walks

namespace Dominator

open DominatorTree ConstructionBuffers

/-- Join the parent table of a forest with its numbering; `none` is the panic on a
bound beyond the dense `u32` range. -/
def DominatorTree.fromForestParts (bound : Nat) (idom : Nat → Option Nat) (reachable : Nat → Bool) :
    Option DominatorTree :=
  if checkBound bound then
    let roots := (List.range bound).filter fun node => reachable node && (idom node).isNone
    some (fromNumbered idom (NumberingBuffers.default.number idom bound roots).2)
  else none

/-- The graph's root and the first block of each source component of the code the
root does not reach, ascending.  Every live node has a component. -/
def forestRoots (g : RootedView) (dominators : DominatorTree) : List Nat :=
  let components := kosarajuScc g.toGraphView
  let sources := components.components.zipIdx.filterMap fun (component, index) =>
    component.head?.filter fun first =>
      !dominators.isReachable first &&
        !component.any fun block => (g.predecessors block).any fun predecessor =>
          components.componentOf predecessor ≠ some index
  ascending (g.root :: sources)

/-- The parents of the completed forest: those of the virtual root's tree, without
the virtual root. -/
def forestParent (bound : Nat) (idom : Nat → Option Nat) (node : Nat) : Option Nat :=
  if node < bound then (idom node).filter (· < bound) else none

/-- Extend the tree of a rooted graph into a forest over all of its code; the inner
`none` when the root reaches every node, the outer one for the panics. -/
def completeDominatorForest (scratch : DominatorScratch) (g : RootedView)
    (dominators : DominatorTree) : Option (Option DominatorTree) :=
  if g.nodeIds.all fun block => dominators.isReachable block then some none
  else do
    let view ← virtualRoot? g.toGraphView (forestRoots g dominators)
    let (_, complete) ← computeIn scratch view
    let forest ← fromForestParts g.nodeBound (forestParent g.nodeBound complete.idom)
      complete.isReachable
    some (some forest)

/-! ## The completed forest -/

theorem isIdomTable_parent {g : GraphView} {root : Nat} {idom : Nat → Option Nat}
    (h : IsIdomTable g root idom) {b d : Nat} (hp : idom b = some d) :
    ReflTransGen g.Edge root b ∧ b ≠ root ∧ IsIdom g.Edge root d b := by
  have hreach : ReflTransGen g.Edge root b := by
    by_contra hno
    rw [h.idom_unreached b hno] at hp
    cases hp
  have hne : b ≠ root := by
    rintro rfl
    rw [h.idom_root] at hp
    cases hp
  obtain ⟨d', hd', hidom⟩ := h.idom_some b hreach hne
  rw [hp] at hd'
  cases hd'
  exact ⟨hreach, hne, hidom⟩

theorem reaches_live {g : GraphView} (hg : g.Lawful) {root : Nat} (hroot : root ∈ g.nodeIds) {v : Nat}
    (h : ReflTransGen g.Edge root v) : v ∈ g.nodeIds := by
  induction h with
  | refl => exact hroot
  | tail _ he ih => exact hg.successors_live _ ih _ he.2

/-- No edge from outside enters the component of `v`. -/
def IsSource (g : GraphView) (v : Nat) : Prop := ∀ a b, g.Mutual v b → g.Edge a b → g.Mutual v a

/-- `roots` holds the root and one member of each source component of what the root misses. -/
structure Represent (g : RootedView) (roots : List Nat) : Prop where
  live : ∀ r ∈ roots, r ∈ g.nodeIds
  root_mem : g.root ∈ roots
  source : ∀ r ∈ roots, r = g.root ∨ ¬ ReflTransGen g.Edge g.root r ∧ IsSource g.toGraphView r
  unique : ∀ v ∈ g.nodeIds, ¬ ReflTransGen g.Edge g.root v → IsSource g.toGraphView v →
    ∃! r, r ∈ roots ∧ g.Mutual v r

section Completed

variable {g : RootedView} {dominators : DominatorTree}

theorem forestRoots_spec (dominators : DominatorTree) (hg : g.Lawful) (hroot : g.root ∈ g.nodeIds) :
    (forestRoots g dominators).Pairwise (· < ·) ∧ g.root ∈ forestRoots g dominators ∧
      ∀ r ∈ forestRoots g dominators, r ∈ g.nodeIds := by
  unfold forestRoots
  dsimp only
  refine ⟨pairwise_ascending _, mem_ascending.mpr mem_cons_self, ?_⟩
  · intro r hr
    rw [mem_ascending] at hr
    rcases mem_cons.mp hr with rfl | hr
    · exact hroot
    · obtain ⟨⟨component, index⟩, hmem, hfirst⟩ := mem_filterMap.mp hr
      have hhead := (Option.filter_eq_some_iff.mp hfirst).1
      exact (kosarajuScc_spec hg).1.components_live component (fst_mem_of_mem_zipIdx hmem) r
        (mem_of_head? hhead)

/-- A component that nothing leads into has its first block among the roots, unless the tree
holds it. -/
theorem mem_forestRoots {component : List Nat} {index first : Nat}
    (hget : (kosarajuScc g.toGraphView).components[index]? = some component)
    (hfirst : component.head? = some first) (hout : dominators.isReachable first = false)
    (hsource : ∀ b ∈ component, ∀ p ∈ g.predecessors b, (kosarajuScc g.toGraphView).componentOf p = some index) :
    first ∈ forestRoots g dominators := by
  refine mem_ascending.mpr (mem_cons_of_mem _ (mem_filterMap.mpr ?_))
  refine ⟨(component, index), mk_mem_zipIdx_iff_getElem?.mpr hget, ?_⟩
  rw [Option.filter_eq_some_iff]
  refine ⟨hfirst, ?_⟩
  rw [hout, Bool.not_false, Bool.true_and, Bool.not_eq_true', Bool.eq_false_iff, Ne, any_eq_true]
  rintro ⟨b, hb, hany⟩
  obtain ⟨q, hq, hne⟩ := any_eq_true.mp hany
  exact of_decide_eq_true hne (hsource b hb q hq)

theorem forestRoots_cover (hg : g.Lawful) (hdom : ∀ v, dominators.isReachable v ↔ ReflTransGen g.Edge g.root v) {v : Nat}
    (hv : v ∈ g.nodeIds) : ∃ r ∈ forestRoots g dominators, ReflTransGen g.Edge r v := by
  obtain ⟨hdec, horder⟩ := kosarajuScc_decomposes hg
  obtain ⟨i, hi⟩ := hdec.total v hv
  -- each component comes after those that lead into it
  induction i using Nat.strongRecOn generalizing v with
  | ind i ih =>
    by_cases hreach : ReflTransGen g.Edge g.root v
    · exact ⟨g.root, mem_ascending.mpr mem_cons_self, hreach⟩
    obtain ⟨component, hget⟩ : ∃ component, (kosarajuScc g.toGraphView).components[i]? = some component :=
      ⟨_, getElem?_eq_getElem (hdec.minted.index_lt v i hi)⟩
    have hmem := hdec.minted.mem_iff i component hget
    have hmutual : ∀ b ∈ component, ReflTransGen g.Edge b v := fun b hb =>
      ((hdec.minted.same_iff b v i i ((hmem b).mp hb) hi).mp rfl).1
    by_cases hsource : ∀ b ∈ component, ∀ p ∈ g.predecessors b, (kosarajuScc g.toGraphView).componentOf p = some i
    · obtain ⟨first, rest, rfl⟩ := exists_cons_of_ne_nil (hdec.minted.nonempty component (mem_of_getElem? hget))
      have hfirst := hmutual first mem_cons_self
      refine ⟨first, mem_forestRoots hget rfl ?_ hsource, hfirst⟩
      rw [Bool.eq_false_iff]
      exact fun hin => hreach (((hdom first).mp hin).trans hfirst)
    · push Not at hsource
      obtain ⟨b, hb, p, hp, hne⟩ := hsource
      have hblive : b ∈ g.nodeIds := hdec.minted.live b (by rw [(hmem b).mp hb]; rfl)
      have hplive := hg.predecessors_live b hblive p hp
      have hedge := (hg.mem_predecessors (hg.nodeIds_lt b hblive)).mp hp
      obtain ⟨j, hj⟩ := hdec.total p hplive
      have hle := horder p b j i hedge hj ((hmem b).mp hb)
      have hlt : j < i := lt_of_le_of_ne hle fun he => hne (he ▸ hj)
      obtain ⟨r, hr, hpath⟩ := ih j hlt hplive hj
      exact ⟨r, hr, (hpath.tail hedge).trans (hmutual b hb)⟩

theorem forestParent_eq_some {bound : Nat} {idom : Nat → Option Nat} {c p : Nat} :
    forestParent bound idom c = some p ↔ c < bound ∧ idom c = some p ∧ p < bound := by
  unfold forestParent
  split
  · next h => simp [Option.filter_eq_some_iff, h]
  · next h => simp [h]

theorem represent_forestRoots (hg : g.Lawful) (hroot : g.root ∈ g.nodeIds)
    (hdom : ∀ v, dominators.isReachable v ↔ ReflTransGen g.Edge g.root v) : Represent g (forestRoots g dominators) := by
  obtain ⟨_, hmem, hlive⟩ := forestRoots_spec dominators hg hroot
  obtain ⟨hdec, _⟩ := kosarajuScc_decomposes hg
  -- a root other than the graph's own is the first member of its component
  have hsource : ∀ r ∈ forestRoots g dominators, r ≠ g.root → ∃ component index,
      (kosarajuScc g.toGraphView).components[index]? = some component ∧ component.head? = some r ∧
      (kosarajuScc g.toGraphView).componentOf r = some index ∧ dominators.isReachable r = false ∧
      ∀ b ∈ component, ∀ p ∈ g.predecessors b, (kosarajuScc g.toGraphView).componentOf p = some index := by
    intro r hr hne
    obtain ⟨⟨component, index⟩, hget, hfirst⟩ :=
      mem_filterMap.mp ((mem_cons.mp (mem_ascending.mp hr)).resolve_left hne)
    obtain ⟨hhead, hfilter⟩ := Option.filter_eq_some_iff.mp hfirst
    rw [Bool.and_eq_true, Bool.not_eq_true', Bool.not_eq_true'] at hfilter
    have hget' := mk_mem_zipIdx_iff_getElem?.mp hget
    refine ⟨component, index, hget', hhead, (hdec.minted.mem_iff _ _ hget' r).mp (mem_of_head? hhead), hfilter.1,
      fun b hb p hp => ?_⟩
    by_contra hout
    rw [any_eq_false] at hfilter
    exact hfilter.2 b hb (any_eq_true.mpr ⟨p, hp, decide_eq_true hout⟩)
  refine ⟨hlive, hmem, fun r hr => ?_, fun v hv hout hv' => ?_⟩
  · by_cases hne : r = g.root
    · exact Or.inl hne
    obtain ⟨component, index, hget, _, hindex, hreach, hclosed⟩ := hsource r hr hne
    refine Or.inr ⟨fun h => Bool.false_ne_true (hreach.symm.trans ((hdom r).mpr h)), fun a b hb he => ?_⟩
    have hblive : b ∈ g.nodeIds := reaches_live hg (hlive r hr) hb.1
    obtain ⟨j, hj⟩ := hdec.total b hblive
    have hij := (hdec.minted.same_iff r b index j hindex hj).mpr hb
    have ha := hclosed b ((hdec.minted.mem_iff _ _ hget b).mpr (hij ▸ hj)) a
      ((hg.mem_predecessors (hg.nodeIds_lt b hblive)).mpr he)
    exact (hdec.minted.same_iff r a index index hindex ha).mp rfl
  · obtain ⟨i, hi⟩ := hdec.total v hv
    obtain ⟨component, hget⟩ : ∃ component, (kosarajuScc g.toGraphView).components[i]? = some component :=
      ⟨_, getElem?_eq_getElem (hdec.minted.index_lt v i hi)⟩
    obtain ⟨first, rest, rfl⟩ := exists_cons_of_ne_nil (hdec.minted.nonempty component (mem_of_getElem? hget))
    have hmutual : ∀ b, (kosarajuScc g.toGraphView).componentOf b = some i → g.Mutual v b := fun b hb =>
      (hdec.minted.same_iff v b i i hi hb).mp rfl
    have hfirst := hmutual first ((hdec.minted.mem_iff _ _ hget first).mp mem_cons_self)
    refine ⟨first, ⟨mem_forestRoots hget rfl ?_ fun b hb p hp => ?_, hfirst⟩, fun r hr => ?_⟩
    · rw [Bool.eq_false_iff]
      exact fun hin => hout (((hdom first).mp hin).trans hfirst.2)
    · have hb' := hmutual b ((hdec.minted.mem_iff _ _ hget b).mp hb)
      have hblive : b ∈ g.nodeIds := reaches_live hg hv hb'.1
      have hp' := hv' p b hb' ((hg.mem_predecessors (hg.nodeIds_lt b hblive)).mp hp)
      obtain ⟨j, hj⟩ := hdec.total p (reaches_live hg hv hp'.1)
      rw [hj, (hdec.minted.same_iff v p i j hi hj).mpr hp']
    · have hne : r ≠ g.root := fun heq => hout (heq ▸ hr.2.2)
      obtain ⟨component', index, hget', hhead, hindex, _⟩ := hsource r hr.1 hne
      obtain rfl := (hdec.minted.same_iff v r i index hi hindex).mpr hr.2
      rw [hget] at hget'
      obtain rfl := Option.some.inj hget'
      exact (Option.some.inj hhead).symm

/-- Behind a virtual root the parents say which nodes all walks from the roots visit. -/
theorem anc_forestParent (hg : g.Lawful) {roots : List Nat} (hlive : ∀ r ∈ roots, r ∈ g.nodeIds)
    {idom : Nat → Option Nat} (htable : IsIdomTable (virtualRoot g.toGraphView roots).toGraphView g.nodeBound idom)
    {a b r : Nat} (hr : r ∈ roots) (hb : ReflTransGen g.Edge r b) :
    Anc (forestParent g.nodeBound idom) a b ↔ ∀ r ∈ roots, Dominates g.Edge r a b := by
  have hlt : ∀ r ∈ roots, r < g.nodeBound := fun r hr => hg.nodeIds_lt r (hlive r hr)
  have hblt : b < g.nodeBound := hg.nodeIds_lt b (reaches_live hg (hlive r hr) hb)
  obtain ⟨q, hq⟩ := reaches_iff_walk.mp hb
  have hreach := (walk_behind hr hq).reaches
  constructor
  · intro hanc
    have ha : a < g.nodeBound := by
      clear hreach hq hb
      induction hanc with
      | refl => exact hblt
      | step hp _ ih => exact ih (forestParent_eq_some.mp hp).2.2
    have hup := hanc.mono fun k j hp => (forestParent_eq_some.mp hp).2.1
    exact (dominates_virtualRoot hg hlt ha.ne hblt.ne).mp ((anc_iff_dominates htable hreach).mp hup)
  · intro hall
    have ha : a < g.nodeBound := hg.nodeIds_lt a (reaches_live hg (hlive r hr) ((hall r hr).reaches hb))
    have hup := (anc_iff_dominates htable hreach).mpr ((dominates_virtualRoot hg hlt ha.ne hblt.ne).mpr hall)
    clear hall hreach hq hb
    induction hup with
    | refl => exact .refl
    | @step b c hp hac ih =>
      have hc : c < g.nodeBound := by
        obtain ⟨hreach, _, hidom⟩ := isIdomTable_parent htable hp
        -- only the virtual root lies past the bound, and nothing but itself is above it
        rcases (hidom.strict.2.reaches hreach).cases_tail with rfl | ⟨d, _, he⟩
        · cases hac with
          | refl => exact absurd ha (Nat.lt_irrefl _)
          | step hp' _ => exact absurd (htable.idom_root.symm.trans hp') (Option.some_ne_none _).symm
        · rcases (edge_virtualRoot d c).mp he with he | ⟨_, hc⟩
          · exact (hg.edge_lt he).2
          · exact hlt c hc
      exact .step (forestParent_eq_some.mpr ⟨hblt, hp, hc⟩) (ih hc)

section Behind

variable {roots : List Nat} (hg : g.Lawful) (hlive : ∀ r ∈ roots, r ∈ g.nodeIds)
  (hcover : ∀ v ∈ g.nodeIds, ∃ r ∈ roots, ReflTransGen g.Edge r v)
include hg hlive hcover

/-- Roots that lead to all live nodes are all that the virtual root needs to reach them. -/
theorem reaches_virtualRoot {v : Nat} (hv : v < g.nodeBound) :
    ReflTransGen (virtualRoot g.toGraphView roots).Edge g.nodeBound v ↔ v ∈ g.nodeIds := by
  constructor
  · intro h
    obtain ⟨p, hp⟩ := reaches_iff_walk.mp h
    rcases walk_virtualRoot hg (fun r hr => hg.nodeIds_lt r (hlive r hr)) hp with ⟨rfl, _⟩ | ⟨r, hr, q, hq, _⟩
    · exact absurd hv (Nat.lt_irrefl _)
    · exact reaches_live hg (hlive r hr) hq.reaches
  · intro h
    obtain ⟨r, hr, hpath⟩ := hcover v h
    obtain ⟨q, hq⟩ := reaches_iff_walk.mp hpath
    exact (walk_behind hr hq).reaches

theorem represents_forestParent {idom : Nat → Option Nat}
    (htable : IsIdomTable (virtualRoot g.toGraphView roots).toGraphView g.nodeBound idom) {starts : List Nat}
    (hnodup : starts.Nodup) (hstarts : ∀ r, r ∈ starts ↔ r ∈ g.nodeIds ∧ forestParent g.nodeBound idom r = none)
    {t : DominatorTree} (buffers : NumberingBuffers) (ht : t = fromNumbered (forestParent g.nodeBound idom)
      (buffers.number (forestParent g.nodeBound idom) g.nodeBound starts).2) :
    ∃ F : Forest, F.parent = forestParent g.nodeBound idom ∧ Represents F starts t ∧ (∀ v, v ∈ t.order ↔ v ∈ g.nodeIds) ∧
      (∀ v p, F.parent v = some p → v ∈ g.nodeIds) ∧
      ∀ a, ∀ b ∈ g.nodeIds, Anc F.parent a b ↔ ∀ r ∈ roots, Dominates g.Edge r a b := by
  obtain ⟨rank, top, htop, hrank⟩ := htable.ranked
  let F : Forest := ⟨g.nodeBound, forestParent g.nodeBound idom, rank, top, fun c p hp => (forestParent_eq_some.mp hp).1,
    fun c p hp => hrank c p (forestParent_eq_some.mp hp).2.1, htop⟩
  have hanc : ∀ a, ∀ b ∈ g.nodeIds, Anc F.parent a b ↔ ∀ r ∈ roots, Dominates g.Edge r a b := by
    intro a b hb
    obtain ⟨r, hr, hpath⟩ := hcover b hb
    exact anc_forestParent hg hlive htable hr hpath
  have hchild : ∀ v p, F.parent v = some p → v ∈ g.nodeIds := by
    intro v p hp
    obtain ⟨hlt, hparent, _⟩ := forestParent_eq_some.mp hp
    exact (reaches_virtualRoot hg hlive hcover hlt).mp (isIdomTable_parent htable hparent).1
  have hF : Represents F starts t := by
    subst ht
    exact ⟨rfl, hnodup, fun r hr => ((hstarts r).mp hr).2, NumberingBuffers.number_spec F buffers hnodup fun r hr =>
      ⟨((hstarts r).mp hr).2, hg.nodeIds_lt r ((hstarts r).mp hr).1⟩⟩
  refine ⟨F, rfl, hF, fun v => ?_, hchild, hanc⟩
  rw [hF.mem_order]
  constructor
  · rintro ⟨r, hr, hrv⟩
    cases hrv with
    | refl => exact ((hstarts v).mp hr).1
    | step hp _ => exact hchild v _ hp
  · intro hv
    obtain ⟨r, hnone, hrv⟩ := F.exists_root v
    obtain ⟨s, hs, hpath⟩ := hcover v hv
    have hdominates := (hanc r v hv).mp hrv s hs
    exact ⟨r, (hstarts r).mpr ⟨reaches_live hg (hlive s hs) (hdominates.reaches hpath), hnone⟩, hrv⟩

end Behind

/-- Completing a tree that misses code succeeds.  What it leaves holds all of the code, and its
ancestors are the nodes that all walks from the roots visit. -/
theorem represents_completed (hg : g.Lawful) (hroot : g.root ∈ g.nodeIds) (hbound : checkBound (g.nodeBound + 1))
    (scratch : DominatorScratch) (hdom : ∀ v, dominators.isReachable v ↔ ReflTransGen g.Edge g.root v)
    (hout : ∃ v ∈ g.nodeIds, ¬ ReflTransGen g.Edge g.root v) :
    ∃ (F : Forest) (starts : List Nat) (t : DominatorTree), completeDominatorForest scratch g dominators = some (some t) ∧
      Represents F starts t ∧ (∀ v, v ∈ t.order ↔ v ∈ g.nodeIds) ∧
      ∀ a, ∀ b ∈ g.nodeIds, Anc F.parent a b ↔ ∀ r ∈ forestRoots g dominators, Dominates g.Edge r a b := by
  obtain ⟨hasc, _, hlive⟩ := forestRoots_spec dominators hg hroot
  have hcover := fun v hv => forestRoots_cover hg hdom (v := v) hv
  have hview : virtualRoot? g.toGraphView (forestRoots g dominators) =
      some (virtualRoot g.toGraphView (forestRoots g dominators)) := by
    rw [virtualRoot?, if_pos hasc.isChain]
  obtain ⟨scratch', complete, V, hrun, hrep, _, htable⟩ := represents_computeFromIn
    (lawful_virtualRoot hg (hasc.imp fun hab => Nat.ne_of_lt hab) hlive) hbound (Nat.lt_succ_self g.nodeBound) scratch
  have hidom : complete.idom = V.parent := funext fun v => by rw [DominatorTree.idom, hrep.parent]
  let starts := (List.range g.nodeBound).filter fun node =>
    complete.isReachable node && (forestParent g.nodeBound V.parent node).isNone
  have hstarts : ∀ r, r ∈ starts ↔ r ∈ g.nodeIds ∧ forestParent g.nodeBound V.parent r = none := by
    intro r
    rw [mem_filter, mem_range, Bool.and_eq_true, Option.isNone_iff_eq_none, ← and_assoc]
    refine and_congr_left fun _ => ⟨fun h => ?_, fun hr => ⟨hg.nodeIds_lt r hr, ?_⟩⟩
    · exact (reaches_virtualRoot hg hlive hcover h.1).mp (((isDominance_of_represents hrep htable).isReachable_iff r).mp h.2)
    · exact ((isDominance_of_represents hrep htable).isReachable_iff r).mpr
        ((reaches_virtualRoot hg hlive hcover (hg.nodeIds_lt r hr)).mpr hr)
  have hcomplete : completeDominatorForest scratch g dominators = some (some (fromNumbered (forestParent g.nodeBound V.parent)
      (NumberingBuffers.default.number (forestParent g.nodeBound V.parent) g.nodeBound starts).2)) := by
    obtain ⟨v, hv, hmissed⟩ := hout
    have hsome : ¬ (g.nodeIds.all fun block => dominators.isReachable block) = true := fun h =>
      hmissed ((hdom v).mp (all_eq_true.mp h v hv))
    have hparts : checkBound g.nodeBound := by
      have := decide_eq_true_eq.mp hbound
      simp only [checkBound, decide_eq_true_eq]
      omega
    rw [completeDominatorForest, if_neg hsome, hview]
    change (computeFromIn scratch _ g.nodeBound >>= _) = _
    rw [hrun]
    change (fromForestParts g.nodeBound (forestParent g.nodeBound complete.idom) complete.isReachable >>=
      fun forest => some (some forest)) = _
    rw [hidom, fromForestParts, if_pos hparts]
    rfl
  obtain ⟨F, _, hF, hmem, _, hanc⟩ :=
    represents_forestParent hg hlive hcover htable (nodup_range.filter _) hstarts .default rfl
  exact ⟨F, starts, _, hcomplete, hF, hmem, hanc⟩

/-- Where no missed code leads back, the walks to what the root reaches all start at the root. -/
theorem dominates_of_closed {roots : List Nat} (hg : g.Lawful) (hrep : Represent g roots)
    (hclosed : ∀ u ∈ g.nodeIds, ¬ ReflTransGen g.Edge g.root u → ∀ v, g.Edge u v → ¬ ReflTransGen g.Edge g.root v)
    {a b : Nat} (hb : ReflTransGen g.Edge g.root b) :
    (∀ r ∈ roots, Dominates g.Edge r a b) ↔ Dominates g.Edge g.root a b := by
  refine ⟨fun h => h g.root hrep.root_mem, fun h r hr p hp => ?_⟩
  rcases hrep.source r hr with rfl | ⟨hmissed, _⟩
  · exact h p hp
  · have hall : ∀ v, ReflTransGen g.Edge r v → ¬ ReflTransGen g.Edge g.root v := by
      intro v hv
      induction hv with
      | refl => exact hmissed
      | tail hw he ih => exact hclosed _ (reaches_live hg (hrep.live r hr) hw) ih _ he
    exact absurd hb (hall b hp.reaches)

/-- Completing the tree of a graph whose root misses code gives a forest in which every live node
lies in one tree; a node is below another where all walks to it from the root and from one member
of each source component of the missed code visit the other; an edge from one tree into another
enters a root; and where no missed code leads back, the forest over what the root reaches is the
tree. -/
theorem completeDominatorForest_exact (hg : g.Lawful) (hroot : g.root ∈ g.nodeIds) (hbound : checkBound (g.nodeBound + 1))
    (scratch : DominatorScratch) (hdom : compute g = some dominators)
    (hout : ∃ v ∈ g.nodeIds, ¬ ReflTransGen g.Edge g.root v) :
    ∃ t : DominatorTree, completeDominatorForest scratch g dominators = some (some t) ∧
      Represent g (forestRoots g dominators) ∧
      (∀ v ∈ g.nodeIds, ∃! r, t.idom r = none ∧ t.dominates r v) ∧
      (∀ a, ∀ b ∈ g.nodeIds, t.strictlyDominates a b ↔
        a ≠ b ∧ ∀ r ∈ forestRoots g dominators, ∀ p, Walk g.Edge r b p → a ∈ p) ∧
      (∀ a ∈ g.nodeIds, ∀ b r r', g.Edge a b → t.idom r = none → t.dominates r a → t.idom r' = none → t.dominates r' b →
        r ≠ r' → t.idom b = none) ∧
      ((∀ u ∈ g.nodeIds, ¬ ReflTransGen g.Edge g.root u → ∀ v, g.Edge u v → ¬ ReflTransGen g.Edge g.root v) →
        ∀ b, ReflTransGen g.Edge g.root b → t.idom b = dominators.idom b ∧ ∀ a, t.dominates a b = dominators.dominates a b) := by
  obtain ⟨hchecked, hlt⟩ := bounds_of_compute hdom
  obtain ⟨_, tree, D, hrun, hD, _, htable⟩ := represents_computeFromIn hg hchecked hlt DominatorScratch.new
  obtain rfl : tree = dominators := by
    rw [compute, computeIn, hrun] at hdom
    exact Option.some.inj hdom
  have htree := isDominance_of_represents hD htable
  obtain ⟨F, starts, t, hcomplete, hF, hmem, hanc⟩ :=
    represents_completed hg hroot hbound scratch htree.isReachable_iff hout
  have hrep := represent_forestRoots hg hroot htree.isReachable_iff
  have hdominates : ∀ a, ∀ b ∈ g.nodeIds, t.dominates a b ↔ Anc F.parent a b := fun a b hb =>
    hF.dominates_iff ((hmem b).mpr hb)
  have hidom : ∀ v, t.idom v = F.parent v := fun v => by rw [DominatorTree.idom, hF.parent]
  have hunique : ∀ {r r' v}, F.parent r = none → F.parent r' = none → Anc F.parent r v → Anc F.parent r' v → r = r' := by
    intro r r' v hr hr' h h'
    rcases h.linear h' with h | h
    · exact Forest.anc_root hr' h
    · exact (Forest.anc_root hr h).symm
  refine ⟨t, hcomplete, hrep, fun v hv => ?_, fun a b hb => ?_, fun a ha b r r' he hr hra hr' hrb hne => ?_,
    fun hclosed b hb => ?_⟩
  · obtain ⟨r, hr, hrv⟩ := F.exists_root v
    refine ⟨r, ⟨(hidom r).trans hr, (hdominates r v hv).mpr hrv⟩, fun s hs => ?_⟩
    exact hunique ((hidom s).symm.trans hs.1) hr ((hdominates s v hv).mp hs.2) hrv
  · rw [hF.strictlyDominates_iff ((hmem b).mpr hb), hanc a b hb]
    rfl
  · have hb := hg.successors_live a ha b he.2
    rw [hidom] at hr hr' ⊢
    rw [hdominates _ _ ha] at hra
    rw [hdominates _ _ hb] at hrb
    cases hp : F.parent b with
    | none => rfl
    | some p =>
      -- what is right above the target is above the source, and so is the root of its tree
      have hpne : p ≠ b := fun heq => Nat.lt_irrefl _ (heq ▸ F.rank_lt b p hp)
      have hpb : Anc F.parent p b := .step hp .refl
      have hpa : Anc F.parent p a :=
        (hanc p a ha).mpr fun s hs => ((hanc p b hb).mp hpb s hs).of_edge hpne he
      obtain ⟨s, hs, hsp⟩ := F.exists_root p
      exact absurd ((hunique hr hs hra (hsp.trans hpa)).trans (hunique hs hr' (hsp.trans hpb) hrb)) hne
  · have hagree : ∀ a c, ReflTransGen g.Edge g.root c → (Anc F.parent a c ↔ Anc D.parent a c) := by
      intro a c hc
      rw [hanc a c (reaches_live hg hroot hc), dominates_of_closed hg hrep hclosed hc, anc_iff_dominates htable hc]
    have habove : ∀ c, Anc D.parent c b → ReflTransGen g.Edge g.root c := fun c hc =>
      ((anc_iff_dominates htable hb).mp hc).reaches hb
    constructor
    · rw [hidom, DominatorTree.idom, hD.parent]
      ext p
      constructor
      · exact F.parent_of_anc fun a c hc => hagree a c (habove c ((hagree c b hb).mp hc))
      · exact D.parent_of_anc fun a c hc => (hagree a c (habove c hc)).symm
    · intro a
      rw [Bool.eq_iff_iff, hdominates a b (reaches_live hg hroot hb), hagree a b hb,
        hD.dominates_iff (hD.isReachable_iff.mp ((htree.isReachable_iff b).mpr hb))]

end Completed

/-- A loop that nothing enters beside what the root reaches, and a block that it and another lead to. -/
def orphanView : RootedView := ⟨.ofEdges 6 [0, 1, 2, 3, 4, 5] [(0, 1), (2, 3), (3, 2), (3, 4), (5, 4), (4, 1)], 0⟩

theorem completeDominatorForest_exact_orphanView : ∃ dominators t : DominatorTree, compute orphanView = some dominators ∧
    completeDominatorForest .new orphanView dominators = some (some t) ∧
      ∀ v ∈ orphanView.nodeIds, ∃! r, t.idom r = none ∧ t.dominates r v := by
  have hlawful : orphanView.Lawful := GraphView.lawful_ofEdges (by decide) (by decide) (by decide)
  obtain ⟨dominators, hdom⟩ := Option.isSome_iff_exists.mp (by decide : (compute orphanView).isSome)
  have hmissed : ¬ ReflTransGen orphanView.Edge 0 2 := by
    intro h
    obtain ⟨tree, _, _, _, htree, hspec, _⟩ :=
      computeFromIn_isDominance hlawful (by decide) (by decide : 0 < orphanView.nodeBound) .new
    have hno : (compute orphanView).all fun tree => !tree.isReachable 2 := by decide
    rw [show compute orphanView = some tree from htree, Option.all_some, (hspec.isReachable_iff 2).mpr h] at hno
    exact Bool.false_ne_true hno
  obtain ⟨t, hrun, _, hcover, _⟩ :=
    completeDominatorForest_exact hlawful (by decide) (by decide) .new hdom ⟨2, by decide, hmissed⟩
  exact ⟨dominators, t, hdom, hrun, hcover⟩

end Dominator

end CfgLib

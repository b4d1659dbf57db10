import CfgLib.Graph.Dominator.Dominance
import CfgLib.Graph.Tarjan
import CfgLib.Graph.Traverse
import CfgLib.Lib.Cycles

/-!
# The exits of a graph and the cut of what never leaves it

`graph/dominator/post/cut.rs`: a reachable block that cannot reach an exit lies in a
region that is never left.  In every sink component of these blocks the cut picks the
blocks with an edge back to where the component is entered.
-/

namespace CfgLib

open CfgLib.Lib Relation List Function

def GraphView.confined (g : GraphView) (within : Nat → Bool) : GraphView :=
  { g with
    successors := fun n => (g.successors n).filter within
    predecessors := fun n => (g.predecessors n).filter within }

/-- The blocks of a set that no edge leaves, as a graph of their own. -/
def GraphView.closedPart (g : GraphView) (holds : Nat → Bool) : GraphView where
  nodeBound := g.nodeBound
  nodeIds := (range g.nodeBound).filter holds
  successors n := if holds n then g.successors n else []
  predecessors n := if holds n then (g.predecessors n).filter holds else []

/-- `reachable` that discovers the nodes of `within` only; the seeds are marked in any case. -/
def reachableIn (g : GraphView) (seeds : List Nat) (d : TraversalDirection)
    (within : Option (Nat → Bool)) : Option (Nat → Bool) :=
  reachable ((within.map g.confined).getD g) seeds d

namespace Dominator

/-! ## The analysis -/

/-- What the analysis finds and the finished tree keeps. -/
structure ExitStructure where
  /-- Whether each block reaches an exit. -/
  reachesExit : Nat → Bool
  /-- The reachable blocks without successors, ascending. -/
  exits : List Nat
  /-- The blocks the cut joins to the virtual exit, ascending. -/
  cutRoots : List Nat

/-- The tables that the augmented graph reads. -/
structure CutBuffers where
  /-- Whether the entry reaches each block. -/
  reachable : Nat → Bool
  /-- Whether each block has an edge to the virtual exit. -/
  exitEdge : Nat → Bool

/-- The reachable blocks that cannot reach an exit. -/
def trapped (g : GraphView) (reachable reachesExit : Nat → Bool) : GraphView :=
  g.closedPart fun n => reachable n && !reachesExit n

def entersAt (g : GraphView) (root : Nat) (reachable : Nat → Bool) (component : List Nat) (block : Nat) : Bool :=
  block = root || (g.predecessors block).any fun before => reachable before && before ∉ component

/-- Whether no edge leaves a component. -/
def isSink (g : GraphView) (component : List Nat) : Bool :=
  component.all fun block => (g.successors block).all fun next => next ∈ component

/-- Cut a component unless an edge leaves it: mark its entry blocks, then collect the
blocks with an edge to one. -/
def cutComponent (g : GraphView) (root : Nat) (reachable : Nat → Bool) (s : (Nat → Bool) × List Nat)
    (component : List Nat) : (Nat → Bool) × List Nat :=
  if isSink g component then
    let entry := component.foldl
      (fun entry block => update entry block (entersAt g root reachable component block)) s.1
    (entry, s.2 ++ component.filter fun block => (g.successors block).any entry)
  else s

/-- The blocks the cut joins to the virtual exit. -/
def cutRootsOf (g : GraphView) (root : Nat) (reachable reachesExit : Nat → Bool) : List Nat :=
  let view := trapped g reachable reachesExit
  if view.nodeIds.isEmpty then []
  else ((tarjanScc view).components.foldl (cutComponent g root reachable) (fun _ => false, [])).2.insertionSort
    (· ≤ ·)

def exitsOf (g : GraphView) (reachable : Nat → Bool) : List Nat :=
  (range g.nodeBound).filter fun block => reachable block && (g.successors block).isEmpty

/-- The exits, the blocks that reach them, and the cut; `none` is a panic on the root. -/
def CutBuffers.analyze (g : GraphView) (root : Nat) : Option (CutBuffers × ExitStructure) := do
  let reachable ← reachableIn g [root] .outgoing none
  let exits := exitsOf g reachable
  let reachesExit ← reachableIn g exits .incoming (some reachable)
  let cutRoots := cutRootsOf g root reachable reachesExit
  some (⟨reachable, fun block => block ∈ exits ++ cutRoots⟩, ⟨reachesExit, exits, cutRoots⟩)

/-! ## What it finds -/

variable {g : RootedView} {a b : Nat}

/-- A path leads from the root to a block. -/
abbrev Reached (g : RootedView) (b : Nat) : Prop := ReflTransGen g.Edge g.root b

/-- A reachable block without successors. -/
def IsExit (g : RootedView) (b : Nat) : Prop := Reached g b ∧ g.successors b = []

/-- A reachable block with a path to an exit. -/
def ReachesExit (g : RootedView) (b : Nat) : Prop :=
  Reached g b ∧ ∃ e, ReflTransGen g.Edge b e ∧ g.successors e = []

/-- A reachable block without one. -/
def Trapped (g : RootedView) (b : Nat) : Prop := Reached g b ∧ ¬ ReachesExit g b

/-- Where a component is entered: at the root, or from a reachable block outside it. -/
def IsEntryBlock (g : RootedView) (t : Nat) : Prop :=
  t = g.root ∨ ∃ p, Reached g p ∧ g.Edge p t ∧ ¬ g.Mutual t p

/-- A block of a component that no edge leaves and no exit ends, with an edge to one of the
component's entry blocks. -/
structure IsCutRoot (g : RootedView) (b : Nat) : Prop where
  trapped : Trapped g b
  sink : ∀ a, ReflTransGen g.Edge b a → ReflTransGen g.Edge a b
  closes : ∃ t, g.Edge b t ∧ IsEntryBlock g t

theorem Trapped.reaches (h : Trapped g a) (hab : ReflTransGen g.Edge a b) : Trapped g b :=
  ⟨h.1.trans hab, fun ⟨_, e, hbe, he⟩ => h.2 ⟨h.1, e, hab.trans hbe, he⟩⟩

theorem Trapped.exists_edge (h : Trapped g a) (ha : a < g.nodeBound) : ∃ b, g.Edge a b := by
  obtain ⟨b, hb⟩ := exists_mem_of_ne_nil _ fun hnil => h.2 ⟨h.1, a, .refl, hnil⟩
  exact ⟨b, ha, hb⟩

structure IsPart (g : RootedView) (P : Nat → Prop) (u : GraphView) : Prop where
  lawful : u.Lawful
  live_iff : ∀ n, n ∈ u.nodeIds ↔ n < g.nodeBound ∧ P n
  edge_iff : ∀ a b, u.Edge a b ↔ P a ∧ g.Edge a b

theorem isPart_closedPart (hg : g.Lawful) {P : Nat → Prop} {holds : Nat → Bool} (hholds : ∀ n, holds n = true ↔ P n)
    (hclosed : ∀ {a b}, P a → g.Edge a b → P b) : IsPart g P (g.closedPart holds) := by
  have hlive : ∀ n, n ∈ (g.closedPart holds).nodeIds ↔ n < g.nodeBound ∧ P n :=
    fun n => mem_filter.trans (and_congr mem_range (hholds n))
  have hedge : ∀ a b, (g.closedPart holds).Edge a b ↔ P a ∧ g.Edge a b := by
    intro a b
    unfold GraphView.Edge GraphView.closedPart
    rw [← hholds a]
    dsimp only
    split <;> simp [*]
  have hsucc : ∀ n m, n < g.nodeBound → m ∈ (g.closedPart holds).successors n → m < g.nodeBound ∧ P m :=
    fun n m hn hm => by
      obtain ⟨hn, he⟩ := (hedge n m).mp ⟨hn, hm⟩
      exact ⟨(hg.edge_lt he).2, hclosed hn he⟩
  have hpred : ∀ n m, n < g.nodeBound → m ∈ (g.closedPart holds).predecessors n → m < g.nodeBound ∧ P m :=
    fun n m hn hm => by
      unfold GraphView.closedPart at hm
      dsimp only at hm
      split at hm
      · exact ⟨hg.predecessors_lt n m hn (mem_filter.mp hm).1, (hholds m).mp (mem_filter.mp hm).2⟩
      · cases hm
  refine ⟨⟨fun n hn => ((hlive n).mp hn).1, nodup_range.filter _, fun n m hn hm => (hsucc n m hn hm).1,
    fun n m hn hm => (hpred n m hn hm).1, fun n hn m hm => (hlive m).mpr (hsucc n m ((hlive n).mp hn).1 hm),
    fun n hn m hm => (hlive m).mpr (hpred n m ((hlive n).mp hn).1 hm), fun source target hs ht => ?_⟩, hlive, hedge⟩
  have htranspose := hg.transpose source target hs ht
  unfold GraphView.closedPart
  dsimp only
  split
  · next hsource =>
    split
    · exact htranspose.trans (count_filter hsource).symm
    · next htarget =>
      -- an edge would lead to another block of the set
      exact count_eq_zero.mpr fun he => htarget ((hholds target).mpr (hclosed ((hholds source).mp hsource) ⟨hs, he⟩))
  · next hsource =>
    symm
    split
    · exact count_eq_zero.mpr fun h => hsource (mem_filter.mp h).2
    · exact count_nil

section Components

variable {u : GraphView} (hu : IsPart g (Trapped g) u) (hg : g.Lawful)
include hu hg

/-- The members of a component are the blocks mutually reachable with any of them. -/
theorem mem_component {component : List Nat} (hc : component ∈ (tarjanScc u).components) (ha : a ∈ component) :
    a < g.nodeBound ∧ Trapped g a ∧ ∀ b, b ∈ component ↔ g.Mutual a b := by
  obtain ⟨hminted, htotal⟩ := (tarjanScc_spec hu.lawful).1
  obtain ⟨i, hi⟩ := getElem?_of_mem hc
  have hai := (hminted.mem_iff i _ hi a).mp ha
  have hlive : ∀ {n j}, (tarjanScc u).componentOf n = some j → n < g.nodeBound ∧ Trapped g n := fun hn =>
    (hu.live_iff _).mp (hminted.live _ (by rw [hn]; rfl))
  -- what a trapped block reaches it reaches among the trapped blocks
  have hreaches : ∀ {a b}, Trapped g a → (ReflTransGen u.Edge a b ↔ ReflTransGen g.Edge a b) := by
    refine fun ha => ⟨ReflTransGen.mono (fun _ _ he => ((hu.edge_iff _ _).mp he).2) _ _, fun h => ?_⟩
    induction h with
    | refl => exact .refl
    | tail hac he ih => exact ih.tail ((hu.edge_iff _ _).mpr ⟨ha.reaches hac, he⟩)
  have hat := hlive hai
  refine ⟨hat.1, hat.2, fun b => ?_⟩
  have hmutual : ∀ j, (tarjanScc u).componentOf b = some j → (i = j ↔ g.Mutual a b) := fun j hj => by
    rw [hminted.same_iff a b i j hai hj]
    exact and_congr (hreaches hat.2) (hreaches (hlive hj).2)
  rw [hminted.mem_iff i _ hi b]
  refine ⟨fun hb => (hmutual i hb).mp rfl, fun hm => ?_⟩
  have hblt : b < g.nodeBound := by
    rcases hm.1.cases_tail with rfl | ⟨_, _, he⟩
    · exact hat.1
    · exact (hg.edge_lt he).2
  obtain ⟨j, hj⟩ := htotal b ((hu.live_iff b).mpr ⟨hblt, hat.2.reaches hm.1⟩)
  rw [hj, (hmutual j hj).mpr hm]

theorem mem_component_iff {reachable : Nat → Bool} (hreachable : ∀ n, reachable n = true ↔ Reached g n)
    {component : List Nat} (hc : component ∈ (tarjanScc u).components) (hb : b ∈ component) :
    (isSink g.toGraphView component = true ∧
      (g.successors b).any (entersAt g.toGraphView g.root reachable component) = true) ↔ IsCutRoot g b := by
  obtain ⟨hlt, htrapped, hmem⟩ := mem_component hu hg hc hb
  have hsink : isSink g.toGraphView component = true ↔ ∀ a, ReflTransGen g.Edge b a → ReflTransGen g.Edge a b := by
    simp only [isSink, all_eq_true, decide_eq_true_eq, hmem]
    constructor
    · intro h a ha
      have hin : g.Mutual b a := by
        induction ha with
        | refl => exact ⟨.refl, .refl⟩
        | tail _ he ih => exact h _ ih _ he.2
      exact hin.2
    · intro h a ha n hn
      have halt := (mem_component hu hg hc ((hmem a).mpr ha)).1
      have hreach := ha.1.tail (show g.Edge a n from ⟨halt, hn⟩)
      exact ⟨hreach, h n hreach⟩
  rw [hsink]
  have henters : ∀ t, g.Edge b t → ReflTransGen g.Edge t b →
      (entersAt g.toGraphView g.root reachable component t = true ↔ IsEntryBlock g t) := by
    intro t he hback
    have hout : ∀ p, g.Mutual b p ↔ g.Mutual t p := fun p =>
      ⟨fun h => ⟨hback.trans h.1, h.2.tail he⟩, fun h => ⟨.head he h.1, h.2.trans hback⟩⟩
    simp only [entersAt, Bool.or_eq_true, decide_eq_true_eq, any_eq_true, Bool.and_eq_true, hreachable, hmem, hout,
      hg.mem_predecessors (hg.edge_lt he).2, IsEntryBlock]
    exact or_congr_right (exists_congr fun p => by tauto)
  constructor
  · rintro ⟨hclosed, hany⟩
    obtain ⟨t, ht, hin⟩ := any_eq_true.mp hany
    have he : g.Edge b t := ⟨hlt, ht⟩
    exact ⟨htrapped, hclosed, t, he, (henters t he (hclosed t (.single he))).mp hin⟩
  · rintro ⟨_, hclosed, t, he, hin⟩
    exact ⟨hclosed, any_eq_true.mpr ⟨t, he.2, (henters t he (hclosed t (.single he))).mpr hin⟩⟩

end Components

/-! ## The cut -/

theorem foldl_update (f : Nat → Bool) (l : List Nat) (entry : Nat → Bool) (x : Nat) :
    l.foldl (fun entry block => update entry block (f block)) entry x = if x ∈ l then f x else entry x := by
  induction l generalizing entry with
  | nil => simp
  | cons a l ih =>
    rw [foldl_cons, ih]
    by_cases hx : x ∈ l <;> by_cases hxa : x = a <;> simp_all

/-- What earlier components left in the entry table is not read, since no edge leaves a component that is cut. -/
theorem foldl_cutComponent {g : GraphView} {root : Nat} {reachable : Nat → Bool} (components : List (List Nat)) :
    ∀ s, (components.foldl (cutComponent g root reachable) s).2 = s.2 ++ components.flatMap fun component =>
      component.filter fun block => isSink g component && (g.successors block).any (entersAt g root reachable component) := by
  induction components with
  | nil => simp
  | cons component components ih =>
    intro s
    rw [foldl_cons, ih, flatMap_cons, ← append_assoc]
    congr 1
    unfold cutComponent
    split
    · next hsink =>
      rw [hsink]
      dsimp only
      refine congrArg _ (filter_congr fun block hblock => ?_)
      rw [Bool.true_and, Bool.eq_iff_iff, any_eq_true, any_eq_true]
      refine exists_congr fun next => and_congr_right fun hnext => ?_
      rw [foldl_update, if_pos (of_decide_eq_true (all_eq_true.mp (all_eq_true.mp hsink block hblock) next hnext))]
    · next hsink => simp [hsink]

theorem cutRootsOf_spec (hg : g.Lawful) {reachable reachesExit : Nat → Bool}
    (hreachable : ∀ n, reachable n = true ↔ Reached g n)
    (hreaches : ∀ n, reachesExit n = true ↔ ReachesExit g n) :
    (∀ b, b ∈ cutRootsOf g.toGraphView g.root reachable reachesExit ↔ IsCutRoot g b) ∧
      (cutRootsOf g.toGraphView g.root reachable reachesExit).Pairwise (· < ·) := by
  have hholds : ∀ n, (reachable n && !reachesExit n) = true ↔ Trapped g n := by
    intro n
    rw [Bool.and_eq_true, Bool.not_eq_true', ← Bool.not_eq_true, hreachable, hreaches]
    rfl
  have hu := isPart_closedPart hg hholds fun ha he => ha.reaches (.single he)
  unfold cutRootsOf
  dsimp only
  change IsPart g _ (trapped g.toGraphView reachable reachesExit) at hu
  generalize trapped g.toGraphView reachable reachesExit = u at hu
  obtain ⟨hminted, htotal⟩ := (tarjanScc_spec hu.lawful).1
  split
  · next hnone =>
    refine ⟨fun b => iff_of_false not_mem_nil fun h => ?_, .nil⟩
    obtain ⟨t, he, _⟩ := h.closes
    exact not_mem_nil (List.isEmpty_iff.mp hnone ▸ (hu.live_iff b).mpr ⟨he.1, h.trapped⟩)
  rw [foldl_cutComponent, nil_append]
  refine ⟨fun b => ?_, pairwise_lt_insertionSort (nodup_flatMap.mpr ⟨fun c hc => ?_, ?_⟩)⟩
  · rw [mem_insertionSort, mem_flatMap]
    constructor
    · rintro ⟨component, hc, hb⟩
      obtain ⟨hb, hcut⟩ := mem_filter.mp hb
      exact (mem_component_iff hu hg hreachable hc hb).mp (Bool.and_eq_true_iff.mp hcut)
    · intro h
      obtain ⟨t, he, _⟩ := h.closes
      obtain ⟨i, hi⟩ := htotal b ((hu.live_iff b).mpr ⟨he.1, h.trapped⟩)
      have hget := getElem?_eq_getElem (hminted.index_lt b i hi)
      have hb := (hminted.mem_iff i _ hget b).mpr hi
      exact ⟨_, mem_of_getElem? hget, mem_filter.mpr ⟨hb, Bool.and_eq_true_iff.mpr
        ((mem_component_iff hu hg hreachable (mem_of_getElem? hget) hb).mpr h)⟩⟩
  · exact ((hminted.ascending c hc).imp fun hlt => hlt.ne).filter _
  · rw [pairwise_iff_getElem]
    intro i j hi hj hij a ha hb
    have hai := (hminted.mem_iff i _ (getElem?_eq_getElem hi) a).mp (mem_filter.mp ha).1
    rw [(hminted.mem_iff j _ (getElem?_eq_getElem hj) a).mp (mem_filter.mp hb).1] at hai
    exact absurd (Option.some.inj hai) hij.ne'

/-- What the tables of the analysis mean. -/
structure Analyzed (g : RootedView) (cut : CutBuffers) (found : ExitStructure) : Prop where
  reachable_iff : ∀ b, cut.reachable b = true ↔ Reached g b
  exitEdge_iff : ∀ b, cut.exitEdge b = true ↔ IsExit g b ∨ IsCutRoot g b
  reachesExit_iff : ∀ b, found.reachesExit b = true ↔ ReachesExit g b
  mem_exits : ∀ b, b ∈ found.exits ↔ IsExit g b
  mem_cutRoots : ∀ b, b ∈ found.cutRoots ↔ IsCutRoot g b
  exits_ascending : found.exits.Pairwise (· < ·)
  cutRoots_ascending : found.cutRoots.Pairwise (· < ·)

theorem analyze_spec (hg : g.Lawful) (hroot : g.root < g.nodeBound) :
    ∃ cut found, CutBuffers.analyze g.toGraphView g.root = some (cut, found) ∧ Analyzed g cut found := by
  have hlt : ∀ {n}, Reached g n → n < g.nodeBound := fun hn => DominatorTree.reaches_lt hg hroot hn
  have hseed : ∀ n ∈ [g.root], n < g.nodeBound := fun n hn => mem_singleton.mp hn ▸ hroot
  obtain ⟨reachable, hrun, hreachable⟩ := reachable_spec hg hseed .outgoing
  have hreachable : ∀ n, reachable n = true ↔ Reached g n := by
    intro n
    simp only [hreachable, mem_singleton, exists_eq_left]
    refine ⟨fun h => ?_, ReflTransGen.mono (fun _ _ he => he.2) _ _⟩
    induction h with
    | refl => exact .refl
    | tail _ he ih => exact ih.tail ⟨hlt ih, he⟩
  have hexits : ∀ b, b ∈ exitsOf g.toGraphView reachable ↔ IsExit g b := by
    intro b
    rw [exitsOf, mem_filter, mem_range, Bool.and_eq_true, hreachable, List.isEmpty_iff]
    exact ⟨And.right, fun h => ⟨hlt h.1, h⟩⟩
  obtain ⟨reachesExit, hrun', hreaches⟩ := reachable_within (g := g.confined reachable) (d := .incoming)
    (fun n hn m hm => hg.predecessors_lt n m hn (mem_filter.mp hm).1) fun e he => hlt ((hexits e).mp he).1
  have hreaches : ∀ b, reachesExit b = true ↔ ReachesExit g b := by
    intro b
    rw [hreaches]
    constructor
    · rintro ⟨e, he, h⟩
      have he := (hexits e).mp he
      suffices hb : Reached g b ∧ ReflTransGen g.Edge b e from ⟨hb.1, e, hb.2, he.2⟩
      induction h with
      | refl => exact ⟨he.1, .refl⟩
      | tail _ hm ih =>
        obtain ⟨hm, hreach⟩ := mem_filter.mp hm
        exact ⟨(hreachable _).mp hreach, .head ((hg.mem_predecessors (hlt ih.1)).mp hm) ih.2⟩
    · rintro ⟨hb, e, hbe, he⟩
      refine ⟨e, (hexits e).mpr ⟨hb.trans hbe, he⟩, ?_⟩
      induction hbe using ReflTransGen.head_induction_on with
      | refl => exact .refl
      | head he hrest ih =>
        exact (ih (hb.tail he)).tail (mem_filter.mpr
          ⟨(hg.mem_predecessors (hg.edge_lt he).2).mpr he, (hreachable _).mpr hb⟩)
  obtain ⟨hmem, hascending⟩ := cutRootsOf_spec hg hreachable hreaches
  refine ⟨⟨reachable, fun b => b ∈ exitsOf g.toGraphView reachable ++ cutRootsOf g.toGraphView g.root reachable reachesExit⟩,
    ⟨reachesExit, exitsOf g.toGraphView reachable, cutRootsOf g.toGraphView g.root reachable reachesExit⟩, ?_,
    hreachable, fun b => ?_, hreaches, hexits, hmem, pairwise_lt_range.filter _, hascending⟩
  · unfold CutBuffers.analyze reachableIn
    simp only [Option.map_none, Option.getD_none, hrun, Option.bind_eq_bind, Option.bind_some, Option.map_some,
      Option.getD_some, hrun']
  · rw [← hexits, ← hmem]
    exact decide_eq_true_iff.trans mem_append

end Dominator

end CfgLib

import CfgLib.Graph.Dominator.Immediate
import CfgLib.Graph.Dominator.Numbering

/-!
# Dominator trees

`graph/dominator.rs`: the numbered tree and its queries.  The queries are first
read against any forest the tables represent, and then, for a tree computed from
a root, against dominance itself.
-/

namespace CfgLib.Dominator

open CfgLib.Lib Relation List

/-- A dominator tree computed from a rooted directed graph. -/
structure DominatorTree where
  /-- Parent of each node, `none` for a root and for an unreachable node. -/
  idomOf : Nat → Option Nat
  /-- Preorder index of each node, `none` when it is unreachable. -/
  pre : Nat → Option Nat
  /-- Preorder index of each node's last descendant. -/
  last : Nat → Option Nat
  /-- Distance from each node to the root of its tree. -/
  levelOf : Nat → Option Nat
  /-- The reachable nodes in preorder. -/
  order : List Nat

/-- Every buffer `computeIn` fills, owned by the caller. -/
structure DominatorScratch where
  construction : ConstructionBuffers
  numbering : NumberingBuffers

def DominatorScratch.new : DominatorScratch := ⟨.default, .default⟩

namespace DominatorTree

/-! ## Construction -/

/-- Join a parent table with the numbering of its forest. -/
def fromNumbered (idom : Nat → Option Nat) (numbered : Numbered) : DominatorTree where
  idomOf := idom
  pre := numbered.pre
  last := numbered.last
  levelOf := numbered.level
  order := numbered.order

/-- A node bound that dense `u32` tables can index. -/
def checkBound (bound : Nat) : Bool := bound ≤ 0xFFFFFFFF

/-- Compute dominators from an explicit root over caller-owned working storage.
`none` stands for the two panics of the source: a bound beyond the dense `u32`
range, and a root that is not a node of the graph. -/
def computeFromIn (scratch : DominatorScratch) (g : GraphView) (root : Nat) :
    Option (DominatorScratch × DominatorTree) :=
  if checkBound g.nodeBound ∧ root < g.nodeBound then
    let (construction, idom) := scratch.construction.immediateDominators g root
    let (numbering, numbered) := scratch.numbering.number idom g.nodeBound [root]
    some (⟨construction, numbering⟩, fromNumbered idom numbered)
  else none

def computeFrom (g : GraphView) (root : Nat) : Option DominatorTree :=
  (computeFromIn .new g root).map Prod.snd

def computeIn (scratch : DominatorScratch) (g : RootedView) :
    Option (DominatorScratch × DominatorTree) :=
  computeFromIn scratch g.toGraphView g.root

def compute (g : RootedView) : Option DominatorTree := (computeIn .new g).map Prod.snd

/-! ## Queries -/

def idom (t : DominatorTree) (node : Nat) : Option Nat := t.idomOf node

/-- Whether `node` is in a tree of this forest. -/
def isReachable (t : DominatorTree) (node : Nat) : Bool := (t.pre node).isSome

def dominates (t : DominatorTree) (dominator node : Nat) : Bool :=
  if dominator = node then true
  else
    match t.pre dominator, t.pre node, t.last dominator with
    | some start, some position, some last => start ≤ position && position ≤ last
    | _, _, _ => false

def strictlyDominates (t : DominatorTree) (dominator node : Nat) : Bool :=
  dominator ≠ node && t.dominates dominator node

/-- A node's level, `none` for an unreachable node. -/
def level (t : DominatorTree) (node : Nat) : Option Nat :=
  if (t.pre node).isSome then t.levelOf node else none

def preorder (t : DominatorTree) : List Nat := t.order

/-- The range of preorder positions `node` dominates. -/
def span (t : DominatorTree) (node : Nat) : Nat × Nat :=
  match t.pre node with
  | none => (0, 0)
  | some start => (start, (t.last node).getD 0 + 1)

/-- The nodes `node` dominates, itself first, in preorder. -/
def subtree (t : DominatorTree) (node : Nat) : List Nat :=
  (t.order.drop (t.span node).1).take ((t.span node).2 - (t.span node).1)

/-- The nodes at `position` and at every position that skips the subtree before it. -/
def childrenFrom (t : DominatorTree) (stop : Nat) : Nat → Nat → List Nat
  | 0, _ => []
  | fuel + 1, position =>
    if position < stop then
      match t.order[position]? with
      | none => []
      | some child => child :: t.childrenFrom stop fuel ((t.last child).getD 0 + 1)
    else []

def children (t : DominatorTree) (node : Nat) : List Nat :=
  t.childrenFrom (t.span node).2 ((t.span node).2 - (t.span node).1) ((t.span node).1 + 1)

/-! ## The queries on a forest -/

structure Represents (F : Forest) (roots : List Nat) (t : DominatorTree) : Prop where
  parent : t.idomOf = F.parent
  roots_nodup : roots.Nodup
  roots_none : ∀ r ∈ roots, F.parent r = none
  walked : NumberingBuffers.Walked F (roots.flatMap F.flat) .empty
    ⟨t.pre, t.last, t.levelOf, t.order⟩

namespace Represents

variable {F : Forest} {roots : List Nat} {t : DominatorTree} {v a b : Nat}

section

variable (h : Represents F roots t)
include h

theorem order_eq : t.order = roots.flatMap F.flat := by
  simpa [Numbered.empty] using h.walked.order

theorem order_nodup : t.order.Nodup := by
  rw [h.order_eq]
  exact Forest.nodup_flatMap_flat h.roots_nodup h.roots_none fun c _ => Forest.flat_nodup c

theorem mem_order : v ∈ t.order ↔ ∃ r ∈ roots, Anc F.parent r v := by
  rw [h.order_eq, mem_flatMap]
  simp only [Forest.mem_flat]

theorem pre_eq_some {k : Nat} : t.pre v = some k ↔ t.order[k]? = some v := by
  have hpre := h.walked.pre
  rw [← h.order_eq] at hpre
  simp only [Numbered.empty, length_nil, Nat.zero_add] at hpre
  constructor
  · intro hk
    by_cases hv : v ∈ t.order
    · obtain ⟨j, hj⟩ := mem_iff_getElem?.mp hv
      rw [hpre j v hj] at hk
      rw [← Option.some.inj hk]
      exact hj
    · rw [h.order_eq] at hv
      have hnone : t.pre v = none := (h.walked.frame v hv).1
      rw [hnone] at hk
      cases hk
  · exact hpre k v

theorem isReachable_iff : t.isReachable v ↔ v ∈ t.order := by
  rw [isReachable, Option.isSome_iff_exists, mem_iff_getElem?]
  simp only [h.pre_eq_some]

/-- A subtree is a stretch of the preorder, bounded by its node's two positions. -/
theorem stretch (hv : v ∈ t.order) :
    ∃ before after, t.order = before ++ F.flat v ++ after ∧ t.pre v = some before.length ∧
      t.last v = some (before.length + (F.flat v).length - 1) := by
  obtain ⟨before, after, horder, hlast⟩ := h.walked.last v (by rw [← h.order_eq]; exact hv)
  refine ⟨before, after, horder, ?_, hlast⟩
  rw [h.pre_eq_some]
  change t.order = _ at horder
  rw [horder, append_assoc, getElem?_append_right (Nat.le_refl _), Nat.sub_self,
    Forest.flat_eq]
  rfl

theorem span_eq (hv : v ∈ t.order) : ∃ before after, t.order = before ++ F.flat v ++ after ∧
      t.span v = (before.length, before.length + (F.flat v).length) := by
  obtain ⟨before, after, horder, hpre, hlast⟩ := h.stretch hv
  have hpos := NumberingBuffers.flat_length_pos (F := F) v
  refine ⟨before, after, horder, ?_⟩
  simp only [span, hpre, hlast, Option.getD_some]
  congr 1
  omega

theorem subtree_eq (hv : v ∈ t.order) : t.subtree v = F.flat v := by
  obtain ⟨before, after, horder, hspan⟩ := h.span_eq hv
  rw [subtree, hspan, horder]
  simp

theorem subtree_of_not_mem (hv : v ∉ t.order) : t.subtree v = [] := by
  have hpre : t.pre v = none := by
    rw [← h.isReachable_iff, isReachable] at hv
    simpa using hv
  simp [subtree, span, hpre]

theorem anc_mem_order (hb : b ∈ t.order) (hab : Anc F.parent a b) : a ∈ t.order := by
  obtain ⟨r, hr, hrb⟩ := h.mem_order.mp hb
  rw [h.mem_order]
  rcases Anc.linear hab hrb with har | hra
  · rw [Forest.anc_root (h.roots_none r hr) har]
    exact ⟨r, hr, .refl⟩
  · exact ⟨r, hr, hra⟩

theorem dominates_iff (hb : b ∈ t.order) : t.dominates a b ↔ Anc F.parent a b := by
  by_cases hab : a = b
  · subst hab
    simp only [dominates, if_true]
    exact ⟨fun _ => .refl, fun _ => trivial⟩
  · by_cases ha : a ∈ t.order
    · obtain ⟨before, after, horder, hpre, hlast⟩ := h.stretch ha
      obtain ⟨k, hk⟩ := mem_iff_getElem?.mp hb
      have hpos := NumberingBuffers.flat_length_pos (F := F) a
      simp only [dominates, if_neg hab, hpre, hlast, h.pre_eq_some.mpr hk, Bool.and_eq_true,
        decide_eq_true_eq]
      rw [← Forest.mem_flat]
      -- positions in the stretch are those of the subtree, since no node repeats
      have hnodup := h.order_nodup
      rw [horder, append_assoc] at hk hnodup
      constructor
      · rintro ⟨hle, hge⟩
        rw [getElem?_append_right hle, getElem?_append_left (by omega)] at hk
        exact mem_of_getElem? hk
      · intro hmem
        rw [nodup_append] at hnodup
        obtain ⟨_, hnodup₂, hdisj⟩ := hnodup
        rw [nodup_append] at hnodup₂
        by_cases hlt : k < before.length
        · rw [getElem?_append_left hlt] at hk
          exact absurd rfl (hdisj b (mem_of_getElem? hk) b (by simp [hmem]))
        · rw [getElem?_append_right (by omega)] at hk
          by_cases hlt' : k - before.length < (F.flat a).length
          · omega
          · rw [getElem?_append_right (by omega)] at hk
            exact absurd rfl (hnodup₂.2.2 b hmem b (mem_of_getElem? hk))
    · have hpre : t.pre a = none := by
        rw [← h.isReachable_iff, isReachable] at ha
        simpa using ha
      simp only [dominates, if_neg hab, hpre, Bool.false_eq_true, false_iff]
      exact fun hanc => ha (h.anc_mem_order hb hanc)

theorem childrenFrom_eq {before after : List Nat} :
    ∀ (kids done : List Nat) (fuel : Nat), kids.length ≤ fuel →
      t.order = before ++ done ++ kids.flatMap F.flat ++ after →
      t.childrenFrom (before ++ done ++ kids.flatMap F.flat).length fuel
        (before ++ done).length = kids := by
  intro kids
  induction kids with
  | nil =>
    intro done fuel _ _
    cases fuel with
    | zero => rfl
    | succ fuel => simp [childrenFrom]
  | cons c kids ih =>
    intro done fuel hfuel horder
    obtain ⟨fuel, rfl⟩ : ∃ f, fuel = f + 1 := ⟨fuel - 1, by simp at hfuel; omega⟩
    have hpos := NumberingBuffers.flat_length_pos (F := F) c
    have hget : t.order[(before ++ done).length]? = some c := by
      rw [horder, append_assoc, getElem?_append_right (Nat.le_refl _), Nat.sub_self,
        flatMap_cons, Forest.flat_eq]
      rfl
    have hlast : t.last c = some ((before ++ done).length + (F.flat c).length - 1) := by
      obtain ⟨before', after', horder', hpre', hlast'⟩ := h.stretch (mem_of_getElem? hget)
      have := h.pre_eq_some.mpr hget
      rw [hpre'] at this
      rw [hlast', Option.some.inj this]
    have hlt : (before ++ done).length < (before ++ done ++ (c :: kids).flatMap F.flat).length := by
      simp only [flatMap_cons, length_append]
      omega
    rw [childrenFrom, if_pos hlt, hget]
    dsimp only
    rw [hlast, Option.getD_some]
    have hnext := ih (done ++ F.flat c) fuel (by simpa using hfuel) (by rw [horder]; simp)
    congr 1
    rw [show (before ++ done).length + (F.flat c).length - 1 + 1 =
      (before ++ (done ++ F.flat c)).length by simp only [length_append]; omega]
    rw [show (before ++ done ++ (c :: kids).flatMap F.flat).length =
      (before ++ (done ++ F.flat c) ++ kids.flatMap F.flat).length by simp]
    exact hnext

theorem children_eq (hv : v ∈ t.order) : t.children v = F.kids v := by
  obtain ⟨before, after, horder, hspan⟩ := h.span_eq hv
  have horder' : t.order = before ++ [v] ++ (F.kids v).flatMap F.flat ++ after := by
    rw [horder, Forest.flat_eq]
    simp
  have hlen : (before ++ [v] ++ (F.kids v).flatMap F.flat).length =
      before.length + (F.flat v).length := by
    rw [Forest.flat_eq]
    simp
  have hkids : (F.kids v).length ≤ before.length + (F.flat v).length - before.length := by
    have hsub : F.kids v ⊆ F.flat v := fun c hc =>
      Forest.mem_flat.mpr (.step (Forest.mem_kids.mp hc) .refl)
    have := List.Nodup.length_le_of_subset (Forest.kids_nodup v) hsub
    omega
  have := childrenFrom_eq h (F.kids v) [v] _ hkids horder'
  rw [children, hspan]
  rw [hlen] at this
  simpa using this

theorem children_of_not_mem (hv : v ∉ t.order) : t.children v = [] := by
  have hpre : t.pre v = none := by
    rw [← h.isReachable_iff, isReachable] at hv
    simpa using hv
  simp [children, span, hpre, childrenFrom]

theorem level_of_mem (hv : v ∈ t.order) : t.level v = t.levelOf v := by
  have : (t.pre v).isSome := h.isReachable_iff.mpr hv
  simp [level, this]

theorem level_eq (hv : v ∈ t.order) : match F.parent v with
    | none => t.level v = some 0
    | some p => t.level v = (t.level p).map (· + 1) := by
  have hok := h.walked.level v (by rw [← h.order_eq]; exact hv)
  unfold NumberingBuffers.LevelOk at hok
  rw [h.level_of_mem hv]
  cases hp : F.parent v with
  | none =>
    rw [hp] at hok
    exact hok
  | some p =>
    rw [hp] at hok
    dsimp only
    rw [h.level_of_mem (h.anc_mem_order hv (.step hp .refl))]
    exact hok

end

end Represents

end DominatorTree

end CfgLib.Dominator

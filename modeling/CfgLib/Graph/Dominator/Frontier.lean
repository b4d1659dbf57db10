import CfgLib.Graph.Dominator.Dominance
import CfgLib.Graph.Epoch
import CfgLib.Lib.Frontier
import CfgLib.Lib.Loop
import Mathlib.Data.List.Dedup
import Mathlib.Data.List.Perm.Subperm
import Mathlib.Data.List.Induction
import Mathlib.Data.List.Sort

/-!
# Dominance frontiers, per query

`graph/dominator/frontier.rs`: one frontier read off the subtree of its node, and
the iterated frontier by a level-ordered search.  The search takes roots deepest
level first and accepts an edge when the level of its head is no deeper than that
of the root; it skips the subtrees that earlier roots covered.
-/

namespace CfgLib.Dominator

open CfgLib.Lib Relation List Function
open ConstructionBuffers (IsIdomTable Bucket)

/-! ## The queries -/

/-- Every buffer `iteratedFrontier` fills, owned by the caller. -/
structure FrontierScratch where
  /-- Nodes that are, or have been, a root of the search. -/
  queued : EpochMarks
  /-- Nodes already judged as candidates for the answer. -/
  judged : EpochMarks
  /-- The first root waiting at each level. -/
  bucketHead : List (Option Nat)
  /-- The root after each queued node in its level's bucket. -/
  bucketNext : List (Option Nat)

namespace FrontierScratch

def new : FrontierScratch := ⟨.new 0, .new 0, [], []⟩

/-- Empty every buffer and grow the node-indexed ones. -/
def begin (s : FrontierScratch) (nodeBound : Nat) : FrontierScratch where
  queued := (s.queued.growTo nodeBound).reset
  judged := (s.judged.growTo nodeBound).reset
  bucketHead := []
  bucketNext := s.bucketNext ++ List.replicate (nodeBound - s.bucketNext.length) none

/-- Queue `node` as a root to walk, unless it has been queued already. -/
def enqueue (s : FrontierScratch) (node level : Nat) : FrontierScratch :=
  if s.queued.isMarked node then s
  else
    let bucketHead := s.bucketHead ++ List.replicate (level + 1 - s.bucketHead.length) none
    { s with
      queued := s.queued.mark node
      bucketNext := s.bucketNext.set node bucketHead[level]?.join
      bucketHead := bucketHead.set level (some node) }

/-- Take a root off the bucket of `level`, if one waits there. -/
def dequeue (s : FrontierScratch) (level : Nat) : Option (Nat × FrontierScratch) :=
  match s.bucketHead[level]?.join with
  | none => none
  | some node =>
    some (node, { s with bucketHead := s.bucketHead.set level s.bucketNext[node]?.join })

end FrontierScratch

namespace DominatorTree

def levelAt (t : DominatorTree) (node : Nat) : Nat := (t.levelOf node).getD 0

def sortByPre (t : DominatorTree) (l : List Nat) : List Nat :=
  l.insertionSort fun a b => (t.pre a).getD 0 ≤ (t.pre b).getD 0

def frontier (t : DominatorTree) (g : GraphView) (node : Nat) : List Nat :=
  let (start, stop) := t.span node
  let out := (t.subtree node).flatMap fun member => (g.successors member).filter fun successor =>
    match t.pre successor with
    | none => false
    | some position => !(start + 1 ≤ position && position < stop)
  (t.sortByPre out).dedup

def judge (t : DominatorTree) (liveIn : Option (Nat → Bool)) (rootLevel : Nat)
    (s : FrontierScratch × List Nat) (successor : Nat) : FrontierScratch × List Nat :=
  if (t.pre successor).isNone || rootLevel < t.levelAt successor || s.1.judged.isMarked successor then s
  else
    let scratch := { s.1 with judged := s.1.judged.mark successor }
    if liveIn.any fun accepts => !accepts successor then (scratch, s.2)
    else (scratch.enqueue successor (t.levelAt successor), s.2 ++ [successor])

/-- Scan the positions of a subtree, past the subtrees of queued nodes met on the way. -/
def scan (t : DominatorTree) (g : GraphView) (liveIn : Option (Nat → Bool)) (rootLevel start stop : Nat) :
    Nat → Nat → FrontierScratch × List Nat → FrontierScratch × List Nat
  | 0, _, s => s
  | fuel + 1, position, s =>
    if position < stop then
      match t.order[position]? with
      | none => s
      | some node =>
        if position ≠ start && s.1.queued.isMarked node then
          t.scan g liveIn rootLevel start stop fuel ((t.last node).getD 0 + 1) s
        else
          t.scan g liveIn rootLevel start stop fuel (position + 1)
            ((g.successors node).foldl (t.judge liveIn rootLevel) s)
    else s

def walkRoot (t : DominatorTree) (g : GraphView) (liveIn : Option (Nat → Bool)) (root : Nat)
    (s : FrontierScratch × List Nat) : FrontierScratch × List Nat :=
  let start := (t.pre root).getD 0
  let stop := (t.last root).getD 0 + 1
  t.scan g liveIn (t.levelAt root) start stop (stop - start) start s

def drainStep (t : DominatorTree) (g : GraphView) (liveIn : Option (Nat → Bool)) (level : Nat)
    (s : FrontierScratch × List Nat) : Option (FrontierScratch × List Nat) :=
  (s.1.dequeue level).map fun next => t.walkRoot g liveIn next.1 (next.2, s.2)

/-- Queue the definitions that lie in the tree. -/
def enqueueDefs (t : DominatorTree) (s : FrontierScratch) (defs : List Nat) : FrontierScratch :=
  defs.foldl (fun s node => if (t.pre node).isSome then s.enqueue node (t.levelAt node) else s) s

def iteratedFrontier (t : DominatorTree) (g : GraphView) (scratch : FrontierScratch) (defs : List Nat)
    (liveIn : Option (Nat → Bool)) : FrontierScratch × List Nat :=
  let scratch := t.enqueueDefs (scratch.begin g.nodeBound) defs
  let (scratch, out) := (List.range scratch.bucketHead.length).reverse.foldl
    (fun s level => iterate (t.drainStep g liveIn level) g.nodeBound s) (scratch, [])
  (scratch, t.sortByPre out)

/-! ## Levels and positions -/

def IsTreeOf (g : GraphView) (root : Nat) (t : DominatorTree) : Prop :=
  root < g.nodeBound ∧ ∃ F, Represents F [root] t ∧ F.bound = g.nodeBound ∧ IsIdomTable g root F.parent

theorem isTreeOf_of_compute {g : RootedView} (hg : g.Lawful) {t : DominatorTree}
    (h : compute g = some t) : IsTreeOf g.toGraphView g.root t := by
  obtain ⟨hbound, hroot⟩ := bounds_of_compute h
  obtain ⟨_, t', F, hrun, hF⟩ := represents_computeFromIn hg hbound hroot .new
  have ht : compute g = some t' := by
    unfold compute computeIn
    rw [hrun]
    rfl
  rw [h] at ht
  cases ht
  exact ⟨hroot, F, hF⟩

variable {g : GraphView} {root : Nat} {t : DominatorTree}

theorem IsTreeOf.isDominance (h : IsTreeOf g root t) : IsDominance g root t := by
  obtain ⟨_, F, hrep, _, htable⟩ := h
  exact isDominance_of_represents hrep htable

section Tree

variable {F : Forest} {roots : List Nat} (hrep : Represents F roots t)
include hrep

variable {v : Nat}

theorem Represents.levelOf_isSome (hv : v ∈ t.order) : (t.levelOf v).isSome := by
  induction hn : F.rank v using Nat.strongRecOn generalizing v with
  | ind n ih =>
    have hlevel := hrep.level_eq hv
    rw [hrep.level_of_mem hv] at hlevel
    cases hp : F.parent v with
    | none =>
      rw [hp] at hlevel
      rw [hlevel]
      rfl
    | some p =>
      rw [hp] at hlevel
      have hpv := hrep.anc_mem_order hv (.step hp .refl)
      dsimp only at hlevel
      rw [hlevel, hrep.level_of_mem hpv, Option.isSome_map]
      exact ih _ (hn ▸ F.rank_lt v p hp) hpv rfl

theorem Represents.levelAt_child {p : Nat} (hv : v ∈ t.order) (hp : F.parent v = some p) :
    t.levelAt v = t.levelAt p + 1 := by
  have hpv := hrep.anc_mem_order hv (.step hp .refl)
  have hlevel := hrep.level_eq hv
  rw [hrep.level_of_mem hv, hp] at hlevel
  dsimp only at hlevel
  rw [hrep.level_of_mem hpv] at hlevel
  obtain ⟨l, hl⟩ := Option.isSome_iff_exists.mp (hrep.levelOf_isSome hpv)
  unfold levelAt
  rw [hlevel, hl]
  rfl

theorem Represents.levelAt_anc {x y : Nat} (hanc : Anc F.parent x y) (hy : y ∈ t.order) :
    x = y ∨ t.levelAt x < t.levelAt y := by
  induction hanc with
  | refl => exact Or.inl rfl
  | @step b c hp hanc ih =>
    have hlt := hrep.levelAt_child hy hp
    rcases ih (hrep.anc_mem_order hy (.step hp .refl)) with rfl | hlt'
    · exact Or.inr (by omega)
    · exact Or.inr (by omega)

theorem Represents.levelAt_le (hlt : ∀ v ∈ t.order, v < F.bound) (hv : v ∈ t.order) :
    t.levelAt v ≤ F.bound := by
  have hcount := hrep.level_count hlt v hv
  rw [hrep.level_of_mem hv] at hcount
  unfold levelAt
  rw [hcount, Option.getD_some]
  exact countP_le_length.trans (le_of_eq length_range)

end Tree

structure TreeFacts (g : GraphView) (root : Nat) (t : DominatorTree) : Prop where
  reachable_iff : ∀ v, (t.pre v).isSome ↔ ReflTransGen g.Edge root v
  lt : ∀ v, ReflTransGen g.Edge root v → v < g.nodeBound
  position : ∀ v k, t.order[k]? = some v ↔ t.pre v = some k
  interval : ∀ x k v, ReflTransGen g.Edge root x → t.order[k]? = some v →
    (((t.pre x).getD 0 ≤ k ∧ k < (t.last x).getD 0 + 1) ↔ Dominates g.Edge root x v)
  interval_le : ∀ x, ReflTransGen g.Edge root x → (t.pre x).getD 0 < (t.last x).getD 0 + 1 ∧
    (t.last x).getD 0 + 1 ≤ t.order.length
  level_lt : ∀ x y, ReflTransGen g.Edge root y → StrictlyDominates g.Edge root x y →
    t.levelAt x < t.levelAt y
  level_le : ∀ v, ReflTransGen g.Edge root v → t.levelAt v ≤ g.nodeBound
  level_test : ∀ x p s, ReflTransGen g.Edge root p → Dominates g.Edge root x p → g.Edge p s →
    (StrictlyDominates g.Edge root x s ↔ t.levelAt x < t.levelAt s)

theorem IsTreeOf.facts (hg : g.Lawful) (h : IsTreeOf g root t) : TreeFacts g root t := by
  have hdom := h.isDominance
  obtain ⟨hroot, F, hrep, hbound, htable⟩ := h
  have hmem : ∀ v, v ∈ t.order ↔ ReflTransGen g.Edge root v := fun v =>
    hrep.isReachable_iff.symm.trans (hdom.isReachable_iff v)
  have hanc : ∀ x v, ReflTransGen g.Edge root v → (Anc F.parent x v ↔ Dominates g.Edge root x v) :=
    fun x v hv => anc_iff_dominates htable hv
  have hlt : ∀ x y, ReflTransGen g.Edge root y → StrictlyDominates g.Edge root x y →
      t.levelAt x < t.levelAt y := by
    intro x y hy hs
    exact (hrep.levelAt_anc ((hanc x y hy).mpr hs.2) ((hmem y).mpr hy)).resolve_left hs.1
  refine ⟨hdom.isReachable_iff, fun v hv => reaches_lt hg hroot hv, fun v k => hrep.pre_eq_some.symm,
    fun x k v hx hk => ?_, fun x hx => ?_, hlt, fun v hv => ?_, fun x p s hp hxp he => ?_⟩
  · have hv : v ∈ t.order := mem_of_getElem? hk
    have hpos := hrep.pre_eq_some.mpr hk
    obtain ⟨before, after, horder, hpre, hlast⟩ := hrep.stretch ((hmem x).mpr hx)
    have hflat := NumberingBuffers.flat_length_pos (F := F) x
    rw [← hanc x v ((hmem v).mp hv), ← hrep.dominates_iff hv]
    rw [hpre, hlast, Option.getD_some, Option.getD_some]
    unfold dominates
    by_cases hxv : x = v
    · subst hxv
      rw [hpre] at hpos
      cases hpos
      rw [if_pos rfl]
      exact iff_of_true ⟨Nat.le_refl _, by omega⟩ rfl
    · rw [if_neg hxv, hpre, hpos, hlast]
      dsimp only
      rw [Bool.and_eq_true, decide_eq_true_iff, decide_eq_true_iff]
      omega
  · obtain ⟨before, after, horder, hpre, hlast⟩ := hrep.stretch ((hmem x).mpr hx)
    have hflat := NumberingBuffers.flat_length_pos (F := F) x
    rw [hpre, hlast, Option.getD_some, Option.getD_some, horder, length_append, length_append]
    omega
  · rw [← hbound]
    refine hrep.levelAt_le (fun u hu => ?_) ((hmem v).mpr hv)
    rw [hbound]
    exact reaches_lt hg hroot ((hmem u).mp hu)
  · have hs : ReflTransGen g.Edge root s := hp.tail he
    refine ⟨hlt x s hs, fun hlevel => ?_⟩
    have hxreach := hxp.reaches hp
    have hne : s ≠ root := by
      rintro rfl
      rcases hrep.levelAt_anc ((hanc s x hxreach).mpr (Dominates.root _ _ _)) ((hmem x).mpr hxreach)
        with rfl | hlt'
      · omega
      · omega
    obtain ⟨d, hd, hidom⟩ := htable.idom_some s hs hne
    have hchild := hrep.levelAt_child ((hmem s).mpr hs) hd
    -- the immediate dominator of the head and `x` both dominate the tail
    have hdp : Dominates g.Edge root d p := hidom.strict.2.of_edge hidom.strict.1 he
    rw [hidom.strictlyDominates_iff hs]
    rcases Anc.linear ((hanc x p hp).mpr hxp) ((hanc d p hp).mpr hdp) with hxd | hdx
    · exact (hanc x d (hdp.reaches hp)).mp hxd
    · rcases hrep.levelAt_anc hdx ((hmem x).mpr hxreach) with rfl | hlt'
      · exact Dominates.refl _ _ _
      · omega

/-! ## One frontier -/

section Frontier

variable (hfacts : TreeFacts g root t)
include hfacts

variable {v x : Nat}

theorem mem_subtree_iff :
    v ∈ t.subtree x ↔ ReflTransGen g.Edge root v ∧ Dominates g.Edge root x v := by
  have hreach : ∀ {k}, t.order[k]? = some v → ReflTransGen g.Edge root v := fun hk => by
    rw [← hfacts.reachable_iff v, (hfacts.position v _).mp hk]
    rfl
  cases hx : t.pre x with
  | none =>
    have hnot : ¬ ReflTransGen g.Edge root x := by
      rw [← hfacts.reachable_iff x, hx]
      simp
    have hempty : t.subtree x = [] := by simp [subtree, span, hx]
    rw [hempty]
    exact ⟨fun h => absurd h not_mem_nil, fun h => absurd (h.2.reaches h.1) hnot⟩
  | some start =>
    have hxreach := (hfacts.reachable_iff x).mp (by rw [hx]; rfl)
    have hspan : t.span x = (start, (t.last x).getD 0 + 1) := by simp [span, hx]
    have hinterval := fun k hk => hfacts.interval x k v hxreach hk
    rw [hx, Option.getD_some] at hinterval
    rw [subtree, hspan, mem_iff_getElem?]
    simp only [getElem?_take, getElem?_drop]
    constructor
    · rintro ⟨i, hi⟩
      split at hi
      · next hlt => exact ⟨hreach hi, (hinterval (start + i) hi).mp ⟨by omega, by omega⟩⟩
      · cases hi
    · rintro ⟨hv, hd⟩
      obtain ⟨k, hk⟩ := Option.isSome_iff_exists.mp ((hfacts.reachable_iff v).mpr hv)
      have hk' := (hfacts.position v k).mpr hk
      obtain ⟨hle, hlt⟩ := (hinterval k hk').mpr hd
      refine ⟨k - start, ?_⟩
      rw [if_pos (by omega), show start + (k - start) = k by omega]
      exact hk'

theorem inside_span_iff {k : Nat} (hx : ReflTransGen g.Edge root x) (hk : t.pre v = some k) :
    ((t.span x).1 + 1 ≤ k ∧ k < (t.span x).2) ↔ StrictlyDominates g.Edge root x v := by
  have hk' := (hfacts.position v k).mpr hk
  obtain ⟨start, hstart⟩ := Option.isSome_iff_exists.mp ((hfacts.reachable_iff x).mpr hx)
  have hspan : t.span x = (start, (t.last x).getD 0 + 1) := by simp [span, hstart]
  have hinterval := hfacts.interval x k v hx hk'
  have hsame : k = start ↔ x = v := by
    constructor
    · rintro rfl
      have := (hfacts.position x k).mpr hstart
      rw [hk'] at this
      exact (Option.some.inj this).symm
    · rintro rfl
      rw [hk] at hstart
      exact Option.some.inj hstart
  rw [hspan]
  rw [hstart, Option.getD_some] at hinterval
  unfold StrictlyDominates
  rw [← hinterval, Ne, ← hsame]
  dsimp only
  omega

theorem mem_frontier_iff {a b : Nat} : b ∈ t.frontier g a ↔ InFrontier g.Edge root a b := by
  unfold frontier sortByPre
  dsimp only
  rw [mem_dedup, mem_insertionSort, mem_flatMap]
  constructor
  · rintro ⟨p, hp, hb⟩
    obtain ⟨hpreach, hdom⟩ := (mem_subtree_iff hfacts).mp hp
    obtain ⟨hsucc, hkept⟩ := mem_filter.mp hb
    have hlt := hfacts.lt p hpreach
    have hedge : g.Edge p b := ⟨hlt, hsucc⟩
    obtain ⟨k, hk⟩ := Option.isSome_iff_exists.mp ((hfacts.reachable_iff b).mpr (hpreach.tail hedge))
    refine ⟨hpreach.tail hedge, ?_, p, hpreach, hedge, hdom⟩
    rw [← inside_span_iff hfacts (hdom.reaches hpreach) hk]
    rw [hk] at hkept
    simp only [Bool.not_eq_true', Bool.and_eq_false_iff, decide_eq_false_iff_not] at hkept
    omega
  · rintro ⟨hbreach, hnot, p, hpreach, hedge, hdom⟩
    obtain ⟨k, hk⟩ := Option.isSome_iff_exists.mp ((hfacts.reachable_iff b).mpr hbreach)
    rw [← inside_span_iff hfacts (hdom.reaches hpreach) hk] at hnot
    refine ⟨p, (mem_subtree_iff hfacts).mpr ⟨hpreach, hdom⟩, mem_filter.mpr ⟨hedge.2, ?_⟩⟩
    rw [hk]
    simp only [Bool.not_eq_true', Bool.and_eq_false_iff, decide_eq_false_iff_not]
    omega

end Frontier

end DominatorTree

/-! ## Buckets of waiting roots -/

namespace FrontierScratch

/-- The links of the buckets denote `lists`, which hold queued nodes below `bound`. -/
structure Buckets (bound : Nat) (lists : Nat → List Nat) (s : FrontierScratch) : Prop where
  denote : ∀ level, Bucket (fun v => s.bucketNext[v]?.join) s.bucketHead[level]?.join (lists level)
  nodup : ∀ level, (lists level).Nodup
  apart : ∀ level level' v, v ∈ lists level → v ∈ lists level' → level = level'
  queued : ∀ level, ∀ v ∈ lists level, s.queued.isMarked v
  queued_room : bound ≤ s.queued.capacity
  judged_room : bound ≤ s.judged.capacity
  next_room : bound ≤ s.bucketNext.length

variable {s : FrontierScratch} {bound : Nat} {lists : Nat → List Nat}

theorem buckets_begin (s : FrontierScratch) (bound : Nat) :
    Buckets bound (fun _ => []) (s.begin bound) ∧ (∀ v, (s.begin bound).queued.isMarked v = false) ∧
      ∀ v, (s.begin bound).judged.isMarked v = false := by
  refine ⟨⟨fun _ => .nil, fun _ => nodup_nil, fun _ _ _ h => absurd h not_mem_nil,
    fun _ _ h => absurd h not_mem_nil, ?_, ?_, ?_⟩, EpochMarks.isMarked_reset _,
    EpochMarks.isMarked_reset _⟩
  · rw [begin, EpochMarks.capacity_reset, EpochMarks.capacity_growTo]
    exact Nat.le_max_right _ _
  · rw [begin, EpochMarks.capacity_reset, EpochMarks.capacity_growTo]
    exact Nat.le_max_right _ _
  · rw [begin, length_append, length_replicate]
    omega

variable {level node : Nat}

theorem enqueue_of_marked (h : s.queued.isMarked node) : s.enqueue node level = s := by
  unfold enqueue
  rw [if_pos h]

theorem mem_update_cons (lists : Nat → List Nat) (node level l v : Nat) :
    v ∈ update lists level (node :: lists level) l ↔ (v = node ∧ l = level) ∨ v ∈ lists l := by
  by_cases hl : l = level
  · subst hl
    rw [update_self, mem_cons]
    simp
  · rw [update_of_ne hl]
    simp [hl]

theorem Buckets.enqueue (h : Buckets bound lists s) (hlt : node < bound)
    (hnew : s.queued.isMarked node = false) (level : Nat) :
    Buckets bound (update lists level (node :: lists level)) (s.enqueue node level) ∧
      (∀ v, (s.enqueue node level).queued.isMarked v ↔ v = node ∨ s.queued.isMarked v) ∧
      (s.enqueue node level).judged = s.judged := by
  have hmarked := s.queued.isMarked_mark (Nat.lt_of_lt_of_le hlt h.queued_room)
  have hout : ∀ l, node ∉ lists l := fun l hm => by
    rw [h.queued l node hm] at hnew
    cases hnew
  unfold FrontierScratch.enqueue
  rw [if_neg (by rw [hnew]; exact Bool.false_ne_true)]
  dsimp only
  generalize hheads : s.bucketHead ++ List.replicate (level + 1 - s.bucketHead.length) none = heads
  -- padding with empty buckets changes no bucket
  have hget : ∀ l : Nat, heads[l]?.join = s.bucketHead[l]?.join := by
    intro l
    rw [← hheads, getElem?_append]
    split
    · rfl
    · next hge =>
      rw [getElem?_replicate, getElem?_eq_none (Nat.not_lt.mp hge)]
      split <;> rfl
  have hlen : level < heads.length := by
    rw [← hheads, length_append, length_replicate]
    omega
  rw [hget level]
  have hroom := h.next_room
  refine ⟨⟨fun l => ?_, fun l => ?_, fun l l' v hv hv' => ?_, fun l v hv => ?_, ?_, h.judged_room, ?_⟩,
    fun v => ?_, rfl⟩
  · have hnext : ∀ v ∈ lists l, (s.bucketNext.set node s.bucketHead[level]?.join)[v]?.join =
        s.bucketNext[v]?.join := by
      intro v hv
      have hne : node ≠ v := fun he => hout l (he ▸ hv)
      rw [getElem?_set_ne hne]
    by_cases hl : l = level
    · subst hl
      rw [update_self, getElem?_set_self hlen]
      refine .cons ?_
      dsimp only
      rw [getElem?_set_self (by omega), Option.join_some]
      exact (h.denote l).congr hnext
    · rw [update_of_ne hl, getElem?_set_ne (Ne.symm hl), hget]
      exact (h.denote l).congr hnext
  · by_cases hl : l = level
    · subst hl
      rw [update_self]
      exact nodup_cons.mpr ⟨hout l, h.nodup l⟩
    · rw [update_of_ne hl]
      exact h.nodup l
  · rw [mem_update_cons] at hv hv'
    rcases hv with ⟨rfl, rfl⟩ | hv <;> rcases hv' with ⟨hnode, rfl⟩ | hv'
    · rfl
    · exact absurd hv' (hout l')
    · exact absurd (hnode ▸ hv) (hout l)
    · exact h.apart l l' v hv hv'
  · rw [mem_update_cons] at hv
    rw [hmarked, Bool.or_eq_true, decide_eq_true_iff]
    exact hv.imp And.left (h.queued l v)
  · rw [EpochMarks.capacity_mark]
    exact h.queued_room
  · rw [length_set]
    exact h.next_room
  · rw [hmarked, Bool.or_eq_true, decide_eq_true_iff]

theorem Buckets.dequeue_none (h : Buckets bound lists s) :
    s.dequeue level = none ↔ lists level = [] := by
  unfold dequeue
  have hdenote := h.denote level
  generalize s.bucketHead[level]?.join = head at hdenote
  generalize lists level = l at hdenote
  cases hdenote with
  | nil => exact ⟨fun _ => rfl, fun _ => rfl⟩
  | cons _ => exact ⟨fun hn => (by cases hn), fun hn => (by cases hn)⟩

theorem Buckets.dequeue (h : Buckets bound lists s) {root : Nat} {s' : FrontierScratch}
    (hs : s.dequeue level = some (root, s')) :
    ∃ rest, lists level = root :: rest ∧ Buckets bound (update lists level rest) s' ∧
      s'.queued = s.queued ∧ s'.judged = s.judged := by
  unfold FrontierScratch.dequeue at hs
  have hdenote := h.denote level
  cases hhead : s.bucketHead[level]?.join with
  | none =>
    rw [hhead] at hs
    cases hs
  | some node =>
    rw [hhead] at hs hdenote
    cases hs
    obtain ⟨rest, hrest⟩ : ∃ rest, lists level = root :: rest ∧
        Bucket (fun v => s.bucketNext[v]?.join) s.bucketNext[root]?.join rest := by
      generalize lists level = l at hdenote
      cases hdenote with
      | cons hb => exact ⟨_, rfl, hb⟩
    obtain ⟨hlist, hbucket⟩ := hrest
    have hlen : level < s.bucketHead.length := by
      by_contra hge
      rw [getElem?_eq_none (Nat.not_lt.mp hge)] at hhead
      cases hhead
    have hsub : ∀ l v, v ∈ update lists level rest l → v ∈ lists l := by
      intro l v hv
      by_cases hl : l = level
      · subst hl
        rw [update_self] at hv
        rw [hlist]
        exact mem_cons_of_mem root hv
      · rwa [update_of_ne hl] at hv
    refine ⟨rest, hlist, ⟨fun l => ?_, fun l => ?_, fun l l' v hv hv' =>
      h.apart l l' v (hsub l v hv) (hsub l' v hv'), fun l v hv => h.queued l v (hsub l v hv),
      h.queued_room, h.judged_room, h.next_room⟩, rfl, rfl⟩
    · by_cases hl : l = level
      · subst hl
        rw [update_self]
        dsimp only
        rw [getElem?_set_self hlen]
        exact hbucket
      · rw [update_of_ne hl]
        dsimp only
        rw [getElem?_set_ne (Ne.symm hl)]
        exact h.denote l
    · by_cases hl : l = level
      · subst hl
        rw [update_self]
        have := h.nodup l
        rw [hlist] at this
        exact (nodup_cons.mp this).2
      · rw [update_of_ne hl]
        exact h.nodup l

end FrontierScratch

/-! ## The level-ordered search -/

namespace DominatorTree

def Accepts (liveIn : Option (Nat → Bool)) (v : Nat) : Prop := ∀ accepts, liveIn = some accepts → accepts v

/-- Every edge out of the region of `x` that the level test accepts has been judged. -/
def Walked (g : GraphView) (root : Nat) (t : DominatorTree) (s : FrontierScratch) (x : Nat) : Prop :=
  ∀ p b, ReflTransGen g.Edge root p → Dominates g.Edge root x p → g.Edge p b →
    t.levelAt b ≤ t.levelAt x → s.judged.isMarked b

/-- A node that has not been taken off a bucket. -/
def Open (t : DominatorTree) (lists : Nat → List Nat) (s : FrontierScratch) (v : Nat) : Prop :=
  s.queued.isMarked v → v ∈ lists (t.levelAt v)

/-- The search under way: levels from `top` on are done, and `hole` is being walked. -/
structure Searching (g : GraphView) (root : Nat) (t : DominatorTree) (defs live : Nat → Prop) (top : Nat)
    (hole : Option Nat) (lists : Nat → List Nat) (s : FrontierScratch × List Nat) : Prop where
  buckets : s.1.Buckets g.nodeBound lists
  levels : ∀ l, ∀ v ∈ lists l, t.levelAt v = l
  above : ∀ l, top ≤ l → lists l = []
  queued_iff : ∀ v, s.1.queued.isMarked v ↔ ReflTransGen g.Edge root v ∧ (defs v ∨ v ∈ s.2)
  out_iff : ∀ v, v ∈ s.2 ↔ s.1.judged.isMarked v ∧ live v
  sound : ∀ v ∈ s.2, IteratedFrontier g.Edge root defs live v
  nodup : s.2.Nodup
  walked : ∀ v, s.1.queued.isMarked v → some v ≠ hole → v ∈ lists (t.levelAt v) ∨ Walked g root t s.1 v

/-- What a part of the walk keeps: marks stay, and no root is taken off a bucket. -/
structure Grows (t : DominatorTree) (lists lists' : Nat → List Nat) (s s' : FrontierScratch × List Nat) :
    Prop where
  judged : ∀ v, s.1.judged.isMarked v → s'.1.judged.isMarked v
  queued : ∀ v, s.1.queued.isMarked v → s'.1.queued.isMarked v
  opened : ∀ v, Open t lists' s'.1 v ↔ Open t lists s.1 v

theorem Grows.refl (t : DominatorTree) (lists : Nat → List Nat) (s : FrontierScratch × List Nat) :
    Grows t lists lists s s := ⟨fun _ h => h, fun _ h => h, fun _ => Iff.rfl⟩

theorem Grows.trans {t : DominatorTree} {lists lists' lists'' : Nat → List Nat}
    {s s' s'' : FrontierScratch × List Nat} (h : Grows t lists lists' s s')
    (h' : Grows t lists' lists'' s' s'') : Grows t lists lists'' s s'' :=
  ⟨fun v hv => h'.judged v (h.judged v hv), fun v hv => h'.queued v (h.queued v hv),
    fun v => (h'.opened v).trans (h.opened v)⟩

theorem Walked.mono {s s' : FrontierScratch} (h : ∀ v, s.judged.isMarked v → s'.judged.isMarked v) {x : Nat}
    (hw : Walked g root t s x) : Walked g root t s' x :=
  fun p b hp hd he hl => h b (hw p b hp hd he hl)

theorem any_not_accepts {liveIn : Option (Nat → Bool)} {v : Nat} :
    (liveIn.any fun accepts => !accepts v) = true ↔ ¬ Accepts liveIn v := by
  cases liveIn with
  | none => simp [Accepts]
  | some accepts => simp [Accepts]

section Walk

variable (hfacts : TreeFacts g root t) {defs : Nat → Prop} {liveIn : Option (Nat → Bool)} {x : Nat}
include hfacts

variable {s : FrontierScratch × List Nat} {p : Nat} {lists : Nat → List Nat}

theorem Searching.judge (h : Searching g root t defs (Accepts liveIn) (t.levelAt x + 1) (some x) lists s)
    (hx : s.1.queued.isMarked x) {b : Nat} (hp : ReflTransGen g.Edge root p)
    (hdom : Dominates g.Edge root x p) (he : g.Edge p b) :
    ∃ lists', Searching g root t defs (Accepts liveIn) (t.levelAt x + 1) (some x) lists'
        (t.judge liveIn (t.levelAt x) s b) ∧ Grows t lists lists' s (t.judge liveIn (t.levelAt x) s b) ∧
      (t.levelAt b ≤ t.levelAt x → (t.judge liveIn (t.levelAt x) s b).1.judged.isMarked b) := by
  have hb : ReflTransGen g.Edge root b := hp.tail he
  have hpre := (hfacts.reachable_iff b).mpr hb
  have hlt := hfacts.lt b hb
  unfold DominatorTree.judge
  rw [show (t.pre b).isNone = false by rw [Option.isNone_eq_false_iff]; exact hpre, Bool.false_or]
  split
  · next hskip =>
    rw [Bool.or_eq_true, decide_eq_true_iff] at hskip
    exact ⟨lists, h, .refl t lists s, fun hle => hskip.resolve_left (by omega)⟩
  · next hnew =>
    rw [Bool.or_eq_true, decide_eq_true_iff, not_or, Bool.not_eq_true] at hnew
    obtain ⟨hlevel, hnew⟩ := hnew
    have hmark := s.1.judged.isMarked_mark (Nat.lt_of_lt_of_le hlt h.buckets.judged_room)
    have hmarked : ∀ v, (s.1.judged.mark b).isMarked v ↔ v = b ∨ s.1.judged.isMarked v := fun v => by
      rw [hmark, Bool.or_eq_true, decide_eq_true_iff]
    have hjudged : ∀ v, s.1.judged.isMarked v → (s.1.judged.mark b).isMarked v := fun v hv =>
      (hmarked v).mpr (Or.inr hv)
    have hbout : b ∉ s.2 := fun hmem => by
      rw [((h.out_iff b).mp hmem).1] at hnew
      cases hnew
    have hroom : g.nodeBound ≤ (s.1.judged.mark b).capacity := by
      rw [EpochMarks.capacity_mark]
      exact h.buckets.judged_room
    dsimp only
    split
    · next hdead =>
      rw [any_not_accepts] at hdead
      refine ⟨lists, ⟨⟨h.buckets.denote, h.buckets.nodup, h.buckets.apart, h.buckets.queued,
        h.buckets.queued_room, hroom, h.buckets.next_room⟩, h.levels, h.above, h.queued_iff, fun v => ?_,
        h.sound, h.nodup, fun v hv hne => (h.walked v hv hne).imp_right (Walked.mono hjudged)⟩,
        ⟨hjudged, fun _ hv => hv, fun _ => Iff.rfl⟩, fun _ => (hmarked b).mpr (Or.inl rfl)⟩
      rw [h.out_iff, hmarked]
      exact ⟨fun ⟨hj, hl⟩ => ⟨Or.inr hj, hl⟩, fun ⟨hj, hl⟩ =>
        ⟨hj.resolve_left fun heq => hdead (heq ▸ hl), hl⟩⟩
    · next hlive =>
      rw [any_not_accepts, not_not] at hlive
      have hfrontier : InFrontier g.Edge root x b :=
        ⟨hb, fun hs => hlevel ((hfacts.level_test x p b hp hdom he).mp hs), p, hp, he, hdom⟩
      have hroot := ((h.queued_iff x).mp hx).2
      have hsound : IteratedFrontier g.Edge root defs (Accepts liveIn) b :=
        IteratedFrontier.closed (hroot.imp_right (h.sound x)) hfrontier hlive
      have hout : ∀ v, v ∈ s.2 ++ [b] ↔ v = b ∨ v ∈ s.2 := fun v => by
        rw [mem_append, mem_singleton, or_comm]
      have hnodup : (s.2 ++ [b]).Nodup :=
        nodup_append.mpr ⟨h.nodup, nodup_singleton b, fun a ha c hc heq => by
          rw [heq, mem_singleton.mp hc] at ha
          exact hbout ha⟩
      have hsound' : ∀ v ∈ s.2 ++ [b], IteratedFrontier g.Edge root defs (Accepts liveIn) v := by
        intro v hv
        rcases (hout v).mp hv with rfl | hv
        · exact hsound
        · exact h.sound v hv
      have hout_iff : ∀ v, v ∈ s.2 ++ [b] ↔ (s.1.judged.mark b).isMarked v ∧ Accepts liveIn v := by
        intro v
        rw [hout, hmarked, h.out_iff]
        constructor
        · rintro (rfl | ⟨hj, hl⟩)
          · exact ⟨Or.inl rfl, hlive⟩
          · exact ⟨Or.inr hj, hl⟩
        · rintro ⟨rfl | hj, hl⟩
          · exact Or.inl rfl
          · exact Or.inr ⟨hj, hl⟩
      have hbuckets : FrontierScratch.Buckets g.nodeBound lists
          { s.1 with judged := s.1.judged.mark b } :=
        ⟨h.buckets.denote, h.buckets.nodup, h.buckets.apart, h.buckets.queued, h.buckets.queued_room,
          hroom, h.buckets.next_room⟩
      by_cases hq : s.1.queued.isMarked b
      · rw [FrontierScratch.enqueue_of_marked (s := { s.1 with judged := s.1.judged.mark b }) hq]
        refine ⟨lists, ⟨hbuckets, h.levels, h.above, fun v => ?_, hout_iff, hsound', hnodup,
          fun v hv hne => (h.walked v hv hne).imp_right (Walked.mono hjudged)⟩,
          ⟨hjudged, fun _ hv => hv, fun _ => Iff.rfl⟩, fun _ => (hmarked b).mpr (Or.inl rfl)⟩
        rw [hout]
        refine ⟨fun hv => ((h.queued_iff v).mp hv).imp_right (Or.imp_right Or.inr), fun ⟨hreach, hv⟩ => ?_⟩
        rcases hv with hd | rfl | hv
        · exact (h.queued_iff v).mpr ⟨hreach, Or.inl hd⟩
        · exact hq
        · exact (h.queued_iff v).mpr ⟨hreach, Or.inr hv⟩
      · obtain ⟨hbuckets', hqueued, hsame⟩ := hbuckets.enqueue hlt (by simpa using hq) (t.levelAt b)
        generalize FrontierScratch.enqueue _ b (t.levelAt b) = s' at hbuckets' hqueued hsame
        have hmem := FrontierScratch.mem_update_cons lists b (t.levelAt b)
        have hjudged' : ∀ v, s'.judged.isMarked v ↔ v = b ∨ s.1.judged.isMarked v := fun v => by
          rw [hsame]
          exact hmarked v
        refine ⟨_, ⟨hbuckets', fun l v hv => ?_, fun l hl => ?_, fun v => ?_, fun v => ?_, hsound', hnodup,
          fun v hv hne => ?_⟩, ⟨fun v hv => (hjudged' v).mpr (Or.inr hv),
          fun v hv => (hqueued v).mpr (Or.inr hv), fun v => ?_⟩, fun _ => (hjudged' b).mpr (Or.inl rfl)⟩
        · rcases (hmem l v).mp hv with ⟨rfl, rfl⟩ | hv
          · rfl
          · exact h.levels l v hv
        · rw [update_of_ne (by omega)]
          exact h.above l hl
        · rw [hout, hqueued]
          constructor
          · rintro (rfl | hv)
            · exact ⟨hb, Or.inr (Or.inl rfl)⟩
            · exact ((h.queued_iff v).mp hv).imp_right (Or.imp_right Or.inr)
          · rintro ⟨hreach, hd | rfl | hv⟩
            · exact Or.inr ((h.queued_iff v).mpr ⟨hreach, Or.inl hd⟩)
            · exact Or.inl rfl
            · exact Or.inr ((h.queued_iff v).mpr ⟨hreach, Or.inr hv⟩)
        · rw [hout_iff, hmarked, hjudged']
        · rw [hmem]
          rcases (hqueued v).mp hv with rfl | hv
          · exact Or.inl (Or.inl ⟨rfl, rfl⟩)
          · exact (h.walked v hv hne).imp Or.inr
              (Walked.mono fun u hu => (hjudged' u).mpr (Or.inr hu))
        · unfold Open
          rw [hqueued, hmem]
          constructor
          · intro ho hv
            exact (ho (Or.inr hv)).resolve_left fun ⟨heq, _⟩ => hq (heq ▸ hv)
          · rintro ho (rfl | hv)
            · exact Or.inl ⟨rfl, rfl⟩
            · exact Or.inr (ho hv)

theorem Searching.judges (hp : ReflTransGen g.Edge root p) (hdom : Dominates g.Edge root x p)
    {l : List Nat} (hl : ∀ b ∈ l, g.Edge p b) :
    ∀ {lists : Nat → List Nat} {s : FrontierScratch × List Nat},
      Searching g root t defs (Accepts liveIn) (t.levelAt x + 1) (some x) lists s →
      s.1.queued.isMarked x → ∃ lists' s', l.foldl (t.judge liveIn (t.levelAt x)) s = s' ∧
        Searching g root t defs (Accepts liveIn) (t.levelAt x + 1) (some x) lists' s' ∧
        Grows t lists lists' s s' ∧
        ∀ b ∈ l, t.levelAt b ≤ t.levelAt x → s'.1.judged.isMarked b := by
  induction l with
  | nil => exact fun {lists s} h _ => ⟨lists, s, rfl, h, .refl t lists s,
      fun _ hb => absurd hb not_mem_nil⟩
  | cons b l ih =>
    intro lists s h hx
    obtain ⟨lists₁, h₁, hgrows₁, hjudged⟩ := h.judge hfacts hx hp hdom (hl b mem_cons_self)
    obtain ⟨lists₂, s₂, hrun, h₂, hgrows₂, hall⟩ :=
      ih (fun c hc => hl c (mem_cons_of_mem b hc)) h₁ (hgrows₁.queued x hx)
    refine ⟨lists₂, s₂, hrun, h₂, hgrows₁.trans hgrows₂, fun c hc hle => ?_⟩
    rcases mem_cons.mp hc with rfl | hc
    · exact hgrows₂.judged c (hjudged hle)
    · exact hall c hc hle

/-- The edges out of the nodes at positions from `first` to before `last` are judged. -/
def Covered (g : GraphView) (t : DominatorTree) (x first last : Nat) (s : FrontierScratch) : Prop :=
  ∀ k p b, first ≤ k → k < last → t.order[k]? = some p → g.Edge p b → t.levelAt b ≤ t.levelAt x →
    s.judged.isMarked b

theorem Searching.scan (hx : ReflTransGen g.Edge root x) (fuel : Nat) :
    ∀ {position : Nat} {lists : Nat → List Nat} {s : FrontierScratch × List Nat},
      Searching g root t defs (Accepts liveIn) (t.levelAt x + 1) (some x) lists s →
      s.1.queued.isMarked x → (t.pre x).getD 0 ≤ position → (t.last x).getD 0 + 1 - position ≤ fuel →
      Covered g t x ((t.pre x).getD 0) position s.1 → ∃ lists' s',
        t.scan g liveIn (t.levelAt x) ((t.pre x).getD 0) ((t.last x).getD 0 + 1) fuel position s = s' ∧
        Searching g root t defs (Accepts liveIn) (t.levelAt x + 1) (some x) lists' s' ∧
        Grows t lists lists' s s' ∧
        Covered g t x ((t.pre x).getD 0) ((t.last x).getD 0 + 1) s'.1 := by
  have hpos := (hfacts.interval_le x hx).2
  induction fuel with
  | zero =>
    intro position lists s h _ _ hfuel hcovered
    exact ⟨lists, s, rfl, h, .refl t lists s, fun k p b hk hlt => hcovered k p b hk (by omega)⟩
  | succ fuel ih =>
    intro position lists s h hq hstart hfuel hcovered
    by_cases hlt : position < (t.last x).getD 0 + 1
    · obtain ⟨node, hnode⟩ : ∃ node, t.order[position]? = some node :=
        ⟨_, getElem?_eq_getElem (by omega)⟩
      have hpre := (hfacts.position node position).mp hnode
      have hreach : ReflTransGen g.Edge root node := (hfacts.reachable_iff node).mp (by rw [hpre]; rfl)
      have hdom := (hfacts.interval x position node hx hnode).mp ⟨hstart, hlt⟩
      rw [DominatorTree.scan, if_pos hlt, hnode]
      dsimp only
      split
      · next hskip =>
        rw [Bool.and_eq_true, decide_eq_true_iff] at hskip
        obtain ⟨hne, hmarked⟩ := hskip
        have hxn : x ≠ node := by
          rintro rfl
          rw [hpre] at hne
          exact hne rfl
        -- a queued node below the root is deeper, so its walk is over
        have hdeeper := hfacts.level_lt x node hreach ⟨hxn, hdom⟩
        have hwalked : Walked g root t s.1 node := by
          refine (h.walked node hmarked fun he => hxn (Option.some.inj he).symm).resolve_left ?_
          rw [h.above _ (by omega)]
          exact not_mem_nil
        have hbeyond := (hfacts.interval_le node hreach).1
        rw [hpre, Option.getD_some] at hbeyond
        refine ih h hq (by omega) (by omega) fun k p b hk hklt hkp he hle => ?_
        by_cases hbefore : k < position
        · exact hcovered k p b hk hbefore hkp he hle
        · have hkpre := (hfacts.position p k).mp hkp
          have hpreach : ReflTransGen g.Edge root p :=
            (hfacts.reachable_iff p).mp (by rw [hkpre]; rfl)
          have hnp := (hfacts.interval node k p hreach hkp).mp (by
            rw [hpre, Option.getD_some]
            omega)
          exact hwalked p b hpreach hnp he (by omega)
      · obtain ⟨lists₁, s₁, hrun₁, h₁, hgrows₁, hall⟩ := h.judges hfacts hreach hdom
          (fun b hb => ⟨hfacts.lt node hreach, hb⟩) hq
        rw [hrun₁]
        obtain ⟨lists₂, s₂, hrun₂, h₂, hgrows₂, hcovered₂⟩ :=
          @ih (position + 1) lists₁ s₁ h₁ (hgrows₁.queued x hq) (by omega) (by omega)
            (fun k p b hk hklt hkp he hle => by
            by_cases hbefore : k < position
            · exact hgrows₁.judged b (hcovered k p b hk hbefore hkp he hle)
            · have hkeq : k = position := by omega
              subst hkeq
              rw [hnode] at hkp
              cases hkp
              exact hall b he.2 hle)
        exact ⟨lists₂, s₂, hrun₂, h₂, hgrows₁.trans hgrows₂, hcovered₂⟩
    · rw [DominatorTree.scan, if_neg hlt]
      exact ⟨lists, s, rfl, h, .refl t lists s, fun k p b hk hklt => hcovered k p b hk (by omega)⟩

theorem Searching.walkRoot (h : Searching g root t defs (Accepts liveIn) (t.levelAt x + 1) (some x) lists s)
    (hx : s.1.queued.isMarked x) : ∃ lists',
      Searching g root t defs (Accepts liveIn) (t.levelAt x + 1) none lists' (t.walkRoot g liveIn x s) ∧
      ∀ v, Open t lists' (t.walkRoot g liveIn x s).1 v ↔ Open t lists s.1 v := by
  have hreach := ((h.queued_iff x).mp hx).1
  obtain ⟨lists', s', hrun, h', hgrows, hcovered⟩ := h.scan hfacts hreach
    ((t.last x).getD 0 + 1 - (t.pre x).getD 0) hx (Nat.le_refl _) (Nat.le_refl _)
    fun k p b hk hlt => absurd hk (Nat.not_le.mpr hlt)
  unfold DominatorTree.walkRoot
  dsimp only
  rw [hrun]
  refine ⟨lists', ⟨h'.buckets, h'.levels, h'.above, h'.queued_iff, h'.out_iff, h'.sound, h'.nodup,
    fun v hv _ => ?_⟩, hgrows.opened⟩
  by_cases hvx : v = x
  · subst hvx
    refine Or.inr fun p b hp hdom he hle => ?_
    obtain ⟨k, hk⟩ := Option.isSome_iff_exists.mp ((hfacts.reachable_iff p).mpr hp)
    have hkp := (hfacts.position p k).mpr hk
    obtain ⟨hstart, hstop⟩ := (hfacts.interval v k p hreach hkp).mpr hdom
    exact hcovered k p b hstart hstop hkp he hle
  · exact h'.walked v hv fun he => hvx (Option.some.inj he)

omit hfacts in
theorem Searching.lower {level : Nat} {lists : Nat → List Nat} {s : FrontierScratch × List Nat}
    {live : Nat → Prop} (h : Searching g root t defs live (level + 1) none lists s)
    (hempty : lists level = []) : Searching g root t defs live level none lists s :=
  ⟨h.buckets, h.levels, fun l hl => (Nat.eq_or_lt_of_le hl).elim (fun he => he ▸ hempty) (h.above l),
    h.queued_iff, h.out_iff, h.sound, h.nodup, h.walked⟩

/-- The roots of one level; `closed` lists those that have been taken. -/
theorem Searching.drain {level : Nat} (n : Nat) :
    ∀ {closed : List Nat} {lists : Nat → List Nat} {s : FrontierScratch × List Nat},
      Searching g root t defs (Accepts liveIn) (level + 1) none lists s → closed.Nodup →
      (∀ v ∈ closed, ¬ Open t lists s.1 v) → g.nodeBound ≤ closed.length + n →
      ∃ lists', Searching g root t defs (Accepts liveIn) level none lists'
        (iterate (t.drainStep g liveIn level) n s) := by
  -- a waiting root is a node below the bound that is not closed
  have hroom : ∀ {closed : List Nat} {lists : Nat → List Nat} {s : FrontierScratch × List Nat} {v : Nat},
      Searching g root t defs (Accepts liveIn) (level + 1) none lists s → closed.Nodup →
      (∀ v ∈ closed, ¬ Open t lists s.1 v) → v ∈ lists level → closed.length < g.nodeBound := by
    intro closed lists s v h hnodup hclosed hv
    have hopen : Open t lists s.1 v := fun _ => by
      rw [h.levels level v hv]
      exact hv
    have hlt : ∀ u, s.1.queued.isMarked u → u < g.nodeBound := fun u hu =>
      hfacts.lt u ((h.queued_iff u).mp hu).1
    have hall : ∀ u ∈ v :: closed, u ∈ List.range g.nodeBound := by
      intro u hu
      rw [mem_range]
      rcases mem_cons.mp hu with rfl | hu
      · exact hlt u (h.buckets.queued level u hv)
      · refine hlt u ?_
        by_contra hno
        exact hclosed u hu fun hq => absurd hq hno
    have hle := ((nodup_cons.mpr ⟨fun hm => hclosed v hm hopen, hnodup⟩).subperm hall).length_le
    rwa [length_cons, length_range] at hle
  induction n with
  | zero =>
    intro closed lists s h hnodup hclosed hbound
    refine ⟨lists, h.lower (eq_nil_iff_forall_not_mem.mpr fun v hv => ?_)⟩
    have := hroom h hnodup hclosed hv
    omega
  | succ n ih =>
    intro closed lists s h hnodup hclosed hbound
    cases hs : s.1.dequeue level with
    | none =>
      have hstep : t.drainStep g liveIn level s = none := by
        unfold drainStep
        rw [hs]
        rfl
      rw [iterate_of_none hstep]
      exact ⟨lists, h.lower (h.buckets.dequeue_none.mp hs)⟩
    | some next =>
      obtain ⟨x, scratch⟩ := next
      have hstep : t.drainStep g liveIn level s = some (t.walkRoot g liveIn x (scratch, s.2)) := by
        unfold drainStep
        rw [hs]
        rfl
      rw [iterate_of_some hstep]
      obtain ⟨rest, hlist, hbuckets, hqueued, hjudged⟩ := h.buckets.dequeue hs
      have hx : x ∈ lists level := by
        rw [hlist]
        exact mem_cons_self
      have hxq := h.buckets.queued level x hx
      have hlevel := h.levels level x hx
      have hxrest : x ∉ rest := by
        have := h.buckets.nodup level
        rw [hlist] at this
        exact (nodup_cons.mp this).1
      have hmem : ∀ l v, v ∈ update lists level rest l ↔ v ∈ lists l ∧ ¬ (l = level ∧ v = x) := by
        intro l v
        by_cases hl : l = level
        · subst hl
          rw [update_self, hlist, mem_cons]
          constructor
          · exact fun hv => ⟨Or.inr hv, fun ⟨_, he⟩ => hxrest (he ▸ hv)⟩
          · exact fun ⟨hv, hne⟩ => hv.resolve_left fun he => hne ⟨rfl, he⟩
        · rw [update_of_ne hl]
          simp [hl]
      have hstart : Searching g root t defs (Accepts liveIn) (t.levelAt x + 1) (some x)
          (update lists level rest) (scratch, s.2) := by
        rw [hlevel]
        refine ⟨hbuckets, fun l v hv => h.levels l v ((hmem l v).mp hv).1, fun l hl => ?_, fun v => ?_,
          fun v => ?_, h.sound, h.nodup, fun v hv hne => ?_⟩
        · rw [update_of_ne (by omega)]
          exact h.above l hl
        · dsimp only
          rw [hqueued]
          exact h.queued_iff v
        · dsimp only
          rw [hjudged]
          exact h.out_iff v
        · dsimp only at hv ⊢
          rw [hqueued] at hv
          refine (h.walked v hv (fun he => by cases he)).imp (fun hw => (hmem _ v).mpr ⟨hw, fun he => ?_⟩)
            (Walked.mono fun u hu => by rwa [hjudged])
          exact hne (congrArg some he.2)
      obtain ⟨lists', h', hopen⟩ := hstart.walkRoot hfacts (by rwa [hqueued])
      rw [hlevel] at h'
      have hclosed' : ∀ v ∈ x :: closed, ¬ Open t (update lists level rest) scratch v := by
        intro v hv ho
        unfold Open at ho
        rw [hqueued] at ho
        rcases mem_cons.mp hv with rfl | hv
        · exact ((hmem _ v).mp (ho hxq)).2 ⟨hlevel, rfl⟩
        · exact hclosed v hv fun hq => ((hmem _ v).mp (ho hq)).1
      refine ih h' (nodup_cons.mpr ⟨fun hm => hclosed x hm fun _ => ?_, hnodup⟩)
        (fun v hv => fun ho => hclosed' v hv ((hopen v).mp ho)) ?_
      · rw [hlevel]
        exact hx
      · rw [length_cons]
        omega

theorem Searching.drains (m : Nat) : ∀ {lists : Nat → List Nat} {s : FrontierScratch × List Nat},
      Searching g root t defs (Accepts liveIn) m none lists s →
      ∃ lists', Searching g root t defs (Accepts liveIn) 0 none lists' ((List.range m).reverse.foldl
          (fun s level => iterate (t.drainStep g liveIn level) g.nodeBound s) s) := by
  induction m with
  | zero => exact fun {lists s} h => ⟨lists, h⟩
  | succ m ih =>
    intro lists s h
    rw [range_succ, reverse_append, reverse_singleton, singleton_append,
      foldl_cons]
    obtain ⟨lists', h'⟩ := h.drain hfacts g.nodeBound nodup_nil
      (fun _ hv => absurd hv not_mem_nil) (by simp)
    exact ih h'

theorem enqueueDefs_spec (scratch : FrontierScratch) (defs : List Nat) :
    ∃ lists, (t.enqueueDefs (scratch.begin g.nodeBound) defs).Buckets g.nodeBound lists ∧
      (∀ l, ∀ v ∈ lists l, t.levelAt v = l) ∧
      (∀ v, (t.enqueueDefs (scratch.begin g.nodeBound) defs).queued.isMarked v ↔
        ReflTransGen g.Edge root v ∧ v ∈ defs) ∧
      (∀ v, (t.enqueueDefs (scratch.begin g.nodeBound) defs).queued.isMarked v → v ∈ lists (t.levelAt v)) ∧
      ∀ v, (t.enqueueDefs (scratch.begin g.nodeBound) defs).judged.isMarked v = false := by
  induction defs using List.reverseRecOn with
  | nil =>
    obtain ⟨hbuckets, hqueued, hjudged⟩ := FrontierScratch.buckets_begin scratch g.nodeBound
    refine ⟨fun _ => [], hbuckets, fun _ _ hv => absurd hv not_mem_nil, fun v => ?_, fun v hv => ?_,
      hjudged⟩
    · change (scratch.begin g.nodeBound).queued.isMarked v = true ↔ _
      rw [hqueued]
      simp
    · change (scratch.begin g.nodeBound).queued.isMarked v = true at hv
      rw [hqueued] at hv
      cases hv
  | append_singleton defs node ih =>
    obtain ⟨lists, hbuckets, hlevels, hqueued, hwaits, hjudged⟩ := ih
    have hstep : t.enqueueDefs (scratch.begin g.nodeBound) (defs ++ [node]) =
        if (t.pre node).isSome then
          (t.enqueueDefs (scratch.begin g.nodeBound) defs).enqueue node (t.levelAt node)
        else t.enqueueDefs (scratch.begin g.nodeBound) defs := by
      unfold enqueueDefs
      rw [foldl_append]
      rfl
    rw [hstep]
    generalize t.enqueueDefs (scratch.begin g.nodeBound) defs = s at hbuckets hqueued hwaits hjudged
    have hmem : ∀ v, ReflTransGen g.Edge root v ∧ v ∈ defs ++ [node] ↔
        (v = node ∧ ReflTransGen g.Edge root node) ∨ s.queued.isMarked v := by
      intro v
      rw [hqueued, mem_append, mem_singleton]
      constructor
      · rintro ⟨hreach, hv | rfl⟩
        · exact Or.inr ⟨hreach, hv⟩
        · exact Or.inl ⟨rfl, hreach⟩
      · rintro (⟨rfl, hreach⟩ | ⟨hreach, hv⟩)
        · exact ⟨hreach, Or.inr rfl⟩
        · exact ⟨hreach, Or.inl hv⟩
    split
    · next hpre =>
      have hreach := (hfacts.reachable_iff node).mp hpre
      by_cases hq : s.queued.isMarked node
      · rw [FrontierScratch.enqueue_of_marked hq]
        refine ⟨lists, hbuckets, hlevels, fun v => ?_, hwaits, hjudged⟩
        rw [hmem]
        exact ⟨Or.inr, fun h => h.elim (fun he => he.1 ▸ hq) id⟩
      · obtain ⟨hbuckets', hqueued', hsame⟩ :=
          hbuckets.enqueue (hfacts.lt node hreach) (by simpa using hq) (t.levelAt node)
        have hupdate := FrontierScratch.mem_update_cons lists node (t.levelAt node)
        refine ⟨_, hbuckets', fun l v hv => ?_, fun v => ?_, fun v hv => ?_, fun v => ?_⟩
        · rcases (hupdate l v).mp hv with ⟨rfl, rfl⟩ | hv
          · rfl
          · exact hlevels l v hv
        · rw [hmem, hqueued']
          exact ⟨fun h => h.imp_left fun he => ⟨he, hreach⟩, fun h => h.imp_left And.left⟩
        · rw [hupdate]
          rcases (hqueued' v).mp hv with rfl | hv
          · exact Or.inl ⟨rfl, rfl⟩
          · exact Or.inr (hwaits v hv)
        · rw [hsame]
          exact hjudged v
    · next hpre =>
      refine ⟨lists, hbuckets, hlevels, fun v => ?_, hwaits, hjudged⟩
      rw [hmem]
      exact ⟨Or.inr, fun h => h.resolve_left fun he => hpre ((hfacts.reachable_iff node).mpr he.2)⟩

theorem searching_enqueueDefs (scratch : FrontierScratch) (defs : List Nat) (liveIn : Option (Nat → Bool)) :
    ∃ lists, Searching g root t (· ∈ defs) (Accepts liveIn)
      (t.enqueueDefs (scratch.begin g.nodeBound) defs).bucketHead.length none lists
      (t.enqueueDefs (scratch.begin g.nodeBound) defs, []) := by
  obtain ⟨lists, hbuckets, hlevels, hqueued, hwaits, hjudged⟩ := enqueueDefs_spec hfacts scratch defs
  refine ⟨lists, hbuckets, hlevels, fun l hl => ?_, fun v => ?_, fun v => ?_,
    fun _ hv => absurd hv not_mem_nil, nodup_nil, fun v hv _ => Or.inl (hwaits v hv)⟩
  · have hdenote := hbuckets.denote l
    rw [getElem?_eq_none hl] at hdenote
    generalize lists l = waiting at hdenote
    cases hdenote with
    | nil => rfl
  · rw [hqueued]
    simp
  · rw [hjudged]
    simp

theorem iteratedFrontier_spec (scratch : FrontierScratch) (defs : List Nat) (b : Nat) :
    (b ∈ (t.iteratedFrontier g scratch defs liveIn).2 ↔
      IteratedFrontier g.Edge root (· ∈ defs) (Accepts liveIn) b) ∧
    (t.iteratedFrontier g scratch defs liveIn).2.Nodup := by
  obtain ⟨lists, hstart⟩ := searching_enqueueDefs hfacts scratch defs liveIn
  obtain ⟨lists', h⟩ := hstart.drains hfacts
  unfold iteratedFrontier sortByPre
  dsimp only
  generalize (List.range _).reverse.foldl _ _ = s at h
  rw [mem_insertionSort]
  refine ⟨⟨h.sound b, IteratedFrontier.least fun a b ha hf hl => ?_⟩,
    (perm_insertionSort _ _).nodup_iff.mpr h.nodup⟩
  -- every bucket is empty, so every root has been walked
  have hq : s.1.queued.isMarked a := (h.queued_iff a).mpr ⟨hf.reaches, ha⟩
  have hwalked : Walked g root t s.1 a := by
    refine (h.walked a hq (fun he => by cases he)).resolve_left ?_
    rw [h.above _ (Nat.zero_le _)]
    exact not_mem_nil
  obtain ⟨_, hnot, p, hp, he, hdom⟩ := hf
  refine (h.out_iff b).mpr ⟨hwalked p b hp hdom he ?_, hl⟩
  rw [hfacts.level_test a p b hp hdom he] at hnot
  omega

end Walk

end DominatorTree

end CfgLib.Dominator

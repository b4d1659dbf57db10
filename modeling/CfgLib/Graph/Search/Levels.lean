import CfgLib.Graph.Search.Paths
import Mathlib.Data.Finset.Card

/-!
# The breadth-first discipline

A globally marked queue is read level by level: the nodes at distance `k` from
the seeds, in the order they are discovered, come before those at distance
`k + 1`.
-/

namespace CfgLib

open Lib List

/-- The nodes of a list not seen before, each once. -/
def discovered (seen : Finset Nat) : List Nat → List Nat
  | [] => []
  | n :: rest => if n ∈ seen then discovered seen rest else n :: discovered (insert n seen) rest

theorem discovered_cons (seen : Finset Nat) (n : Nat) (l : List Nat) : discovered seen (n :: l) =
    if n ∈ seen then discovered seen l else n :: discovered (insert n seen) l := rfl

theorem mem_discovered {l : List Nat} : ∀ {seen : Finset Nat} {n : Nat}, n ∈ discovered seen l ↔ n ∈ l ∧ n ∉ seen := by
  induction l with
  | nil => exact fun {seen n} => by simp [discovered]
  | cons m l ih =>
    intro seen n
    rw [discovered_cons]
    by_cases hm : m ∈ seen
    · rw [if_pos hm, ih, mem_cons]
      refine and_congr_left fun hn => (or_iff_right fun heq => ?_).symm
      subst heq
      exact hn hm
    · rw [if_neg hm, mem_cons, ih, mem_cons, Finset.mem_insert]
      by_cases heq : n = m
      · subst heq
        simp [hm]
      · simp [heq]

theorem nodup_discovered {l : List Nat} : ∀ {seen : Finset Nat}, (discovered seen l).Nodup := by
  induction l with
  | nil => exact .nil
  | cons m l ih =>
    intro seen
    rw [discovered_cons]
    split
    · exact ih
    · refine nodup_cons.mpr ⟨fun hmem => ?_, ih⟩
      rw [mem_discovered] at hmem
      exact hmem.2 (Finset.mem_insert_self m seen)

theorem discovered_append (l l' : List Nat) : ∀ seen : Finset Nat,
    discovered seen (l ++ l') = discovered seen l ++ discovered (seen ∪ l.toFinset) l' := by
  induction l with
  | nil => exact fun seen => by simp [discovered]
  | cons m l ih =>
    intro seen
    rw [cons_append, discovered_cons, discovered_cons, toFinset_cons, ih, ih]
    by_cases hm : m ∈ seen
    · rw [if_pos hm, if_pos hm, Finset.union_insert, Finset.insert_eq_of_mem (Finset.mem_union_left _ hm)]
    · rw [if_neg hm, if_neg hm, cons_append, Finset.insert_union, Finset.union_insert]

namespace GraphView

variable (g : GraphView) (d : TraversalDirection) (seeds : List Nat)

def Hops : Nat → Nat → Prop
  | 0, n => n ∈ seeds
  | k + 1, n => ∃ m, Hops k m ∧ n ∈ g.neighbors d m

def AtDistance (k n : Nat) : Prop := g.Hops d seeds k n ∧ ∀ j < k, ¬ g.Hops d seeds j n

/-- What has been seen when a level is known, and the level. -/
def levelOf : Nat → Finset Nat × List Nat
  | 0 => (seeds.toFinset, discovered ∅ seeds)
  | k + 1 =>
    let next := (levelOf k).2.flatMap (g.neighbors d)
    ((levelOf k).1 ∪ next.toFinset, discovered (levelOf k).1 next)

variable {g d seeds}

theorem mem_levelOf (k : Nat) : (∀ n, n ∈ (g.levelOf d seeds k).1 ↔ ∃ j ≤ k, g.Hops d seeds j n) ∧
    ∀ n, n ∈ (g.levelOf d seeds k).2 ↔ g.AtDistance d seeds k n := by
  induction k with
  | zero =>
    refine ⟨fun n => ?_, fun n => ?_⟩
    · rw [levelOf, mem_toFinset]
      constructor
      · exact fun hn => ⟨0, le_rfl, hn⟩
      · intro h
        obtain ⟨j, hj, hops⟩ := h
        obtain rfl := Nat.le_zero.mp hj
        exact hops
    · rw [levelOf, mem_discovered, AtDistance]
      exact ⟨fun h => ⟨h.1, fun j hj => absurd hj (Nat.not_lt_zero j)⟩, fun h => ⟨h.1, Finset.notMem_empty n⟩⟩
  | succ k ih =>
    obtain ⟨hseen, hlevel⟩ := ih
    have hnext : ∀ n, n ∈ (g.levelOf d seeds k).2.flatMap (g.neighbors d) ↔
        ∃ m, g.AtDistance d seeds k m ∧ n ∈ g.neighbors d m := fun n => by
      rw [mem_flatMap]
      exact exists_congr fun m => and_congr_left fun _ => hlevel m
    -- a hop from a node that is nearer leads to a node that is nearer
    have hstep : ∀ n, g.Hops d seeds (k + 1) n → (∃ j ≤ k, g.Hops d seeds j n) ∨
        ∃ m, g.AtDistance d seeds k m ∧ n ∈ g.neighbors d m := by
      intro n hn
      obtain ⟨m, hm, hnm⟩ := hn
      by_cases hnear : ∃ j < k, g.Hops d seeds j m
      · obtain ⟨j, hj, hops⟩ := hnear
        exact Or.inl ⟨j + 1, hj, m, hops, hnm⟩
      · exact Or.inr ⟨m, ⟨hm, fun j hj hops => hnear ⟨j, hj, hops⟩⟩, hnm⟩
    refine ⟨fun n => ?_, fun n => ?_⟩
    · rw [levelOf]
      dsimp only
      rw [Finset.mem_union, mem_toFinset, hseen, hnext]
      constructor
      · intro h
        rcases h with ⟨j, hj, hops⟩ | ⟨m, hm, hnm⟩
        · exact ⟨j, Nat.le_succ_of_le hj, hops⟩
        · exact ⟨k + 1, le_rfl, m, hm.1, hnm⟩
      · intro h
        obtain ⟨j, hj, hops⟩ := h
        rcases Nat.lt_or_eq_of_le hj with hlt | rfl
        · exact Or.inl ⟨j, Nat.lt_succ_iff.mp hlt, hops⟩
        · exact hstep n hops
    · rw [levelOf]
      dsimp only
      rw [mem_discovered, hnext, hseen, AtDistance]
      constructor
      · intro h
        obtain ⟨⟨m, hm, hnm⟩, hfar⟩ := h
        exact ⟨⟨m, hm.1, hnm⟩, fun j hj hops => hfar ⟨j, Nat.lt_succ_iff.mp hj, hops⟩⟩
      · intro h
        have hfar : ¬ ∃ j ≤ k, g.Hops d seeds j n := fun hnear => by
          obtain ⟨j, hj, hops⟩ := hnear
          exact h.2 j (Nat.lt_succ_of_le hj) hops
        exact ⟨(hstep n h.1).resolve_left hfar, hfar⟩

theorem nodup_levelOf (k : Nat) : (g.levelOf d seeds k).2.Nodup := by
  cases k with
  | zero => exact nodup_discovered
  | succ k => exact nodup_discovered

variable {n : Nat}

theorem Hops.lt (hg : g.Lawful) (hseeds : ∀ seed ∈ seeds, seed < g.nodeBound) {k : Nat} (h : g.Hops d seeds k n) :
    n < g.nodeBound := by
  induction k generalizing n with
  | zero => exact hseeds n h
  | succ k ih =>
    obtain ⟨m, hm, hnm⟩ := h
    exact hg.neighbors_lt d (ih hm) hnm

theorem AtDistance.unique {k j : Nat} (h : g.AtDistance d seeds k n) (h' : g.AtDistance d seeds j n) : k = j := by
  rcases Nat.lt_trichotomy k j with hlt | heq | hlt
  · exact absurd h.1 (h'.2 k hlt)
  · exact heq
  · exact absurd h'.1 (h.2 j hlt)

def levelsBelow (g : GraphView) (d : TraversalDirection) (seeds : List Nat) (n : Nat) : List (Nat × Nat) :=
  (List.range n).flatMap fun k => (g.levelOf d seeds k).2.map (·, k)

theorem mem_levelsBelow {e : Nat × Nat} :
    e ∈ g.levelsBelow d seeds n ↔ e.2 < n ∧ g.AtDistance d seeds e.2 e.1 := by
  rw [levelsBelow, mem_flatMap]
  constructor
  · intro h
    obtain ⟨k, hk, he⟩ := h
    obtain ⟨m, hm, rfl⟩ := mem_map.mp he
    exact ⟨mem_range.mp hk, ((mem_levelOf k).2 m).mp hm⟩
  · intro h
    exact ⟨e.2, mem_range.mpr h.1, mem_map.mpr ⟨e.1, ((mem_levelOf e.2).2 e.1).mpr h.2, rfl⟩⟩

theorem levelsBelow_succ (n : Nat) : g.levelsBelow d seeds (n + 1) =
    g.levelsBelow d seeds n ++ (g.levelOf d seeds n).2.map (·, n) := by
  rw [levelsBelow, range_succ, flatMap_append, flatMap_singleton]
  rfl

theorem pairwise_levelsBelow (n : Nat) :
    (g.levelsBelow d seeds n).Pairwise fun e e' => e.1 ≠ e'.1 ∧ e.2 ≤ e'.2 := by
  induction n with
  | zero => exact .nil
  | succ n ih =>
    rw [levelsBelow_succ, pairwise_append]
    refine ⟨ih, ?_, fun e he e' he' => ?_⟩
    · rw [pairwise_map]
      exact (nodup_levelOf n).imp fun hne => ⟨hne, le_rfl⟩
    · obtain ⟨m, hm, rfl⟩ := mem_map.mp he'
      obtain ⟨hlt, hdist⟩ := mem_levelsBelow.mp he
      refine ⟨fun heq => ?_, hlt.le⟩
      have hm' := ((mem_levelOf n).2 m).mp hm
      rw [show e.1 = m from heq] at hdist
      have := hdist.unique hm'
      omega

end GraphView

/-! ## The run -/

namespace Searching

variable {σ β : Type} {g : GraphView}

/-- A globally marked search that has seen the nodes `seen` and still has to read `queue`. -/
structure Reading (g : GraphView) (seen : Finset Nat) (queue : List (Nat × Nat)) (s : σ) (w : Searching σ β) : Prop where
  broke : w.broke = none
  queue : w.buffers.frontier.drop w.head = queue
  head : w.head ≤ w.buffers.frontier.length
  marked : ∀ i, w.marks.isMarked i = true ↔ i ∈ seen
  capacity : g.nodeBound ≤ w.marks.capacity
  captured : w.captured = s

variable {l : List Nat} {depth : Nat}

theorem Reading.enqueue (hl : ∀ n ∈ l, n < g.nodeBound) :
    ∀ {seen : Finset Nat} {queue : List (Nat × Nat)} {s : σ} {w : Searching σ β}, Reading g seen queue s w →
      Reading g (seen ∪ l.toFinset) (queue ++ (discovered seen l).map (·, depth)) s (w.enqueue depth l) := by
  induction l with
  | nil =>
    intro seen queue s w h
    rw [toFinset_nil, Finset.union_empty, discovered, map_nil, append_nil]
    exact h
  | cons n l ih =>
    intro seen queue s w h
    have hrest := fun n' hn' => hl n' (mem_cons_of_mem n hn')
    rw [Searching.enqueue, discovered_cons, toFinset_cons, Finset.union_insert]
    by_cases hn : n ∈ seen
    · rw [if_pos ((h.marked n).mpr hn), if_pos hn, Finset.insert_eq_of_mem (Finset.mem_union_left _ hn)]
      exact ih hrest h
    · rw [if_neg fun hm => hn ((h.marked n).mp hm), if_neg hn, map_cons, append_cons, ← Finset.insert_union]
      refine ih hrest ⟨h.broke, ?_, ?_, fun i => ?_, ?_, h.captured⟩
      · dsimp only
        rw [drop_append_of_le_length h.head, h.queue]
      · dsimp only
        rw [length_append]
        exact Nat.le_add_right_of_le h.head
      · dsimp only
        rw [w.marks.isMarked_mark ((hl n mem_cons_self).trans_le h.capacity), Bool.or_eq_true, decide_eq_true_iff,
          h.marked, Finset.mem_insert]
      · exact (w.marks.capacity_mark n).symm ▸ h.capacity

theorem Reading.turn (config : SearchConfig) (v : Nat → Nat → σ → σ) (hg : g.Lawful) {seen : Finset Nat} {node : Nat} {queue : List (Nat × Nat)} {s : σ}
    {w : Searching σ β} (hnode : node < g.nodeBound) (h : Reading g seen ((node, depth) :: queue) s w) :
    ∃ w', breadthFirstGlobal g config (descending v) w = some w' ∧
      if mayExpand config.maxDepth depth then Reading g (seen ∪ (g.neighbors config.direction node).toFinset)
        (queue ++ (discovered seen (g.neighbors config.direction node)).map (·, depth + 1)) (v node depth s) w'
      else Reading g seen queue (v node depth s) w' := by
  have hget : w.buffers.frontier[w.head]? = some (node, depth) := by
    have := congrArg (·[0]?) h.queue
    rwa [getElem?_drop, getElem?_cons_zero, Nat.add_zero] at this
  have hdrop : w.buffers.frontier.drop (w.head + 1) = queue := by
    rw [← drop_drop, h.queue]
    rfl
  obtain ⟨hlt, -⟩ := List.getElem?_eq_some_iff.mp hget
  have hread : Reading g seen queue (v node depth s) { w with head := w.head + 1, captured := v node depth w.captured } :=
    ⟨h.broke, hdrop, hlt, h.marked, h.capacity, by rw [h.captured]⟩
  have hturn : breadthFirstGlobal g config (descending v) w = some (if mayExpand config.maxDepth depth then
      Searching.enqueue (depth + 1) (g.neighbors config.direction node)
        { w with head := w.head + 1, captured := v node depth w.captured }
      else { w with head := w.head + 1, captured := v node depth w.captured }) := by
    rw [breadthFirstGlobal, h.broke, hget]
    rfl
  refine ⟨_, hturn, ?_⟩
  split
  · exact hread.enqueue fun n hn => hg.neighbors_lt _ hnode hn
  · exact hread

theorem Reading.level (config : SearchConfig) (v : Nat → Nat → σ → σ) (hg : g.Lawful) (hexpand : mayExpand config.maxDepth depth = true) :
    (∀ n ∈ l, n < g.nodeBound) → ∀ {seen : Finset Nat} {queue : List (Nat × Nat)} {s : σ} {w : Searching σ β},
      Reading g seen (l.map (·, depth) ++ queue) s w →
        ∃ k w', Steps (breadthFirstGlobal g config (descending v)) k w w' ∧
          Reading g (seen ∪ (l.flatMap (g.neighbors config.direction)).toFinset)
            (queue ++ (discovered seen (l.flatMap (g.neighbors config.direction))).map (·, depth + 1))
            (visits v (l.map (·, depth)) s) w' := by
  induction l with
  | nil =>
    intro _ seen queue s w h
    refine ⟨0, w, .zero w, ?_⟩
    rw [flatMap_nil, toFinset_nil, Finset.union_empty, discovered, map_nil, append_nil]
    exact h
  | cons n l ih =>
    intro hl seen queue s w h
    rw [map_cons, cons_append] at h
    obtain ⟨w₁, hturn, h₁⟩ := h.turn config v hg (hl n mem_cons_self)
    rw [if_pos hexpand, append_assoc] at h₁
    obtain ⟨k, w₂, hsteps, h₂⟩ := ih (fun n' hn' => hl n' (mem_cons_of_mem n hn')) h₁
    refine ⟨k + 1, w₂, .succ hturn hsteps, ?_⟩
    rw [flatMap_cons, discovered_append, toFinset_append, ← Finset.union_assoc, map_append,
      ← append_assoc]
    exact h₂

theorem Reading.last (config : SearchConfig) (v : Nat → Nat → σ → σ) (hg : g.Lawful) (hexpand : mayExpand config.maxDepth depth = false) :
    (∀ n ∈ l, n < g.nodeBound) → ∀ {seen : Finset Nat} {s : σ} {w : Searching σ β},
      Reading g seen (l.map (·, depth)) s w →
        ∃ k w', Steps (breadthFirstGlobal g config (descending v)) k w w' ∧
          Reading g seen [] (visits v (l.map (·, depth)) s) w' := by
  induction l with
  | nil => exact fun _ {seen s w} h => ⟨0, w, .zero w, h⟩
  | cons n l ih =>
    intro hl seen s w h
    obtain ⟨w₁, hturn, h₁⟩ := h.turn config v hg (hl n mem_cons_self)
    rw [hexpand, if_neg Bool.false_ne_true] at h₁
    obtain ⟨k, w₂, hsteps, h₂⟩ := ih (fun n' hn' => hl n' (mem_cons_of_mem n hn')) h₁
    exact ⟨k + 1, w₂, .succ hturn hsteps, h₂⟩

/-- After the levels below `n` the search is about to read level `n`. -/
theorem Reading.levels (config : SearchConfig) (v : Nat → Nat → σ → σ) (hg : g.Lawful) {seeds : List Nat} (hseeds : ∀ seed ∈ seeds, seed < g.nodeBound) {s : σ}
    {w : Searching σ β} (h : Reading g (g.levelOf config.direction seeds 0).1
      ((g.levelOf config.direction seeds 0).2.map (·, 0)) s w) (n : Nat)
    (hexpand : ∀ k < n, mayExpand config.maxDepth k = true) :
    ∃ k w', Steps (breadthFirstGlobal g config (descending v)) k w w' ∧ Reading g (g.levelOf config.direction seeds n).1
      ((g.levelOf config.direction seeds n).2.map (·, n)) (visits v (g.levelsBelow config.direction seeds n) s) w' := by
  induction n with
  | zero => exact ⟨0, w, .zero w, h⟩
  | succ n ih =>
    obtain ⟨k, w₁, hsteps, h₁⟩ := ih fun j hj => hexpand j (Nat.lt_succ_of_lt hj)
    rw [← append_nil ((g.levelOf config.direction seeds n).2.map (·, n))] at h₁
    obtain ⟨l, w₂, hsteps', h₂⟩ := h₁.level config v hg (hexpand n (Nat.lt_succ_self n)) fun m hm =>
      (((GraphView.mem_levelOf n).2 m).mp hm).1.lt hg hseeds
    refine ⟨k + l, w₂, hsteps.trans hsteps', ?_⟩
    rw [GraphView.levelsBelow_succ, visits_append]
    exact h₂

end Searching

variable {g : GraphView} {seeds : List Nat}

theorem GraphView.exists_levelOf_nil (hg : g.Lawful) {d : TraversalDirection}
    (hseeds : ∀ seed ∈ seeds, seed < g.nodeBound) : ∃ n, (g.levelOf d seeds n).2 = [] := by
  by_contra hall
  have hne : ∀ n, (g.levelOf d seeds n).2 ≠ [] := fun n heq => hall ⟨n, heq⟩
  -- levels that are not empty hold more and more nodes
  have hlength : ∀ n, n ≤ (g.levelsBelow d seeds n).length := by
    intro n
    induction n with
    | zero => exact Nat.zero_le _
    | succ n ih =>
      rw [levelsBelow_succ, length_append, length_map]
      have := length_pos_iff.mpr (hne n)
      omega
  have hnodup : ((g.levelsBelow d seeds (g.nodeBound + 1)).map (·.1)).Nodup := by
    rw [List.Nodup, pairwise_map]
    exact (pairwise_levelsBelow _).imp fun h => h.1
  have hle := length_le_of_nodup hnodup fun n hn => by
    obtain ⟨e, he, rfl⟩ := mem_map.mp hn
    exact (mem_levelsBelow.mp he).2.1.lt hg hseeds
  rw [length_map] at hle
  have := hlength (g.nodeBound + 1)
  omega

theorem GraphView.not_atDistance_of_nil {d : TraversalDirection} {n : Nat}
    (hnil : (g.levelOf d seeds n).2 = []) {k : Nat} (hk : n ≤ k) (m : Nat) : ¬ g.AtDistance d seeds k m := by
  have hall : (g.levelOf d seeds k).2 = [] := by
    induction k, hk using Nat.le_induction with
    | base => exact hnil
    | succ k _ ih =>
      rw [levelOf, ih]
      rfl
  intro h
  have := ((mem_levelOf k).2 m).mpr h
  rw [hall] at this
  cases this

/-- A queue search visits each node within the bound once, with its distance, in the order of the
distances. -/
theorem searchIn_breadthFirst (hg : g.Lawful)
    (hseeds : ∀ seed ∈ seeds, seed < g.nodeBound) (config : SearchConfig) (horder : config.order = .breadthFirst)
    (hvisited : config.visited = .global) : ∃ log : List (Nat × Nat),
      (log.Pairwise fun e e' => e.1 ≠ e'.1 ∧ e.2 ≤ e'.2) ∧
      (∀ n k, (n, k) ∈ log ↔ g.AtDistance config.direction seeds k n ∧ config.maxDepth.all (k ≤ ·) = true) ∧
      Visits g seeds config log := by
  have hstart : ∀ {σ β : Type} (marks : EpochMarks), g.nodeBound ≤ marks.capacity → ∀ s : σ,
      Searching.Reading g (g.levelOf config.direction seeds 0).1 ((g.levelOf config.direction seeds 0).2.map (·, 0)) s
        (Searching.enqueue (β := β) 0 seeds ⟨marks.reset, ⟨seeds, [], [], []⟩, 0, s, none⟩) := by
    intro σ β marks hcapacity s
    have hempty : Searching.Reading (β := β) g ∅ [] s ⟨marks.reset, ⟨seeds, [], [], []⟩, 0, s, none⟩ := by
      refine ⟨rfl, rfl, le_rfl, fun i => ?_, ?_, rfl⟩
      · rw [marks.isMarked_reset]
        exact iff_of_false Bool.false_ne_true (Finset.notMem_empty i)
      · rw [marks.capacity_reset]
        exact hcapacity
    have hseeded : Searching.Reading g (∅ ∪ seeds.toFinset) ([] ++ (discovered ∅ seeds).map (·, 0)) s
        (Searching.enqueue (β := β) 0 seeds ⟨marks.reset, ⟨seeds, [], [], []⟩, 0, s, none⟩) := hempty.enqueue hseeds
    rwa [Finset.empty_union, nil_append] at hseeded
  have hend : ∀ {σ β : Type} {seen : Finset Nat} {s : σ} {w : Searching σ β} (v : Nat → Nat → σ → σ),
      Searching.Reading g seen [] s w → Searching.breadthFirstGlobal g config (descending v) w = none := by
    intro σ β seen s w v hw
    have hget : w.buffers.frontier[w.head]? = none := getElem?_eq_none (drop_eq_nil_iff.mp hw.queue)
    rw [Searching.breadthFirstGlobal, hw.broke, hget]
  have hrun : ∀ {σ β : Type} marks buffers v s k (w w' : Searching σ β), g.nodeBound ≤ EpochMarks.capacity marks →
      Searching.enqueue 0 seeds ⟨marks.reset, ⟨seeds, [], [], []⟩, 0, s, none⟩ = w →
      Steps (Searching.breadthFirstGlobal g config (descending v)) k w w' →
      Searching.breadthFirstGlobal g config (descending v) w' = none → ∀ fuel, k ≤ fuel →
        searchIn fuel g seeds config marks buffers (descending v) s = some w' := by
    intro σ β marks buffers v s k w w' hcapacity hw hsteps hexit fuel hfuel
    rw [searchIn, if_pos (ready_of_lt hseeds hcapacity), horder, hvisited, ← hsteps.iterate_eq hexit hfuel, ← hw]
    rfl
  cases hmax : config.maxDepth with
  | none =>
    obtain ⟨n, hn⟩ := GraphView.exists_levelOf_nil hg (d := config.direction) hseeds
    refine ⟨g.levelsBelow config.direction seeds n, GraphView.pairwise_levelsBelow n, fun m k => ?_,
      fun σ β marks hcapacity buffers v s => ?_⟩
    · rw [GraphView.mem_levelsBelow]
      constructor
      · exact fun h => ⟨h.2, rfl⟩
      · refine fun h => ⟨?_, h.1⟩
        by_contra hk
        exact GraphView.not_atDistance_of_nil hn (not_lt.mp hk) m h.1
    · obtain ⟨k, w, hsteps, hw⟩ := (hstart marks hcapacity s).levels config v hg hseeds n
        fun j _ => by rw [hmax]; rfl
      rw [hn, map_nil] at hw
      exact ⟨k, fun fuel hfuel => ⟨w, hrun marks buffers v s k _ w hcapacity rfl hsteps (hend v hw) fuel hfuel, hw.broke,
        hw.captured⟩⟩
  | some limit =>
    refine ⟨g.levelsBelow config.direction seeds (limit + 1), GraphView.pairwise_levelsBelow _, fun m k => ?_,
      fun σ β marks hcapacity buffers v s => ?_⟩
    · rw [GraphView.mem_levelsBelow, Option.all_some, decide_eq_true_iff, Nat.lt_succ_iff, and_comm]
    · obtain ⟨k, w, hsteps, hw⟩ := (hstart marks hcapacity s).levels config v hg hseeds limit
        fun j hj => by rw [hmax]; exact decide_eq_true hj
      obtain ⟨l, w', hsteps', hw'⟩ := hw.last config v hg (by rw [hmax]; exact decide_eq_false (lt_irrefl limit))
        fun m hm => (((GraphView.mem_levelOf limit).2 m).mp hm).1.lt hg hseeds
      refine ⟨k + l, fun fuel hfuel => ⟨w', hrun marks buffers v s (k + l) _ w' hcapacity rfl (hsteps.trans hsteps')
        (hend v hw') fuel hfuel, hw'.broke, ?_⟩⟩
      rw [hw'.captured, GraphView.levelsBelow_succ, visits_append]

end CfgLib

import CfgLib.Graph.View
import CfgLib.Lib.Cycles
import CfgLib.Lib.Horn
import CfgLib.Lib.Topological

/-!
# Topological order

`graph/traverse.rs`: nodes are taken once no entry from a node still to be taken leads to
them; a counter for each node holds how many such entries there are.
-/

namespace CfgLib

open CfgLib.Lib Relation List

/-- The counters, the nodes ready to be taken, and the nodes taken. -/
structure Sorting where
  counts : Nat → Nat
  queue : List Nat
  order : List Nat

namespace Sorting

/-- One entry less leads to a node; `none` is the panic on a counter that would drop below zero. -/
def release (s : Sorting) (successor : Nat) : Option Sorting :=
  match s.counts successor with
  | 0 => none
  | count + 1 => some ⟨Function.update s.counts successor count,
      if count = 0 then s.queue ++ [successor] else s.queue, s.order⟩

/-- Take the nodes of the queue until it is empty. -/
def drain (g : GraphView) : Nat → Sorting → Option Sorting
  | 0, _ => none
  | fuel + 1, s =>
    match s.queue with
    | [] => some s
    | node :: queue => ((g.successors node).foldlM release ⟨s.counts, queue, s.order ++ [node]⟩).bind (drain g fuel)

end Sorting

/-- How many entries lead to each live node. -/
def incomingCounts (g : GraphView) (n : Nat) : Nat := if n ∈ g.nodeIds then (g.predecessors n).length else 0

/-- The live nodes in topological order, or the inner `none` when that takes not all of them; the
outer `none` is a panic. -/
def topologicalSort (g : GraphView) (fuel : Nat) : Option (Option (List Nat)) :=
  (Sorting.drain g fuel ⟨incomingCounts g, g.nodeIds.filter (incomingCounts g · = 0), []⟩).map fun s =>
    if s.order.length = g.nodeIds.length then some s.order else none

namespace Sorting

variable {g : GraphView} {s : Sorting} {pending : List Nat} {node : Nat} {queue : List Nat}

/-- The entries `pending` of the node taken last are still to be released. -/
structure Counted (g : GraphView) (pending : List Nat) (s : Sorting) : Prop where
  counts : ∀ n ∈ g.nodeIds, s.counts n = (g.predecessors n).countP (· ∉ s.order) + pending.count n
  nodup : (s.order ++ s.queue).Nodup
  ready : ∀ n, n ∈ s.order ++ s.queue ↔ n ∈ g.nodeIds ∧ s.counts n = 0
  ordered : Topological g.Edge s.order

theorem counted_start (h : g.Lawful) :
    Counted g [] ⟨incomingCounts g, g.nodeIds.filter (incomingCounts g · = 0), []⟩ where
  counts n hn := by
    simp [incomingCounts, hn]
  nodup := h.nodeIds_nodup.filter _
  ready n := by simp
  ordered := topological_nil

theorem Counted.release {successor : Nat} (hs : Counted g (successor :: pending) s) (hlive : successor ∈ g.nodeIds) :
    ∃ s', s.release successor = some s' ∧ Counted g pending s' ∧ s'.order = s.order := by
  have hcount := hs.counts successor hlive
  rw [count_cons_self] at hcount
  obtain ⟨count, hc⟩ : ∃ count, s.counts successor = count + 1 := ⟨_, hcount.trans (Nat.add_assoc _ _ 1).symm⟩
  have hnot : successor ∉ s.order ++ s.queue := by
    rw [hs.ready]
    omega
  refine ⟨⟨Function.update s.counts successor count, if count = 0 then s.queue ++ [successor] else s.queue, s.order⟩,
    by simp only [Sorting.release, hc], ⟨fun n hn => ?_, ?_, fun n => ?_, hs.ordered⟩, rfl⟩
  · have hold := hs.counts n hn
    by_cases he : n = successor
    · subst he
      simp only [Function.update_self]
      omega
    · simp only [Function.update_of_ne he]
      rw [hold, count_cons_of_ne (Ne.symm he)]
  · dsimp only
    split
    · rw [← append_assoc]
      rw [← concat_eq_append]
      exact hs.nodup.concat hnot
    · exact hs.nodup
  · have hready := hs.ready n
    by_cases he : n = successor
    · subst he
      simp only [Function.update_self]
      split
      · next hzero => simp [hzero, hlive]
      · next hne => exact iff_of_false hnot (by simp [hne])
    · simp only [Function.update_of_ne he]
      rw [← hready]
      split
      · simp [he]
      · rfl

theorem Counted.releaseAll (hs : Counted g pending s) (hlive : ∀ n ∈ pending, n ∈ g.nodeIds) :
    ∃ s', pending.foldlM Sorting.release s = some s' ∧ Counted g [] s' ∧ s'.order = s.order := by
  induction pending generalizing s with
  | nil => exact ⟨s, rfl, hs, rfl⟩
  | cons successor pending ih =>
    obtain ⟨hsuccessor, hrest⟩ := forall_mem_cons.mp hlive
    obtain ⟨s', hrelease, hs', horder⟩ := hs.release hsuccessor
    obtain ⟨s'', hrun, hs'', horder'⟩ := ih hs' hrest
    refine ⟨s'', ?_, hs'', horder'.trans horder⟩
    rw [foldlM_cons, hrelease]
    exact hrun

theorem Counted.take (h : g.Lawful) (hs : Counted g [] s) (hqueue : s.queue = node :: queue) :
    Counted g (g.successors node) ⟨s.counts, queue, s.order ++ [node]⟩ := by
  have hjoin : s.order ++ s.queue = s.order ++ [node] ++ queue := by rw [hqueue]; simp
  have hmem : node ∈ s.order ++ s.queue := by rw [hjoin]; simp
  have hnodup := hs.nodup
  obtain ⟨hlive, hzero⟩ := (hs.ready node).mp hmem
  have hfresh : node ∉ s.order := by
    rw [hqueue] at hnodup
    exact fun ho => (nodup_append.mp hnodup).2.2 node ho node mem_cons_self rfl
  refine ⟨fun n hn => ?_, ?_, fun n => ?_, ?_⟩
  · have hsplit : (g.predecessors n).countP (· ∉ s.order) =
        (g.predecessors n).countP (· ∉ s.order ++ [node]) + (g.predecessors n).count node := by
      have hinsert := countP_insert (P := (· ∈ s.order)) hfresh (g.predecessors n)
      simpa using hinsert
    rw [hs.counts n hn, hsplit, h.transpose node n (h.nodeIds_lt node hlive) (h.nodeIds_lt n hn)]
    rfl
  · rw [← hjoin]
    exact hnodup
  · rw [← hjoin]
    exact hs.ready n
  · refine hs.ordered.concat fun v hv => ?_
    have hnone := hs.counts node hlive
    rw [hzero, count_nil, Nat.add_zero, eq_comm, countP_eq_zero] at hnone
    have hpred := (h.mem_predecessors (h.nodeIds_lt node hlive)).mpr hv
    simpa using hnone v hpred

theorem Counted.length_le (hs : Counted g pending s) : s.order.length ≤ g.nodeIds.length := by
  have hnodup := (nodup_append.mp hs.nodup).1
  have hsub : s.order ⊆ g.nodeIds := fun n hn => ((hs.ready n).mp (mem_append_left _ hn)).1
  exact (subperm_of_subset hnodup hsub).length_le

theorem drain_of_empty {room fuel : Nat} (hqueue : s.queue = []) (hfuel : room < fuel) : drain g fuel s = some s := by
  obtain ⟨fuel, rfl⟩ : ∃ k, fuel = k + 1 := ⟨fuel - 1, by omega⟩
  simp only [drain, hqueue]

theorem Counted.drain (h : g.Lawful) {room : Nat} (hs : Counted g [] s) (hroom : g.nodeIds.length ≤ room + s.order.length) :
    ∃ s', (∀ fuel, room < fuel → Sorting.drain g fuel s = some s') ∧ Counted g [] s' ∧ s'.queue = [] := by
  induction room generalizing s with
  | zero =>
    cases hqueue : s.queue with
    | nil => exact ⟨s, fun fuel hfuel => drain_of_empty hqueue hfuel, hs, hqueue⟩
    | cons node queue =>
      have hle := (hs.take h hqueue).length_le
      rw [length_append, length_singleton] at hle
      omega
  | succ room ih =>
    cases hqueue : s.queue with
    | nil => exact ⟨s, fun fuel hfuel => drain_of_empty hqueue hfuel, hs, hqueue⟩
    | cons node queue =>
      have hmem : node ∈ s.order ++ s.queue := by rw [hqueue]; simp
      have hlive := ((hs.ready node).mp hmem).1
      obtain ⟨s', hrelease, hs', horder⟩ := (hs.take h hqueue).releaseAll (h.successors_live node hlive)
      obtain ⟨s'', hrun, hs''⟩ := ih hs' (by rw [horder, length_append, length_singleton]; omega)
      refine ⟨s'', fun fuel hfuel => ?_, hs''⟩
      obtain ⟨fuel, rfl⟩ : ∃ k, fuel = k + 1 := ⟨fuel - 1, by omega⟩
      simp only [Sorting.drain, hqueue, hrelease, Option.bind_some]
      exact hrun fuel (by omega)

/-- What is not taken when the queue is empty lies on cycles or after them. -/
theorem Counted.exists_cycle (h : g.Lawful) (hs : Counted g [] s) (hqueue : s.queue = [])
    (hshort : s.order.length ≠ g.nodeIds.length) : ∃ n ∈ g.nodeIds, TransGen g.Edge n n := by
  by_contra hacyclic
  push Not at hacyclic
  have hsub : s.order ⊆ g.nodeIds := fun n hn => ((hs.ready n).mp (mem_append_left _ hn)).1
  have hne : g.nodeIds.filter (· ∉ s.order) ≠ [] := by
    intro hnil
    have hall : g.nodeIds ⊆ s.order := by
      intro n hn
      have := filter_eq_nil_iff.mp hnil n hn
      simpa using this
    exact hshort (Nat.le_antisymm hs.length_le (subperm_of_subset h.nodeIds_nodup hall).length_le)
  obtain ⟨m, hm, hfirst⟩ := exists_first (R := g.Edge) (fun a ha => hacyclic a (mem_of_mem_filter ha)) hne
  obtain ⟨hlive, hout⟩ := mem_filter.mp hm
  -- a node not taken has an entry from another one
  have hcount : s.counts m ≠ 0 := by
    intro hzero
    have hmem := (hs.ready m).mpr ⟨hlive, hzero⟩
    rw [hqueue, append_nil] at hmem
    exact absurd hmem (of_decide_eq_true hout)
  rw [hs.counts m hlive, count_nil, Nat.add_zero] at hcount
  obtain ⟨p, hp, hpout⟩ := countP_pos_iff.mp (Nat.pos_of_ne_zero hcount)
  have hplive := h.predecessors_live m hlive p hp
  exact hfirst p (mem_filter.mpr ⟨hplive, hpout⟩)
    (TransGen.single ((h.mem_predecessors (h.nodeIds_lt m hlive)).mp hp))

end Sorting

/-- No counter drops below zero; an order lists each live node once, after the sources of the edges
into it, and none is returned iff the live nodes contain a cycle. -/
theorem topologicalSort_spec {g : GraphView} (h : g.Lawful) : ∃ result,
    (∀ fuel, g.nodeIds.length < fuel → topologicalSort g fuel = some result) ∧
    (result = none ↔ ∃ n ∈ g.nodeIds, TransGen g.Edge n n) ∧
    ∀ order, result = some order → order.Perm g.nodeIds ∧ Topological g.Edge order := by
  obtain ⟨s, hrun, hs, hqueue⟩ := (Sorting.counted_start h).drain h (Nat.le_refl g.nodeIds.length)
  have hsub : s.order ⊆ g.nodeIds := fun n hn => ((hs.ready n).mp (mem_append_left _ hn)).1
  have hnodup := (nodup_append.mp hs.nodup).1
  refine ⟨if s.order.length = g.nodeIds.length then some s.order else none, fun fuel hfuel => ?_, ?_⟩
  · rw [topologicalSort, hrun fuel hfuel]
    rfl
  by_cases hall : s.order.length = g.nodeIds.length
  · have hperm := (subperm_of_subset hnodup hsub).perm_of_length_le hall.ge
    rw [if_pos hall]
    refine ⟨iff_of_false (fun hnone => (by cases hnone)) ?_, fun order horder => ?_⟩
    · intro ⟨n, hn, hcycle⟩
      exact hs.ordered.acyclic (hperm.mem_iff.mpr hn) hcycle
    · cases horder
      exact ⟨hperm, hs.ordered⟩
  · rw [if_neg hall]
    exact ⟨iff_of_true rfl (hs.exists_cycle h hqueue hall), fun order horder => (by cases horder)⟩

end CfgLib

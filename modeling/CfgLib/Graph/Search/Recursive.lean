import CfgLib.Graph.Search.Paths
import Mathlib.Data.Finset.Card

/-!
# The depth-first discipline

A globally marked stack visits what the recursive preorder visits: a node not
seen yet, then everything its neighbors lead to, one neighbor after the other.
-/

namespace CfgLib

open Lib Relation List

/-- The recursive preorder: from the nodes `seen` a list of nodes at a depth is visited in turn, each
with what is found through it, and `log` are the visits. -/
inductive Recursive (g : GraphView) (d : TraversalDirection) :
    Finset Nat → List Nat → Nat → List (Nat × Nat) → Finset Nat → Prop
  | done (seen : Finset Nat) (depth : Nat) : Recursive g d seen [] depth [] seen
  | seen {seen after : Finset Nat} {n depth : Nat} {rest : List Nat} {log : List (Nat × Nat)} : n ∈ seen →
      Recursive g d seen rest depth log after → Recursive g d seen (n :: rest) depth log after
  | visit {seen inner after : Finset Nat} {n depth : Nat} {rest : List Nat} {log log' : List (Nat × Nat)} : n ∉ seen →
      Recursive g d (insert n seen) (g.neighbors d n) (depth + 1) log inner →
      Recursive g d inner rest depth log' after →
      Recursive g d seen (n :: rest) depth ((n, depth) :: (log ++ log')) after

namespace Recursive

variable {g : GraphView} {d : TraversalDirection} {before after : Finset Nat} {nodes : List Nat} {depth : Nat}
  {log : List (Nat × Nat)}

theorem mem_after (h : Recursive g d before nodes depth log after) :
    ∀ n, n ∈ after ↔ n ∈ before ∨ n ∈ log.map (·.1) := by
  induction h with
  | done => simp
  | seen _ _ ih => exact ih
  | @visit seen inner after n depth rest log log' _ _ _ ih ih' =>
    intro m
    rw [ih', ih, Finset.mem_insert, map_cons, map_append, mem_cons, mem_append]
    tauto

theorem fresh (h : Recursive g d before nodes depth log after) :
    (log.map (·.1)).Nodup ∧ ∀ n ∈ log.map (·.1), n ∉ before := by
  induction h with
  | done => exact ⟨.nil, fun n hn => absurd hn not_mem_nil⟩
  | seen _ _ ih => exact ih
  | @visit seen inner after n depth rest log log' hn hinner _ ih ih' =>
    have hmono : ∀ m, m ∈ insert n seen → m ∈ inner := fun m hm => (hinner.mem_after m).mpr (Or.inl hm)
    rw [map_cons, map_append]
    constructor
    · refine nodup_cons.mpr ⟨fun hmem => ?_, nodup_append.mpr ⟨ih.1, ih'.1, ?_⟩⟩
      · rcases mem_append.mp hmem with hmem | hmem
        · exact ih.2 n hmem (Finset.mem_insert_self n seen)
        · exact ih'.2 n hmem (hmono n (Finset.mem_insert_self n seen))
      · rintro a ha b hb rfl
        exact ih'.2 a hb ((hinner.mem_after a).mpr (Or.inr ha))
    · intro m hm
      rcases mem_cons.mp hm with rfl | hm
      · exact hn
      · rcases mem_append.mp hm with hm | hm
        · exact fun hseen => ih.2 m hm (Finset.mem_insert_of_mem hseen)
        · exact fun hseen => ih'.2 m hm (hmono m (Finset.mem_insert_of_mem hseen))

theorem reached (h : Recursive g d before nodes depth log after) :
    ∀ n ∈ log.map (·.1), ∃ m ∈ nodes, ReflTransGen (fun a b => b ∈ g.neighbors d a) m n := by
  induction h with
  | done => exact fun n hn => absurd hn not_mem_nil
  | seen _ _ ih =>
    intro n hn
    obtain ⟨m, hm, hpath⟩ := ih n hn
    exact ⟨m, mem_cons_of_mem _ hm, hpath⟩
  | @visit seen inner after n depth rest log log' _ _ _ ih ih' =>
    intro m hm
    rw [map_cons, map_append] at hm
    rcases mem_cons.mp hm with rfl | hm
    · exact ⟨m, mem_cons_self, .refl⟩
    · rcases mem_append.mp hm with hm | hm
      · obtain ⟨a, ha, hpath⟩ := ih m hm
        exact ⟨n, mem_cons_self, .head ha hpath⟩
      · obtain ⟨a, ha, hpath⟩ := ih' m hm
        exact ⟨a, mem_cons_of_mem n ha, hpath⟩

/-- Nothing is left over: the nodes of the list and the neighbors of what is visited are seen. -/
theorem closed (h : Recursive g d before nodes depth log after) :
    (∀ n ∈ nodes, n ∈ after) ∧ ∀ n ∈ log.map (·.1), ∀ m ∈ g.neighbors d n, m ∈ after := by
  induction h with
  | done => exact ⟨fun n hn => absurd hn not_mem_nil, fun n hn => absurd hn not_mem_nil⟩
  | @seen seen after n depth rest log hn hrest ih =>
    refine ⟨fun m hm => ?_, ih.2⟩
    rcases mem_cons.mp hm with rfl | hm
    · exact (hrest.mem_after m).mpr (Or.inl hn)
    · exact ih.1 m hm
  | @visit seen inner after n depth rest log log' _ hinner hrest ih ih' =>
    have hmono : ∀ m, m ∈ inner → m ∈ after := fun m hm => (hrest.mem_after m).mpr (Or.inl hm)
    constructor
    · intro m hm
      rcases mem_cons.mp hm with rfl | hm
      · exact hmono m ((hinner.mem_after m).mpr (Or.inl (Finset.mem_insert_self m seen)))
      · exact ih'.1 m hm
    · intro m hm a ha
      rw [map_cons, map_append] at hm
      rcases mem_cons.mp hm with rfl | hm
      · exact hmono a (ih.1 a ha)
      · rcases mem_append.mp hm with hm | hm
        · exact hmono a (ih.2 m hm a ha)
        · exact ih'.2 m hm a ha

theorem mem_iff (h : Recursive g d ∅ nodes depth log after) (n : Nat) :
    n ∈ log.map (·.1) ↔ ∃ m ∈ nodes, ReflTransGen (fun a b => b ∈ g.neighbors d a) m n := by
  have hafter : ∀ n, n ∈ after ↔ n ∈ log.map (·.1) := fun n => by
    rw [h.mem_after]
    simp
  refine ⟨h.reached n, fun hn => ?_⟩
  obtain ⟨m, hm, hpath⟩ := hn
  induction hpath with
  | refl => exact (hafter m).mp (h.closed.1 m hm)
  | tail _ hedge ih => exact (hafter _).mp (h.closed.2 _ ih _ hedge)

theorem exists_log (hg : g.Lawful) (k : Nat) : ∀ (before : Finset Nat) (depth : Nat),
    (∀ n ∈ before, n < g.nodeBound) → g.nodeBound ≤ before.card + k → ∀ nodes : List Nat,
      (∀ n ∈ nodes, n < g.nodeBound) → ∃ log after, Recursive g d before nodes depth log after ∧
        ∀ n ∈ after, n < g.nodeBound := by
  have hcard : ∀ (before : Finset Nat) (n : Nat), (∀ m ∈ before, m < g.nodeBound) → n < g.nodeBound → n ∉ before →
      before.card < g.nodeBound := by
    intro before n hlt hn hfresh
    have hsubset : insert n before ⊆ Finset.range g.nodeBound := fun m hm => by
      rw [Finset.mem_range]
      rcases Finset.mem_insert.mp hm with rfl | hm
      · exact hn
      · exact hlt m hm
    have := Finset.card_le_card hsubset
    rw [Finset.card_insert_of_notMem hfresh, Finset.card_range] at this
    omega
  induction k with
  | zero =>
    intro before depth hlt hbound nodes
    induction nodes with
    | nil => exact fun _ => ⟨[], before, .done before depth, hlt⟩
    | cons n nodes ih =>
      intro hnodes
      obtain ⟨log, after, hrest, hafter⟩ := ih fun m hm => hnodes m (mem_cons_of_mem n hm)
      refine ⟨log, after, .seen ?_ hrest, hafter⟩
      by_contra hfresh
      have := hcard before n hlt (hnodes n mem_cons_self) hfresh
      omega
  | succ k ihk =>
    intro before depth hlt hbound nodes
    induction nodes generalizing before with
    | nil => exact fun _ => ⟨[], before, .done before depth, hlt⟩
    | cons n nodes ih =>
      intro hnodes
      have hn := hnodes n mem_cons_self
      have hrest := fun m hm => hnodes m (mem_cons_of_mem n hm)
      by_cases hseen : n ∈ before
      · obtain ⟨log, after, hrun, hafter⟩ := ih before hlt hbound hrest
        exact ⟨log, after, .seen hseen hrun, hafter⟩
      · have hinsert : ∀ m ∈ insert n before, m < g.nodeBound := fun m hm =>
          (Finset.mem_insert.mp hm).elim (fun heq => heq ▸ hn) (hlt m)
        obtain ⟨log, inner, hinner, hinnerlt⟩ := ihk (insert n before) (depth + 1) hinsert
          (by rw [Finset.card_insert_of_notMem hseen]; omega) (g.neighbors d n) fun m hm => hg.neighbors_lt d hn hm
        have hle : before.card ≤ inner.card := Finset.card_le_card fun m hm =>
          (hinner.mem_after m).mpr (Or.inl (Finset.mem_insert_of_mem hm))
        obtain ⟨log', after, hrun, hafter⟩ := ih inner hinnerlt (by omega) hrest
        exact ⟨_, after, .visit hseen hinner hrun, hafter⟩

end Recursive

namespace Searching

variable {σ β : Type} {g : GraphView}

structure Seeing (g : GraphView) (seen : Finset Nat) (stack : List (Nat × Nat)) (s : σ) (w : Searching σ β) : Prop where
  broke : w.broke = none
  frontier : w.buffers.frontier = stack
  marked : ∀ i, w.marks.isMarked i = true ↔ i ∈ seen
  capacity : g.nodeBound ≤ w.marks.capacity
  captured : w.captured = s

/-- An unbounded search runs through the nodes of a list as the recursion does, whichever seen
nodes were left out when they were pushed. -/
theorem Seeing.run (hg : g.Lawful) {config : SearchConfig} (hmax : config.maxDepth = none) (v : Nat → Nat → σ → σ)
    {before after : Finset Nat} {nodes : List Nat} {depth : Nat} {log : List (Nat × Nat)}
    (h : Recursive g config.direction before nodes depth log after) :
    ∀ (q : Nat → Bool), (∀ n, q n = false → n ∈ before) → (∀ n ∈ nodes, n < g.nodeBound) →
      ∀ rest s (w : Searching σ β), Seeing g before ((nodes.filter q).map (·, depth) ++ rest) s w →
        ∃ k w', Steps (depthFirstGlobal g config (descending v)) k w w' ∧ Seeing g after rest (visits v log s) w' := by
  induction h with
  | done => exact fun q _ _ rest s w hw => ⟨0, w, .zero w, hw⟩
  | @seen seen after n depth nodes log hn hrest ih =>
    intro q hq hlt rest s w hw
    have hlt' := fun m hm => hlt m (mem_cons_of_mem n hm)
    cases hqn : q n with
    | false =>
      rw [filter_cons_of_neg (by rw [hqn]; exact Bool.false_ne_true)] at hw
      exact ih q hq hlt' rest s w hw
    | true =>
      rw [filter_cons_of_pos hqn, map_cons, cons_append] at hw
      have hturn : depthFirstGlobal g config (descending (β := β) v) w =
          some { w with buffers := { w.buffers with frontier := (nodes.filter q).map (·, depth) ++ rest } } := by
        rw [depthFirstGlobal, hw.broke, hw.frontier]
        dsimp only
        rw [if_pos ((hw.marked n).mpr hn)]
      obtain ⟨k, w', hsteps, hw'⟩ := ih q hq hlt' rest s
        { w with buffers := { w.buffers with frontier := (nodes.filter q).map (·, depth) ++ rest } }
        ⟨hw.broke, rfl, hw.marked, hw.capacity, hw.captured⟩
      exact ⟨k + 1, w', .succ hturn hsteps, hw'⟩
  | @visit seen inner after n depth nodes log log' hn hinner hrest ih ih' =>
    intro q hq hlt rest s w hw
    have hlt' := fun m hm => hlt m (mem_cons_of_mem n hm)
    have hnlt := hlt n mem_cons_self
    have hqn : q n = true := by
      cases hqn : q n with
      | true => rfl
      | false => exact absurd (hq n hqn) hn
    rw [filter_cons_of_pos hqn, map_cons, cons_append] at hw
    have hmarked : ∀ i, (w.marks.mark n).isMarked i = true ↔ i ∈ insert n seen := fun i => by
      rw [w.marks.isMarked_mark (hnlt.trans_le hw.capacity), Bool.or_eq_true, decide_eq_true_iff, hw.marked,
        Finset.mem_insert]
    have hturn : ∃ w₁, depthFirstGlobal g config (descending (β := β) v) w = some w₁ ∧ Seeing g (insert n seen)
        (((g.neighbors config.direction n).filter fun m => !(w.marks.mark n).isMarked m).map (·, depth + 1) ++
          ((nodes.filter q).map (·, depth) ++ rest)) (v n depth s) w₁ := by
      rw [depthFirstGlobal, hw.broke, hw.frontier]
      dsimp only
      rw [if_neg fun hm => hn ((hw.marked n).mp hm), visit, descending, hmax]
      exact ⟨_, rfl, rfl, rfl, hmarked, (w.marks.capacity_mark n).symm ▸ hw.capacity, congrArg (v n depth) hw.captured⟩
    obtain ⟨w₁, hturn, hw₁⟩ := hturn
    obtain ⟨k, w₂, hsteps, hw₂⟩ := ih (fun m => !(w.marks.mark n).isMarked m)
      (fun m hm => (hmarked m).mp (by simpa using hm)) (fun m hm => hg.neighbors_lt _ hnlt hm) _ _ w₁ hw₁
    obtain ⟨l, w₃, hsteps', hw₃⟩ := ih' q (fun m hm => (hinner.mem_after m).mpr (Or.inl (Finset.mem_insert_of_mem (hq m hm))))
      hlt' rest _ w₂ hw₂
    refine ⟨k + l + 1, w₃, .succ hturn (hsteps.trans hsteps'), ?_⟩
    rw [← visits_append] at hw₃
    exact hw₃

end Searching

/-- An unbounded stack search visits the reachable nodes once each, in the recursive preorder. -/
theorem searchIn_depthFirst {g : GraphView} (hg : g.Lawful) {seeds : List Nat}
    (hseeds : ∀ seed ∈ seeds, seed < g.nodeBound) (config : SearchConfig) (horder : config.order = .depthFirst)
    (hvisited : config.visited = .global) (hmax : config.maxDepth = none) : ∃ (log : List (Nat × Nat)) (after : Finset Nat),
      Recursive g config.direction ∅ seeds 0 log after ∧ (log.map (·.1)).Nodup ∧
      (∀ n, n ∈ log.map (·.1) ↔ ∃ seed ∈ seeds, ReflTransGen (fun a b => b ∈ g.neighbors config.direction a) seed n) ∧
      Visits g seeds config log := by
  obtain ⟨log, after, hrecursive, -⟩ := Recursive.exists_log hg (d := config.direction) g.nodeBound ∅ 0
    (fun n hn => absurd hn (Finset.notMem_empty n)) (by rw [Finset.card_empty, Nat.zero_add]) seeds hseeds
  refine ⟨log, after, hrecursive, hrecursive.fresh.1, hrecursive.mem_iff, fun σ β marks hcapacity buffers v s => ?_⟩
  have hstart : Searching.Seeing (β := β) g ∅ ((seeds.filter fun _ => true).map (·, 0) ++ []) s
      ⟨marks.reset, ⟨seeds, seeds.map (·, 0), [], []⟩, 0, s, none⟩ := by
    refine ⟨rfl, ?_, fun i => ?_, ?_, rfl⟩
    · rw [filter_true, append_nil]
    · rw [marks.isMarked_reset]
      exact iff_of_false Bool.false_ne_true (Finset.notMem_empty i)
    · rw [marks.capacity_reset]
      exact hcapacity
  obtain ⟨k, w, hsteps, hw⟩ := Searching.Seeing.run hg hmax v hrecursive (fun _ => true)
    (fun n hn => absurd hn Bool.true_eq_false.mp) hseeds [] s _ hstart
  have hexit : Searching.depthFirstGlobal g config (descending v) w = none := by
    rw [Searching.depthFirstGlobal, hw.broke, hw.frontier]
  refine ⟨k, fun fuel hfuel => ⟨w, ?_, hw.broke, hw.captured⟩⟩
  rw [searchIn, if_pos (ready_of_lt hseeds hcapacity), horder, hvisited]
  exact congrArg some (hsteps.iterate_eq hexit hfuel)

end CfgLib

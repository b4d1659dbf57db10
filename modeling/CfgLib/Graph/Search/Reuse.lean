import CfgLib.Graph.Search.Levels
import CfgLib.Graph.Search.Recursive

/-!
# Reused marks and buffers

A search reads of its marks only which nodes are marked, and a reset leaves
none marked at any epoch, so what earlier searches left is never seen.
-/

namespace CfgLib

open Lib Relation List

theorem iterate_related {σ τ : Type} {f : σ → Option σ} {f' : τ → Option τ} {r : σ → τ → Prop}
    (hstep : ∀ w w', r w w' → (f w = none ∧ f' w' = none) ∨ ∃ t t', f w = some t ∧ f' w' = some t' ∧ r t t')
    (fuel : Nat) : ∀ {w w'}, r w w' → r (iterate f fuel w) (iterate f' fuel w') := by
  induction fuel with
  | zero => exact fun h => h
  | succ fuel ih =>
    intro w w' h
    rcases hstep w w' h with ⟨hw, hw'⟩ | ⟨t, t', hw, hw', ht⟩
    · rw [iterate_of_none hw, iterate_of_none hw']
      exact h
    · rw [iterate_of_some hw, iterate_of_some hw']
      exact ih ht

namespace Searching

variable {σ β : Type} {g : GraphView} {config : SearchConfig} {visitor : Nat → Nat → σ → Except β Visit × σ}

def PathStep.InRange (bound : Nat) : PathStep → Prop
  | .enter node _ => node < bound
  | .leave node => node < bound

/-- Two searches that differ in their marks only, which mark the same nodes, and whose entries are in
range. -/
structure Alike (g : GraphView) (w w' : Searching σ β) : Prop where
  same : w' = { w with marks := w'.marks }
  marked : ∀ i, w.marks.isMarked i = w'.marks.isMarked i
  capacity : g.nodeBound ≤ w.marks.capacity
  capacity' : g.nodeBound ≤ w'.marks.capacity
  frontier : ∀ e ∈ w.buffers.frontier, e.1 < g.nodeBound
  path : ∀ step ∈ w.buffers.path, PathStep.InRange g.nodeBound step

variable {w w' : Searching σ β}

theorem Alike.mark (h : Alike g w w') {n : Nat} (hn : n < g.nodeBound) :
    Alike g { w with marks := w.marks.mark n } { w' with marks := w'.marks.mark n } where
  same := by rw [h.same]
  marked i := by
    rw [w.marks.isMarked_mark (hn.trans_le h.capacity), w'.marks.isMarked_mark (hn.trans_le h.capacity'), h.marked]
  capacity := (w.marks.capacity_mark n).symm ▸ h.capacity
  capacity' := (w'.marks.capacity_mark n).symm ▸ h.capacity'
  frontier := h.frontier
  path := h.path

theorem Alike.unmark (h : Alike g w w') (n : Nat) :
    Alike g { w with marks := w.marks.unmark n } { w' with marks := w'.marks.unmark n } where
  same := by rw [h.same]
  marked i := by rw [EpochMarks.isMarked_unmark, EpochMarks.isMarked_unmark, h.marked]
  capacity := (w.marks.capacity_unmark n).symm ▸ h.capacity
  capacity' := (w'.marks.capacity_unmark n).symm ▸ h.capacity'
  frontier := h.frontier
  path := h.path

theorem Alike.visit (h : Alike g w w') {node depth : Nat} {expand : Searching σ β → Searching σ β}
    (hexpand : ∀ {w w' : Searching σ β}, Alike g w w' → Alike g (expand w) (expand w')) :
    Alike g (visit config visitor node depth expand w) (Searching.visit config visitor node depth expand w') := by
  have hcaptured : w'.captured = w.captured := by rw [h.same]
  unfold Searching.visit
  rw [hcaptured]
  cases visitor node depth w.captured with
  | mk verdict s =>
    have hnext : Alike g { w with captured := s } { w' with captured := s } :=
      ⟨by rw [h.same], h.marked, h.capacity, h.capacity', h.frontier, h.path⟩
    cases verdict with
    | error value => exact ⟨by rw [h.same], h.marked, h.capacity, h.capacity', h.frontier, h.path⟩
    | ok verdict =>
      cases verdict with
      | skip => exact hnext
      | descend =>
        dsimp only
        split
        · exact hexpand hnext
        · exact hnext

theorem Alike.enqueue {depth : Nat} {l : List Nat} (hl : ∀ n ∈ l, n < g.nodeBound) : ∀ {w w' : Searching σ β},
    Alike g w w' → Alike g (w.enqueue depth l) (w'.enqueue depth l) := by
  induction l with
  | nil => exact fun h => h
  | cons n l ih =>
    intro w w' h
    have hn := hl n mem_cons_self
    have hrest := fun m hm => hl m (mem_cons_of_mem n hm)
    rw [Searching.enqueue, Searching.enqueue, ← h.marked]
    split
    · exact ih hrest h
    · have hmark := h.mark hn
      refine ih hrest ⟨by rw [h.same], hmark.marked, hmark.capacity, hmark.capacity', fun e he => ?_, h.path⟩
      rcases mem_append.mp he with he | he
      · exact h.frontier e he
      · rw [mem_singleton.mp he]
        exact hn

/-- Both searches stop, or both take a turn. -/
def Together (g : GraphView) (f : Searching σ β → Option (Searching σ β)) (w w' : Searching σ β) : Prop :=
  (f w = none ∧ f w' = none) ∨ ∃ t t', f w = some t ∧ f w' = some t' ∧ Alike g t t'

theorem Alike.depthFirstGlobal (hg : g.Lawful) (h : Alike g w w') :
    Together g (depthFirstGlobal g config visitor) w w' := by
  obtain ⟨marks, buffers, head, captured, broke⟩ := w
  obtain ⟨marks', buffers', head', captured', broke'⟩ := w'
  cases h.same
  obtain ⟨-, hmarked, hcapacity, hcapacity', hfrontier, hpath⟩ := h
  unfold Together Searching.depthFirstGlobal
  dsimp only at hmarked hcapacity hcapacity' hfrontier hpath ⊢
  cases broke with
  | some value => exact Or.inl ⟨rfl, rfl⟩
  | none =>
    cases hstack : buffers.frontier with
    | nil => exact Or.inl ⟨rfl, rfl⟩
    | cons e stack =>
      obtain ⟨node, depth⟩ := e
      rw [hstack] at hfrontier
      have hnode : node < g.nodeBound := hfrontier (node, depth) mem_cons_self
      have hpopped : Alike (β := β) g ⟨marks, { buffers with frontier := stack }, head, captured, none⟩
          ⟨marks', { buffers with frontier := stack }, head, captured, none⟩ :=
        ⟨rfl, hmarked, hcapacity, hcapacity', fun e he => hfrontier e (mem_cons_of_mem _ he), hpath⟩
      right
      dsimp only
      rw [← hmarked]
      split
      · exact ⟨_, _, rfl, rfl, hpopped⟩
      · refine ⟨_, _, rfl, rfl, (hpopped.mark hnode).visit fun {w w'} h => ?_⟩
        have hsame : (fun n => !w.marks.isMarked n) = fun n => !w'.marks.isMarked n :=
          funext fun n => by rw [h.marked]
        refine ⟨?_, h.marked, h.capacity, h.capacity', fun e he => ?_, h.path⟩
        · unfold pushUnmarked
          rw [hsame, h.same]
        · rcases mem_append.mp he with he | he
          · obtain ⟨n, hn, rfl⟩ := mem_map.mp he
            exact hg.neighbors_lt _ hnode (mem_of_mem_filter hn)
          · exact h.frontier e he

theorem Alike.depthFirstPath (hg : g.Lawful) (h : Alike g w w') :
    Together g (depthFirstPath g config visitor) w w' := by
  obtain ⟨marks, buffers, head, captured, broke⟩ := w
  obtain ⟨marks', buffers', head', captured', broke'⟩ := w'
  cases h.same
  obtain ⟨-, hmarked, hcapacity, hcapacity', hfrontier, hpath⟩ := h
  unfold Together Searching.depthFirstPath
  dsimp only at hmarked hcapacity hcapacity' hfrontier hpath ⊢
  cases broke with
  | some value => exact Or.inl ⟨rfl, rfl⟩
  | none =>
    cases hstack : buffers.path with
    | nil => exact Or.inl ⟨rfl, rfl⟩
    | cons step stack =>
      rw [hstack] at hpath
      have hrest := fun step hstep => hpath step (mem_cons_of_mem _ hstep)
      have hpopped : Alike (β := β) g ⟨marks, { buffers with path := stack }, head, captured, none⟩
          ⟨marks', { buffers with path := stack }, head, captured, none⟩ :=
        ⟨rfl, hmarked, hcapacity, hcapacity', hfrontier, hrest⟩
      right
      cases step with
      | leave node => exact ⟨_, _, rfl, rfl, hpopped.unmark node⟩
      | enter node depth =>
        have hnode : node < g.nodeBound := hpath _ mem_cons_self
        dsimp only
        rw [← hmarked]
        split
        · exact ⟨_, _, rfl, rfl, hpopped⟩
        · have hentered : Alike (β := β) g ⟨marks, { buffers with path := .leave node :: stack }, head, captured, none⟩
              ⟨marks', { buffers with path := .leave node :: stack }, head, captured, none⟩ := by
            refine ⟨rfl, hmarked, hcapacity, hcapacity', hfrontier, fun step hstep => ?_⟩
            rcases mem_cons.mp hstep with rfl | hstep
            · exact hnode
            · exact hrest step hstep
          refine ⟨_, _, rfl, rfl, (hentered.mark hnode).visit fun {w w'} h => ?_⟩
          refine ⟨?_, h.marked, h.capacity, h.capacity', h.frontier, fun step hstep => ?_⟩
          · unfold pushEntries
            rw [h.same]
          · rcases mem_append.mp hstep with hstep | hstep
            · obtain ⟨n, hn, rfl⟩ := mem_map.mp hstep
              exact hg.neighbors_lt _ hnode hn
            · exact h.path step hstep

theorem Alike.breadthFirstGlobal (hg : g.Lawful) (h : Alike g w w') :
    Together g (breadthFirstGlobal g config visitor) w w' := by
  obtain ⟨marks, buffers, head, captured, broke⟩ := w
  obtain ⟨marks', buffers', head', captured', broke'⟩ := w'
  cases h.same
  obtain ⟨-, hmarked, hcapacity, hcapacity', hfrontier, hpath⟩ := h
  unfold Together Searching.breadthFirstGlobal
  dsimp only at hmarked hcapacity hcapacity' hfrontier hpath ⊢
  cases broke with
  | some value => exact Or.inl ⟨rfl, rfl⟩
  | none =>
    cases hget : buffers.frontier[head]? with
    | none => exact Or.inl ⟨rfl, rfl⟩
    | some e =>
      obtain ⟨node, depth⟩ := e
      have hnode : node < g.nodeBound := hfrontier _ (mem_of_getElem? hget)
      have hread : Alike (β := β) g ⟨marks, buffers, head + 1, captured, none⟩ ⟨marks', buffers, head + 1, captured, none⟩ :=
        ⟨rfl, hmarked, hcapacity, hcapacity', hfrontier, hpath⟩
      right
      exact ⟨_, _, rfl, rfl, hread.visit fun h => h.enqueue fun n hn => hg.neighbors_lt _ hnode hn⟩

end Searching

theorem searchIn_reuse {σ β : Type} {g : GraphView} (hg : g.Lawful) (fuel : Nat) (seeds : List Nat) (config : SearchConfig)
    {marks marks' : EpochMarks} (hcapacity : g.nodeBound ≤ marks.capacity) (hcapacity' : g.nodeBound ≤ marks'.capacity)
    (buffers buffers' : SearchBuffers) (visitor : Nat → Nat → σ → Except β Visit × σ) (s : σ) :
    (searchIn fuel g seeds config marks buffers visitor s).map (fun w => (w.broke, w.captured)) =
      (searchIn fuel g seeds config marks' buffers' visitor s).map fun w => (w.broke, w.captured) := by
  have hout : ∀ {w w' : Searching σ β}, Searching.Alike g w w' → (w.broke, w.captured) = (w'.broke, w'.captured) :=
    fun h => by rw [h.same]
  have hreset : ∀ i, marks.reset.isMarked i = marks'.reset.isMarked i := fun i => by
    rw [marks.isMarked_reset, marks'.isMarked_reset]
  by_cases hseeds : ∀ seed ∈ seeds, seed < g.nodeBound
  · have hstart : ∀ frontier path, (∀ e ∈ frontier, e.1 < g.nodeBound) →
        (∀ step ∈ path, Searching.PathStep.InRange g.nodeBound step) → Searching.Alike (β := β) g
          ⟨marks.reset, ⟨seeds, frontier, path, []⟩, 0, s, none⟩ ⟨marks'.reset, ⟨seeds, frontier, path, []⟩, 0, s, none⟩ :=
      fun frontier path hfrontier hpath => ⟨rfl, hreset, marks.capacity_reset.symm ▸ hcapacity,
        marks'.capacity_reset.symm ▸ hcapacity', hfrontier, hpath⟩
    rw [searchIn, searchIn, if_pos (ready_of_lt hseeds hcapacity), if_pos (ready_of_lt hseeds hcapacity')]
    dsimp only
    cases config.order with
    | depthFirst =>
      cases config.visited with
      | global =>
        refine congrArg some (hout (iterate_related (fun w w' h => h.depthFirstGlobal hg) fuel (hstart _ _ ?_ ?_)))
        · intro e he
          obtain ⟨seed, hseed, rfl⟩ := mem_map.mp he
          exact hseeds seed hseed
        · exact fun step hstep => absurd hstep not_mem_nil
      | path =>
        refine congrArg some (hout (iterate_related (fun w w' h => h.depthFirstPath hg) fuel (hstart _ _ ?_ ?_)))
        · exact fun e he => absurd he not_mem_nil
        · intro step hstep
          obtain ⟨seed, hseed, rfl⟩ := mem_map.mp hstep
          exact hseeds seed hseed
    | breadthFirst =>
      cases config.visited with
      | global =>
        refine congrArg some (hout (iterate_related (fun w w' h => h.breadthFirstGlobal hg) fuel
          ((hstart [] [] ?_ ?_).enqueue hseeds)))
        · exact fun e he => absurd he not_mem_nil
        · exact fun step hstep => absurd hstep not_mem_nil
      | path => rfl
  · have hready : ∀ capacity : Nat, (seeds.all (· < g.nodeBound) && decide (g.nodeBound ≤ capacity)) = false := by
      intro capacity
      rw [Bool.and_eq_false_iff]
      refine Or.inl (Bool.eq_false_iff.mpr fun hall => hseeds fun seed hseed => ?_)
      exact of_decide_eq_true (all_eq_true.mp hall seed hseed)
    rw [searchIn, searchIn, hready, hready]
    rfl

/-- The disciplines: the path policy visits the node-simple walks in lexicographic order, a queue the
nodes by their distance, an unbounded stack the recursive preorder; and no search of any kind depends
on what earlier ones left. -/
theorem search_disciplines (g : GraphView) (hg : g.Lawful) (seeds : List Nat) (hseeds : ∀ seed ∈ seeds, seed < g.nodeBound)
    (direction : TraversalDirection) (maxDepth : Option Nat) :
    (∃ walks : List (List Nat × Nat × Nat), (walks.Pairwise fun w w' => w.1 < w'.1) ∧
      (∀ w e, (w, e) ∈ walks ↔ g.IsWalk ⟨.depthFirst, .path, direction, maxDepth⟩ seeds w e) ∧
      Visits g seeds ⟨.depthFirst, .path, direction, maxDepth⟩ (walks.map (·.2))) ∧
    (∃ log : List (Nat × Nat), (log.Pairwise fun e e' => e.1 ≠ e'.1 ∧ e.2 ≤ e'.2) ∧
      (∀ n k, (n, k) ∈ log ↔ g.AtDistance direction seeds k n ∧ maxDepth.all (k ≤ ·) = true) ∧
      Visits g seeds ⟨.breadthFirst, .global, direction, maxDepth⟩ log) ∧
    (∃ (log : List (Nat × Nat)) (after : Finset Nat), Recursive g direction ∅ seeds 0 log after ∧ (log.map (·.1)).Nodup ∧
      (∀ n, n ∈ log.map (·.1) ↔ ∃ seed ∈ seeds, ReflTransGen (fun a b => b ∈ g.neighbors direction a) seed n) ∧
      Visits g seeds ⟨.depthFirst, .global, direction, none⟩ log) ∧
    ∀ (σ β : Type) (fuel : Nat) (config : SearchConfig) (marks marks' : EpochMarks), g.nodeBound ≤ marks.capacity →
      g.nodeBound ≤ marks'.capacity → ∀ (buffers buffers' : SearchBuffers)
        (visitor : Nat → Nat → σ → Except β Visit × σ) (s : σ),
        (searchIn fuel g seeds config marks buffers visitor s).map (fun w => (w.broke, w.captured)) =
          (searchIn fuel g seeds config marks' buffers' visitor s).map fun w => (w.broke, w.captured) := by
  refine ⟨⟨g.walks ⟨.depthFirst, .path, direction, maxDepth⟩ seeds, g.pairwise_walks _ seeds,
      fun w e => GraphView.mem_walks hg hseeds, searchIn_path hg hseeds _ rfl rfl⟩,
    searchIn_breadthFirst hg hseeds ⟨.breadthFirst, .global, direction, maxDepth⟩ rfl rfl,
    searchIn_depthFirst hg hseeds ⟨.depthFirst, .global, direction, none⟩ rfl rfl rfl,
    fun σ β fuel config marks marks' hcapacity hcapacity' buffers buffers' visitor s =>
      searchIn_reuse hg fuel seeds config hcapacity hcapacity' buffers buffers' visitor s⟩

/-- Two nodes with two parallel edges and a loop. -/
def parallelView : GraphView := .ofEdges 2 [0, 1] [(0, 1), (0, 1), (1, 1)]

theorem search_disciplines_parallel :
    (∃ walks : List (List Nat × Nat × Nat), (walks.Pairwise fun w w' => w.1 < w'.1) ∧
      (∀ w e, (w, e) ∈ walks ↔ parallelView.IsWalk ⟨.depthFirst, .path, .outgoing, some 3⟩ [0, 1] w e) ∧
      Visits parallelView [0, 1] ⟨.depthFirst, .path, .outgoing, some 3⟩ (walks.map (·.2))) ∧
    (∃ log : List (Nat × Nat), (log.Pairwise fun e e' => e.1 ≠ e'.1 ∧ e.2 ≤ e'.2) ∧
      (∀ n k, (n, k) ∈ log ↔ parallelView.AtDistance .outgoing [0, 1] k n ∧ (some 3).all (k ≤ ·) = true) ∧
      Visits parallelView [0, 1] ⟨.breadthFirst, .global, .outgoing, some 3⟩ log) ∧
    (∃ (log : List (Nat × Nat)) (after : Finset Nat), Recursive parallelView .outgoing ∅ [0, 1] 0 log after ∧
      (log.map (·.1)).Nodup ∧ (∀ n, n ∈ log.map (·.1) ↔
        ∃ seed ∈ [0, 1], ReflTransGen (fun a b => b ∈ parallelView.neighbors .outgoing a) seed n) ∧
      Visits parallelView [0, 1] ⟨.depthFirst, .global, .outgoing, none⟩ log) ∧
    ∀ (σ β : Type) (fuel : Nat) (config : SearchConfig) (marks marks' : EpochMarks),
      parallelView.nodeBound ≤ marks.capacity → parallelView.nodeBound ≤ marks'.capacity →
        ∀ (buffers buffers' : SearchBuffers) (visitor : Nat → Nat → σ → Except β Visit × σ) (s : σ),
          (searchIn fuel parallelView [0, 1] config marks buffers visitor s).map (fun w => (w.broke, w.captured)) =
            (searchIn fuel parallelView [0, 1] config marks' buffers' visitor s).map fun w => (w.broke, w.captured) :=
  search_disciplines parallelView (GraphView.lawful_ofEdges (by decide) (by decide) (by decide)) [0, 1] (by decide) .outgoing
    (some 3)

/-- Each parallel edge is a walk of its own. -/
example : (searchIn 20 parallelView [0] ⟨.depthFirst, .path, .outgoing, none⟩ (.new 2) ⟨[], [], [], []⟩
    (descending (β := Unit) fun n depth log => log ++ [(n, depth)]) []).map (·.captured) =
      some [(0, 0), (1, 1), (1, 1)] := by
  decide

end CfgLib

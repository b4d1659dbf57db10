import CfgLib.Graph.EventLog
import CfgLib.Graph.Topological

/-!
# Cycles

A depth-first walk and a topological sort agree on what a cycle is: the walk reports a back
edge where one is reached, and the sort finds no order where one is live.
-/

namespace CfgLib

open CfgLib.Lib Relation DfsEvent List

variable {g : GraphView} {d : TraversalDirection} {start n u v : Nat} {log : List DfsEvent} {p : List Nat}

/-! ## Tree paths -/

section paths

variable {paths : Nat → List Nat} (hstart : paths start = [start])
  (htree : ∀ a b, .treeEdge a b ∈ log → paths b = b :: paths a)

include hstart htree

theorem treePath_of_reach (h : ReflTransGen (fun a b => .treeEdge a b ∈ log) start n) :
    TreePath log start n (paths n).reverse := by
  induction h with
  | refl =>
    rw [hstart]
    exact ⟨rfl, rfl, .singleton start⟩
  | @tail a b _ he ih =>
    rw [htree a b he, reverse_cons]
    refine ⟨?_, by simp, isChain_append.mpr ⟨ih.chain, .singleton b, fun x hx y hy => ?_⟩⟩
    · rw [head?_append, ih.head]
      rfl
    · obtain rfl := Option.mem_unique hx ih.last
      obtain rfl : b = y := by simpa using hy
      exact he

theorem TreePath.eq (h : TreePath log start n p) : p = (paths n).reverse := by
  induction p using List.reverseRecOn generalizing n with
  | nil => exact absurd h.head (by simp)
  | append_singleton q x ih =>
    obtain rfl : x = n := by simpa using h.last
    rcases eq_nil_or_concat q with rfl | ⟨q, a, rfl⟩
    · obtain rfl : x = start := by simpa using h.head
      rw [hstart]
      rfl
    · rw [concat_eq_append] at h ih ⊢
      have hchain := isChain_append.mp h.chain
      have hpath : TreePath log start a (q ++ [a]) := by
        refine ⟨?_, by simp, hchain.1⟩
        rw [← h.head]
        cases q <;> rfl
      rw [htree a x (hchain.2.2 a (by simp) x rfl), reverse_cons, ih hpath]

theorem reach_of_mem_path (h : ReflTransGen (fun a b => .treeEdge a b ∈ log) start n) (hv : v ∈ paths n) :
    ReflTransGen (fun a b => .treeEdge a b ∈ log) v n := by
  induction h with
  | refl =>
    rw [hstart] at hv
    rw [mem_singleton.mp hv]
  | @tail a b _ he ih =>
    rw [htree a b he] at hv
    rcases mem_cons.mp hv with rfl | hv
    · exact .refl
    · exact (ih hv).tail he

end paths

/-! ## What a whole walk says -/

structure Classifies (g : GraphView) (d : TraversalDirection) (start : Nat) (log : List DfsEvent) : Prop where
  nested : opened [] log = some []
  discovered_nodup : (log.filterMap discoveredNode).Nodup
  discovered_iff : ∀ n, n ∈ log.filterMap discoveredNode ↔ ReflTransGen (g.Adjacent d) start n
  finished_perm : (log.filterMap finished).Perm (log.filterMap discoveredNode)
  entries : ∀ n, ReflTransGen (g.Adjacent d) start n → log.filterMap (targetFrom n) = g.neighbors d n
  entries_only : ∀ n, ¬ ReflTransGen (g.Adjacent d) start n → log.filterMap (targetFrom n) = []
  path_unique : ∀ n, ReflTransGen (g.Adjacent d) start n → ∃! p, TreePath log start n p
  back_iff : ∀ u v, .backEdge u v ∈ log ↔
    ReflTransGen (g.Adjacent d) start u ∧ g.Adjacent d u v ∧ ∃ p, TreePath log start u p ∧ v ∈ p
  cycle_iff : (∃ u v, .backEdge u v ∈ log) ↔
    ∃ n, ReflTransGen (g.Adjacent d) start n ∧ TransGen (g.Adjacent d) n n

namespace Explores

variable {after : List Nat} (h : Explores g d [] start 0 [] (g.neighbors d start) log after)

include h

theorem eq_finished : after = log.filterMap finished := by
  rw [h.after_eq, nil_append]

theorem start_not_finished : start ∉ log.filterMap finished := fun hmem =>
  ((h.finished_fresh (nodup_singleton start)).2 start hmem).1 mem_cons_self

theorem tree_reach (hn : n = start ∨ n ∈ log.filterMap finished) :
    ReflTransGen (fun a b => .treeEdge a b ∈ log) start n := by
  rcases hn with rfl | hn
  · exact .refl
  · exact (h.reached fun w hw => hw).1 n hn

theorem targets_of_reached (hn : n = start ∨ n ∈ log.filterMap finished) :
    log.filterMap (targetFrom n) = g.neighbors d n := by
  obtain ⟨hfirst, hall⟩ := h.entries (nodup_singleton start)
  rcases hn with rfl | hn
  · exact hfirst
  · exact hall n hn

theorem reach_iff (n : Nat) : ReflTransGen (g.Adjacent d) start n ↔ n = start ∨ n ∈ log.filterMap finished := by
  constructor
  · intro hreach
    induction hreach with
    | refl => exact Or.inl rfl
    | @tail a b _ he ih =>
      rw [GraphView.Adjacent, ← h.targets_of_reached ih] at he
      refine (h.targets he).imp mem_singleton.mp fun hb => ?_
      rwa [← h.eq_finished]
  · intro hn
    exact ReflTransGen.mono (h.reached fun w hw => hw).2 _ _ (h.tree_reach hn)

theorem source_reached (hv : v ∈ log.filterMap (targetFrom u)) : ReflTransGen (g.Adjacent d) start u := by
  rw [h.reach_iff]
  by_contra hout
  rw [not_or] at hout
  rw [h.sources hout.1 hout.2] at hv
  cases hv

omit h in
theorem back_mem (he : .backEdge u v ∈ log) : v ∈ log.filterMap (targetFrom u) :=
  mem_filterMap.mpr ⟨_, he, if_pos rfl⟩

theorem exists_back {whole : List DfsEvent} (hlog : ∀ event ∈ log, event ∈ whole)
    (hreach : ReflTransGen (g.Adjacent d) start n) (hcycle : TransGen (g.Adjacent d) n n) :
    ∃ u v, .backEdge u v ∈ whole := by
  by_contra hnone
  have hnot : ∀ u v, .backEdge u v ∉ whole := fun u v he => hnone ⟨u, v, he⟩
  have horder : Topological (Later g d whole) (after ++ [start]) :=
    (h.topological hlog topological_nil).concat fun v hv =>
      (h.classified v hv.1).resolve_left fun hback => hnot _ _ (hlog _ hback)
  have hmem : n ∈ after ++ [start] := by
    rw [h.eq_finished, mem_append, mem_singleton]
    exact ((h.reach_iff n).mp hreach).symm
  apply horder.acyclic hmem
  apply transGen_swap.mp
  have hlater : ∀ a b, g.Adjacent d a b → Function.swap (Later g d whole) a b := fun a b hab => ⟨hab, hnot a b⟩
  exact TransGen.mono hlater _ _ hcycle

theorem classifies : Classifies g d start (.discover start 0 :: (log ++ [.finish start])) := by
  have hnodup : ([start] ++ []).Nodup := nodup_singleton start
  obtain ⟨paths, hkeep, htree⟩ := h.exists_paths hnodup fun _ => [start]
  have hstart : paths start = [start] := hkeep start h.start_not_finished
  obtain ⟨hback, hother⟩ := h.leads_back htree hstart
  have hdiscovered : (DfsEvent.discover start 0 :: (log ++ [.finish start])).filterMap discoveredNode =
      start :: log.filterMap discoveredNode := by
    simp [filterMap_cons, discoveredNode]
  have hfinished : (DfsEvent.discover start 0 :: (log ++ [.finish start])).filterMap finished =
      log.filterMap finished ++ [start] := by
    simp [filterMap_cons, finished]
  have htargets : ∀ n, (DfsEvent.discover start 0 :: (log ++ [.finish start])).filterMap (targetFrom n) =
      log.filterMap (targetFrom n) := by
    intro n
    simp [filterMap_cons, targetFrom]
  have htreeMem : ∀ a b, .treeEdge a b ∈ DfsEvent.discover start 0 :: (log ++ [.finish start]) ↔ .treeEdge a b ∈ log := by
    simp
  have hbackMem : ∀ a b, .backEdge a b ∈ DfsEvent.discover start 0 :: (log ++ [.finish start]) ↔ .backEdge a b ∈ log := by
    simp
  have htree' : ∀ a b, .treeEdge a b ∈ DfsEvent.discover start 0 :: (log ++ [.finish start]) → paths b = b :: paths a :=
    fun a b he => htree a b ((htreeMem a b).mp he)
  have hreach' : ∀ n, ReflTransGen (g.Adjacent d) start n → ReflTransGen
      (fun a b => .treeEdge a b ∈ DfsEvent.discover start 0 :: (log ++ [.finish start])) start n := fun n hn =>
    ReflTransGen.mono (fun a b he => (htreeMem a b).mpr he) _ _ (h.tree_reach ((h.reach_iff n).mp hn))
  have hpath : ∀ n p, TreePath (.discover start 0 :: (log ++ [.finish start])) start n p → p = (paths n).reverse :=
    fun n p hp => hp.eq hstart htree'
  have hcloses : ∀ u v, .backEdge u v ∈ log → g.Adjacent d u v ∧ ReflTransGen (g.Adjacent d) start u := by
    intro u v he
    have hmem := back_mem he
    have hu := h.source_reached hmem
    rw [h.targets_of_reached ((h.reach_iff u).mp hu)] at hmem
    exact ⟨hmem, hu⟩
  refine ⟨?_, ?_, fun n => ?_, ?_, fun n hn => ?_, fun n hn => ?_, fun n hn => ?_, fun u v => ?_, ?_, fun hcycle => ?_⟩
  · rw [opened, opened_append, h.opened_eq]
    exact if_pos rfl
  · rw [hdiscovered]
    refine nodup_cons.mpr ⟨?_, h.discovered_perm.nodup_iff.mpr (h.finished_fresh hnodup).1⟩
    rw [h.discovered_perm.mem_iff]
    exact h.start_not_finished
  · rw [hdiscovered, mem_cons, h.discovered_perm.mem_iff, h.reach_iff]
  · rw [hdiscovered, hfinished]
    exact (perm_append_singleton _ _).trans (h.discovered_perm.symm.cons start)
  · rw [htargets, h.targets_of_reached ((h.reach_iff n).mp hn)]
  · rw [htargets]
    rw [h.reach_iff, not_or] at hn
    exact h.sources hn.1 hn.2
  · exact ⟨_, treePath_of_reach hstart htree' (hreach' n hn), fun p hp => hpath n p hp⟩
  · rw [hbackMem]
    constructor
    · intro he
      obtain ⟨hadj, hu⟩ := hcloses u v he
      exact ⟨hu, hadj, _, treePath_of_reach hstart htree' (hreach' u hu), mem_reverse.mpr (hback u v he)⟩
    · intro hlead
      obtain ⟨hu, hadj, p, hp, hv⟩ := hlead
      rw [hpath u p hp, mem_reverse] at hv
      rw [GraphView.Adjacent, ← h.targets_of_reached ((h.reach_iff u).mp hu)] at hadj
      obtain ⟨event, hmem, htarget⟩ := mem_filterMap.mp hadj
      -- a tree edge or a cross edge does not lead into the tree path
      cases event with
      | discover => cases htarget
      | finish => cases htarget
      | treeEdge a b =>
        obtain ⟨rfl, rfl⟩ : a = u ∧ b = v := by simpa [targetFrom] using htarget
        exact absurd hv (hother a b (Or.inl hmem))
      | forwardOrCross a b =>
        obtain ⟨rfl, rfl⟩ : a = u ∧ b = v := by simpa [targetFrom] using htarget
        exact absurd hv (hother a b (Or.inr hmem))
      | backEdge a b =>
        obtain ⟨rfl, rfl⟩ : a = u ∧ b = v := by simpa [targetFrom] using htarget
        exact hmem
  · intro hback'
    obtain ⟨u, v, he⟩ := hback'
    rw [hbackMem] at he
    obtain ⟨hadj, hu⟩ := hcloses u v he
    have hdown := reach_of_mem_path hstart htree (h.tree_reach ((h.reach_iff u).mp hu)) (hback u v he)
    exact ⟨v, hu.tail hadj, .tail' (ReflTransGen.mono (h.reached fun w hw => hw).2 _ _ hdown) hadj⟩
  · obtain ⟨n, hn, hcycle⟩ := hcycle
    exact h.exists_back (fun event he => by simp [he]) hn hcycle

end Explores

/-! ## The loop -/

theorem depthFirstLog_explores (hg : g.Lawful) (hstart : start < g.nodeBound) : ∃ log after,
    depthFirstLog g start d = .discover start 0 :: (log ++ [.finish start]) ∧
    Explores g d [] start 0 [] (g.neighbors d start) log after := by
  have hcolored : DfsWalk.Colored (Function.update (fun _ => .white) start .gray) [start] [] := by
    intro n
    by_cases hn : n = start
    · simp [hn]
    · simp [hn]
  obtain ⟨log, after, color, k, hlog, _, _, hsteps⟩ := DfsWalk.exists_explores hg _ 0 [] [.discover start 0]
    (g.neighbors d start) hcolored (fun w hw => hg.neighbors_lt d hstart hw) (Nat.le_refl _)
  have hempty : DfsWalk.Bounded g ⟨fun _ => .white, []⟩ := fun frame hframe => by cases hframe
  have hexit : DfsWalk.record g d (iterate (DfsWalk.record g d) (total (DfsWalk.cost g d) (List.range g.nodeBound))
      ([.discover start 0], DfsWalk.descend g d ⟨fun _ => .white, []⟩ start 0)) = none := by
    refine (iterate_spec (I := fun s : List DfsEvent × DfsWalk => s.2.Bounded g) (μ := fun s => DfsWalk.measure g d s.2)
      ?_ (hempty.descend hg hstart 0) ?_).2
    · intro s s' hs hrecord
      obtain ⟨⟨events, w⟩, hstep, rfl⟩ := Option.map_eq_some_iff.mp hrecord
      exact hs.step hg hstep
    · refine Nat.le_trans (DfsWalk.measure_descend hstart rfl 0) ?_
      unfold DfsWalk.measure
      simp [total_nil]
  refine ⟨log, after, ?_, hlog⟩
  have hrun := (hsteps.trans (.single DfsWalk.record_finish)).eq_of_exit rfl hexit
  exact congrArg Prod.fst hrun

theorem depthFirstEvents_eq {β : Type} (onEvent : DfsEvent → Option β) (hstart : start < g.nodeBound) :
    depthFirstEvents g start d onEvent = some ((depthFirstLog g start d).findSome? onEvent) := by
  have hgrows : ∀ fuel (s : List DfsEvent × DfsWalk), ∃ more, (iterate (DfsWalk.record g d) fuel s).1 = s.1 ++ more := by
    intro fuel s
    refine iterate_invariant (I := fun t : List DfsEvent × DfsWalk => ∃ more, t.1 = s.1 ++ more) ?_ fuel
      ⟨[], (append_nil _).symm⟩
    intro t t' ⟨more, ht⟩ hrecord
    obtain ⟨⟨events, w⟩, _, rfl⟩ := Option.map_eq_some_iff.mp hrecord
    refine ⟨more ++ events, ?_⟩
    rw [← append_assoc, ← ht]
  have hrun : ∀ fuel (log : List DfsEvent) (w : DfsWalk),
      (iterate (DfsWalk.turn g d onEvent) fuel (log.findSome? onEvent, w)).1 =
        (iterate (DfsWalk.record g d) fuel (log, w)).1.findSome? onEvent := by
    intro fuel
    induction fuel with
    | zero => exact fun log w => rfl
    | succ fuel ih =>
      intro log w
      cases hbroken : log.findSome? onEvent with
      | some b =>
        obtain ⟨more, hmore⟩ := hgrows (fuel + 1) (log, w)
        rw [iterate_of_none (by simp [DfsWalk.turn]), hmore, findSome?_append, hbroken]
        rfl
      | none =>
        cases hstep : w.step g d with
        | none =>
          rw [iterate_of_none (by simp [DfsWalk.turn, hstep]), iterate_of_none (by simp [DfsWalk.record, hstep])]
          exact hbroken.symm
        | some next =>
          obtain ⟨events, w'⟩ := next
          have hturn : DfsWalk.turn g d onEvent (none, w) = some ((log ++ events).findSome? onEvent, w') := by
            simp [DfsWalk.turn, hstep, findSome?_append, hbroken]
          have hrecord : DfsWalk.record g d (log, w) = some (log ++ events, w') := by
            simp [DfsWalk.record, hstep]
          rw [iterate_of_some hturn, iterate_of_some hrecord]
          exact ih (log ++ events) w'
  rw [depthFirstEvents, if_pos hstart, depthFirstLog, ← hrun]
  simp

/-- A walk reports its events, nested and each entry classified once, with a back edge iff a cycle is
reached; a topological order is found iff no cycle is live. -/
theorem cycles_agree (h : g.Lawful) :
    (∀ start d, start < g.nodeBound → Classifies g d start (depthFirstLog g start d) ∧
      ∀ (β : Type) (onEvent : DfsEvent → Option β),
        depthFirstEvents g start d onEvent = some ((depthFirstLog g start d).findSome? onEvent)) ∧
    ∃ result, (∀ fuel, g.nodeIds.length < fuel → topologicalSort g fuel = some result) ∧
      (result = none ↔ ∃ n ∈ g.nodeIds, TransGen g.Edge n n) ∧
      ∀ order, result = some order → order.Perm g.nodeIds ∧ Topological g.Edge order := by
  refine ⟨fun start d hstart => ⟨?_, fun β onEvent => depthFirstEvents_eq onEvent hstart⟩, topologicalSort_spec h⟩
  obtain ⟨log, after, hlog, hexplores⟩ := depthFirstLog_explores (d := d) h hstart
  rw [hlog]
  exact hexplores.classifies

/-- A cycle with a doubled edge, and a node that leads to itself. -/
def loopedView : GraphView := GraphView.ofEdges 5 [0, 1, 2, 4] [(0, 1), (0, 1), (1, 2), (2, 0), (4, 4)]

theorem cycles_agree_loopedView :
    (∀ start d, start < loopedView.nodeBound → Classifies loopedView d start (depthFirstLog loopedView start d) ∧
      ∀ (β : Type) (onEvent : DfsEvent → Option β),
        depthFirstEvents loopedView start d onEvent = some ((depthFirstLog loopedView start d).findSome? onEvent)) ∧
    ∃ result, (∀ fuel, loopedView.nodeIds.length < fuel → topologicalSort loopedView fuel = some result) ∧
      (result = none ↔ ∃ n ∈ loopedView.nodeIds, TransGen loopedView.Edge n n) ∧
      ∀ order, result = some order → order.Perm loopedView.nodeIds ∧ Topological loopedView.Edge order :=
  cycles_agree (GraphView.lawful_ofEdges (by decide) (by decide) (by decide))

example : depthFirstLog loopedView 0 .outgoing =
    [.discover 0 0, .treeEdge 0 1, .discover 1 1, .treeEdge 1 2, .discover 2 2, .backEdge 2 0, .finish 2, .finish 1,
      .forwardOrCross 0 1, .finish 0] := by decide

end CfgLib

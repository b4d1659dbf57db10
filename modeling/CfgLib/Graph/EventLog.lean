import CfgLib.Graph.Events
import CfgLib.Lib.Topological
import Mathlib.Data.List.Perm.Subperm

/-!
# The events of a depth-first walk

What the events of a whole walk say: discoveries and finishes nest, every entry of a reached
node is classified once, and the back edges are those that lead into the tree path.
-/

namespace CfgLib

open CfgLib.Lib Relation List Function

/-! ## The log -/

namespace DfsEvent

def discoveredNode : DfsEvent → Option Nat
  | .discover node _ => some node
  | _ => none

def finished : DfsEvent → Option Nat
  | .finish node => some node
  | _ => none

def targetFrom (node : Nat) : DfsEvent → Option Nat
  | .treeEdge source target | .backEdge source target | .forwardOrCross source target =>
    if source = node then some target else none
  | _ => none

end DfsEvent

open DfsEvent

/-- The nodes open after the events, innermost first; none when a finish is not that of the
innermost one. -/
def opened : List Nat → List DfsEvent → Option (List Nat)
  | path, [] => some path
  | path, .discover node _ :: rest => opened (node :: path) rest
  | [], .finish _ :: _ => none
  | inner :: path, .finish node :: rest => if inner = node then opened path rest else none
  | path, .treeEdge _ _ :: rest => opened path rest
  | path, .backEdge _ _ :: rest => opened path rest
  | path, .forwardOrCross _ _ :: rest => opened path rest

/-- One turn of the loop under a callback that never breaks. -/
def DfsWalk.record (g : GraphView) (d : TraversalDirection) (s : List DfsEvent × DfsWalk) :
    Option (List DfsEvent × DfsWalk) :=
  (s.2.step g d).map fun (events, w) => (s.1 ++ events, w)

/-- The events of a walk that is not broken off. -/
def depthFirstLog (g : GraphView) (start : Nat) (d : TraversalDirection) : List DfsEvent :=
  (iterate (DfsWalk.record g d) (total (DfsWalk.cost g d) (List.range g.nodeBound))
    ([.discover start 0], DfsWalk.descend g d ⟨fun _ => .white, []⟩ start 0)).1

structure TreePath (log : List DfsEvent) (start node : Nat) (p : List Nat) : Prop where
  head : p.head? = some start
  last : p.getLast? = some node
  chain : p.IsChain fun a b => .treeEdge a b ∈ log

theorem opened_append : ∀ (path : List Nat) (log log' : List DfsEvent),
    opened path (log ++ log') = (opened path log).bind fun path => opened path log'
  | path, [], log' => by simp [opened]
  | path, .discover node _ :: rest, log' => by
    simp only [cons_append, opened]
    exact opened_append (node :: path) rest log'
  | [], .finish _ :: rest, log' => by simp [opened]
  | inner :: path, .finish node :: rest, log' => by
    simp only [cons_append, opened]
    split
    · exact opened_append path rest log'
    · rfl
  | path, .treeEdge _ _ :: rest, log' => by
    simp only [cons_append, opened]
    exact opened_append path rest log'
  | path, .backEdge _ _ :: rest, log' => by
    simp only [cons_append, opened]
    exact opened_append path rest log'
  | path, .forwardOrCross _ _ :: rest, log' => by
    simp only [cons_append, opened]
    exact opened_append path rest log'

/-! ## The recursive walk -/

/-- The events of a node explored through an edge, and those that follow. -/
def explored (u v depth : Nat) (log log' : List DfsEvent) : List DfsEvent :=
  .treeEdge u v :: .discover v depth :: (log ++ .finish v :: log')

section explored

variable (u v depth : Nat) (log log' : List DfsEvent)

theorem opened_explored (path : List Nat) : opened path (explored u v depth log log') =
    (opened (v :: path) log).bind fun path => opened path (.finish v :: log') := by
  rw [explored, opened, opened, opened_append]

@[simp]
theorem discovered_explored : (explored u v depth log log').filterMap discoveredNode =
    v :: (log.filterMap discoveredNode ++ log'.filterMap discoveredNode) := by
  simp [explored, filterMap_cons, discoveredNode]

@[simp]
theorem finished_explored : (explored u v depth log log').filterMap finished =
    log.filterMap finished ++ v :: log'.filterMap finished := by
  simp [explored, filterMap_cons, finished]

@[simp]
theorem targets_explored (n : Nat) : (explored u v depth log log').filterMap (targetFrom n) =
    (if u = n then [v] else []) ++ (log.filterMap (targetFrom n) ++ log'.filterMap (targetFrom n)) := by
  by_cases hn : u = n
  · simp [explored, filterMap_cons, targetFrom, hn]
  · simp [explored, filterMap_cons, targetFrom, hn]

end explored

/-- The entries of an open node `u` are classified in turn, and a node not discovered before is
explored at once; `above` are the nodes open around `u`, `done` the finished ones in order. -/
inductive Explores (g : GraphView) (d : TraversalDirection) :
    List Nat → Nat → Nat → List Nat → List Nat → List DfsEvent → List Nat → Prop
  | exhausted (above : List Nat) (u depth : Nat) (done : List Nat) : Explores g d above u depth done [] [] done
  | back {above : List Nat} {u depth v : Nat} {done rest after : List Nat} {log : List DfsEvent} : v ∈ u :: above →
      Explores g d above u depth done rest log after →
      Explores g d above u depth done (v :: rest) (.backEdge u v :: log) after
  | cross {above : List Nat} {u depth v : Nat} {done rest after : List Nat} {log : List DfsEvent} : v ∉ u :: above →
      v ∈ done → Explores g d above u depth done rest log after →
      Explores g d above u depth done (v :: rest) (.forwardOrCross u v :: log) after
  | tree {above : List Nat} {u depth v : Nat} {done rest inner after : List Nat} {log log' : List DfsEvent} :
      v ∉ u :: above → v ∉ done → Explores g d (u :: above) v (depth + 1) done (g.neighbors d v) log inner →
      Explores g d above u depth (inner ++ [v]) rest log' after →
      Explores g d above u depth done (v :: rest)
        (explored u v (depth + 1) log log') after

namespace Explores

variable {g : GraphView} {d : TraversalDirection} {above done succs after : List Nat} {u depth : Nat}
  {log : List DfsEvent}

section

variable (h : Explores g d above u depth done succs log after)
include h

theorem opened_eq : opened (u :: above) log = some (u :: above) := by
  induction h with
  | exhausted => rfl
  | back _ _ ih => exact ih
  | cross _ _ _ ih => exact ih
  | tree _ _ _ _ ih ih' =>
    rw [opened_explored, ih, Option.bind_some, opened, if_pos rfl]
    exact ih'

theorem after_eq : after = done ++ log.filterMap finished := by
  induction h with
  | exhausted => exact (append_nil _).symm
  | back _ _ ih => exact ih
  | cross _ _ _ ih => exact ih
  | tree _ _ _ _ ih ih' =>
    rw [ih', ih]
    simp

theorem discovered_perm : (log.filterMap discoveredNode).Perm (log.filterMap finished) := by
  induction h with
  | exhausted => exact .nil
  | back _ _ ih => exact ih
  | cross _ _ _ ih => exact ih
  | tree _ _ _ _ ih ih' =>
    rw [discovered_explored, finished_explored]
    exact ((ih.append ih').cons _).trans perm_middle.symm

omit h in
/-- Open and finished nodes stay apart when a new one is opened, and when it is finished. -/
theorem nodup_enter {path : List Nat} {v : Nat} (h : (path ++ done).Nodup) (hv : v ∉ path) (hdone : v ∉ done) :
    (v :: path ++ done).Nodup :=
  nodup_cons.mpr ⟨fun hmem => (mem_append.mp hmem).elim hv hdone, h⟩

omit h in
theorem nodup_leave {path : List Nat} {v : Nat} (h : (v :: path ++ done).Nodup) : (path ++ (done ++ [v])).Nodup := by
  have hperm := perm_append_singleton v (path ++ done)
  rw [append_assoc] at hperm
  exact hperm.nodup_iff.mpr h

/-- What is finished was neither open nor finished before, and is finished once. -/
theorem fresh (hnodup : (u :: above ++ done).Nodup) : (u :: above ++ after).Nodup := by
  induction h with
  | exhausted => exact hnodup
  | back _ _ ih => exact ih hnodup
  | cross _ _ _ ih => exact ih hnodup
  | @tree above u depth v done rest inner after log log' hv hdone _ _ ih ih' =>
    apply ih'
    exact nodup_leave (ih (nodup_enter hnodup hv hdone))

theorem finished_fresh (hnodup : (u :: above ++ done).Nodup) :
    (log.filterMap finished).Nodup ∧ ∀ n ∈ log.filterMap finished, n ∉ u :: above ∧ n ∉ done := by
  have hafter := h.fresh hnodup
  rw [h.after_eq, ← append_assoc, nodup_append] at hafter
  refine ⟨hafter.2.1, fun n hn => ⟨fun ho => ?_, fun hd => ?_⟩⟩
  · exact hafter.2.2 n (mem_append_left _ ho) n hn rfl
  · exact hafter.2.2 n (mem_append_right _ hd) n hn rfl


/-- Edges lead out of `u` and out of nodes explored meanwhile. -/
theorem sources {n : Nat} (hn : n ≠ u) (hout : n ∉ log.filterMap finished) : log.filterMap (targetFrom n) = [] := by
  induction h with
  | exhausted => rfl
  | back _ _ ih =>
    rw [filterMap_cons_none (by simp [targetFrom, Ne.symm hn])]
    exact ih hn hout
  | cross _ _ _ ih =>
    rw [filterMap_cons_none (by simp [targetFrom, Ne.symm hn])]
    exact ih hn hout
  | tree _ _ _ _ ih ih' =>
    rw [finished_explored, mem_append, mem_cons, not_or, not_or] at hout
    rw [targets_explored, if_neg (Ne.symm hn), ih hout.2.1 hout.1, ih' hn hout.2.2]
    rfl

theorem entries (hnodup : (u :: above ++ done).Nodup) : log.filterMap (targetFrom u) = succs ∧
      ∀ n ∈ log.filterMap finished, log.filterMap (targetFrom n) = g.neighbors d n := by
  induction h with
  | exhausted => exact ⟨rfl, fun n hn => absurd hn not_mem_nil⟩
  | @back above u depth v done rest after log hv hrest ih =>
    obtain ⟨hu, hall⟩ := ih hnodup
    refine ⟨by simp [targetFrom, hu], fun n hn => ?_⟩
    have hne : u ≠ n := fun he => ((hrest.finished_fresh hnodup).2 n hn).1 (he ▸ mem_cons_self)
    rw [filterMap_cons_none (by simp [targetFrom, hne])]
    exact hall n hn
  | @cross above u depth v done rest after log hv hdone hrest ih =>
    obtain ⟨hu, hall⟩ := ih hnodup
    refine ⟨by simp [targetFrom, hu], fun n hn => ?_⟩
    have hne : u ≠ n := fun he => ((hrest.finished_fresh hnodup).2 n hn).1 (he ▸ mem_cons_self)
    rw [filterMap_cons_none (by simp [targetFrom, hne])]
    exact hall n hn
  | @tree above u depth v done rest inner after log log' hv hdone hinner hrest ih ih' =>
    have hnodup₁ := nodup_enter hnodup hv hdone
    have hnodup₂ := nodup_leave (hinner.fresh hnodup₁)
    obtain ⟨hv₁, hall₁⟩ := ih hnodup₁
    obtain ⟨hu₂, hall₂⟩ := ih' hnodup₂
    have hfresh₁ := (hinner.finished_fresh hnodup₁).2
    have hfresh₂ := (hrest.finished_fresh hnodup₂).2
    have huv : u ≠ v := fun he => hv (he ▸ mem_cons_self)
    have hu₁ : u ∉ log.filterMap finished := fun hu => (hfresh₁ u hu).1 (by simp)
    have hv₂ : v ∉ log'.filterMap finished := fun hv => (hfresh₂ v hv).2 (by simp)
    constructor
    · rw [targets_explored, if_pos rfl, hinner.sources huv hu₁, hu₂]
      rfl
    · intro n hn
      rw [finished_explored, mem_append, mem_cons] at hn
      rw [targets_explored]
      rcases hn with hn | rfl | hn
      · have hne : n ≠ u := fun he => hu₁ (he ▸ hn)
        have hout : n ∉ log'.filterMap finished := fun hn' => (hfresh₂ n hn').2 (by
          rw [hinner.after_eq]
          simp [hn])
        rw [if_neg hne.symm, hall₁ n hn, hrest.sources hne hout]
        exact append_nil _
      · rw [if_neg huv, hv₁, hrest.sources huv.symm hv₂]
        exact append_nil _
      · have hne : n ≠ u := fun he => (hfresh₂ n hn).1 (he ▸ mem_cons_self)
        have hnev : n ≠ v := fun he => hv₂ (he ▸ hn)
        have hout : n ∉ log.filterMap finished := fun hn' => (hfresh₂ n hn).2 (by
          rw [hinner.after_eq]
          simp [hn'])
        rw [if_neg hne.symm, hinner.sources hnev hout, hall₂ n hn]
        rfl

/-- An entry leads back into the open path, or to a node that is finished afterwards. -/
theorem classified : ∀ w ∈ succs, .backEdge u w ∈ log ∨ w ∈ after := by
  induction h with
  | exhausted => exact fun w hw => absurd hw not_mem_nil
  | back _ _ ih =>
    intro w hw
    rcases mem_cons.mp hw with rfl | hw
    · exact Or.inl mem_cons_self
    · exact (ih w hw).imp_left (mem_cons_of_mem _)
  | cross _ hdone hrest ih =>
    intro w hw
    rcases mem_cons.mp hw with rfl | hw
    · rw [hrest.after_eq]
      exact Or.inr (mem_append_left _ hdone)
    · exact (ih w hw).imp_left (mem_cons_of_mem _)
  | tree _ _ _ hrest _ ih' =>
    intro w hw
    rcases mem_cons.mp hw with rfl | hw
    · rw [hrest.after_eq]
      exact Or.inr (by simp)
    · refine (ih' w hw).imp_left fun hback => ?_
      simp [explored, hback]

end

/-- Entry by entry, the order of the finishes puts targets first, back edges apart. -/
def Later (g : GraphView) (d : TraversalDirection) (log : List DfsEvent) (v u : Nat) : Prop :=
  v ∈ g.neighbors d u ∧ .backEdge u v ∉ log

section

variable (h : Explores g d above u depth done succs log after)
include h

theorem topological {whole : List DfsEvent}
    (hlog : ∀ event ∈ log, event ∈ whole) (hdone : Topological (Later g d whole) done) :
    Topological (Later g d whole) after := by
  induction h with
  | exhausted => exact hdone
  | back _ _ ih => exact ih (fun event he => hlog event (mem_cons_of_mem _ he)) hdone
  | cross _ _ _ ih => exact ih (fun event he => hlog event (mem_cons_of_mem _ he)) hdone
  | @tree above u depth v done rest inner after log log' _ _ hinner _ ih ih' =>
    have hin : ∀ event ∈ log, event ∈ whole := fun event he => hlog event (by simp [explored, he])
    apply ih' (fun event he => hlog event (by simp [explored, he]))
    apply (ih hin hdone).concat
    intro w ⟨hw, hnot⟩
    exact (hinner.classified w hw).resolve_left fun hback => hnot (hin _ hback)


/-- Tree edges lead to the nodes explored, from `u` or from one of them. -/
theorem tree_mem {a b : Nat} (he : .treeEdge a b ∈ log) :
    (a = u ∨ a ∈ log.filterMap finished) ∧ b ∈ log.filterMap finished := by
  induction h with
  | exhausted => cases he
  | back _ _ ih => exact ih ((mem_cons.mp he).resolve_left (fun heq => (by cases heq)))
  | cross _ _ _ ih => exact ih ((mem_cons.mp he).resolve_left (fun heq => (by cases heq)))
  | @tree above u depth v done rest inner after log log' _ _ _ _ ih ih' =>
    rw [finished_explored]
    have hcases : (a = u ∧ b = v) ∨ .treeEdge a b ∈ log ∨ .treeEdge a b ∈ log' := by
      simpa [explored] using he
    rcases hcases with ⟨rfl, rfl⟩ | he | he
    · simp
    · obtain ⟨ha, hb⟩ := ih he
      rcases ha with rfl | ha
      · simp [hb]
      · simp [ha, hb]
    · obtain ⟨ha, hb⟩ := ih' he
      rcases ha with rfl | ha
      · simp [hb]
      · simp [ha, hb]

theorem exists_paths (hnodup : (u :: above ++ done).Nodup)
    (paths : Nat → List Nat) : ∃ paths' : Nat → List Nat, (∀ n, n ∉ log.filterMap finished → paths' n = paths n) ∧
      ∀ a b, .treeEdge a b ∈ log → paths' b = b :: paths' a := by
  induction h generalizing paths with
  | exhausted => exact ⟨paths, fun _ _ => rfl, fun a b he => (by cases he)⟩
  | back _ _ ih =>
    obtain ⟨paths', hkeep, htree⟩ := ih hnodup paths
    exact ⟨paths', hkeep, fun a b he => htree a b ((mem_cons.mp he).resolve_left (fun heq => (by cases heq)))⟩
  | cross _ _ _ ih =>
    obtain ⟨paths', hkeep, htree⟩ := ih hnodup paths
    exact ⟨paths', hkeep, fun a b he => htree a b ((mem_cons.mp he).resolve_left (fun heq => (by cases heq)))⟩
  | @tree above u depth v done rest inner after log log' hv hdone hinner hrest ih ih' =>
    have hnodup₁ := nodup_enter hnodup hv hdone
    have hnodup₂ := nodup_leave (hinner.fresh hnodup₁)
    have hfresh₁ := (hinner.finished_fresh hnodup₁).2
    have hfresh₂ := (hrest.finished_fresh hnodup₂).2
    have huv : u ≠ v := fun he => hv (he ▸ mem_cons_self)
    have hu₁ : u ∉ log.filterMap finished := fun hu => (hfresh₁ u hu).1 (by simp)
    have hv₁ : v ∉ log.filterMap finished := fun hv => (hfresh₁ v hv).1 (by simp)
    have hu₂ : u ∉ log'.filterMap finished := fun hu => (hfresh₂ u hu).1 (by simp)
    have hv₂ : v ∉ log'.filterMap finished := fun hv => (hfresh₂ v hv).2 (by simp)
    have hkept : ∀ n ∈ log.filterMap finished, n ∉ log'.filterMap finished := fun n hn hn' => (hfresh₂ n hn').2 (by
      rw [hinner.after_eq]
      simp [hn])
    obtain ⟨paths₁, hkeep₁, htree₁⟩ := ih hnodup₁ (update paths v (v :: paths u))
    obtain ⟨paths₂, hkeep₂, htree₂⟩ := ih' hnodup₂ paths₁
    have hat : paths₂ v = v :: paths u := by rw [hkeep₂ v hv₂, hkeep₁ v hv₁, update_self]
    have hsource : paths₂ u = paths u := by rw [hkeep₂ u hu₂, hkeep₁ u hu₁, update_of_ne huv]
    refine ⟨paths₂, fun n hn => ?_, fun a b he => ?_⟩
    · rw [finished_explored, mem_append, mem_cons, not_or, not_or] at hn
      rw [hkeep₂ n hn.2.2, hkeep₁ n hn.1, update_of_ne hn.2.1]
    · have hcases : (a = u ∧ b = v) ∨ .treeEdge a b ∈ log ∨ .treeEdge a b ∈ log' := by
        simpa [explored] using he
      rcases hcases with ⟨rfl, rfl⟩ | he | he
      · rw [hat, hsource]
      · obtain ⟨ha, hb⟩ := hinner.tree_mem he
        have ha₂ : a ∉ log'.filterMap finished := by
          rcases ha with rfl | ha
          · exact hv₂
          · exact hkept a ha
        rw [hkeep₂ b (hkept b hb), hkeep₂ a ha₂]
        exact htree₁ a b he
      · exact htree₂ a b he

/-- Where the paths follow the tree edges, back edges are those that lead into the path of
their source. -/
theorem leads_back {paths : Nat → List Nat}
    (htree : ∀ a b, .treeEdge a b ∈ log → paths b = b :: paths a) (hu : paths u = u :: above) :
    (∀ a b, .backEdge a b ∈ log → b ∈ paths a) ∧
      ∀ a b, .treeEdge a b ∈ log ∨ .forwardOrCross a b ∈ log → b ∉ paths a := by
  induction h with
  | exhausted => exact ⟨fun a b he => (by cases he), fun a b he => (by rcases he with he | he <;> cases he)⟩
  | back hv _ ih =>
    obtain ⟨hback, hother⟩ := ih (fun a b he => htree a b (mem_cons_of_mem _ he)) hu
    refine ⟨fun a b he => ?_, fun a b he => ?_⟩
    · rcases mem_cons.mp he with heq | he
      · cases heq
        rw [hu]
        exact hv
      · exact hback a b he
    · apply hother a b
      simpa using he
  | cross hv _ _ ih =>
    obtain ⟨hback, hother⟩ := ih (fun a b he => htree a b (mem_cons_of_mem _ he)) hu
    refine ⟨fun a b he => ?_, fun a b he => ?_⟩
    · apply hback a b
      simpa using he
    · rcases he with he | he
      · exact hother a b (Or.inl (by simpa using he))
      · rcases mem_cons.mp he with heq | he
        · cases heq
          rw [hu]
          exact hv
        · exact hother a b (Or.inr he)
  | @tree above u depth v done rest inner after log log' hv _ _ _ ih ih' =>
    have hpath : paths v = v :: u :: above := by
      rw [htree u v (by simp [explored]), hu]
    obtain ⟨hback, hother⟩ := ih (fun a b he => htree a b (by simp [explored, he])) hpath
    obtain ⟨hback', hother'⟩ := ih' (fun a b he => htree a b (by simp [explored, he])) hu
    refine ⟨fun a b he => ?_, fun a b he => ?_⟩
    · have hcases : .backEdge a b ∈ log ∨ .backEdge a b ∈ log' := by simpa [explored] using he
      exact hcases.elim (hback a b) (hback' a b)
    · have hcases : (a = u ∧ b = v) ∨ (.treeEdge a b ∈ log ∨ .forwardOrCross a b ∈ log) ∨
          .treeEdge a b ∈ log' ∨ .forwardOrCross a b ∈ log' := by
        simp only [explored, mem_cons, mem_append, DfsEvent.treeEdge.injEq, reduceCtorEq, false_or] at he
        rcases he with (he | he | he) | (he | he)
        · exact Or.inl he
        · exact Or.inr (Or.inl (Or.inl he))
        · exact Or.inr (Or.inr (Or.inl he))
        · exact Or.inr (Or.inl (Or.inr he))
        · exact Or.inr (Or.inr (Or.inr he))
      rcases hcases with ⟨rfl, rfl⟩ | he | he
      · rw [hu]
        exact hv
      · exact hother a b he
      · exact hother' a b he

/-- What is explored is reached from `u` along tree edges, which are edges of the graph. -/
theorem reached (hsuccs : ∀ w ∈ succs, g.Adjacent d u w) :
    (∀ n ∈ log.filterMap finished, ReflTransGen (fun a b => .treeEdge a b ∈ log) u n) ∧
      ∀ a b, .treeEdge a b ∈ log → g.Adjacent d a b := by
  induction h with
  | exhausted => exact ⟨fun n hn => absurd hn not_mem_nil, fun a b he => (by cases he)⟩
  | back _ _ ih =>
    obtain ⟨hreach, htree⟩ := ih fun w hw => hsuccs w (mem_cons_of_mem _ hw)
    refine ⟨fun n hn => ReflTransGen.mono (fun a b he => mem_cons_of_mem _ he) _ _ (hreach n hn), fun a b he => ?_⟩
    exact htree a b (by simpa using he)
  | cross _ _ _ ih =>
    obtain ⟨hreach, htree⟩ := ih fun w hw => hsuccs w (mem_cons_of_mem _ hw)
    refine ⟨fun n hn => ReflTransGen.mono (fun a b he => mem_cons_of_mem _ he) _ _ (hreach n hn), fun a b he => ?_⟩
    exact htree a b (by simpa using he)
  | @tree above u depth v done rest inner after log log' _ _ _ _ ih ih' =>
    obtain ⟨hreach, htree⟩ := ih fun w hw => hw
    obtain ⟨hreach', htree'⟩ := ih' fun w hw => hsuccs w (mem_cons_of_mem _ hw)
    have hlog : ∀ a b, .treeEdge a b ∈ log → .treeEdge a b ∈ explored u v (depth + 1) log log' :=
      fun a b he => by simp [explored, he]
    have hlog' : ∀ a b, .treeEdge a b ∈ log' → .treeEdge a b ∈ explored u v (depth + 1) log log' :=
      fun a b he => by simp [explored, he]
    have hfirst : .treeEdge u v ∈ explored u v (depth + 1) log log' := mem_cons_self
    refine ⟨fun n hn => ?_, fun a b he => ?_⟩
    · rw [finished_explored, mem_append, mem_cons] at hn
      rcases hn with hn | rfl | hn
      · exact .head hfirst (ReflTransGen.mono hlog _ _ (hreach n hn))
      · exact .single hfirst
      · exact ReflTransGen.mono hlog' _ _ (hreach' n hn)
    · have hcases : (a = u ∧ b = v) ∨ .treeEdge a b ∈ log ∨ .treeEdge a b ∈ log' := by
        simpa [explored] using he
      rcases hcases with ⟨rfl, rfl⟩ | he | he
      · exact hsuccs _ mem_cons_self
      · exact htree a b he
      · exact htree' a b he


theorem targets {n w : Nat} (hw : w ∈ log.filterMap (targetFrom n)) : w ∈ u :: above ∨ w ∈ after := by
  induction h with
  | exhausted => cases hw
  | @back above u depth v done rest after log hv _ ih =>
    rw [mem_filterMap, exists_mem_cons_iff, ← mem_filterMap] at hw
    rcases hw with hw | hw
    · obtain ⟨_, rfl⟩ : u = n ∧ v = w := by simpa [targetFrom] using hw
      exact Or.inl hv
    · exact ih hw
  | @cross above u depth v done rest after log _ hdone hrest ih =>
    rw [mem_filterMap, exists_mem_cons_iff, ← mem_filterMap] at hw
    rcases hw with hw | hw
    · obtain ⟨_, rfl⟩ : u = n ∧ v = w := by simpa [targetFrom] using hw
      rw [hrest.after_eq]
      exact Or.inr (mem_append_left _ hdone)
    · exact ih hw
  | @tree above u depth v done rest inner after log log' _ _ _ hrest ih ih' =>
    have hlater : ∀ x, x ∈ inner ++ [v] → x ∈ after := fun x hx => by
      rw [hrest.after_eq]
      exact mem_append_left _ hx
    rw [targets_explored, mem_append, mem_append] at hw
    rcases hw with hw | hw | hw
    · obtain ⟨_, rfl⟩ : u = n ∧ w = v := by simpa using hw
      exact Or.inr (hlater w (by simp))
    · rcases ih hw with hw | hw
      · rcases mem_cons.mp hw with rfl | hw
        · exact Or.inr (hlater w (by simp))
        · exact Or.inl hw
      · exact Or.inr (hlater w (by simp [hw]))
    · exact ih' hw

end

end Explores

/-! ## The loop -/

namespace DfsWalk

variable {g : GraphView} {d : TraversalDirection} {color : Nat → Color} {path above done succs after : List Nat}
  {u v depth : Nat} {frames : List DfsFrame} {before log : List DfsEvent}

/-- Open nodes are gray and finished ones black. -/
def Colored (color : Nat → Color) (path done : List Nat) : Prop :=
  ∀ n, (color n = .gray ↔ n ∈ path) ∧ (color n = .black ↔ n ∈ done)

theorem Colored.white_iff (h : Colored color path done) (n : Nat) : color n = .white ↔ n ∉ path ∧ n ∉ done := by
  rw [← (h n).1, ← (h n).2]
  cases color n <;> simp

theorem Colored.discover (h : Colored color path done) (hv : v ∉ done) :
    Colored (update color v .gray) (v :: path) done := by
  intro n
  by_cases hn : n = v
  · subst hn
    simp [hv]
  · simp [hn, h n]

theorem Colored.finish (h : Colored color (v :: path) done) (hv : v ∉ path) :
    Colored (update color v .black) path (done ++ [v]) := by
  intro n
  by_cases hn : n = v
  · subst hn
    simp [hv]
  · simp [hn, h n]

/-- How many nodes have not been discovered. -/
def whites (g : GraphView) (color : Nat → Color) : Nat :=
  total (fun n => if color n = .white then 1 else 0) (List.range g.nodeBound)

theorem whites_discover (hv : v < g.nodeBound) (hwhite : color v = .white) :
    whites g (update color v .gray) < whites g color := by
  change whites g (update color v .gray) + 1 ≤ whites g color
  refine total_drop (x := v) (fun n _ => ?_) (mem_range.mpr hv) ?_
  · by_cases hn : n = v
    · simp [hn]
    · simp [hn]
  · simp [hwhite]

theorem whites_finish : whites g (update color v .black) ≤ whites g color := by
  refine total_le fun n _ => ?_
  by_cases hn : n = v
  · simp [hn]
  · simp [hn]

theorem record_finish : record g d (before, ⟨color, ⟨u, depth, []⟩ :: frames⟩) =
    some (before ++ [.finish u], ⟨update color u .black, frames⟩) := rfl

theorem record_back (hv : color v = .gray) : record g d (before, ⟨color, ⟨u, depth, v :: succs⟩ :: frames⟩) =
    some (before ++ [.backEdge u v], ⟨color, ⟨u, depth, succs⟩ :: frames⟩) := by
  simp [record, step, hv]

theorem record_cross (hv : color v = .black) : record g d (before, ⟨color, ⟨u, depth, v :: succs⟩ :: frames⟩) =
    some (before ++ [.forwardOrCross u v], ⟨color, ⟨u, depth, succs⟩ :: frames⟩) := by
  simp [record, step, hv]

theorem record_tree (hv : color v = .white) : record g d (before, ⟨color, ⟨u, depth, v :: succs⟩ :: frames⟩) =
    some (before ++ [.treeEdge u v, .discover v (depth + 1)], ⟨update color v .gray,
      ⟨v, depth + 1, g.neighbors d v⟩ :: ⟨u, depth, succs⟩ :: frames⟩) := by
  simp [record, step, hv, descend]

/-- The loop classifies the entries of the top frame as the recursive walk does. -/
theorem exists_explores (hg : g.Lawful) (room : Nat) : ∀ {above done : List Nat} {u : Nat} {color : Nat → Color}
    (depth : Nat) (frames : List DfsFrame) (before : List DfsEvent) (succs : List Nat), Colored color (u :: above) done →
    (∀ w ∈ succs, w < g.nodeBound) → whites g color ≤ room →
    ∃ log after color' k, Explores g d above u depth done succs log after ∧ Colored color' (u :: above) after ∧
      whites g color' ≤ whites g color ∧
      Steps (record g d) k (before, ⟨color, ⟨u, depth, succs⟩ :: frames⟩)
        (before ++ log, ⟨color', ⟨u, depth, []⟩ :: frames⟩) := by
  induction room using Nat.strong_induction_on with
  | _ room ihRoom =>
  intro above done u color depth frames before succs hcolored hlt hroom
  induction succs generalizing done color before with
  | nil =>
    refine ⟨[], done, color, 0, .exhausted above u depth done, hcolored, Nat.le_refl _, ?_⟩
    rw [append_nil]
    exact .zero _
  | cons v rest ih =>
    obtain ⟨hv, hrest⟩ := forall_mem_cons.mp hlt
    cases hcolor : color v with
    | gray =>
      obtain ⟨log, after, color', k, hlog, hcolored', hwhites, hsteps⟩ :=
        ih (before ++ [.backEdge u v]) hcolored hrest hroom
      refine ⟨.backEdge u v :: log, after, color', k + 1, .back ((hcolored v).1.mp hcolor) hlog, hcolored', hwhites, ?_⟩
      refine .succ (record_back hcolor) ?_
      rwa [append_assoc] at hsteps
    | black =>
      have hopen : v ∉ u :: above := by
        rw [← (hcolored v).1, hcolor]
        exact Color.noConfusion
      obtain ⟨log, after, color', k, hlog, hcolored', hwhites, hsteps⟩ :=
        ih (before ++ [.forwardOrCross u v]) hcolored hrest hroom
      refine ⟨.forwardOrCross u v :: log, after, color', k + 1, .cross hopen ((hcolored v).2.mp hcolor) hlog,
        hcolored', hwhites, ?_⟩
      refine .succ (record_cross hcolor) ?_
      rwa [append_assoc] at hsteps
    | white =>
      obtain ⟨hopen, hdone⟩ := (hcolored.white_iff v).mp hcolor
      have hless := whites_discover hv hcolor
      -- the whole of `v`, then the remaining entries of `u`
      obtain ⟨inner, finished, color₁, k₁, hinner, hcolored₁, hwhites₁, hsteps₁⟩ :=
        ihRoom (whites g (update color v .gray)) (by omega) (depth + 1) (⟨u, depth, rest⟩ :: frames)
          (before ++ [.treeEdge u v, .discover v (depth + 1)]) (g.neighbors d v) (hcolored.discover hdone) (fun w hw => hg.neighbors_lt d hv hw) (Nat.le_refl _)
      have hwhites₂ : whites g (update color₁ v .black) ≤ whites g color₁ := whites_finish
      obtain ⟨log, after, color', k, hlog, hcolored', hwhites, hsteps⟩ :=
        ih (before ++ [.treeEdge u v, .discover v (depth + 1)] ++ inner ++ [.finish v])
          (hcolored₁.finish hopen) hrest (by omega)
      refine ⟨explored u v (depth + 1) inner log, after, color', k₁ + 1 + k + 1, .tree hopen hdone hinner hlog,
        hcolored', by omega, ?_⟩
      refine .succ (record_tree hcolor) ?_
      have hsteps₂ := (hsteps₁.trans (.single record_finish)).trans hsteps
      simpa [explored] using hsteps₂

end DfsWalk

end CfgLib

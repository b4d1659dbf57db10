import CfgLib.Graph.View
import CfgLib.Lib.Loop
import Mathlib.Data.List.Sort
import Mathlib.Logic.Function.Basic

/-!
# Strongly connected components by finish time

`graph/scc.rs`: `kosaraju_scc` orders the nodes by finish time over the forward
graph and then walks the reverse graph in reverse finish order.  A component is
a run of nodes; the flat arrays of the source are lists here.
-/

namespace CfgLib

open CfgLib.Lib List Function

structure SccDecomposition where
  /-- The components in minting order, each ascending. -/
  components : List (List Nat)
  componentOf : Nat → Option Nat

/-- A node whose successors are being read, with those still to read. -/
structure SccFrame where
  node : Nat
  rest : List Nat

namespace Kosaraju

/-- The state of the finish-time walk; the head of the calls is the open frame. -/
structure Finishing where
  visited : Nat → Bool
  finishOrder : List Nat
  calls : List SccFrame

namespace Finishing

def empty : Finishing := ⟨fun _ => false, [], []⟩

/-- Mark a node and open its frame. -/
def enter (g : GraphView) (s : Finishing) (node : Nat) : Finishing :=
  { s with
    visited := update s.visited node true
    calls := ⟨node, g.successors node⟩ :: s.calls }

def step (g : GraphView) (s : Finishing) : Option Finishing :=
  match s.calls with
  | [] => none
  | ⟨node, successor :: rest⟩ :: calls =>
    let s := { s with calls := ⟨node, rest⟩ :: calls }
    some (if s.visited successor then s else s.enter g successor)
  | ⟨node, []⟩ :: calls => some { s with finishOrder := s.finishOrder ++ [node], calls := calls }

/-- Finish everything `start` reaches that is not visited yet. -/
def run (g : GraphView) (s : Finishing) (start : Nat) : Finishing :=
  if s.visited start then s
  else
    iterate (step g) (total (fun n => (g.successors n).length + 1) (List.range g.nodeBound))
      (s.enter g start)

end Finishing

def finishOrder (g : GraphView) : List Nat :=
  (g.nodeIds.foldl (Finishing.run g) .empty).finishOrder

/-- The state of the reverse walk of one component. -/
structure Collecting where
  componentOf : Nat → Option Nat
  /-- The nodes collected so far. -/
  nodes : List Nat
  stack : List Nat

namespace Collecting

def claim (index : Nat) (s : Collecting) (predecessor : Nat) : Collecting :=
  if (s.componentOf predecessor).isNone then
    { s with
      componentOf := update s.componentOf predecessor (some index)
      stack := predecessor :: s.stack }
  else s

def step (g : GraphView) (index : Nat) (s : Collecting) : Option Collecting :=
  match s.stack with
  | [] => none
  | node :: stack =>
    some ((g.predecessors node).foldl (claim index)
      { s with nodes := s.nodes ++ [node], stack := stack })

end Collecting

/-- Mint the component of `root` unless it has one. -/
def collect (g : GraphView) (result : SccDecomposition) (root : Nat) : SccDecomposition :=
  if (result.componentOf root).isSome then result
  else
    let index := result.components.length
    let s := iterate (Collecting.step g index) (g.nodeBound + 1)
      ⟨update result.componentOf root (some index), [], [root]⟩
    ⟨result.components ++ [s.nodes.insertionSort (· ≤ ·)], s.componentOf⟩

end Kosaraju

open Kosaraju

def kosarajuScc (g : GraphView) : SccDecomposition :=
  (finishOrder g).reverse.foldl (collect g) ⟨[], fun _ => none⟩

/-! ## Every live node has a component of live nodes -/

section Coverage

variable {g : GraphView}

/-- What the finish-time walk keeps. -/
structure Kosaraju.Finishing.WF (g : GraphView) (s : Finishing) : Prop where
  visited_iff : ∀ n, s.visited n ↔ n ∈ s.finishOrder ∨ n ∈ s.calls.map SccFrame.node
  live : ∀ n, s.visited n → n ∈ g.nodeIds
  rest_live : ∀ f ∈ s.calls, ∀ m ∈ f.rest, m ∈ g.nodeIds

namespace Kosaraju.Finishing

variable {s : Finishing}

@[simp] theorem enter_visited (node : Nat) :
    (s.enter g node).visited = update s.visited node true := rfl

@[simp] theorem enter_finishOrder (node : Nat) : (s.enter g node).finishOrder = s.finishOrder := rfl

@[simp] theorem enter_calls (node : Nat) :
    (s.enter g node).calls = ⟨node, g.successors node⟩ :: s.calls := rfl

theorem wf_empty : (empty).WF g :=
  ⟨by simp [empty], by simp [empty], by simp [empty]⟩

theorem WF.enter (hg : g.Lawful) (h : s.WF g) {node : Nat} (hnode : node ∈ g.nodeIds) :
    (s.enter g node).WF g := by
  refine ⟨?_, ?_, ?_⟩
  · intro n
    by_cases hn : n = node
    · simp [hn]
    · simp [hn, h.visited_iff n]
  · intro n hn
    by_cases he : n = node
    · rwa [he]
    · exact h.live n (by simpa [he] using hn)
  · intro f hf m hm
    rcases mem_cons.mp hf with rfl | hf
    · exact hg.successors_live node hnode m hm
    · exact h.rest_live f hf m hm

/-- Entries still to read and frames still to close, and those unvisited nodes may open. -/
def measure (g : GraphView) (s : Finishing) : Nat :=
  total (fun f : SccFrame => f.rest.length + 1) s.calls +
    total (fun n => if s.visited n then 0 else (g.successors n).length + 1) (List.range g.nodeBound)

theorem measure_enter {node : Nat} (hlt : node < g.nodeBound) (hv : s.visited node = false) :
    measure g (s.enter g node) ≤ measure g s := by
  have hdrop : total (fun n => if (s.enter g node).visited n then 0
        else (g.successors n).length + 1) (List.range g.nodeBound) +
          ((g.successors node).length + 1) ≤
      total (fun n => if s.visited n then 0 else (g.successors n).length + 1)
        (List.range g.nodeBound) := by
    refine total_drop ?_ (mem_range.mpr hlt) ?_
    · intro n _
      by_cases hn : n = node
      · simp [hn]
      · simp [hn]
    · simp [hv]
  unfold measure
  simp only [enter_calls, total_cons]
  omega

theorem WF.step (hg : g.Lawful) (h : s.WF g) {s' : Finishing} (hs : Finishing.step g s = some s') :
    s'.WF g ∧ measure g s' < measure g s ∧ ∀ n, s.visited n → s'.visited n := by
  unfold Finishing.step at hs
  split at hs
  · cases hs
  · next node successor rest calls hcalls =>
    have hrest : (⟨s.visited, s.finishOrder, ⟨node, rest⟩ :: calls⟩ : Finishing).WF g := by
      refine ⟨fun n => by rw [h.visited_iff n, hcalls]; rfl, h.live, ?_⟩
      intro f hf m hm
      rcases mem_cons.mp hf with rfl | hf
      · exact h.rest_live ⟨node, successor :: rest⟩ (by simp [hcalls]) m (by simp [hm])
      · exact h.rest_live f (by simp [hcalls, hf]) m hm
    have hsucc := h.rest_live ⟨node, successor :: rest⟩ (by simp [hcalls]) successor (by simp)
    have hlt : measure g (⟨s.visited, s.finishOrder, ⟨node, rest⟩ :: calls⟩ : Finishing) <
        measure g s := by
      simp [measure, hcalls, total_cons]
    obtain rfl := Option.some.inj hs
    dsimp only
    split
    · exact ⟨hrest, hlt, fun _ hn => hn⟩
    · next hv =>
      refine ⟨hrest.enter hg hsucc, Nat.lt_of_le_of_lt (measure_enter (hg.nodeIds_lt _ hsucc) ?_) hlt, ?_⟩
      · simpa using hv
      · intro n hn
        by_cases he : n = successor
        · simp [he]
        · simpa [he] using hn
  · next node calls hcalls =>
    obtain rfl := Option.some.inj hs
    refine ⟨⟨?_, h.live, fun f hf => h.rest_live f (by simp [hcalls, hf])⟩, ?_, fun _ hn => hn⟩
    · intro n
      rw [h.visited_iff n, hcalls]
      simp only [map_cons, mem_cons, mem_append, not_mem_nil, or_false]
      tauto
    · simp [measure, hcalls, total_cons]

theorem run_spec (hg : g.Lawful) (h : s.WF g) (hcalls : s.calls = []) {start : Nat}
    (hstart : start ∈ g.nodeIds) :
    (s.run g start).WF g ∧ (s.run g start).calls = [] ∧ (s.run g start).visited start ∧
      ∀ n, s.visited n → (s.run g start).visited n := by
  unfold run
  split
  · next hv => exact ⟨h, hcalls, hv, fun _ hn => hn⟩
  · next hv =>
    have hmeasure : measure g (s.enter g start) ≤
        total (fun n => (g.successors n).length + 1) (List.range g.nodeBound) := by
      refine Nat.le_trans (measure_enter (hg.nodeIds_lt _ hstart) (by simpa using hv)) ?_
      rw [measure, hcalls, total_nil, Nat.zero_add]
      exact total_le fun n _ => by split <;> omega
    obtain ⟨⟨hwf, hmono⟩, hexit⟩ := iterate_spec
      (I := fun t => t.WF g ∧ ∀ n, (s.enter g start).visited n → t.visited n)
      (fun t t' ht hs => by
        obtain ⟨h₁, h₂, h₃⟩ := ht.1.step hg hs
        exact ⟨⟨h₁, fun n hn => h₃ n (ht.2 n hn)⟩, h₂⟩)
      ⟨h.enter hg hstart, fun _ hn => hn⟩ hmeasure
    refine ⟨hwf, ?_, hmono start (by simp), fun n hn => hmono n ?_⟩
    · unfold step at hexit
      split at hexit
      · assumption
      · cases hexit
      · cases hexit
    · by_cases he : n = start
      · simp [he]
      · simpa [he] using hn

end Kosaraju.Finishing

theorem mem_finishOrder (hg : g.Lawful) (n : Nat) : n ∈ finishOrder g ↔ n ∈ g.nodeIds := by
  have hfold : ∀ (l : List Nat) (s : Finishing), (∀ n ∈ l, n ∈ g.nodeIds) → s.WF g → s.calls = [] →
      (l.foldl (Finishing.run g) s).WF g ∧ (l.foldl (Finishing.run g) s).calls = [] ∧
        ∀ n, n ∈ l ∨ s.visited n → (l.foldl (Finishing.run g) s).visited n := by
    intro l
    induction l with
    | nil => exact fun s _ h hc => ⟨h, hc, fun n hn => hn.resolve_left (by simp)⟩
    | cons a l ih =>
      intro s hl h hc
      obtain ⟨h₁, h₂, h₃, h₄⟩ := Finishing.run_spec hg h hc (hl a (by simp))
      obtain ⟨k₁, k₂, k₃⟩ := ih _ (fun n hn => hl n (by simp [hn])) h₁ h₂
      refine ⟨k₁, k₂, ?_⟩
      rintro n (hn | hn)
      · rcases mem_cons.mp hn with rfl | hn
        · exact k₃ n (Or.inr h₃)
        · exact k₃ n (Or.inl hn)
      · exact k₃ n (Or.inr (h₄ n hn))
  obtain ⟨hwf, hcalls, hall⟩ := hfold g.nodeIds .empty (fun _ hn => hn) Finishing.wf_empty rfl
  constructor
  · intro hn
    exact hwf.live n ((hwf.visited_iff n).mpr (Or.inl hn))
  · intro hn
    refine ((hwf.visited_iff n).mp (hall n (Or.inl hn))).resolve_right ?_
    simp [hcalls]

/-- What the reverse walk of one component keeps. -/
structure Kosaraju.Collecting.WF (g : GraphView) (s : Collecting) : Prop where
  claimed_live : ∀ n, (s.componentOf n).isSome → n ∈ g.nodeIds
  stack_live : ∀ n ∈ s.stack, n ∈ g.nodeIds
  nodes_live : ∀ n ∈ s.nodes, n ∈ g.nodeIds

namespace Kosaraju.Collecting

variable {s : Collecting}

/-- Nodes still to pop: those on the stack and those unclaimed. -/
def measure (g : GraphView) (s : Collecting) : Nat :=
  s.stack.length + total (fun n => if (s.componentOf n).isSome then 0 else 1) (List.range g.nodeBound)

theorem claim_spec (index : Nat) (hg : g.Lawful) (h : s.WF g) {n : Nat} (hn : n ∈ g.nodeIds) :
    (s.claim index n).WF g ∧ measure g (s.claim index n) ≤ measure g s ∧
      ∀ m, (s.componentOf m).isSome → ((s.claim index n).componentOf m).isSome := by
  unfold claim
  split
  · next hnone =>
    refine ⟨⟨?_, ?_, h.nodes_live⟩, ?_, ?_⟩
    · intro m hm
      by_cases he : m = n
      · rwa [he]
      · exact h.claimed_live m (by simpa [update_of_ne he] using hm)
    · intro m hm
      rcases mem_cons.mp hm with rfl | hm
      · exact hn
      · exact h.stack_live m hm
    · have hdrop : total (fun m => if (update s.componentOf n (some index) m).isSome then 0
            else 1) (List.range g.nodeBound) + 1 ≤
          total (fun m => if (s.componentOf m).isSome then 0 else 1) (List.range g.nodeBound) := by
        refine total_drop ?_ (mem_range.mpr (hg.nodeIds_lt n hn)) ?_
        · intro m _
          by_cases he : m = n
          · simp [he]
          · simp [he]
        · have : s.componentOf n = none := by simpa using hnone
          simp [this]
      simp only [measure, length_cons]
      omega
    · intro m hm
      by_cases he : m = n
      · simp [he]
      · simpa [update_of_ne he] using hm
  · exact ⟨h, Nat.le_refl _, fun _ hm => hm⟩

theorem foldl_claim (index : Nat) (hg : g.Lawful) (l : List Nat) : ∀ s : Collecting, s.WF g →
    (∀ n ∈ l, n ∈ g.nodeIds) → (l.foldl (claim index) s).WF g ∧
      measure g (l.foldl (claim index) s) ≤ measure g s ∧
      ∀ m, (s.componentOf m).isSome → ((l.foldl (claim index) s).componentOf m).isSome := by
  induction l with
  | nil => exact fun s h _ => ⟨h, Nat.le_refl _, fun _ hm => hm⟩
  | cons n l ih =>
    intro s h hl
    obtain ⟨h₁, h₂, h₃⟩ := claim_spec index hg h (hl n (by simp))
    obtain ⟨k₁, k₂, k₃⟩ := ih _ h₁ fun m hm => hl m (by simp [hm])
    exact ⟨k₁, Nat.le_trans k₂ h₂, fun m hm => k₃ m (h₃ m hm)⟩

theorem WF.step {index : Nat} (hg : g.Lawful) (h : s.WF g) {s' : Collecting}
    (hs : Collecting.step g index s = some s') : s'.WF g ∧ measure g s' < measure g s ∧
      ∀ m, (s.componentOf m).isSome → (s'.componentOf m).isSome := by
  unfold Collecting.step at hs
  split at hs
  · cases hs
  · next node stack hstack =>
    obtain rfl := Option.some.inj hs
    have hnode := h.stack_live node (by simp [hstack])
    have hpopped : (⟨s.componentOf, s.nodes ++ [node], stack⟩ : Collecting).WF g := by
      refine ⟨h.claimed_live, fun n hn => h.stack_live n (by simp [hstack, hn]), ?_⟩
      intro n hn
      rcases mem_append.mp hn with hn | hn
      · exact h.nodes_live n hn
      · rwa [mem_singleton.mp hn]
    obtain ⟨h₁, h₂, h₃⟩ := foldl_claim index hg (g.predecessors node) _ hpopped
      (hg.predecessors_live node hnode)
    refine ⟨h₁, Nat.lt_of_le_of_lt h₂ ?_, h₃⟩
    simp [measure, hstack]

end Kosaraju.Collecting

/-- What a decomposition under construction keeps. -/
structure SccDecomposition.OverLive (g : GraphView) (d : SccDecomposition) : Prop where
  claimed_live : ∀ n, (d.componentOf n).isSome → n ∈ g.nodeIds
  components_live : ∀ c ∈ d.components, ∀ n ∈ c, n ∈ g.nodeIds

theorem collect_spec (hg : g.Lawful) {d : SccDecomposition} (h : d.OverLive g) {root : Nat}
    (hroot : root ∈ g.nodeIds) :
    (collect g d root).OverLive g ∧ ((collect g d root).componentOf root).isSome ∧
      ∀ m, (d.componentOf m).isSome → ((collect g d root).componentOf m).isSome := by
  unfold collect
  split
  · next hsome => exact ⟨h, hsome, fun _ hm => hm⟩
  · dsimp only
    have hinit : (⟨update d.componentOf root (some d.components.length), [], [root]⟩ :
        Collecting).WF g := by
      refine ⟨?_, by simpa using hroot, by simp⟩
      intro n hn
      by_cases he : n = root
      · rwa [he]
      · exact h.claimed_live n (by simpa [update_of_ne he] using hn)
    have hmeasure : Collecting.measure g ⟨update d.componentOf root
        (some d.components.length), [], [root]⟩ ≤ g.nodeBound + 1 := by
      have hle : total (fun n => if (update d.componentOf root
          (some d.components.length) n).isSome then 0 else 1) (List.range g.nodeBound) ≤
            total (fun _ => 1) (List.range g.nodeBound) :=
        total_le fun n _ => by split <;> omega
      rw [total_one, length_range] at hle
      simp only [Collecting.measure, length_singleton]
      omega
    obtain ⟨⟨hwf, hmono⟩, _⟩ := iterate_spec
      (I := fun t => t.WF g ∧ ∀ n, ((update d.componentOf root
        (some d.components.length)) n).isSome → (t.componentOf n).isSome)
      (fun t t' ht hs => by
        obtain ⟨h₁, h₂, h₃⟩ := ht.1.step hg hs
        exact ⟨⟨h₁, fun n hn => h₃ n (ht.2 n hn)⟩, h₂⟩)
      ⟨hinit, fun _ hn => hn⟩ hmeasure
    refine ⟨⟨hwf.claimed_live, ?_⟩, hmono root (by simp), fun m hm => hmono m ?_⟩
    · intro c hc n hn
      rcases mem_append.mp hc with hc | hc
      · exact h.components_live c hc n hn
      · rw [mem_singleton.mp hc, mem_insertionSort] at hn
        exact hwf.nodes_live n hn
    · by_cases he : m = root
      · simp [he]
      · simpa [update_of_ne he] using hm

theorem kosarajuScc_spec (hg : g.Lawful) : (kosarajuScc g).OverLive g ∧
    ∀ n ∈ g.nodeIds, ((kosarajuScc g).componentOf n).isSome := by
  have hfold : ∀ (l : List Nat) (d : SccDecomposition), (∀ n ∈ l, n ∈ g.nodeIds) → d.OverLive g →
      (l.foldl (collect g) d).OverLive g ∧
        ∀ n, n ∈ l ∨ (d.componentOf n).isSome → ((l.foldl (collect g) d).componentOf n).isSome := by
    intro l
    induction l with
    | nil => exact fun d _ h => ⟨h, fun n hn => hn.resolve_left (by simp)⟩
    | cons a l ih =>
      intro d hl h
      obtain ⟨h₁, h₂, h₃⟩ := collect_spec hg h (hl a (by simp))
      obtain ⟨k₁, k₂⟩ := ih _ (fun n hn => hl n (by simp [hn])) h₁
      refine ⟨k₁, ?_⟩
      rintro n (hn | hn)
      · rcases mem_cons.mp hn with rfl | hn
        · exact k₂ n (Or.inr h₂)
        · exact k₂ n (Or.inl hn)
      · exact k₂ n (Or.inr (h₃ n hn))
  obtain ⟨h₁, h₂⟩ := hfold (finishOrder g).reverse ⟨[], fun _ => none⟩
    (fun n hn => (mem_finishOrder hg n).mp (mem_reverse.mp hn)) ⟨by simp, by simp⟩
  exact ⟨h₁, fun n hn => h₂ n (Or.inl (mem_reverse.mpr ((mem_finishOrder hg n).mpr hn)))⟩

end Coverage

end CfgLib

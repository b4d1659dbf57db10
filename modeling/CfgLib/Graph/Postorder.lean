import CfgLib.Graph.Traverse

/-!
# Depth-first postorder

`graph/traverse.rs`: the nodes a walk from a start meets, each after the nodes it
leads to first, and the reverse of that order.
-/

namespace CfgLib

open CfgLib.Lib Relation List

/-- The state of a postorder walk.  The flag of a stack entry is whether the neighbors of
the node have already been pushed. -/
structure Postorder where
  visited : Nat → Bool
  order : List Nat
  stack : List (Nat × Bool)

namespace Postorder

def init (start : Nat) : Postorder := ⟨fun _ => false, [], [(start, false)]⟩

/-- Push a node again, flagged, and above it the neighbors not visited yet. -/
def visit (g : GraphView) (d : TraversalDirection) (s : Postorder) (node : Nat) : Postorder where
  visited := Function.update s.visited node true
  order := s.order
  stack := (((g.neighbors d node).filter fun n => !Function.update s.visited node true n).map
    fun n => (n, false)) ++ (node, true) :: s.stack

def step (g : GraphView) (d : TraversalDirection) (s : Postorder) : Option Postorder :=
  match s.stack with
  | [] => none
  | (node, true) :: stack => some { s with order := s.order ++ [node], stack := stack }
  | (node, false) :: stack =>
    if s.visited node then some { s with stack := stack }
    else some (visit g d { s with stack := stack } node)

end Postorder

/-- The nodes in depth-first postorder from `start`; `none` is the panic on a start
beyond the bound. -/
def depthFirstPostorder (g : GraphView) (start : Nat) (d : TraversalDirection) :
    Option (List Nat) :=
  if start < g.nodeBound then
    some (iterate (Postorder.step g d)
      (1 + total (fun n => (g.neighbors d n).length + 1) (List.range g.nodeBound))
      (.init start)).order
  else none

def reversePostorder (g : GraphView) (start : Nat) (d : TraversalDirection) : Option (List Nat) :=
  (depthFirstPostorder g start d).map List.reverse

namespace Postorder

variable {g : GraphView} {d : TraversalDirection} {start : Nat} {s : Postorder}

structure Walking (g : GraphView) (d : TraversalDirection) (start : Nat) (s : Postorder) : Prop where
  visited_iff : ∀ n, s.visited n ↔ n ∈ s.order ∨ (n, true) ∈ s.stack
  stack_lt : ∀ n flag, (n, flag) ∈ s.stack → n < g.nodeBound
  reached : ∀ n, s.visited n ∨ (n, false) ∈ s.stack → ReflTransGen (g.Adjacent d) start n
  started : s.visited start ∨ (start, false) ∈ s.stack
  closed : ∀ a, s.visited a → ∀ b ∈ g.neighbors d a, s.visited b ∨ (b, false) ∈ s.stack

theorem walking_init (hstart : start < g.nodeBound) : Walking g d start (init start) := by
  refine ⟨by simp [init], ?_, ?_, Or.inr (by simp [init]), fun a ha => by simp [init] at ha⟩
  · intro n flag hn
    cases mem_singleton.mp hn
    exact hstart
  · intro n hn
    rcases hn with hn | hn
    · simp [init] at hn
    · cases mem_singleton.mp hn
      exact .refl

variable {node : Nat} {rest : List (Nat × Bool)}

theorem Walking.record (h : Walking g d start s) (hs : s.stack = (node, true) :: rest) :
    Walking g d start { s with order := s.order ++ [node], stack := rest } := by
  have hwaiting : ∀ n, (n, false) ∈ s.stack ↔ (n, false) ∈ rest := by
    intro n
    simp [hs]
  refine ⟨?_, ?_, ?_, ?_, ?_⟩
  · intro n
    rw [h.visited_iff n, hs, mem_cons, mem_append, mem_singleton, Prod.mk.injEq,
      and_iff_left rfl, or_assoc]
  · intro n flag hn
    apply h.stack_lt n flag
    rw [hs]
    exact mem_cons_of_mem _ hn
  · exact fun n hn => h.reached n (hn.imp_right (hwaiting n).mpr)
  · exact h.started.imp_right (hwaiting start).mp
  · exact fun a ha b hb => (h.closed a ha b hb).imp_right (hwaiting b).mp

theorem Walking.skip (h : Walking g d start s) (hs : s.stack = (node, false) :: rest)
    (hv : s.visited node = true) : Walking g d start { s with stack := rest } := by
  have hmove : ∀ n, s.visited n ∨ (n, false) ∈ s.stack → s.visited n ∨ (n, false) ∈ rest := by
    intro n hn
    rcases hn with hn | hn
    · exact Or.inl hn
    · rw [hs] at hn
      rcases mem_cons.mp hn with heq | hn
      · cases heq
        exact Or.inl hv
      · exact Or.inr hn
  have hback : ∀ n flag, (n, flag) ∈ rest → (n, flag) ∈ s.stack := fun n flag hn => by
    rw [hs]
    exact mem_cons_of_mem _ hn
  refine ⟨?_, fun n flag hn => h.stack_lt n flag (hback n flag hn),
    fun n hn => h.reached n (hn.imp_right (hback n false)), hmove start h.started,
    fun a ha b hb => hmove b (h.closed a ha b hb)⟩
  intro n
  rw [h.visited_iff n, hs]
  simp

theorem Walking.visit (hg : g.Lawful) (h : Walking g d start s)
    (hs : s.stack = (node, false) :: rest) :
    Walking g d start (Postorder.visit g d { s with stack := rest } node) := by
  have hnode : (node, false) ∈ s.stack := by simp [hs]
  have hreach := h.reached node (Or.inr hnode)
  have hvisited : ∀ n, Function.update s.visited node true n = true ↔ s.visited n ∨ n = node := by
    intro n
    by_cases hn : n = node
    · simp [hn]
    · simp [hn]
  have hpushed : ∀ n flag,
      (n, flag) ∈ (Postorder.visit g d { s with stack := rest } node).stack ↔
        (n ∈ g.neighbors d node ∧ ¬ (s.visited n ∨ n = node) ∧ flag = false) ∨
          (n = node ∧ flag = true) ∨ (n, flag) ∈ rest := by
    intro n flag
    unfold Postorder.visit
    rw [mem_append, mem_cons, mem_map, Prod.mk.injEq]
    refine or_congr_left ?_
    constructor
    · intro ⟨m, hm, heq⟩
      cases heq
      obtain ⟨hmem, hnew⟩ := mem_filter.mp hm
      exact ⟨hmem, fun hold => by simp [(hvisited n).mpr hold] at hnew, rfl⟩
    · intro ⟨hmem, hnew, hflag⟩
      refine ⟨n, mem_filter.mpr ⟨hmem, ?_⟩, by rw [hflag]⟩
      rw [Bool.not_eq_true', Bool.eq_false_iff]
      exact fun hold => hnew ((hvisited n).mp hold)
  have hmove : ∀ n, s.visited n ∨ (n, false) ∈ s.stack →
      Function.update s.visited node true n = true ∨
        (n, false) ∈ (Postorder.visit g d { s with stack := rest } node).stack := by
    intro n hn
    rcases hn with hn | hn
    · exact Or.inl ((hvisited n).mpr (Or.inl hn))
    · rw [hs] at hn
      rcases mem_cons.mp hn with heq | hn
      · cases heq
        exact Or.inl ((hvisited node).mpr (Or.inr rfl))
      · exact Or.inr ((hpushed n false).mpr (Or.inr (Or.inr hn)))
  refine ⟨?_, ?_, ?_, hmove start h.started, ?_⟩
  · intro n
    refine (hvisited n).trans ?_
    rw [h.visited_iff n, hs, hpushed n true]
    change _ ↔ n ∈ s.order ∨ _
    simp
    tauto
  · intro n flag hn
    rcases (hpushed n flag).mp hn with ⟨hmem, _, _⟩ | ⟨heq, _⟩ | hmem
    · exact hg.neighbors_lt d (h.stack_lt node false hnode) hmem
    · rw [heq]
      exact h.stack_lt node false hnode
    · apply h.stack_lt n flag
      rw [hs]
      exact mem_cons_of_mem _ hmem
  · intro n hn
    rcases hn with hn | hn
    · rcases (hvisited n).mp hn with hn | rfl
      · exact h.reached n (Or.inl hn)
      · exact hreach
    · rcases (hpushed n false).mp hn with ⟨hmem, _, _⟩ | ⟨_, hflag⟩ | hmem
      · exact hreach.tail hmem
      · cases hflag
      · apply h.reached n (Or.inr _)
        rw [hs]
        exact mem_cons_of_mem _ hmem
  · intro a ha b hb
    rcases (hvisited a).mp ha with ha | rfl
    · exact hmove b (h.closed a ha b hb)
    · by_cases hbv : s.visited b ∨ b = a
      · exact Or.inl ((hvisited b).mpr hbv)
      · exact Or.inr ((hpushed b false).mpr (Or.inl ⟨hb, hbv, rfl⟩))

/-- Entries still to pop: those on the stack and those unvisited nodes may push. -/
def measure (g : GraphView) (d : TraversalDirection) (s : Postorder) : Nat :=
  s.stack.length + total (fun n => if s.visited n then 0 else (g.neighbors d n).length + 1)
    (List.range g.nodeBound)

theorem measure_visit (hlt : node < g.nodeBound) (hv : s.visited node = false) :
    measure g d (s.visit g d node) ≤ measure g d s := by
  have hlen := length_filter_le (fun n => !Function.update s.visited node true n)
    (g.neighbors d node)
  have hdrop :
      total (fun n => if (s.visit g d node).visited n then 0 else (g.neighbors d n).length + 1)
        (List.range g.nodeBound) + ((g.neighbors d node).length + 1) ≤
      total (fun n => if s.visited n then 0 else (g.neighbors d n).length + 1)
        (List.range g.nodeBound) := by
    refine total_drop ?_ (mem_range.mpr hlt) ?_
    · intro n _
      by_cases hn : n = node
      · simp [visit, hn]
      · simp [visit, Function.update_of_ne hn]
    · simp [visit, hv]
  have hstack : (s.visit g d node).stack.length ≤
      (g.neighbors d node).length + 1 + s.stack.length := by
    simp only [visit, length_append, length_map, length_cons]
    omega
  unfold measure
  omega

theorem Walking.step (hg : g.Lawful) (h : Walking g d start s) {s' : Postorder}
    (hs' : Postorder.step g d s = some s') :
    Walking g d start s' ∧ measure g d s' < measure g d s := by
  unfold Postorder.step at hs'
  split at hs'
  · cases hs'
  · next node rest hs =>
    obtain rfl := Option.some.inj hs'
    exact ⟨h.record hs, by simp [measure, hs]⟩
  · next node rest hs =>
    have hrest : measure g d { s with stack := rest } < measure g d s := by
      simp [measure, hs]
    split at hs'
    · next hv =>
      obtain rfl := Option.some.inj hs'
      exact ⟨h.skip hs hv, hrest⟩
    · next hv =>
      obtain rfl := Option.some.inj hs'
      have hlt := h.stack_lt node false (by simp [hs])
      exact ⟨h.visit hg hs, Nat.lt_of_le_of_lt (measure_visit hlt (by simpa using hv)) hrest⟩

end Postorder

theorem reversePostorder_spec {g : GraphView} (hg : g.Lawful) {start : Nat}
    (hstart : start < g.nodeBound) (d : TraversalDirection) :
    ∃ order, reversePostorder g start d = some order ∧
      ∀ n, n ∈ order ↔ ReflTransGen (g.Adjacent d) start n := by
  have hmeasure : Postorder.measure g d (.init start) ≤
      1 + total (fun n => (g.neighbors d n).length + 1) (List.range g.nodeBound) := by
    simp [Postorder.measure, Postorder.init]
  obtain ⟨h, hexit⟩ := iterate_spec (fun _ _ h hs => Postorder.Walking.step hg h hs)
    (Postorder.walking_init (d := d) hstart) hmeasure
  have hstack : ∀ s : Postorder, Postorder.step g d s = none → s.stack = [] := by
    intro s hs
    unfold Postorder.step at hs
    split at hs
    · assumption
    · cases hs
    · split at hs <;> cases hs
  have hempty := hstack _ hexit
  refine ⟨_, by rw [reversePostorder, depthFirstPostorder, if_pos hstart, Option.map_some], ?_⟩
  intro n
  have hvisited := h.visited_iff n
  rw [hempty] at hvisited
  rw [mem_reverse]
  constructor
  · intro hn
    exact h.reached n (Or.inl (hvisited.mpr (Or.inl hn)))
  · intro hreach
    refine (hvisited.mp ?_).resolve_right not_mem_nil
    clear hvisited
    induction hreach with
    | refl => exact h.started.resolve_right (by simp [hempty])
    | tail _ hab ih => exact (h.closed _ ih _ hab).resolve_right (by simp [hempty])

end CfgLib

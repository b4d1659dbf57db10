import CfgLib.Graph.View
import CfgLib.Lib.Loop
import Mathlib.Data.List.Nodup
import Mathlib.Logic.Function.Basic
import Mathlib.Logic.Relation

/-!
# Depth-first traversal

`graph/traverse.rs`: the nodes a walk from a start meets, in preorder.
-/

namespace CfgLib

open CfgLib.Lib Relation List Function

/-- The state of a preorder walk; the head of the stack is its top. -/
structure Preorder where
  visited : Nat → Bool
  order : List Nat
  stack : List Nat

namespace Preorder

def init (start : Nat) : Preorder := ⟨fun _ => false, [], [start]⟩

/-- Record a node and push the neighbors not visited yet, the first on top. -/
def visit (g : GraphView) (d : TraversalDirection) (s : Preorder) (node : Nat) : Preorder where
  visited := update s.visited node true
  order := s.order ++ [node]
  stack := ((g.neighbors d node).filter fun n => !update s.visited node true n) ++ s.stack

def step (g : GraphView) (d : TraversalDirection) (s : Preorder) : Option Preorder :=
  match s.stack with
  | [] => none
  | node :: stack =>
    if s.visited node then some { s with stack := stack }
    else some (visit g d { s with stack := stack } node)

end Preorder

/-- The nodes in depth-first preorder from `start`; `none` is the panic on a start
beyond the bound. -/
def depthFirstPreorder (g : GraphView) (start : Nat) (d : TraversalDirection) : Option (List Nat) :=
  if start < g.nodeBound then
    some (iterate (Preorder.step g d)
      (1 + total (fun n => (g.neighbors d n).length) (List.range g.nodeBound)) (.init start)).order
  else none

/-! ## What a walk meets -/

def GraphView.Adjacent (g : GraphView) (d : TraversalDirection) (a b : Nat) : Prop :=
  b ∈ g.neighbors d a

namespace Preorder

variable {g : GraphView} {d : TraversalDirection} {start : Nat} {s : Preorder}

structure Walking (g : GraphView) (d : TraversalDirection) (start : Nat) (s : Preorder) : Prop where
  visited_iff : ∀ n, s.visited n ↔ n ∈ s.order
  stack_lt : ∀ n ∈ s.stack, n < g.nodeBound
  reached : ∀ n, n ∈ s.order ∨ n ∈ s.stack → ReflTransGen (g.Adjacent d) start n
  started : start ∈ s.order ∨ start ∈ s.stack
  closed : ∀ a ∈ s.order, ∀ b ∈ g.neighbors d a, b ∈ s.order ∨ b ∈ s.stack

theorem walking_init (hstart : start < g.nodeBound) : Walking g d start (init start) := by
  refine ⟨by simp [init], ?_, ?_, Or.inr (by simp [init]), fun a ha => by simp [init] at ha⟩
  · intro n hn
    rwa [mem_singleton.mp hn]
  · rintro n (hn | hn)
    · simp [init] at hn
    · rw [mem_singleton.mp hn]

variable {node : Nat} {rest : List Nat}

theorem Walking.skip (h : Walking g d start s) (hs : s.stack = node :: rest)
    (hv : s.visited node = true) : Walking g d start { s with stack := rest } := by
  -- what leaves the stack has been visited
  have hmove : ∀ n, n ∈ s.order ∨ n ∈ s.stack → n ∈ s.order ∨ n ∈ rest := by
    rintro n (hn | hn)
    · exact Or.inl hn
    · rw [hs] at hn
      rcases mem_cons.mp hn with rfl | hn
      · exact Or.inl ((h.visited_iff n).mp hv)
      · exact Or.inr hn
  have hback : ∀ n ∈ rest, n ∈ s.stack := fun n hn => by simp [hs, hn]
  exact ⟨h.visited_iff, fun n hn => h.stack_lt n (hback n hn),
    fun n hn => h.reached n (hn.imp_right (hback n)), hmove _ h.started,
    fun a ha b hb => hmove b (h.closed a ha b hb)⟩

theorem Walking.visit (hg : g.Lawful) (h : Walking g d start s) (hs : s.stack = node :: rest) :
    Walking g d start (Preorder.visit g d { s with stack := rest } node) := by
  have hnode : node ∈ s.stack := by simp [hs]
  have hreach := h.reached node (Or.inr hnode)
  have hvisited : ∀ n, update s.visited node true n = true ↔ n ∈ s.order ++ [node] := by
    intro n
    by_cases hn : n = node
    · simp [hn]
    · simp [hn, h.visited_iff n]
  have hmove : ∀ n, n ∈ s.order ∨ n ∈ s.stack →
      n ∈ s.order ++ [node] ∨ n ∈ (Preorder.visit g d { s with stack := rest } node).stack := by
    rintro n (hn | hn)
    · exact Or.inl (by simp [hn])
    · rw [hs] at hn
      rcases mem_cons.mp hn with rfl | hn
      · exact Or.inl (by simp)
      · exact Or.inr (by simp [Preorder.visit, hn])
  have hpushed : ∀ n ∈ (Preorder.visit g d { s with stack := rest } node).stack,
      n ∈ g.neighbors d node ∨ n ∈ s.stack := by
    intro n hn
    rcases mem_append.mp hn with hn | hn
    · exact Or.inl (mem_of_mem_filter hn)
    · exact Or.inr (by simp only [hs, mem_cons]; exact Or.inr hn)
  refine ⟨hvisited, ?_, ?_, hmove _ h.started, ?_⟩
  · intro n hn
    rcases hpushed n hn with hn | hn
    · exact hg.neighbors_lt d (h.stack_lt node hnode) hn
    · exact h.stack_lt n hn
  · rintro n (hn | hn)
    · rcases mem_append.mp hn with hn | hn
      · exact h.reached n (Or.inl hn)
      · rwa [mem_singleton.mp hn]
    · rcases hpushed n hn with hn | hn
      · exact hreach.tail hn
      · exact h.reached n (Or.inr hn)
  · intro a ha b hb
    rcases mem_append.mp ha with ha | ha
    · exact hmove b (h.closed a ha b hb)
    · rw [mem_singleton.mp ha] at hb
      by_cases hbv : update s.visited node true b = true
      · exact Or.inl ((hvisited b).mp hbv)
      · refine Or.inr (mem_append.mpr (Or.inl (mem_filter.mpr ⟨hb, ?_⟩)))
        simpa using hbv

/-! ## Termination -/

/-- Entries still to pop: those on the stack and those unvisited nodes may push. -/
def measure (g : GraphView) (d : TraversalDirection) (s : Preorder) : Nat :=
  s.stack.length +
    total (fun n => if s.visited n then 0 else (g.neighbors d n).length) (List.range g.nodeBound)

theorem measure_visit (hlt : node < g.nodeBound) (hv : s.visited node = false) :
    measure g d (s.visit g d node) ≤ measure g d s := by
  have hlen := length_filter_le (fun n => !update s.visited node true n)
    (g.neighbors d node)
  have hdrop : total (fun n => if (s.visit g d node).visited n then 0 else (g.neighbors d n).length)
        (List.range g.nodeBound) + (g.neighbors d node).length ≤
      total (fun n => if s.visited n then 0 else (g.neighbors d n).length)
        (List.range g.nodeBound) := by
    refine total_drop ?_ (mem_range.mpr hlt) ?_
    · intro n _
      by_cases hn : n = node
      · simp [visit, hn]
      · simp [visit, update_of_ne hn]
    · simp [visit, hv]
  have hstack : (s.visit g d node).stack.length ≤ (g.neighbors d node).length + s.stack.length := by
    simp only [visit, length_append]
    omega
  unfold measure
  omega

theorem Walking.step (hg : g.Lawful) (h : Walking g d start s) {s' : Preorder}
    (hs' : Preorder.step g d s = some s') :
    Walking g d start s' ∧ measure g d s' < measure g d s := by
  unfold Preorder.step at hs'
  split at hs'
  · cases hs'
  · next node rest hs =>
    have hrest : measure g d { s with stack := rest } < measure g d s := by
      simp [measure, hs]
    split at hs'
    · next hv =>
      obtain rfl := Option.some.inj hs'
      exact ⟨h.skip hs hv, hrest⟩
    · next hv =>
      obtain rfl := Option.some.inj hs'
      have hlt := h.stack_lt node (by simp [hs])
      exact ⟨h.visit hg hs, Nat.lt_of_le_of_lt (measure_visit hlt (by simpa using hv)) hrest⟩

end Preorder

variable {g : GraphView} {seeds : List Nat} {start : Nat} {d : TraversalDirection}

theorem depthFirstPreorder_spec (hg : g.Lawful) (hstart : start < g.nodeBound) (d : TraversalDirection) :
    ∃ order, depthFirstPreorder g start d = some order ∧
      ∀ n, n ∈ order ↔ ReflTransGen (g.Adjacent d) start n := by
  have hmeasure : Preorder.measure g d (.init start) ≤
      1 + total (fun n => (g.neighbors d n).length) (List.range g.nodeBound) := by
    simp [Preorder.measure, Preorder.init]
  obtain ⟨h, hexit⟩ := iterate_spec (fun _ _ h hs => Preorder.Walking.step hg h hs)
    (Preorder.walking_init (d := d) hstart) hmeasure
  refine ⟨_, by rw [depthFirstPreorder, if_pos hstart], fun n => ⟨fun hn => h.reached n (Or.inl hn), ?_⟩⟩
  have hstack : ∀ s : Preorder, Preorder.step g d s = none → s.stack = [] := by
    intro s hs
    unfold Preorder.step at hs
    split at hs
    · assumption
    · split at hs <;> cases hs
  have hempty := hstack _ hexit
  intro hreach
  induction hreach with
  | refl => exact h.started.resolve_right (by simp [hempty])
  | tail _ hab ih => exact (h.closed _ ih _ hab).resolve_right (by simp [hempty])

/-! ## Discovery order -/

namespace Preorder

variable {g : GraphView} {d : TraversalDirection} {start : Nat} {s : Preorder}

/-- Every recorded node but the start has a neighbor recorded before it. -/
structure Ordered (g : GraphView) (d : TraversalDirection) (start : Nat) (s : Preorder) : Prop where
  visited_iff : ∀ n, s.visited n ↔ n ∈ s.order
  nodup : s.order.Nodup
  pending : ∀ n ∈ s.stack, n = start ∨ ∃ v ∈ s.order, n ∈ g.neighbors d v
  parent : ∀ pre n post, s.order = pre ++ n :: post → n = start ∨ ∃ v ∈ pre, n ∈ g.neighbors d v

theorem Ordered.step (h : Ordered g d start s) {s' : Preorder}
    (hs' : Preorder.step g d s = some s') : Ordered g d start s' := by
  unfold Preorder.step at hs'
  split at hs'
  · cases hs'
  next node rest hs =>
  have hrest : ∀ n ∈ rest, n ∈ s.stack := fun n hn => by simp [hs, hn]
  split at hs'
  · obtain rfl := Option.some.inj hs'
    exact ⟨h.visited_iff, h.nodup, fun n hn => h.pending n (hrest n hn), h.parent⟩
  next hv =>
  obtain rfl := Option.some.inj hs'
  have hnew : node ∉ s.order := fun hmem => hv ((h.visited_iff node).mpr hmem)
  refine ⟨?_, ?_, ?_, ?_⟩
  · intro n
    by_cases hn : n = node
    · simp [visit, hn]
    · simp [visit, hn, h.visited_iff n]
  · exact nodup_append.mpr ⟨h.nodup, nodup_singleton _,
      fun x hx y hy hxy => hnew (mem_singleton.mp hy ▸ hxy ▸ hx)⟩
  · intro n hn
    rcases mem_append.mp hn with hn | hn
    · exact Or.inr ⟨node, by simp [visit], mem_of_mem_filter hn⟩
    · obtain hn | ⟨v, hv, hadj⟩ := h.pending n (hrest n hn)
      · exact Or.inl hn
      · exact Or.inr ⟨v, by simp [visit, hv], hadj⟩
  · intro pre n post hsplit
    rcases append_eq_append_iff.mp hsplit with ⟨l, hpre, hl⟩ | ⟨l, hpre, hl⟩
    · -- the new node is the last one
      cases l with
      | nil =>
        simp only [append_nil] at hpre
        simp only [nil_append, List.cons.injEq] at hl
        obtain ⟨rfl, _⟩ := hl
        subst hpre
        exact h.pending node (by simp [hs])
      | cons x l => simp at hl
    · cases l with
      | nil =>
        simp only [append_nil] at hpre
        simp only [nil_append, List.cons.injEq] at hl
        obtain ⟨rfl, _⟩ := hl
        rw [← hpre]
        exact h.pending _ (by simp [hs])
      | cons x l =>
        obtain ⟨rfl, hpost⟩ := List.cons.inj hl
        exact h.parent pre _ l hpre

theorem ordered_init (g : GraphView) (d : TraversalDirection) (start : Nat) :
    Ordered g d start (init start) :=
  ⟨by simp [init], by simp [init], by simp [init], by simp [init]⟩

end Preorder

theorem depthFirstPreorder_ordered {order : List Nat} (h : depthFirstPreorder g start d = some order) :
    order.Nodup ∧ ∀ pre n post, order = pre ++ n :: post →
      n = start ∨ ∃ v ∈ pre, n ∈ g.neighbors d v := by
  unfold depthFirstPreorder at h
  split at h
  · obtain rfl := Option.some.inj h
    have hord := iterate_invariant (fun _ _ h hs => Preorder.Ordered.step h hs)
      (1 + total (fun n => (g.neighbors d n).length) (List.range g.nodeBound))
      (Preorder.ordered_init g d start)
    exact ⟨hord.nodup, hord.parent⟩
  · cases h

/-! ## Reachability -/

/-- The state of a flood; the head of the stack is its top. -/
structure Flood where
  visited : Nat → Bool
  stack : List Nat

namespace Flood

/-- Mark a node and push it, unless it is marked. -/
def discover (s : Flood) (node : Nat) : Flood :=
  if s.visited node then s else ⟨update s.visited node true, node :: s.stack⟩

def step (g : GraphView) (d : TraversalDirection) (s : Flood) : Option Flood :=
  match s.stack with
  | [] => none
  | node :: stack => some ((g.neighbors d node).foldl discover { s with stack := stack })

end Flood

/-- Per node, whether some seed reaches it; `none` is the panic on a seed beyond the bound. -/
def reachable (g : GraphView) (seeds : List Nat) (d : TraversalDirection) : Option (Nat → Bool) :=
  if ∀ seed ∈ seeds, seed < g.nodeBound then
    some (iterate (Flood.step g d) g.nodeBound
      (seeds.foldl Flood.discover ⟨fun _ => false, []⟩)).visited
  else none

namespace Flood

variable {g : GraphView} {d : TraversalDirection} {seeds : List Nat} {s : Flood} {node : Nat}

theorem visited_discover (s : Flood) (node n : Nat) :
    (s.discover node).visited n ↔ n = node ∨ s.visited n := by
  unfold discover
  split
  · next h =>
    constructor
    · exact Or.inr
    · rintro (rfl | hn)
      · exact h
      · exact hn
  · by_cases hn : n = node <;> simp [hn]

/-- What the flood keeps: a marked node is pending or its neighbors are marked. -/
structure Flooding (g : GraphView) (d : TraversalDirection) (seeds : List Nat) (s : Flood) :
    Prop where
  lt : ∀ n, s.visited n → n < g.nodeBound
  stack_visited : ∀ n ∈ s.stack, s.visited n
  reached : ∀ n, s.visited n → ∃ seed ∈ seeds, ReflTransGen (g.Adjacent d) seed n
  closed : ∀ a, s.visited a → a ∈ s.stack ∨ ∀ b ∈ g.neighbors d a, s.visited b

/-- Nodes still to pop: those on the stack and those not marked yet. -/
def measure (g : GraphView) (s : Flood) : Nat :=
  s.stack.length + total (fun n => if s.visited n then 0 else 1) (List.range g.nodeBound)

theorem measure_discover (hnode : node < g.nodeBound) (s : Flood) :
    measure g (s.discover node) ≤ measure g s := by
  unfold discover
  split
  · exact Nat.le_refl _
  next hv =>
  have hdrop : total (fun n => if update s.visited node true n then 0 else 1)
        (List.range g.nodeBound) + 1 ≤
      total (fun n => if s.visited n then 0 else 1) (List.range g.nodeBound) := by
    refine total_drop ?_ (mem_range.mpr hnode) ?_
    · intro n _
      by_cases hn : n = node <;> simp [hn]
    · simp [hv]
  simp only [measure, length_cons]
  omega

theorem foldl_discover {l : List Nat} (hlt : ∀ n ∈ l, n < g.nodeBound) (s : Flood) :
    (∀ n, (l.foldl discover s).visited n ↔ n ∈ l ∨ s.visited n) ∧
      (∀ n ∈ (l.foldl discover s).stack, n ∈ l ∨ n ∈ s.stack) ∧
      (∀ n, (l.foldl discover s).visited n → n ∈ (l.foldl discover s).stack ∨ s.visited n) ∧
      (∀ n ∈ s.stack, n ∈ (l.foldl discover s).stack) ∧
      measure g (l.foldl discover s) ≤ measure g s := by
  induction l generalizing s with
  | nil => exact ⟨by simp, by simp, fun n hn => Or.inr hn, fun n hn => hn, Nat.le_refl _⟩
  | cons a l ih =>
    obtain ⟨hv, hst, hpend, hkeep, hμ⟩ := ih (fun n hn => hlt n (mem_cons_of_mem a hn))
      (s.discover a)
    have hμa := measure_discover (hlt a mem_cons_self) s
    have hstack : ∀ n, n ∈ (s.discover a).stack ↔ (n = a ∧ ¬ s.visited a) ∨ n ∈ s.stack := by
      intro n
      unfold discover
      split <;> simp_all
    rw [foldl_cons]
    refine ⟨?_, ?_, ?_, ?_, Nat.le_trans hμ hμa⟩
    · intro n
      rw [hv, visited_discover]
      simp only [mem_cons]
      tauto
    · intro n hn
      rcases hst n hn with hn | hn
      · exact Or.inl (mem_cons_of_mem a hn)
      · rcases (hstack n).mp hn with ⟨rfl, _⟩ | hn
        · exact Or.inl mem_cons_self
        · exact Or.inr hn
    · intro n hn
      rcases hpend n hn with hn | hn
      · exact Or.inl hn
      · by_cases hs : s.visited n
        · exact Or.inr hs
        · obtain rfl := ((visited_discover s a n).mp hn).resolve_right hs
          exact Or.inl (hkeep _ ((hstack _).mpr (Or.inl ⟨rfl, hs⟩)))
    · exact fun n hn => hkeep n ((hstack n).mpr (Or.inr hn))

theorem Flooding.step (hlt : ∀ n < g.nodeBound, ∀ m ∈ g.neighbors d n, m < g.nodeBound) (h : Flooding g d seeds s)
    {s' : Flood} (hs' : Flood.step g d s = some s') :
    Flooding g d seeds s' ∧ measure g s' < measure g s := by
  unfold Flood.step at hs'
  split at hs'
  · cases hs'
  next node rest hs =>
  obtain rfl := Option.some.inj hs'
  have hnode : s.visited node := h.stack_visited node (by simp [hs])
  obtain ⟨hv, hst, hpend, hkeep, hμ⟩ := foldl_discover (s := { s with stack := rest })
    (fun n hn => hlt node (h.lt node hnode) n hn)
  refine ⟨⟨?_, ?_, ?_, ?_⟩, ?_⟩
  · intro n hn
    rcases (hv n).mp hn with hn | hn
    · exact hlt node (h.lt node hnode) n hn
    · exact h.lt n hn
  · intro n hn
    rw [hv]
    rcases hst n hn with hn | hn
    · exact Or.inl hn
    · exact Or.inr (h.stack_visited n (by simp only [hs]; exact mem_cons_of_mem _ hn))
  · intro n hn
    rcases (hv n).mp hn with hn | hn
    · obtain ⟨seed, hseed, hreach⟩ := h.reached node hnode
      exact ⟨seed, hseed, hreach.tail hn⟩
    · exact h.reached n hn
  · intro a ha
    rcases hpend a ha with ha | ha
    · exact Or.inl ha
    by_cases hnd : a = node
    · exact Or.inr fun b hb => (hv b).mpr (Or.inl (hnd ▸ hb))
    rcases h.closed a ha with hmem | hall
    · rw [hs] at hmem
      exact Or.inl (hkeep a ((mem_cons.mp hmem).resolve_left hnd))
    · exact Or.inr fun b hb => (hv b).mpr (Or.inr (hall b hb))
  · refine Nat.lt_of_le_of_lt hμ ?_
    simp [measure, hs]

end Flood

/-- The marked nodes are those some seed reaches, where no neighbor lies beyond the bound. -/
theorem reachable_within (hlt : ∀ n < g.nodeBound, ∀ m ∈ g.neighbors d n, m < g.nodeBound)
    (hseeds : ∀ seed ∈ seeds, seed < g.nodeBound) : ∃ marked, reachable g seeds d = some marked ∧
      ∀ n, marked n ↔ ∃ seed ∈ seeds, ReflTransGen (g.Adjacent d) seed n := by
  obtain ⟨hv, hst, hpend, _, hμ⟩ := Flood.foldl_discover hseeds ⟨fun _ => false, []⟩
  have hinit : Flood.Flooding g d seeds (seeds.foldl Flood.discover ⟨fun _ => false, []⟩) := by
    refine ⟨?_, ?_, ?_, ?_⟩
    · intro n hn
      exact hseeds n (((hv n).mp hn).resolve_right (by simp))
    · intro n hn
      exact (hv n).mpr (Or.inl ((hst n hn).resolve_right (by simp)))
    · intro n hn
      exact ⟨n, ((hv n).mp hn).resolve_right (by simp), .refl⟩
    · intro a ha
      exact Or.inl ((hpend a ha).resolve_right (by simp))
  have hfuel : Flood.measure g (seeds.foldl Flood.discover ⟨fun _ => false, []⟩) ≤ g.nodeBound := by
    refine Nat.le_trans hμ ?_
    simp [Flood.measure, total_one]
  obtain ⟨h, hexit⟩ := iterate_spec (fun _ _ h hs => Flood.Flooding.step hlt h hs) hinit hfuel
  refine ⟨_, by rw [reachable, if_pos hseeds], fun n => ⟨h.reached n, ?_⟩⟩
  have hempty : ∀ s : Flood, Flood.step g d s = none → s.stack = [] := by
    intro s hs
    unfold Flood.step at hs
    split at hs
    · assumption
    · cases hs
  have hkeep : ∀ n ∈ seeds, (iterate (Flood.step g d) g.nodeBound
      (seeds.foldl Flood.discover ⟨fun _ => false, []⟩)).visited n := by
    intro n hn
    have hmono : ∀ s s' : Flood, s.visited n → Flood.step g d s = some s' → s'.visited n := by
      intro s s' hvis hs'
      unfold Flood.step at hs'
      split at hs'
      · cases hs'
      next node rest _ =>
      obtain rfl := Option.some.inj hs'
      generalize g.neighbors d node = l
      have hall : ∀ (l : List Nat) (s : Flood), s.visited n → (l.foldl Flood.discover s).visited n := by
        intro l
        induction l with
        | nil => exact fun _ h => h
        | cons a l ih => exact fun s h => ih _ ((Flood.visited_discover s a n).mpr (Or.inr h))
      exact hall l _ hvis
    exact iterate_invariant hmono _ ((hv n).mpr (Or.inl hn))
  rintro ⟨seed, hseed, hreach⟩
  induction hreach with
  | refl => exact hkeep seed hseed
  | tail _ hab ih =>
    exact (h.closed _ ih).resolve_left (by simp [hempty _ hexit]) _ hab

theorem reachable_spec (hg : g.Lawful) (hseeds : ∀ seed ∈ seeds, seed < g.nodeBound) (d : TraversalDirection) :
    ∃ marked, reachable g seeds d = some marked ∧
      ∀ n, marked n ↔ ∃ seed ∈ seeds, ReflTransGen (g.Adjacent d) seed n :=
  reachable_within (fun _ hn _ hm => hg.neighbors_lt d hn hm) hseeds

end CfgLib

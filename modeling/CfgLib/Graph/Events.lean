import CfgLib.Graph.Traverse

/-!
# Depth-first events

`graph/search/events/depth_first.rs`: a depth-first walk as the sequence of its
discoveries, classified edges and finishes, which a callback may break off.
-/

namespace CfgLib

open CfgLib.Lib

inductive DfsEvent where
  | discover (node depth : Nat)
  | treeEdge (source target : Nat)
  | backEdge (source target : Nat)
  | forwardOrCross (source target : Nat)
  | finish (node : Nat)
  deriving DecidableEq, Repr

/-- Undiscovered, on the current path, finished. -/
inductive Color where
  | white
  | gray
  | black
  deriving DecidableEq, Repr

/-- One frame of the explicit stack, with the successors still to examine. -/
structure DfsFrame where
  node : Nat
  depth : Nat
  successors : List Nat

/-- The state of a walk; the head of the frames is the top. -/
structure DfsWalk where
  color : Nat → Color
  frames : List DfsFrame

namespace DfsWalk

/-- Push the frame of a node just discovered. -/
def descend (g : GraphView) (d : TraversalDirection) (w : DfsWalk) (node depth : Nat) : DfsWalk where
  color := Function.update w.color node .gray
  frames := ⟨node, depth, g.neighbors d node⟩ :: w.frames

/-- One turn of the loop, with the events it emits. -/
def step (g : GraphView) (d : TraversalDirection) (w : DfsWalk) : Option (List DfsEvent × DfsWalk) :=
  match w.frames with
  | [] => none
  | frame :: frames =>
    match frame.successors with
    | [] => some ([.finish frame.node], ⟨Function.update w.color frame.node .black, frames⟩)
    | successor :: successors =>
      let w := { w with frames := { frame with successors } :: frames }
      match w.color successor with
      | .white => some ([.treeEdge frame.node successor, .discover successor (frame.depth + 1)],
          w.descend g d successor (frame.depth + 1))
      | .gray => some ([.backEdge frame.node successor], w)
      | .black => some ([.forwardOrCross frame.node successor], w)

/-- One turn of a walk that the callback has not broken off. -/
def turn {β : Type} (g : GraphView) (d : TraversalDirection) (onEvent : DfsEvent → Option β)
    (s : Option β × DfsWalk) : Option (Option β × DfsWalk) :=
  if s.1.isSome then none
  else (s.2.step g d).map fun (events, w) => (events.findSome? onEvent, w)

/-- The frames of a node that has not been discovered, and what its frame takes. -/
def cost (g : GraphView) (d : TraversalDirection) (n : Nat) : Nat := (g.neighbors d n).length + 1

end DfsWalk

/-- Walk depth-first from `start` until the callback breaks with a value; the outer `none` is
the panic on a start beyond the bound. -/
def depthFirstEvents {β : Type} (g : GraphView) (start : Nat) (d : TraversalDirection)
    (onEvent : DfsEvent → Option β) : Option (Option β) :=
  if start < g.nodeBound then
    let first := (onEvent (.discover start 0),
      DfsWalk.descend g d ⟨fun _ => .white, []⟩ start 0)
    some (iterate (DfsWalk.turn g d onEvent)
      (total (DfsWalk.cost g d) (List.range g.nodeBound)) first).1
  else none

/-! ## The walk ends -/

namespace DfsWalk

variable {g : GraphView} {d : TraversalDirection} {β : Type} {onEvent : DfsEvent → Option β}

/-- Turns still to take: what is left of the frames, and what undiscovered nodes may push. -/
def measure (g : GraphView) (d : TraversalDirection) (w : DfsWalk) : Nat :=
  total (fun frame => frame.successors.length + 1) w.frames +
    total (fun n => if w.color n = .white then cost g d n else 0) (List.range g.nodeBound)

/-- What the walk keeps: it examines nodes below the bound only. -/
def Bounded (g : GraphView) (w : DfsWalk) : Prop :=
  ∀ frame ∈ w.frames, ∀ n ∈ frame.successors, n < g.nodeBound

theorem measure_descend {w : DfsWalk} {node : Nat} (hnode : node < g.nodeBound)
    (hwhite : w.color node = .white) (depth : Nat) :
    measure g d (w.descend g d node depth) ≤ measure g d w := by
  unfold measure descend
  have hdrop : total (fun n => if Function.update w.color node .gray n = .white then cost g d n else 0)
      (List.range g.nodeBound) + cost g d node ≤
        total (fun n => if w.color n = .white then cost g d n else 0) (List.range g.nodeBound) := by
    refine total_drop (x := node) ?_ (List.mem_range.mpr hnode) ?_
    · intro n _
      by_cases hn : n = node
      · subst hn
        simp
      · rw [Function.update_of_ne hn]
    · rw [Function.update_self, if_neg (by decide), if_pos hwhite, Nat.zero_add]
  simp only [total_cons]
  unfold cost at hdrop ⊢
  omega

theorem Bounded.descend (hg : g.Lawful) {w : DfsWalk} (h : w.Bounded g) {node : Nat}
    (hnode : node < g.nodeBound) (depth : Nat) : (w.descend g d node depth).Bounded g := by
  intro frame hframe n hn
  rcases List.mem_cons.mp hframe with rfl | hframe
  · exact hg.neighbors_lt d hnode hn
  · exact h frame hframe n hn

theorem Bounded.step (hg : g.Lawful) {w w' : DfsWalk} {events : List DfsEvent} (h : w.Bounded g)
    (hs : w.step g d = some (events, w')) : w'.Bounded g ∧ measure g d w' < measure g d w := by
  unfold DfsWalk.step at hs
  split at hs
  · cases hs
  next frame frames hframes =>
  have hrest : ∀ f ∈ frames, ∀ n ∈ f.successors, n < g.nodeBound := fun f hf =>
    h f (by rw [hframes]; exact List.mem_cons_of_mem _ hf)
  split at hs
  · next hnil =>
    cases hs
    refine ⟨hrest, ?_⟩
    have hcolors : total (fun n => if Function.update w.color frame.node .black n = .white then
        cost g d n else 0) (List.range g.nodeBound) ≤
          total (fun n => if w.color n = .white then cost g d n else 0) (List.range g.nodeBound) := by
      refine total_le ?_
      intro n _
      by_cases hn : n = frame.node
      · subst hn
        simp
      · rw [Function.update_of_ne hn]
    unfold measure
    rw [hframes]
    simp only [total_cons]
    omega
  · next successor successors hsuccessors =>
    have hin : ∀ n ∈ successor :: successors, n < g.nodeBound := fun n hn =>
      h frame (by rw [hframes]; exact List.mem_cons_self) n (by rw [hsuccessors]; exact hn)
    have hadvanced : Bounded g { w with frames := { frame with successors } :: frames } := by
      intro f hf n hn
      rcases List.mem_cons.mp hf with rfl | hf
      · exact hin n (List.mem_cons_of_mem _ hn)
      · exact hrest f hf n hn
    have hless : measure g d { w with frames := { frame with successors } :: frames } <
        measure g d w := by
      unfold measure
      rw [hframes]
      simp only [total_cons, hsuccessors, List.length_cons]
      omega
    simp only at hs
    split at hs
    · next hwhite =>
      cases hs
      have hsuccessor := hin successor List.mem_cons_self
      exact ⟨hadvanced.descend hg hsuccessor _,
        Nat.lt_of_le_of_lt (measure_descend
          (w := { w with frames := { frame with successors } :: frames }) hsuccessor hwhite _) hless⟩
    · cases hs
      exact ⟨hadvanced, hless⟩
    · cases hs
      exact ⟨hadvanced, hless⟩

end DfsWalk

/-- Enough turns are taken: the walk either breaks off or has finished every frame. -/
theorem depthFirstEvents_ends {g : GraphView} (hg : g.Lawful) {start : Nat} {d : TraversalDirection}
    {β : Type} (onEvent : DfsEvent → Option β) (hstart : start < g.nodeBound) :
    let s := iterate (DfsWalk.turn g d onEvent) (total (DfsWalk.cost g d) (List.range g.nodeBound))
      (onEvent (.discover start 0), DfsWalk.descend g d ⟨fun _ => .white, []⟩ start 0)
    depthFirstEvents g start d onEvent = some s.1 ∧ (s.1.isSome ∨ s.2.frames = []) := by
  intro s
  refine ⟨by unfold depthFirstEvents; rw [if_pos hstart], ?_⟩
  have hempty : DfsWalk.Bounded g ⟨fun _ => .white, []⟩ := fun frame hframe => by cases hframe
  have hspec : DfsWalk.Bounded g s.2 ∧ DfsWalk.turn g d onEvent s = none := by
    refine iterate_spec (I := fun s : Option β × DfsWalk => s.2.Bounded g)
      (μ := fun s => DfsWalk.measure g d s.2) ?_ (hempty.descend hg hstart 0) ?_
    · intro t t' ht hturn
      unfold DfsWalk.turn at hturn
      split at hturn
      · cases hturn
      · obtain ⟨⟨events, w⟩, hstep, heq⟩ := Option.map_eq_some_iff.mp hturn
        cases heq
        exact ht.step hg hstep
    · refine Nat.le_trans (DfsWalk.measure_descend hstart rfl 0) ?_
      unfold DfsWalk.measure
      simp [total_nil]
  have hexit := hspec.2
  unfold DfsWalk.turn at hexit
  by_cases hbroken : s.1.isSome = true
  · exact Or.inl hbroken
  · rw [if_neg hbroken, Option.map_eq_none_iff] at hexit
    refine Or.inr ?_
    unfold DfsWalk.step at hexit
    split at hexit
    · assumption
    · split at hexit
      · cases hexit
      · simp only at hexit
        split at hexit
        · cases hexit
        · cases hexit
        · cases hexit

end CfgLib

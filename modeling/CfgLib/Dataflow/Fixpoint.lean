import Mathlib
import CfgLib.Dataflow.NodeFixpoint
import CfgLib.Dataflow.EdgeFixpoint
import CfgLib.Graph.Traverse

/-!
# Block-level fixpoint dataflow

`dataflow/fixpoint.rs`: the block solver runs on the node solver's core.  Going
forward the root meets the boundary fact beside its predecessors, and the full
solve starts from the blocks the root reaches.
-/

namespace CfgLib.Dataflow

open CfgLib.Lib Relation

variable {α ε : Type}

/-- A block-level problem over a fixed rooted view. -/
structure Problem (α : Type) where
  direction : Direction
  /-- The initial fact for every block. -/
  bottom : α
  /-- The fact at the entry going forward, at the exits going backward. -/
  boundary : α
  meet : α → α → α
  transfer : Nat → α → α

/-- A fallible block-level problem over a fixed rooted view. -/
structure TryProblem (α ε : Type) where
  direction : Direction
  bottom : α
  boundary : Except ε α
  meet : Nat → α → α → Except ε α
  transfer : Nat → α → Except ε α

def Problem.infallible (p : Problem α) : TryProblem α Empty where
  direction := p.direction
  bottom := p.bottom
  boundary := .ok p.boundary
  meet _ a b := .ok (p.meet a b)
  transfer n a := .ok (p.transfer n a)

/-- A block problem on the node solver's core. -/
def TryProblem.blockProblem (p : TryProblem α ε) : TryNodeProblem α ε where
  direction := p.direction
  bottom := p.bottom
  boundary := p.boundary
  meet := p.meet
  transfer := p.transfer

/-- The blocks the full solve starts from: those reachable from the root going
forward, every block going backward. -/
def initialWorklist (v : RootedView) (d : Direction) : Option Worklist :=
  match d with
  | .forward =>
    (depthFirstPreorder v.toGraphView v.root d.traversal).map (Worklist.of v.nodeBound)
  | .backward => some (.live v.toGraphView)

/-- The block that meets the boundary fact beside its upstream neighbors. -/
def entryOf (v : RootedView) (d : Direction) : Option Nat :=
  if d = .forward then some v.root else none

def trySolveBlocks [DecidableEq α] (v : RootedView) (p : TryProblem α ε) (worklist : Worklist)
    (config : SolveConfig) (fuel : Nat) : Option (Except (TrySolveError ε) (Facts α)) :=
  trySolveWithWorklist v.toGraphView p.blockProblem worklist (entryOf v p.direction) config fuel

/-- The full solve; `none` also stands for the panic on a root beyond the bound. -/
def solveProblemWithConfig [DecidableEq α] (v : RootedView) (p : Problem α) (config : SolveConfig)
    (fuel : Nat) : Option (Except SolveError (Facts α)) :=
  (initialWorklist v p.direction).bind fun worklist =>
    (trySolveBlocks v p.infallible worklist config fuel).map collapseInfallible

/-- The solve from `seeds`; `none` also stands for the panic on a seed that is not
a live block. -/
def solveProblemFromWithConfig [DecidableEq α] (v : RootedView) (p : Problem α) (seeds : List Nat)
    (config : SolveConfig) (fuel : Nat) : Option (Except SolveError (Facts α)) :=
  (Worklist.seeded v.toGraphView seeds).bind fun worklist =>
    (trySolveBlocks v p.infallible worklist config fuel).map collapseInfallible

/-! ## A block problem as a node problem -/

def Problem.node (p : Problem α) : NodeProblem α where
  direction := p.direction
  bottom := p.bottom
  boundary := p.boundary
  meet := p.meet
  transfer := p.transfer

def Problem.renumber (p : Problem α) (ν : Nat ≃ Nat) : Problem α :=
  { p with transfer := fun n => p.transfer (ν.symm n) }

def Problem.solver [DecidableEq α] (v : RootedView) (p : Problem α) : Solver (Facts α) :=
  ⟨solveProblemWithConfig v p, solveProblemFromWithConfig v p⟩

/-- The blocks the full solve starts from. -/
def Problem.Initial (v : RootedView) (p : Problem α) (n : Nat) : Prop :=
  match p.direction with
  | .forward => ReflTransGen (v.Adjacent .outgoing) v.root n
  | .backward => n ∈ v.nodeIds

section Promises

variable {v v' : RootedView} {p : Problem α} {ν : Nat ≃ Nat}

theorem Problem.initial_live (hv : v.Lawful) (hroot : v.root ∈ v.nodeIds) {n : Nat}
    (hn : p.Initial v n) : n ∈ v.nodeIds := by
  unfold Problem.Initial at hn
  cases hd : p.direction with
  | backward => rwa [hd] at hn
  | forward =>
    rw [hd] at hn
    induction hn with
    | refl => exact hroot
    | tail _ hab ih => exact hv.neighbors_live .outgoing ih hab

theorem initialWorklist_eq (hv : v.Lawful) (hroot : v.root ∈ v.nodeIds) :
    ∃ indices : List Nat, initialWorklist v p.direction = some (.of v.nodeBound indices) ∧
      ∀ n, n ∈ indices ↔ p.Initial v n := by
  cases hd : p.direction with
  | backward => exact ⟨v.nodeIds, rfl, fun n => by rw [Problem.Initial, hd]⟩
  | forward =>
    obtain ⟨order, horder, hiff⟩ :=
      depthFirstPreorder_spec hv (hv.nodeIds_lt v.root hroot) .outgoing
    refine ⟨order, ?_, fun n => by rw [Problem.Initial, hd]; exact hiff n⟩
    unfold initialWorklist
    simp only [Direction.traversal, horder]
    rfl

theorem Problem.initial_renumber (hv : v.Lawful) (hroot : v.root ∈ v.nodeIds)
    (hren : v.Renumbered v' ν) (n : Nat) : (p.renumber ν).Initial v' (ν n) ↔ p.Initial v n := by
  unfold Problem.Initial
  change (match p.direction with | .forward => _ | .backward => _) ↔ _
  cases p.direction with
  | backward => exact hren.view.nodeIds_iff n
  | forward =>
    dsimp only
    constructor
    · intro h
      -- walk the image back, keeping the node before it
      have hback : ∀ m, ReflTransGen (v'.Adjacent .outgoing) v'.root m →
          ∃ k, ν k = m ∧ k ∈ v.nodeIds ∧ ReflTransGen (v.Adjacent .outgoing) v.root k := by
        intro m hm
        induction hm with
        | refl => exact ⟨v.root, hren.root_eq.symm, hroot, .refl⟩
        | @tail a b _ hab ih =>
          obtain ⟨k, rfl, hk, hreach⟩ := ih
          obtain ⟨j, rfl⟩ := ν.surjective b
          have hkj := (hren.view.mem_neighbors .outgoing hk).mp hab
          exact ⟨j, rfl, hv.neighbors_live .outgoing hk hkj, hreach.tail hkj⟩
      obtain ⟨k, hk, _, hreach⟩ := hback _ h
      rwa [← ν.injective hk]
    · intro h
      have hforth : n ∈ v.nodeIds ∧ ReflTransGen (v'.Adjacent .outgoing) v'.root (ν n) := by
        induction h with
        | refl => exact ⟨hroot, by rw [hren.root_eq]⟩
        | tail _ hab ih =>
          exact ⟨hv.neighbors_live .outgoing ih.1 hab,
            ih.2.tail ((hren.view.mem_neighbors .outgoing ih.1).mpr hab)⟩
      exact hforth.2

variable [DecidableEq α] [PartialOrder α] [OrderBot α] [WellFoundedGT α]

theorem Problem.promises_solver (hv : v.Lawful) (hroot : v.root ∈ v.nodeIds) (hp : p.node.Monotone) :
    (p.solver v).Promises (· ∈ v.nodeIds) (p.Initial v)
      (p.node.IsLeast v.toGraphView (entryOf v p.direction)) where
  full := by
    obtain ⟨indices, hinit, hiff⟩ := initialWorklist_eq (p := p) hv hroot
    have hlive : ∀ n ∈ indices, n ∈ v.nodeIds := fun n hn => initial_live hv hroot ((hiff n).mp hn)
    obtain ⟨hw, hqueued⟩ := Worklist.wf_of fun n hn => hv.nodeIds_lt n (hlive n hn)
    obtain ⟨facts, hsettles, hleast⟩ := settles_trySolveWithWorklist (entryOf v p.direction) hv hp hw
      (fun n hn => hlive n ((hqueued n).mp hn)) (System.ascending_of_wellFoundedGT _ _)
    refine ⟨facts, ?_, by simpa only [hqueued, hiff] using hleast⟩
    unfold Problem.solver solveProblemWithConfig
    simp only [hinit, Option.bind_some]
    exact hsettles
  seeded seeds hseeds := settles_seeded hv hp hseeds
  seeded_initial seeds hseeds := by
    funext config fuel
    obtain ⟨indices, hinit, hiff⟩ := initialWorklist_eq (p := p) hv hroot
    unfold Problem.solver solveProblemWithConfig solveProblemFromWithConfig
    dsimp only
    rw [hinit, Worklist.seeded_eq hv fun n hn => initial_live hv hroot ((hseeds n).mp hn),
      Worklist.of_congr fun n => (hseeds n).trans (hiff n).symm]

theorem Problem.agree_solver (hv : v.Lawful) (hroot : v.root ∈ v.nodeIds) (hp : p.node.Monotone)
    (hu : p.node.Unordered) (hv' : v'.Lawful) (hren : v.Renumbered v' ν) :
    (p.solver v).Agree ((p.renumber ν).solver v') (· ∈ v.nodeIds) ν fun facts facts' =>
      ∀ n, facts'.input (ν n) = facts.input n ∧ facts'.output (ν n) = facts.output n := by
  have hroot' : v'.root ∈ v'.nodeIds := by
    rw [hren.root_eq]
    exact (hren.view.nodeIds_iff _).mpr hroot
  have hentry : entryOf v' p.direction = (entryOf v p.direction).map ν := by
    unfold entryOf
    split
    · rw [hren.root_eq]
      rfl
    · rfl
  refine (promises_solver hv hroot hp).agree (promises_solver (p := p.renumber ν) hv' hroot' (hp.renumber ν))
    hren.view.nodeIds_iff (initial_renumber hv hroot hren) (fun _ hn => initial_live hv hroot hn) ?_
  intro start start' facts facts' hstart hlive hl hl'
  change (p.node.renumber ν).IsLeast v'.toGraphView (entryOf v' p.direction) start' facts' at hl'
  rw [hentry] at hl'
  exact NodeProblem.IsLeast.renumber hv hv' hp hu hren.view hstart hlive hl hl'

end Promises

/-! ## The three solvers -/

/-- The solvers compute least solutions: every solve settles on the least solution
from its start, a seeded solve from the nodes the full solve starts from is the full
solve, and neither numbering nor adjacency order shows in the facts. -/
theorem solvers_least {α δ : Type} [DecidableEq α] [PartialOrder α] [OrderBot α] [WellFoundedGT α] :
    (∀ (g : GraphView) (p : NodeProblem α), g.Lawful → p.Monotone →
      (p.solver g).Promises (· ∈ g.nodeIds) (· ∈ g.nodeIds) (p.IsLeast g none) ∧
      (p.Unordered → ∀ (g' : GraphView) (ν : Nat ≃ Nat), g'.Lawful → g.Renumbered g' ν →
        (p.solver g).Agree ((p.renumber ν).solver g') (· ∈ g.nodeIds) ν fun facts facts' =>
          ∀ n, facts'.input (ν n) = facts.input n ∧ facts'.output (ν n) = facts.output n)) ∧
    (∀ (g : EdgeView δ) (p : EdgeProblem α δ), g.Lawful → p.Monotone →
      (p.solver g).Promises (· ∈ g.nodeIds) (· ∈ g.nodeIds) (p.IsLeast g) ∧
      (p.Unordered → ∀ (g' : EdgeView δ) (ν ρ : Nat ≃ Nat), g'.Lawful → g.Renumbered g' ν ρ →
        (p.solver g).Agree ((p.renumber ν ρ).solver g') (· ∈ g.nodeIds) ν fun facts facts' =>
          (∀ n, facts'.nodes.input (ν n) = facts.nodes.input n ∧
            facts'.nodes.output (ν n) = facts.nodes.output n) ∧
          ∀ e, facts'.edge (ρ e) = facts.edge e)) ∧
    (∀ (v : RootedView) (p : Problem α), v.Lawful → v.root ∈ v.nodeIds → p.node.Monotone →
      (p.solver v).Promises (· ∈ v.nodeIds) (p.Initial v)
        (p.node.IsLeast v.toGraphView (entryOf v p.direction)) ∧
      (p.node.Unordered → ∀ (v' : RootedView) (ν : Nat ≃ Nat), v'.Lawful → v.Renumbered v' ν →
        (p.solver v).Agree ((p.renumber ν).solver v') (· ∈ v.nodeIds) ν fun facts facts' =>
          ∀ n, facts'.input (ν n) = facts.input n ∧ facts'.output (ν n) = facts.output n)) := by
  refine ⟨?_, ?_, ?_⟩
  · intro g p hg hp
    exact ⟨NodeProblem.promises_solver hg hp,
      fun hu g' ν hg' hren => NodeProblem.agree_solver hg hp hu hg' hren⟩
  · intro g p hg hp
    exact ⟨EdgeProblem.promises_solver hg hp,
      fun hu g' ν ρ hg' hren => EdgeProblem.agree_solver hg hp hu hg' hren⟩
  · intro v p hv hroot hp
    exact ⟨Problem.promises_solver hv hroot hp,
      fun hu v' ν hv' hren => Problem.agree_solver hv hroot hp hu hv' hren⟩

/-- Two blocks that lead to a third; the root is the first of them. -/
def sampleView : RootedView := ⟨.ofEdges 3 [0, 1, 2] [(0, 1), (2, 1)], 0⟩

theorem sampleView_lawful : sampleView.Lawful :=
  GraphView.lawful_ofEdges (by decide) (by decide) (by decide)

/-- Whether the boundary reaches a block from another one than the root. -/
def sampleProblem : Problem Bool where
  direction := .forward
  bottom := false
  boundary := true
  meet a b := a || b
  transfer n a := n ≠ 0 && a

theorem sampleProblem_monotone : sampleProblem.node.Monotone where
  bottom_eq := rfl
  meet_mono := by decide
  transfer_mono n := by
    by_cases hn : n = 0
    · simp [sampleProblem, Problem.node, hn]
    · simp [sampleProblem, Problem.node, hn]

def sampleEdgeView : EdgeView Unit where
  toGraphView := .ofEdges 2 [0, 1] [(0, 1)]
  edgeBound := 1
  edgeIds := [0]
  outgoing n := if n = 0 then [0] else []
  incoming n := if n = 1 then [0] else []
  edge e := ⟨e, 0, 1, ()⟩

theorem sampleEdgeView_lawful : sampleEdgeView.Lawful where
  view := GraphView.lawful_ofEdges (by decide) (by decide) (by decide)
  edgeIds_lt := by decide
  edgeIds_nodup := by decide
  edge_id := by decide
  source_live := by decide
  target_live := by decide
  mem_outgoing := by simp [sampleEdgeView, GraphView.ofEdges]
  mem_incoming := by simp [sampleEdgeView, GraphView.ofEdges]
  outgoing_nodup := by decide
  incoming_nodup := by decide
  successors_perm := by decide
  predecessors_perm := by decide

def sampleEdgeProblem : EdgeProblem Bool Unit where
  direction := .forward
  bottom := false
  boundary n := if n = 0 then some true else none
  meet a b := a || b
  transferNode _ a := a
  transferEdge := defaultTransferEdge .forward

theorem solvers_least_sample :
    (sampleProblem.node.solver sampleView.toGraphView).Promises (· ∈ sampleView.nodeIds)
        (· ∈ sampleView.nodeIds) (sampleProblem.node.IsLeast sampleView.toGraphView none) ∧
      (sampleEdgeProblem.solver sampleEdgeView).Promises (· ∈ sampleEdgeView.nodeIds)
        (· ∈ sampleEdgeView.nodeIds) (sampleEdgeProblem.IsLeast sampleEdgeView) ∧
      (sampleProblem.solver sampleView).Promises (· ∈ sampleView.nodeIds)
        (sampleProblem.Initial sampleView)
        (sampleProblem.node.IsLeast sampleView.toGraphView (some 0)) :=
  ⟨(solvers_least (δ := Unit)).1 _ _ sampleView_lawful sampleProblem_monotone |>.1,
    solvers_least.2.1 _ _ sampleEdgeView_lawful
      ⟨rfl, by decide, fun _ _ _ h => h, fun _ _ _ _ _ _ h => h⟩ |>.1,
    (solvers_least (δ := Unit)).2.2 _ _ sampleView_lawful (by decide) sampleProblem_monotone |>.1⟩

/-- A forward block solve from every block sees blocks the root does not reach, the
full solve does not. -/
theorem solveProblem_seeded_all_ne :
    sampleView.Lawful ∧ sampleView.root ∈ sampleView.nodeIds ∧ sampleProblem.node.Monotone ∧
      sampleProblem.node.Unordered ∧ ∃ facts facts',
        solveProblemWithConfig sampleView sampleProblem .new 9 = some (.ok facts) ∧
        solveProblemFromWithConfig sampleView sampleProblem sampleView.nodeIds .new 9 =
          some (.ok facts') ∧ facts.input 1 = false ∧ facts'.input 1 = true :=
  ⟨sampleView_lawful, by decide, sampleProblem_monotone, ⟨by decide, by decide⟩, _, _, rfl, rfl,
    by decide, by decide⟩

end CfgLib.Dataflow

import CfgLib.Graph.EdgeView
import CfgLib.Dataflow.Solve

/-!
# Edge-sensitive fixpoint dataflow

`dataflow/edge_fixpoint.rs`: facts live on edges, a node meets its boundary fact
with the facts of the edges that flow into it, and each edge leaving it observes
both physical facts of the node.  The unknowns of the equation system are the
edge facts; the two node facts are what a visit records.
-/

namespace CfgLib.Dataflow

open CfgLib.Lib List Function

variable {α ε δ : Type}

/-- An edge-sensitive problem over a fixed view. -/
structure EdgeProblem (α δ : Type) where
  direction : Direction
  bottom : α
  /-- Optional boundary fact for a node. -/
  boundary : Nat → Option α
  meet : α → α → α
  /-- Transfer through one node in the direction of the analysis. -/
  transferNode : Nat → α → α
  /-- Transfer onto one edge from the two physical facts of its node. -/
  transferEdge : EdgeRef δ → α → α → α

/-- A fallible edge-sensitive problem over a fixed view. -/
structure TryEdgeProblem (α ε δ : Type) where
  direction : Direction
  bottom : α
  boundary : Nat → Except ε (Option α)
  meet : Nat → α → α → Except ε α
  transferNode : Nat → α → Except ε α
  transferEdge : EdgeRef δ → α → α → Except ε α

def EdgeProblem.infallible (p : EdgeProblem α δ) : TryEdgeProblem α Empty δ where
  direction := p.direction
  bottom := p.bottom
  boundary n := .ok (p.boundary n)
  meet _ a b := .ok (p.meet a b)
  transferNode n a := .ok (p.transferNode n a)
  transferEdge e a b := .ok (p.transferEdge e a b)

def defaultTransferEdge (direction : Direction) (_ : EdgeRef δ) (nodeInput nodeOutput : α) : α :=
  match direction with
  | .forward => nodeOutput
  | .backward => nodeInput

structure EdgeFacts (α : Type) where
  nodes : Facts α
  edge : Nat → Option α

/-- The facts of one solve so far, in program order for the nodes. -/
structure EdgeTables (α : Type) where
  input : Nat → α
  output : Nat → α
  edge : Nat → Option α

def EdgeTables.factOn (p : TryEdgeProblem α ε δ) (tables : EdgeTables α) (e : Nat) : α :=
  (tables.edge e).getD p.bottom

/-- The node's boundary fact met with the fact on every edge flowing into it, in
adjacency order; bottom when there is neither. -/
def meetEdges (g : EdgeView δ) (p : TryEdgeProblem α ε δ) (tables : EdgeTables α) (node : Nat) :
    Except ε α := do
  let boundary ← p.boundary node
  let merged ← mergeAll (p.meet node) boundary
    ((g.edges p.direction.traversal.against node).map (tables.factOn p))
  .ok (merged.getD p.bottom)

/-- Transfer onto one edge leaving `node`, queueing its far end when the fact changed. -/
def visitEdge [DecidableEq α] (g : EdgeView δ) (p : TryEdgeProblem α ε δ) (node : Nat)
    (st : EdgeTables α × Worklist) (e : Nat) : Except ε (EdgeTables α × Worklist) := do
  let (tables, worklist) := st
  let newFact ← p.transferEdge (g.edge e) (tables.input node) (tables.output node)
  if newFact ≠ tables.factOn p e then
    .ok ({ tables with edge := update tables.edge e (some newFact) },
      worklist.insert ((g.edge e).next p.direction.traversal))
  else .ok (tables, worklist)

def visitAlong [DecidableEq α] (g : EdgeView δ) (p : TryEdgeProblem α ε δ) (node : Nat)
    (st : EdgeTables α × Worklist) : Except ε (EdgeTables α × Worklist) := do
  let (tables, worklist) := st
  let flowingIn ← meetEdges g p tables node
  let flowingOut ← p.transferNode node flowingIn
  let (input, output) := p.direction.programOrder flowingIn flowingOut
  let tables := { tables with
    input := update tables.input node input
    output := update tables.output node output }
  (g.edges p.direction.traversal node).foldlM (visitEdge g p node) (tables, worklist)

def EdgeTables.init (g : EdgeView δ) (p : TryEdgeProblem α ε δ) : EdgeTables α where
  input _ := p.bottom
  output _ := p.bottom
  edge e := if e ∈ g.edgeIds then some p.bottom else none

def trySolveEdgesWithWorklist [DecidableEq α] (g : EdgeView δ) (p : TryEdgeProblem α ε δ)
    (worklist : Worklist) (config : SolveConfig) (fuel : Nat) :
    Option (Except (TrySolveError ε) (EdgeFacts α)) :=
  (drive config (visitAlong g p) fuel ⟨.init g p, worklist, 0⟩).map fun result =>
    result.map fun r => ⟨⟨r.facts.input, r.facts.output, r.steps⟩, r.facts.edge⟩

def solveEdgeProblemWithConfig [DecidableEq α] (g : EdgeView δ) (p : EdgeProblem α δ)
    (config : SolveConfig) (fuel : Nat) : Option (Except SolveError (EdgeFacts α)) :=
  (trySolveEdgesWithWorklist g p.infallible (.live g.toGraphView) config fuel).map collapseInfallible

/-- Solve an edge-sensitive problem from `seeds`; `none` also stands for the panic
on a seed that is not a live node. -/
def solveEdgeProblemFromWithConfig [DecidableEq α] (g : EdgeView δ) (p : EdgeProblem α δ)
    (seeds : List Nat) (config : SolveConfig) (fuel : Nat) :
    Option (Except SolveError (EdgeFacts α)) :=
  (Worklist.seeded g.toGraphView seeds).bind fun worklist =>
    (trySolveEdgesWithWorklist g p.infallible worklist config fuel).map collapseInfallible

/-! ## The equations -/

def EdgeProblem.flowingIn (g : EdgeView δ) (p : EdgeProblem α δ) (node : Nat) (x : Nat → α) : α :=
  (joinAll p.meet (p.boundary node)
    ((g.edges p.direction.traversal.against node).map x)).getD p.bottom

def EdgeProblem.nodeFacts (g : EdgeView δ) (p : EdgeProblem α δ) (node : Nat) (x : Nat → α) :
    α × α :=
  p.direction.programOrder (p.flowingIn g node x) (p.transferNode node (p.flowingIn g node x))

def EdgeProblem.system (g : EdgeView δ) (p : EdgeProblem α δ) : System Nat α (α × α) where
  slots n := g.edges p.direction.traversal n
  readers e := [(g.edge e).next p.direction.traversal]
  record n x := p.nodeFacts g n x
  value n x e := p.transferEdge (g.edge e) (p.nodeFacts g n x).1 (p.nodeFacts g n x).2

/-- Monotone operations over an order whose least element is the problem's bottom. -/
structure EdgeProblem.Monotone [PartialOrder α] [OrderBot α] (p : EdgeProblem α δ) : Prop where
  bottom_eq : p.bottom = ⊥
  meet_mono : ∀ a a' b b', a ≤ a' → b ≤ b' → p.meet a b ≤ p.meet a' b'
  transferNode_mono : ∀ n a b, a ≤ b → p.transferNode n a ≤ p.transferNode n b
  transferEdge_mono : ∀ e a a' b b', a ≤ a' → b ≤ b' → p.transferEdge e a b ≤ p.transferEdge e a' b'

def EdgeProblem.IsLeast [PartialOrder α] [OrderBot α] (g : EdgeView δ) (p : EdgeProblem α δ)
    (start : Nat → Prop) (facts : EdgeFacts α) : Prop :=
  (∀ e, (facts.edge e).isSome ↔ e ∈ g.edgeIds) ∧
    (p.system g).IsLeastSolution (· ∈ g.nodeIds) start (⊥, ⊥) (fun e => (facts.edge e).getD ⊥)
      fun n => (facts.nodes.input n, facts.nodes.output n)

section Equations

variable {g : EdgeView δ} {p : EdgeProblem α δ}

theorem flowingIn_congr {n : Nat} {x y : Nat → α}
    (h : ∀ e ∈ g.edges p.direction.traversal.against n, x e = y e) :
    p.flowingIn g n x = p.flowingIn g n y := by
  rw [EdgeProblem.flowingIn, EdgeProblem.flowingIn, map_congr_left h]

theorem programOrder_mono [PartialOrder α] (d : Direction) {a a' b b' : α} (ha : a ≤ a') (hb : b ≤ b') :
    (d.programOrder a b).1 ≤ (d.programOrder a' b').1 ∧
      (d.programOrder a b).2 ≤ (d.programOrder a' b').2 := by
  cases d with
  | forward => exact ⟨ha, hb⟩
  | backward => exact ⟨hb, ha⟩

theorem EdgeProblem.lawful_system [PartialOrder α] [OrderBot α] (hg : g.Lawful) (hp : p.Monotone) :
    (p.system g).Lawful (· ∈ g.nodeIds) := by
  have hlocal : ∀ n x y, n ∈ g.nodeIds →
      (∀ e, n ∈ (p.system g).readers e → x e = y e) → p.nodeFacts g n x = p.nodeFacts g n y := by
    intro n x y hn hxy
    have : p.flowingIn g n x = p.flowingIn g n y := by
      apply flowingIn_congr
      intro e he
      apply hxy
      have hnext := ((hg.mem_edges _ hn).mp he).2
      rw [TraversalDirection.against_against] at hnext
      exact mem_singleton.mpr hnext.symm
    simp only [EdgeProblem.nodeFacts, this]
  refine ⟨?_, ?_, hlocal, ?_, ?_⟩
  · intro n m e hn hm hen hem
    rw [← ((hg.mem_edges _ hn).mp hen).2, ((hg.mem_edges _ hm).mp hem).2]
  · intro n e m hn he hm
    rw [mem_singleton.mp hm]
    exact hg.next_live _ ((hg.mem_edges _ hn).mp he).1
  · intro n x y hn hxy
    funext e
    simp only [EdgeProblem.system, hlocal n x y hn hxy]
  · intro n x y e _ _ hxy
    have hin : p.flowingIn g n x ≤ p.flowingIn g n y := joinAll_mono hp.meet_mono hxy _ _ _
    obtain ⟨h₁, h₂⟩ := programOrder_mono p.direction hin (hp.transferNode_mono n _ _ hin)
    exact hp.transferEdge_mono _ _ _ _ _ h₁ h₂

end Equations

/-! ## The solver runs the equations -/

section Run

variable {g : EdgeView δ} {p : EdgeProblem α δ}

theorem meetEdges_infallible (tables : EdgeTables α) (node : Nat) :
    meetEdges g p.infallible tables node =
      .ok (p.flowingIn g node (tables.factOn p.infallible)) := by
  have hmerge := mergeAll_ok p.meet (p.boundary node)
    ((g.edges p.direction.traversal.against node).map (tables.factOn p.infallible))
  change (mergeAll (fun a b => .ok (p.meet a b)) (p.boundary node)
    ((g.edges p.direction.traversal.against node).map (tables.factOn p.infallible)) >>= _) = _
  rw [hmerge]
  rfl

variable [DecidableEq α]

theorem foldlM_visitEdge {bound : Nat} (node : Nat) (es : List Nat) :
    ∀ (tables : EdgeTables α) (w : Worklist), es.Nodup → w.WF bound →
      (∀ e ∈ es, (g.edge e).next p.direction.traversal < bound) →
      ∃ edge' w', es.foldlM (visitEdge g p.infallible node) (tables, w) =
          .ok ({ tables with edge := edge' }, w') ∧ w'.WF bound ∧
        (∀ e ∈ es, (edge' e).getD p.bottom =
          p.transferEdge (g.edge e) (tables.input node) (tables.output node)) ∧
        (∀ e, e ∉ es → edge' e = tables.edge e) ∧ (∀ e, (tables.edge e).isSome → (edge' e).isSome) ∧
        (∀ e, (edge' e).isSome → (tables.edge e).isSome ∨ e ∈ es) ∧
        ∀ i, w'.queued i ↔ w.queued i ∨ ∃ e ∈ es,
          (edge' e).getD p.bottom ≠ (tables.edge e).getD p.bottom ∧
            i = (g.edge e).next p.direction.traversal := by
  induction es with
  | nil =>
    intro tables w _ hw _
    exact ⟨tables.edge, w, rfl, hw, by simp, fun _ _ => rfl, fun _ h => h, fun _ h => Or.inl h,
      by simp⟩
  | cons e es ih =>
    intro tables w hnodup hw hlt
    obtain ⟨he, hnodup⟩ := nodup_cons.mp hnodup
    rw [foldlM_cons]
    by_cases hchange : p.transferEdge (g.edge e) (tables.input node) (tables.output node) ≠
        (tables.edge e).getD p.bottom
    · have hvisit : visitEdge g p.infallible node (tables, w) e =
          .ok ({ tables with
              edge := update tables.edge e
                (some (p.transferEdge (g.edge e) (tables.input node) (tables.output node))) },
            w.insert ((g.edge e).next p.direction.traversal)) := by
        change (if p.transferEdge (g.edge e) (tables.input node) (tables.output node) ≠
          (tables.edge e).getD p.bottom then _ else _) = _
        rw [if_pos hchange]
        rfl
      obtain ⟨edge', w', hrun, hw', hnew, hold, hsome, hback, hqueue⟩ := ih
        { tables with
          edge := update tables.edge e
            (some (p.transferEdge (g.edge e) (tables.input node) (tables.output node))) }
        (w.insert ((g.edge e).next p.direction.traversal)) hnodup (hw.insert (hlt e (by simp)))
        fun k hk => hlt k (by simp [hk])
      have hedge : edge' e =
          some (p.transferEdge (g.edge e) (tables.input node) (tables.output node)) := by
        rw [hold e he]
        simp
      refine ⟨edge', w', by rw [hvisit]; exact hrun, hw', ?_, ?_, ?_, ?_, ?_⟩
      · intro k hk
        rcases mem_cons.mp hk with rfl | hk
        · rw [hedge]
          rfl
        · exact hnew k hk
      · intro k hk
        simp only [mem_cons, not_or] at hk
        rw [hold k hk.2]
        exact update_of_ne hk.1 _ _
      · intro k hk
        apply hsome
        by_cases hke : k = e
        · simp [hke]
        · simpa [update_of_ne hke] using hk
      · intro k hk
        by_cases hke : k = e
        · exact Or.inr (by simp [hke])
        · rcases hback k hk with hk | hk
          · exact Or.inl (by simpa [update_of_ne hke] using hk)
          · exact Or.inr (by simp [hk])
      · intro i
        rw [hqueue, Worklist.insert_queued]
        constructor
        · rintro ((hi | hi) | ⟨k, hk, hne, hi⟩)
          · exact Or.inl hi
          · exact Or.inr ⟨e, by simp, by rw [hedge]; exact hchange, hi⟩
          · have hke : k ≠ e := fun h => he (h ▸ hk)
            refine Or.inr ⟨k, by simp [hk], ?_, hi⟩
            simpa [update_of_ne hke] using hne
        · rintro (hi | ⟨k, hk, hne, hi⟩)
          · exact Or.inl (Or.inl hi)
          · rcases mem_cons.mp hk with rfl | hk
            · exact Or.inl (Or.inr hi)
            · have hke : k ≠ e := fun h => he (h ▸ hk)
              refine Or.inr ⟨k, hk, ?_, hi⟩
              simpa [update_of_ne hke] using hne
    · have heq : p.transferEdge (g.edge e) (tables.input node) (tables.output node) =
          (tables.edge e).getD p.bottom := by simpa using hchange
      have hvisit : visitEdge g p.infallible node (tables, w) e = .ok (tables, w) := by
        change (if p.transferEdge (g.edge e) (tables.input node) (tables.output node) ≠
          (tables.edge e).getD p.bottom then _ else _) = _
        rw [if_neg hchange]
      obtain ⟨edge', w', hrun, hw', hnew, hold, hsome, hback, hqueue⟩ := ih tables w hnodup hw
        fun k hk => hlt k (by simp [hk])
      refine ⟨edge', w', by rw [hvisit]; exact hrun, hw', ?_, ?_, hsome, ?_, ?_⟩
      · intro k hk
        rcases mem_cons.mp hk with rfl | hk
        · rw [hold k he]
          exact heq.symm
        · exact hnew k hk
      · intro k hk
        simp only [mem_cons, not_or] at hk
        exact hold k hk.2
      · intro k hk
        rcases hback k hk with hk | hk
        · exact Or.inl hk
        · exact Or.inr (by simp [hk])
      · intro i
        rw [hqueue]
        constructor
        · rintro (hi | ⟨k, hk, hne, hi⟩)
          · exact Or.inl hi
          · exact Or.inr ⟨k, by simp [hk], hne, hi⟩
        · rintro (hi | ⟨k, hk, hne, hi⟩)
          · exact Or.inl hi
          · rcases mem_cons.mp hk with rfl | hk
            · rw [hold k he] at hne
              exact absurd rfl hne
            · exact Or.inr ⟨k, hk, hne, hi⟩

theorem visit_of_visitAlong (hg : g.Lawful) {tables : EdgeTables α} {w w₁ : Worklist} {node : Nat}
    (htables : ∀ e, (tables.edge e).isSome ↔ e ∈ g.edgeIds) (hw : w.WF g.nodeBound)
    (hlive : node ∈ g.nodeIds) (hpop : w.popFirst = (w₁, some node)) :
    ∃ (tables' : EdgeTables α) (w' : Worklist),
      visitAlong g p.infallible node (tables, w₁) = .ok (tables', w') ∧ w'.WF g.nodeBound ∧
      (∀ e, (tables'.edge e).isSome ↔ e ∈ g.edgeIds) ∧ (p.system g).Visit node
        ⟨fun e => (tables.edge e).getD p.bottom, fun n => (tables.input n, tables.output n),
          fun n => w.queued n⟩
        ⟨fun e => (tables'.edge e).getD p.bottom, fun n => (tables'.input n, tables'.output n),
          fun n => w'.queued n⟩ := by
  have hspec := Worklist.popFirst_spec hw
  rw [hpop] at hspec
  obtain ⟨hw₁, hqueued, hiff⟩ := hspec
  have hnext : ∀ e ∈ g.edges p.direction.traversal node,
      (g.edge e).next p.direction.traversal < g.nodeBound := fun e he =>
    hg.view.nodeIds_lt _ (hg.next_live _ ((hg.mem_edges _ hlive).mp he).1)
  let met : EdgeTables α :=
    { tables with
      input := update tables.input node
        (p.nodeFacts g node (tables.factOn p.infallible)).1
      output := update tables.output node
        (p.nodeFacts g node (tables.factOn p.infallible)).2 }
  obtain ⟨edge', w', hrun, hw', hnew, hold, hsome, hback, hqueue⟩ := foldlM_visitEdge (p := p) node
    (g.edges p.direction.traversal node) met w₁ (hg.edges_nodup _ hlive) hw₁ hnext
  refine ⟨{ met with edge := edge' }, w', ?_, hw', ?_, hqueued, ?_, ?_, ?_, ?_, ?_⟩
  · simp only [visitAlong]
    rw [meetEdges_infallible]
    exact hrun
  · intro e
    constructor
    · intro he
      rcases hback e he with he | he
      · exact (htables e).mp he
      · exact ((hg.mem_edges _ hlive).mp he).1
    · exact fun he => hsome e ((htables e).mpr he)
  · intro e he
    have := hnew e he
    simp only [met, update_self] at this
    exact this
  · intro e he
    change (edge' e).getD p.bottom = (tables.edge e).getD p.bottom
    rw [hold e he]
  · simp only [met, update_self]
    rfl
  · intro m hm
    simp [met, update_of_ne hm]
  · intro m
    refine (hqueue m).trans (or_congr (hiff m) ⟨?_, ?_⟩)
    · rintro ⟨e, he, hne, rfl⟩
      exact ⟨e, he, hne, mem_singleton.mpr rfl⟩
    · rintro ⟨e, he, hne, hm⟩
      exact ⟨e, he, hne, mem_singleton.mp hm⟩

variable [PartialOrder α] [OrderBot α]

theorem settles_trySolveEdgesWithWorklist (hg : g.Lawful) (hp : p.Monotone) {worklist : Worklist}
    (hw : worklist.WF g.nodeBound) (hlive : ∀ n, worklist.queued n → n ∈ g.nodeIds)
    (hasc : (p.system g).Ascending (fun n => worklist.queued n) g.edgeIds) :
    ∃ facts, Settles (fun config fuel =>
        (trySolveEdgesWithWorklist g p.infallible worklist config fuel).map collapseInfallible) facts ∧
      p.IsLeast g (fun n => worklist.queued n) facts := by
  obtain ⟨N, r, hrun, hedges, hleast⟩ := drive_isLeastSolution
    (visitAlong g p.infallible) (EdgeProblem.lawful_system hg hp) hg.view.nodeIds_lt g.edgeIds
    (fun n hn e he => ((hg.mem_edges _ hn).mp he).1)
    (fun tables e => (tables.edge e).getD p.bottom) (fun tables n => (tables.input n, tables.output n))
    (J := fun tables => ∀ e, (tables.edge e).isSome ↔ e ∈ g.edgeIds)
    (fun tables w w₁ node htables hw hnode hpop =>
      visit_of_visitAlong hg htables hw hnode hpop)
    (.init g p.infallible) (⊥, ⊥)
    (fun e => by
      by_cases he : e ∈ g.edgeIds
      · simp [EdgeTables.init, he]
      · simp [EdgeTables.init, he])
    hw hlive
    (fun e => by
      by_cases he : e ∈ g.edgeIds
      · simp [EdgeTables.init, he, EdgeProblem.infallible, hp.bottom_eq]
      · simp [EdgeTables.init, he, hp.bottom_eq])
    (fun n => by simp [EdgeTables.init, EdgeProblem.infallible, hp.bottom_eq]) hasc
  let read : Run (EdgeTables α) → EdgeFacts α := fun r =>
    ⟨⟨r.facts.input, r.facts.output, r.steps⟩, r.facts.edge⟩
  refine ⟨read r, settles_of_drive hrun read, hedges, ?_⟩
  rw [hp.bottom_eq] at hleast
  exact hleast

end Run

/-! ## Renumbering -/

section Renumber

variable {g g' : EdgeView δ} {p : EdgeProblem α δ} {ν ρ : Nat ≃ Nat}

def EdgeProblem.renumber (p : EdgeProblem α δ) (ν ρ : Nat ≃ Nat) : EdgeProblem α δ :=
  { p with
    boundary := fun n => p.boundary (ν.symm n)
    transferNode := fun n => p.transferNode (ν.symm n)
    transferEdge := fun e => p.transferEdge (e.renumber ν.symm ρ.symm) }

/-- A merge that does not see the order of its facts, as a join does not. -/
structure EdgeProblem.Unordered (p : EdgeProblem α δ) : Prop where
  meet_comm : ∀ a b, p.meet a b = p.meet b a
  meet_assoc : ∀ a b c, p.meet (p.meet a b) c = p.meet a (p.meet b c)

theorem EdgeProblem.Monotone.renumber [PartialOrder α] [OrderBot α] (hp : p.Monotone)
    (ν ρ : Nat ≃ Nat) : (p.renumber ν ρ).Monotone :=
  ⟨hp.bottom_eq, hp.meet_mono, fun n => hp.transferNode_mono (ν.symm n),
    fun e => hp.transferEdge_mono (e.renumber ν.symm ρ.symm)⟩

theorem nodeFacts_renumber (hren : g.Renumbered g' ν ρ) (hu : p.Unordered) {n : Nat}
    (hn : n ∈ g.nodeIds) (y : Nat → α) :
    (p.renumber ν ρ).nodeFacts g' (ν n) y = p.nodeFacts g n (y ∘ ρ) := by
  have hperm : ((g'.edges p.direction.traversal.against (ν n)).map y).Perm
      ((g.edges p.direction.traversal.against n).map (y ∘ ρ)) := by
    have := (hren.edges_perm p.direction.traversal.against n hn).map y
    rwa [map_map] at this
  simp only [EdgeProblem.nodeFacts, EdgeProblem.flowingIn, EdgeProblem.renumber,
    Equiv.symm_apply_apply]
  rw [joinAll_perm hu.meet_comm hu.meet_assoc hperm]

theorem EdgeProblem.renames_system (hg : g.Lawful) (hren : g.Renumbered g' ν ρ) (hu : p.Unordered)
    {start start' : Nat → Prop} (hstart : ∀ n, start' (ν n) ↔ start n) :
    (p.system g).Renames ((p.renumber ν ρ).system g') (· ∈ g.nodeIds) (· ∈ g'.nodeIds) start start'
      ν ρ := by
  refine ⟨hren.view.nodeIds_iff, hstart, ?_, ?_, ?_, fun n y hn => nodeFacts_renumber hren hu hn y⟩
  · intro n e hn
    change ρ e ∈ g'.edges p.direction.traversal (ν n) ↔ e ∈ g.edges p.direction.traversal n
    rw [(hren.edges_perm _ n hn).mem_iff, mem_map_of_injective ρ.injective]
  · intro n e m hn he
    change ν m ∈ [(g'.edge (ρ e)).next p.direction.traversal] ↔
      m ∈ [(g.edge e).next p.direction.traversal]
    rw [hren.edge_eq e ((hg.mem_edges _ hn).mp he).1, EdgeRef.next_renumber]
    simp
  · intro n e y hn he
    change p.transferEdge ((g'.edge (ρ e)).renumber ν.symm ρ.symm) _ _ = p.transferEdge (g.edge e) _ _
    rw [nodeFacts_renumber hren hu hn y, hren.edge_eq e ((hg.mem_edges _ hn).mp he).1,
      EdgeRef.renumber_symm]

theorem EdgeProblem.IsLeast.renumber [PartialOrder α] [OrderBot α] (hg : g.Lawful) (hg' : g'.Lawful)
    (hp : p.Monotone) (hu : p.Unordered) (hren : g.Renumbered g' ν ρ) {start start' : Nat → Prop}
    (hstart : ∀ n, start' (ν n) ↔ start n) (hlive : ∀ n, start n → n ∈ g.nodeIds)
    {facts facts' : EdgeFacts α} (h : p.IsLeast g start facts)
    (h' : (p.renumber ν ρ).IsLeast g' start' facts') :
    (∀ n, facts'.nodes.input (ν n) = facts.nodes.input n ∧
      facts'.nodes.output (ν n) = facts.nodes.output n) ∧ ∀ e, facts'.edge (ρ e) = facts.edge e := by
  obtain ⟨hsome, hx⟩ := h
  obtain ⟨hsome', hx'⟩ := h'
  have hlive' : ∀ n, start' n → n ∈ g'.nodeIds := fun n hn => by
    obtain ⟨m, rfl⟩ := ν.surjective n
    exact (hren.view.nodeIds_iff m).mpr (hlive m ((hstart m).mp hn))
  have hren' := renames_system hg hren hu hstart
  have hS := lawful_system hg hp
  have hS' := lawful_system hg' (hp.renumber ν ρ)
  refine ⟨fun n => Prod.mk.inj (hren'.records_eq hS hS' hlive hlive' hx hx' n), fun e => ?_⟩
  have hvalue := hren'.values_eq hS hS' hlive hlive' hx hx' e
  have hlength : (facts'.edge (ρ e)).isSome ↔ (facts.edge e).isSome := by
    rw [hsome', hsome, hren.edgeIds_iff]
  cases he : facts.edge e with
  | none => simpa [he] using hlength
  | some a =>
    rw [he] at hlength
    obtain ⟨b, hb⟩ := Option.isSome_iff_exists.mp (hlength.mpr rfl)
    rw [he, hb] at hvalue
    rw [hb]
    exact congrArg some hvalue

end Renumber

/-! ## What the edge solver promises -/

section Promises

variable {g : EdgeView δ} {p : EdgeProblem α δ} [DecidableEq α] [PartialOrder α] [OrderBot α]
  [WellFoundedGT α]

def EdgeProblem.solver (g : EdgeView δ) (p : EdgeProblem α δ) : Solver (EdgeFacts α) :=
  ⟨solveEdgeProblemWithConfig g p, solveEdgeProblemFromWithConfig g p⟩

theorem EdgeProblem.promises_solver (hg : g.Lawful) (hp : p.Monotone) :
    (p.solver g).Promises (· ∈ g.nodeIds) (· ∈ g.nodeIds) (p.IsLeast g) where
  full := by
    obtain ⟨hw, hiff⟩ := Worklist.wf_live hg.view
    obtain ⟨facts, hsettles, hleast⟩ := settles_trySolveEdgesWithWorklist hg hp hw
      (fun n hn => (hiff n).mp hn) (System.ascending_of_wellFoundedGT _ _)
    exact ⟨facts, hsettles, by simpa only [hiff] using hleast⟩
  seeded seeds hseeds := by
    have hlt : ∀ n ∈ seeds, n < g.nodeBound := fun n hn => hg.view.nodeIds_lt n (hseeds n hn)
    obtain ⟨hw, hiff⟩ := Worklist.wf_of hlt
    obtain ⟨facts, hsettles, hleast⟩ := settles_trySolveEdgesWithWorklist hg hp hw
      (fun n hn => hseeds n ((hiff n).mp hn)) (System.ascending_of_wellFoundedGT _ _)
    refine ⟨facts, ?_, by simpa only [hiff] using hleast⟩
    unfold EdgeProblem.solver solveEdgeProblemFromWithConfig
    simpa only [Worklist.seeded_eq hg.view hseeds, Option.bind_some] using hsettles
  seeded_initial seeds hseeds := by
    funext config fuel
    have hlive : Worklist.seeded g.toGraphView seeds = some (.live g.toGraphView) := by
      rw [Worklist.seeded_eq hg.view fun n hn => (hseeds n).mp hn, Worklist.of_congr hseeds]
      rfl
    simp only [EdgeProblem.solver, solveEdgeProblemFromWithConfig, hlive]
    rfl

theorem EdgeProblem.agree_solver (hg : g.Lawful) (hp : p.Monotone) (hu : p.Unordered)
    {g' : EdgeView δ} (hg' : g'.Lawful) {ν ρ : Nat ≃ Nat} (hren : g.Renumbered g' ν ρ) :
    (p.solver g).Agree ((p.renumber ν ρ).solver g') (· ∈ g.nodeIds) ν fun facts facts' =>
      (∀ n, facts'.nodes.input (ν n) = facts.nodes.input n ∧
        facts'.nodes.output (ν n) = facts.nodes.output n) ∧ ∀ e, facts'.edge (ρ e) = facts.edge e :=
  (promises_solver hg hp).agree (promises_solver hg' (hp.renumber ν ρ)) hren.view.nodeIds_iff
    hren.view.nodeIds_iff (fun _ hn => hn) fun _ _ _ _ hstart hlive hl hl' =>
      EdgeProblem.IsLeast.renumber hg hg' hp hu hren hstart hlive hl hl'

end Promises

end CfgLib.Dataflow

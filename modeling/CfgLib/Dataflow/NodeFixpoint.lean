import CfgLib.Dataflow.Solve

/-!
# Node-level fixpoint dataflow

`dataflow/node_fixpoint.rs`: one fact per node of any view, met over the
upstream neighbors and transferred through the node.  The unknowns of the
equation system are the transferred facts; the met facts are what a visit
records.
-/

namespace CfgLib.Dataflow

open CfgLib.Lib Function

variable {α ε : Type}

/-- A node-level problem over a fixed view. -/
structure NodeProblem (α : Type) where
  direction : Direction
  /-- The initial fact for every node. -/
  bottom : α
  /-- The fact entering boundary nodes. -/
  boundary : α
  meet : α → α → α
  /-- The fact leaving a node, given the met fact entering it. -/
  transfer : Nat → α → α

/-- A fallible node-level problem over a fixed view. -/
structure TryNodeProblem (α ε : Type) where
  direction : Direction
  bottom : α
  boundary : Except ε α
  /-- Combine two facts at a join point. -/
  meet : Nat → α → α → Except ε α
  transfer : Nat → α → Except ε α

def NodeProblem.infallible (p : NodeProblem α) : TryNodeProblem α Empty where
  direction := p.direction
  bottom := p.bottom
  boundary := .ok p.boundary
  meet _ a b := .ok (p.meet a b)
  transfer n a := .ok (p.transfer n a)

/-- The facts of a node solve so far, in flow order. -/
structure NodeTables (α : Type) where
  input : Nat → α
  output : Nat → α

/-- Recompute one node and queue its downstream neighbors when its fact changed. -/
def visitNode [DecidableEq α] (g : GraphView) (p : TryNodeProblem α ε) (entry : Option Nat)
    (boundary : α) (node : Nat) (st : NodeTables α × Worklist) :
    Except ε (NodeTables α × Worklist) := do
  let downstream := p.direction.traversal
  let (tables, worklist) := st
  let met ← mergeAll (p.meet node) (if entry = some node then some boundary else none)
    ((g.neighbors downstream.against node).map tables.output)
  let met := met.getD boundary
  let transferred ← p.transfer node met
  let tables := { tables with input := update tables.input node met }
  if transferred ≠ tables.output node then
    .ok ({ tables with output := update tables.output node transferred },
      (g.neighbors downstream node).foldl Worklist.insert worklist)
  else .ok (tables, worklist)

/-- The worklist solver every entry point runs. -/
def trySolveWithWorklist [DecidableEq α] (g : GraphView) (p : TryNodeProblem α ε)
    (worklist : Worklist) (entry : Option Nat) (config : SolveConfig) (fuel : Nat) :
    Option (Except (TrySolveError ε) (Facts α)) :=
  match p.boundary with
  | .error error => some (.error (.problem error))
  | .ok boundary =>
    (drive config (visitNode g p entry boundary) fuel
      ⟨⟨fun _ => p.bottom, fun _ => p.bottom⟩, worklist, 0⟩).map fun result =>
        result.map fun r =>
          let (input, output) := p.direction.programOrder r.facts.input r.facts.output
          ⟨input, output, r.steps⟩

def solveNodeProblemWithConfig [DecidableEq α] (g : GraphView) (p : NodeProblem α)
    (config : SolveConfig) (fuel : Nat) : Option (Except SolveError (Facts α)) :=
  (trySolveWithWorklist g p.infallible (.live g) none config fuel).map collapseInfallible

/-- Solve a node problem from `seeds`; `none` also stands for the panic on a seed
that is not a live node. -/
def solveNodeProblemFromWithConfig [DecidableEq α] (g : GraphView) (p : NodeProblem α)
    (seeds : List Nat) (config : SolveConfig) (fuel : Nat) :
    Option (Except SolveError (Facts α)) :=
  (Worklist.seeded g seeds).bind fun worklist =>
    (trySolveWithWorklist g p.infallible worklist none config fuel).map collapseInfallible

/-! ## The equations -/

/-- The fact met into a node from the transferred facts of its upstream neighbors. -/
def NodeProblem.met (g : GraphView) (p : NodeProblem α) (entry : Option Nat) (node : Nat)
    (output : Nat → α) : α :=
  (joinAll p.meet (if entry = some node then some p.boundary else none)
    ((g.neighbors p.direction.traversal.against node).map output)).getD p.boundary

def NodeProblem.system (g : GraphView) (p : NodeProblem α) (entry : Option Nat) :
    System Nat α α where
  slots n := [n]
  readers n := g.neighbors p.direction.traversal n
  record n x := p.met g entry n x
  value n x _ := p.transfer n (p.met g entry n x)

/-- Monotone operations over an order whose least element is the problem's bottom. -/
structure NodeProblem.Monotone [PartialOrder α] [OrderBot α] (p : NodeProblem α) : Prop where
  bottom_eq : p.bottom = ⊥
  meet_mono : ∀ a a' b b', a ≤ a' → b ≤ b' → p.meet a b ≤ p.meet a' b'
  transfer_mono : ∀ n a b, a ≤ b → p.transfer n a ≤ p.transfer n b

/-- Facts that are the least solution of a node problem from `start`: the entering
and leaving facts of every node that takes part, bottom elsewhere. -/
def NodeProblem.IsLeast [PartialOrder α] [OrderBot α] (g : GraphView) (p : NodeProblem α)
    (entry : Option Nat) (start : Nat → Prop) (facts : Facts α) : Prop :=
  ∃ entering leaving, p.direction.programOrder entering leaving = (facts.input, facts.output) ∧
    (p.system g entry).IsLeastSolution (· ∈ g.nodeIds) start ⊥ leaving entering

section Equations

variable {g : GraphView} {p : NodeProblem α} {entry : Option Nat}

theorem met_congr {n : Nat} {x y : Nat → α}
    (h : ∀ m ∈ g.neighbors p.direction.traversal.against n, x m = y m) :
    p.met g entry n x = p.met g entry n y := by
  rw [NodeProblem.met, NodeProblem.met, List.map_congr_left h]

theorem lawful_system [PartialOrder α] [OrderBot α] (hg : g.Lawful) (hp : p.Monotone) :
    (p.system g entry).Lawful (· ∈ g.nodeIds) := by
  have hlocal : ∀ n x y, n ∈ g.nodeIds →
      (∀ k, n ∈ g.neighbors p.direction.traversal k → x k = y k) →
      p.met g entry n x = p.met g entry n y := by
    intro n x y hn hxy
    apply met_congr
    intro m hm
    have hm' := hg.neighbors_live _ hn hm
    exact hxy m ((hg.mem_neighbors_against _ (hg.nodeIds_lt n hn) (hg.nodeIds_lt m hm')).mp hm)
  refine ⟨?_, ?_, hlocal, ?_, ?_⟩
  · intro n m k _ _ hn hm
    rw [← List.mem_singleton.mp hn, List.mem_singleton.mp hm]
  · intro n k m hn hk hm
    rw [List.mem_singleton.mp hk] at hm
    exact hg.neighbors_live _ hn hm
  · intro n x y hn hxy
    funext k
    change p.transfer n _ = p.transfer n _
    rw [hlocal n x y hn hxy]
  · intro n x y k _ _ hxy
    exact hp.transfer_mono n _ _ (joinAll_mono hp.meet_mono hxy _ _ _)

end Equations

/-! ## The solver runs the equations -/

section Run

variable {g : GraphView} {p : NodeProblem α} {entry : Option Nat}

variable [DecidableEq α]

theorem visitNode_infallible (node : Nat) (tables : NodeTables α) (worklist : Worklist) :
    visitNode g p.infallible entry p.boundary node (tables, worklist) =
      .ok (⟨update tables.input node (p.met g entry node tables.output),
          update tables.output node (p.transfer node (p.met g entry node tables.output))⟩,
        if p.transfer node (p.met g entry node tables.output) ≠ tables.output node then
          (g.neighbors p.direction.traversal node).foldl Worklist.insert worklist
        else worklist) := by
  have hmerge := mergeAll_ok p.meet (if entry = some node then some p.boundary else none)
    ((g.neighbors p.direction.traversal.against node).map tables.output)
  simp only [visitNode]
  change (mergeAll (fun a b => .ok (p.meet a b)) (if entry = some node then some p.boundary else none)
    ((g.neighbors p.direction.traversal.against node).map tables.output) >>= _) = _
  rw [hmerge]
  change (if p.transfer node (p.met g entry node tables.output) ≠ tables.output node then _
    else _) = _
  split
  · rfl
  · next h =>
    have heq : p.transfer node (p.met g entry node tables.output) = tables.output node := by
      simpa using h
    rw [heq, update_eq_self]
    rfl

theorem visit_of_visitNode (hg : g.Lawful) (tables : NodeTables α) {w w₁ : Worklist} {node : Nat}
    (hw : w.WF g.nodeBound) (hlive : node ∈ g.nodeIds) (hpop : w.popFirst = (w₁, some node)) :
    ∃ (tables' : NodeTables α) (w' : Worklist),
      visitNode g p.infallible entry p.boundary node (tables, w₁) = .ok (tables', w') ∧
      w'.WF g.nodeBound ∧ (p.system g entry).Visit node
        ⟨tables.output, tables.input, fun n => w.queued n⟩
        ⟨tables'.output, tables'.input, fun n => w'.queued n⟩ := by
  have hspec := Worklist.popFirst_spec hw
  rw [hpop] at hspec
  obtain ⟨hw₁, hqueued, hiff⟩ := hspec
  refine ⟨_, _, visitNode_infallible node tables w₁, ?_⟩
  have hnext : ∀ m ∈ g.neighbors p.direction.traversal node, m < g.nodeBound := fun m hm =>
    hg.nodeIds_lt m (hg.neighbors_live _ hlive hm)
  obtain ⟨hfold, hfoldiff⟩ := Worklist.foldl_insert _ w₁ hw₁ hnext
  refine ⟨?_, hqueued, ?_, ?_, ?_, ?_, ?_⟩
  · split
    · exact hfold
    · exact hw₁
  · intro k hk
    obtain rfl := List.mem_singleton.mp hk
    simp [NodeProblem.system]
  · intro k hk
    have hne : k ≠ node := fun e => hk (by rw [e]; exact List.mem_singleton.mpr rfl)
    simp [update_of_ne hne]
  · simp [NodeProblem.system]
  · intro m hm
    simp [update_of_ne hm]
  · intro m
    have hslot : (∃ k ∈ (p.system g entry).slots node,
        update tables.output node (p.transfer node (p.met g entry node tables.output)) k ≠
          tables.output k ∧ m ∈ (p.system g entry).readers k) ↔
        p.transfer node (p.met g entry node tables.output) ≠ tables.output node ∧
          m ∈ g.neighbors p.direction.traversal node := by
      simp [NodeProblem.system]
    refine Iff.trans ?_ (or_congr (hiff m) hslot.symm)
    change (Worklist.queued _ m = true) ↔ _
    split
    · next hne =>
      rw [hfoldiff]
      exact or_congr Iff.rfl ⟨fun hm => ⟨hne, hm⟩, fun hm => hm.2⟩
    · next heq => exact ⟨Or.inl, fun hm => hm.resolve_right fun hc => heq hc.1⟩

variable [PartialOrder α] [OrderBot α]

/-- The core of every node and block solve: from any live start it settles on the
least solution. -/
theorem settles_trySolveWithWorklist (entry : Option Nat) (hg : g.Lawful) (hp : p.Monotone) {worklist : Worklist}
    (hw : worklist.WF g.nodeBound) (hlive : ∀ n, worklist.queued n → n ∈ g.nodeIds)
    (hasc : (p.system g entry).Ascending (fun n => worklist.queued n) (List.range g.nodeBound)) :
    ∃ facts, Settles (fun config fuel =>
        (trySolveWithWorklist g p.infallible worklist entry config fuel).map collapseInfallible) facts ∧
      p.IsLeast g entry (fun n => worklist.queued n) facts := by
  have hS : (p.system g entry).Lawful (· ∈ g.nodeIds) := lawful_system hg hp
  obtain ⟨N, r, hrun, _, hleast⟩ := drive_isLeastSolution
    (visitNode g p.infallible entry p.boundary) hS hg.nodeIds_lt (List.range g.nodeBound)
    (fun n hn k hk => by
      rw [List.mem_singleton.mp hk]
      exact List.mem_range.mpr (hg.nodeIds_lt n hn))
    NodeTables.output NodeTables.input (J := fun _ => True)
    (fun tables w w₁ node _ hw hnode hpop => by
      obtain ⟨tables', w', hok, hw', hv⟩ := visit_of_visitNode hg tables hw hnode hpop
      exact ⟨tables', w', hok, hw', trivial, hv⟩)
    ⟨fun _ => p.bottom, fun _ => p.bottom⟩ ⊥ trivial hw hlive (fun _ => hp.bottom_eq)
    (fun _ => hp.bottom_eq) hasc
  let read : Run (NodeTables α) → Facts α := fun r =>
    ⟨(p.direction.programOrder r.facts.input r.facts.output).1,
      (p.direction.programOrder r.facts.input r.facts.output).2, r.steps⟩
  exact ⟨read r, settles_of_drive hrun read, _, _, rfl, hleast⟩

theorem settles_seeded [WellFoundedGT α] (hg : g.Lawful) (hp : p.Monotone) {seeds : List Nat}
    (hseeds : ∀ n ∈ seeds, n ∈ g.nodeIds) :
    ∃ facts, Settles (fun config fuel => (Worklist.seeded g seeds).bind fun worklist =>
        (trySolveWithWorklist g p.infallible worklist entry config fuel).map collapseInfallible) facts ∧
      p.IsLeast g entry (· ∈ seeds) facts := by
  have hlt : ∀ n ∈ seeds, n < g.nodeBound := fun n hn => hg.nodeIds_lt n (hseeds n hn)
  obtain ⟨hw, hiff⟩ := Worklist.wf_of hlt
  obtain ⟨facts, hsettles, hleast⟩ := settles_trySolveWithWorklist entry hg hp hw
    (fun n hn => hseeds n ((hiff n).mp hn)) (System.ascending_of_wellFoundedGT _ _)
  refine ⟨facts, ?_, ?_⟩
  · simpa only [Worklist.seeded_eq hg hseeds, Option.bind_some] using hsettles
  · simpa only [hiff] using hleast

end Run

/-! ## Renumbering -/

section Renumber

variable {g g' : GraphView} {p : NodeProblem α} {entry : Option Nat} {ν : Nat ≃ Nat}

def NodeProblem.renumber (p : NodeProblem α) (ν : Nat ≃ Nat) : NodeProblem α :=
  { p with transfer := fun n => p.transfer (ν.symm n) }

/-- A merge that does not see the order of its facts, as a join does not. -/
structure NodeProblem.Unordered (p : NodeProblem α) : Prop where
  meet_comm : ∀ a b, p.meet a b = p.meet b a
  meet_assoc : ∀ a b c, p.meet (p.meet a b) c = p.meet a (p.meet b c)

theorem met_renumber (hren : g.Renumbered g' ν) (hu : p.Unordered) {n : Nat} (hn : n ∈ g.nodeIds)
    (y : Nat → α) : (p.renumber ν).met g' (entry.map ν) (ν n) y = p.met g entry n (y ∘ ν) := by
  have hperm : ((g'.neighbors p.direction.traversal.against (ν n)).map y).Perm
      ((g.neighbors p.direction.traversal.against n).map (y ∘ ν)) := by
    have := (hren.neighbors_perm p.direction.traversal.against n hn).map y
    rwa [List.map_map] at this
  have hentry : entry.map ν = some (ν n) ↔ entry = some n := by
    cases entry with
    | none => simp
    | some e => simp
  simp only [NodeProblem.met, NodeProblem.renumber, hentry]
  rw [joinAll_perm hu.meet_comm hu.meet_assoc hperm]

theorem renames_system (entry : Option Nat) (hren : g.Renumbered g' ν) (hu : p.Unordered) {start start' : Nat → Prop}
    (hstart : ∀ n, start' (ν n) ↔ start n) :
    (p.system g entry).Renames ((p.renumber ν).system g' (entry.map ν)) (· ∈ g.nodeIds)
      (· ∈ g'.nodeIds) start start' ν ν := by
  refine ⟨hren.nodeIds_iff, hstart, ?_, ?_, ?_, fun n y hn => met_renumber hren hu hn y⟩
  · intro n k _
    simp [NodeProblem.system]
  · intro n k m hn hk
    rw [List.mem_singleton.mp hk]
    exact hren.mem_neighbors _ hn
  · intro n k y hn hk
    change p.transfer (ν.symm (ν n)) _ = p.transfer n _
    rw [met_renumber hren hu hn y, ν.symm_apply_apply]

theorem NodeProblem.Monotone.renumber [PartialOrder α] [OrderBot α] (hp : p.Monotone) (ν : Nat ≃ Nat) :
    (p.renumber ν).Monotone :=
  ⟨hp.bottom_eq, hp.meet_mono, fun n => hp.transfer_mono (ν.symm n)⟩

theorem NodeProblem.IsLeast.renumber [PartialOrder α] [OrderBot α] (hg : g.Lawful) (hg' : g'.Lawful)
    (hp : p.Monotone) (hu : p.Unordered) (hren : g.Renumbered g' ν) {start start' : Nat → Prop}
    (hstart : ∀ n, start' (ν n) ↔ start n) (hlive : ∀ n, start n → n ∈ g.nodeIds)
    {facts facts' : Facts α} (h : p.IsLeast g entry start facts)
    (h' : (p.renumber ν).IsLeast g' (entry.map ν) start' facts') (n : Nat) :
    facts'.input (ν n) = facts.input n ∧ facts'.output (ν n) = facts.output n := by
  obtain ⟨entering, leaving, heq, hx⟩ := h
  obtain ⟨entering', leaving', heq', hx'⟩ := h'
  have hlive' : ∀ n, start' n → n ∈ g'.nodeIds := fun n hn => by
    obtain ⟨m, rfl⟩ := ν.surjective n
    exact (hren.nodeIds_iff m).mpr (hlive m ((hstart m).mp hn))
  have hren' := renames_system entry hren hu hstart
  have hS : (p.system g entry).Lawful (· ∈ g.nodeIds) := lawful_system hg hp
  have hS' : ((p.renumber ν).system g' (entry.map ν)).Lawful (· ∈ g'.nodeIds) :=
    lawful_system hg' (hp.renumber ν)
  have hleaving := hren'.values_eq hS hS' hlive hlive' hx hx' n
  have hentering := hren'.records_eq hS hS' hlive hlive' hx hx' n
  have hdir : (p.renumber ν).direction = p.direction := rfl
  rw [hdir] at heq'
  cases hd : p.direction with
  | forward =>
    simp only [hd, Direction.programOrder, Prod.mk.injEq] at heq heq'
    rw [← heq.1, ← heq.2, ← heq'.1, ← heq'.2]
    exact ⟨hentering, hleaving⟩
  | backward =>
    simp only [hd, Direction.programOrder, Prod.mk.injEq] at heq heq'
    rw [← heq.1, ← heq.2, ← heq'.1, ← heq'.2]
    exact ⟨hleaving, hentering⟩

end Renumber

/-! ## What the node solver promises -/

section Promises

variable {g : GraphView} {p : NodeProblem α} [DecidableEq α] [PartialOrder α] [OrderBot α]
  [WellFoundedGT α]

def NodeProblem.solver (g : GraphView) (p : NodeProblem α) : Solver (Facts α) :=
  ⟨solveNodeProblemWithConfig g p, solveNodeProblemFromWithConfig g p⟩

theorem NodeProblem.promises_solver (hg : g.Lawful) (hp : p.Monotone) :
    (p.solver g).Promises (· ∈ g.nodeIds) (· ∈ g.nodeIds) (p.IsLeast g none) where
  full := by
    obtain ⟨hw, hiff⟩ := Worklist.wf_live hg
    obtain ⟨facts, hsettles, hleast⟩ := settles_trySolveWithWorklist none hg hp hw
      (fun n hn => (hiff n).mp hn) (System.ascending_of_wellFoundedGT _ _)
    exact ⟨facts, hsettles, by simpa only [hiff] using hleast⟩
  seeded seeds hseeds := settles_seeded hg hp hseeds
  seeded_initial seeds hseeds := by
    funext config fuel
    have hlive : Worklist.seeded g seeds = some (.live g) := by
      rw [Worklist.seeded_eq hg fun n hn => (hseeds n).mp hn, Worklist.of_congr hseeds]
      rfl
    simp only [NodeProblem.solver, solveNodeProblemFromWithConfig, hlive]
    rfl

theorem NodeProblem.agree_solver (hg : g.Lawful) (hp : p.Monotone) (hu : p.Unordered)
    {g' : GraphView} (hg' : g'.Lawful) {ν : Nat ≃ Nat} (hren : g.Renumbered g' ν) :
    (p.solver g).Agree ((p.renumber ν).solver g') (· ∈ g.nodeIds) ν fun facts facts' =>
      ∀ n, facts'.input (ν n) = facts.input n ∧ facts'.output (ν n) = facts.output n :=
  (promises_solver hg hp).agree (promises_solver hg' (hp.renumber ν)) hren.nodeIds_iff
    hren.nodeIds_iff (fun _ hn => hn) fun _ _ _ _ hstart hlive hl hl' =>
      NodeProblem.IsLeast.renumber hg hg' hp hu hren hstart hlive hl hl'

end Promises

end CfgLib.Dataflow

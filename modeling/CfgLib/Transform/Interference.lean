import CfgLib.Dataflow.LivenessExact
import CfgLib.Lib.Fold
import CfgLib.Lib.Registers
import CfgLib.Transform.Coloring

/-!
# Interference

`transform/coloring.rs`: the variables that cannot share a register, as a graph, and the
code whose variables are kept in the colours of that graph.
-/

namespace CfgLib.Transform

open CfgLib.Lib CfgLib.Dataflow CfgLib.Store

variable {ι ν π : Type} [LinearOrder ν]

/-! ## The relation -/

/-- Relates two variables, each of which becomes a key. -/
def connect (adjacency : FiniteMap ν (Finset ν)) (left right : ν) : FiniteMap ν (Finset ν) :=
  let adjacency := (adjacency.addTo left ∅).addTo right ∅
  if left = right then adjacency
  else (adjacency.addTo left {right}).addTo right {left}

/-- Relates every variable of a list to those after it. -/
def connectPairs : List ν → FiniteMap ν (Finset ν) → FiniteMap ν (Finset ν)
  | [], adjacency => adjacency
  | var :: rest, adjacency => connectPairs rest (rest.foldl (connect · var ·) adjacency)

/-- Relates all variables of a set. -/
def connectClique (adjacency : FiniteMap ν (Finset ν)) (vars : Finset ν) : FiniteMap ν (Finset ν) :=
  connectPairs vars.sort (vars.sort.foldl (fun adjacency var => adjacency.addTo var ∅) adjacency)

/-- Passes one instruction upwards, with what is live after it. -/
def interferenceStep (I : InstrInfo ι ν) (unwind : Finset ν) (state : FiniteMap ν (Finset ν) × Finset ν)
    (instruction : ι) : FiniteMap ν (Finset ν) × Finset ν :=
  let (adjacency, active) := state
  let definitions := (I.defs instruction).toFinset
  let adjacency := connectClique adjacency definitions
  let adjacency := definitions.sort.foldl
    (fun adjacency definition => active.sort.foldl (connect · definition ·) adjacency) adjacency
  let active := stepBackward I active instruction unwind
  (connectClique adjacency active, active)

def interferenceBlock (I : InstrInfo ι ν) (c : Cfg ι π) (live : Facts (Finset ν))
    (adjacency : FiniteMap ν (Finset ν)) (block : Nat) : FiniteMap ν (Finset ν) :=
  let active := live.output block
  ((c.instructions block).reverse.foldl (interferenceStep I (liveOnUnwind I c live block))
    (connectClique adjacency active, active)).1

/-- Every variable and those it cannot share a register with. -/
def interferences (I : InstrInfo ι ν) (c : Cfg ι π) (live : Facts (Finset ν)) : FiniteMap ν (Finset ν) :=
  c.blockIds.foldl (interferenceBlock I c live) .empty

/-! ## The graph -/

def relations (adjacency : FiniteMap ν (Finset ν)) : List (ν × ν) :=
  adjacency.keys.sort.flatMap fun var =>
    (((adjacency.get var).getD ∅).sort.filter (var < ·)).map fun neighbor => (var, neighbor)

def addVariable (state : Naive ν Unit × FiniteMap ν Nat) (var : ν) : Option (Naive ν Unit × FiniteMap ν Nat) :=
  (state.1.addNode var).map fun graph => (graph, state.2.insert var state.1.nodes.length)

def addRelation (nodes : FiniteMap ν Nat) (graph : Naive ν Unit) (pair : ν × ν) : Option (Naive ν Unit) := do
  let left ← nodes.get pair.1
  let right ← nodes.get pair.2
  graph.addEdge left right ()

/-- One node for each variable and one edge for each pair that is live together; `none`
when the store has no room for them. -/
def interferenceGraph (I : InstrInfo ι ν) (c : Cfg ι π) (live : Facts (Finset ν)) : Option (Naive ν Unit) := do
  let adjacency := interferences I c live
  let (graph, nodes) ← adjacency.keys.sort.foldlM addVariable (.empty, .empty)
  (relations adjacency).foldlM (addRelation nodes) graph

def nodeOf (graph : Naive ν Unit) (var : ν) : Option Nat :=
  graph.nodeIds.find? fun node => graph.node node = some var

def registerOf (graph : Naive ν Unit) (coloring : ColorAssignment) (var : ν) : Option Nat :=
  (nodeOf graph var).bind coloring.assignment.get

/-- What instructions do to the variables they use and define. -/
def semanticsOf {δ : Type} (I : InstrInfo ι ν) (results : ι → List δ → Nat → δ) : Semantics ι ν δ where
  reads := I.uses
  writes := I.defs
  results := results

/-! ## What is related -/

section Relation

variable {adjacency : FiniteMap ν (Finset ν)} {v w left right : ν}

/-- Both variables are keys, and each is related to the other if they differ. -/
structure Connects (v w : ν) (adjacency : FiniteMap ν (Finset ν)) : Prop where
  left_key : v ∈ adjacency.keys
  right_key : w ∈ adjacency.keys
  related : v ≠ w → w ∈ (adjacency.get v).getD ∅ ∧ v ∈ (adjacency.get w).getD ∅

omit [LinearOrder ν] in
theorem Connects.symm (h : Connects v w adjacency) : Connects w v adjacency :=
  ⟨h.right_key, h.left_key, fun hne => (h.related (Ne.symm hne)).symm⟩

theorem mem_keys_addTo {key : ν} {values : Finset ν} :
    v ∈ (adjacency.addTo key values).keys ↔ v = key ∨ v ∈ adjacency.keys :=
  Finset.mem_insert

theorem Connects.addTo (h : Connects v w adjacency) (key : ν) (values : Finset ν) :
    Connects v w (adjacency.addTo key values) := by
  refine ⟨mem_keys_addTo.mpr (Or.inr h.left_key), mem_keys_addTo.mpr (Or.inr h.right_key), fun hne => ?_⟩
  obtain ⟨h₁, h₂⟩ := h.related hne
  rw [FiniteMap.getD_addTo, FiniteMap.getD_addTo]
  exact ⟨Or.inl h₁, Or.inl h₂⟩

theorem Connects.connect (h : Connects v w adjacency) (left right : ν) :
    Connects v w (Transform.connect adjacency left right) := by
  unfold Transform.connect
  split
  · exact (h.addTo _ _).addTo _ _
  · exact (((h.addTo _ _).addTo _ _).addTo _ _).addTo _ _

theorem connects_connect (adjacency : FiniteMap ν (Finset ν)) (left right : ν) :
    Connects left right (connect adjacency left right) := by
  unfold connect
  by_cases he : left = right
  · subst he
    rw [if_pos rfl]
    have hkey : left ∈ ((adjacency.addTo left ∅).addTo left ∅).keys := mem_keys_addTo.mpr (Or.inl rfl)
    exact ⟨hkey, hkey, fun hne => absurd rfl hne⟩
  · rw [if_neg he]
    refine ⟨?_, mem_keys_addTo.mpr (Or.inl rfl), fun _ => ?_⟩
    · exact mem_keys_addTo.mpr (Or.inr (mem_keys_addTo.mpr (Or.inl rfl)))
    · simp [FiniteMap.getD_addTo]

theorem Connects.connectPairs (vars : List ν) : ∀ {adjacency : FiniteMap ν (Finset ν)},
    Connects v w adjacency → Connects v w (Transform.connectPairs vars adjacency) := by
  induction vars with
  | nil => exact fun h => h
  | cons var rest ih =>
    intro adjacency h
    exact ih (foldl_keeps (fun _ _ h => h.connect _ _) rest h)

theorem connects_connectPairs {vars : List ν} : ∀ {adjacency : FiniteMap ν (Finset ν)}, v ∈ vars → w ∈ vars →
    v ≠ w → Connects v w (connectPairs vars adjacency) := by
  induction vars with
  | nil => exact fun h => absurd h List.not_mem_nil
  | cons var rest ih =>
    intro adjacency hv hw hne
    have hhead : ∀ other ∈ rest, Connects var other (connectPairs (var :: rest) adjacency) := fun other hother =>
      (foldl_makes (fun _ _ h => h.connect _ _) (fun _ => connects_connect _ _ _) hother _).connectPairs rest
    rcases List.mem_cons.mp hv with rfl | hv'
    · rcases List.mem_cons.mp hw with rfl | hw'
      · exact absurd rfl hne
      · exact hhead w hw'
    · rcases List.mem_cons.mp hw with rfl | hw'
      · exact (hhead v hv').symm
      · exact ih hv' hw' hne

theorem Connects.connectClique (h : Connects v w adjacency) (vars : Finset ν) :
    Connects v w (Transform.connectClique adjacency vars) := by
  unfold Transform.connectClique
  apply Connects.connectPairs
  exact foldl_keeps (fun _ var h => h.addTo var ∅) _ h

theorem connects_connectClique {vars : Finset ν} (hv : v ∈ vars) (hw : w ∈ vars) :
    Connects v w (connectClique adjacency vars) := by
  by_cases hne : v = w
  · subst hne
    have hkey : Connects v v (vars.sort.foldl (fun adjacency var => adjacency.addTo var ∅) adjacency) :=
      foldl_makes (fun _ var h => h.addTo var ∅)
        (fun _ => ⟨mem_keys_addTo.mpr (Or.inl rfl), mem_keys_addTo.mpr (Or.inl rfl), fun hne => absurd rfl hne⟩)
        ((Finset.mem_sort _).mpr hv) adjacency
    exact hkey.connectPairs _
  · exact connects_connectPairs ((Finset.mem_sort _).mpr hv) ((Finset.mem_sort _).mpr hw) hne

variable {I : InstrInfo ι ν} {c : Cfg ι π} {live : Facts (Finset ν)} {unwind active : Finset ν} {instruction : ι}

theorem Connects.interferenceStep (h : Connects v w adjacency) :
    Connects v w (Transform.interferenceStep I unwind (adjacency, active) instruction).1 := by
  refine Connects.connectClique ?_ _
  exact foldl_keeps (fun _ _ h => foldl_keeps (fun _ _ h => h.connect _ _) _ h) _ (h.connectClique _)

/-- A step relates what is live before the instruction, and its definitions to each other
and to what is live after it. -/
theorem connects_interferenceStep (h : (v ∈ stepBackward I active instruction unwind ∧
      w ∈ stepBackward I active instruction unwind) ∨ (v ∈ I.defs instruction ∧
        (w ∈ I.defs instruction ∨ w ∈ active))) :
    Connects v w (interferenceStep I unwind (adjacency, active) instruction).1 := by
  rcases h with ⟨hv, hw⟩ | ⟨hv, hw⟩
  · exact connects_connectClique hv hw
  · refine Connects.connectClique ?_ _
    have hv := List.mem_toFinset.mpr hv
    rcases hw with hw | hw
    · exact foldl_keeps (fun _ _ h => foldl_keeps (fun _ _ h => h.connect _ _) _ h) _
        (connects_connectClique hv (List.mem_toFinset.mpr hw))
    · refine foldl_makes (fun _ _ h => foldl_keeps (fun _ _ h => h.connect _ _) _ h) (fun adjacency => ?_)
        ((Finset.mem_sort _).mpr hv) _
      exact foldl_makes (fun _ _ h => h.connect _ _) (fun _ => connects_connect _ _ _)
        ((Finset.mem_sort _).mpr hw) adjacency

/-- The variables are live together at a point of the block, or an instruction of the block
defines one of them while the other is defined too or live after it. -/
def InterfereIn (I : InstrInfo ι ν) (c : Cfg ι π) (live : Facts (Finset ν)) (block i : Nat) (v w : ν) : Prop :=
  (v ∈ livePoint I c live block i ∧ w ∈ livePoint I c live block i) ∨
    ∃ a, (c.instructions block)[i]? = some a ∧ v ∈ I.defs a ∧ (w ∈ I.defs a ∨ w ∈ livePoint I c live block (i + 1))

theorem connects_interferenceBlock {block i : Nat} (hi : i ≤ (c.instructions block).length)
    (h : InterfereIn I c live block i v w) : Connects v w (interferenceBlock I c live adjacency block) := by
  let step := interferenceStep I (liveOnUnwind I c live block)
  let start := (connectClique adjacency (live.output block), live.output block)
  -- the state once the instructions from an index on have been passed
  let passed : Nat → FiniteMap ν (Finset ν) × Finset ν :=
    fun k => ((c.instructions block).drop k).foldr (fun a s => step s a) start
  have hpassed : ∀ {k : Nat} {a : ι}, (c.instructions block)[k]? = some a → passed k = step (passed (k + 1)) a := by
    intro k a ha
    obtain ⟨hlt, rfl⟩ := List.getElem?_eq_some_iff.mp ha
    exact congrArg (List.foldr _ _) (List.drop_eq_getElem_cons hlt)
  have hactive : ∀ code : List ι, (code.foldr (fun a s => step s a) start).2 =
      backwardCode I (liveOnUnwind I c live block) code (live.output block) := by
    intro code
    induction code with
    | nil => rfl
    | cons a code ih => exact congrArg (fun active => stepBackward I active a _) ih
  have hat : Connects v w (passed i).1 := by
    cases ha : (c.instructions block)[i]? with
    | none =>
      have hdrop : (c.instructions block).drop i = [] := List.drop_eq_nil_iff.mpr (List.getElem?_eq_none_iff.mp ha)
      rcases h with ⟨hv, hw⟩ | ⟨a, ha', _⟩
      · unfold livePoint at hv hw
        rw [hdrop] at hv hw
        change Connects v w (((c.instructions block).drop i).foldr _ start).1
        rw [hdrop]
        exact connects_connectClique hv hw
      · cases ha.symm.trans ha'
    | some a =>
      rw [hpassed ha]
      have hlive : ∀ k, (passed k).2 = livePoint I c live block k := fun k => hactive _
      refine connects_interferenceStep ?_
      rw [hlive]
      refine h.imp (fun ⟨hv, hw⟩ => ?_) fun ⟨a', ha', hv, hw⟩ => ?_
      · unfold livePoint at hv hw
        rw [backwardCode_drop ha] at hv hw
        exact ⟨hv, hw⟩
      · cases ha.symm.trans ha'
        exact ⟨hv, hw⟩
  have hkeep : ∀ k, k ≤ i → Connects v w (passed k).1 := by
    intro k hk
    induction hk using Nat.decreasingInduction with
    | self => exact hat
    | of_succ k hlt ih =>
      rw [hpassed (List.getElem?_eq_getElem (Nat.lt_of_lt_of_le hlt hi))]
      exact ih.interferenceStep
  change Connects v w ((c.instructions block).reverse.foldl step start).1
  rw [List.foldl_reverse]
  exact hkeep 0 (Nat.zero_le i)

theorem Connects.interferenceBlock (h : Connects v w adjacency) (block : Nat) :
    Connects v w (Transform.interferenceBlock I c live adjacency block) := by
  unfold Transform.interferenceBlock
  exact foldl_keeps (P := fun state : FiniteMap ν (Finset ν) × Finset ν => Connects v w state.1)
    (fun _ _ h => h.interferenceStep) _ (h.connectClique _)

theorem connects_interferences {block i : Nat} (hblock : c.containsBlock block)
    (hi : i ≤ (c.instructions block).length) (h : InterfereIn I c live block i v w) :
    Connects v w (interferences I c live) :=
  foldl_makes (fun _ block h => h.interferenceBlock block) (fun _ => connects_interferenceBlock hi h)
    (Cfg.mem_blockIds.mpr hblock) _

end Relation

end CfgLib.Transform

import CfgLib.Dataflow.Replay
import CfgLib.Lib.FiniteMap

/-!
# Constant propagation

`dataflow/constant_propagation.rs`: which variables hold known constants, on the
edge-sensitive solver.  A variable without an entry in a fact has not been analyzed; an
unwind carries the constants known before a throwing instruction.
-/

namespace CfgLib

namespace Dataflow

open CfgLib.Lib

/-- The lattice value for a single variable. -/
inductive ConstValue (κ : Type) where
  | top
  | const (value : κ)
  | bottom
  deriving DecidableEq

variable {ι ν κ π : Type}

namespace ConstValue

/-- Meet two lattice values with a domain-defined constant meet. -/
def meetWith (meetConstants : κ → κ → Option κ) : ConstValue κ → ConstValue κ → ConstValue κ
  | .top, x => x
  | x, .top => x
  | .const a, .const b => ((meetConstants a b).map .const).getD .bottom
  | .const _, .bottom | .bottom, .const _ | .bottom, .bottom => .bottom

def asConst : ConstValue κ → Option κ
  | .const value => some value
  | .top | .bottom => none

end ConstValue

/-- Instructions that can produce constant values, and the meet of two constants. -/
structure ConstantFolder (ι ν κ : Type) extends InstrInfo ι ν where
  foldConstant : ι → FiniteMap ν κ → Option (ν × κ)
  meetConstants : κ → κ → Option κ

/-- The flow fact: a map from variable to lattice value. -/
abbrev ConstFact (ν κ : Type) := FiniteMap ν (ConstValue κ)

/-! ## Replay -/

section Problem

variable [DecidableEq ν] (F : ConstantFolder ι ν κ)

/-- What one instruction defines: the folded definition is a constant, every other one is
overdefined. -/
def foldDefinitions (instruction : ι) (known : FiniteMap ν κ) : List (ν × ConstValue κ) :=
  let folded := F.foldConstant instruction known
  (F.defs instruction).map fun definition =>
    (definition, ((folded.filter fun f => f.1 = definition).map fun f => .const f.2).getD .bottom)

def define (state : ConstFact ν κ × FiniteMap ν κ) (definition : ν × ConstValue κ) :
    ConstFact ν κ × FiniteMap ν κ :=
  (state.1.insert definition.1 definition.2,
    (definition.2.asConst.map fun constant => state.2.insert definition.1 constant).getD
      (state.2.erase definition.1))

/-- One instruction of a replay, with the known constants beside the state. -/
def constStep (state : ConstFact ν κ × FiniteMap ν κ) (instruction : ι) : ConstFact ν κ × FiniteMap ν κ :=
  (foldDefinitions F instruction state.2).foldl define state

def knownOf (input : ConstFact ν κ) : FiniteMap ν κ := input.filterMap ConstValue.asConst

/-- Meet two facts variable by variable; a variable of one side keeps its value. -/
def meetFacts (left right : ConstFact ν κ) : ConstFact ν κ :=
  left.merge (ConstValue.meetWith F.meetConstants) right

def replayConstants (code : List ι) (input : ConstFact ν κ) : ConstFact ν κ × List (ConstFact ν κ) :=
  let (last, departing) := replayBlock F.mayUnwind (constStep F) code (input, knownOf input)
  (last.1, departing.map Prod.fst)

def variablesOf (I : InstrInfo ι ν) (c : Cfg ι π) : Finset ν :=
  (c.blockIds.flatMap fun block => (c.instructions block).flatMap fun instruction =>
    I.uses instruction ++ I.defs instruction).toFinset

/-- Constant propagation as an edge problem; every variable is unknown when the entry starts. -/
def constPropProblem (c : Cfg ι π) : EdgeProblem (ConstFact ν κ) EdgeKind where
  direction := .forward
  bottom := .empty
  boundary block := if block = c.entry then some (.constant (variablesOf F.toInstrInfo c) .bottom) else none
  meet := meetFacts F
  transferNode block input := (replayConstants F (c.instructions block) input).1
  transferEdge edge input output :=
    (if departsBeforeThrows F.toInstrInfo c edge then
      joinAll (meetFacts F) none (replayConstants F (c.instructions edge.source) input).2
    else none).getD output

variable [DecidableEq κ]

/-- The solve over the blocks that the entry reaches: the facts, or `none` while it runs. -/
def solveReachable (c : Cfg ι π) (fuel : Nat) : Option (EdgeFacts (ConstFact ν κ)) := do
  let reachable ← depthFirstPreorder c.view.toGraphView c.entry .outgoing
  let result ← solveEdgeProblemFromWithConfig c.edgeView (constPropProblem F c) reachable .new fuel
  result.toOption

/-- The constants known at the entry and the exit of every block. -/
def ConstantPropagation.compute (c : Cfg ι π) (fuel : Nat) : Option (Facts (ConstFact ν κ)) :=
  (solveReachable F c fuel).map (·.nodes)

def factBefore (c : Cfg ι π) (facts : Facts (ConstFact ν κ)) (block index : Nat) : ConstFact ν κ :=
  (replayConstants F ((c.instructions block).take index) (facts.input block)).1

end Problem

end Dataflow

end CfgLib

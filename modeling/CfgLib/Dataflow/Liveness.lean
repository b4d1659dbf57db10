import CfgLib.Dataflow.Fixpoint
import CfgLib.Dataflow.Replay
import CfgLib.Lib.Stack
import Mathlib.Data.List.Sort

/-!
# Liveness

`dataflow/liveness.rs`: the variables that may be read before they are overwritten.
The solver works on one bit row for each block: what the block reads, what it writes,
and what it has written before it can unwind.  The block-level problem for the generic
solver does not keep what an unwind reads apart from what the block's end reads.
-/

namespace CfgLib

namespace Dataflow

open CfgLib.Lib

variable {ι ν π : Type}

/-! ## The block-level problem -/

section Problem

variable [DecidableEq ν]

/-- The first instruction before which an unwind can leave the block. -/
def firstUnwindPoint (I : InstrInfo ι ν) (c : Cfg ι π) (block : Nat) : Option Nat :=
  if (c.outgoing block).any fun e => (c.edgeView.edge e).data == .exceptionUnwind then
    (c.instructions block).findIdx? I.mayUnwind
  else none

/-- The variables live before code, from those live after it. -/
def backwardCode (I : InstrInfo ι ν) (onUnwind : Finset ν) (code : List ι) (live : Finset ν) : Finset ν :=
  code.foldr (fun instruction live => stepBackward I live instruction onUnwind) live

/-- One block's transfer: a throwing instruction keeps every variable of `successors` live
before it. -/
def backwardBlock (I : InstrInfo ι ν) (c : Cfg ι π) (block : Nat) (live successors : Finset ν) : Finset ν :=
  backwardCode I (if (firstUnwindPoint I c block).isSome then successors else ∅) (c.instructions block) live

def livenessProblem (I : InstrInfo ι ν) (c : Cfg ι π) : Problem (Finset ν) where
  direction := .backward
  bottom := ∅
  boundary := ∅
  meet := (· ∪ ·)
  transfer block liveOut := backwardBlock I c block liveOut liveOut

end Problem

/-! ## Rows -/

/-- The variables of one solve; the position of a variable is its bit in every row. -/
structure Universe (ν : Type) where
  vars : List ν
  nodup : vars.Nodup

namespace Universe

abbrev Row (u : Universe ν) := BitVec u.vars.length

section Order

variable [LinearOrder ν]

/-- The variables that the graph reads or writes, and those of the seeds, sorted. -/
def of (I : InstrInfo ι ν) (c : Cfg ι π) (seeds : Nat → List ν) : Universe ν where
  vars := ((c.blockIds.flatMap seeds ++ c.blockIds.flatMap fun block => (c.instructions block).flatMap
    fun instruction => I.uses instruction ++ I.defs instruction).insertionSort (· ≤ ·)).dedup
  nodup := List.nodup_dedup _

end Order

variable [DecidableEq ν]

def insert (u : Universe ν) (row : u.Row) (var : ν) : u.Row :=
  match u.vars.idxOf? var with
  | some index => row ||| BitVec.twoPow _ index
  | none => row

def remove (u : Universe ν) (row : u.Row) (var : ν) : u.Row :=
  match u.vars.idxOf? var with
  | some index => row &&& ~~~BitVec.twoPow _ index
  | none => row

def set (u : Universe ν) (row : u.Row) : Finset ν :=
  (((List.range u.vars.length).filter row.getLsbD).filterMap (u.vars[·]?)).toFinset

end Universe

structure BlockRows {ν : Type} (u : Universe ν) where
  /-- The upward-exposed reads. -/
  reads : u.Row
  writes : u.Row
  seeded : u.Row
  /-- Whether an instruction may unwind. -/
  unwinding : Bool
  /-- The writes before the first possible unwind. -/
  beforeUnwind : u.Row

section Rows

variable [DecidableEq ν]

/-- Whether an instruction may unwind, and the writes before the first that may. -/
def unwindRows (I : InstrInfo ι ν) (u : Universe ν) : List ι → u.Row → Bool × u.Row
  | [], row => (false, row)
  | instruction :: rest, row =>
    if I.mayUnwind instruction then (true, row)
    else unwindRows I u rest ((I.defs instruction).foldl u.insert row)

/-- The reads and the writes of code that ends with an instruction's successors. -/
def readWriteStep (I : InstrInfo ι ν) (u : Universe ν) (rows : u.Row × u.Row) (instruction : ι) : u.Row × u.Row :=
  let (reads, writes) := (I.defs instruction).foldl
    (fun rows var => (u.remove rows.1 var, u.insert rows.2 var)) rows
  ((I.uses instruction).foldl u.insert reads, writes)

/-- The rows of one block.  Without an unwind edge in the graph none of the unwind rows
is filled. -/
def BlockRows.of (I : InstrInfo ι ν) (c : Cfg ι π) (u : Universe ν) (seeds : Nat → List ν) (hasUnwind : Bool)
    (block : Nat) : BlockRows u :=
  let (unwinding, beforeUnwind) := if hasUnwind then unwindRows I u (c.instructions block) 0 else (false, 0)
  let (reads, writes) := (c.instructions block).reverse.foldl (readWriteStep I u) (0, 0)
  ⟨reads, writes, (seeds block).foldl u.insert 0, unwinding, beforeUnwind⟩

/-! ## The solver -/

structure LivenessState {ν : Type} (u : Universe ν) where
  liveIn : Nat → u.Row
  flowingOut : Nat → u.Row
  worklist : Stack
  steps : Nat

/-- What flows into a block from its successors, along normal edges and along unwind edges. -/
def flowingFrom (c : Cfg ι π) (u : Universe ν) (hasUnwind : Bool) (rows : BlockRows u) (liveIn : Nat → u.Row)
    (block : Nat) : u.Row × u.Row :=
  (c.outgoing block).foldl (fun (out, unwindOut) e =>
    let edge := c.edgeView.edge e
    if hasUnwind && rows.unwinding && edge.data == .exceptionUnwind then (out, unwindOut ||| liveIn edge.target)
    else (out ||| liveIn edge.target, unwindOut)) (0, 0)

/-- What is live at the start of a block. -/
def nextRow {u : Universe ν} (hasUnwind : Bool) (rows : BlockRows u) (out unwindOut : u.Row) : u.Row :=
  let normal := ((out ||| rows.seeded) &&& ~~~rows.writes) ||| rows.reads
  if hasUnwind then normal ||| (unwindOut &&& ~~~rows.beforeUnwind) else normal

/-- One round of the solve, `none` when nothing is queued. -/
def livenessStep (c : Cfg ι π) (u : Universe ν) (hasUnwind : Bool) (rows : Nat → BlockRows u)
    (s : LivenessState u) : Option (LivenessState u) :=
  s.worklist.pop.map fun (block, worklist) =>
    let (out, unwindOut) := flowingFrom c u hasUnwind (rows block) s.liveIn block
    let next := nextRow hasUnwind (rows block) out unwindOut
    let s := { s with
      flowingOut := Function.update s.flowingOut block out, worklist := worklist, steps := s.steps + 1 }
    if next ≠ s.liveIn block then
      { s with
        liveIn := Function.update s.liveIn block next
        worklist := (c.predecessors block).foldl Stack.push worklist }
    else s

end Rows

def hasUnwindEdge (c : Cfg ι π) : Bool :=
  c.edgeView.edgeIds.any fun e => (c.edgeView.edge e).data == .exceptionUnwind

/-- Liveness seeded with what leaves each block: the facts of every block, with its seed
in what is live at its end; `none` while the solve runs. -/
def Liveness.computeWithExits [LinearOrder ν] (I : InstrInfo ι ν) (c : Cfg ι π) (liveOut : Nat → List ν)
    (fuel : Nat) : Option (Facts (Finset ν)) :=
  let u := Universe.of I c liveOut
  let rows := BlockRows.of I c u liveOut (hasUnwindEdge c)
  let s := iterate (livenessStep c u (hasUnwindEdge c) rows) fuel ⟨fun _ => 0, fun _ => 0, .ofList c.blockIds, 0⟩
  if s.worklist.items.isEmpty then
    some ⟨fun block => u.set (s.liveIn block),
      fun block => u.set (s.flowingOut block ||| (rows block).seeded), s.steps⟩
  else none

/-- Liveness with nothing live where the function is left. -/
def Liveness.compute [LinearOrder ν] (I : InstrInfo ι ν) (c : Cfg ι π) (fuel : Nat) : Option (Facts (Finset ν)) :=
  Liveness.computeWithExits I c (fun _ => []) fuel

section Points

variable [DecidableEq ν]

def unionAlong (c : Cfg ι π) (edges : List Nat) (sets : Nat → Finset ν) : Finset ν :=
  edges.foldl (fun live e => live ∪ sets (c.edgeView.edge e).target) ∅

/-- What an unwind out of a block can read. -/
def liveOnUnwind (I : InstrInfo ι ν) (c : Cfg ι π) (facts : Facts (Finset ν)) (block : Nat) : Finset ν :=
  unionAlong c ((c.outgoing block).filter fun e => departsBeforeThrows I c (c.edgeView.edge e)) facts.input

/-- What is live before the instruction at an index of a block, and after the last one. -/
def livePoint (I : InstrInfo ι ν) (c : Cfg ι π) (facts : Facts (Finset ν)) (block index : Nat) : Finset ν :=
  backwardCode I (liveOnUnwind I c facts block) ((c.instructions block).drop index) (facts.output block)

end Points

end Dataflow

end CfgLib

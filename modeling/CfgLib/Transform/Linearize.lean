import CfgLib.Dataflow.Replay
import CfgLib.Graph.Postorder
import CfgLib.Lib.Fold
import CfgLib.Lib.Visits

/-!
# Linearization

`transform/linearize.rs`: the blocks of a graph one after another, with the branches and
jumps that adjacency does not stand in for, and the machine that runs such a stream.
-/

namespace CfgLib.Transform

open CfgLib.Lib

variable {ι π : Type}

/-! ## The stream -/

inductive BlockOrder where
  | reversePostorder
  | allocationOrder
  /-- Blocks left out are omitted; every identity names a live block. -/
  | custom (ids : List Nat)

structure LinearInst (ι : Type) where
  inst : ι
  block : Nat
  index : Nat

def usizeMax : Nat := 2 ^ 64 - 1

/-- An instruction the emitter created on behalf of a block. -/
def LinearInst.synthetic (inst : ι) (block : Nat) : LinearInst ι := ⟨inst, block, usizeMax⟩

inductive LinearizeError where
  /-- A block with a conditional edge has no instruction to branch on. -/
  | missingCondition (block : Nat)

/-- How the target form jumps, branches and names a block, if it does. -/
structure Emitter (ι : Type) where
  emitJump : Nat → ι
  emitConditionalBranch : ι → Nat → ι
  emitBlockStart : Nat → Option ι

/-- What an edge requires of the stream. -/
inductive Transfer where
  /-- Adjacency, or a jump when the target is not next. -/
  | layout
  /-- A conditional branch on the block's last instruction. -/
  | branch
  | jump
  /-- Nothing: the block's own instruction or the unwinder performs it. -/
  | implicit
  deriving DecidableEq, Repr

def transfer : EdgeKind → Transfer
  | .fallthrough | .conditionalFalse | .callReturn => .layout
  | .conditionalTrue => .branch
  | .unconditional | .back | .jump | .exceptionLeave => .jump
  | .switchCase | .indirectJump | .call | .indirectCall | .exceptionHandler | .exceptionUnwind
  | .exceptionResume | .exceptionContinue => .implicit

/-- What one edge adds to the stream, beside the first target that adjacency can reach. -/
def emitTransfer (c : Cfg ι π) (emitter : Emitter ι) (id : Nat) (state : Option Nat × List (LinearInst ι))
    (e : Nat) : Except LinearizeError (Option Nat × List (LinearInst ι)) :=
  let (layoutTarget, out) := state
  let edge := c.edgeView.edge e
  match transfer edge.data with
  | .layout => .ok (layoutTarget <|> some edge.target, out)
  | .branch => match (c.instructions id).getLast? with
    | none => .error (.missingCondition id)
    | some condition =>
      .ok (layoutTarget, out ++ [.synthetic (emitter.emitConditionalBranch condition edge.target) id])
  | .jump => .ok (layoutTarget, out ++ [.synthetic (emitter.emitJump edge.target) id])
  | .implicit => .ok (layoutTarget, out)

/-- The branches and jumps of one block, with a jump to what would follow it unless that is
laid out next. -/
def emitTransfers (c : Cfg ι π) (emitter : Emitter ι) (id : Nat) (nextInLayout : Option Nat)
    (out : List (LinearInst ι)) : Except LinearizeError (List (LinearInst ι)) :=
  ((c.outgoing id).foldlM (emitTransfer c emitter id) (none, out)).map fun (layoutTarget, out) =>
    match layoutTarget with
    | none => out
    | some target =>
      if nextInLayout ≠ some target then out ++ [.synthetic (emitter.emitJump target) id] else out

def blockItems (c : Cfg ι π) (emitter : Emitter ι) (id : Nat) : List (LinearInst ι) :=
  ((emitter.emitBlockStart id).map (LinearInst.synthetic · id)).toList ++
    (c.instructions id).zipIdx.map fun (inst, index) => ⟨inst, id, index⟩

def linearizeBlocks (c : Cfg ι π) (emitter : Emitter ι) :
    List Nat → List (LinearInst ι) → Except LinearizeError (List (LinearInst ι))
  | [], out => .ok out
  | id :: rest, out =>
    (emitTransfers c emitter id rest.head? (out ++ blockItems c emitter id)).bind (linearizeBlocks c emitter rest)

/-- The blocks of an order; `none` is the panic of a postorder without an entry. -/
def BlockOrder.blocks (c : Cfg ι π) : BlockOrder → Option (List Nat)
  | .reversePostorder => CfgLib.reversePostorder c.view.toGraphView c.entry .outgoing
  | .allocationOrder => some c.blockIds
  | .custom ids => some ids

def linearize (c : Cfg ι π) (order : BlockOrder) (emitter : Emitter ι) :
    Option (Except LinearizeError (List (LinearInst ι))) :=
  (order.blocks c).map fun sorted => linearizeBlocks c emitter sorted []

/-! ## The machine -/

inductive Action where
  | next
  | jump (target : Nat)
  /-- Goes to the target or to the next instruction. -/
  | branch (target : Nat)
  /-- A switch, a call or the like: takes one of the block's implicit edges, or goes on if
  it can. -/
  | transfer (continues : Bool)

def Action.continues : Action → Bool
  | .next | .branch _ => true
  | .jump _ => false
  | .transfer continues => continues

def Action.target : Action → Option Nat
  | .jump target | .branch target => some target
  | .next | .transfer _ => none

def Action.carries : Action → Bool
  | .transfer _ => true
  | _ => false

/-- The instructions of the stream that belong to a block. -/
def piece (out : List (LinearInst ι)) (block : Nat) : List (LinearInst ι) :=
  out.filter fun item => item.block = block

/-- The block laid out after another. -/
def layoutNext : List Nat → Nat → Option Nat
  | [], _ => none
  | id :: rest, block => if id = block then rest.head? else layoutNext rest block

/-- The targets of the edges that a block's own instructions perform. -/
def ImplicitEdge (c : Cfg ι π) (block target : Nat) : Prop :=
  ∃ e ∈ c.outgoing block, transfer (c.edgeView.edge e).data = .implicit ∧ (c.edgeView.edge e).target = target

/-- One step of the machine from a block and a place in its piece of the stream, with the
block it enters. -/
inductive StreamStep (act : ι → Action) (c : Cfg ι π) (sorted : List Nat) (out : List (LinearInst ι)) :
    Transition (Nat × Nat) Nat
  | next {b i : Nat} {x : LinearInst ι} : (piece out b)[i]? = some x → (act x.inst).continues = true →
    StreamStep act c sorted out (b, i) none (b, i + 1)
  | goto {b i t : Nat} {x : LinearInst ι} : (piece out b)[i]? = some x → (act x.inst).target = some t →
    StreamStep act c sorted out (b, i) (some t) (t, 0)
  | carry {b i t : Nat} {x : LinearInst ι} : (piece out b)[i]? = some x → (act x.inst).carries = true →
    ImplicitEdge c b t → StreamStep act c sorted out (b, i) (some t) (t, 0)
  | fall {b t : Nat} : layoutNext sorted b = some t →
    StreamStep act c sorted out (b, (piece out b).length) (some t) (t, 0)

end CfgLib.Transform

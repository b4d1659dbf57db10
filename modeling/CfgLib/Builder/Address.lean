import CfgLib.Builder.Transfer
import CfgLib.Cfg.Text
import CfgLib.Lib.Fold
import Mathlib.Data.List.Sort
import Mathlib.Order.Defs.LinearOrder

/-!
# Leader-based construction

`builder/address.rs`, `builder/address/leaders.rs`, `builder/address/edges.rs`:
the graph of a sized, addressed instruction stream, with its normal edges from
the flow of each instruction and its unwind edges from the handler table.
-/

namespace CfgLib.Builder

open CfgLib.Lib

/-- A code address: totally ordered, with a numeric distance for range spans. -/
class AddressSpace (A : Type) extends LinearOrder A where
  distanceFrom : A → A → Nat

/-- A range that strictly holds another is longer. -/
class LawfulAddressSpace (A : Type) [AddressSpace A] : Prop where
  distance_lt : ∀ {s e s' e' : A}, s ≤ s' → e' ≤ e → s' < e' → s ≠ s' ∨ e ≠ e' →
    AddressSpace.distanceFrom e' s' < AddressSpace.distanceFrom e s

instance : AddressSpace Nat where
  distanceFrom later earlier := later - earlier

instance : LawfulAddressSpace Nat where
  distance_lt := by
    intro s e s' e' hs he hlt hne
    change e' - s' < e - s
    rcases hne with h | h <;> omega

structure AddressInstruction (ι A K : Type) where
  address : ι → A
  endAddress : ι → Option A
  flow : ι → Flow A K
  retainsExceptionEdge : ι → Bool

/-- One exception-table entry: a half-open range, and where its handler starts. -/
structure AddressHandler (A : Type) where
  start : A
  stop : A
  entry : A
  kind : HandlerKind

/-- One edge as described to the consumer's payload builder. -/
structure AddressEdgeInfo (A K : Type) where
  source : A
  target : A
  kind : EdgeKind
  role : EdgeRole A K

inductive CallPolicy where
  | edges
  | flatten
  deriving DecidableEq, Repr

structure AddressCfgOptions (A : Type) where
  entry : Option A
  calls : CallPolicy

inductive AddressBuildError (A : Type) where
  | zeroSizeInstruction (address : A)
  | unorderedInstruction (previous address : A)
  | addressOverflow (address : A)
  | missingEntry (address : A)
  | emptyProtectedRange (start stop : A)
  | missingRangeStart (address : A)
  | missingRangeEnd (address : A)
  | missingHandlerEntry (address : A)

/-- Why a build gives no graph: it rejects the stream, or it panics. -/
inductive Rejected (A : Type) where
  | error (error : AddressBuildError A)
  | panic

structure CallSite (A : Type) where
  source : A
  target : Option A

structure AddressGraph (ι π A : Type) where
  cfg : Cfg ι π
  instructionBlocks : List (A × Nat)
  handlerRefs : List HandlerRef
  unresolvedTransfers : List (UnresolvedTransfer A)
  calls : List (CallSite A)

variable {ι A K π : Type} [AddressSpace A]

def reject {α : Type} (error : AddressBuildError A) : Except (Rejected A) α := .error (.error error)

def orPanics {α : Type} : Option α → Except (Rejected A) α
  | none => .error .panic
  | some a => .ok a

/-- A binary search, which finds the one place in the strictly increasing addresses of a stream. -/
def binarySearch (addresses : List A) (address : A) : Option Nat := addresses.idxOf? address

def AddressInstruction.endOf (I : AddressInstruction ι A K) (x : ι) : A :=
  (I.endAddress x).getD (I.address x)

def endsBlock (flow : Flow A K) (policy : CallPolicy) : Bool :=
  flow.endsBlock && !(policy == .flatten && flow.isCall)

/-! ## Inspection -/

structure Inspected (A K : Type) where
  previous : Option A
  codeEnd : Option A
  addresses : List A
  transfers : List (Nat × Flow A K)

def furthest (codeEnd : Option A) (stop : A) : Option A :=
  match codeEnd with
  | none => some stop
  | some current => if current < stop then some stop else some current

def inspectInstruction (I : AddressInstruction ι A K) (s : Inspected A K) (x : ι) :
    Except (Rejected A) (Inspected A K) :=
  match I.endAddress x with
  | none => reject (.addressOverflow (I.address x))
  | some stop =>
    if stop ≤ I.address x then reject (.zeroSizeInstruction (I.address x))
    else
      match s.previous.filter fun previous => decide (I.address x ≤ previous) with
      | some previous => reject (.unorderedInstruction previous (I.address x))
      | none => .ok {
          previous := some (I.address x)
          codeEnd := furthest s.codeEnd stop
          addresses := s.addresses ++ [I.address x]
          transfers :=
            if (I.flow x).endsBlock then s.transfers ++ [(s.addresses.length, I.flow x)]
            else s.transfers }

def inspectInstructions (I : AddressInstruction ι A K) (instructions : List ι) :
    Except (Rejected A) (Inspected A K) :=
  instructions.foldlM (inspectInstruction I) ⟨none, none, [], []⟩

/-- The block-ending flow of the instruction at a position. -/
def flowAt (transfers : List (Nat × Flow A K)) (position : Nat) : Option (Flow A K) :=
  (transfers.find? fun transfer => decide (transfer.1 = position)).map (·.2)

/-! ## Leaders -/

def markTarget (addresses : List A) (target : A) (leaders : List Bool) : List Bool :=
  match binarySearch addresses target with
  | none => leaders
  | some position => leaders.set position true

def markNext (addresses : List A) (position : Nat) (leaders : List Bool) : List Bool :=
  if position + 1 < addresses.length then leaders.set (position + 1) true else leaders

def markSequence (I : AddressInstruction ι A K) (addresses : List A) (leaders : List Bool)
    (numbered : ι × Nat) : List Bool :=
  if addresses[numbered.2 + 1]? = some (I.endOf numbered.1) then leaders
  else markTarget addresses (I.endOf numbered.1) (markNext addresses numbered.2 leaders)

def collectSequenceLeaders (I : AddressInstruction ι A K) (instructions : List ι)
    (addresses : List A) (leaders : List Bool) : List Bool :=
  instructions.zipIdx.foldl (markSequence I addresses) leaders

def markTransfers (addresses : List A) (transfers : List (Transfer A K)) (leaders : List Bool) :
    List Bool :=
  transfers.foldl (fun leaders transfer =>
    match transfer.target with
    | none => leaders
    | some target => markTarget addresses target leaders) leaders

def markFlow (I : AddressInstruction ι A K) (instructions : List ι) (addresses : List A)
    (policy : CallPolicy) (leaders : List Bool) (transfer : Nat × Flow A K) : List Bool :=
  if endsBlock transfer.2 policy then
    match instructions[transfer.1]? with
    | none => leaders
    | some x =>
      let leaders := markTransfers addresses
        (transfer.2.transfers (I.address x) (some (I.endOf x))) leaders
      let leaders :=
        match transfer.2 with
        | .exceptional _ => leaders.set transfer.1 true
        | _ => leaders
      markNext addresses transfer.1 leaders
  else leaders

def collectFlowLeaders (I : AddressInstruction ι A K) (instructions : List ι) (addresses : List A)
    (transfers : List (Nat × Flow A K)) (policy : CallPolicy) (leaders : List Bool) : List Bool :=
  transfers.foldl (markFlow I instructions addresses policy)
    (collectSequenceLeaders I instructions addresses leaders)

/-! ## Handlers -/

def rangePositions (start stop : A) (codeEnd : Option A) (addresses : List A) :
    Except (Rejected A) (Nat × Nat) :=
  if stop ≤ start then reject (.emptyProtectedRange start stop)
  else
    match binarySearch addresses start with
    | none => reject (.missingRangeStart start)
    | some first =>
      if codeEnd = some stop then .ok (first, addresses.length)
      else
        match binarySearch addresses stop with
        | none => reject (.missingRangeEnd stop)
        | some last => .ok (first, last)

/-- What the handler table is resolved to, and the counters of its range ends. -/
structure HandlerScan where
  leaders : List Bool
  ranges : List (Nat × Nat)
  entries : List Nat
  rangeStarts : List Nat
  rangeEnds : List Nat

def scanHandler (codeEnd : Option A) (addresses : List A) (s : HandlerScan)
    (handler : AddressHandler A) : Except (Rejected A) HandlerScan := do
  let (first, last) ← rangePositions handler.start handler.stop codeEnd addresses
  match binarySearch addresses handler.entry with
  | none => reject (.missingHandlerEntry handler.entry)
  | some entry =>
    let leaders := s.leaders.set first true
    let leaders := if last < leaders.length then leaders.set last true else leaders
    .ok {
      leaders := leaders.set entry true
      ranges := s.ranges ++ [(first, last)]
      entries := s.entries ++ [entry]
      rangeStarts := s.rangeStarts.modify first (· + 1)
      rangeEnds := s.rangeEnds.modify last (· + 1) }

def sweepActive (rangeStarts rangeEnds : List Nat) (s : Nat × List Bool) (position : Nat) :
    Nat × List Bool :=
  let active := s.1 - rangeEnds.getD position 0 + rangeStarts.getD position 0
  (active, if active ≠ 0 then s.2.set position true else s.2)

structure HandlerIndex where
  ranges : List (Nat × Nat)
  entries : List Nat

def validateHandlers (handlers : List (AddressHandler A)) (codeEnd : Option A) (addresses : List A)
    (leaders : List Bool) : Except (Rejected A) (HandlerIndex × List Bool) := do
  let zeros := List.replicate (addresses.length + 1) 0
  let s ← handlers.foldlM (scanHandler codeEnd addresses) ⟨leaders, [], [], zeros, zeros⟩
  let swept := (List.range addresses.length).foldl (sweepActive s.rangeStarts s.rangeEnds)
    (0, s.leaders)
  .ok (⟨s.ranges, s.entries⟩, swept.2)

/-! ## Blocks -/

structure Populating (ι π : Type) where
  cfg : Cfg ι π
  current : Nat
  blocksByInstruction : List Nat
  terminators : List (Nat × Nat)

def openBlock (leaders : List Bool) (s : Populating ι π) (position : Nat) :
    Option (Populating ι π) :=
  if position ≠ 0 ∧ leaders.getD position false = true then do
    let (b, cfg) ← s.cfg.newBlock
    some { s with
      cfg
      current := b
      terminators := s.terminators ++ [(s.current, position - 1)] }
  else some s

def populate (leaders : List Bool) (s : Populating ι π) (numbered : ι × Nat) :
    Option (Populating ι π) := do
  let s ← openBlock leaders s numbered.2
  some { s with
    cfg := s.cfg.modifyBlock s.current fun b =>
      { b with instructions := b.instructions ++ [numbered.1] }
    blocksByInstruction := s.blocksByInstruction ++ [s.current] }

def populateBlocks (instructions : List ι) (leaders : List Bool) : Option (Populating ι π) := do
  let s ← instructions.zipIdx.foldlM (populate leaders) ⟨.new, 0, [], []⟩
  some { s with
    terminators :=
      if instructions.isEmpty then s.terminators
      else s.terminators ++ [(s.current, instructions.length - 1)] }

/-! ## Edges -/

/-- The graph under construction and the transfers that found no instruction. -/
structure Emitting (ι π A : Type) where
  cfg : Cfg ι π
  unresolved : List (UnresolvedTransfer A)

structure EmitContext (A K π : Type) where
  addresses : List A
  blocksByInstruction : List Nat
  policy : CallPolicy
  edgePayload : AddressEdgeInfo A K → π

def report (s : Emitting ι π A) (source : A) (transfer : Transfer A K) : Emitting ι π A :=
  match transfer.unresolvedRole with
  | none => s
  | some role => { s with unresolved := s.unresolved ++ [⟨source, transfer.target, role⟩] }

def addTransfer (x : EmitContext A K π) (block : Nat) (source : A) (s : Emitting ι π A)
    (transfer : Transfer A K) : Option (Emitting ι π A) :=
  match transfer.target with
  | none => some (report s source transfer)
  | some target =>
    match binarySearch x.addresses target with
    | none => some (report s source transfer)
    | some position => do
      let kind := transfer.role.kind
      let targetBlock ← x.blocksByInstruction[position]?
      let (_, cfg) ← s.cfg.addEdgeWithPayload block targetBlock kind
        (x.edgePayload ⟨source, target, kind, transfer.role⟩)
      some { s with cfg }

/-- The transfers a block makes at its last instruction.  One that ended at a leader
continues at its last end address. -/
def blockTransfers (policy : CallPolicy) (source stop : A) (flow : Option (Flow A K)) :
    List (Transfer A K) :=
  match flow.filter fun flow => endsBlock flow policy with
  | none => [⟨some stop, .sequential⟩]
  | some flow => flow.transfers source (some stop)

def emit (I : AddressInstruction ι A K) (x : EmitContext A K π)
    (transfers : List (Nat × Flow A K)) (s : Emitting ι π A) (terminator : Nat × Nat) :
    Option (Emitting ι π A) := do
  let source ← x.addresses[terminator.2]?
  let block ← s.cfg.block terminator.1
  let last ← block.instructions.getLast?
  (blockTransfers x.policy source (I.endOf last) (flowAt transfers terminator.2)).foldlM
    (addTransfer x terminator.1 source) s

def addExceptionEdge (I : AddressInstruction ι A K) (x : EmitContext A K π) (index : Nat) (entry : A)
    (target : Nat) (cfg : Cfg ι π) (position : Nat) : Option (Cfg ι π) := do
  let source ← x.blocksByInstruction[position]?
  let address ← x.addresses[position]?
  let block ← cfg.block source
  let first ← block.instructions.head?
  if I.retainsExceptionEdge first then do
    let (_, cfg) ← cfg.addEdgeWithPayload source target .exceptionUnwind
      (x.edgePayload ⟨address, entry, .exceptionUnwind, .unwind index⟩)
    some cfg
  else some cfg

def positionsOf (range : Nat × Nat) : List Nat := List.range' range.1 (range.2 - range.1)

def addHandlerEdges (I : AddressInstruction ι A K) (x : EmitContext A K π) (handlerIndex : HandlerIndex)
    (cfg : Cfg ι π) (numbered : AddressHandler A × Nat) : Option (Cfg ι π) := do
  let entry ← handlerIndex.entries[numbered.2]?
  let target ← x.blocksByInstruction[entry]?
  let range ← handlerIndex.ranges[numbered.2]?
  (positionsOf range).foldlM (addExceptionEdge I x numbered.2 numbered.1.entry target) cfg

/-! ## Regions -/

/-- The handlers that share one protected range. -/
structure Draft (A : Type) where
  start : A
  stop : A
  positions : Nat × Nat
  handlerIndices : List Nat

def Draft.span (draft : Draft A) : Nat := AddressSpace.distanceFrom draft.stop draft.start

def strictlyContains (outer inner : Draft A) : Bool :=
  (outer.start ≠ inner.start || outer.stop ≠ inner.stop) &&
    decide (outer.start ≤ inner.start) && decide (inner.stop ≤ outer.stop)

def draftHandler (handlerIndex : HandlerIndex) (drafts : List (Draft A))
    (numbered : AddressHandler A × Nat) : Option (List (Draft A)) :=
  match drafts.findIdx? fun draft =>
      draft.start = numbered.1.start && draft.stop = numbered.1.stop with
  | some position => some (drafts.modify position fun draft =>
      { draft with handlerIndices := draft.handlerIndices ++ [numbered.2] })
  | none => do
    let positions ← handlerIndex.ranges[numbered.2]?
    some (drafts ++ [⟨numbered.1.start, numbered.1.stop, positions, [numbered.2]⟩])

/-- Enclosing ranges before nested ones, in table order between equal spans. -/
def sortDrafts (drafts : List (Draft A)) : List (Draft A) :=
  drafts.insertionSort fun a b => b.span ≤ a.span

def regionHandler (handlers : List (AddressHandler A)) (handlerIndex : HandlerIndex)
    (blocksByInstruction : List Nat) (index : Nat) : Option Handler := do
  let handler ← handlers[index]?
  let entry ← handlerIndex.entries[index]?
  let block ← blocksByInstruction[entry]?
  some ⟨block, .unknown, handler.kind⟩

/-- The innermost of the earlier drafts that strictly enclose a draft. -/
def parentOf (drafts : List (Draft A)) (index : Nat) (draft : Draft A) : Option Nat :=
  (minByKey (fun numbered : Draft A × Nat => numbered.1.span)
    ((drafts.take index).zipIdx.filter fun numbered => strictlyContains numbered.1 draft)).map (·.2)

structure Registering (ι π : Type) where
  cfg : Cfg ι π
  handlerRefs : List (Option HandlerRef)
  regionIds : List Nat

def registerDraft (handlers : List (AddressHandler A)) (handlerIndex : HandlerIndex)
    (blocksByInstruction : List Nat) (drafts : List (Draft A)) (s : Registering ι π)
    (numbered : Draft A × Nat) : Option (Registering ι π) := do
  let protectedBlocks ← (positionsOf numbered.1.positions).mapM (blocksByInstruction[·]?)
  let regionHandlers ←
    numbered.1.handlerIndices.mapM (regionHandler handlers handlerIndex blocksByInstruction)
  let (region, cfg) ← s.cfg.addRegion
    ⟨0, protectedBlocks.toFinset, regionHandlers,
      (parentOf drafts numbered.2 numbered.1).bind (s.regionIds[·]?)⟩
  some {
    cfg
    handlerRefs := numbered.1.handlerIndices.zipIdx.foldl
      (fun refs handler => refs.set handler.1 (some ⟨region, handler.2⟩)) s.handlerRefs
    regionIds := s.regionIds ++ [region] }

def addRegions (cfg : Cfg ι π) (handlers : List (AddressHandler A)) (handlerIndex : HandlerIndex)
    (blocksByInstruction : List Nat) : Option (Cfg ι π × List HandlerRef) := do
  let drafts ← handlers.zipIdx.foldlM (draftHandler handlerIndex) []
  let drafts := sortDrafts drafts
  let s ← drafts.zipIdx.foldlM (registerDraft handlers handlerIndex blocksByInstruction drafts)
    ⟨cfg, List.replicate handlers.length none, []⟩
  some (s.cfg, s.handlerRefs.filterMap id)

/-! ## The build -/

def collectCallSites (addresses : List A) (transfers : List (Nat × Flow A K)) : List (CallSite A) :=
  (transfers.filter fun transfer => transfer.2.isCall).filterMap fun transfer =>
    (addresses[transfer.1]?).map fun source => ⟨source, transfer.2.directTarget⟩

def entryPosition (addresses : List A) (entry : Option A) : Except (Rejected A) (Option Nat) :=
  match entry with
  | none => .ok none
  | some address =>
    match binarySearch addresses address with
    | none => reject (.missingEntry address)
    | some position => .ok (some position)

def initialLeaders (count : Nat) (entry : Option Nat) : List Bool :=
  let leaders := (List.replicate count false).set 0 true
  match entry with
  | none => leaders
  | some position => leaders.set position true

/-- The graph of the populated blocks, entered at a position. -/
def enterAt (s : Populating ι π) (entry : Option Nat) : Option (Cfg ι π) :=
  match entry with
  | none => some s.cfg
  | some position => (s.blocksByInstruction[position]?).bind s.cfg.setEntry

def assemble (I : AddressInstruction ι A K) (instructions : List ι)
    (handlers : List (AddressHandler A)) (policy : CallPolicy)
    (edgePayload : AddressEdgeInfo A K → π) (inspected : Inspected A K) (entry : Option Nat)
    (handlerIndex : HandlerIndex) (leaders : List Bool) : Option (AddressGraph ι π A) := do
  let s : Populating ι π ← populateBlocks instructions leaders
  let cfg ← enterAt s entry
  let x : EmitContext A K π :=
    ⟨inspected.addresses, s.blocksByInstruction, policy, edgePayload⟩
  let emitted ← s.terminators.foldlM (emit I x inspected.transfers) ⟨cfg, []⟩
  let cfg ← handlers.zipIdx.foldlM (addHandlerEdges I x handlerIndex) emitted.cfg
  let (cfg, handlerRefs) ← addRegions cfg handlers handlerIndex s.blocksByInstruction
  some {
    cfg
    instructionBlocks := inspected.addresses.zip s.blocksByInstruction
    handlerRefs
    unresolvedTransfers := emitted.unresolved
    calls :=
      match policy with
      | .edges => []
      | .flatten => collectCallSites inspected.addresses inspected.transfers }

/-- The graph of a sorted, sized, addressed instruction stream. -/
def buildAddressCfg (I : AddressInstruction ι A K) (instructions : List ι)
    (handlers : List (AddressHandler A)) (options : AddressCfgOptions A)
    (edgePayload : AddressEdgeInfo A K → π) : Except (Rejected A) (AddressGraph ι π A) := do
  let inspected ← inspectInstructions I instructions
  let entry ← entryPosition inspected.addresses options.entry
  let leaders := collectFlowLeaders I instructions inspected.addresses inspected.transfers
    options.calls (initialLeaders instructions.length entry)
  let (handlerIndex, leaders) ←
    validateHandlers handlers inspected.codeEnd inspected.addresses leaders
  orPanics (assemble I instructions handlers options.calls edgePayload inspected entry handlerIndex
    leaders)

end CfgLib.Builder

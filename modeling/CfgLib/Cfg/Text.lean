import CfgLib.Cfg.Mutation
import CfgLib.Graph.Text

/-!
# The text form of a control-flow graph

`cfg/text.rs`, `cfg/text/parse.rs`: the writer, which puts each fact of a graph
on a line of its own, and the reader, which rebuilds the graph line by line.
-/

namespace CfgLib

open CfgLib.Lib

/-! ## Names -/

namespace EdgeKind

def all : List EdgeKind :=
  [.fallthrough, .conditionalTrue, .conditionalFalse, .unconditional, .back, .call, .callReturn,
    .switchCase, .jump, .indirectJump, .indirectCall, .exceptionHandler, .exceptionUnwind,
    .exceptionLeave, .exceptionResume, .exceptionContinue]

def name : EdgeKind → Text
  | .fallthrough => "fallthrough".toList
  | .conditionalTrue => "true".toList
  | .conditionalFalse => "false".toList
  | .unconditional => "unconditional".toList
  | .back => "back".toList
  | .call => "call".toList
  | .callReturn => "call_return".toList
  | .switchCase => "case".toList
  | .jump => "jump".toList
  | .indirectJump => "indirect_jump".toList
  | .indirectCall => "indirect_call".toList
  | .exceptionHandler => "handler".toList
  | .exceptionUnwind => "unwind".toList
  | .exceptionLeave => "leave".toList
  | .exceptionResume => "resume".toList
  | .exceptionContinue => "continue_exception".toList

def fromName (text : Text) : Option EdgeKind := all.find? fun kind => decide (kind.name = text)

theorem fromName_name (kind : EdgeKind) : fromName kind.name = some kind := by
  cases kind <;> decide

theorem name_ne_nil (kind : EdgeKind) : kind.name ≠ [] := by
  cases kind <;> decide

theorem solid_name (kind : EdgeKind) : Solid kind.name := by
  cases kind <;> decide

end EdgeKind

/-- What the text form calls a handler, before its filter block is known. -/
inductive HandlerShape where
  | catch
  | catchAll
  | finally
  | fault
  | filter
  deriving DecidableEq, Repr

namespace HandlerShape

def of : HandlerKind → HandlerShape
  | .catch => .catch
  | .catchAll => .catchAll
  | .finally => .finally
  | .fault => .fault
  | .filter _ => .filter

def name : HandlerShape → Text
  | .catch => "catch".toList
  | .catchAll => "catch_all".toList
  | .finally => "finally".toList
  | .fault => "fault".toList
  | .filter => "filter".toList

def fromName (text : Text) : Option HandlerShape :=
  [.catch, .catchAll, .finally, .fault, .filter].find? fun shape => decide (name shape = text)

/-- The handler kind this shape stands for, given the block a filter field named. -/
def kind : HandlerShape → Option Nat → Option HandlerKind
  | .catch, _ => some .catch
  | .catchAll, _ => some .catchAll
  | .finally, _ => some .finally
  | .fault, _ => some .fault
  | .filter, some filterBlock => some (.filter filterBlock)
  | .filter, none => none

theorem fromName_name (shape : HandlerShape) : fromName shape.name = some shape := by
  cases shape <;> decide

theorem name_ne_nil (shape : HandlerShape) : shape.name ≠ [] := by
  cases shape <;> decide

theorem solid_name (shape : HandlerShape) : Solid shape.name := by
  cases shape <;> decide

end HandlerShape

/-! ## Writing -/

/-- What an instruction writes into a sink, piece by piece. -/
abbrev DisplayInstr (ι : Type) := ι → List Text

def DisplayInstr.render {ι : Type} (D : DisplayInstr ι) (a : ι) : Text := (D a).flatten

def indent (depth : Nat) : Text := List.replicate (4 * depth) ' '

/-- An indented line, or none when nothing is written to it. -/
def optionalLine (depth : Nat) (body : Text) : Text :=
  if body = [] then [] else endLine (indent depth ++ body)

def showBlock (b : Nat) : Text := showIndex "bb".toList b

def showRegion (r : Nat) : Text := showIndex "r".toList r

def writeBlocks (blocks : List Nat) : Text := [','].intercalate (blocks.map showBlock)

def liveMembers (live : Nat → Bool) (blocks : Finset Nat) : List Nat :=
  (blocks.sort (· ≤ ·)).filter live

def writeInstruction {ι : Type} (D : DisplayInstr ι) (a : ι) : Text :=
  optionalLine 1 ((D a).foldl EscapingSink.writeStr .new).sink

def blockHeader (id : Nat) (label : Option String) : Text :=
  showBlock id ++ ":".toList ++
    match label with
    | none => []
    | some name => writeLabel name.toList

def writeBlock {ι : Type} (D : DisplayInstr ι) (id : Nat) (block : BasicBlock ι) : Text :=
  endLine (blockHeader id block.label) ++ block.instructions.flatMap (writeInstruction D)

def writeEdge {π : Type} (edge : Store.EdgeRecord (Edge π)) : Text :=
  endLine (showBlock edge.source ++ " -> ".toList ++ showBlock edge.target ++ " ".toList ++
    edge.payload.kind.name)

def writeBody (live : Nat → Bool) (body : HandlerBody) : Text :=
  match body.blocks with
  | none => "?".toList
  | some blocks => writeBlocks (liveMembers live blocks)

def handlerLine (live : Nat → Bool) (handler : Handler) : Text :=
  "handler ".toList ++ (HandlerShape.of handler.kind).name ++ " entry=".toList ++
    showBlock handler.entry ++
    (match handler.kind with
      | .filter filterBlock => " filter=".toList ++ showBlock filterBlock
      | _ => []) ++
    " body=".toList ++ writeBody live handler.body

def writeHandler (live : Nat → Bool) (handler : Handler) : Text :=
  endLine (indent 1 ++ handlerLine live handler)

def regionHeader (live : Nat → Bool) (index : Nat) (region : Region) : Text :=
  "region ".toList ++ showRegion index ++ " protected=".toList ++
    writeBlocks (liveMembers live region.protectedBlocks) ++
    match region.parent with
      | none => []
      | some parent => " parent=".toList ++ showRegion parent

def writeRegion (live : Nat → Bool) (index : Nat) (region : Region) : Text :=
  endLine (regionHeader live index region) ++ region.handlers.flatMap (writeHandler live)

namespace Cfg

variable {ι π : Type}

/-- Every live edge in identity order. -/
def edgeIds (c : Cfg ι π) : List Nat := (List.range c.edgeBound).filter c.containsEdge

def liveEdges (c : Cfg ι π) : List (Store.EdgeRecord (Edge π)) := c.edgeIds.filterMap c.edge

def blockText (D : DisplayInstr ι) (c : Cfg ι π) (id : Nat) : Text :=
  match c.block id with
  | none => []
  | some block => writeBlock D id block

def toText (D : DisplayInstr ι) (c : Cfg ι π) : Text :=
  endLine ("entry ".toList ++ showBlock c.entry) ++ c.blockIds.flatMap (c.blockText D) ++
    c.liveEdges.flatMap writeEdge ++
    c.regions.zipIdx.flatMap fun numbered => writeRegion c.containsBlock numbered.2 numbered.1

/-! ## What a reader builds with -/

def new : Cfg ι π where
  graph := (Store.Naive.empty.addNode ⟨[], none⟩).getD .empty
  entry := 0
  regions := []
  cleanups := []

def setEntry (c : Cfg ι π) (b : Nat) : Option (Cfg ι π) :=
  if c.containsBlock b then some { c with entry := b } else none

/-- Append a region under the next identity. -/
def addRegion (c : Cfg ι π) (region : Region) : Option (Nat × Cfg ι π) :=
  if c.regions.length < 2 ^ 32 then
    some (c.regions.length,
      { c with regions := c.regions ++ [{ region with id := c.regions.length }] })
  else none

def newBlocks : Nat → Cfg ι π → Option (Cfg ι π)
  | 0, c => some c
  | count + 1, c =>
    match c.newBlock with
    | none => none
    | some (_, c) => newBlocks count c

end Cfg

/-! ## Reading -/

/-- Reading a handler body back: `?` is an unknown extent. -/
def parseHandlerBody (value : Text) (block : Text → Option Nat) : Option HandlerBody :=
  if value = "?".toList then some .unknown
  else if value = [] then some (.known ∅)
  else ((value.splitOn ',').mapM block).map fun blocks => .known blocks.toFinset

def splitField (field : Text) (line : Nat) : Except Stop (Text × Text) :=
  match splitOnce '=' field with
  | none => fail line .region
  | some parts => .ok parts

/-- What an indented line belongs to. -/
inductive Context where
  | nothing
  | block (b : Nat)
  | region

structure Reader (ι : Type) where
  cfg : Cfg ι Unit
  slots : Slots
  entry : Option Nat
  context : Context
  pending : Option Region

/-- The fields of a handler line that were read so far. -/
structure HandlerFields where
  entry : Option Nat
  filterBlock : Option Nat
  body : Option HandlerBody

namespace Reader

variable {ι : Type}

def new : Reader ι := ⟨.new, .withUndeclaredSlot, none, .nothing, none⟩

def flushRegion (r : Reader ι) : Except Stop (Reader ι) :=
  match r.pending with
  | none => .ok r
  | some region =>
    (orPanic (r.cfg.addRegion region)).map fun (_, cfg) => { r with cfg, pending := none }

def liveBlock (slots : Slots) (index line : Nat) : Except Stop Nat := do
  slots.checkLive index line
  pure index

def readBlock (slots : Slots) (line : Nat) (token : Text) : Except Stop Nat := do
  let index ← parseIndex token "bb".toList line
  liveBlock slots index line

def declareBlock (r : Reader ι) (index : Nat) (label : Text) (line : Nat) :
    Except Stop (Reader ι) := do
  let (before, slots) ← r.slots.declare index line
  let cfg ← orPanic (r.cfg.newBlocks (index + 1 - before))
  let cfg :=
    if label = [] then cfg
    else cfg.modifyBlock index fun b => { b with label := some (String.ofList label) }
  pure { r with cfg, slots, context := .block index }

def readBlockOrEdge (r : Reader ι) (content : Text) (line : Nat) : Except Stop (Reader ι) :=
  match splitTokens content 1 with
  | some ([token], tail) =>
    match stripPrefix "-> ".toList tail with
    | some rest =>
      match splitTokens rest 2 with
      | some ([targetToken, kindName], _) => do
        let source ← readBlock r.slots line token
        let target ← readBlock r.slots line targetToken
        match EdgeKind.fromName kindName with
        | none => fail line .edgeKind
        | some kind =>
          let (_, cfg) ← orPanic (r.cfg.addEdgeWithPayload source target kind ())
          pure { r with cfg, context := .nothing }
      | _ => fail line .unrecognized
    | none =>
      match stripSuffix ":".toList token with
      | none => fail line .unrecognized
      | some identifier => do
        let index ← parseIndex identifier "bb".toList line
        let label ← unescape line tail
        r.declareBlock index label line
  | _ => fail line .unrecognized

def readRegionField (slots : Slots) (line : Nat) (region : Region) (field : Text) :
    Except Stop Region := do
  let (key, value) ← splitField field line
  if key = "protected".toList then
    ((value.splitOn ',').filter fun token => !token.isEmpty).foldlM
      (fun (region : Region) token => do
        let b ← readBlock slots line token
        pure { region with protectedBlocks := insert b region.protectedBlocks }) region
  else if key = "parent".toList then do
    let parent ← parseIndex value "r".toList line
    if parent < 2 ^ 32 then pure { region with parent := some parent } else fail line .region
  else fail line .region

def readRegion (r : Reader ι) (content : Text) (line : Nat) : Except Stop (Reader ι) :=
  match splitWhitespace content with
  | [] => fail line .region
  | token :: fields => do
    let index ← parseIndex token "r".toList line
    if index ≠ r.cfg.regions.length then fail line .region
    else do
      let region ← fields.foldlM (readRegionField r.slots line) ⟨0, ∅, [], none⟩
      pure { r with pending := some region, context := .region }

def readHandlerField (slots : Slots) (line : Nat) (read : HandlerFields) (field : Text) :
    Except Stop HandlerFields := do
  let (key, value) ← splitField field line
  if key = "entry".toList then do
    let b ← readBlock slots line value
    pure { read with entry := some b }
  else if key = "filter".toList then do
    let b ← readBlock slots line value
    pure { read with filterBlock := some b }
  else if key = "body".toList then
    match parseHandlerBody value fun token => (readBlock slots line token).toOption with
    | none => fail line .region
    | some body => pure { read with body := some body }
  else fail line .region

def readHandler (r : Reader ι) (content : Text) (line : Nat) : Except Stop (Reader ι) :=
  match stripPrefix "handler ".toList content with
  | none => fail line .unrecognized
  | some rest =>
    match splitWhitespace rest with
    | [] => fail line .region
    | kindName :: fields =>
      match HandlerShape.fromName kindName with
      | none => fail line .region
      | some shape => do
        let read ← fields.foldlM (readHandlerField r.slots line) ⟨none, none, none⟩
        match read.entry, read.body, shape.kind read.filterBlock, r.pending with
        | some entry, some body, some kind, some region =>
          pure { r with
            pending := some { region with handlers := region.handlers ++ [⟨entry, body, kind⟩] } }
        | _, _, _, _ => fail line .region

def readIndented (parseInstruction : Text → Except String ι) (r : Reader ι) (line : Nat)
    (trimmed : Text) : Except Stop (Reader ι) :=
  match r.context with
  | .region => r.readHandler trimmed line
  | .block b => do
    let text ← unescape line trimmed
    match parseInstruction text with
    | .error why => fail line (.instruction why)
    | .ok a =>
      pure { r with
        cfg := r.cfg.modifyBlock b fun block =>
          { block with instructions := block.instructions ++ [a] } }
  | .nothing => fail line .unrecognized

def step (parseInstruction : Text → Except String ι) (r : Reader ι) (line : Nat) (content : Text) :
    Except Stop (Reader ι) :=
  let trimmed := trimStart content
  if content.length ≠ trimmed.length then r.readIndented parseInstruction line trimmed
  else do
    let r ← r.flushRegion
    match stripPrefix "entry ".toList trimmed with
    | some rest => do
      let index ← parseIndex (trim rest) "bb".toList line
      pure { r with entry := some index, context := .nothing }
    | none =>
      match stripPrefix "region ".toList trimmed with
      | some rest => r.readRegion rest line
      | none => r.readBlockOrEdge trimmed line

def read (parseInstruction : Text → Except String ι) (r : Reader ι) (text : Text) :
    Except Stop (Reader ι) := do
  let r ← readFrom significantLine (step parseInstruction) 1 r text
  r.flushRegion

def finish (r : Reader ι) : Except Stop (Cfg ι Unit) := do
  let entry ← liveBlock r.slots (r.entry.getD 0) 0
  let cfg ← orPanic (r.cfg.setEntry entry)
  orPanic (r.slots.undeclared.foldlM (fun c index => (c.removeBlock index).map (·.2)) cfg)

end Reader

/-- Read a graph back from the text form. -/
def parseCfgText {ι : Type} (text : Text) (parseInstruction : Text → Except String ι) :
    Except Stop (Cfg ι Unit) := do
  let r ← Reader.new.read parseInstruction text
  r.finish

end CfgLib

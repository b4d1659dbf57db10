import CfgLib.Cfg.Basic
import CfgLib.Cfg.Rewrite

/-!
# Structural mutation

`cfg/mutation.rs`, `cfg/regions.rs`, `cfg/compact.rs`: creating, removing and
redirecting blocks and edges, splitting a block, and compaction.  `none` is a
panic.  Each operation comes with what it does to the live blocks and edges.
-/

namespace CfgLib

/-- Why a sequence of split points is invalid. -/
inductive SplitPointError where
  | outOfBounds (point instructionCount : Nat)
  | notStrictlyIncreasing (previous point : Nat)
  deriving DecidableEq, Repr

namespace Cfg

open CfgLib.Lib

variable {ι π : Type}

/-! ## Operations -/

def modifyBlock (c : Cfg ι π) (b : Nat) (f : BasicBlock ι → BasicBlock ι) : Cfg ι π :=
  { c with graph := c.graph.modifyNode b f }

def newBlock (c : Cfg ι π) : Option (Nat × Cfg ι π) :=
  (c.graph.addNode ⟨[], none⟩).map fun graph => (c.blockBound, { c with graph })

/-- Remove a block and every edge incident to it; the entry cannot be removed. -/
def removeBlock (c : Cfg ι π) (b : Nat) : Option (Bool × Cfg ι π) :=
  if b = c.entry then none
  else some (c.containsBlock b, { c with graph := c.graph.removeNode b })

def removeBlockRecording (c : Cfg ι π) (b : Nat) (mapping : Rewrite) :
    Option (Bool × Cfg ι π × Rewrite) :=
  if c.containsBlock b then
    (c.removeBlock b).map fun (removed, c') =>
      (removed, c', (mapping.recordRemoved (c.outgoing b ++ c.incoming b)).recordBlock b [])
  else some (false, c, mapping)

def removeBlockMapped (c : Cfg ι π) (b : Nat) : Option (Bool × Cfg ι π × Rewrite) :=
  c.removeBlockRecording b .new

def addEdgeWithPayload (c : Cfg ι π) (source target : Nat) (kind : EdgeKind) (payload : π) :
    Option (Nat × Cfg ι π) :=
  (c.graph.addEdge source target ⟨kind, none, payload⟩).map fun graph =>
    (c.edgeBound, { c with graph })

def removeEdge (c : Cfg ι π) (e : Nat) : Bool × Cfg ι π :=
  (c.containsEdge e, { c with graph := c.graph.removeEdge e })

def removeEdgeMapped (c : Cfg ι π) (e : Nat) : Bool × Cfg ι π × Rewrite :=
  let (removed, c') := c.removeEdge e
  (removed, c', if removed then Rewrite.new.recordEdge e [] else .new)

def moveOutgoingEdges (c : Cfg ι π) (old new : Nat) : Option (Cfg ι π) :=
  if old = new then some c
  else (c.graph.moveAdjacency old new .outgoing).map fun graph => { c with graph }

def redirectEdgesTo (c : Cfg ι π) (old new : Nat) : Option (Cfg ι π) :=
  if old = new then some c
  else (c.graph.moveAdjacency old new .incoming).map fun graph => { c with graph }

def redirectEdgesToMapped (c : Cfg ι π) (old new : Nat) : Option (Cfg ι π × Rewrite) :=
  (c.redirectEdgesTo old new).map fun c' =>
    (c', if old = new then .new else Rewrite.new.recordKept (c.incoming old))

def redirectEdge (c : Cfg ι π) (d : TraversalDirection) (e new : Nat) : Option (Nat × Cfg ι π) := do
  let record ← c.edge e
  let graph ← c.graph.redirect e new d
  pure (record.endpoint d, { c with graph })

def redirectEdgeSource (c : Cfg ι π) (e new : Nat) : Option (Nat × Cfg ι π) :=
  c.redirectEdge .outgoing e new

def redirectEdgeTarget (c : Cfg ι π) (e new : Nat) : Option (Nat × Cfg ι π) :=
  c.redirectEdge .incoming e new

def redirectEdgeMapped (c : Cfg ι π) (d : TraversalDirection) (e new : Nat) :
    Option (Nat × Cfg ι π × Rewrite) :=
  (c.redirectEdge d e new).map fun (old, c') =>
    (old, c', if old = new then .new else Rewrite.new.recordEdge e [e])

def redirectEdgeSourceMapped (c : Cfg ι π) (e new : Nat) : Option (Nat × Cfg ι π × Rewrite) :=
  c.redirectEdgeMapped .outgoing e new

def redirectEdgeTargetMapped (c : Cfg ι π) (e new : Nat) : Option (Nat × Cfg ι π × Rewrite) :=
  c.redirectEdgeMapped .incoming e new

/-! ## Splitting -/

def extendSet (head tail : Nat) (blocks : Finset Nat) : Finset Nat :=
  if head ∈ blocks then insert tail blocks else blocks

def extendHandler (head tail : Nat) (handler : Handler) : Handler :=
  { handler with
    body := match handler.body with
      | .unknown => .unknown
      | .known blocks => .known (extendSet head tail blocks) }

def extendRegion (head tail : Nat) (region : Region) : Region :=
  { region with
    protectedBlocks := extendSet head tail region.protectedBlocks
    handlers := region.handlers.map (extendHandler head tail) }

def extendCleanup (head tail : Nat) (cleanup : Cleanup) : Cleanup :=
  { cleanup with
    resumeFrom := if cleanup.resumeFrom = some head then some tail else cleanup.resumeFrom }

/-- Make `tail`, the second half of a split `head`, belong wherever `head` does. -/
def extendExceptionMetadataToTail (c : Cfg ι π) (head tail : Nat) : Cfg ι π :=
  { c with
    regions := c.regions.map (extendRegion head tail)
    cleanups := c.cleanups.map (extendCleanup head tail) }

/-- Move the instructions from `at` on and all outgoing edges into a new block
that the original falls through to. -/
def splitBlockWithPayloadInner (c : Cfg ι π) (id index : Nat) (payload : π)
    (mapping : Option Rewrite) : Option (Nat × Cfg ι π × Option Rewrite) := do
  let block ← c.block id
  if block.instructions.length < index then none else
    let tail := block.instructions.drop index
    let c := c.modifyBlock id fun b => { b with instructions := b.instructions.take index }
    let (newId, c) ← c.newBlock
    let c := c.modifyBlock newId fun b => { b with instructions := tail }
    let c ← c.moveOutgoingEdges id newId
    let c := c.extendExceptionMetadataToTail id newId
    let (edge, c) ← c.addEdgeWithPayload id newId .fallthrough payload
    pure (newId, c, mapping.map fun mapping =>
      (((mapping.recordBlock id [id, newId]).recordCreatedBlock newId).recordKept
        (c.outgoing newId)).recordCreatedEdge edge)

def splitBlockWithPayload (c : Cfg ι π) (id index : Nat) (payload : π) : Option (Nat × Cfg ι π) :=
  (c.splitBlockWithPayloadInner id index payload none).map fun (newId, c, _) => (newId, c)

def splitBlock [Inhabited π] (c : Cfg ι π) (id index : Nat) : Option (Nat × Cfg ι π) :=
  c.splitBlockWithPayload id index default

/-- The first invalid point of a sequence, if any. -/
def validatePoints (instructionCount : Nat) : Option Nat → List Nat → Option SplitPointError
  | _, [] => none
  | previous, point :: points =>
    if instructionCount < point then some (.outOfBounds point instructionCount)
    else match previous with
      | none => validatePoints instructionCount (some point) points
      | some previous =>
        if point ≤ previous then some (.notStrictlyIncreasing previous point)
        else validatePoints instructionCount (some point) points

/-- Split the block that currently ends the chain at each remaining point. -/
def splitAtPoints : Cfg ι π → Nat → Nat → List (Nat × π) → List Nat → Rewrite →
    Option (List Nat × Rewrite × Cfg ι π)
  | c, _, _, [], blocks, mapping => some (blocks, mapping, c)
  | c, current, base, (point, payload) :: points, blocks, mapping => do
    let (tail, c, split) ← c.splitBlockWithPayloadInner current (point - base) payload (some .new)
    let split ← split
    splitAtPoints c tail point points (blocks ++ [tail]) (mapping.compose split)

/-- Split one block at ordered boundaries, offsets in the original block.  The
result comes with the graph afterwards, which an error leaves as it was. -/
def splitBlockAtPointsWithPayloads (c : Cfg ι π) (id : Nat) (points : List (Nat × π)) :
    Option (Except SplitPointError (List Nat × Rewrite) × Cfg ι π) := do
  let block ← c.block id
  match validatePoints block.instructions.length none (points.map (·.1)) with
  | some error => pure (.error error, c)
  | none =>
    let (blocks, mapping, c) ← splitAtPoints c id 0 points [id] .new
    pure (.ok (blocks, mapping), c)

def splitBlockAtPoints [Inhabited π] (c : Cfg ι π) (id : Nat) (points : List Nat) :
    Option (Except SplitPointError (List Nat × Rewrite) × Cfg ι π) :=
  c.splitBlockAtPointsWithPayloads id (points.map fun point => (point, default))

/-! ## What they do -/

def moveSource (old new : Nat) (r : Store.EdgeRecord (Edge π)) : Store.EdgeRecord (Edge π) :=
  if r.source = old then { r with source := new } else r

def moveTarget (old new : Nat) (r : Store.EdgeRecord (Edge π)) : Store.EdgeRecord (Edge π) :=
  if r.target = old then { r with target := new } else r

@[simp] theorem target_moveSource (old new : Nat) (r : Store.EdgeRecord (Edge π)) :
    (moveSource old new r).target = r.target := by
  unfold moveSource
  split <;> rfl

@[simp] theorem payload_moveSource (old new : Nat) (r : Store.EdgeRecord (Edge π)) :
    (moveSource old new r).payload = r.payload := by
  unfold moveSource
  split <;> rfl

@[simp] theorem source_moveTarget (old new : Nat) (r : Store.EdgeRecord (Edge π)) :
    (moveTarget old new r).source = r.source := by
  unfold moveTarget
  split <;> rfl

@[simp] theorem payload_moveTarget (old new : Nat) (r : Store.EdgeRecord (Edge π)) :
    (moveTarget old new r).payload = r.payload := by
  unfold moveTarget
  split <;> rfl

theorem source_moveSource (old new : Nat) (r : Store.EdgeRecord (Edge π)) :
    (moveSource old new r).source = if r.source = old then new else r.source := by
  unfold moveSource
  split <;> rfl

theorem target_moveTarget (old new : Nat) (r : Store.EdgeRecord (Edge π)) :
    (moveTarget old new r).target = if r.target = old then new else r.target := by
  unfold moveTarget
  split <;> rfl

variable {c c' : Cfg ι π}

structure SameFrame (c c' : Cfg ι π) : Prop where
  entry : c'.entry = c.entry
  regions : c'.regions = c.regions
  cleanups : c'.cleanups = c.cleanups

theorem SameFrame.trans {c₁ c₂ c₃ : Cfg ι π} (h : SameFrame c₁ c₂) (h' : SameFrame c₂ c₃) :
    SameFrame c₁ c₃ :=
  ⟨h'.entry.trans h.entry, h'.regions.trans h.regions, h'.cleanups.trans h.cleanups⟩

theorem block_modifyBlock (c : Cfg ι π) (b i : Nat) (f : BasicBlock ι → BasicBlock ι) :
    (c.modifyBlock b f).block i = if i = b then (c.block i).map f else c.block i :=
  Store.Naive.node_modifyNode c.graph b i f

@[simp] theorem blockBound_modifyBlock (c : Cfg ι π) (b : Nat) (f : BasicBlock ι → BasicBlock ι) :
    (c.modifyBlock b f).blockBound = c.blockBound := by
  simp [modifyBlock, blockBound, Store.Naive.modifyNode]

theorem containsBlock_modifyBlock (c : Cfg ι π) (b i : Nat) (f : BasicBlock ι → BasicBlock ι) :
    (c.modifyBlock b f).containsBlock i = c.containsBlock i :=
  Store.Naive.isSome_node_modifyNode c.graph b i f

theorem WF.modifyBlock (h : c.WF) (b : Nat) (f : BasicBlock ι → BasicBlock ι) :
    (c.modifyBlock b f).WF :=
  ⟨h.graph.modifyNode b f, (containsBlock_modifyBlock c b c.entry f).trans h.entry⟩

variable {b new old : Nat}

theorem newBlock_spec (h : c.WF) (hs : c.newBlock = some (b, c')) :
    b = c.blockBound ∧ c'.WF ∧ SameFrame c c' ∧
      (∀ i, c'.block i = if i = c.blockBound then some ⟨[], none⟩ else c.block i) ∧
      (∀ e, c'.edge e = c.edge e) ∧
      c'.blockBound = c.blockBound + 1 ∧ c'.edgeBound = c.edgeBound := by
  obtain ⟨g, hadd, heq⟩ := Option.map_eq_some_iff.mp hs
  cases heq
  obtain ⟨hnodes, hedges, _, hnode⟩ := Store.Naive.addNode_spec hadd
  have hentry : c.entry ≠ c.graph.nodes.length := Nat.ne_of_lt (block_lt h.entry)
  refine ⟨rfl, ⟨h.graph.addNode hadd, ?_⟩, ⟨rfl, rfl, rfl⟩, hnode, ?_, ?_, ?_⟩
  · change (g.node c.entry).isSome
    rw [hnode, if_neg hentry]
    exact h.entry
  · intro e
    simp only [edge, Store.Naive.edge, hedges]
  · simp [blockBound, hnodes]
  · simp [edgeBound, hedges]

theorem WF.withGraph (h : c.WF) {g : Store.Naive (BasicBlock ι) (Edge π)} (hg : g.WF)
    (hnodes : g.nodes = c.graph.nodes) : ({ c with graph := g } : Cfg ι π).WF ∧
      SameFrame c { c with graph := g } ∧ (∀ i, ({ c with graph := g } : Cfg ι π).block i = c.block i) ∧
      ({ c with graph := g } : Cfg ι π).blockBound = c.blockBound := by
  have hblock : ∀ i, g.node i = c.graph.node i := fun i => by
    rw [Store.Naive.node, hnodes, Store.Naive.node]
  exact ⟨⟨hg, (congrArg Option.isSome (hblock c.entry)).trans h.entry⟩, ⟨rfl, rfl, rfl⟩, hblock,
    congrArg List.length hnodes⟩

theorem moveEdges_spec (h : c.WF) {d : TraversalDirection} (hs : (if old = new then some c
      else (c.graph.moveAdjacency old new d).map fun graph => { c with graph }) = some c') :
    c'.WF ∧ SameFrame c c' ∧ (∀ i, c'.block i = c.block i) ∧
      (∀ e, c'.edge e = (c.edge e).map fun r => if r.endpoint d = old then r.setEndpoint d new else r) ∧
      c'.blockBound = c.blockBound ∧ c'.edgeBound = c.edgeBound := by
  split at hs
  · next heq =>
    obtain rfl := Option.some.inj hs
    subst heq
    refine ⟨h, ⟨rfl, rfl, rfl⟩, fun _ => rfl, fun e => ?_, rfl, rfl⟩
    cases c.edge e with
    | none => rfl
    | some r =>
      rw [Option.map_some]
      split
      · next hr => subst hr; cases d <;> rfl
      · rfl
  · obtain ⟨g, hmove, rfl⟩ := Option.map_eq_some_iff.mp hs
    obtain ⟨hnodes, hlen, hedge⟩ := h.graph.moveAdjacency_edge hmove
    obtain ⟨hwf, hframe, hblock, hbound⟩ := h.withGraph (h.graph.moveAdjacency hmove) hnodes
    exact ⟨hwf, hframe, hblock, hedge, hbound, hlen⟩

theorem exists_moveEdges (d : TraversalDirection) (hold : old < c.blockBound) (hnew : c.containsBlock new) :
    ∃ c', (if old = new then some c
      else (c.graph.moveAdjacency old new d).map fun graph => { c with graph }) = some c' := by
  split
  · exact ⟨c, rfl⟩
  · next hne =>
    obtain ⟨g, hg⟩ := Store.Naive.exists_moveAdjacency d hne hold hnew
    exact ⟨_, by rw [hg]; rfl⟩

theorem moveOutgoingEdges_spec (h : c.WF) (hs : c.moveOutgoingEdges old new = some c') :
    c'.WF ∧ SameFrame c c' ∧ (∀ i, c'.block i = c.block i) ∧
      (∀ e, c'.edge e = (c.edge e).map (moveSource old new)) ∧
      c'.blockBound = c.blockBound ∧ c'.edgeBound = c.edgeBound :=
  moveEdges_spec h hs

theorem exists_moveOutgoingEdges (hold : old < c.blockBound)
    (hnew : c.containsBlock new) : ∃ c', c.moveOutgoingEdges old new = some c' :=
  exists_moveEdges .outgoing hold hnew

theorem redirectEdgesTo_spec (h : c.WF) (hs : c.redirectEdgesTo old new = some c') :
    c'.WF ∧ SameFrame c c' ∧ (∀ i, c'.block i = c.block i) ∧
      (∀ e, c'.edge e = (c.edge e).map (moveTarget old new)) ∧
      c'.blockBound = c.blockBound ∧ c'.edgeBound = c.edgeBound :=
  moveEdges_spec h hs

theorem exists_redirectEdgesTo (hold : old < c.blockBound)
    (hnew : c.containsBlock new) : ∃ c', c.redirectEdgesTo old new = some c' :=
  exists_moveEdges .incoming hold hnew

theorem addEdgeWithPayload_spec (h : c.WF) {source target e : Nat} {kind : EdgeKind} {payload : π}
    (hs : c.addEdgeWithPayload source target kind payload = some (e, c')) :
    e = c.edgeBound ∧ c'.WF ∧ SameFrame c c' ∧ (∀ i, c'.block i = c.block i) ∧
      (∀ i, c'.edge i = if i = c.edgeBound then some ⟨source, target, ⟨kind, none, payload⟩⟩
        else c.edge i) ∧ c'.blockBound = c.blockBound ∧ c'.edgeBound = c.edgeBound + 1 := by
  obtain ⟨g, hadd, heq⟩ := Option.map_eq_some_iff.mp hs
  cases heq
  obtain ⟨_, _, hnodes, hedges, hedge, _⟩ := Store.Naive.addEdge_spec hadd
  obtain ⟨hwf, hframe, hblock, hbound⟩ := h.withGraph (h.graph.addEdge hadd) hnodes
  exact ⟨rfl, hwf, hframe, hblock, hedge, hbound, by simp [edgeBound, hedges]⟩

theorem removeEdge_spec (h : c.WF) (e : Nat) :
    (c.removeEdge e).2.WF ∧ SameFrame c (c.removeEdge e).2 ∧
      (∀ i, (c.removeEdge e).2.block i = c.block i) ∧
      (∀ i, (c.removeEdge e).2.edge i = if i = e then none else c.edge i) ∧
      (c.removeEdge e).2.blockBound = c.blockBound ∧ (c.removeEdge e).2.edgeBound = c.edgeBound := by
  obtain ⟨hwf, hframe, hblock, hbound⟩ :=
    h.withGraph (h.graph.removeEdge e) (Store.Naive.nodes_removeEdge c.graph e)
  exact ⟨hwf, hframe, hblock, Store.Naive.edge_removeEdge c.graph e, hbound,
    Store.Naive.length_edges_removeEdge c.graph e⟩

structure IsRemoval (c : Cfg ι π) (b : Nat) (c' : Cfg ι π) : Prop where
  wf : c'.WF
  frame : SameFrame c c'
  live : c.containsBlock b
  ne_entry : b ≠ c.entry
  block : ∀ i, c'.block i = if i = b then none else c.block i
  edge : ∀ e, c'.edge e =
    (c.edge e).bind fun r => if r.source = b ∨ r.target = b then none else some r
  blockBound : c'.blockBound = c.blockBound
  edgeBound : c'.edgeBound = c.edgeBound

theorem IsRemoval.contains_iff (h : IsRemoval c b c') (i : Nat) :
    c'.containsBlock i ↔ c.containsBlock i ∧ i ≠ b := by
  simp only [containsBlock, h.block]
  by_cases hi : i = b <;> simp [hi]

theorem removeBlock_spec (h : c.WF) {removed : Bool} (hlive : c.containsBlock b)
    (hs : c.removeBlock b = some (removed, c')) : removed = true ∧ IsRemoval c b c' := by
  unfold removeBlock at hs
  split at hs
  · cases hs
  next hne =>
  cases hs
  have hblock : ∀ i, (c.graph.removeNode b).node i = if i = b then none else c.graph.node i :=
    Store.Naive.node_removeNode c.graph b
  refine ⟨hlive, ⟨h.graph.removeNode b, ?_⟩, ⟨rfl, rfl, rfl⟩, hlive, hne, hblock,
    Store.Naive.edge_removeNode h.graph hlive, ?_, ?_⟩
  · change ((c.graph.removeNode b).node c.entry).isSome
    rw [hblock, if_neg (Ne.symm hne)]
    exact h.entry
  · exact Store.Naive.length_nodes_removeNode c.graph b
  · exact Store.Naive.length_edges_removeNode c.graph b

theorem exists_removeBlock (hne : b ≠ c.entry) :
    ∃ c', c.removeBlock b = some (c.containsBlock b, c') :=
  ⟨_, by rw [removeBlock, if_neg hne]⟩

structure IsSplit (c : Cfg ι π) (id index : Nat) (payload : π) (b : BasicBlock ι)
    (c' : Cfg ι π) : Prop where
  wf : c'.WF
  head : c.block id = some b
  index_le : index ≤ b.instructions.length
  block : ∀ i, c'.block i =
    if i = c.blockBound then some ⟨b.instructions.drop index, none⟩
    else if i = id then some { b with instructions := b.instructions.take index }
    else c.block i
  edge : ∀ e, c'.edge e =
    if e = c.edgeBound then some ⟨id, c.blockBound, ⟨.fallthrough, none, payload⟩⟩
    else (c.edge e).map (moveSource id c.blockBound)
  entry : c'.entry = c.entry
  regions : c'.regions = c.regions.map (extendRegion id c.blockBound)
  cleanups : c'.cleanups = c.cleanups.map (extendCleanup id c.blockBound)
  blockBound : c'.blockBound = c.blockBound + 1
  edgeBound : c'.edgeBound = c.edgeBound + 1

theorem splitBlockWithPayloadInner_spec (h : c.WF) {id index newId : Nat} {payload : π}
    {mapping mapping' : Option Rewrite}
    (hs : c.splitBlockWithPayloadInner id index payload mapping = some (newId, c', mapping')) :
    newId = c.blockBound ∧ (∃ b, IsSplit c id index payload b c') ∧
      mapping' = mapping.map fun mapping =>
        (((mapping.recordBlock id [id, newId]).recordCreatedBlock newId).recordKept
          (c'.outgoing newId)).recordCreatedEdge c.edgeBound := by
  simp only [splitBlockWithPayloadInner, Option.bind_eq_bind, Option.bind_eq_some_iff] at hs
  obtain ⟨b, hb, hs⟩ := hs
  split at hs
  · cases hs
  next hindex =>
  simp only [Option.bind_eq_some_iff, Prod.exists] at hs
  obtain ⟨n, c₂, hnew, c₄, hmove, e₅, c₅, hedge, hres⟩ := hs
  cases hres
  have hwf₁ := h.modifyBlock id fun b => { b with instructions := b.instructions.take index }
  obtain ⟨rfl, hwf₂, hframe₂, hblock₂, hedge₂, hbound₂, hebound₂⟩ := newBlock_spec hwf₁ hnew
  rw [blockBound_modifyBlock] at hblock₂ hbound₂ hmove hedge ⊢
  have hwf₃ := hwf₂.modifyBlock c.blockBound
    fun b' => { b' with instructions := b.instructions.drop index }
  obtain ⟨hwf₄, hframe₄, hblock₄, hedge₄, hbound₄, hebound₄⟩ := moveOutgoingEdges_spec hwf₃ hmove
  have hwf₄' : (c₄.extendExceptionMetadataToTail id c.blockBound).WF := ⟨hwf₄.graph, hwf₄.entry⟩
  obtain ⟨rfl, hwf₅, hframe₅, hblock₅, hedge₅, hbound₅, hebound₅⟩ :=
    addEdgeWithPayload_spec hwf₄' hedge
  have hebound : c₄.edgeBound = c.edgeBound := hebound₄.trans hebound₂
  have hentry : c₄.entry = c.entry := hframe₄.entry.trans hframe₂.entry
  have hregions : c₄.regions = c.regions := hframe₄.regions.trans hframe₂.regions
  have hcleanups : c₄.cleanups = c.cleanups := hframe₄.cleanups.trans hframe₂.cleanups
  refine ⟨rfl, ⟨b, hwf₅, hb, by omega, ?_, ?_, ?_, ?_, ?_, ?_, ?_⟩, ?_⟩
  · intro i
    have hid : id ≠ c.blockBound := Nat.ne_of_lt (block_lt (by simp [containsBlock, hb]))
    rw [hblock₅]
    change c₄.block i = _
    rw [hblock₄, block_modifyBlock, hblock₂, block_modifyBlock]
    by_cases hi : i = c.blockBound
    · simp [hi]
    · by_cases hid : i = id
      · subst hid
        simp [hi, hb]
      · simp [hi, hid]
  · intro e
    rw [hedge₅]
    change (if e = c₄.edgeBound then _ else c₄.edge e) = _
    rw [hebound, hedge₄]
    change (if _ then _ else (c₂.edge e).map _) = _
    rw [hedge₂]
    rfl
  · exact hframe₅.entry.trans hentry
  · rw [hframe₅.regions, ← hregions]
    rfl
  · rw [hframe₅.cleanups, ← hcleanups]
    rfl
  · rw [hbound₅]
    change c₄.blockBound = _
    rw [hbound₄, blockBound_modifyBlock, hbound₂]
  · rw [hebound₅]
    change c₄.edgeBound + 1 = _
    rw [hebound]
  · cases mapping with
    | none => rfl
    | some m =>
      change some (Rewrite.recordCreatedEdge _ c₄.edgeBound) = _
      rw [hebound]
      rfl

theorem redirectEdge_spec (h : c.WF) {d : TraversalDirection} {e : Nat} (hs : c.redirectEdge d e new = some (old, c')) :
    c'.WF ∧ SameFrame c c' ∧ (∀ i, c'.block i = c.block i) ∧ c'.blockBound = c.blockBound ∧
      c'.edgeBound = c.edgeBound ∧ ∃ r, c.edge e = some r ∧ r.endpoint d = old ∧
        ((old = new ∧ c' = c) ∨ (old ≠ new ∧
          ∀ i, c'.edge i = if i = e then some (r.setEndpoint d new) else c.edge i)) := by
  simp only [redirectEdge, Option.bind_eq_bind, Option.bind_eq_some_iff] at hs
  obtain ⟨r, hr, g, hg, heq⟩ := hs
  cases heq
  obtain ⟨r', hr', _, hcase⟩ := Store.Naive.redirect_spec hg
  obtain rfl : r' = r := Option.some.inj (hr'.symm.trans hr)
  have hnodes : g.nodes = c.graph.nodes := by
    rcases hcase with ⟨_, rfl⟩ | ⟨_, hnodes, _⟩
    · rfl
    · exact hnodes
  have hedges : g.edges.length = c.graph.edges.length := by
    rcases hcase with ⟨_, rfl⟩ | ⟨_, _, hedges, _⟩
    · rfl
    · rw [hedges, List.length_set]
  obtain ⟨hwf, hframe, hblock, hbound⟩ := h.withGraph (h.graph.redirect hg) hnodes
  refine ⟨hwf, hframe, hblock, hbound, hedges, r', hr, rfl, ?_⟩
  rcases hcase with ⟨heq, rfl⟩ | ⟨hne, _, _, hedge, _⟩
  · exact Or.inl ⟨heq, rfl⟩
  · exact Or.inr ⟨hne, hedge⟩

/-! ## Compaction -/

/-- The dense numbers a compaction gives the survivors. -/
def renumbering (c : Cfg ι π) : Renumbering where
  node b := if c.containsBlock b then some (rank (Store.Naive.occupied c.graph.nodes) b) else none
  edge e := if c.containsEdge e then some (rank (Store.Naive.occupied c.graph.edges) e) else none

/-- A set loses the members that did not survive. -/
def retainSurviving (ρ : Renumbering) (bound : Nat) (blocks : Finset Nat) : Finset Nat :=
  (((List.range bound).filter fun b => decide (b ∈ blocks)).filterMap ρ.node).toFinset

def renumberHandler (ρ : Renumbering) (bound : Nat) (handler : Handler) : Option Handler := do
  let entry ← ρ.node handler.entry
  let kind ← match handler.kind with
    | .filter filterBlock => (ρ.node filterBlock).map .filter
    | kind => some kind
  pure
    { entry := entry
      body := match handler.body with
        | .unknown => .unknown
        | .known blocks => .known (retainSurviving ρ bound blocks)
      kind := kind }

def renumberRegion (ρ : Renumbering) (bound : Nat) (region : Region) : Option Region := do
  let handlers ← region.handlers.mapM (renumberHandler ρ bound)
  pure
    { region with
      protectedBlocks := retainSurviving ρ bound region.protectedBlocks
      handlers := handlers }

def renumberContinuation (ρ : Renumbering) (continuation : Continuation) : Option Continuation :=
  (ρ.node continuation.resume).map fun resume => { continuation with resume := resume }

def renumberCleanup (ρ : Renumbering) (cleanup : Cleanup) : Option Cleanup := do
  let resumeFrom ← match cleanup.resumeFrom with
    | none => some none
    | some block => (ρ.node block).map some
  let continuations ← cleanup.continuations.mapM (renumberContinuation ρ)
  pure { cleanup with resumeFrom := resumeFrom, continuations := continuations }

/-- Renumber the survivors densely and report the change; a single reference to
a block that did not survive is a panic. -/
def compact (c : Cfg ι π) : Option (Renumbering × Cfg ι π) := do
  let ρ := c.renumbering
  let entry ← ρ.node c.entry
  let regions ← c.regions.mapM (renumberRegion ρ c.blockBound)
  let cleanups ← c.cleanups.mapM (renumberCleanup ρ)
  pure (ρ, { graph := c.graph.compact, entry := entry, regions := regions, cleanups := cleanups })

end Cfg

end CfgLib

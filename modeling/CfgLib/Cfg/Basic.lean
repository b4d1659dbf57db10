import CfgLib.Store.View
import Mathlib.Data.Finset.Basic

/-!
# The control-flow graph

`cfg.rs`, `block.rs`, `edge.rs`, `region.rs`, `cfg/anchors.rs`: a store whose
nodes are basic blocks and whose edges carry a control-flow kind, with an entry
block and the exception metadata.
-/

namespace CfgLib

inductive EdgeKind where
  | fallthrough
  | conditionalTrue
  | conditionalFalse
  | unconditional
  | back
  | call
  | callReturn
  | switchCase
  | jump
  | indirectJump
  | indirectCall
  | exceptionHandler
  | exceptionUnwind
  | exceptionLeave
  | exceptionResume
  | exceptionContinue
  deriving DecidableEq, Repr

/-- Whether the edge transfers control exceptionally rather than sequentially. -/
def EdgeKind.isExceptional : EdgeKind → Bool
  | .exceptionHandler | .exceptionUnwind | .exceptionResume | .exceptionContinue => true
  | _ => false

structure BasicBlock (ι : Type) where
  instructions : List ι
  label : Option String

def BasicBlock.isEmpty {ι : Type} (block : BasicBlock ι) : Bool := block.instructions.isEmpty

/-- An edge's payload: its kind, branch weight and consumer data. -/
structure Edge (π : Type) where
  kind : EdgeKind
  weight : Option Float
  payload : π

inductive HandlerBody where
  | unknown
  | known (blocks : Finset Nat)

def HandlerBody.blocks : HandlerBody → Option (Finset Nat)
  | .unknown => none
  | .known blocks => some blocks

inductive HandlerKind where
  | catch
  | catchAll
  | finally
  | fault
  | filter (filterBlock : Nat)

structure Handler where
  entry : Nat
  body : HandlerBody
  kind : HandlerKind

structure Region where
  id : Nat
  protectedBlocks : Finset Nat
  handlers : List Handler
  parent : Option Nat

structure HandlerRef where
  region : Nat
  handler : Nat

inductive CompletionReason where
  | normal
  | transfer
  | return
  | unwind

structure Continuation where
  reason : CompletionReason
  resume : Nat

/-- What a cleanup handler does once its body ends. -/
structure Cleanup where
  handler : HandlerRef
  resumeFrom : Option Nat
  continuations : List Continuation

structure Cfg (ι π : Type) where
  graph : Store.Naive (BasicBlock ι) (Edge π)
  entry : Nat
  regions : List Region
  cleanups : List Cleanup

namespace Cfg

variable {ι π : Type}

/-! ## Reads

A removed block reads as `none`, and an identity without a slot as a block
without edges. -/

def block (c : Cfg ι π) (b : Nat) : Option (BasicBlock ι) := c.graph.node b

def containsBlock (c : Cfg ι π) (b : Nat) : Bool := (c.block b).isSome

def edge (c : Cfg ι π) (e : Nat) : Option (Store.EdgeRecord (Edge π)) := c.graph.edge e

def containsEdge (c : Cfg ι π) (e : Nat) : Bool := (c.edge e).isSome

def outgoing (c : Cfg ι π) (b : Nat) : List Nat := c.graph.lists .outgoing b

def incoming (c : Cfg ι π) (b : Nat) : List Nat := c.graph.lists .incoming b

def blockBound (c : Cfg ι π) : Nat := c.graph.nodes.length

def edgeBound (c : Cfg ι π) : Nat := c.graph.edges.length

/-- Every live block in identity order. -/
def blockIds (c : Cfg ι π) : List Nat := (List.range c.blockBound).filter c.containsBlock

/-- The only outgoing edge, when there is exactly one. -/
def soleOutgoing (c : Cfg ι π) (b : Nat) : Option Nat :=
  match c.outgoing b with
  | [e] => some e
  | _ => none

/-- The only incoming edge, when there is exactly one. -/
def soleIncoming (c : Cfg ι π) (b : Nat) : Option Nat :=
  match c.incoming b with
  | [e] => some e
  | _ => none

def successors (c : Cfg ι π) (b : Nat) : List Nat :=
  (c.outgoing b).filterMap fun e => (c.edge e).map (·.target)

def predecessors (c : Cfg ι π) (b : Nat) : List Nat :=
  (c.incoming b).filterMap fun e => (c.edge e).map (·.source)

def view (c : Cfg ι π) : RootedView where
  nodeBound := c.blockBound
  nodeIds := c.blockIds
  successors := c.successors
  predecessors := c.predecessors
  root := c.entry

/-! ## Anchors -/

end Cfg

def Handler.anchors (handler : Handler) : List Nat :=
  handler.entry :: match handler.kind with
    | .filter filterBlock => [filterBlock]
    | _ => []

def Cleanup.anchors (cleanup : Cleanup) : List Nat :=
  cleanup.resumeFrom.toList ++ cleanup.continuations.map (·.resume)

namespace Cfg

variable {ι π : Type}

/-- Every block that exception metadata names by a single reference. -/
def anchors (c : Cfg ι π) : List Nat :=
  (c.regions.flatMap (·.handlers)).flatMap Handler.anchors ++ c.cleanups.flatMap Cleanup.anchors

def isAnchor (c : Cfg ι π) (b : Nat) : Bool := c.anchors.contains b

/-- Whether folding `target` into `source` keeps every promise the exception
metadata makes. -/
def canFoldInto (c : Cfg ι π) (source target : Nat) : Bool :=
  !c.isAnchor target && c.regions.all fun region =>
    (decide (source ∈ region.protectedBlocks) == decide (target ∈ region.protectedBlocks)) &&
      region.handlers.all fun handler =>
        match handler.body.blocks with
        | none => true
        | some blocks => decide (source ∈ blocks) == decide (target ∈ blocks)

/-- Per region, whether it protects a block, and per handler with a known body
whether the body holds the block. -/
def placement (c : Cfg ι π) (b : Nat) : List (Bool × List (Option Bool)) :=
  c.regions.map fun region => (decide (b ∈ region.protectedBlocks),
    region.handlers.map fun handler => handler.body.blocks.map fun blocks => decide (b ∈ blocks))

/-- Only blocks with one placement are folded, and never an anchor. -/
theorem canFoldInto_spec {c : Cfg ι π} {source target : Nat}
    (h : c.canFoldInto source target = true) :
    target ∉ c.anchors ∧ c.placement source = c.placement target := by
  simp only [canFoldInto, isAnchor, Bool.and_eq_true, Bool.not_eq_true', List.all_eq_true,
    beq_iff_eq, List.contains_eq_mem, decide_eq_false_iff_not] at h
  refine ⟨h.1, ?_⟩
  unfold placement
  apply List.map_congr_left
  intro region hregion
  obtain ⟨hprotected, hbodies⟩ := h.2 region hregion
  refine Prod.ext hprotected ?_
  apply List.map_congr_left
  intro handler hhandler
  have hbody := hbodies handler hhandler
  cases hb : handler.body.blocks with
  | none => rfl
  | some blocks =>
    simp only [hb, beq_iff_eq] at hbody
    simp only [Option.map_some, hbody]

/-! ## Well-formedness -/

/-- The store's lists are its live edges, and the entry is a live block. -/
structure WF (c : Cfg ι π) : Prop where
  graph : c.graph.WF
  entry : c.containsBlock c.entry

variable {c : Cfg ι π}

variable {b e : Nat}

theorem block_lt (h : c.containsBlock b) : b < c.blockBound := Store.Naive.node_lt h

variable {r : Store.EdgeRecord (Edge π)}

theorem edge_lt (h : c.edge e = some r) : e < c.edgeBound := Store.Naive.edge_lt h

theorem mem_blockIds : b ∈ c.blockIds ↔ c.containsBlock b := by
  simp only [blockIds, List.mem_filter, List.mem_range]
  exact ⟨fun h => h.2, fun h => ⟨block_lt h, h⟩⟩

theorem WF.mem_outgoing (h : c.WF) :
    e ∈ c.outgoing b ↔ ∃ r, c.edge e = some r ∧ r.source = b := h.graph.mem_iff .outgoing b e

theorem WF.mem_incoming (h : c.WF) :
    e ∈ c.incoming b ↔ ∃ r, c.edge e = some r ∧ r.target = b := h.graph.mem_iff .incoming b e

theorem WF.source_live (h : c.WF) (hr : c.edge e = some r) : c.containsBlock r.source := h.graph.live .outgoing e r hr

theorem WF.target_live (h : c.WF) (hr : c.edge e = some r) : c.containsBlock r.target := h.graph.live .incoming e r hr

theorem soleOutgoing_eq_some : c.soleOutgoing b = some e ↔ c.outgoing b = [e] := by
  unfold soleOutgoing
  split
  · next h => simp [h]
  · next h => exact ⟨fun h' => (by cases h'), fun h' => (h e h').elim⟩

theorem soleIncoming_eq_some : c.soleIncoming b = some e ↔ c.incoming b = [e] := by
  unfold soleIncoming
  split
  · next h => simp [h]
  · next h => exact ⟨fun h' => (by cases h'), fun h' => (h e h').elim⟩

theorem WF.soleOutgoing (h : c.WF) (he : c.soleOutgoing b = some e) :
    (∃ r, c.edge e = some r ∧ r.source = b) ∧
      ∀ e' r', c.edge e' = some r' → r'.source = b → e' = e := by
  rw [soleOutgoing_eq_some] at he
  refine ⟨h.mem_outgoing.mp (by simp [he]), ?_⟩
  intro e' r' hr' hs
  have : e' ∈ c.outgoing b := h.mem_outgoing.mpr ⟨r', hr', hs⟩
  simpa [he] using this

theorem WF.soleIncoming (h : c.WF) (he : c.soleIncoming b = some e) :
    ∀ e' r', c.edge e' = some r' → r'.target = b → e' = e := by
  rw [soleIncoming_eq_some] at he
  intro e' r' hr' ht
  have : e' ∈ c.incoming b := h.mem_incoming.mpr ⟨r', hr', ht⟩
  simpa [he] using this

theorem WF.mem_successors (h : c.WF) {a : Nat} :
    b ∈ c.successors a ↔ ∃ e r, c.edge e = some r ∧ r.source = a ∧ r.target = b :=
  h.graph.mem_successors

theorem WF.mem_predecessors (h : c.WF) {a : Nat} :
    b ∈ c.predecessors a ↔ ∃ e r, c.edge e = some r ∧ r.target = a ∧ r.source = b :=
  h.graph.mem_predecessors

theorem WF.lawful_view (h : c.WF) : c.view.toGraphView.Lawful := h.graph.lawful_view

/-! ## Graphs by hand -/

/-- One block per instruction list and the given edges in order, with entry block 0. -/
def ofParts (blocks : List (List ι)) (edges : List (Nat × Nat × EdgeKind × π)) : Cfg ι π where
  graph := edges.foldl
    (fun g (source, target, kind, payload) =>
      (g.addEdge source target ⟨kind, none, payload⟩).getD g)
    (blocks.foldl (fun g instructions => (g.addNode ⟨instructions, none⟩).getD g) .empty)
  entry := 0
  regions := []
  cleanups := []

theorem wf_ofParts {blocks : List (List ι)} {edges : List (Nat × Nat × EdgeKind × π)}
    (hentry : (ofParts blocks edges).containsBlock 0) : (ofParts blocks edges).WF := by
  refine ⟨?_, hentry⟩
  have hblocks : ∀ (l : List (List ι)) (g : Store.Naive (BasicBlock ι) (Edge π)), g.WF →
      (l.foldl (fun g instructions => (g.addNode ⟨instructions, none⟩).getD g) g).WF := by
    intro l
    induction l with
    | nil => exact fun _ h => h
    | cons x l ih =>
      intro g h
      refine ih _ ?_
      cases hg : g.addNode ⟨x, none⟩ with
      | none =>
        simp only [hg]
        exact h
      | some g' =>
        simp only [hg]
        exact h.addNode hg
  have hedges : ∀ (l : List (Nat × Nat × EdgeKind × π)) (g : Store.Naive (BasicBlock ι) (Edge π)),
      g.WF → (l.foldl (fun g (source, target, kind, payload) =>
        (g.addEdge source target ⟨kind, none, payload⟩).getD g) g).WF := by
    intro l
    induction l with
    | nil => exact fun _ h => h
    | cons x l ih =>
      intro g h
      refine ih _ ?_
      cases hg : g.addEdge x.1 x.2.1 ⟨x.2.2.1, none, x.2.2.2⟩ with
      | none =>
        simp only [hg]
        exact h
      | some g' =>
        simp only [hg]
        exact h.addEdge hg
  exact hedges edges _ (hblocks blocks _ Store.Naive.wf_empty)

end Cfg

end CfgLib

import CfgLib.Cfg.TextLines
import CfgLib.Graph.ParseText

/-!
# The round trip of the text form

A run of the reader over a written text: the blocks first, with the slots below
the last of them, then the edges in identity order, then the regions.  What is
known at each point is what has been written up to there.
-/

namespace CfgLib

open CfgLib.Lib List

variable {ι π : Type} {parseInstruction : Text → Except String ι}

/-! ## What the text keeps -/

/-- A label as the text carries it: an empty one is none. -/
def keptLabel (label : Option String) : Option String := label.filter fun name => name ≠ ""

/-- A block as the text carries it; a removed slot is first read as an empty block. -/
def copyBlock : Option (BasicBlock ι) → BasicBlock ι
  | none => ⟨[], none⟩
  | some block => ⟨block.instructions, keptLabel block.label⟩

def copyEdge (edge : Store.EdgeRecord (Edge π)) : Store.EdgeRecord (Edge Unit) :=
  ⟨edge.source, edge.target, ⟨edge.payload.kind, none, ()⟩⟩

def Cfg.removedBelow (c : Cfg ι π) (b : Nat) : Nat :=
  (List.range b).countP fun i => !c.containsBlock i

/-- Every identity of the graph fits the identity types: 32 bits, one value reserved in the store. -/
structure Cfg.Addressable (c : Cfg ι π) : Prop where
  blocks : c.blockBound ≤ Store.maxSlots
  edges : c.edgeBound ≤ Store.maxSlots
  regions : c.regions.length ≤ 2 ^ 32
  parents : ∀ region ∈ c.regions, ∀ parent, region.parent = some parent → parent < 2 ^ 32

/-- What the text form keeps of a graph. -/
structure SameText (c : Cfg ι π) (c' : Cfg ι Unit) : Prop where
  live : ∀ b, c'.containsBlock b = c.containsBlock b
  block : ∀ b block, c.block b = some block → c'.block b = some (copyBlock (some block))
  entry : c'.entry = c.entry
  edges : c'.liveEdges = c.liveEdges.map copyEdge
  regions : c'.regions =
    c.regions.zipIdx.map fun numbered => copyRegion c.containsBlock numbered.2 numbered.1

/-! ## Blocks -/

theorem modify_concat {α : Type} (l : List α) (x : α) (f : α → α) :
    (l ++ [x]).modify l.length f = l ++ [f x] := by
  induction l with
  | nil => rfl
  | cons a l ih => simpa using ih

theorem newBlocks_eq {count : Nat} {c : Cfg ι π}
    (h : c.graph.nodes.length + count ≤ Store.maxSlots) : c.newBlocks count = some { c with
      graph := { c.graph with
        nodes := c.graph.nodes ++ List.replicate count (some ⟨[], none⟩) } } := by
  induction count generalizing c with
  | zero => simp [Cfg.newBlocks]
  | succ count ih =>
    have hadd : c.newBlock = some (c.blockBound, { c with
        graph := { c.graph with nodes := c.graph.nodes ++ [some ⟨[], none⟩] } }) := by
      unfold Cfg.newBlock Store.Naive.addNode
      rw [if_pos (by omega)]
      rfl
    unfold Cfg.newBlocks
    rw [hadd]
    simp only
    rw [ih (by simp; omega)]
    simp [replicate_succ]

namespace Cfg

/-- The graph a reader holds once the slots below `m` are declared. -/
def declared (c : Cfg ι π) (m : Nat) : Cfg ι Unit where
  graph := ⟨slotsBelow (some ⟨[], none⟩) (fun i => some (copyBlock (c.block i))) m, [], fun _ _ => []⟩
  entry := 0
  regions := []
  cleanups := []

/-- The graph a reader holds while it reads the instructions of block `n`. -/
def filling (c : Cfg ι π) (n : Nat) (instructions : List ι) (label : Option String) : Cfg ι Unit where
  graph := ⟨(List.range n).map (fun i => some (copyBlock (c.block i))) ++
    [some ⟨instructions, keptLabel label⟩], [], fun _ _ => []⟩
  entry := 0
  regions := []
  cleanups := []

theorem modifyBlock_filling (c : Cfg ι π) (n : Nat) (instructions : List ι) (label : Option String)
    (f : BasicBlock ι → BasicBlock ι) : (c.filling n instructions label).modifyBlock n f =
      { c.filling n instructions label with
        graph := ⟨(List.range n).map (fun i => some (copyBlock (c.block i))) ++
          [some (f ⟨instructions, keptLabel label⟩)], [], fun _ _ => []⟩ } := by
  have h := modify_concat ((List.range n).map fun i => some (copyBlock (c.block i)))
    (some ⟨instructions, keptLabel label⟩) (Option.map f)
  rw [length_map, length_range] at h
  unfold modifyBlock Store.Naive.modifyNode filling
  rw [h]
  rfl

end Cfg

structure Declared (c : Cfg ι π) (m : Nat) (r : Reader ι) : Prop where
  cfg : r.cfg = c.declared m
  slots : r.slots = .below c.containsBlock m
  entry : r.entry = some c.entry
  pending : r.pending = none

variable {c : Cfg ι π}

variable {D : DisplayInstr ι} {done : List (Store.EdgeRecord (Edge π))} {b m n : Nat} {live : Nat → Bool}
  {r : Reader ι}

theorem containsBlock_eq_false : c.containsBlock b = false ↔ c.block b = none := by
  unfold Cfg.containsBlock
  cases c.block b <;> simp

def Reader.filled (c : Cfg ι π) (r : Reader ι) (n : Nat) (label : Option String)
    (instructions : List ι) : Reader ι :=
  { r with
    cfg := c.filling n instructions label
    slots := .below c.containsBlock (n + 1)
    context := .block n }

theorem Declared.declareBlock (h : Declared c m r) (hmn : m ≤ n)
    (hdead : ∀ i, m ≤ i → i < n → c.containsBlock i = false) (hn : c.containsBlock n = true)
    (hholes : c.removedBelow n ≤ maxHoles) (hsize : c.blockBound ≤ Store.maxSlots)
    (label : Option String) (line : Nat) :
    r.declareBlock n (labelText label) line = .ok (.filled c r n label []) := by
  have hcount : ((List.range n).map c.containsBlock).count false ≤ maxHoles := by
    refine le_of_eq_of_le ?_ hholes
    rw [Cfg.removedBelow, List.count, countP_map]
    congr 1
    funext i
    cases hi : c.containsBlock i <;> simp [hi]
  have hfill := slotsBelow_append (e := some (⟨[], none⟩ : BasicBlock ι))
    (f := fun i => some (copyBlock (c.block i))) hmn fun i h₁ h₂ => by
      rw [containsBlock_eq_false.mp (hdead i h₁ h₂)]
      rfl
  have hbound : n < c.blockBound := Cfg.block_lt hn
  have hlen : (c.declared m).graph.nodes.length = max m 1 := length_slotsBelow _ _ _
  have hnew : (c.declared m).newBlocks (n + 1 - max m 1) = some _ := newBlocks_eq (by omega)
  have hblocks : ({ c.declared m with
      graph := { (c.declared m).graph with
        nodes := (c.declared m).graph.nodes ++
          List.replicate (n + 1 - max m 1) (some ⟨[], none⟩) } } : Cfg ι Unit) =
      c.filling n [] none := by
    unfold Cfg.declared Cfg.filling
    simp only [hfill]
    rfl
  rw [hblocks] at hnew
  unfold Reader.declareBlock
  rw [h.slots, h.cfg, Slots.declare_below hmn hdead hn hcount]
  simp only [bind, Except.bind, hnew, orPanic, pure, Except.pure]
  have hlabel : (if labelText label = [] then c.filling n [] none
      else (c.filling n [] none).modifyBlock n fun b =>
        { b with label := some (String.ofList (labelText label)) }) = c.filling n [] label := by
    cases label with
    | none => rfl
    | some name =>
      by_cases hname : name = ""
      · subst hname
        rfl
      · have hne : labelText (some name) ≠ [] := by simpa [labelText] using hname
        have hkept : keptLabel (some name) = some name := by
          simp [keptLabel, Option.filter, hname]
        rw [if_neg hne, Cfg.modifyBlock_filling]
        unfold Cfg.filling
        rw [hkept, labelText, String.ofList_toList]
  rw [hlabel]
  rfl

/-- Each instruction of a block renders to text that the instruction parser inverts. -/
def Invertible (D : DisplayInstr ι) (parseInstruction : Text → Except String ι)
    (instructions : List ι) : Prop :=
  ∀ a ∈ instructions, D.render a ≠ [] ∧ parseInstruction (D.render a) = .ok a

theorem reads_instruction {a : ι} (hcontext : r.context = .block b) (hne : D.render a ≠ [])
    (hparse : parseInstruction (D.render a) = .ok a) :
    Reads significantLine (Reader.step parseInstruction) r (writeInstruction D a) { r with
        cfg := r.cfg.modifyBlock b fun block =>
          { block with instructions := block.instructions ++ [a] } } := by
  obtain ⟨ch, rest, heq, hspace, hmark, _⟩ := head_escapeFrom hne
  have htext : ((D a).foldl EscapingSink.writeStr .new).sink = escapeFrom true (D.render a) := by
    rw [foldl_writeStr]
    exact writeEscaped_eq _
  have htrim : trimStart (indent 1 ++ escapeFrom true (D.render a)) = ch :: rest := by
    rw [heq, trimStart_indent_cons hspace]
  unfold writeInstruction optionalLine
  rw [htext, if_neg (by rw [heq]; simp)]
  exact reads_line (Plain.append (by decide) (plain_escapeFrom true _)) htrim hmark
    fun k => step_instruction hcontext hne hparse k

theorem Declared.reads_block (h : Declared c m r) (hmn : m ≤ n) (hdead : ∀ i, m ≤ i → i < n → c.containsBlock i = false)
    {block : BasicBlock ι} (hn : c.block n = some block) (hholes : c.removedBelow n ≤ maxHoles)
    (hsize : c.blockBound ≤ Store.maxSlots) (hinv : Invertible D parseInstruction block.instructions) :
    ∃ r', Reads significantLine (Reader.step parseInstruction) r (writeBlock D n block) r' ∧
      Declared c (n + 1) r' := by
  have hlive : c.containsBlock n = true := by
    unfold Cfg.containsBlock
    rw [hn]
    rfl
  have hbound : n < c.blockBound := Cfg.block_lt hlive
  have hmax : Store.maxSlots < 2 ^ 64 := by decide
  have hheader : Reads significantLine (Reader.step parseInstruction) r
      (endLine (blockHeader n block.label)) (.filled c r n block.label []) := by
    have htrim : trimStart (blockHeader n block.label) = 'b' :: _ := trimStart_cons (by decide) _
    refine reads_line (plain_blockHeader n block.label) htrim (by decide) fun k => ?_
    rw [step_header (flushRegion_of_none h.pending) (by omega)]
    exact h.declareBlock hmn hdead hlive hholes hsize block.label k
  have hinstructions : ∃ r', Reads significantLine (Reader.step parseInstruction)
      (.filled c r n block.label []) (block.instructions.flatMap (writeInstruction D)) r' ∧
        r' = .filled c r n block.label block.instructions := by
    refine Reads.flatMap (I := fun done r' => r' = Reader.filled c r n block.label done) ?_ rfl
    intro done a rest r' hl hr'
    obtain ⟨hne, hparse⟩ := hinv a (by rw [hl]; simp)
    subst hr'
    refine ⟨_, reads_instruction rfl hne hparse, ?_⟩
    unfold Reader.filled
    simp only [Cfg.modifyBlock_filling]
    rfl
  obtain ⟨r', hread, rfl⟩ := hinstructions
  refine ⟨_, hheader.trans hread, ?_, rfl, h.entry, h.pending⟩
  unfold Reader.filled Cfg.filling Cfg.declared
  rw [slotsBelow_succ, hn]
  rfl

/-- What is written of the blocks below `n` declares every live one of them. -/
theorem reads_blocks (hr : Declared c 0 r) (hsize : c.blockBound ≤ Store.maxSlots)
    (hinv : ∀ b block, c.block b = some block → Invertible D parseInstruction block.instructions)
    (hholes : ∀ b, c.containsBlock b → c.removedBelow b ≤ maxHoles) (n : Nat) :
    ∃ m r', m ≤ n ∧ (∀ i, m ≤ i → i < n → c.containsBlock i = false) ∧ Declared c m r' ∧
      Reads significantLine (Reader.step parseInstruction) r
        (((List.range n).filter c.containsBlock).flatMap (c.blockText D)) r' := by
  induction n with
  | zero => exact ⟨0, r, Nat.le_refl 0, fun i _ hi => (by omega), hr, .nil⟩
  | succ n ih =>
    obtain ⟨m, r', hmn, hdead, hdecl, hread⟩ := ih
    rw [range_succ, filter_append, flatMap_append]
    cases hn : c.block n with
    | none =>
      have hfalse : c.containsBlock n = false := containsBlock_eq_false.mpr hn
      refine ⟨m, r', Nat.le_succ_of_le hmn, ?_, hdecl, ?_⟩
      · intro i hi hlt
        rcases Nat.lt_succ_iff_lt_or_eq.mp hlt with hlt | rfl
        · exact hdead i hi hlt
        · exact hfalse
      · rw [filter_cons_of_neg (by rw [hfalse]; decide), filter_nil, flatMap_nil,
          append_nil]
        exact hread
    | some block =>
      have hlive : c.containsBlock n = true := by
        unfold Cfg.containsBlock
        rw [hn]
        rfl
      obtain ⟨r'', hblock, hdecl'⟩ := hdecl.reads_block hmn hdead hn (hholes n hlive) hsize
        (hinv n block hn)
      refine ⟨n + 1, r'', Nat.le_refl _, fun i _ hi => (by omega), hdecl', ?_⟩
      rw [filter_cons_of_pos hlive, filter_nil, flatMap_singleton,
        Cfg.blockText, hn]
      exact hread.trans hblock

/-! ## Edges -/

/-- What a reader knows once it has read the edges `done`. -/
structure Linked (c : Cfg ι π) (m : Nat) (done : List (Store.EdgeRecord (Edge π)))
    (r : Reader ι) : Prop where
  wf : r.cfg.WF
  frame : Cfg.SameFrame (c.declared m) r.cfg
  block : ∀ i, r.cfg.block i = (c.declared m).block i
  edge : ∀ i, r.cfg.edge i = (done.map copyEdge)[i]?
  edgeBound : r.cfg.edgeBound = done.length
  slots : r.slots = .below c.containsBlock m
  entry : r.entry = some c.entry
  pending : r.pending = none

theorem block_declared (hb : b < m) : (c.declared m).block b = some (copyBlock (c.block b)) := by
  unfold Cfg.declared Cfg.block Store.Naive.node slotsBelow
  rw [if_neg (by omega), getElem?_map, getElem?_range hb]
  rfl

theorem block_declared_of_le (hm : 0 < m) (hb : m ≤ b) : (c.declared m).block b = none := by
  unfold Cfg.declared Cfg.block Store.Naive.node slotsBelow
  rw [if_neg (by omega), getElem?_eq_none (by simpa using hb)]
  rfl

theorem Declared.linked (hm : 0 < m) (h : Declared c m r) : Linked c m [] r := by
  have hcontains : (c.declared m).containsBlock 0 = true := by
    unfold Cfg.containsBlock
    rw [block_declared hm]
    rfl
  have hwf : (c.declared m).WF := by
    refine ⟨⟨?_, fun _ _ => nodup_nil, ?_⟩, hcontains⟩
    · intro d n e
      unfold Cfg.declared Store.Naive.edge
      simp
    · intro d e record hrecord
      cases hrecord
  refine ⟨?_, ?_, ?_, ?_, ?_, h.slots, h.entry, h.pending⟩
  · rw [h.cfg]
    exact hwf
  · rw [h.cfg]
    exact ⟨rfl, rfl, rfl⟩
  · rw [h.cfg]
    exact fun i => rfl
  · rw [h.cfg]
    exact fun i => rfl
  · rw [h.cfg]
    rfl

theorem Linked.checkLive (h : Linked c m done r) (hlive : ∀ i, m ≤ i → c.containsBlock i = false)
    (hb : c.containsBlock b) : b < m ∧ ∀ line, r.slots.checkLive b line = .ok () := by
  have hbm : b < m := by
    by_contra hge
    rw [hlive b (by omega)] at hb
    cases hb
  refine ⟨hbm, fun line => ?_⟩
  rw [h.slots]
  exact Slots.checkLive_below hbm hb line

theorem Linked.reads_edge (hc : c.WF) (hsize : c.blockBound ≤ Store.maxSlots) (h : Linked c m done r)
    (hlive : ∀ i, m ≤ i → c.containsBlock i = false) {e : Nat} {edge : Store.EdgeRecord (Edge π)}
    (he : c.edge e = some edge) (hroom : done.length < Store.maxSlots) :
    ∃ r', Reads significantLine (Reader.step parseInstruction) r (writeEdge edge) r' ∧
      Linked c m (done ++ [edge]) r' := by
  have hmax : Store.maxSlots < 2 ^ 64 := by decide
  have hs := hc.source_live he
  have ht := hc.target_live he
  have hsb := Cfg.block_lt hs
  have htb := Cfg.block_lt ht
  obtain ⟨hsm, hscheck⟩ := h.checkLive hlive hs
  obtain ⟨htm, htcheck⟩ := h.checkLive hlive ht
  have hsome : ∀ {b}, b < m → (r.cfg.graph.node b).isSome := by
    intro b hb
    have hblock : r.cfg.graph.node b = some (copyBlock (c.block b)) :=
      (h.block b).trans (block_declared hb)
    rw [hblock]
    rfl
  obtain ⟨g, hg⟩ : ∃ g, r.cfg.graph.addEdge edge.source edge.target ⟨edge.payload.kind, none, ()⟩ =
      some g := by
    unfold Store.Naive.addEdge
    rw [if_pos ⟨hsome hsm, hsome htm, h.edgeBound.trans_lt hroom⟩]
    exact ⟨_, rfl⟩
  have hadd : r.cfg.addEdgeWithPayload edge.source edge.target edge.payload.kind () =
      some (r.cfg.edgeBound, { r.cfg with graph := g }) := by
    unfold Cfg.addEdgeWithPayload
    rw [hg]
    rfl
  obtain ⟨_, hwf, hframe, hblock, hedge, _, hbound⟩ := Cfg.addEdgeWithPayload_spec h.wf hadd
  have hline : Reads significantLine (Reader.step parseInstruction) r (writeEdge edge)
      { r with cfg := { r.cfg with graph := g }, context := .nothing } := by
    have hplain : Plain (showBlock edge.source ++ " -> ".toList ++ showBlock edge.target ++
        " ".toList ++ edge.payload.kind.name) :=
      ((((plain_of_solid (solid_showBlock _)).append (by decide)).append
        (plain_of_solid (solid_showBlock _))).append (by decide)).append
          (plain_of_solid edge.payload.kind.solid_name)
    have htrim : trimStart (showBlock edge.source ++ " -> ".toList ++ showBlock edge.target ++
        " ".toList ++ edge.payload.kind.name) = 'b' :: _ := trimStart_cons (by decide) _
    exact reads_line hplain htrim (by decide) fun k =>
      step_edge (flushRegion_of_none h.pending) (by omega) (by omega) k (hscheck k) (htcheck k) hadd
  refine ⟨_, hline, ⟨hwf, h.frame.trans hframe, ?_, ?_, ?_, h.slots, h.entry, h.pending⟩⟩
  · exact fun i => (hblock i).trans (h.block i)
  · intro i
    rw [hedge, h.edge, h.edgeBound, map_append, getElem?_append, length_map]
    by_cases hi : i = done.length
    · subst hi
      simp [copyEdge]
    · rw [if_neg hi]
      split
      · rfl
      · rw [getElem?_eq_none (by rw [length_map]; omega),
          getElem?_eq_none (by simp; omega)]
  · rw [hbound, h.edgeBound]
    simp

/-! ## Regions -/

theorem reads_handler (hcontext : r.context = .region) {region : Region}
    (hpending : r.pending = some region) {handler : Handler} (h : HandlerNamed r.slots live handler) :
    Reads significantLine (Reader.step parseInstruction) r (writeHandler live handler) { r with
        pending := some { region with
          handlers := region.handlers ++ [copyHandler live handler] } } := by
  have hplain : Plain (indent 1 ++ handlerLine live handler) := by
    rw [handlerLine_eq]
    exact Plain.append (by decide)
      (Plain.append (by decide) (plain_intercalate (solid_handlerFields live handler)))
  have htrim : trimStart (indent 1 ++ handlerLine live handler) = 'h' :: _ :=
    trimStart_indent_cons (by decide) _
  exact reads_line hplain htrim (by decide) fun k => step_handler hcontext hpending h k

/-- The regions `done` have been read into the graph of `r₀`, the last of them once it is flushed. -/
def HoldsRegions (live : Nat → Bool) (r₀ : Reader ι) (done : List (Region × Nat)) (r : Reader ι) :
    Prop :=
  r.flushRegion = .ok { r₀ with
    cfg := { r₀.cfg with
      regions := done.map fun numbered => copyRegion live numbered.2 numbered.1 }
    context := r.context }

theorem HoldsRegions.reads_region {r₀ : Reader ι} {done : List (Region × Nat)}
    (h : HoldsRegions live r₀ done r) (hpending : r₀.pending = none) {region : Region} (hroom : done.length < 2 ^ 32)
    (hnamed : Named r₀.slots (liveMembers live region.protectedBlocks))
    (hhandlers : ∀ handler ∈ region.handlers, HandlerNamed r₀.slots live handler)
    (hparent : ∀ parent, region.parent = some parent → parent < 2 ^ 32) :
    ∃ r', Reads significantLine (Reader.step parseInstruction) r
        (writeRegion live done.length region) r' ∧
      HoldsRegions live r₀ (done ++ [(region, done.length)]) r' := by
  unfold HoldsRegions at h
  generalize hr₁ : ({ r₀ with
    cfg := { r₀.cfg with
      regions := done.map fun numbered => copyRegion live numbered.2 numbered.1 }
    context := r.context } : Reader ι) = r₁ at h
  have hslots : r₁.slots = r₀.slots := by
    rw [← hr₁]
  have hlength : done.length = r₁.cfg.regions.length := by
    rw [← hr₁, length_map]
  have hheader : Reads significantLine (Reader.step parseInstruction) r
      (endLine (regionHeader live done.length region)) { r₁ with
        pending := some ⟨0, region.protectedBlocks.filter fun b => live b, [], region.parent⟩
        context := .region } := by
    have hplain : Plain (regionHeader live done.length region) := by
      rw [regionHeader_eq]
      exact Plain.append (by decide) (plain_intercalate (solid_regionFields live _ region))
    have htrim : trimStart (regionHeader live done.length region) = 'r' :: _ :=
      trimStart_cons (by decide) _
    refine reads_line hplain htrim (by decide) fun k => ?_
    exact step_region h hlength (by omega) (by rw [hslots]; exact hnamed) hparent k
  have hreads : ∃ r', Reads significantLine (Reader.step parseInstruction) { r₁ with
        pending := some ⟨0, region.protectedBlocks.filter fun b => live b, [], region.parent⟩
        context := .region } (region.handlers.flatMap (writeHandler live)) r' ∧
      r' = { r₁ with
        pending := some ⟨0, region.protectedBlocks.filter fun b => live b,
          region.handlers.map (copyHandler live), region.parent⟩
        context := .region } := by
    refine Reads.flatMap (I := fun (read : List Handler) r' => r' = { r₁ with
        pending := some ⟨0, region.protectedBlocks.filter fun b => live b,
          read.map (copyHandler live), region.parent⟩
        context := .region }) ?_ rfl
    intro read handler rest r' hl hr'
    have hhandler := hhandlers handler (by rw [hl]; simp)
    subst hr'
    refine ⟨_, reads_handler rfl rfl (by rw [← hslots] at hhandler; exact hhandler), ?_⟩
    simp only [map_append, map_cons, map_nil]
  obtain ⟨r', hread, rfl⟩ := hreads
  refine ⟨_, hheader.trans hread, ?_⟩
  unfold HoldsRegions Reader.flushRegion Cfg.addRegion
  simp only
  rw [if_pos (by omega)]
  simp only [orPanic, Except.map, ← hlength]
  rw [← hr₁, map_append, hpending]
  rfl

/-! ## The removed slots -/

namespace Cfg

theorem removeBlock_of_untouched (hc : c.WF) {b : Nat} (hb : b ≠ c.entry)
    (hedges : ∀ e r, c.edge e = some r → r.source ≠ b ∧ r.target ≠ b) :
    ∃ c', (c.removeBlock b).map (·.2) = some c' ∧ c'.WF ∧ SameFrame c c' ∧
      (∀ i, c'.block i = if i = b then none else c.block i) ∧ (∀ e, c'.edge e = c.edge e) ∧
      c'.edgeBound = c.edgeBound := by
  have hblock : ∀ i, (c.graph.removeNode b).node i = if i = b then none else c.graph.node i :=
    Store.Naive.node_removeNode c.graph b
  refine ⟨{ c with graph := c.graph.removeNode b }, ?_, ⟨hc.graph.removeNode b, ?_⟩, ⟨rfl, rfl, rfl⟩,
    hblock, ?_, Store.Naive.length_edges_removeNode c.graph b⟩
  · rw [removeBlock, if_neg hb]
    rfl
  · change ((c.graph.removeNode b).node c.entry).isSome
    rw [hblock, if_neg (Ne.symm hb)]
    exact hc.entry
  · exact edge_removeNode_of_untouched hc.graph hedges

theorem removeBlocks_of_untouched {holes : List Nat} (hc : c.WF) (hentry : c.entry ∉ holes)
    (hedges : ∀ e r, c.edge e = some r → r.source ∉ holes ∧ r.target ∉ holes) :
    ∃ c', holes.foldlM (fun c index => (c.removeBlock index).map (·.2)) c = some c' ∧
      SameFrame c c' ∧ (∀ i, c'.block i = if i ∈ holes then none else c.block i) ∧
      (∀ e, c'.edge e = c.edge e) ∧ c'.edgeBound = c.edgeBound := by
  induction holes generalizing c with
  | nil => exact ⟨c, rfl, ⟨rfl, rfl, rfl⟩, fun i => by simp, fun e => rfl, rfl⟩
  | cons b holes ih =>
    rw [mem_cons, not_or] at hentry
    obtain ⟨c₁, hstep, hwf, hframe, hblock, hedge, hbound⟩ := removeBlock_of_untouched hc
      (Ne.symm hentry.1) fun e r hr => by
        have h := hedges e r hr
        simp only [mem_cons, not_or] at h
        exact ⟨h.1.1, h.2.1⟩
    obtain ⟨c', hrun, hframe', hblock', hedge', hbound'⟩ := ih hwf (by rw [hframe.entry]; exact hentry.2)
      fun e r hr => by
        rw [hedge] at hr
        have h := hedges e r hr
        simp only [mem_cons, not_or] at h
        exact ⟨h.1.2, h.2.2⟩
    refine ⟨c', ?_, hframe.trans hframe', ?_, fun e => (hedge' e).trans (hedge e),
      hbound'.trans hbound⟩
    · rw [foldlM_cons, hstep]
      exact hrun
    · intro i
      rw [hblock', hblock]
      by_cases h₁ : i ∈ holes <;> by_cases h₂ : i = b <;> simp [h₁, h₂]

theorem mem_liveEdges {edge : Store.EdgeRecord (Edge π)} :
    edge ∈ c.liveEdges ↔ ∃ e, c.edge e = some edge := by
  unfold liveEdges edgeIds
  simp only [mem_filterMap, mem_filter, mem_range]
  constructor
  · intro ⟨e, _, he⟩
    exact ⟨e, he⟩
  · intro ⟨e, he⟩
    refine ⟨e, ⟨edge_lt he, ?_⟩, he⟩
    unfold containsEdge
    rw [he]
    rfl

theorem length_liveEdges_le : c.liveEdges.length ≤ c.edgeBound := by
  unfold liveEdges edgeIds
  refine (length_filterMap_le _ _).trans ((length_filter_le _ _).trans ?_)
  rw [length_range]

/-- A graph whose edge slots are a list without holes has exactly its edges. -/
theorem liveEdges_eq {l : List (Store.EdgeRecord (Edge π))} (hbound : c.edgeBound = l.length)
    (hedge : ∀ i, c.edge i = l[i]?) : c.liveEdges = l := by
  have hall : c.edgeIds = List.range l.length := by
    unfold edgeIds
    rw [hbound, filter_eq_self]
    intro i hi
    unfold containsEdge
    rw [hedge, getElem?_eq_getElem (mem_range.mp hi)]
    rfl
  unfold liveEdges
  rw [hall, show c.edge = fun i => l[i]? from funext hedge, filterMap_range_getElem?]

end Cfg

/-! ## The same text -/

theorem liveMembers_filter (live : Nat → Bool) (blocks : Finset Nat) :
    liveMembers live (blocks.filter fun b => live b) = liveMembers live blocks := by
  have hsorted : (liveMembers live blocks).Pairwise (· ≤ ·) :=
    (blocks.pairwise_sort (· ≤ ·)).filter _
  have hnodup : (liveMembers live blocks).Nodup := (blocks.sort_nodup (· ≤ ·)).filter _
  have hsort : (blocks.filter fun b => live b).sort (· ≤ ·) = liveMembers live blocks := by
    rw [← toFinset_liveMembers]
    exact (toFinset_sort (· ≤ ·) hnodup).mpr hsorted
  conv_lhs => unfold liveMembers
  rw [hsort, filter_eq_self]
  intro b hb
  exact (mem_filter.mp hb).2

theorem writeHandler_copyHandler (live : Nat → Bool) (handler : Handler) :
    writeHandler live (copyHandler live handler) = writeHandler live handler := by
  have hbody : writeBody live (readHandlerBody live handler.body) = writeBody live handler.body := by
    cases handler.body with
    | unknown => rfl
    | known blocks =>
      simp only [writeBody, readHandlerBody, HandlerBody.blocks, liveMembers_filter]
  unfold writeHandler handlerLine copyHandler
  simp only [hbody]

theorem writeRegion_copyRegion (live : Nat → Bool) (index : Nat) (region : Region) :
    writeRegion live index (copyRegion live index region) = writeRegion live index region := by
  unfold writeRegion regionHeader copyRegion
  simp only [liveMembers_filter, flatMap_map, writeHandler_copyHandler]

theorem blockHeader_keptLabel (id : Nat) (label : Option String) :
    blockHeader id (keptLabel label) = blockHeader id label := by
  cases label with
  | none => rfl
  | some name =>
    by_cases hname : name = ""
    · subst hname
      simp [keptLabel, blockHeader, writeLabel, Option.filter]
    · simp [keptLabel, Option.filter, hname]

theorem filter_range_eq {p : Nat → Bool} (hm : ∀ i, p i = true → i < m)
    (hn : ∀ i, p i = true → i < n) : (List.range m).filter p = (List.range n).filter p := by
  have hle : ∀ {m n : Nat}, m ≤ n → (∀ i, p i = true → i < m) →
      (List.range m).filter p = (List.range n).filter p := by
    intro m n hmn hm
    obtain ⟨d, rfl⟩ := Nat.exists_eq_add_of_le hmn
    rw [range_add, filter_append, self_eq_append_right, filter_eq_nil_iff]
    intro i hi hp
    obtain ⟨j, _, rfl⟩ := mem_map.mp hi
    have := hm _ hp
    omega
  rcases Nat.le_total m n with h | h
  · exact hle h hm
  · exact (hle h hn).symm

theorem zipIdx_zipIdx {α : Type} (l : List α) (k : Nat) :
    (l.zipIdx k).zipIdx k = (l.zipIdx k).map fun numbered => (numbered, numbered.2) := by
  induction l generalizing k with
  | nil => rfl
  | cons a l ih => simp only [zipIdx_cons, map_cons, ih]

theorem SameText.toText_eq {c' : Cfg ι Unit} (h : SameText c c') (D : DisplayInstr ι) :
    c'.toText D = c.toText D := by
  have hlive : c'.containsBlock = c.containsBlock := funext h.live
  have hids : c'.blockIds = c.blockIds := by
    unfold Cfg.blockIds
    rw [hlive]
    exact filter_range_eq (fun i hi => by
      rw [← hlive] at hi
      exact Cfg.block_lt hi) fun i hi => Cfg.block_lt hi
  have hblocks : c'.blockIds.flatMap (c'.blockText D) = c.blockIds.flatMap (c.blockText D) := by
    rw [hids]
    apply flatMap_congr
    intro id hid
    obtain ⟨block, hblock⟩ := Option.isSome_iff_exists.mp (Cfg.mem_blockIds.mp hid)
    unfold Cfg.blockText
    rw [h.block id block hblock, hblock]
    simp only [writeBlock, copyBlock, blockHeader_keptLabel]
  have hedges : c'.liveEdges.flatMap writeEdge = c.liveEdges.flatMap writeEdge := by
    rw [h.edges, flatMap_map]
    rfl
  have hregions : (c'.regions.zipIdx.flatMap fun numbered =>
      writeRegion c'.containsBlock numbered.2 numbered.1) = c.regions.zipIdx.flatMap fun numbered =>
        writeRegion c.containsBlock numbered.2 numbered.1 := by
    rw [h.regions, hlive, zipIdx_map, zipIdx_zipIdx, map_map, flatMap_map]
    simp only [Function.comp, Prod.map, id, writeRegion_copyRegion]
  unfold Cfg.toText
  rw [h.entry, hblocks, hedges, hregions]

/-! ## The round trip -/

theorem reads_entry (e : Nat) (he : e < 2 ^ 64) (h : r.pending = none) :
    Reads significantLine (Reader.step parseInstruction) r
      (endLine ("entry ".toList ++ showBlock e))
      { r with entry := some e, context := .nothing } := by
  have htrim : trimStart ("entry ".toList ++ showBlock e) = 'e' :: _ := trimStart_cons (by decide) _
  exact reads_line (Plain.append (by decide) (plain_of_solid (solid_showBlock e))) htrim (by decide)
    fun k => step_entry (flushRegion_of_none h) he k

theorem Linked.named (hsize : c.blockBound ≤ Store.maxSlots) (h : Linked c m done r)
    (hlive : ∀ i, m ≤ i → c.containsBlock i = false) {blocks : List Nat}
    (hblocks : ∀ b ∈ blocks, c.containsBlock b) : Named r.slots blocks := by
  have hmax : Store.maxSlots < 2 ^ 64 := by decide
  intro b hb
  have hbound := Cfg.block_lt (hblocks b hb)
  exact ⟨by omega, (h.checkLive hlive (hblocks b hb)).2⟩

theorem liveMembers_live {blocks : Finset Nat} :
    ∀ b ∈ liveMembers live blocks, live b = true := fun _ hb => (mem_filter.mp hb).2

theorem Linked.reads_regions (hsize : c.Addressable) (hanchors : ∀ b ∈ c.anchors, c.containsBlock b)
    {r₀ : Reader ι} (h : Linked c m done r₀) (hlive : ∀ i, m ≤ i → c.containsBlock i = false) :
    ∃ r, Reads significantLine (Reader.step parseInstruction) r₀
        (c.regions.zipIdx.flatMap fun numbered =>
          writeRegion c.containsBlock numbered.2 numbered.1) r ∧
      HoldsRegions c.containsBlock r₀ c.regions.zipIdx r := by
  refine Reads.flatMap (I := fun done r => HoldsRegions c.containsBlock r₀ done r) ?_ ?_
  · intro read numbered rest r hl hr
    have hat : c.regions.zipIdx[read.length]? = some numbered := by
      rw [hl, getElem?_append_right (Nat.le_refl _), Nat.sub_self]
      rfl
    rw [getElem?_zipIdx, Option.map_eq_some_iff] at hat
    obtain ⟨region, hregion, hnumbered⟩ := hat
    rw [Nat.zero_add] at hnumbered
    subst hnumbered
    have hmem : region ∈ c.regions := mem_of_getElem? hregion
    have hroom : read.length < 2 ^ 32 :=
      Nat.lt_of_lt_of_le (List.getElem?_eq_some_iff.mp hregion).1 hsize.regions
    refine hr.reads_region h.pending hroom (h.named hsize.blocks hlive liveMembers_live) ?_
      (hsize.parents region hmem)
    intro handler hhandler
    refine ⟨h.named hsize.blocks hlive ?_, fun blocks _ => h.named hsize.blocks hlive liveMembers_live⟩
    intro b hb
    refine hanchors b (mem_append_left _ ?_)
    exact mem_flatMap.mpr ⟨handler, mem_flatMap.mpr ⟨region, hmem, hhandler⟩, hb⟩
  · unfold HoldsRegions
    rw [flushRegion_of_none h.pending, map_nil,
      show ([] : List Region) = r₀.cfg.regions from h.frame.regions.symm]

theorem Linked.finish (hc : c.WF) (h : Linked c m c.liveEdges r)
    (hlive : ∀ i, m ≤ i → c.containsBlock i = false) (regions : List Region) (context : Context) (hregions : regions =
      c.regions.zipIdx.map fun numbered => copyRegion c.containsBlock numbered.2 numbered.1) :
    ∃ c', Reader.finish { r with cfg := { r.cfg with regions }, context } = .ok c' ∧
      SameText c c' := by
  obtain ⟨hentry, hcheck⟩ := h.checkLive hlive hc.entry
  have hm : 0 < m := Nat.lt_of_le_of_lt (Nat.zero_le _) hentry
  have hundeclared : ∀ i, i ∈ r.slots.undeclared ↔ i < m ∧ c.containsBlock i = false := by
    intro i
    rw [h.slots]
    exact Slots.mem_undeclared_below hm
  have hnot : ∀ {b}, c.containsBlock b → b ∉ r.slots.undeclared := by
    intro b hb hmem
    rw [((hundeclared b).mp hmem).2] at hb
    cases hb
  have hcontains : r.cfg.containsBlock c.entry = true := by
    unfold Cfg.containsBlock
    rw [h.block, block_declared hentry]
    rfl
  have hedges : ∀ e edge, r.cfg.edge e = some edge →
      edge.source ∉ r.slots.undeclared ∧ edge.target ∉ r.slots.undeclared := by
    intro e edge he
    rw [h.edge, getElem?_map, Option.map_eq_some_iff] at he
    obtain ⟨edge', hedge', rfl⟩ := he
    obtain ⟨e', he'⟩ := Cfg.mem_liveEdges.mp (mem_of_getElem? hedge')
    exact ⟨hnot (hc.source_live he'), hnot (hc.target_live he')⟩
  have hwf : ({ r.cfg with regions, entry := c.entry } : Cfg ι Unit).WF := ⟨h.wf.graph, hcontains⟩
  obtain ⟨c', hrun, hframe, hblock, hedge, hbound⟩ :=
    Cfg.removeBlocks_of_untouched hwf (hnot hc.entry) hedges
  have hset : Cfg.setEntry { r.cfg with regions } c.entry =
      some { r.cfg with regions, entry := c.entry } := by
    unfold Cfg.setEntry
    exact if_pos hcontains
  have hsame : ∀ b block, c.block b = some block → c'.block b = some (copyBlock (some block)) := by
    intro b block hb
    have hbc : c.containsBlock b := by
      unfold Cfg.containsBlock
      rw [hb]
      rfl
    rw [hblock, if_neg (hnot hbc)]
    refine (h.block b).trans ?_
    rw [block_declared (h.checkLive hlive hbc).1, hb]
  refine ⟨c', ?_, ⟨?_, hsame, hframe.entry, ?_, hframe.regions.trans hregions⟩⟩
  · unfold Reader.finish Reader.liveBlock
    simp only [h.entry, Option.getD_some, hcheck, bind, Except.bind, pure, Except.pure, hset, orPanic,
      hrun]
  · intro b
    cases hb : c.block b with
    | some block =>
      unfold Cfg.containsBlock
      rw [hsame b block hb, hb]
      rfl
    | none =>
      have hfalse := containsBlock_eq_false.mpr hb
      have hnone : c'.block b = none := by
        rw [hblock]
        split
        · rfl
        · next hmem =>
          have hge : m ≤ b := by
            by_contra hlt
            exact hmem ((hundeclared b).mpr ⟨by omega, hfalse⟩)
          exact (h.block b).trans (block_declared_of_le hm hge)
      rw [hfalse]
      exact containsBlock_eq_false.mpr hnone
  · refine Cfg.liveEdges_eq ?_ fun i => (hedge i).trans (h.edge i)
    rw [hbound, length_map]
    exact h.edgeBound

/-- The text form round-trips.  Any graph whose exception anchors are live, whose
instructions render to text that is not empty and that the instruction parser inverts, and
that has few enough removed slots below its last live block, is read back from its text
with the same blocks, edges and regions, and writing the result gives the same text. -/
theorem parseCfgText_toText (D : DisplayInstr ι) (parseInstruction : Text → Except String ι)
    (hc : c.WF) (hsize : c.Addressable) (hanchors : ∀ b ∈ c.anchors, c.containsBlock b)
    (hinv : ∀ b block, c.block b = some block → Invertible D parseInstruction block.instructions)
    (hholes : ∀ b, c.containsBlock b → c.removedBelow b ≤ maxHoles) :
    ∃ c', parseCfgText (c.toText D) parseInstruction = .ok c' ∧ SameText c c' ∧
      c'.toText D = c.toText D := by
  have hmax : Store.maxSlots < 2 ^ 64 := by decide
  have hentry : c.entry < 2 ^ 64 := by
    have := Cfg.block_lt hc.entry
    have := hsize.blocks
    omega
  have hnew : (Reader.new : Reader ι).pending = none := rfl
  have hfirst : Reads significantLine (Reader.step parseInstruction) Reader.new
      (endLine ("entry ".toList ++ showBlock c.entry)) _ := reads_entry c.entry hentry hnew
  have hzero : Declared c 0 { (Reader.new : Reader ι) with
      entry := some c.entry, context := .nothing } := ⟨rfl, rfl, rfl, rfl⟩
  obtain ⟨m, r₁, _, hdead, hdecl, hblocks⟩ := reads_blocks hzero hsize.blocks hinv hholes c.blockBound
  have hlive : ∀ i, m ≤ i → c.containsBlock i = false := by
    intro i hi
    by_cases hlt : i < c.blockBound
    · exact hdead i hi hlt
    · by_contra hne
      exact hlt (Cfg.block_lt (by simpa using hne))
  have hm : 0 < m := by
    by_contra hzero
    have hfalse := hlive c.entry (by omega)
    rw [hc.entry] at hfalse
    cases hfalse
  have hedges : ∃ r, Reads significantLine (Reader.step parseInstruction) r₁
      (c.liveEdges.flatMap writeEdge) r ∧ Linked c m c.liveEdges r := by
    refine Reads.flatMap (I := fun done r => Linked c m done r) ?_ (hdecl.linked hm)
    intro done edge rest r hl hr
    obtain ⟨e, he⟩ := Cfg.mem_liveEdges.mp (show edge ∈ c.liveEdges by rw [hl]; simp)
    refine hr.reads_edge hc hsize.blocks hlive he ?_
    have hlen := (Cfg.length_liveEdges_le (c := c)).trans hsize.edges
    rw [hl, length_append, length_cons] at hlen
    omega
  obtain ⟨r₂, hread₂, hlinked⟩ := hedges
  obtain ⟨r₃, hread₃, hholds⟩ := hlinked.reads_regions hsize hanchors hlive
  obtain ⟨c', hfinish, hsame⟩ := hlinked.finish hc hlive _ r₃.context rfl
  refine ⟨c', ?_, hsame, hsame.toText_eq D⟩
  have hrun := (((hfirst.trans hblocks).trans hread₂).trans hread₃).readFrom_eq 1
  unfold parseCfgText Reader.read Cfg.toText
  unfold HoldsRegions at hholds
  simp only [bind, Except.bind]
  rw [show c.blockIds = (List.range c.blockBound).filter c.containsBlock from rfl, hrun]
  simp only [hholds]
  exact hfinish

/-- A graph whose slot 0 is removed, with a label and instructions that look like structure. -/
def trickyGraph : Cfg Text Unit where
  graph := ((Cfg.ofParts [[], [" \\\n#".toList, "-".toList], []]
    [(0, 1, .jump, ()), (1, 2, .exceptionHandler, ())]).graph.removeNode 0).modifyNode 1
      fun block => { block with label := some "-> bb2" }
  entry := 1
  regions := [⟨0, {0, 1}, [⟨2, .known {0, 2}, .filter 2⟩, ⟨2, .unknown, .finally⟩], none⟩]
  cleanups := []

theorem wf_trickyGraph : trickyGraph.WF := by
  have hparts : (Cfg.ofParts [[], [" \\\n#".toList, "-".toList], []]
    [(0, 1, .jump, ()), (1, 2, .exceptionHandler, ())]).WF := Cfg.wf_ofParts rfl
  exact ⟨(hparts.graph.removeNode 0).modifyNode 1 _, rfl⟩

theorem parseCfgText_toText_trickyGraph : ∃ c',
    parseCfgText (trickyGraph.toText fun a => [a]) (fun text => .ok text) = .ok c' ∧
      SameText trickyGraph c' ∧ c'.toText (fun a => [a]) = trickyGraph.toText fun a => [a] := by
  have hlt : ∀ b, trickyGraph.containsBlock b → b < 3 := fun b hb => Cfg.block_lt hb
  refine parseCfgText_toText (fun a => [a]) (fun text => .ok text) wf_trickyGraph ?_ (by decide) ?_ ?_
  · refine ⟨by decide, by decide, by decide, ?_⟩
    intro region hregion parent hparent
    rw [show trickyGraph.regions = [_] from rfl, mem_singleton] at hregion
    rw [hregion] at hparent
    cases hparent
  · intro b block hb a ha
    have hb3 : b < 3 := hlt b (by rw [Cfg.containsBlock, hb]; rfl)
    have hrender : DisplayInstr.render (fun a => [a]) a = a := append_nil a
    rw [hrender]
    refine ⟨?_, rfl⟩
    have hall : ∀ b < 3, ∀ a ∈ ((trickyGraph.block b).map (·.instructions)).getD [], a ≠ [] := by
      decide
    exact hall b hb3 a (by rw [hb]; exact ha)
  · intro b hb
    have hcount : trickyGraph.removedBelow b ≤ b :=
      countP_le_length.trans_eq length_range
    have := hlt b hb
    have : 3 ≤ maxHoles := by decide
    omega

end CfgLib

import CfgLib.Graph.Text
import CfgLib.Store.View

/-!
# The text form of a plain store

`graph/text.rs`, `graph/text/parse.rs`: the writer, which puts each live node and each
live edge on a line of its own under the label a style gives it, and the reader, which
rebuilds a store whose payloads are the labels.
-/

namespace CfgLib

open CfgLib.Lib List
open CfgLib.Store (Naive EdgeRecord)

variable {N E : Type}

/-! ## Writing -/

/-- How one graph is written as text: what labels a node, what labels an edge. -/
structure TextStyle (N E : Type) where
  nodeLabel : Nat → N → Text
  edgeLabel : Nat → E → Text

namespace TextStyle

def display : TextStyle Text Text := ⟨fun _ label => label, fun _ label => label⟩

/-- Every live node in identity order, with its label. -/
def nodes (style : TextStyle N E) (g : Naive N E) : List (Nat × Text) :=
  (List.range g.nodes.length).filterMap fun n =>
    (g.node n).map fun data => (n, style.nodeLabel n data)

/-- Every live edge in identity order, with its label. -/
def edges (style : TextStyle N E) (g : Naive N E) : List (EdgeRecord Text) :=
  (List.range g.edges.length).filterMap fun e =>
    (g.edge e).map fun record => ⟨record.source, record.target, style.edgeLabel e record.payload⟩

end TextStyle

def showNode (n : Nat) : Text := showIndex "n".toList n

def nodeLine (n : Nat) (label : Text) : Text := showNode n ++ writeLabel label

def edgeLine (edge : EdgeRecord Text) : Text :=
  showNode edge.source ++ " -> ".toList ++ showNode edge.target ++ writeLabel edge.payload

/-- Render a store in the line-oriented text form. -/
def toText (style : TextStyle N E) (g : Naive N E) : Text :=
  ((style.nodes g).flatMap fun node => endLine (nodeLine node.1 node.2)) ++
    (style.edges g).flatMap fun edge => endLine (edgeLine edge)

/-! ## Reading -/

/-- Append `count` nodes without a label. -/
def addNodes : Nat → Naive Text Text → Option (Naive Text Text)
  | 0, g => some g
  | count + 1, g => (g.addNode []).bind (addNodes count)

/-- What is read so far. -/
structure TextReader where
  graph : Naive Text Text
  slots : Slots

namespace TextReader

def new : TextReader := ⟨.empty, .new⟩

def readNode (r : TextReader) (index : Nat) (tail : Text) (line : Nat) : Except Stop TextReader := do
  let label ← unescape line tail
  let (before, slots) ← r.slots.declare index line
  let graph ← orPanic (addNodes (index - before) r.graph)
  let graph ← orPanic (graph.addNode label)
  pure ⟨graph, slots⟩

def readEdge (r : TextReader) (index : Nat) (arrowTail : Text) (line : Nat) :
    Except Stop TextReader :=
  match splitTokens arrowTail 1 with
  | some ([token], label) => do
    let target ← parseIndex token "n".toList line
    r.slots.checkLive index line
    r.slots.checkLive target line
    let label ← unescape line label
    let graph ← orPanic (r.graph.addEdge index target label)
    pure ⟨graph, r.slots⟩
  | _ => fail line .unrecognized

def step (r : TextReader) (line : Nat) (content : Text) : Except Stop TextReader :=
  match splitTokens content 1 with
  | some ([token], tail) => do
    let index ← parseIndex token "n".toList line
    match stripPrefix "-> ".toList tail with
    | none => r.readNode index tail line
    | some arrowTail => r.readEdge index arrowTail line
  | _ => fail line .unrecognized

end TextReader

/-- Read a text graph into a store whose payloads are the label text. -/
def parseText (text : Text) : Except Stop (Naive Text Text) := do
  let r ← readFrom significantLine TextReader.step 1 .new text
  pure (r.slots.undeclared.foldl Naive.removeNode r.graph)

/-! ## Lines -/

theorem solid_showNode (n : Nat) : Solid (showNode n) := solid_showIndex (by decide) n

theorem showNode_ne_nil (n : Nat) : showNode n ≠ [] := by
  unfold showNode showIndex
  simp

theorem edgeLine_eq (edge : EdgeRecord Text) : edgeLine edge =
    showNode edge.source ++ ' ' :: ("-> ".toList ++ (showNode edge.target ++ writeLabel edge.payload)) := by
  unfold edgeLine
  rw [show " -> ".toList = ' ' :: "-> ".toList from rfl]
  simp only [append_assoc, cons_append]

variable {edge : EdgeRecord Text} {m n : Nat}

theorem step_nodeLine (r : TextReader) (hn : n < 2 ^ 64) (label : Text) (line : Nat) :
    ∃ tail, r.step line (nodeLine n label) = r.readNode n tail line ∧
      unescape line tail = .ok label := by
  obtain ⟨tail, hsplit, harrow, hlabel⟩ :=
    splitTokens_label (solid_showNode n) (showNode_ne_nil n) label
  have hparse : parseIndex (showNode n) "n".toList line = .ok n := parseIndex_showIndex hn _ _
  refine ⟨tail, ?_, hlabel line⟩
  unfold TextReader.step nodeLine
  simp only [hsplit, hparse, harrow, bind, Except.bind]

variable {r : TextReader}

theorem step_edgeLine {g : Naive Text Text} (hs : edge.source < 2 ^ 64) (ht : edge.target < 2 ^ 64) (line : Nat)
    (hsource : r.slots.checkLive edge.source line = .ok ()) (htarget : r.slots.checkLive edge.target line = .ok ())
    (hadd : r.graph.addEdge edge.source edge.target edge.payload = some g) :
    r.step line (edgeLine edge) = .ok ⟨g, r.slots⟩ := by
  obtain ⟨label, hsplit', _, hlabel⟩ :=
    splitTokens_label (solid_showNode edge.target) (showNode_ne_nil edge.target) edge.payload
  have hsplit := splitTokens_one (solid_showNode edge.source) (showNode_ne_nil edge.source)
    ("-> ".toList ++ (showNode edge.target ++ writeLabel edge.payload))
  have hparse : parseIndex (showNode edge.source) "n".toList line = .ok edge.source :=
    parseIndex_showIndex hs _ _
  have hparse' : parseIndex (showNode edge.target) "n".toList line = .ok edge.target :=
    parseIndex_showIndex ht _ _
  rw [edgeLine_eq]
  unfold TextReader.step TextReader.readEdge
  simp only [hsplit, hparse, stripPrefix_append, hsplit', hparse', hsource, htarget, hlabel line, hadd,
    orPanic, bind, Except.bind, pure, Except.pure]

theorem plain_nodeLine (n : Nat) (label : Text) : Plain (nodeLine n label) :=
  (plain_of_solid (solid_showNode n)).append (plain_writeLabel label)

theorem plain_edgeLine (edge : EdgeRecord Text) : Plain (edgeLine edge) :=
  (((plain_of_solid (solid_showNode edge.source)).append (by decide)).append
    (plain_of_solid (solid_showNode edge.target))).append (plain_writeLabel edge.payload)

theorem reads_showNode {r' : TextReader} {rest : Text} (hline : Plain (showNode n ++ rest))
    (hstep : ∀ k, r.step k (showNode n ++ rest) = .ok r') :
    Reads significantLine TextReader.step r (endLine (showNode n ++ rest)) r' := by
  have htrim : trimStart (showNode n ++ rest) = 'n' :: (Nat.toDigits 10 n ++ rest) :=
    trimStart_cons (by decide) _
  exact .line hline.1 hline.2 (significantLine_eq hline.2 htrim (by decide)) hstep

/-! ## Nodes -/

def removedSlots (g : Naive N E) : Nat := g.nodes.countP Option.isNone

variable {style : TextStyle N E} {g : Naive N E}

/-- The label a reader stores in a slot, the empty one when no line declares it. -/
def TextStyle.slotLabel (style : TextStyle N E) (g : Naive N E) (n : Nat) : Text :=
  ((g.node n).map (style.nodeLabel n)).getD []

/-- Whether a line declares the slot. -/
def drawn (g : Naive N E) (n : Nat) : Bool := (g.node n).isSome

/-- The reader once the lines of the nodes below `m` are read. -/
def TextReader.declared (style : TextStyle N E) (g : Naive N E) (m : Nat) : TextReader where
  graph := ⟨(List.range m).map fun n => some (style.slotLabel g n), [], fun _ _ => []⟩
  slots := .upTo (drawn g) m

theorem addNodes_eq {count : Nat} {g : Naive Text Text}
    (h : g.nodes.length + count ≤ Store.maxSlots) :
    addNodes count g = some { g with nodes := g.nodes ++ List.replicate count (some []) } := by
  induction count generalizing g with
  | zero => simp [addNodes]
  | succ count ih =>
    have hadd : g.addNode [] = some { g with nodes := g.nodes ++ [some []] } := by
      unfold Naive.addNode
      rw [if_pos (by omega)]
    rw [addNodes, hadd, Option.bind_some, ih (by simp; omega)]
    simp [replicate_succ]

theorem count_drawn_le (hn : n ≤ g.nodes.length) :
    ((List.range n).map (drawn g)).count false ≤ removedSlots g := by
  have hall : (List.range g.nodes.length).map (drawn g) = g.nodes.map Option.isSome := by
    apply ext_getElem
    · simp
    · intro i hi _
      simp only [getElem_map, getElem_range, drawn, Naive.node]
      rw [getElem?_eq_getElem (by simpa using hi)]
      rfl
  have hsub := (range_sublist.mpr hn).map (drawn g)
  rw [hall] at hsub
  refine (hsub.count_le false).trans_eq ?_
  rw [removedSlots, List.count, countP_map]
  congr 1
  funext slot
  cases slot <;> rfl

theorem reads_node (style : TextStyle N E) (hmn : m ≤ n) (hdead : ∀ i, m ≤ i → i < n → drawn g i = false)
    {data : N} (hn : g.node n = some data) (hholes : removedSlots g ≤ maxHoles)
    (hsize : g.nodes.length ≤ Store.maxSlots) :
    Reads significantLine TextReader.step (.declared style g m)
      (endLine (nodeLine n (style.nodeLabel n data))) (.declared style g (n + 1)) := by
  have hmax : Store.maxSlots < 2 ^ 64 := by decide
  have hlive : drawn g n = true := by
    rw [drawn, hn]
    rfl
  have hlt : n < g.nodes.length := Naive.node_lt hlive
  have hfill := map_range_append (e := some ([] : Text)) (f := fun i => some (style.slotLabel g i)) hmn fun i h₁ h₂ => by
    have hnone : g.node i = none := by simpa [drawn] using hdead i h₁ h₂
    rw [TextStyle.slotLabel, hnone]
    rfl
  have hlabel : style.slotLabel g n = style.nodeLabel n data := by
    rw [TextStyle.slotLabel, hn]
    rfl
  have hn64 : n < 2 ^ 64 := by omega
  refine reads_showNode (plain_nodeLine n _) fun k => ?_
  obtain ⟨tail, hstep, hunescape⟩ :=
    step_nodeLine (.declared style g m) hn64 (style.nodeLabel n data) k
  have hadd : addNodes (n - m) (TextReader.declared style g m).graph = some _ :=
    addNodes_eq (by simp [TextReader.declared]; omega)
  have hnew : Naive.addNode (⟨(List.range n).map fun i => some (style.slotLabel g i), [], fun _ _ => []⟩ :
      Naive Text Text) (style.nodeLabel n data) = some _ := if_pos (by simp; omega)
  refine hstep.trans ?_
  unfold TextReader.readNode
  simp only [hunescape, bind, Except.bind, TextReader.declared]
  rw [Slots.declare_upTo hmn hdead hlive ((count_drawn_le hlt.le).trans hholes)]
  simp only [TextReader.declared] at hadd
  simp only [hadd, orPanic, hfill, hnew, pure, Except.pure]
  simp only [range_succ, map_append, map_singleton, hlabel]

/-- What is written of the nodes below `n` declares every live one of them. -/
theorem reads_nodes (style : TextStyle N E) (hholes : removedSlots g ≤ maxHoles) (hsize : g.nodes.length ≤ Store.maxSlots)
    (n : Nat) : ∃ m, m ≤ n ∧ (∀ i, m ≤ i → i < n → drawn g i = false) ∧
      Reads significantLine TextReader.step .new (((List.range n).filterMap fun i =>
          (g.node i).map fun data => (i, style.nodeLabel i data)).flatMap
            fun node => endLine (nodeLine node.1 node.2)) (.declared style g m) := by
  induction n with
  | zero => exact ⟨0, Nat.le_refl 0, fun i _ hi => absurd hi (Nat.not_lt_zero i), .nil⟩
  | succ n ih =>
    obtain ⟨m, hmn, hdead, hread⟩ := ih
    rw [range_succ, filterMap_append, flatMap_append]
    cases hn : g.node n with
    | none =>
      refine ⟨m, Nat.le_succ_of_le hmn, ?_, ?_⟩
      · intro i hi hlt
        rcases Nat.lt_succ_iff_lt_or_eq.mp hlt with hlt | heq
        · exact hdead i hi hlt
        · rw [heq, drawn, hn]
          rfl
      · simpa [hn] using hread
    | some data =>
      refine ⟨n + 1, Nat.le_refl _, fun i hi hlt => absurd hlt (Nat.not_lt_of_le hi), ?_⟩
      have hline := reads_node style hmn hdead hn hholes hsize
      simpa [hn] using hread.trans hline

/-! ## Edges -/

structure TextReader.Linked (style : TextStyle N E) (g : Naive N E) (m : Nat)
    (done : List (EdgeRecord Text)) (r : TextReader) : Prop where
  wf : r.graph.WF
  nodes : r.graph.nodes = (TextReader.declared style g m).graph.nodes
  edges : r.graph.edges = done.map some
  slots : r.slots = .upTo (drawn g) m

theorem node_declared (hn : n < m) :
    (TextReader.declared style g m).graph.node n = some (style.slotLabel g n) := by
  unfold TextReader.declared Naive.node
  rw [getElem?_map, getElem?_range hn]
  rfl

theorem node_declared_of_le (hn : m ≤ n) : (TextReader.declared style g m).graph.node n = none := by
  unfold TextReader.declared Naive.node
  rw [getElem?_eq_none (by simpa using hn)]
  rfl

theorem linked_declared (m : Nat) : TextReader.Linked style g m [] (.declared style g m) := by
  refine ⟨⟨?_, fun _ _ => nodup_nil, ?_⟩, rfl, rfl, rfl⟩
  · intro d n e
    simp [TextReader.declared, Naive.edge]
  · intro d e record hrecord
    cases hrecord

theorem TextReader.Linked.node_eq {done : List (EdgeRecord Text)} (h : TextReader.Linked style g m done r) (n : Nat) :
    r.graph.node n = (TextReader.declared style g m).graph.node n := by
  unfold Naive.node
  rw [h.nodes]

theorem TextReader.Linked.reads_edge {done : List (EdgeRecord Text)}
    (h : TextReader.Linked style g m done r) (hsize : m ≤ Store.maxSlots)
    (hs : edge.source < m ∧ drawn g edge.source) (ht : edge.target < m ∧ drawn g edge.target)
    (hroom : done.length < Store.maxSlots) :
    ∃ r', Reads significantLine TextReader.step r (endLine (edgeLine edge)) r' ∧
      TextReader.Linked style g m (done ++ [edge]) r' := by
  have hmax : Store.maxSlots < 2 ^ 64 := by decide
  have hlen : r.graph.edges.length = done.length := by
    rw [h.edges, length_map]
  have hnode : ∀ n, n < m → (r.graph.node n).isSome := by
    intro n hn
    rw [h.node_eq, node_declared hn]
    rfl
  obtain ⟨graph, hadd⟩ : ∃ graph, r.graph.addEdge edge.source edge.target edge.payload = some graph := by
    unfold Naive.addEdge
    rw [if_pos ⟨hnode _ hs.1, hnode _ ht.1, hlen.trans_lt hroom⟩]
    exact ⟨_, rfl⟩
  obtain ⟨_, _, hnodes, hedges, _⟩ := Naive.addEdge_spec hadd
  have hcheck : ∀ n, n < m ∧ drawn g n = true → ∀ k, r.slots.checkLive n k = .ok () := by
    intro n hn k
    rw [h.slots]
    exact Slots.checkLive_upTo hn.1 hn.2 k
  refine ⟨⟨graph, r.slots⟩, ?_, ⟨h.wf.addEdge hadd, hnodes.trans h.nodes, ?_, h.slots⟩⟩
  · have hplain := plain_edgeLine edge
    have hstep : ∀ k, r.step k (edgeLine edge) = .ok ⟨graph, r.slots⟩ := fun k =>
      step_edgeLine (by omega) (by omega) k (hcheck _ hs k) (hcheck _ ht k) hadd
    rw [edgeLine_eq] at hplain hstep ⊢
    exact reads_showNode hplain hstep
  · rw [hedges, h.edges, map_append]
    rfl

/-! ## The removed slots -/

theorem edge_removeNode_of_untouched (hg : g.WF)
    (hedges : ∀ e r, g.edge e = some r → r.source ≠ n ∧ r.target ≠ n) (e : Nat) :
    (g.removeNode n).edge e = g.edge e := by
  by_cases hlive : (g.node n).isSome
  · rw [Naive.edge_removeNode hg hlive]
    cases hr : g.edge e with
    | none => rfl
    | some r =>
      obtain ⟨hs, ht⟩ := hedges e r hr
      rw [Option.bind_some, if_neg (not_or.mpr ⟨hs, ht⟩)]
  · unfold Naive.removeNode
    rw [if_neg hlive]

theorem removeNodes_of_untouched (holes : List Nat) (hg : g.WF)
    (hedges : ∀ e r, g.edge e = some r → r.source ∉ holes ∧ r.target ∉ holes) :
    (∀ n, (holes.foldl Naive.removeNode g).node n = if n ∈ holes then none else g.node n) ∧
      (∀ e, (holes.foldl Naive.removeNode g).edge e = g.edge e) ∧
      (holes.foldl Naive.removeNode g).nodes.length = g.nodes.length ∧
      (holes.foldl Naive.removeNode g).edges.length = g.edges.length ∧
      (holes.foldl Naive.removeNode g).WF := by
  induction holes generalizing g with
  | nil => exact ⟨fun n => by simp, fun e => rfl, rfl, rfl, hg⟩
  | cons n holes ih =>
    have hedge : ∀ e, (g.removeNode n).edge e = g.edge e :=
      edge_removeNode_of_untouched hg fun e r hr => by
        obtain ⟨hs, ht⟩ := hedges e r hr
        exact ⟨fun hn => hs (hn ▸ mem_cons_self), fun hn => ht (hn ▸ mem_cons_self)⟩
    obtain ⟨hnode', hedge', hnodes', hlen', hwf'⟩ := ih (hg.removeNode n) fun e r hr => by
      rw [hedge] at hr
      obtain ⟨hs, ht⟩ := hedges e r hr
      exact ⟨fun hn => hs (mem_cons_of_mem n hn), fun hn => ht (mem_cons_of_mem n hn)⟩
    refine ⟨?_, fun e => (hedge' e).trans (hedge e), ?_, ?_, hwf'⟩
    · intro i
      rw [foldl_cons, hnode', Naive.node_removeNode]
      by_cases h₁ : i ∈ holes <;> by_cases h₂ : i = n <;> simp [h₁, h₂]
    · rw [foldl_cons, hnodes', Naive.length_nodes_removeNode]
    · rw [foldl_cons, hlen', Naive.length_edges_removeNode]

/-! ## The round trip -/

theorem filterMap_range_getElem? {α : Type} (l : List α) :
    ((List.range l.length).filterMap fun i => l[i]?) = l := by
  induction l using List.reverseRecOn with
  | nil => rfl
  | append_singleton l a ih =>
    have hcongr : ((List.range l.length).filterMap fun i => (l ++ [a])[i]?) = l := by
      refine (filterMap_congr fun i hi => ?_).trans ih
      exact getElem?_append_left (mem_range.mp hi)
    rw [length_append, length_singleton, range_succ, filterMap_append, hcongr]
    simp

theorem filterMap_range_eq {α : Type} {f : Nat → Option α} (hmn : m ≤ n)
    (hnone : ∀ i, m ≤ i → f i = none) : (List.range m).filterMap f = (List.range n).filterMap f := by
  obtain ⟨d, rfl⟩ := Nat.exists_eq_add_of_le hmn
  rw [range_add, filterMap_append, self_eq_append_right, filterMap_eq_nil_iff]
  intro i hi
  obtain ⟨j, _, rfl⟩ := mem_map.mp hi
  exact hnone _ (Nat.le_add_right m j)

theorem mem_edges (h : edge ∈ style.edges g) :
    ∃ e record, g.edge e = some record ∧ edge.source = record.source ∧ edge.target = record.target := by
  obtain ⟨e, _, he⟩ := mem_filterMap.mp h
  obtain ⟨record, hrecord, heq⟩ := Option.map_eq_some_iff.mp he
  subst heq
  exact ⟨e, record, hrecord, rfl, rfl⟩

theorem length_edges_le (style : TextStyle N E) (g : Naive N E) : (style.edges g).length ≤ g.edges.length := by
  unfold TextStyle.edges
  exact (length_filterMap_le _ _).trans_eq length_range

/-- A store that holds the labels of `g` is written as `g` is. -/
theorem display_eq {g' : Naive Text Text} (hnodes : g'.nodes.length ≤ g.nodes.length)
    (hnode : ∀ n, g'.node n = (g.node n).map (style.nodeLabel n))
    (hedges : g'.edges.length = (style.edges g).length)
    (hedge : ∀ e, g'.edge e = (style.edges g)[e]?) :
    TextStyle.display.nodes g' = style.nodes g ∧ TextStyle.display.edges g' = style.edges g := by
  constructor
  · have hsame : ∀ n, (g'.node n).map (fun label => (n, label)) =
        (g.node n).map fun data => (n, style.nodeLabel n data) := by
      intro n
      rw [hnode, Option.map_map]
      rfl
    refine (filterMap_range_eq hnodes fun n hn => ?_).trans
      (filterMap_congr fun n _ => hsame n)
    have hnone : g'.node n = none := by
      by_contra hsome
      have := Naive.node_lt (Option.isSome_iff_ne_none.mpr hsome)
      omega
    change (g'.node n).map _ = none
    rw [hnone]
    rfl
  · have hsame : ∀ e, (g'.edge e).map (fun record =>
        (⟨record.source, record.target, record.payload⟩ : EdgeRecord Text)) = (style.edges g)[e]? := by
      intro e
      rw [hedge]
      exact Option.map_id'
    unfold TextStyle.edges at hsame hedges ⊢
    simp only [TextStyle.display, hsame, hedges, filterMap_range_getElem?]

/-- A store whose slot 0 is removed and whose labels look like structure. -/
def trickyStore : Naive Text Text :=
  (Naive.ofParts ["gone".toList, " -> n2\r\n\\".toList, [], "#-".toList]
    [⟨1, 0, []⟩, ⟨1, 3, "-> n1 \n".toList⟩, ⟨3, 3, []⟩]).removeNode 0

end CfgLib

import CfgLib.Cfg.RoundTrip
import CfgLib.Transform.Rotate

/-!
# Subgraph extraction

`cfg/subgraph.rs`: a copy of the selected blocks and of the edges between them, with the
record of what each old identity became.  A block that is listed twice is copied twice, and
only its last copy takes part in the rest.
-/

namespace CfgLib

open CfgLib.Lib Cfg List Function

variable {ι π : Type}

/-- A copy under construction, the dense table of new blocks, and the record. -/
structure Extraction (ι π : Type) where
  cfg : Cfg ι π
  idMap : Nat → Option Nat
  mapping : Rewrite

namespace Extraction

/-- Append the instructions of a block to a block of another graph, and set its label. -/
def copyBlock (source target : Cfg ι π) (old new : Nat) : Option (Cfg ι π) :=
  (source.block old).map fun original => target.modifyBlock new fun block =>
    ⟨block.instructions ++ original.instructions, original.label.or block.label⟩

def start (c : Cfg ι π) (first : Nat) : Option (Extraction ι π) :=
  (copyBlock c Cfg.new first (Cfg.new : Cfg ι π).entry).map fun cfg =>
    ⟨cfg, update (fun _ => none) first (some cfg.entry),
      (Rewrite.new.recordBlock first [cfg.entry]).recordCreatedBlock cfg.entry⟩

def select (c : Cfg ι π) (s : Extraction ι π) (old : Nat) : Option (Extraction ι π) :=
  s.cfg.newBlock.bind fun (new, cfg) => (copyBlock c cfg old new).map fun cfg =>
    ⟨cfg, update s.idMap old (some new), (s.mapping.recordBlock old [new]).recordCreatedBlock new⟩

def addEdge (cfg : Cfg ι π) (source target : Nat) (edge : Edge π) : Option (Nat × Cfg ι π) :=
  (cfg.addEdgeWithPayload source target edge.kind edge.payload).map fun (new, cfg) =>
    match edge.weight with
    | some weight => (new, cfg.modifyEdge new fun added => ⟨added.kind, some weight, added.payload⟩)
    | none => (new, cfg)

/-- Copy an edge whose ends are both selected; any other is recorded as gone. -/
def join (c : Cfg ι π) (s : Extraction ι π) (e : Nat) : Option (Extraction ι π) :=
  (c.edge e).bind fun r =>
    match s.idMap r.source, s.idMap r.target with
    | some source, some target => (addEdge s.cfg source target r.payload).map fun (new, cfg) =>
        ⟨cfg, s.idMap, (s.mapping.recordEdge e [new]).recordCreatedEdge new⟩
    | _, _ => some ⟨s.cfg, s.idMap, s.mapping.recordEdge e []⟩

end Extraction

def Rewrite.recordGone (mapping : Rewrite) (blocks : List Nat) : Rewrite :=
  blocks.foldl (fun mapping b => mapping.recordBlock b []) mapping

def Cfg.subgraphMapped (c : Cfg ι π) : List Nat → Option (Cfg ι π × Rewrite)
  | [] => some (new, (((Rewrite.new.recordGone c.blockIds).recordRemoved c.edgeIds).recordCreatedBlock
      (new : Cfg ι π).entry))
  | first :: rest => do
    let s ← Extraction.start c first
    let s ← rest.foldlM (Extraction.select c) s
    let s ← c.edgeIds.foldlM (Extraction.join c) s
    some (s.cfg, s.mapping.recordGone (c.blockIds.filter fun b => (s.idMap b).isNone))

/-! ## The induced subgraph -/

/-- Both ends of an edge are listed. -/
def Cfg.inside (c : Cfg ι π) (blocks : List Nat) (e : Nat) : Bool :=
  (c.edge e).any fun r => blocks.contains r.source && blocks.contains r.target

/-- The edges between listed blocks, in identity order. -/
def Cfg.insideEdges (c : Cfg ι π) (blocks : List Nat) : List Nat := c.edgeIds.filter (c.inside blocks)

def renumberEdge (number : Nat → Nat) (r : Store.EdgeRecord (Edge π)) : Store.EdgeRecord (Edge π) :=
  ⟨number r.source, number r.target, r.payload⟩

/-- The graph `c'` is the subgraph of `c` induced by the listed blocks, the first of them its
entry, and the record tells each old identity what became of it. -/
structure Induced (c : Cfg ι π) (blocks : List Nat) (c' : Cfg ι π) (mapping : Rewrite) (number : Nat → Nat) : Prop where
  wf : c'.WF
  mapped : ∀ b ∈ blocks, mapping.blocks b = some [number b]
  injective : ∀ a ∈ blocks, ∀ b ∈ blocks, number a = number b → a = b
  onto : ∀ n, c'.containsBlock n ↔ ∃ b ∈ blocks, number b = n
  entry : ∀ first, blocks.head? = some first → number first = c'.entry
  contents : ∀ b ∈ blocks, c'.block (number b) = c.block b
  /-- Each kept edge, in identity order, under the next identity. -/
  kept : ∀ k e, (c.insideEdges blocks)[k]? = some e →
    mapping.edges e = some [k] ∧ c'.edge k = (c.edge e).map (renumberEdge number)
  edgeBound : c'.edgeBound = (c.insideEdges blocks).length
  goneBlocks : ∀ b, c.containsBlock b → b ∉ blocks → mapping.blocks b = some []
  goneEdges : ∀ e, c.containsEdge e → c.inside blocks e = false → mapping.edges e = some []
  unmentioned : ∀ b, ¬ c.containsBlock b → mapping.blocks b = none
  unmentionedEdges : ∀ e, ¬ c.containsEdge e → mapping.edges e = none
  createdBlocks : mapping.createdBlocks = c'.blockIds
  createdEdges : mapping.createdEdges = c'.edgeIds
  regions : c'.regions = []
  cleanups : c'.cleanups = []

def Cfg.Follows (c : Cfg ι π) : Nat → List Nat → Prop
  | _, [] => True
  | b, e :: es => ∃ r, c.edge e = some r ∧ r.source = b ∧ c.Follows r.target es

/-- The walks of `c'` from its entry are the walks of `c` that stay among the listed blocks. -/
def SameWalks (c : Cfg ι π) (blocks : List Nat) (c' : Cfg ι π) (mapping : Rewrite) : Prop :=
  ∀ first, blocks.head? = some first → ∀ path', c'.Follows c'.entry path' ↔
    ∃ path, c.Follows first path ∧ (∀ e ∈ path, c.inside blocks e) ∧
      List.Forall₂ (fun e e' => mapping.edges e = some [e']) path path'

namespace Extraction

variable {c : Cfg ι π}

/-! ## The blocks -/

theorem pushUnique_range (n : Nat) : pushUnique (List.range n) n = List.range (n + 1) := by
  rw [pushUnique, if_neg (by simp), range_succ]

variable {cfg : Cfg ι π} {done : List Nat} {e first new old source target : Nat}

theorem copyBlock_spec {source target : Cfg ι π} (htarget : target.WF)
    (hs : copyBlock source target old new = some cfg) (hempty : target.block new = some ⟨[], none⟩) :
    cfg.WF ∧ SameFrame target cfg ∧ cfg.blockBound = target.blockBound ∧ cfg.edgeBound = target.edgeBound ∧
      (∀ e, cfg.edge e = target.edge e) ∧ source.containsBlock old ∧
      ∀ i, cfg.block i = if i = new then source.block old else target.block i := by
  obtain ⟨original, horiginal, rfl⟩ := Option.map_eq_some_iff.mp hs
  refine ⟨htarget.modifyBlock _ _, ⟨rfl, rfl, rfl⟩, blockBound_modifyBlock _ _ _, rfl, fun _ => rfl, ?_, fun i => ?_⟩
  · rw [containsBlock, horiginal]
    rfl
  · rw [block_modifyBlock]
    by_cases hi : i = new
    · rw [if_pos hi, if_pos hi, hi, hempty, horiginal]
      simp
    · rw [if_neg hi, if_neg hi]

structure Selecting (c : Cfg ι π) (done : List Nat) (s : Extraction ι π) : Prop where
  wf : s.cfg.WF
  entry : s.cfg.entry = 0
  regions : s.cfg.regions = []
  cleanups : s.cfg.cleanups = []
  bound : s.cfg.blockBound = done.length
  block : ∀ (j b : Nat), done[j]? = some b → s.cfg.block j = c.block b ∧ c.containsBlock b
  edge : ∀ e, s.cfg.edge e = none
  edgeBound : s.cfg.edgeBound = 0
  idMap_none : ∀ b, b ∉ done → s.idMap b = none
  idMap_some : ∀ b ∈ done, ∃ j, done[j]? = some b ∧ s.idMap b = some j
  blocks : ∀ b, s.mapping.blocks b = (s.idMap b).map fun new => [new]
  edges : ∀ e, s.mapping.edges e = none
  createdBlocks : s.mapping.createdBlocks = List.range done.length
  createdEdges : s.mapping.createdEdges = []

theorem wf_new : (Cfg.new : Cfg ι π).WF := by
  have hadd : (Store.Naive.empty : Store.Naive (BasicBlock ι) (Edge π)).addNode ⟨[], none⟩ =
      some (Cfg.new : Cfg ι π).graph := rfl
  exact ⟨Store.Naive.wf_empty.addNode hadd, rfl⟩

variable {s : Extraction ι π}

theorem selecting_start (hs : start c first = some s) : Selecting c [first] s := by
  obtain ⟨cfg, hcopy, rfl⟩ := Option.map_eq_some_iff.mp hs
  obtain ⟨hwf, hframe, hbound, hedges, hedge, hlive, hblock⟩ := copyBlock_spec wf_new hcopy rfl
  have hentry : cfg.entry = 0 := hframe.entry
  refine ⟨hwf, hentry, hframe.regions, hframe.cleanups, hbound, ?_, fun e => (hedge e).trans rfl, hedges, ?_, ?_, ?_,
    fun _ => rfl, ?_, rfl⟩
  · intro j b hj
    cases j with
    | zero =>
      obtain rfl : first = b := by simpa using hj
      exact ⟨(hblock 0).trans (if_pos rfl), hlive⟩
    | succ j => simp at hj
  · intro b hb
    have hne : b ≠ first := by simpa using hb
    simp only [update_of_ne hne]
  · intro b hb
    obtain rfl : b = first := by simpa using hb
    exact ⟨0, rfl, by simp only [update_self, hentry]⟩
  · intro b
    by_cases hb : b = first
    · subst hb
      simp [Rewrite.recordBlock, Rewrite.recordCreatedBlock, unique_singleton]
    · simp [Rewrite.recordBlock, Rewrite.recordCreatedBlock, Rewrite.new, hb]
  · simp [Rewrite.recordBlock, Rewrite.recordCreatedBlock, Rewrite.new, hentry, pushUnique]

theorem getElem?_concat {α : Type} (l : List α) (a : α) (j : Nat) :
    (l ++ [a])[j]? = if j = l.length then some a else l[j]? := by
  by_cases hj : j = l.length
  · rw [if_pos hj, hj, getElem?_concat_length]
  · rw [if_neg hj]
    rcases Nat.lt_or_gt_of_ne hj with hlt | hgt
    · exact getElem?_append_left hlt
    · rw [getElem?_eq_none (by simp; omega), getElem?_eq_none (by omega)]

variable {s' : Extraction ι π} {blocks rest : List Nat}

theorem Selecting.step (h : Selecting c done s) (hs : select c s old = some s') : Selecting c (done ++ [old]) s' := by
  obtain ⟨⟨new, cfg₁⟩, hnew, hs⟩ := Option.bind_eq_some_iff.mp hs
  obtain ⟨cfg, hcopy, rfl⟩ := Option.map_eq_some_iff.mp hs
  obtain ⟨rfl, hwf₁, hframe₁, hblock₁, hedge₁, hbound₁, hedges₁⟩ := newBlock_spec h.wf hnew
  obtain ⟨hwf, hframe, hbound, hedges, hedge, hlive, hblock⟩ :=
    copyBlock_spec hwf₁ hcopy ((hblock₁ _).trans (if_pos rfl))
  have hlen := h.bound
  have hsame := hframe₁.trans hframe
  refine ⟨hwf, hsame.entry.trans h.entry, hsame.regions.trans h.regions, hsame.cleanups.trans h.cleanups, ?_, ?_, ?_,
    ?_, ?_, ?_, ?_, h.edges, ?_, h.createdEdges⟩
  · rw [hbound, hbound₁, hlen, length_append, length_singleton]
  · intro j b hj
    rw [getElem?_concat] at hj
    rw [hblock, hlen]
    split at hj
    · next hj' =>
      obtain rfl := Option.some.inj hj
      exact ⟨if_pos hj', hlive⟩
    · next hj' =>
      rw [if_neg hj', hblock₁, hlen, if_neg hj']
      exact h.block j b hj
  · exact fun e => (hedge e).trans ((hedge₁ e).trans (h.edge e))
  · exact hedges.trans (hedges₁.trans h.edgeBound)
  · intro b hb
    rw [mem_append, mem_singleton, not_or] at hb
    exact (update_of_ne hb.2 _ _).trans (h.idMap_none b hb.1)
  · intro b hb
    by_cases hold : b = old
    · subst hold
      exact ⟨done.length, getElem?_concat_length, by simp only [update_self, hlen]⟩
    · have hb' : b ∈ done := (mem_append.mp hb).resolve_right fun hc => hold (mem_singleton.mp hc)
      obtain ⟨j, hj, hmap⟩ := h.idMap_some b hb'
      refine ⟨j, ?_, (update_of_ne hold _ _).trans hmap⟩
      rw [getElem?_concat, if_neg (Nat.ne_of_lt (List.getElem?_eq_some_iff.mp hj).1)]
      exact hj
  · intro b
    by_cases hb : b = old
    · subst hb
      simp [Rewrite.recordBlock, Rewrite.recordCreatedBlock, unique_singleton]
    · simp [Rewrite.recordBlock, Rewrite.recordCreatedBlock, hb, h.blocks b]
  · rw [length_append, length_singleton, ← pushUnique_range, ← h.createdBlocks, ← hlen]
    rfl

theorem Selecting.exists_select (h : Selecting c done s)
    (hroom : done.length < Store.maxSlots) (hlive : c.containsBlock old) : ∃ s', select c s old = some s' := by
  obtain ⟨original, horiginal⟩ := Option.isSome_iff_exists.mp hlive
  have hadd : ∃ graph, s.cfg.graph.addNode ⟨[], none⟩ = some graph := by
    unfold Store.Naive.addNode
    rw [if_pos (show s.cfg.graph.nodes.length < Store.maxSlots by rw [← h.bound] at hroom; exact hroom)]
    exact ⟨_, rfl⟩
  obtain ⟨graph, hgraph⟩ := hadd
  rw [← Option.isSome_iff_exists]
  simp [select, newBlock, copyBlock, hgraph, horiginal]

theorem selecting_run (hs : start c first = some s)
    (hrun : rest.foldlM (select c) s = some s') : Selecting c (first :: rest) s' := by
  have hfold := foldlM_option (I := fun done s => Selecting c (first :: done) s)
    (fun done old s s' h hstep => h.step hstep) (selecting_start hs) hrun
  exact hfold

theorem exists_selected (hroom : (first :: rest).length ≤ Store.maxSlots)
    (hlive : ∀ b ∈ first :: rest, c.containsBlock b) :
    ∃ s s', start c first = some s ∧ rest.foldlM (select c) s = some s' ∧ Selecting c (first :: rest) s' := by
  obtain ⟨original, horiginal⟩ := Option.isSome_iff_exists.mp (hlive first mem_cons_self)
  have hstart : ∃ s, start c first = some s := by
    rw [← Option.isSome_iff_exists]
    simp [start, copyBlock, horiginal]
  obtain ⟨s, hs⟩ := hstart
  obtain ⟨s', hrun, h⟩ := foldlM_option_total (I := fun done s => Selecting c (first :: done) s) (l := rest)
    (fun done old after s hl h => by
      have hlen : (first :: done).length < Store.maxSlots := by
        rw [hl] at hroom
        simp only [length_cons, length_append] at hroom ⊢
        omega
      have hold : c.containsBlock old := hlive old (by rw [hl]; simp)
      obtain ⟨s', hs'⟩ := h.exists_select hlen hold
      exact ⟨s', hs', h.step hs'⟩) (selecting_start hs)
  exact ⟨s, s', hs, hrun, h⟩

/-! ## The edges -/

theorem addEdge_spec {cfg' : Cfg ι π} {edge : Edge π} (h : cfg.WF)
    (hs : addEdge cfg source target edge = some (new, cfg')) :
    new = cfg.edgeBound ∧ cfg'.WF ∧ SameFrame cfg cfg' ∧ (∀ i, cfg'.block i = cfg.block i) ∧
      (∀ i, cfg'.edge i = if i = cfg.edgeBound then some ⟨source, target, edge⟩ else cfg.edge i) ∧
      cfg'.blockBound = cfg.blockBound ∧ cfg'.edgeBound = cfg.edgeBound + 1 := by
  obtain ⟨⟨new', cfg₁⟩, hadd, heq⟩ := Option.map_eq_some_iff.mp hs
  obtain ⟨rfl, hwf, hframe, hblock, hedge, hbound, hedges⟩ := addEdgeWithPayload_spec h hadd
  obtain ⟨kind, weight, payload⟩ := edge
  cases weight with
  | none =>
    cases heq
    exact ⟨rfl, hwf, hframe, hblock, hedge, hbound, hedges⟩
  | some weight =>
    cases heq
    refine ⟨rfl, Transform.wf_modifyEdge hwf _ _, ⟨hframe.entry, hframe.regions, hframe.cleanups⟩, hblock,
      fun i => ?_, hbound, ?_⟩
    · rw [Transform.edge_modifyEdge, hedge]
      by_cases hi : i = cfg.edgeBound
      · simp [hi]
      · simp [hi]
    · simp only [edgeBound, modifyEdge, length_modify]
      exact hedges

theorem exists_addEdge (edge : Edge π) (hsource : cfg.containsBlock source)
    (htarget : cfg.containsBlock target) (hroom : cfg.edgeBound < Store.maxSlots) :
    ∃ result, addEdge cfg source target edge = some result := by
  have hadd : (cfg.addEdgeWithPayload source target edge.kind edge.payload).isSome := by
    unfold addEdgeWithPayload Store.Naive.addEdge
    rw [if_pos ⟨hsource, htarget, hroom⟩]
    rfl
  obtain ⟨added, hadded⟩ := Option.isSome_iff_exists.mp hadd
  exact ⟨_, by rw [addEdge, hadded]; rfl⟩

/-- Both ends of an edge have been selected. -/
def links (c : Cfg ι π) (idMap : Nat → Option Nat) (e : Nat) : Bool :=
  (c.edge e).any fun r => (idMap r.source).isSome && (idMap r.target).isSome

/-- The new identity of a block, where it has one. -/
def numberOf (idMap : Nat → Option Nat) (b : Nat) : Nat := (idMap b).getD 0

/-- The edges `done` have been copied or recorded as gone. -/
structure Joining (c : Cfg ι π) (s₀ : Extraction ι π) (done : List Nat) (s : Extraction ι π) : Prop where
  wf : s.cfg.WF
  frame : SameFrame s₀.cfg s.cfg
  block : ∀ i, s.cfg.block i = s₀.cfg.block i
  bound : s.cfg.blockBound = s₀.cfg.blockBound
  idMap : s.idMap = s₀.idMap
  edgeBound : s.cfg.edgeBound = (done.filter (links c s₀.idMap)).length
  kept : ∀ (k e : Nat), (done.filter (links c s₀.idMap))[k]? = some e →
    s.mapping.edges e = some [k] ∧ s.cfg.edge k = (c.edge e).map (renumberEdge (numberOf s₀.idMap))
  gone : ∀ e ∈ done, links c s₀.idMap e = false → s.mapping.edges e = some []
  unmentioned : ∀ e, e ∉ done → s.mapping.edges e = none
  blocks : s.mapping.blocks = s₀.mapping.blocks
  createdBlocks : s.mapping.createdBlocks = s₀.mapping.createdBlocks
  createdEdges : s.mapping.createdEdges = List.range (done.filter (links c s₀.idMap)).length

variable {s₀ s s' : Extraction ι π}

theorem Joining.skip (h : Joining c s₀ done s) (hnew : e ∉ done) (hlinks : links c s₀.idMap e = false) :
    Joining c s₀ (done ++ [e]) ⟨s.cfg, s.idMap, s.mapping.recordEdge e []⟩ := by
  have hfilter : (done ++ [e]).filter (links c s₀.idMap) = done.filter (links c s₀.idMap) := by
    simp [hlinks]
  have hother : ∀ e', e' ≠ e → (s.mapping.recordEdge e []).edges e' = s.mapping.edges e' := fun e' hne =>
    update_of_ne hne _ _
  refine ⟨h.wf, h.frame, h.block, h.bound, h.idMap, ?_, ?_, ?_, ?_, h.blocks, h.createdBlocks, ?_⟩
  · rw [hfilter]
    exact h.edgeBound
  · intro k e' hk
    rw [hfilter] at hk
    have hmem := (mem_filter.mp (mem_of_getElem? hk)).1
    have hne : e' ≠ e := fun heq => hnew (heq ▸ hmem)
    exact ⟨(hother e' hne).trans (h.kept k e' hk).1, (h.kept k e' hk).2⟩
  · intro e' he' hgone
    by_cases heq : e' = e
    · subst heq
      exact (update_self _ _ _).trans (by rw [unique_nil])
    · have hmem : e' ∈ done := (mem_append.mp he').resolve_right fun hc => heq (mem_singleton.mp hc)
      exact (hother e' heq).trans (h.gone e' hmem hgone)
  · intro e' he'
    rw [mem_append, mem_singleton, not_or] at he'
    exact (hother e' he'.2).trans (h.unmentioned e' he'.1)
  · rw [hfilter]
    exact h.createdEdges

theorem Joining.add {r : Store.EdgeRecord (Edge π)}
    (h : Joining c s₀ done s) (hnew : e ∉ done) (hr : c.edge e = some r) (hsource : s₀.idMap r.source = some source)
    (htarget : s₀.idMap r.target = some target) (hadd : addEdge s.cfg source target r.payload = some (new, cfg)) :
    Joining c s₀ (done ++ [e]) ⟨cfg, s.idMap, (s.mapping.recordEdge e [new]).recordCreatedEdge new⟩ := by
  obtain ⟨rfl, hwf, hframe, hblock, hedge, hbound, hedges⟩ := addEdge_spec h.wf hadd
  have hlinks : links c s₀.idMap e = true := by
    simp [links, hr, hsource, htarget]
  have hfilter : (done ++ [e]).filter (links c s₀.idMap) = done.filter (links c s₀.idMap) ++ [e] := by
    simp [hlinks]
  have hlen := h.edgeBound
  have hother : ∀ e', e' ≠ e → ((s.mapping.recordEdge e [s.cfg.edgeBound]).recordCreatedEdge s.cfg.edgeBound).edges e' =
      s.mapping.edges e' := fun e' hne => update_of_ne hne _ _
  refine ⟨hwf, h.frame.trans hframe, fun i => (hblock i).trans (h.block i), hbound.trans h.bound, h.idMap, ?_, ?_, ?_, ?_,
    h.blocks, h.createdBlocks, ?_⟩
  · rw [hfilter, hedges, hlen, length_append, length_singleton]
  · intro k e' hk
    rw [hfilter, getElem?_concat] at hk
    split at hk
    · next hk' =>
      obtain rfl := Option.some.inj hk
      refine ⟨(update_self _ _ _).trans (by rw [unique_singleton, hlen, hk']), ?_⟩
      rw [hedge, hlen, if_pos hk', hr]
      simp [renumberEdge, numberOf, hsource, htarget]
    · next hk' =>
      have hmem := (mem_filter.mp (mem_of_getElem? hk)).1
      have hne : e' ≠ e := fun heq => hnew (heq ▸ hmem)
      refine ⟨(hother e' hne).trans (h.kept k e' hk).1, ?_⟩
      rw [hedge, hlen, if_neg hk']
      exact (h.kept k e' hk).2
  · intro e' he' hgone
    have hne : e' ≠ e := fun heq => by rw [heq, hlinks] at hgone; cases hgone
    have hmem : e' ∈ done := (mem_append.mp he').resolve_right fun hc => hne (mem_singleton.mp hc)
    exact (hother e' hne).trans (h.gone e' hmem hgone)
  · intro e' he'
    rw [mem_append, mem_singleton, not_or] at he'
    exact (hother e' he'.2).trans (h.unmentioned e' he'.1)
  · rw [hfilter, length_append, length_singleton, ← pushUnique_range, ← h.createdEdges, ← hlen]
    rfl

theorem Joining.step (h : Joining c s₀ done s) (hnew : e ∉ done)
    (hs : join c s e = some s') : Joining c s₀ (done ++ [e]) s' := by
  obtain ⟨r, hr, hs⟩ := Option.bind_eq_some_iff.mp hs
  rw [h.idMap] at hs
  split at hs
  · next source target hsource htarget =>
    obtain ⟨⟨new, cfg⟩, hadd, rfl⟩ := Option.map_eq_some_iff.mp hs
    have hadded := h.add hnew hr hsource htarget hadd
    rw [h.idMap] at hadded
    exact hadded
  · next hnone =>
    cases hs
    have hskip := h.skip (e := e) hnew ?_
    · rw [h.idMap] at hskip
      exact hskip
    · simp only [links, hr, Option.any_some, Bool.and_eq_false_iff]
      by_contra hc
      simp only [not_or, Bool.not_eq_false] at hc
      obtain ⟨source, hsource⟩ := Option.isSome_iff_exists.mp hc.1
      obtain ⟨target, htarget⟩ := Option.isSome_iff_exists.mp hc.2
      exact hnone source target hsource htarget

theorem Selecting.joining (h : Selecting c done s) : Joining c s [] s := by
  refine ⟨h.wf, ⟨rfl, rfl, rfl⟩, fun _ => rfl, rfl, rfl, h.edgeBound, ?_, ?_, fun e _ => h.edges e, rfl, rfl, h.createdEdges⟩
  · intro k e hk
    cases hk
  · intro e he
    cases he

theorem nodup_edgeIds (c : Cfg ι π) : c.edgeIds.Nodup := nodup_range.filter _

theorem joining_run (h : Selecting c blocks s) (hrun : c.edgeIds.foldlM (join c) s = some s') :
    Joining c s c.edgeIds s' := by
  have hfold := foldlM_option (I := fun done s' => done.Nodup → Joining c s done s')
    (fun done e s₁ s₂ ih hstep hnodup => by
      rw [nodup_append] at hnodup
      refine (ih hnodup.1).step (fun hmem => ?_) hstep
      exact hnodup.2.2 e hmem e (mem_singleton_self e) rfl)
    (fun _ => h.joining) hrun
  exact hfold (nodup_edgeIds c)

theorem exists_joined (h : Selecting c blocks s) (hroom : c.edgeBound ≤ Store.maxSlots) :
    ∃ s', c.edgeIds.foldlM (join c) s = some s' := by
  obtain ⟨s', hs', -⟩ := foldlM_option_total (I := fun done s' => Joining c s done s') (l := c.edgeIds)
    (fun done e after s₁ hl ih => by
      have hnodup := nodup_edgeIds c
      rw [hl, nodup_append] at hnodup
      have hnew : e ∉ done := fun hmem => hnodup.2.2 e hmem e mem_cons_self rfl
      have hex : ∃ s₂, join c s₁ e = some s₂ := by
        have hmem : e ∈ c.edgeIds := by simp [hl]
        obtain ⟨r, hr⟩ := Option.isSome_iff_exists.mp (mem_filter.mp hmem).2
        have hlive : ∀ b new, s.idMap b = some new → s₁.cfg.containsBlock new := fun b new hb => by
          have hmem : b ∈ blocks := by
            by_contra hc
            rw [h.idMap_none b hc] at hb
            cases hb
          obtain ⟨j, hj, hmap⟩ := h.idMap_some b hmem
          obtain rfl : j = new := by rw [hb] at hmap; exact (Option.some.inj hmap).symm
          rw [containsBlock, ih.block, (h.block j b hj).1]
          exact (h.block j b hj).2
        have hlen : s₁.cfg.edgeBound < Store.maxSlots := by
          have hids : c.edgeIds.length ≤ c.edgeBound := by
            refine (length_filter_le _ _).trans ?_
            rw [length_range]
          have hdone := length_filter_le (links c s.idMap) done
          rw [hl, length_append, length_cons] at hids
          rw [ih.edgeBound]
          omega
        unfold join
        rw [hr, ih.idMap]
        simp only [Option.bind_some]
        split
        · next source target hsource htarget =>
          obtain ⟨result, hresult⟩ := exists_addEdge r.payload (hlive _ _ hsource) (hlive _ _ htarget) hlen
          exact ⟨_, by rw [hresult]; rfl⟩
        · exact ⟨_, rfl⟩
      obtain ⟨s₂, hs₂⟩ := hex
      exact ⟨s₂, hs₂, ih.step hnew hs₂⟩) h.joining
  exact ⟨s', hs'⟩

end Extraction

/-! ## The record of what is gone -/

theorem Rewrite.recordGone_spec (mapping : Rewrite) (gone : List Nat) :
    (∀ b, (mapping.recordGone gone).blocks b = if b ∈ gone then some [] else mapping.blocks b) ∧
      (mapping.recordGone gone).edges = mapping.edges ∧
      (mapping.recordGone gone).createdBlocks = mapping.createdBlocks ∧
      (mapping.recordGone gone).createdEdges = mapping.createdEdges := by
  induction gone generalizing mapping with
  | nil => exact ⟨fun _ => rfl, rfl, rfl, rfl⟩
  | cons a gone ih =>
    obtain ⟨hblocks, hedges, hcreated, hcreatedEdges⟩ := ih (mapping.recordBlock a [])
    refine ⟨fun b => (hblocks b).trans ?_, hedges, hcreated, hcreatedEdges⟩
    by_cases hb : b ∈ gone
    · simp [hb]
    · by_cases ha : b = a
      · subst ha
        simp [hb, Rewrite.recordBlock, unique_nil]
      · simp [hb, ha, Rewrite.recordBlock]

/-! ## The whole -/

section Whole

variable {c c' : Cfg ι π} {blocks : List Nat} {mapping : Rewrite} {s s' : Extraction ι π}

open Extraction

theorem Extraction.Selecting.isSome_iff (h : Selecting c blocks s) (b : Nat) : (s.idMap b).isSome = blocks.contains b := by
  by_cases hb : b ∈ blocks
  · obtain ⟨j, _, hmap⟩ := h.idMap_some b hb
    simp [hb, hmap]
  · simp [hb, h.idMap_none b hb]

variable {e n : Nat} {r : Store.EdgeRecord (Edge π)}

theorem Extraction.Selecting.number (h : Selecting c blocks s) (hnodup : blocks.Nodup) {b : Nat}
    (hn : blocks[n]? = some b) : s.idMap b = some n := by
  obtain ⟨j, hj, hmap⟩ := h.idMap_some b (mem_of_getElem? hn)
  obtain ⟨hlt, -⟩ := List.getElem?_eq_some_iff.mp hj
  rw [hmap, (getElem?_inj hlt hnodup).mp (hj.trans hn.symm)]

theorem Extraction.links_eq_inside (h : Selecting c blocks s) : links c s.idMap = c.inside blocks := by
  funext e
  unfold links Cfg.inside
  congr 1
  funext r
  rw [h.isSome_iff, h.isSome_iff]

theorem Extraction.Joining.contains_iff (h : Selecting c blocks s) (h' : Joining c s c.edgeIds s') (n : Nat) :
    s'.cfg.containsBlock n ↔ n < blocks.length := by
  constructor
  · intro hn
    have := block_lt hn
    rwa [h'.bound, h.bound] at this
  · intro hn
    obtain ⟨hblock, hlive⟩ := h.block n _ (getElem?_eq_getElem hn)
    rw [containsBlock, h'.block, hblock]
    exact hlive

theorem filter_range_all {p : Nat → Bool} (h : ∀ i < n, p i = true) : (List.range n).filter p = List.range n :=
  filter_eq_self.mpr fun i hi => h i (mem_range.mp hi)

theorem Extraction.Joining.induced (hnodup : blocks.Nodup) (h : Selecting c blocks s) (h' : Joining c s c.edgeIds s') :
    Induced c blocks s'.cfg (s'.mapping.recordGone (c.blockIds.filter fun b => (s'.idMap b).isNone))
      (numberOf s.idMap) := by
  obtain ⟨hblocks, hedges, hcreated, hcreatedEdges⟩ :=
    s'.mapping.recordGone_spec (c.blockIds.filter fun b => (s'.idMap b).isNone)
  have hgone : ∀ b, b ∈ c.blockIds.filter (fun b => (s'.idMap b).isNone) ↔ c.containsBlock b ∧ b ∉ blocks := by
    intro b
    have := h.isSome_iff b
    rw [mem_filter, mem_blockIds, h'.idMap]
    by_cases hb : b ∈ blocks
    · obtain ⟨j, _, hmap⟩ := h.idMap_some b hb
      simp [hb, hmap]
    · simp [hb, h.idMap_none b hb]
  have hplace : ∀ b ∈ blocks, ∃ n, blocks[n]? = some b ∧ s.idMap b = some n := fun b hb => h.idMap_some b hb
  have hlinks := links_eq_inside h
  refine ⟨h'.wf, ?_, ?_, ?_, ?_, ?_, ?_, ?_, ?_, ?_, ?_, ?_, ?_, ?_, ?_, ?_⟩
  · intro b hb
    obtain ⟨n, _, hmap⟩ := hplace b hb
    rw [hblocks, if_neg (fun hc => ((hgone b).mp hc).2 hb), h'.blocks, h.blocks, numberOf, hmap]
    rfl
  · intro a ha b hb heq
    obtain ⟨n, hn, hmap⟩ := hplace a ha
    obtain ⟨m, hm, hmap'⟩ := hplace b hb
    simp only [numberOf, hmap, hmap', Option.getD_some] at heq
    subst heq
    exact Option.some.inj (hn.symm.trans hm)
  · intro n
    rw [h'.contains_iff h]
    constructor
    · intro hn
      have hget := getElem?_eq_getElem hn
      refine ⟨_, mem_of_getElem? hget, ?_⟩
      rw [numberOf, h.number hnodup hget]
      rfl
    · rintro ⟨b, hb, rfl⟩
      obtain ⟨n, hn, hmap⟩ := hplace b hb
      rw [numberOf, hmap]
      exact (List.getElem?_eq_some_iff.mp hn).1
  · intro first hfirst
    have hzero : blocks[0]? = some first := by rw [← hfirst, head?_eq_getElem?]
    rw [numberOf, h.number hnodup hzero, h'.frame.entry, h.entry]
    rfl
  · intro b hb
    obtain ⟨n, hn, hmap⟩ := hplace b hb
    rw [numberOf, hmap, h'.block]
    exact (h.block n b hn).1
  · intro k e hk
    rw [hedges]
    refine h'.kept k e ?_
    rw [hlinks]
    exact hk
  · rw [h'.edgeBound, hlinks]
    rfl
  · intro b hlive hb
    rw [hblocks, if_pos ((hgone b).mpr ⟨hlive, hb⟩)]
  · intro e he hout
    rw [hedges]
    refine h'.gone e ?_ ((congrFun hlinks e).trans hout)
    obtain ⟨r, hr⟩ := Option.isSome_iff_exists.mp he
    exact mem_filter.mpr ⟨mem_range.mpr (edge_lt hr), he⟩
  · intro b hdead
    have hb : b ∉ blocks := fun hb => by
      obtain ⟨n, hn, _⟩ := hplace b hb
      exact hdead (h.block n b hn).2
    rw [hblocks, if_neg fun hc => hdead ((hgone b).mp hc).1, h'.blocks, h.blocks, h.idMap_none b hb]
    rfl
  · intro e hdead
    rw [hedges]
    exact h'.unmentioned e fun hmem => hdead (mem_filter.mp hmem).2
  · rw [hcreated, h'.createdBlocks, h.createdBlocks, blockIds, h'.bound, h.bound]
    exact (filter_range_all fun n hn => (h'.contains_iff h n).mpr hn).symm
  · rw [hcreatedEdges, h'.createdEdges, ← h'.edgeBound]
    refine (filter_range_all fun k hk => ?_).symm
    rw [h'.edgeBound] at hk
    have hget := getElem?_eq_getElem hk
    have hmem := mem_of_getElem? hget
    obtain ⟨r, hr⟩ := Option.isSome_iff_exists.mp (mem_filter.mp (mem_filter.mp hmem).1).2
    rw [containsEdge, (h'.kept k _ hget).2, hr]
    rfl
  · exact h'.frame.regions.trans h.regions
  · exact h'.frame.cleanups.trans h.cleanups

/-- A copy with a slot for each entry of the list has no room for a bijection unless the entries differ. -/
theorem Induced.nodup {number : Nat → Nat} (h : Induced c blocks c' mapping number)
    (hlive : ∀ n < blocks.length, c'.containsBlock n) : blocks.Nodup := by
  have hsubset : Finset.range blocks.length ⊆ blocks.toFinset.image number := by
    intro n hn
    obtain ⟨b, hb, rfl⟩ := (h.onto n).mp (hlive n (Finset.mem_range.mp hn))
    exact Finset.mem_image_of_mem number (mem_toFinset.mpr hb)
  have hcard : blocks.length ≤ blocks.dedup.length := by
    calc blocks.length = (Finset.range blocks.length).card := (Finset.card_range _).symm
      _ ≤ (blocks.toFinset.image number).card := Finset.card_le_card hsubset
      _ ≤ blocks.toFinset.card := Finset.card_image_le
      _ = blocks.dedup.length := card_toFinset blocks
  rw [← (dedup_sublist blocks).eq_of_length_le hcard]
  exact nodup_dedup blocks

theorem inside_spec (hr : c.edge e = some r) :
    c.inside blocks e = true ↔ r.source ∈ blocks ∧ r.target ∈ blocks := by
  simp [Cfg.inside, hr]

theorem Induced.exists_kept {number : Nat → Nat} (h : Induced c blocks c' mapping number)
    (hr : c.edge e = some r) (hin : c.inside blocks e = true) :
    ∃ k, mapping.edges e = some [k] ∧ c'.edge k = some (renumberEdge number r) := by
  have hmem : e ∈ c.insideEdges blocks := by
    refine mem_filter.mpr ⟨mem_filter.mpr ⟨mem_range.mpr (edge_lt hr), ?_⟩, hin⟩
    rw [containsEdge, hr]
    rfl
  obtain ⟨k, hk⟩ := mem_iff_getElem?.mp hmem
  obtain ⟨hmap, hedge⟩ := h.kept k e hk
  exact ⟨k, hmap, by rw [hedge, hr]; rfl⟩

theorem Induced.exists_source {number : Nat → Nat} (h : Induced c blocks c' mapping number) {k : Nat}
    {r' : Store.EdgeRecord (Edge π)} (hr' : c'.edge k = some r') :
    ∃ e r, c.edge e = some r ∧ c.inside blocks e = true ∧ mapping.edges e = some [k] ∧ r' = renumberEdge number r := by
  have hlt := edge_lt hr'
  rw [h.edgeBound] at hlt
  have hget := getElem?_eq_getElem hlt
  obtain ⟨hmap, hedge⟩ := h.kept k _ hget
  obtain ⟨hids, hin⟩ := mem_filter.mp (mem_of_getElem? hget)
  obtain ⟨r, hr⟩ := Option.isSome_iff_exists.mp (mem_filter.mp hids).2
  refine ⟨_, r, hr, hin, hmap, ?_⟩
  rw [hr, hr'] at hedge
  exact Option.some.inj hedge

/-- From a listed block on, the walks of the induced subgraph are the walks that stay inside. -/
theorem Induced.follows {number : Nat → Nat} (h : Induced c blocks c' mapping number) :
    ∀ {path' : List Nat} {b : Nat}, b ∈ blocks → (c'.Follows (number b) path' ↔
      ∃ path, c.Follows b path ∧ (∀ e ∈ path, c.inside blocks e) ∧
        List.Forall₂ (fun e e' => mapping.edges e = some [e']) path path')
  | [], b, _ => by
    refine ⟨fun _ => ⟨[], trivial, by simp, .nil⟩, fun _ => trivial⟩
  | e' :: path', b, hb => by
    constructor
    · rintro ⟨r', hr', hsource, hrest⟩
      obtain ⟨e, r, hr, hin, hmap, rfl⟩ := h.exists_source hr'
      obtain ⟨hs, ht⟩ := (inside_spec hr).mp hin
      obtain ⟨path, hfollows, hinside, hpaths⟩ := (h.follows ht).mp hrest
      refine ⟨e :: path, ⟨r, hr, h.injective _ hs _ hb hsource, hfollows⟩, ?_, .cons hmap hpaths⟩
      intro x hx
      rcases mem_cons.mp hx with rfl | hx
      · exact hin
      · exact hinside x hx
    · rintro ⟨path, hfollows, hinside, hpaths⟩
      cases hpaths with
      | @cons e _ path _ hmap hpaths =>
        obtain ⟨r, hr, hsource, hrest⟩ := hfollows
        have hin := hinside e mem_cons_self
        obtain ⟨k, hmap', hedge⟩ := h.exists_kept hr hin
        obtain rfl : e' = k := by
          rw [hmap] at hmap'
          simpa using hmap'
        have hrest' : c'.Follows (number r.target) path' := (h.follows ((inside_spec hr).mp hin).2).mpr
          ⟨path, hrest, fun x hx => hinside x (mem_cons_of_mem e hx), hpaths⟩
        exact ⟨_, hedge, congrArg number hsource, hrest'⟩

theorem Induced.sameWalks {number : Nat → Nat} (h : Induced c blocks c' mapping number) :
    SameWalks c blocks c' mapping := by
  intro first hfirst path'
  rw [← h.entry first hfirst]
  exact h.follows (mem_of_mem_head? hfirst)

/-- Extraction gives the induced subgraph and its record, exactly when no block is listed twice. -/
theorem Cfg.subgraphMapped_exact {c : Cfg ι π} (hblocks : c.blockBound ≤ Store.maxSlots)
    (hedges : c.edgeBound ≤ Store.maxSlots) {blocks : List Nat} (hne : blocks ≠ [])
    (hlive : ∀ b ∈ blocks, c.containsBlock b) :
    (∃ c' mapping number, c.subgraphMapped blocks = some (c', mapping) ∧ Induced c blocks c' mapping number ∧
      SameWalks c blocks c' mapping) ↔ blocks.Nodup := by
  obtain ⟨first, rest, rfl⟩ := exists_cons_of_ne_nil hne
  constructor
  · rintro ⟨c', mapping, number, hs, hinduced, -⟩
    simp only [subgraphMapped, Option.bind_eq_bind, Option.bind_eq_some_iff] at hs
    obtain ⟨s₀, hstart, s, hselect, s', hjoin, heq⟩ := hs
    cases heq
    have h := selecting_run hstart hselect
    exact hinduced.nodup fun n hn => ((joining_run h hjoin).contains_iff h n).mpr hn
  · intro hnodup
    have hroom : (first :: rest).length ≤ Store.maxSlots := by
      have hperm : (first :: rest) ⊆ List.range c.blockBound := fun b hb => mem_range.mpr (block_lt (hlive b hb))
      have := (hnodup.subperm hperm).length_le
      rw [length_range] at this
      omega
    obtain ⟨s₀, s, hstart, hselect, h⟩ := exists_selected hroom hlive
    obtain ⟨s', hjoin⟩ := exists_joined h hedges
    have hinduced := (joining_run h hjoin).induced hnodup h
    refine ⟨_, _, _, ?_, hinduced, hinduced.sameWalks⟩
    simp only [subgraphMapped, Option.bind_eq_bind, hstart, hselect, hjoin, Option.bind_some]

/-- Two blocks and the edge between them. -/
def pairGraph : Cfg Nat Unit := .ofParts [[1], [2]] [(0, 1, .fallthrough, ())]

theorem subgraphMapped_exact_pairGraph : ∃ c' mapping number, pairGraph.subgraphMapped [1, 0] = some (c', mapping) ∧
    Induced pairGraph [1, 0] c' mapping number ∧ SameWalks pairGraph [1, 0] c' mapping :=
  (Cfg.subgraphMapped_exact (by decide) (by decide) (by decide) (by decide)).mpr (by decide)

/-- The first block listed again: the entry is its first copy, which has lost the edge to the second. -/
theorem subgraphMapped_repeated :
    (∃ c' mapping, pairGraph.subgraphMapped [0, 1, 0] = some (c', mapping) ∧ c'.entry = 0 ∧ c'.outgoing 0 = [] ∧
      mapping.blocks 0 = some [2]) ∧
      ¬ ∃ c' mapping number, pairGraph.subgraphMapped [0, 1, 0] = some (c', mapping) ∧
        Induced pairGraph [0, 1, 0] c' mapping number ∧ SameWalks pairGraph [0, 1, 0] c' mapping := by
  have hrun : ∃ c' mapping, pairGraph.subgraphMapped [0, 1, 0] = some (c', mapping) ∧ c'.entry = 0 ∧
      c'.outgoing 0 = [] ∧ mapping.blocks 0 = some [2] := ⟨_, _, rfl, rfl, rfl, rfl⟩
  refine ⟨hrun, ?_⟩
  rintro ⟨c', mapping, number, hs, hinduced, -⟩
  obtain ⟨c₁, mapping₁, hs₁, hentry, -, hmap⟩ := hrun
  rw [hs₁] at hs
  cases hs
  have hzero := hinduced.entry 0 rfl
  have hmapped := hinduced.mapped 0 mem_cons_self
  rw [hmap, hzero, hentry] at hmapped
  cases hmapped

end Whole

end CfgLib

import CfgLib.Graph.NaturalLoop
import CfgLib.Transform.SplitRegions
import Mathlib.Data.Finset.Sort

/-!
# Loop rotation

`rotate_loop` of `transform/loops.rs`: the header of a top-tested loop is copied to a
block at the bottom, which the latch goes to instead, so that the header only guards the
entry.
-/

namespace CfgLib

open CfgLib.Lib List

variable {ι π : Type}

namespace Cfg

def modifyEdge (c : Cfg ι π) (e : Nat) (f : Edge π → Edge π) : Cfg ι π :=
  { c with graph := { c.graph with
      edges := c.graph.edges.modify e (Option.map fun r => { r with payload := f r.payload }) } }

/-- The edges out of a block, in order. -/
def exits (c : Cfg ι π) (b : Nat) : List (Store.EdgeRecord (Edge π)) := (c.outgoing b).filterMap c.edge

end Cfg

namespace Transform

open Cfg

/-- The first body block, which heads the rotated loop, and the copy of the old header. -/
structure LoopRotation where
  newHeader : Nat
  bottomTest : Nat

/-- A new block with a copy of the instructions, the outgoing edges and the place in the
exception metadata of `block`. -/
def duplicateBlock (c : Cfg ι π) (block : Nat) : Option (Nat × Cfg ι π) := do
  let (copy, c) ← c.newBlock
  let original ← c.block block
  let c := c.modifyBlock copy fun empty => { empty with instructions := original.instructions }
  let c ← (c.exits block).foldlM
    (fun c r => (c.addWeightedEdgeWithPayload copy r.target r.payload).map (·.2)) c
  some (copy, { c with regions := c.regions.map (extendRegion block copy) })

/-- An edge that no longer reaches a loop header is no back edge. -/
def lowerKind (edge : Edge π) : Edge π :=
  if edge.kind = .back then { edge with kind := .fallthrough } else edge

def lowerLatchEdge (bottomTest : Nat) (c : Cfg ι π) (e : Nat) : Option (Cfg ι π) := do
  let (_, c) ← c.redirectEdgeTarget e bottomTest
  some (c.modifyEdge e lowerKind)

def rotateAt (c : Cfg ι π) (header latch newHeader : Nat) : Option (Option LoopRotation × Cfg ι π) := do
  let (bottomTest, c) ← duplicateBlock c header
  let latchEdges := (c.outgoing latch).filter fun e => (c.edge e).any fun r => r.target == header
  let c ← latchEdges.foldlM (lowerLatchEdge bottomTest) c
  some (some ⟨newHeader, bottomTest⟩, c)

/-- Rotate a loop from top-tested to bottom-tested form; the outer `none` is a panic, and
the inner one leaves the graph as it is. -/
def rotateLoop (c : Cfg ι π) (lp : NaturalLoop) : Option (Option LoopRotation × Cfg ι π) :=
  match lp.latches.sort, c.outgoing lp.header with
  | [latch], [first, second] => do
    let first ← c.edge first
    let second ← c.edge second
    if first.payload.kind.isExceptional || second.payload.kind.isExceptional then some (none, c)
    else match decide (first.target ∈ lp.body), decide (second.target ∈ lp.body) with
      | true, false => rotateAt c lp.header latch first.target
      | false, true => rotateAt c lp.header latch second.target
      | _, _ => some (none, c)
  | _, _ => some (none, c)

/-! ## Edits of the lists -/

section Lists

variable {c c' : Cfg ι π} {b : Nat}

theorem edge_modifyEdge (c : Cfg ι π) (e : Nat) (f : Edge π → Edge π) (i : Nat) : (c.modifyEdge e f).edge i =
    if i = e then (c.edge i).map fun r => { r with payload := f r.payload } else c.edge i := by
  change ((c.graph.edges.modify e _)[i]?).join = if i = e then ((c.graph.edges[i]?).join).map _ else (c.graph.edges[i]?).join
  rw [getElem?_modify]
  by_cases h : e = i
  · subst h
    cases c.graph.edges[e]? <;> simp
  · rw [if_neg (Ne.symm h)]
    cases c.graph.edges[i]? <;> simp [h]

theorem wf_modifyEdge (hc : c.WF) (e : Nat) (f : Edge π → Edge π) : (c.modifyEdge e f).WF := by
  have hedge : ∀ i r, (c.modifyEdge e f).edge i = some r → ∃ r₀, c.edge i = some r₀ ∧ ∀ d, r₀.endpoint d = r.endpoint d := by
    intro i r hr
    rw [edge_modifyEdge] at hr
    split at hr
    · obtain ⟨r₀, hr₀, rfl⟩ := Option.map_eq_some_iff.mp hr
      exact ⟨r₀, hr₀, fun d => by cases d <;> rfl⟩
    · exact ⟨r, hr, fun _ => rfl⟩
  have hback : ∀ i r₀, c.edge i = some r₀ → ∃ r, (c.modifyEdge e f).edge i = some r ∧ ∀ d, r.endpoint d = r₀.endpoint d := by
    intro i r₀ hr₀
    rw [edge_modifyEdge, hr₀]
    split
    · exact ⟨_, rfl, fun d => by cases d <;> rfl⟩
    · exact ⟨_, rfl, fun _ => rfl⟩
  refine ⟨⟨fun d n i => (hc.graph.mem_iff d n i).trans ⟨?_, ?_⟩, hc.graph.nodup, fun d i r hr => ?_⟩, hc.entry⟩
  · rintro ⟨r₀, hr₀, rfl⟩
    obtain ⟨r, hr, hends⟩ := hback i r₀ hr₀
    exact ⟨r, hr, hends d⟩
  · rintro ⟨r, hr, rfl⟩
    obtain ⟨r₀, hr₀, hends⟩ := hedge i r hr
    exact ⟨r₀, hr₀, hends d⟩
  · obtain ⟨r₀, hr₀, hends⟩ := hedge i r hr
    rw [← hends d]
    exact hc.graph.live d i r₀ hr₀

theorem outgoing_redirectEdgeTarget {e new old : Nat} (hs : c.redirectEdgeTarget e new = some (old, c')) :
    c'.outgoing b = c.outgoing b := by
  simp only [redirectEdgeTarget, redirectEdge, Option.bind_eq_bind, Option.bind_eq_some_iff] at hs
  obtain ⟨r, _, g, hg, heq⟩ := hs
  cases heq
  obtain ⟨_, _, _, hcase⟩ := Store.Naive.redirect_spec hg
  rcases hcase with ⟨_, rfl⟩ | ⟨_, _, _, _, hlists⟩
  · rfl
  · have hne : TraversalDirection.outgoing ≠ .incoming := by decide
    refine (hlists .outgoing b).trans ?_
    rw [if_neg fun h => hne h.1, if_neg fun h => hne h.1]
    rfl

theorem exits_addWeightedEdge (hc : c.WF) {source target e : Nat} {edge : Edge π}
    (hs : c.addWeightedEdgeWithPayload source target edge = some (e, c')) :
    c'.exits b = if b = source then c.exits b ++ [⟨source, target, edge⟩] else c.exits b := by
  obtain ⟨g, hadd, heq⟩ := Option.map_eq_some_iff.mp hs
  cases heq
  obtain ⟨_, _, _, _, hedge, hlists⟩ := Store.Naive.addEdge_spec hadd
  have hsame : ∀ i ∈ c.outgoing b, g.edge i = c.edge i := by
    intro i hi
    obtain ⟨r, hr, _⟩ := hc.mem_outgoing.mp hi
    rw [hedge, if_neg (show i ≠ c.graph.edges.length from Nat.ne_of_lt (edge_lt hr))]
    rfl
  have hold : (c.outgoing b).filterMap g.edge = c.exits b := filterMap_congr hsame
  have hlist : g.lists .outgoing b = if b = source then c.outgoing b ++ [c.graph.edges.length] else c.outgoing b :=
    hlists .outgoing b
  change (g.lists .outgoing b).filterMap g.edge = _
  rw [hlist]
  split
  · rw [filterMap_append, hold, filterMap_cons, hedge, if_pos rfl, filterMap_nil]
  · exact hold

end Lists

/-! ## The copy of the header -/

section Duplicate

variable {c c' : Cfg ι π} {header copy b : Nat}

/-- `c'` is `c` with a new block that has the code, the edges and the place of `header`. -/
structure Duplicated (c c' : Cfg ι π) (header copy : Nat) : Prop where
  wf : c'.WF
  copy_eq : copy = c.blockBound
  bound : c'.blockBound = c.blockBound + 1
  entry : c'.entry = c.entry
  regions : c'.regions = c.regions.map (extendRegion header copy)
  cleanups : c'.cleanups = c.cleanups
  block_old : ∀ b, b ≠ copy → c'.block b = c.block b
  block_copy : ∃ original, c.block header = some original ∧ c'.block copy = some ⟨original.instructions, none⟩
  exits_old : ∀ b, b ≠ copy → c'.exits b = c.exits b
  exits_copy : c'.exits copy = (c.exits header).map fun r => { r with source := copy }

theorem mem_exits (hc : c.WF) {r : Store.EdgeRecord (Edge π)} : r ∈ c.exits b ↔ c.HasEdge r ∧ r.source = b :=
  mem_outgoing_records hc

theorem exits_congr (hout : c'.outgoing b = c.outgoing b) (hedge : ∀ e, c'.edge e = c.edge e) : c'.exits b = c.exits b := by
  unfold exits
  rw [hout]
  exact filterMap_congr fun e _ => hedge e

theorem foldlM_copyExits {records : List (Store.EdgeRecord (Edge π))} (hc : c.WF)
    (hs : records.foldlM (fun c r => (c.addWeightedEdgeWithPayload copy r.target r.payload).map (·.2)) c = some c') :
    (c'.WF ∧ SameFrame c c' ∧ (∀ i, c'.block i = c.block i) ∧ c'.blockBound = c.blockBound) ∧
      (∀ b, b ≠ copy → c'.exits b = c.exits b) ∧
      c'.exits copy = c.exits copy ++ records.map fun r => { r with source := copy } := by
  refine foldlM_option (I := fun done c' =>
    (c'.WF ∧ SameFrame c c' ∧ (∀ i, c'.block i = c.block i) ∧ c'.blockBound = c.blockBound) ∧
      (∀ b, b ≠ copy → c'.exits b = c.exits b) ∧
      c'.exits copy = c.exits copy ++ done.map fun r => { r with source := copy }) ?_ ?_ hs
  · intro done r c₁ c₂ ⟨⟨hwf, hframe, hblock, hbound⟩, hold, hcopy⟩ hstep
    obtain ⟨⟨e, c₃⟩, hadd, heq⟩ := Option.map_eq_some_iff.mp hstep
    cases heq
    obtain ⟨hwf', hframe', hblock', hbound', _⟩ := addWeightedEdge_spec hwf hadd
    refine ⟨⟨hwf', hframe.trans hframe', fun i => (hblock' i).trans (hblock i), hbound'.trans hbound⟩, fun b hb => ?_, ?_⟩
    · rw [exits_addWeightedEdge hwf hadd, if_neg hb]
      exact hold b hb
    · rw [exits_addWeightedEdge hwf hadd, if_pos rfl, hcopy, map_append, append_assoc]
      rfl
  · exact ⟨⟨hc, ⟨rfl, rfl, rfl⟩, fun _ => rfl, rfl⟩, fun _ _ => rfl, (append_nil _).symm⟩

theorem duplicateBlock_spec (hc : c.WF) (hlive : c.containsBlock header) (hs : duplicateBlock c header = some (copy, c')) :
    Duplicated c c' header copy := by
  unfold duplicateBlock at hs
  obtain ⟨⟨new, c₁⟩, hnew, hs⟩ := Option.bind_eq_some_iff.mp hs
  obtain ⟨original, horiginal, hs⟩ := Option.bind_eq_some_iff.mp hs
  obtain ⟨c₂, hfold, hs⟩ := Option.bind_eq_some_iff.mp hs
  cases hs
  obtain ⟨rfl, hwf₁, hframe₁, hblock₁, hedge₁, hbound₁, _⟩ := newBlock_spec hc hnew
  have hout₁ : ∀ b, c₁.outgoing b = c.outgoing b := by
    intro b
    obtain ⟨g, hadd, heq⟩ := Option.map_eq_some_iff.mp hnew
    cases heq
    exact congrFun (congrFun (Store.Naive.addNode_spec hadd).2.2.1 .outgoing) b
  have hne : header ≠ c.blockBound := Nat.ne_of_lt (block_lt hlive)
  have hheader : c.block header = some original := by
    rw [← horiginal, hblock₁, if_neg hne]
  obtain ⟨⟨hwf, hframe, hblock, hbound⟩, hold, hcopy⟩ := foldlM_copyExits (hwf₁.modifyBlock _ _) hfold
  have hexits₁ : ∀ b, (c₁.modifyBlock c.blockBound fun empty => { empty with instructions := original.instructions }).exits b =
      c.exits b := fun b => exits_congr (hout₁ b) hedge₁
  have hnone : c.exits c.blockBound = [] := by
    refine eq_nil_iff_forall_not_mem.mpr fun r hr => ?_
    obtain ⟨⟨e, he⟩, hsource⟩ := (mem_exits hc).mp hr
    have := block_lt (hc.source_live he)
    omega
  refine ⟨⟨⟨hwf.graph.mem_iff, hwf.graph.nodup, hwf.graph.live⟩, hwf.entry⟩, rfl, ?_, ?_, ?_, ?_, fun b hb => ?_,
    ⟨original, hheader, ?_⟩, fun b hb => (hold b hb).trans (hexits₁ b), ?_⟩
  · exact hbound.trans ((blockBound_modifyBlock _ _ _).trans hbound₁)
  · exact hframe.entry.trans hframe₁.entry
  · exact congrArg (List.map _) (hframe.regions.trans hframe₁.regions)
  · exact hframe.cleanups.trans hframe₁.cleanups
  · refine (hblock b).trans ?_
    rw [block_modifyBlock, if_neg hb, hblock₁, if_neg hb]
  · refine (hblock _).trans ?_
    rw [block_modifyBlock, if_pos rfl, hblock₁, if_pos rfl]
    rfl
  · refine hcopy.trans ?_
    rw [hexits₁, hexits₁, hnone, nil_append]

end Duplicate

/-! ## The latch edges -/

section Lower

variable {c c' : Cfg ι π} {header latch bottomTest b : Nat}

/-- A latch edge after the rotation. -/
def lowered (bottomTest : Nat) (r : Store.EdgeRecord (Edge π)) : Store.EdgeRecord (Edge π) :=
  { r with target := bottomTest, payload := lowerKind r.payload }

theorem lowerKind_lowerKind (edge : Edge π) : lowerKind (lowerKind edge) = lowerKind edge := by
  unfold lowerKind
  by_cases h : edge.kind = .back
  · rw [if_pos h, if_neg (fun he => nomatch he)]
  · rw [if_neg h, if_neg h]

theorem lowered_lowered (r : Store.EdgeRecord (Edge π)) : lowered bottomTest (lowered bottomTest r) = lowered bottomTest r := by
  unfold lowered
  rw [lowerKind_lowerKind]

/-- What changing edges in place keeps. -/
structure SameBlocks (c c' : Cfg ι π) : Prop where
  wf : c'.WF
  frame : SameFrame c c'
  block : ∀ b, c'.block b = c.block b
  bound : c'.blockBound = c.blockBound
  outgoing : ∀ b, c'.outgoing b = c.outgoing b

theorem lowerLatchEdge_spec {e : Nat} (hc : c.WF) (hs : lowerLatchEdge bottomTest c e = some c') :
    SameBlocks c c' ∧ ∀ i, c'.edge i = if i = e then (c.edge i).map (lowered bottomTest) else c.edge i := by
  obtain ⟨⟨old, c₁⟩, hredirect, heq⟩ := Option.bind_eq_some_iff.mp hs
  cases heq
  obtain ⟨hwf, hframe, hblock, hbound, _, r, hr, hold, hcase⟩ := redirectEdge_spec hc hredirect
  have hedge : ∀ i, c₁.edge i = if i = e then some { r with target := bottomTest } else c.edge i := by
    intro i
    rcases hcase with ⟨hsame, rfl⟩ | ⟨_, hedge⟩
    · by_cases hi : i = e
      · have htarget : r.target = bottomTest := hold.trans hsame
        rw [if_pos hi, hi, hr, ← htarget]
      · rw [if_neg hi]
    · exact hedge i
  have hout : ∀ b, c₁.outgoing b = c.outgoing b := fun b => outgoing_redirectEdgeTarget hredirect
  refine ⟨⟨wf_modifyEdge hwf e _, ⟨hframe.entry, hframe.regions, hframe.cleanups⟩, hblock, hbound, hout⟩, fun i => ?_⟩
  rw [edge_modifyEdge, hedge]
  by_cases hi : i = e
  · rw [if_pos hi, if_pos hi, if_pos hi, hi, hr]
    rfl
  · rw [if_neg hi, if_neg hi, if_neg hi]

theorem foldlM_lowerLatchEdge {edges : List Nat} (hc : c.WF)
    (hs : edges.foldlM (lowerLatchEdge bottomTest) c = some c') :
    SameBlocks c c' ∧ ∀ i, c'.edge i = if i ∈ edges then (c.edge i).map (lowered bottomTest) else c.edge i := by
  refine foldlM_option (I := fun done c' => SameBlocks c c' ∧
    ∀ i, c'.edge i = if i ∈ done then (c.edge i).map (lowered bottomTest) else c.edge i) ?_ ?_ hs
  · intro done e c₁ c₂ ⟨hsame, hedge⟩ hstep
    obtain ⟨hsame', hedge'⟩ := lowerLatchEdge_spec hsame.wf hstep
    refine ⟨⟨hsame'.wf, hsame.frame.trans hsame'.frame, fun b => (hsame'.block b).trans (hsame.block b),
      hsame'.bound.trans hsame.bound, fun b => (hsame'.outgoing b).trans (hsame.outgoing b)⟩, fun i => ?_⟩
    rw [hedge', hedge]
    by_cases hi : i = e
    · rw [if_pos hi, if_pos (mem_append_right _ (mem_singleton.mpr hi))]
      split
      · rw [Option.map_map]
        exact congrArg (Option.map · _) (funext lowered_lowered)
      · rfl
    · have hmem : i ∈ done ++ [e] ↔ i ∈ done := by simp [hi]
      rw [if_neg hi, if_congr hmem rfl rfl]
  · refine ⟨⟨hc, ⟨rfl, rfl, rfl⟩, fun _ => rfl, rfl, fun _ => rfl⟩, fun i => ?_⟩
    rw [if_neg not_mem_nil]

/-- `c'` is `c` with the loop at `header` rotated: a copy of the header, and the edges from
the latch to the header sent to the copy. -/
structure Rotated (c c' : Cfg ι π) (header latch bottomTest : Nat) : Prop where
  wf : c'.WF
  bottomTest_eq : bottomTest = c.blockBound
  bound : c'.blockBound = c.blockBound + 1
  entry : c'.entry = c.entry
  regions : c'.regions = c.regions.map (extendRegion header bottomTest)
  cleanups : c'.cleanups = c.cleanups
  block_old : ∀ b, b ≠ bottomTest → c'.block b = c.block b
  block_copy : ∃ original, c.block header = some original ∧ c'.block bottomTest = some ⟨original.instructions, none⟩
  exits_old : ∀ b, b ≠ bottomTest →
    c'.exits b = (c.exits b).map fun r => if b = latch ∧ r.target = header then lowered bottomTest r else r
  exits_copy : c'.exits bottomTest = (c.exits header).map fun r => { r with source := bottomTest }

theorem rotateAt_spec {newHeader : Nat} {rotation : Option LoopRotation} (hc : c.WF) (hlive : c.containsBlock header)
    (hlatch : c.containsBlock latch) (hs : rotateAt c header latch newHeader = some (rotation, c')) :
    ∃ bottomTest, rotation = some ⟨newHeader, bottomTest⟩ ∧ Rotated c c' header latch bottomTest := by
  unfold rotateAt at hs
  obtain ⟨⟨bottomTest, c₁⟩, hcopy, hs⟩ := Option.bind_eq_some_iff.mp hs
  obtain ⟨c₂, hfold, heq⟩ := Option.bind_eq_some_iff.mp hs
  cases heq
  have hd := duplicateBlock_spec hc hlive hcopy
  obtain ⟨hsame, hedge⟩ := foldlM_lowerLatchEdge hd.wf hfold
  have hne : latch ≠ bottomTest := by
    rw [hd.copy_eq]
    exact Nat.ne_of_lt (block_lt hlatch)
  -- the list of a block keeps its edges, each lowered when it is a latch edge
  have hexits : ∀ b, c'.exits b = (c₁.exits b).map fun r =>
      if b = latch ∧ r.target = header then lowered bottomTest r else r := by
    intro b
    unfold exits
    rw [hsame.outgoing, map_filterMap]
    refine filterMap_congr fun e he => ?_
    obtain ⟨r, hr, hsource⟩ := hd.wf.mem_outgoing.mp he
    have hmem : e ∈ (c₁.outgoing latch).filter (fun e => (c₁.edge e).any fun r => r.target == header) ↔
        b = latch ∧ r.target = header := by
      rw [mem_filter, hd.wf.mem_outgoing, hr]
      simp [hsource]
    rw [hedge, if_congr hmem rfl rfl, hr, Option.map_some, Option.map_some]
    exact (apply_ite some _ _ _).symm
  refine ⟨bottomTest, rfl, hsame.wf, hd.copy_eq, hsame.bound.trans hd.bound, hsame.frame.entry.trans hd.entry,
    hsame.frame.regions.trans hd.regions, hsame.frame.cleanups.trans hd.cleanups, ?_, ?_, ?_, ?_⟩
  · exact fun b hb => (hsame.block b).trans (hd.block_old b hb)
  · obtain ⟨original, hblock, hcopied⟩ := hd.block_copy
    exact ⟨original, hblock, (hsame.block _).trans hcopied⟩
  · intro b hb
    rw [hexits, hd.exits_old b hb]
  · rw [hexits, hd.exits_copy]
    refine (map_congr_left fun r _ => ?_).trans (map_id _)
    rw [if_neg fun h => hne h.1.symm]
    rfl

end Lower

/-! ## What the rotation keeps -/

section RotationKeeps

variable {c c' : Cfg ι π} {header latch bottomTest a b : Nat}

/-- The block a block of the rotated graph stands for. -/
def unrotate (header bottomTest b : Nat) : Nat := if b = bottomTest then header else b

/-- An edge of the graph with the kind it has after the rotation. -/
def rotatedEdge (header latch b : Nat) (r : Store.EdgeRecord (Edge π)) : Nat × Edge π :=
  (r.target, if b = latch ∧ r.target = header then lowerKind r.payload else r.payload)

/-- Every block of `c'` stands for a block of `c`, with its code, its place in the exception
metadata and its edges in order; only the kinds of the latch edges differ. -/
structure RotationKeeps (c c' : Cfg ι π) (header latch bottomTest : Nat) : Prop where
  mirrors : Mirrors c c' (unrotate header bottomTest)
  blocks : ∀ b, c'.containsBlock b ↔ c.containsBlock b ∨ b = bottomTest
  instructions : ∀ b, c'.instructions b = c.instructions (unrotate header bottomTest b)
  regions : c'.regions = c.regions.map (extendRegion header bottomTest)
  cleanups : c'.cleanups = c.cleanups
  placement : c.NamesSlots → ∀ b, c'.placement b = c.placement (unrotate header bottomTest b)
  exits : ∀ b, (c'.exits b).map (fun r => (unrotate header bottomTest r.target, r.payload)) =
    (c.exits (unrotate header bottomTest b)).map (rotatedEdge header latch b)

theorem unrotate_old (hb : b ≠ bottomTest) : unrotate header bottomTest b = b := if_neg hb

theorem unrotate_copy : unrotate header bottomTest bottomTest = header := if_pos rfl

namespace Rotated

section

variable (h : Rotated c c' header latch bottomTest)
include h

theorem target_ne (hc : c.WF) {r : Store.EdgeRecord (Edge π)} (hr : r ∈ c.exits b) : r.target ≠ bottomTest := by
  obtain ⟨⟨e, he⟩, _⟩ := (mem_exits hc).mp hr
  rw [h.bottomTest_eq]
  exact Nat.ne_of_lt (block_lt (hc.target_live he))

theorem exits (hc : c.WF) (hlatch : latch ≠ bottomTest) (b : Nat) :
    (c'.exits b).map (fun r => (unrotate header bottomTest r.target, r.payload)) =
      (c.exits (unrotate header bottomTest b)).map (rotatedEdge header latch b) := by
  by_cases hb : b = bottomTest
  · subst hb
    rw [h.exits_copy, unrotate_copy, map_map]
    refine map_congr_left fun r hr => Prod.ext ?_ ?_
    · have htarget : r.target ≠ b := h.target_ne hc hr
      exact unrotate_old htarget
    · exact (if_neg fun hl => hlatch hl.1.symm).symm
  · rw [h.exits_old b hb, unrotate_old hb, map_map]
    refine map_congr_left fun r hr => ?_
    unfold rotatedEdge Function.comp
    by_cases hl : b = latch ∧ r.target = header
    · simp only [if_pos hl]
      exact Prod.ext (unrotate_copy.trans hl.2.symm) rfl
    · simp only [if_neg hl]
      exact Prod.ext (unrotate_old (h.target_ne hc hr)) rfl

theorem mem_successors_iff (hc : c.WF) (hback : header ∈ c.successors latch) : b ∈ c'.successors a ↔
      (b ∈ c.successors a ∧ ¬ (a = latch ∧ b = header)) ∨ (a = latch ∧ b = bottomTest) ∨
        (a = bottomTest ∧ b ∈ c.successors header) := by
  have hexits : ∀ {c : Cfg ι π}, c.WF → ∀ {a b : Nat}, b ∈ c.successors a ↔ ∃ r ∈ c.exits a, r.target = b := by
    intro c hc a b
    rw [hc.mem_successors]
    constructor
    · rintro ⟨e, r, hr, hs, ht⟩
      exact ⟨r, (mem_exits hc).mpr ⟨⟨e, hr⟩, hs⟩, ht⟩
    · rintro ⟨r, hr, ht⟩
      obtain ⟨⟨e, he⟩, hs⟩ := (mem_exits hc).mp hr
      exact ⟨e, r, he, hs, ht⟩
  have hold : ∀ {a b : Nat}, b ∈ c.successors a → a ≠ bottomTest := by
    intro a b hb
    obtain ⟨e, r, hr, rfl, _⟩ := hc.mem_successors.mp hb
    rw [h.bottomTest_eq]
    exact Nat.ne_of_lt (block_lt (hc.source_live hr))
  rw [hexits h.wf]
  by_cases ha : a = bottomTest
  · subst ha
    rw [h.exits_copy]
    constructor
    · rintro ⟨_, hcopied, rfl⟩
      obtain ⟨r, hr, rfl⟩ := mem_map.mp hcopied
      exact Or.inr (Or.inr ⟨rfl, (hexits hc).mpr ⟨r, hr, rfl⟩⟩)
    · rintro (⟨hb, _⟩ | ⟨hlatch, _⟩ | ⟨_, hb⟩)
      · exact absurd rfl (hold hb)
      · exact absurd hlatch.symm (hold hback)
      · obtain ⟨r, hr, rfl⟩ := (hexits hc).mp hb
        exact ⟨_, mem_map_of_mem hr, rfl⟩
  · rw [h.exits_old a ha]
    constructor
    · rintro ⟨_, hkept, rfl⟩
      obtain ⟨r, hr, rfl⟩ := mem_map.mp hkept
      by_cases hl : a = latch ∧ r.target = header
      · rw [if_pos hl]
        exact Or.inr (Or.inl ⟨hl.1, rfl⟩)
      · rw [if_neg hl]
        exact Or.inl ⟨(hexits hc).mpr ⟨r, hr, rfl⟩, hl⟩
    · rintro (⟨hb, hl⟩ | ⟨rfl, rfl⟩ | ⟨rfl, _⟩)
      · obtain ⟨r, hr, rfl⟩ := (hexits hc).mp hb
        exact ⟨_, mem_map_of_mem hr, by rw [if_neg hl]⟩
      · obtain ⟨r, hr, ht⟩ := (hexits hc).mp hback
        exact ⟨_, mem_map_of_mem hr, by rw [if_pos ⟨rfl, ht⟩, lowered]⟩
      · exact absurd rfl ha

theorem containsBlock (b : Nat) : c'.containsBlock b ↔ c.containsBlock b ∨ b = bottomTest := by
  by_cases hb : b = bottomTest
  · subst hb
    obtain ⟨_, _, hcopy⟩ := h.block_copy
    exact iff_of_true (by rw [Cfg.containsBlock, hcopy]; rfl) (Or.inr rfl)
  · rw [Cfg.containsBlock, h.block_old b hb]
    exact (or_iff_left hb).symm

theorem instructions (b : Nat) :
    c'.instructions b = c.instructions (unrotate header bottomTest b) := by
  by_cases hb : b = bottomTest
  · subst hb
    obtain ⟨original, horiginal, hcopy⟩ := h.block_copy
    rw [unrotate_copy, instructions_eq hcopy, instructions_eq horiginal]
  · rw [unrotate_old hb]
    exact instructions_congr (h.block_old b hb)

theorem keeps (hc : c.WF) (hback : header ∈ c.successors latch) :
    RotationKeeps c c' header latch bottomTest := by
  obtain ⟨e, r, hr, hsource, _⟩ := hc.mem_successors.mp hback
  have hlatch : latch ≠ bottomTest := by
    rw [h.bottomTest_eq, ← hsource]
    exact Nat.ne_of_lt (block_lt (hc.source_live hr))
  have hexits := h.exits hc hlatch
  refine ⟨⟨h.wf, h.entry, ?_, ?_, ?_⟩, h.containsBlock, h.instructions, h.regions, h.cleanups, ?_, hexits⟩
  · refine unrotate_old ?_
    rw [h.bottomTest_eq]
    exact Nat.ne_of_lt (block_lt hc.entry)
  · rintro a b ⟨payload, hedge⟩
    have hmem : (unrotate header bottomTest b, payload) ∈
        (c'.exits a).map fun r => (unrotate header bottomTest r.target, r.payload) :=
      mem_map_of_mem (f := fun r : Store.EdgeRecord (Edge π) => (unrotate header bottomTest r.target, r.payload))
        ((mem_exits h.wf).mpr ⟨hedge, rfl⟩)
    rw [hexits] at hmem
    obtain ⟨r, hr, heq⟩ := mem_map.mp hmem
    obtain ⟨hedge, hsource⟩ := (mem_exits hc).mp hr
    refine ⟨r.payload, ?_⟩
    rw [← hsource, ← (Prod.mk.inj heq).1]
    exact hedge
  · rintro a t _ ⟨payload, hedge⟩
    have hmem : rotatedEdge header latch a ⟨unrotate header bottomTest a, t, payload⟩ ∈
        (c.exits (unrotate header bottomTest a)).map (rotatedEdge header latch a) :=
      mem_map_of_mem ((mem_exits hc).mpr ⟨hedge, rfl⟩)
    rw [← hexits] at hmem
    obtain ⟨r, hr, heq⟩ := mem_map.mp hmem
    obtain ⟨hlifted, rfl⟩ := (mem_exits h.wf).mp hr
    exact ⟨r.target, ⟨r.payload, hlifted⟩, (Prod.mk.inj heq).1⟩
  · intro hn b
    rw [placement_extendRegion hn (h.bottomTest_eq ▸ h.regions), unrotate, h.bottomTest_eq]

end

end Rotated

end RotationKeeps

end Transform

end CfgLib

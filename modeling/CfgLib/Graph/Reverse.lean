import CfgLib.Cfg.Subgraph

/-!
# The reverse graph

`graph/reverse.rs`: the transpose of a graph under the same identities.  The slots of
removed blocks are allocated first and retired last, apart from a slot the entry stands
on, and several exits get a synthetic entry past the bound.
-/

namespace CfgLib

open CfgLib.Lib Cfg Relation List

variable {ι π : Type}

/-- The live blocks without an outgoing edge. -/
def Cfg.exitBlocks (c : Cfg ι π) : List Nat := c.blockIds.filter fun b => (c.outgoing b).isEmpty

namespace Reverse

def mirrorBlock (c : Cfg ι π) (rev : Cfg ι Unit) (b : Nat) : Option (Cfg ι Unit) :=
  (c.block b).map fun src => rev.modifyBlock b fun dst => ⟨src.instructions, src.label.or dst.label⟩

def addEdge (rev : Cfg ι Unit) (edge : Nat × Nat × EdgeKind) : Option (Cfg ι Unit) :=
  (rev.addEdgeWithPayload edge.1 edge.2.1 edge.2.2 ()).map fun added => added.2

def chooseEntry (exits : List Nat) (rev : Cfg ι Unit) : Option (Cfg ι Unit) :=
  match exits with
  | [] => some rev
  | [exit] => rev.setEntry exit
  | exits => do
    let (synth, rev) ← rev.newBlock
    let rev ← (exits.map fun exit => (synth, exit, EdgeKind.unconditional)).foldlM addEdge rev
    rev.setEntry synth

/-- Retire a slot the source no longer holds, unless the entry stands on it. -/
def retire (c : Cfg ι π) (rev : Cfg ι Unit) (b : Nat) : Option (Cfg ι Unit) :=
  if c.containsBlock b = false ∧ b ≠ rev.entry then (rev.removeBlock b).map fun removed => removed.2 else some rev

def swapped (r : Store.EdgeRecord (Edge π)) : Nat × Nat × EdgeKind := (r.target, r.source, r.payload.kind)

end Reverse

open Reverse in
/-- The reverse of a graph; `none` for the panics. -/
def reverseCfg (c : Cfg ι π) : Option (Cfg ι Unit) :=
  if c.blockIds = [] then none
  else do
    let rev ← (Cfg.new : Cfg ι Unit).newBlocks (c.blockBound - 1)
    let rev ← c.blockIds.foldlM (mirrorBlock c) rev
    let rev ← (c.liveEdges.map swapped).foldlM addEdge rev
    let rev ← chooseEntry c.exitBlocks rev
    (List.range c.blockBound).foldlM (retire c) rev

/-! ## The transpose -/

def Cfg.ReachesBlock (c : Cfg ι π) : Nat → Nat → Prop := ReflTransGen fun a b => b ∈ c.successors a

def Reverse.record (edge : Nat × Nat × EdgeKind) : Store.EdgeRecord (Edge Unit) :=
  ⟨edge.1, edge.2.1, ⟨edge.2.2, none, ()⟩⟩

structure Transposed (c : Cfg ι π) (rev : Cfg ι Unit) : Prop where
  wf : rev.WF
  /-- The live blocks are the same, with at most one more past the bound. -/
  live : ∃ synth : Option Nat, (∀ s, synth = some s → c.blockBound ≤ s) ∧
    ∀ b, rev.containsBlock b ↔ c.containsBlock b ∨ synth = some b
  contents : ∀ b, c.containsBlock b → rev.block b = c.block b
  /-- The edges between original blocks, in order, are the original ones with ends swapped. -/
  edges : rev.liveEdges.filter (fun r => c.containsBlock r.source && c.containsBlock r.target) =
    c.liveEdges.map fun r => Reverse.record (Reverse.swapped r)
  /-- The entry is the only exit, or the synthetic block joined once to each exit. -/
  entry : c.exitBlocks ≠ [] → c.exitBlocks = [rev.entry] ∨
    (1 < c.exitBlocks.length ∧ c.blockBound ≤ rev.entry ∧
      rev.liveEdges.filter (fun r => r.source == rev.entry) =
        c.exitBlocks.map fun exit => Reverse.record (rev.entry, exit, .unconditional))
  /-- The entry reaches what reaches an exit in the source. -/
  reaches : c.exitBlocks ≠ [] → ∀ b, c.containsBlock b →
    (rev.ReachesBlock rev.entry b ↔ ∃ exit ∈ c.exitBlocks, c.ReachesBlock b exit)

namespace Reverse

variable {c : Cfg ι π} {rev rev' : Cfg ι Unit}

/-! ## The stages -/

structure EdgeSlots (rev : Cfg ι Unit) (edges : List (Nat × Nat × EdgeKind)) : Prop where
  bound : rev.edgeBound = edges.length
  edge : ∀ i, rev.edge i = edges[i]?.map record

variable {rev₀ : Cfg ι Unit} {edges : List (Nat × Nat × EdgeKind)} {b : Nat}

theorem EdgeSlots.liveEdges (h : EdgeSlots rev edges) : rev.liveEdges = edges.map record := by
  refine liveEdges_eq (h.bound.trans (length_map _).symm) fun i => ?_
  rw [h.edge, getElem?_map]

theorem EdgeSlots.congr (h : EdgeSlots rev edges)
    (hbound : rev'.edgeBound = rev.edgeBound) (hedge : ∀ e, rev'.edge e = rev.edge e) : EdgeSlots rev' edges :=
  ⟨hbound.trans h.bound, fun i => (hedge i).trans (h.edge i)⟩

theorem newBlocks_slots {bound : Nat} (hbound : 0 < bound)
    (hs : (Cfg.new : Cfg ι Unit).newBlocks (bound - 1) = some rev) :
    rev.WF ∧ rev.entry = 0 ∧ rev.blockBound = bound ∧ EdgeSlots rev [] ∧
      ∀ b, rev.block b = if b < bound then some ⟨[], none⟩ else none := by
  have hslots : ∀ (count : Nat) (c c' : Cfg ι Unit), c.WF → c.newBlocks count = some c' →
      c'.WF ∧ c'.entry = c.entry ∧ c'.blockBound = c.blockBound + count ∧ c'.edgeBound = c.edgeBound ∧
        (∀ e, c'.edge e = c.edge e) ∧
        ∀ b, c'.block b = if c.blockBound ≤ b ∧ b < c.blockBound + count then some ⟨[], none⟩ else c.block b := by
    intro count
    induction count with
    | zero =>
      intro c c' hc h
      cases h
      refine ⟨hc, rfl, rfl, rfl, fun _ => rfl, fun b => ?_⟩
      rw [if_neg (by omega)]
    | succ count ih =>
      intro c c' hc h
      unfold newBlocks at h
      split at h
      · cases h
      · next b c₁ hnew =>
        obtain ⟨_, hwf, hframe, hblock, hedge, hbound, hedges⟩ := newBlock_spec hc hnew
        obtain ⟨hwf', hentry', hbound', hedges', hedge', hblock'⟩ := ih c₁ c' hwf h
        refine ⟨hwf', hentry'.trans hframe.entry, by omega, hedges'.trans hedges, fun e => (hedge' e).trans (hedge e),
          fun b => ?_⟩
        rw [hblock', hblock, hbound]
        by_cases hb : b = c.blockBound
        · rw [if_neg (by omega), if_pos hb, if_pos (by omega)]
        · rw [if_neg hb]
          by_cases hin : c.blockBound + 1 ≤ b ∧ b < c.blockBound + 1 + count
          · rw [if_pos hin, if_pos (by omega)]
          · rw [if_neg hin, if_neg (by omega)]
  obtain ⟨hwf, hentry, hbound', hedges, hedge, hblock⟩ := hslots _ _ _ Extraction.wf_new hs
  have hone : (Cfg.new : Cfg ι Unit).blockBound = 1 := rfl
  refine ⟨hwf, hentry, by omega, ⟨hedges, hedge⟩, fun b => ?_⟩
  rw [hblock, hone]
  by_cases hb : b < bound
  · rw [if_pos hb]
    by_cases hzero : b = 0
    · subst hzero
      rw [if_neg (by omega)]
      rfl
    · rw [if_pos (by omega)]
  · rw [if_neg hb, if_neg (by omega), block, Store.Naive.node]
    change ([some _][b]?).join = none
    rw [getElem?_eq_none (by simp; omega)]
    rfl

theorem mirrorBlock_spec (h : rev.WF) (hs : mirrorBlock c rev b = some rev') :
    rev'.WF ∧ rev'.entry = rev.entry ∧ rev'.blockBound = rev.blockBound ∧ rev'.edgeBound = rev.edgeBound ∧
      (∀ e, rev'.edge e = rev.edge e) ∧
      (rev.block b = some ⟨[], none⟩ → ∀ i, rev'.block i = if i = b then c.block b else rev.block i) := by
  obtain ⟨src, hsrc, rfl⟩ := Option.map_eq_some_iff.mp hs
  refine ⟨h.modifyBlock _ _, rfl, blockBound_modifyBlock _ _ _, rfl, fun _ => rfl, fun hempty i => ?_⟩
  rw [block_modifyBlock]
  by_cases hi : i = b
  · rw [if_pos hi, if_pos hi, hi, hempty, hsrc]
    simp
  · rw [if_neg hi, if_neg hi]

/-- The contents of the blocks `done` have been copied. -/
structure Mirroring (c : Cfg ι π) (rev₀ : Cfg ι Unit) (done : List Nat) (rev : Cfg ι Unit) : Prop where
  wf : rev.WF
  entry : rev.entry = rev₀.entry
  bound : rev.blockBound = rev₀.blockBound
  edgeBound : rev.edgeBound = rev₀.edgeBound
  edge : ∀ e, rev.edge e = rev₀.edge e
  block : ∀ b, rev.block b = if b ∈ done then c.block b else rev₀.block b

theorem mirrored (h : rev₀.WF) (hempty : ∀ b ∈ c.blockIds, rev₀.block b = some ⟨[], none⟩)
    (hs : c.blockIds.foldlM (mirrorBlock c) rev₀ = some rev) : Mirroring c rev₀ c.blockIds rev := by
  have hfold := foldlM_option
    (I := fun done rev => done.Nodup → (∀ b ∈ done, b ∈ c.blockIds) → Mirroring c rev₀ done rev)
    (fun done b rev₁ rev₂ ih hstep hnodup hin => by
      rw [nodup_append] at hnodup
      have ih := ih hnodup.1 fun x hx => hin x (mem_append_left _ hx)
      have hnew : b ∉ done := fun hmem => hnodup.2.2 b hmem b (mem_singleton_self b) rfl
      obtain ⟨hwf, hentry, hbound, hedges, hedge, hblock⟩ := mirrorBlock_spec ih.wf hstep
      refine ⟨hwf, hentry.trans ih.entry, hbound.trans ih.bound, hedges.trans ih.edgeBound,
        fun e => (hedge e).trans (ih.edge e), fun i => ?_⟩
      have hb : rev₁.block b = some ⟨[], none⟩ := by
        rw [ih.block, if_neg hnew]
        exact hempty b (hin b (by simp))
      rw [hblock hb, ih.block]
      by_cases hi : i = b
      · simp [hi]
      · simp [hi])
    (fun _ _ => ⟨h, rfl, rfl, rfl, fun _ => rfl, fun _ => (if_neg (by simp)).symm⟩) hs
  exact hfold (nodup_range.filter _) fun b hb => hb

theorem addEdge_spec (h : rev.WF) {edge : Nat × Nat × EdgeKind}
    (hedges : EdgeSlots rev edges) (hs : addEdge rev edge = some rev') :
    rev'.WF ∧ rev'.entry = rev.entry ∧ rev'.blockBound = rev.blockBound ∧ (∀ b, rev'.block b = rev.block b) ∧
      EdgeSlots rev' (edges ++ [edge]) := by
  obtain ⟨⟨e, rev₁⟩, hadd, rfl⟩ := Option.map_eq_some_iff.mp hs
  obtain ⟨-, hwf, hframe, hblock, hedge, hbound, hedgeBound⟩ := addEdgeWithPayload_spec h hadd
  refine ⟨hwf, hframe.entry, hbound, hblock, ?_, fun i => ?_⟩
  · rw [hedgeBound, hedges.bound, length_append, length_singleton]
  · rw [hedge, hedges.bound, Extraction.getElem?_concat]
    split
    · rfl
    · exact hedges.edge i

theorem addEdges_spec (h : rev.WF) {new : List (Nat × Nat × EdgeKind)} (hedges : EdgeSlots rev edges)
    (hs : new.foldlM addEdge rev = some rev') :
    rev'.WF ∧ rev'.entry = rev.entry ∧ rev'.blockBound = rev.blockBound ∧ (∀ b, rev'.block b = rev.block b) ∧
      EdgeSlots rev' (edges ++ new) := by
  refine foldlM_option (I := fun done rev' => rev'.WF ∧ rev'.entry = rev.entry ∧ rev'.blockBound = rev.blockBound ∧
    (∀ b, rev'.block b = rev.block b) ∧ EdgeSlots rev' (edges ++ done)) ?_ ?_ hs
  · rintro done edge rev₁ rev₂ ⟨hwf, hentry, hbound, hblock, hslots⟩ hstep
    obtain ⟨hwf', hentry', hbound', hblock', hslots'⟩ := addEdge_spec hwf hslots hstep
    rw [append_assoc] at hslots'
    exact ⟨hwf', hentry'.trans hentry, hbound'.trans hbound, fun b => (hblock' b).trans (hblock b), hslots'⟩
  · rw [append_nil]
    exact ⟨h, rfl, rfl, fun _ => rfl, hedges⟩

/-- What the choice of the entry adds to the edges. -/
def synthetic (exits : List Nat) (synth : Nat) : List (Nat × Nat × EdgeKind) :=
  match exits with
  | [] | [_] => []
  | exits => exits.map fun exit => (synth, exit, EdgeKind.unconditional)

/-- The entry chosen for a source with these exits: slot 0, the only exit or a block past the bound. -/
def chosen (exits : List Nat) (synth : Nat) : Nat :=
  match exits with
  | [] => 0
  | [exit] => exit
  | _ => synth

theorem setEntry_spec (h : rev.WF) (hs : rev.setEntry b = some rev') :
    rev'.WF ∧ rev'.entry = b ∧ rev'.blockBound = rev.blockBound ∧ rev'.edgeBound = rev.edgeBound ∧
      (∀ e, rev'.edge e = rev.edge e) ∧ ∀ i, rev'.block i = rev.block i := by
  unfold setEntry at hs
  split at hs
  · next hlive =>
    cases hs
    exact ⟨⟨h.graph, hlive⟩, rfl, rfl, rfl, fun _ => rfl, fun _ => rfl⟩
  · cases hs

theorem chooseEntry_spec (h : rev.WF) (hedges : EdgeSlots rev edges)
    (hzero : rev.entry = 0) {exits : List Nat} (hs : chooseEntry exits rev = some rev') :
    rev'.WF ∧ rev'.entry = chosen exits rev.blockBound ∧ EdgeSlots rev' (edges ++ synthetic exits rev.blockBound) ∧
      (∀ b < rev.blockBound, rev'.block b = rev.block b) ∧
      ∀ b, rev'.containsBlock b → b < rev.blockBound ∨ b = rev'.entry := by
  unfold chooseEntry at hs
  split at hs
  · cases hs
    exact ⟨h, hzero, by simpa [synthetic] using hedges, fun _ _ => rfl, fun b hb => Or.inl (block_lt hb)⟩
  · next exit =>
    obtain ⟨hwf, hentry, hbound, hedgeBound, hedge, hblock⟩ := setEntry_spec h hs
    exact ⟨hwf, hentry, by simpa [synthetic] using hedges.congr hedgeBound hedge, fun b _ => hblock b,
      fun b hb => Or.inl (hbound ▸ block_lt hb)⟩
  · next hnil hone =>
    simp only [Option.bind_eq_bind, Option.bind_eq_some_iff] at hs
    obtain ⟨⟨synth, rev₁⟩, hnew, rev₂, hadd, hset⟩ := hs
    obtain ⟨rfl, hwf₁, hframe₁, hblock₁, hedge₁, hbound₁, hedgeBound₁⟩ := newBlock_spec h hnew
    obtain ⟨hwf₂, hentry₂, hbound₂, hblock₂, hslots₂⟩ := addEdges_spec hwf₁ (hedges.congr hedgeBound₁ hedge₁) hadd
    obtain ⟨hwf, hentry, hbound, hedgeBound, hedge, hblock⟩ := setEntry_spec hwf₂ hset
    have hchosen : chosen exits rev.blockBound = rev.blockBound := by
      cases exits with
      | nil => exact absurd rfl hnil
      | cons exit rest =>
        cases rest with
        | nil => exact absurd rfl (hone exit)
        | cons => rfl
    have hsynth : synthetic exits rev.blockBound =
        exits.map fun exit => (rev.blockBound, exit, EdgeKind.unconditional) := by
      cases exits with
      | nil => rfl
      | cons exit rest =>
        cases rest with
        | nil => exact absurd rfl (hone exit)
        | cons => rfl
    refine ⟨hwf, hentry.trans hchosen.symm, ?_, fun b hb => ?_, fun b hb => ?_⟩
    · rw [hsynth]
      exact hslots₂.congr hedgeBound hedge
    · rw [hblock, hblock₂, hblock₁, if_neg (Nat.ne_of_lt hb)]
    · have hlt := block_lt hb
      omega

/-- The dead slots of the source below `n` have been retired. -/
structure Retiring (c : Cfg ι π) (rev₀ : Cfg ι Unit) (done : List Nat) (rev : Cfg ι Unit) : Prop where
  wf : rev.WF
  entry : rev.entry = rev₀.entry
  edgeBound : rev.edgeBound = rev₀.edgeBound
  edge : ∀ e, rev.edge e = rev₀.edge e
  block : ∀ b, rev.block b = if b ∈ done ∧ c.containsBlock b = false ∧ b ≠ rev₀.entry then none else rev₀.block b

/-- No edge touches a dead slot of the source, apart from the one the entry stands on. -/
def Untouched (c : Cfg ι π) (rev : Cfg ι Unit) : Prop :=
  ∀ e r, rev.edge e = some r → ∀ b < c.blockBound, c.containsBlock b = false → b ≠ rev.entry → r.source ≠ b ∧ r.target ≠ b

theorem Retiring.step {done : List Nat} (h : Retiring c rev₀ done rev)
    (huntouched : Untouched c rev₀) (hb : b < c.blockBound) :
    ∃ rev', retire c rev b = some rev' ∧ Retiring c rev₀ (done ++ [b]) rev' := by
  unfold retire
  by_cases hdead : c.containsBlock b = false ∧ b ≠ rev.entry
  · rw [if_pos hdead]
    have hentry := h.entry
    obtain ⟨rev', hremove, hwf, hframe, hblock, hedge, hbound⟩ := removeBlock_of_untouched h.wf hdead.2
      fun e r hr => huntouched e r ((h.edge e).symm.trans hr) b hb hdead.1 (hentry ▸ hdead.2)
    refine ⟨rev', hremove, hwf, hframe.entry.trans hentry, hbound.trans h.edgeBound,
      fun e => (hedge e).trans (h.edge e), fun i => ?_⟩
    rw [hblock, h.block]
    by_cases hi : i = b
    · subst hi
      rw [if_pos rfl, if_pos ⟨by simp, hdead.1, hentry ▸ hdead.2⟩]
    · simp [hi]
  · rw [if_neg hdead]
    refine ⟨rev, rfl, h.wf, h.entry, h.edgeBound, h.edge, fun i => ?_⟩
    rw [h.block]
    by_cases hi : i = b
    · subst hi
      rw [h.entry] at hdead
      rw [if_neg (fun hc => hdead hc.2), if_neg (fun hc => hdead hc.2)]
    · simp [hi]

theorem retired (h : rev₀.WF) (huntouched : Untouched c rev₀) :
    ∃ rev, (List.range c.blockBound).foldlM (retire c) rev₀ = some rev ∧
      Retiring c rev₀ (List.range c.blockBound) rev := by
  refine foldlM_option_total (I := fun done rev => Retiring c rev₀ done rev)
    (fun done b rest rev hl ih => ih.step huntouched ?_) ⟨h, rfl, rfl, fun _ => rfl, fun _ => (if_neg (by simp)).symm⟩
  exact mem_range.mp (by rw [hl]; simp)

/-! ## The result -/

structure Reversed (c : Cfg ι π) (rev : Cfg ι Unit) : Prop where
  wf : rev.WF
  entry : rev.entry = chosen c.exitBlocks c.blockBound
  slots : EdgeSlots rev (c.liveEdges.map swapped ++ synthetic c.exitBlocks c.blockBound)
  contents : ∀ b, c.containsBlock b → rev.block b = c.block b
  contains : ∀ b, rev.containsBlock b ↔ c.containsBlock b ∨ b = rev.entry

theorem chosen_cases (exits : List Nat) (synth : Nat) :
    (exits = [] ∧ chosen exits synth = 0 ∧ synthetic exits synth = []) ∨
      (exits = [chosen exits synth] ∧ synthetic exits synth = []) ∨
      (1 < exits.length ∧ chosen exits synth = synth ∧
        synthetic exits synth = exits.map fun exit => (synth, exit, EdgeKind.unconditional)) := by
  cases exits with
  | nil => exact Or.inl ⟨rfl, rfl, rfl⟩
  | cons exit rest =>
    cases rest with
    | nil => exact Or.inr (Or.inl ⟨rfl, rfl⟩)
    | cons => exact Or.inr (Or.inr ⟨by simp, rfl, rfl⟩)

theorem mem_exitBlocks : b ∈ c.exitBlocks ↔ c.containsBlock b ∧ c.outgoing b = [] := by
  simp [exitBlocks, mem_blockIds]

theorem edge_ends (hc : c.WF) {r : Store.EdgeRecord (Edge Unit)}
    (hr : r ∈ (c.liveEdges.map swapped ++ synthetic c.exitBlocks c.blockBound).map record) :
    (c.containsBlock r.source ∧ c.containsBlock r.target) ∨
      (r.source = c.blockBound ∧ r.source = chosen c.exitBlocks c.blockBound ∧ r.target ∈ c.exitBlocks) := by
  obtain ⟨edge, hedge, rfl⟩ := mem_map.mp hr
  rcases mem_append.mp hedge with hedge | hedge
  · obtain ⟨r₀, hr₀, rfl⟩ := mem_map.mp hedge
    obtain ⟨e, he⟩ := mem_liveEdges.mp hr₀
    exact Or.inl ⟨hc.target_live he, hc.source_live he⟩
  · rcases chosen_cases c.exitBlocks c.blockBound with ⟨_, _, hnil⟩ | ⟨_, hnil⟩ | ⟨_, hchosen, hsynth⟩
    · rw [hnil] at hedge
      cases hedge
    · rw [hnil] at hedge
      cases hedge
    · rw [hsynth] at hedge
      obtain ⟨exit, hexit, rfl⟩ := mem_map.mp hedge
      exact Or.inr ⟨rfl, hchosen.symm, hexit⟩

/-- The slots of the source, filled and joined, before an entry is chosen. -/
structure Joined (c : Cfg ι π) (rev : Cfg ι Unit) : Prop where
  wf : rev.WF
  entry : rev.entry = 0
  bound : rev.blockBound = c.blockBound
  slots : EdgeSlots rev (c.liveEdges.map swapped)
  block : ∀ b < c.blockBound, rev.block b = if c.containsBlock b then c.block b else some ⟨[], none⟩

theorem Joined.live (h : Joined c rev) (hb : b < c.blockBound) : rev.containsBlock b := by
  rw [containsBlock, h.block b hb]
  split
  · next hlive => exact hlive
  · rfl

theorem joined_of_stages (hc : c.WF) {rev₁ rev₂ : Cfg ι Unit}
    (hnew : (Cfg.new : Cfg ι Unit).newBlocks (c.blockBound - 1) = some rev₁)
    (hmirror : c.blockIds.foldlM (mirrorBlock c) rev₁ = some rev₂)
    (hadd : (c.liveEdges.map swapped).foldlM addEdge rev₂ = some rev) : Joined c rev := by
  have hpos : 0 < c.blockBound := Nat.lt_of_le_of_lt (Nat.zero_le _) (block_lt hc.entry)
  obtain ⟨hwf₁, hentry₁, hbound₁, hslots₁, hblock₁⟩ := newBlocks_slots hpos hnew
  have h₂ := mirrored hwf₁ (fun b hb => (hblock₁ b).trans (if_pos (block_lt (mem_blockIds.mp hb)))) hmirror
  obtain ⟨hwf, hentry, hbound, hblock, hslots⟩ := addEdges_spec h₂.wf (hslots₁.congr h₂.edgeBound h₂.edge) hadd
  refine ⟨hwf, hentry.trans (h₂.entry.trans hentry₁), hbound.trans (h₂.bound.trans hbound₁), hslots, fun b hb => ?_⟩
  rw [hblock, h₂.block, hblock₁, if_pos hb]
  by_cases hlive : c.containsBlock b
  · rw [if_pos (mem_blockIds.mpr hlive), if_pos hlive]
  · rw [if_neg fun hc => hlive (mem_blockIds.mp hc), if_neg hlive]

theorem untouched_of_slots (hc : c.WF)
    (hslots : EdgeSlots rev (c.liveEdges.map swapped ++ synthetic c.exitBlocks c.blockBound)) : Untouched c rev := by
  intro e r hr b hb hdead hne
  have hmem : r ∈ (c.liveEdges.map swapped ++ synthetic c.exitBlocks c.blockBound).map record := by
    rw [← hslots.liveEdges]
    exact mem_liveEdges.mpr ⟨e, hr⟩
  have hother : ∀ a, c.containsBlock a → a ≠ b := fun a ha heq => by
    rw [heq, hdead] at ha
    cases ha
  rcases edge_ends hc hmem with ⟨hsource, htarget⟩ | ⟨hsource, hchosen, htarget⟩
  · exact ⟨hother _ hsource, hother _ htarget⟩
  · exact ⟨by omega, hother _ (mem_exitBlocks.mp htarget).1⟩

theorem Joined.reversed (hc : c.WF) (h : Joined c rev) {rev₁ rev₂ : Cfg ι Unit}
    (hchoose : chooseEntry c.exitBlocks rev = some rev₁) (hretire : (List.range c.blockBound).foldlM (retire c) rev₁ = some rev₂) :
    Reversed c rev₂ := by
  obtain ⟨hwf₁, hentry₁, hslots₁, hblock₁, hpast⟩ := chooseEntry_spec h.wf h.slots h.entry hchoose
  rw [h.bound] at hentry₁ hslots₁ hblock₁ hpast
  obtain ⟨rev', hrun, hretired⟩ := retired hwf₁ (untouched_of_slots hc hslots₁)
  rw [hretire] at hrun
  cases hrun
  have hentry := hretired.entry
  refine ⟨hretired.wf, hentry.trans hentry₁, hslots₁.congr hretired.edgeBound hretired.edge, fun b hlive => ?_, fun b => ?_⟩
  · rw [hretired.block, if_neg fun hc => (by rw [hlive] at hc; cases hc.2.1), hblock₁ b (block_lt hlive),
      h.block b (block_lt hlive), if_pos hlive]
  · rw [hentry]
    by_cases hb : b < c.blockBound
    · rw [containsBlock, hretired.block, hblock₁ b hb]
      by_cases hlive : c.containsBlock b
      · rw [if_neg fun hc => (by rw [hlive] at hc; cases hc.2.1)]
        exact ⟨fun _ => Or.inl hlive, fun _ => h.live hb⟩
      · by_cases heq : b = rev₁.entry
        · rw [if_neg fun hc => hc.2.2 heq]
          exact ⟨fun _ => Or.inr heq, fun _ => h.live hb⟩
        · rw [if_pos ⟨mem_range.mpr hb, by simpa using hlive, heq⟩]
          refine ⟨fun hnone => (by cases hnone), fun hor => ?_⟩
          rcases hor with hlive' | heq'
          · exact absurd hlive' hlive
          · exact absurd heq' heq
    · have hdead : ¬ c.containsBlock b := fun hlive => hb (block_lt hlive)
      have hsame : rev₂.containsBlock b = rev₁.containsBlock b := by
        rw [containsBlock, hretired.block, if_neg fun hc => hb (mem_range.mp hc.1)]
        rfl
      rw [hsame]
      -- past the bound there is at most the synthetic block
      exact ⟨fun hlive => Or.inr ((hpast b hlive).resolve_left hb), fun hor => hor.resolve_left hdead ▸ hwf₁.entry⟩

theorem reversed_of_some (hc : c.WF) (hs : reverseCfg c = some rev) : Reversed c rev := by
  unfold reverseCfg at hs
  split at hs
  · cases hs
  · simp only [Option.bind_eq_bind, Option.bind_eq_some_iff] at hs
    obtain ⟨rev₁, hnew, rev₂, hmirror, rev₃, hadd, rev₄, hchoose, hretire⟩ := hs
    exact (joined_of_stages hc hnew hmirror hadd).reversed hc hchoose hretire

/-! ## Room -/

theorem exists_addEdges (h : rev.WF) (new : List (Nat × Nat × EdgeKind)) (hedges : EdgeSlots rev edges)
    (hends : ∀ edge ∈ new, rev.containsBlock edge.1 ∧ rev.containsBlock edge.2.1)
    (hroom : edges.length + new.length ≤ Store.maxSlots) : ∃ rev', new.foldlM addEdge rev = some rev' := by
  have hstep : ∀ done edge rest rev₁, new = done ++ edge :: rest →
      (rev₁.WF ∧ (∀ b, rev₁.block b = rev.block b) ∧ EdgeSlots rev₁ (edges ++ done)) →
      ∃ rev₂, addEdge rev₁ edge = some rev₂ ∧
        rev₂.WF ∧ (∀ b, rev₂.block b = rev.block b) ∧ EdgeSlots rev₂ (edges ++ (done ++ [edge])) := by
    rintro done edge rest rev₁ hl ⟨hwf, hblock, hslots⟩
    have hlive : ∀ b, rev.containsBlock b → rev₁.containsBlock b := fun b hb => by rw [containsBlock, hblock]; exact hb
    obtain ⟨hsource, htarget⟩ := hends edge (by rw [hl]; simp)
    have hlen : rev₁.edgeBound < Store.maxSlots := by
      rw [hslots.bound, length_append]
      rw [hl] at hroom
      simp only [length_append, length_cons] at hroom
      omega
    have hadd : ∃ rev₂, addEdge rev₁ edge = some rev₂ := by
      rw [← Option.isSome_iff_exists]
      unfold addEdge addEdgeWithPayload Store.Naive.addEdge
      rw [if_pos ⟨hlive _ hsource, hlive _ htarget, hlen⟩]
      rfl
    obtain ⟨rev₂, hstep⟩ := hadd
    obtain ⟨hwf', -, -, hblock', hslots'⟩ := addEdge_spec hwf hslots hstep
    rw [append_assoc] at hslots'
    exact ⟨rev₂, hstep, hwf', fun b => (hblock' b).trans (hblock b), hslots'⟩
  obtain ⟨rev', hs, -⟩ := foldlM_option_total hstep ⟨h, fun _ => rfl, by rwa [append_nil]⟩
  exact ⟨rev', hs⟩

theorem exists_chooseEntry (h : Joined c rev) (hblocks : c.blockBound < Store.maxSlots)
    (hedges : c.liveEdges.length + c.exitBlocks.length ≤ Store.maxSlots) :
    ∃ rev', chooseEntry c.exitBlocks rev = some rev' := by
  have hlive : ∀ b ∈ c.exitBlocks, rev.containsBlock b := fun b hb => h.live (block_lt (mem_exitBlocks.mp hb).1)
  unfold chooseEntry
  split
  · exact ⟨rev, rfl⟩
  · next exit hexit =>
    refine ⟨_, if_pos (hlive exit ?_)⟩
    rw [hexit]
    exact mem_singleton_self exit
  · have hnew : ∃ added, rev.newBlock = some added := by
      rw [← Option.isSome_iff_exists]
      unfold newBlock Store.Naive.addNode
      have hroom : rev.graph.nodes.length < Store.maxSlots := Nat.lt_of_le_of_lt (Nat.le_of_eq h.bound) hblocks
      rw [if_pos hroom]
      rfl
    obtain ⟨⟨synth, rev₁⟩, hadded⟩ := hnew
    obtain ⟨rfl, hwf₁, -, hblock₁, hedge₁, hbound₁, hedgeBound₁⟩ := newBlock_spec h.wf hadded
    have hsynth : rev₁.containsBlock rev.blockBound := by
      rw [containsBlock, hblock₁, if_pos rfl]
      rfl
    have hkept : ∀ b ∈ c.exitBlocks, rev₁.containsBlock b := fun b hb => by
      have hlt := block_lt (hlive b hb)
      rw [containsBlock, hblock₁, if_neg (Nat.ne_of_lt hlt)]
      exact hlive b hb
    obtain ⟨rev₂, hrun⟩ := exists_addEdges hwf₁
      (c.exitBlocks.map fun exit => (rev.blockBound, exit, .unconditional)) (h.slots.congr hedgeBound₁ hedge₁) (fun edge hedge => by
        obtain ⟨exit, hexit, rfl⟩ := mem_map.mp hedge
        exact ⟨hsynth, hkept exit hexit⟩) (by rw [length_map, length_map]; exact hedges)
    obtain ⟨-, -, -, hblock₂, -⟩ := addEdges_spec hwf₁ (h.slots.congr hedgeBound₁ hedge₁) hrun
    have hset : ∃ rev₃, rev₂.setEntry rev.blockBound = some rev₃ := by
      refine ⟨_, if_pos ?_⟩
      rw [containsBlock, hblock₂]
      exact hsynth
    obtain ⟨rev₃, hset⟩ := hset
    exact ⟨rev₃, by simp only [Option.bind_eq_bind, hadded, hrun, hset, Option.bind_some]⟩

theorem exists_reverse (hc : c.WF) (hblocks : c.blockBound < Store.maxSlots)
    (hedges : c.liveEdges.length + c.exitBlocks.length ≤ Store.maxSlots) : ∃ rev, reverseCfg c = some rev := by
  have hpos : 0 < c.blockBound := Nat.lt_of_le_of_lt (Nat.zero_le _) (block_lt hc.entry)
  have hne : c.blockIds ≠ [] := fun hnil => by
    have hmem := mem_blockIds.mpr hc.entry
    rw [hnil] at hmem
    cases hmem
  have hnew : ∃ rev₁, (Cfg.new : Cfg ι Unit).newBlocks (c.blockBound - 1) = some rev₁ := by
    have hone : (Cfg.new : Cfg ι Unit).graph.nodes.length = 1 := rfl
    exact ⟨_, newBlocks_eq (by omega)⟩
  obtain ⟨rev₁, hnew⟩ := hnew
  obtain ⟨rev₂, hmirror, -⟩ : ∃ rev₂, c.blockIds.foldlM (mirrorBlock c) rev₁ = some rev₂ ∧ True :=
    foldlM_option_total (I := fun _ _ => True) (fun done b rest rev hl _ => by
      have hmem : b ∈ c.blockIds := by rw [hl]; simp
      obtain ⟨src, hsrc⟩ := Option.isSome_iff_exists.mp (mem_blockIds.mp hmem)
      exact ⟨_, by rw [mirrorBlock, hsrc]; rfl, trivial⟩) trivial
  obtain ⟨hwf₁, -, hbound₁, hslots₁, hblock₁⟩ := newBlocks_slots hpos hnew
  have h₂ := mirrored hwf₁ (fun b hb => (hblock₁ b).trans (if_pos (block_lt (mem_blockIds.mp hb)))) hmirror
  have hlive : ∀ b, c.containsBlock b → rev₂.containsBlock b := fun b hb => by
    rw [containsBlock, h₂.block, if_pos (mem_blockIds.mpr hb)]
    exact hb
  obtain ⟨rev₃, hadd⟩ := exists_addEdges h₂.wf (c.liveEdges.map swapped) (hslots₁.congr h₂.edgeBound h₂.edge)
    (fun edge hedge => by
      obtain ⟨r, hr, rfl⟩ := mem_map.mp hedge
      obtain ⟨e, he⟩ := mem_liveEdges.mp hr
      exact ⟨hlive _ (hc.target_live he), hlive _ (hc.source_live he)⟩)
    (by rw [length_map, length_nil]; omega)
  have hjoined := joined_of_stages hc hnew hmirror hadd
  obtain ⟨rev₄, hchoose⟩ := exists_chooseEntry hjoined hblocks hedges
  obtain ⟨hwf₄, hentry₄, hslots₄, -, -⟩ := chooseEntry_spec hjoined.wf hjoined.slots hjoined.entry hchoose
  rw [hjoined.bound] at hslots₄
  obtain ⟨rev, hretire, -⟩ := retired hwf₄ (untouched_of_slots hc hslots₄)
  refine ⟨rev, ?_⟩
  unfold reverseCfg
  rw [if_neg hne]
  simp only [Option.bind_eq_bind, hnew, hmirror, hadd, hchoose, Option.bind_some, hretire]

/-! ## The transpose it is -/

theorem Reversed.liveEdges (h : Reversed c rev) :
    rev.liveEdges = (c.liveEdges.map swapped ++ synthetic c.exitBlocks c.blockBound).map record := h.slots.liveEdges

theorem Reversed.mem_successors (hc : c.WF) (h : Reversed c rev) {a : Nat} : b ∈ rev.successors a ↔
    a ∈ c.successors b ∨ (a, b, EdgeKind.unconditional) ∈ synthetic c.exitBlocks c.blockBound := by
  have hmem : b ∈ rev.successors a ↔ ∃ r ∈ rev.liveEdges, r.source = a ∧ r.target = b := by
    rw [h.wf.mem_successors]
    constructor
    · rintro ⟨e, r, hr, hsource, htarget⟩
      exact ⟨r, mem_liveEdges.mpr ⟨e, hr⟩, hsource, htarget⟩
    · rintro ⟨r, hr, hsource, htarget⟩
      obtain ⟨e, he⟩ := mem_liveEdges.mp hr
      exact ⟨e, r, he, hsource, htarget⟩
  have hkind : ∀ edge ∈ synthetic c.exitBlocks c.blockBound, edge.2.2 = .unconditional := by
    intro edge hedge
    rcases chosen_cases c.exitBlocks c.blockBound with ⟨_, _, hnil⟩ | ⟨_, hnil⟩ | ⟨_, _, hsynth⟩
    · rw [hnil] at hedge
      cases hedge
    · rw [hnil] at hedge
      cases hedge
    · rw [hsynth] at hedge
      obtain ⟨exit, -, rfl⟩ := mem_map.mp hedge
      rfl
  rw [hmem, h.liveEdges, hc.mem_successors]
  constructor
  · rintro ⟨r, hr, rfl, rfl⟩
    obtain ⟨edge, hedge, rfl⟩ := mem_map.mp hr
    rcases mem_append.mp hedge with hedge | hedge
    · obtain ⟨r₀, hr₀, rfl⟩ := mem_map.mp hedge
      obtain ⟨e, he⟩ := mem_liveEdges.mp hr₀
      exact Or.inl ⟨e, r₀, he, rfl, rfl⟩
    · refine Or.inr ?_
      have hk := hkind edge hedge
      obtain ⟨source, target, kind⟩ := edge
      subst hk
      exact hedge
  · rintro (⟨e, r, hr, rfl, rfl⟩ | hsynth)
    · exact ⟨record (swapped r), mem_map_of_mem (mem_append_left _ (mem_map_of_mem
        (mem_liveEdges.mpr ⟨e, hr⟩))), rfl, rfl⟩
    · exact ⟨_, mem_map_of_mem (mem_append_right _ hsynth), rfl, rfl⟩

theorem successors_live (hc : c.WF) {a : Nat} (h : b ∈ c.successors a) : c.containsBlock a ∧ c.containsBlock b := by
  obtain ⟨e, r, hr, rfl, rfl⟩ := hc.mem_successors.mp h
  exact ⟨hc.source_live hr, hc.target_live hr⟩

theorem Reversed.reaches_of_exit (hc : c.WF) (h : Reversed c rev) {exit : Nat} (hreach : c.ReachesBlock b exit) :
    rev.ReachesBlock exit b := by
  induction hreach using ReflTransGen.head_induction_on with
  | refl => exact .refl
  | head hstep _ ih => exact ih.tail ((h.mem_successors hc).mpr (Or.inl hstep))

theorem Reversed.exists_exit (hc : c.WF) (h : Reversed c rev) (hexits : c.exitBlocks ≠ [])
    (hreach : rev.ReachesBlock rev.entry b) (hb : c.containsBlock b) : ∃ exit ∈ c.exitBlocks, c.ReachesBlock b exit := by
  induction hreach with
  | refl =>
    -- the entry is a block of the source only where it is the only exit
    rcases chosen_cases c.exitBlocks c.blockBound with ⟨hnil, _, _⟩ | ⟨hone, _⟩ | ⟨_, hchosen, _⟩
    · exact absurd hnil hexits
    · refine ⟨rev.entry, ?_, .refl⟩
      rw [h.entry, hone]
      exact mem_singleton.mpr (by rw [← hone])
    · have hlt := block_lt hb
      rw [h.entry, hchosen] at hlt
      exact absurd hlt (Nat.lt_irrefl _)
  | @tail m b _ hstep ih =>
    rcases (h.mem_successors hc).mp hstep with hback | hsynth
    · obtain ⟨exit, hexit, hreach⟩ := ih (successors_live hc hback).2
      exact ⟨exit, hexit, .head hback hreach⟩
    · rcases chosen_cases c.exitBlocks c.blockBound with ⟨_, _, hnil⟩ | ⟨_, hnil⟩ | ⟨_, _, hsynth'⟩
      · rw [hnil] at hsynth
        cases hsynth
      · rw [hnil] at hsynth
        cases hsynth
      · rw [hsynth'] at hsynth
        obtain ⟨exit, hexit, heq⟩ := mem_map.mp hsynth
        cases heq
        exact ⟨_, hexit, .refl⟩

theorem Reversed.reaches_iff (hc : c.WF) (h : Reversed c rev) (hexits : c.exitBlocks ≠ []) (hb : c.containsBlock b) :
    rev.ReachesBlock rev.entry b ↔ ∃ exit ∈ c.exitBlocks, c.ReachesBlock b exit := by
  refine ⟨fun hreach => h.exists_exit hc hexits hreach hb, ?_⟩
  rintro ⟨exit, hexit, hreach⟩
  have hback := h.reaches_of_exit hc hreach
  rcases chosen_cases c.exitBlocks c.blockBound with ⟨hnil, _, _⟩ | ⟨hone, _⟩ | ⟨_, hchosen, hsynth⟩
  · exact absurd hnil hexits
  · rw [hone, ← h.entry] at hexit
    rwa [mem_singleton.mp hexit] at hback
  · refine .head ((h.mem_successors hc).mpr (Or.inr ?_)) hback
    rw [hsynth, h.entry, hchosen]
    exact mem_map_of_mem hexit

theorem Reversed.edges_inside (hc : c.WF) (h : Reversed c rev) :
    rev.liveEdges.filter (fun r => c.containsBlock r.source && c.containsBlock r.target) =
      c.liveEdges.map fun r => record (swapped r) := by
  have hinside : ((c.liveEdges.map swapped).map record).filter
      (fun r => c.containsBlock r.source && c.containsBlock r.target) = (c.liveEdges.map swapped).map record := by
    refine filter_eq_self.mpr fun r hr => ?_
    obtain ⟨edge, hedge, rfl⟩ := mem_map.mp hr
    obtain ⟨r₀, hr₀, rfl⟩ := mem_map.mp hedge
    obtain ⟨e, he⟩ := mem_liveEdges.mp hr₀
    exact Bool.and_eq_true_iff.mpr ⟨hc.target_live he, hc.source_live he⟩
  have houtside : ((synthetic c.exitBlocks c.blockBound).map record).filter
      (fun r => c.containsBlock r.source && c.containsBlock r.target) = [] := by
    refine filter_eq_nil_iff.mpr fun r hr hlive => ?_
    obtain ⟨edge, hedge, rfl⟩ := mem_map.mp hr
    rcases chosen_cases c.exitBlocks c.blockBound with ⟨_, _, hnil⟩ | ⟨_, hnil⟩ | ⟨_, _, hsynth⟩
    · rw [hnil] at hedge
      cases hedge
    · rw [hnil] at hedge
      cases hedge
    · rw [hsynth] at hedge
      obtain ⟨exit, -, rfl⟩ := mem_map.mp hedge
      exact absurd (block_lt (Bool.and_eq_true_iff.mp hlive).1) (Nat.lt_irrefl _)
  rw [h.liveEdges, map_append, filter_append, hinside, houtside, append_nil, List.map_map]
  rfl

theorem Reversed.edges_entry (hc : c.WF) (h : Reversed c rev) (hexits : c.exitBlocks ≠ []) :
    c.exitBlocks = [rev.entry] ∨ (1 < c.exitBlocks.length ∧ c.blockBound ≤ rev.entry ∧
      rev.liveEdges.filter (fun r => r.source == rev.entry) =
        c.exitBlocks.map fun exit => record (rev.entry, exit, .unconditional)) := by
  rcases chosen_cases c.exitBlocks c.blockBound with ⟨hnil, _, _⟩ | ⟨hone, _⟩ | ⟨hlen, hchosen, hsynth⟩
  · exact absurd hnil hexits
  · rw [h.entry]
    exact Or.inl hone
  · have hentry : rev.entry = c.blockBound := h.entry.trans hchosen
    refine Or.inr ⟨hlen, Nat.le_of_eq hentry.symm, ?_⟩
    have hold : ((c.liveEdges.map swapped).map record).filter (fun r => r.source == rev.entry) = [] := by
      refine filter_eq_nil_iff.mpr fun r hr hsource => ?_
      obtain ⟨edge, hedge, rfl⟩ := mem_map.mp hr
      obtain ⟨r₀, hr₀, rfl⟩ := mem_map.mp hedge
      obtain ⟨e, he⟩ := mem_liveEdges.mp hr₀
      have hlt := block_lt (hc.target_live he)
      have heq : r₀.target = rev.entry := eq_of_beq hsource
      omega
    have hnew : ((synthetic c.exitBlocks c.blockBound).map record).filter (fun r => r.source == rev.entry) =
        (synthetic c.exitBlocks c.blockBound).map record := by
      refine filter_eq_self.mpr fun r hr => ?_
      rw [hsynth] at hr
      obtain ⟨edge, hedge, rfl⟩ := mem_map.mp hr
      obtain ⟨exit, -, rfl⟩ := mem_map.mp hedge
      exact beq_iff_eq.mpr hentry.symm
    rw [h.liveEdges, map_append, filter_append, hold, hnew, nil_append, hsynth, List.map_map, hentry]
    rfl

/-- The construction is the transpose where there is an exit, or slot 0 is live. -/
theorem Reversed.transposed (hc : c.WF) (h : Reversed c rev) (hcond : c.exitBlocks ≠ [] ∨ c.containsBlock 0) :
    Transposed c rev := by
  refine ⟨h.wf, ?_, h.contents, h.edges_inside hc, h.edges_entry hc, fun hexits b hb => h.reaches_iff hc hexits hb⟩
  rcases chosen_cases c.exitBlocks c.blockBound with ⟨hnil, hchosen, _⟩ | ⟨hone, _⟩ | ⟨_, hchosen, _⟩
  · have hzero := hcond.resolve_left fun hne => hne hnil
    refine ⟨none, fun s hs => (by cases hs), fun b => (h.contains b).trans ?_⟩
    rw [h.entry, hchosen]
    constructor
    · rintro (hb | rfl)
      · exact Or.inl hb
      · exact Or.inl hzero
    · rintro (hb | hnone)
      · exact Or.inl hb
      · cases hnone
  · have hlive : c.containsBlock rev.entry := by
      have hmem : rev.entry ∈ c.exitBlocks := by
        rw [h.entry, hone]
        exact mem_singleton.mpr (by rw [← hone])
      exact (mem_exitBlocks.mp hmem).1
    refine ⟨none, fun s hs => (by cases hs), fun b => (h.contains b).trans ?_⟩
    constructor
    · rintro (hb | rfl)
      · exact Or.inl hb
      · exact Or.inl hlive
    · rintro (hb | hnone)
      · exact Or.inl hb
      · cases hnone
  · refine ⟨some c.blockBound, fun s hs => Nat.le_of_eq (Option.some.inj hs), fun b => (h.contains b).trans ?_⟩
    rw [h.entry, hchosen, Option.some.injEq]
    exact or_congr_right eq_comm

/-- Without an exit and with slot 0 removed, slot 0 comes back to life. -/
theorem Reversed.not_transposed (hc : c.WF) (h : Reversed c rev) (hnil : c.exitBlocks = [])
    (hzero : ¬ c.containsBlock 0) : ¬ Transposed c rev := by
  intro ht
  obtain ⟨synth, hpast, hlive⟩ := ht.live
  have hentry : rev.entry = 0 := by
    rw [h.entry, hnil]
    rfl
  have hpos := block_lt hc.entry
  rcases (hlive 0).mp (hentry ▸ h.wf.entry) with hc0 | hsynth
  · exact hzero hc0
  · have := hpast 0 hsynth
    omega

end Reverse

/-- The reverse exists wherever there is room for it, and is the transpose of the graph exactly when the graph has an
exit or its slot 0 is live. -/
theorem reverseCfg_exact {c : Cfg ι π} (hc : c.WF) :
    (c.blockBound < Store.maxSlots → c.liveEdges.length + c.exitBlocks.length ≤ Store.maxSlots →
      ∃ rev, reverseCfg c = some rev) ∧
      ∀ rev, reverseCfg c = some rev → (Transposed c rev ↔ c.exitBlocks ≠ [] ∨ c.containsBlock 0) := by
  refine ⟨Reverse.exists_reverse hc, fun rev hs => ?_⟩
  have h := Reverse.reversed_of_some hc hs
  refine ⟨fun ht => ?_, h.transposed hc⟩
  by_contra hcond
  rw [not_or, not_not] at hcond
  exact h.not_transposed hc hcond.1 hcond.2 ht

/-- A block that only jumps to itself, in slot 1 beside the removed slot 0. -/
def spinning : Cfg Nat Unit where
  graph := ⟨[none, some ⟨[], none⟩], [some ⟨1, 1, ⟨.back, none, ()⟩⟩], fun _ n => if n = 1 then [0] else []⟩
  entry := 1
  regions := []
  cleanups := []

theorem wf_spinning : spinning.WF := by
  have hedge : ∀ e r, spinning.graph.edge e = some r → e = 0 ∧ r = ⟨1, 1, ⟨.back, none, ()⟩⟩ := by
    intro e r hr
    cases e with
    | zero => exact ⟨rfl, (Option.some.inj hr).symm⟩
    | succ e => simp [spinning, Store.Naive.edge] at hr
  refine ⟨⟨fun d n e => ?_, fun d n => ?_, fun d e r hr => ?_⟩, rfl⟩
  · by_cases hn : n = 1
    · subst hn
      constructor
      · intro he
        obtain rfl : e = 0 := by simpa [spinning] using he
        exact ⟨_, rfl, by cases d <;> rfl⟩
      · rintro ⟨r, hr, -⟩
        rw [(hedge e r hr).1]
        simp [spinning]
    · constructor
      · intro he
        simp [spinning, hn] at he
      · rintro ⟨r, hr, rfl⟩
        rw [(hedge e r hr).2] at hn
        cases d <;> exact absurd rfl hn
  · by_cases hn : n = 1 <;> simp [spinning, hn]
  · rw [(hedge e r hr).2]
    cases d <;> rfl

theorem reverseCfg_exact_spinning : (∃ rev, reverseCfg spinning = some rev) ∧
    ∀ rev, reverseCfg spinning = some rev →
      (Transposed spinning rev ↔ spinning.exitBlocks ≠ [] ∨ spinning.containsBlock 0) := by
  obtain ⟨hexists, hexact⟩ := reverseCfg_exact wf_spinning
  exact ⟨hexists (by decide) (by decide), hexact⟩

/-- The reverse of the spinning block has the removed slot 0 as a live entry. -/
theorem reverseCfg_revives : ∃ rev, reverseCfg spinning = some rev ∧ ¬ spinning.containsBlock 0 ∧
    rev.containsBlock 0 ∧ rev.entry = 0 ∧ ¬ Transposed spinning rev := by
  have hrun : ∃ rev, reverseCfg spinning = some rev ∧ rev.containsBlock 0 ∧ rev.entry = 0 := ⟨_, rfl, rfl, rfl⟩
  obtain ⟨rev, hs, hlive, hentry⟩ := hrun
  have hnone : spinning.containsBlock 0 = false := rfl
  have hexits : spinning.exitBlocks = [] := by decide
  refine ⟨rev, hs, by rw [hnone]; exact Bool.false_ne_true, hlive, hentry, ?_⟩
  exact (Reverse.reversed_of_some wf_spinning hs).not_transposed wf_spinning hexits (by rw [hnone]; exact Bool.false_ne_true)

end CfgLib

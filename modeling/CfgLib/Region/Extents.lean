import CfgLib.Cfg.Mutation
import CfgLib.Graph.Traverse
import CfgLib.Lib.MapM
import Mathlib.Data.Finset.Union
import Mathlib.Data.List.Dedup

/-!
# Exclusive handler extents

`region/recover.rs`: the blocks that only one handler entry reaches along
normal edges, with the boundary of that set and what makes it ambiguous.
-/

namespace CfgLib

open CfgLib.Lib Relation List

deriving instance DecidableEq, Repr for HandlerRef

namespace Cfg

variable {ι π : Type}

/-! ## The view through a predicate -/

def acceptedEnd (c : Cfg ι π) (accepts : Nat → Edge π → Bool) (side : Store.EdgeRecord (Edge π) → Nat) (e : Nat) :
    Option Nat :=
  (c.edge e).bind fun r => if accepts e r.payload then some (side r) else none

/-- `graph/edge_view.rs`: the graph with only the edges that the predicate accepts. -/
def filteredEdges (c : Cfg ι π) (accepts : Nat → Edge π → Bool) : RootedView where
  nodeBound := c.blockBound
  nodeIds := c.blockIds
  successors b := (c.outgoing b).filterMap (c.acceptedEnd accepts (·.target))
  predecessors b := (c.incoming b).filterMap (c.acceptedEnd accepts (·.source))
  root := c.entry

def Accepted (c : Cfg ι π) (accepts : Nat → Edge π → Bool) (a b : Nat) : Prop :=
  ∃ e r, c.edge e = some r ∧ accepts e r.payload = true ∧ r.source = a ∧ r.target = b

variable {c : Cfg ι π} {accepts : Nat → Edge π → Bool}

variable {a b : Nat}

theorem acceptedEnd_eq_some {side : Store.EdgeRecord (Edge π) → Nat} {e : Nat} :
    c.acceptedEnd accepts side e = some b ↔ ∃ r, c.edge e = some r ∧ accepts e r.payload = true ∧ side r = b := by
  rw [acceptedEnd, Option.bind_eq_some_iff]
  refine exists_congr fun r => and_congr_right fun _ => ?_
  by_cases h : accepts e r.payload = true <;> simp [h]

theorem WF.mem_accepted_successors (hc : c.WF) :
    b ∈ (c.filteredEdges accepts).successors a ↔ c.Accepted accepts a b := by
  unfold filteredEdges
  dsimp only
  simp only [mem_filterMap, acceptedEnd_eq_some]
  constructor
  · rintro ⟨e, he, r, hr, haccepts, ht⟩
    obtain ⟨r', hr', hs⟩ := hc.mem_outgoing.mp he
    cases hr.symm.trans hr'
    exact ⟨e, r, hr, haccepts, hs, ht⟩
  · rintro ⟨e, r, hr, haccepts, hs, ht⟩
    exact ⟨e, hc.mem_outgoing.mpr ⟨r, hr, hs⟩, r, hr, haccepts, ht⟩

theorem WF.mem_accepted_predecessors (hc : c.WF) :
    a ∈ (c.filteredEdges accepts).predecessors b ↔ c.Accepted accepts a b := by
  unfold filteredEdges
  dsimp only
  simp only [mem_filterMap, acceptedEnd_eq_some]
  constructor
  · rintro ⟨e, he, r, hr, haccepts, hs⟩
    obtain ⟨r', hr', ht⟩ := hc.mem_incoming.mp he
    cases hr.symm.trans hr'
    exact ⟨e, r, hr, haccepts, hs, ht⟩
  · rintro ⟨e, r, hr, haccepts, hs, ht⟩
    exact ⟨e, hc.mem_incoming.mpr ⟨r, hr, ht⟩, r, hr, haccepts, hs⟩

theorem WF.count_accepted (hc : c.WF) (a b : Nat) : ((c.filteredEdges accepts).successors a).count b =
    ((c.filteredEdges accepts).predecessors b).count a := by
  unfold filteredEdges
  dsimp only
  rw [Store.Naive.count_filterMap, Store.Naive.count_filterMap]
  apply List.Perm.length_eq
  refine (perm_ext_iff_of_nodup ((hc.graph.nodup .outgoing a).filter _)
    ((hc.graph.nodup .incoming b).filter _)).mpr fun e => ?_
  rw [mem_filter, mem_filter, decide_eq_true_iff, decide_eq_true_iff, acceptedEnd_eq_some,
    acceptedEnd_eq_some]
  constructor
  · rintro ⟨he, r, hr, haccepts, ht⟩
    obtain ⟨r', hr', hs⟩ := hc.mem_outgoing.mp he
    cases hr.symm.trans hr'
    exact ⟨hc.mem_incoming.mpr ⟨r, hr, ht⟩, r, hr, haccepts, hs⟩
  · rintro ⟨he, r, hr, haccepts, hs⟩
    obtain ⟨r', hr', ht⟩ := hc.mem_incoming.mp he
    cases hr.symm.trans hr'
    exact ⟨hc.mem_outgoing.mpr ⟨r, hr, hs⟩, r, hr, haccepts, ht⟩

theorem Accepted.live (hc : c.WF) (h : c.Accepted accepts a b) : c.containsBlock a ∧ c.containsBlock b := by
  obtain ⟨e, r, hr, -, rfl, rfl⟩ := h
  exact ⟨hc.source_live hr, hc.target_live hr⟩

theorem WF.lawful_filteredEdges (hc : c.WF) : (c.filteredEdges accepts).Lawful where
  nodeIds_lt := hc.lawful_view.nodeIds_lt
  nodeIds_nodup := hc.lawful_view.nodeIds_nodup
  successors_lt _ _ _ hm := block_lt ((hc.mem_accepted_successors.mp hm).live hc).2
  predecessors_lt _ _ _ hm := block_lt ((hc.mem_accepted_predecessors.mp hm).live hc).1
  successors_live _ _ _ hm := mem_blockIds.mpr ((hc.mem_accepted_successors.mp hm).live hc).2
  predecessors_live _ _ _ hm := mem_blockIds.mpr ((hc.mem_accepted_predecessors.mp hm).live hc).1
  transpose source target _ _ := hc.count_accepted source target

end Cfg

/-! ## Recovery -/

/-- Why one extent cannot be claimed unambiguously. -/
inductive ExtentIssue where
  | entryReachableFromNormalFlow
  | entryReachableFromAnotherHandler
  | externalEntry (block predecessor : Nat)
  deriving DecidableEq, Repr

/-- Block ownership and boundary evidence for one handler body; the issues come in their order. -/
structure ExclusiveExtent where
  handler : HandlerRef
  entry : Nat
  blocks : Finset Nat
  boundaryBlocks : Finset Nat
  issues : Finset ExtentIssue

namespace Cfg

variable {ι π : Type}

def handlerEntries (c : Cfg ι π) : List (HandlerRef × Nat) :=
  c.regions.flatMap fun region => region.handlers.mapIdx fun index handler => (⟨region.id, index⟩, handler.entry)

def exclusiveExtent (c : Cfg ι π) (isNormal : Nat → Edge π → Bool) (methodReachable : Nat → Bool)
    (entryReachability : List (Nat × (Nat → Bool))) (handler : HandlerRef) (entry : Nat) (fromEntry : Nat → Bool) :
    ExclusiveExtent :=
  let normal := c.filteredEdges isNormal
  let blocks := (c.blockIds.filter fun block => fromEntry block && !methodReachable block &&
    entryReachability.all fun other => other.1 == entry || !other.2 block).toFinset
  { handler
    entry
    blocks
    boundaryBlocks := (if entry ∈ blocks then ∅ else {entry}) ∪
      blocks.biUnion fun block => ((normal.successors block).filter (· ∉ blocks)).toFinset
    issues := (if methodReachable entry then {.entryReachableFromNormalFlow} else ∅) ∪
      (if entryReachability.any fun other => other.1 != entry && other.2 entry then
        {.entryReachableFromAnotherHandler} else ∅) ∪
      (blocks.filter (· ≠ entry)).biUnion fun block =>
        (((normal.predecessors block).filter (· ∉ blocks)).map (ExtentIssue.externalEntry block)).toFinset }

/-- Every handler's extent under a classification of the edges; `none` is the panic on a handler
entry beyond the blocks. -/
def recoverExclusiveExtentsWith (c : Cfg ι π) (isNormal : Nat → Edge π → Bool) : Option (List ExclusiveExtent) := do
  let normal := (c.filteredEdges isNormal).toGraphView
  let methodReachable ← reachable normal [c.entry] .outgoing
  let entryReachability ← (c.handlerEntries.map (·.2)).dedup.mapM fun entry =>
    (reachable normal [entry] .outgoing).map fun marked => (entry, marked)
  c.handlerEntries.mapM fun pair => do
    let fromEntry ← entryReachability.lookup pair.2
    pure (c.exclusiveExtent isNormal methodReachable entryReachability pair.1 pair.2 fromEntry)

def recoverExclusiveExtents (c : Cfg ι π) : Option (List ExclusiveExtent) :=
  c.recoverExclusiveExtentsWith fun _ edge => !edge.kind.isExceptional

/-! ## What an extent holds -/

/-- Ordinary control flow leads from `a` to `b`. -/
def NormalPath (c : Cfg ι π) (isNormal : Nat → Edge π → Bool) : Nat → Nat → Prop :=
  ReflTransGen (c.Accepted isNormal)

def IsHandlerEntry (c : Cfg ι π) (entry : Nat) : Prop := ∃ pair ∈ c.handlerEntries, pair.2 = entry

/-- The evidence about one handler: its blocks are those only its entry reaches, and its issues are
all the reasons its boundary is ambiguous. -/
structure ExtentOf (c : Cfg ι π) (isNormal : Nat → Edge π → Bool) (pair : HandlerRef × Nat) (x : ExclusiveExtent) :
    Prop where
  handler : x.handler = pair.1
  entry : x.entry = pair.2
  mem_blocks : ∀ b, b ∈ x.blocks ↔ c.containsBlock b ∧ c.NormalPath isNormal x.entry b ∧
    ¬ c.NormalPath isNormal c.entry b ∧ ∀ other, c.IsHandlerEntry other → other ≠ x.entry →
      ¬ c.NormalPath isNormal other b
  normalFlow : ExtentIssue.entryReachableFromNormalFlow ∈ x.issues ↔ c.NormalPath isNormal c.entry x.entry
  anotherHandler : ExtentIssue.entryReachableFromAnotherHandler ∈ x.issues ↔
    ∃ other, c.IsHandlerEntry other ∧ other ≠ x.entry ∧ c.NormalPath isNormal other x.entry
  external : ∀ block predecessor, ExtentIssue.externalEntry block predecessor ∈ x.issues ↔
    block ∈ x.blocks ∧ block ≠ x.entry ∧ predecessor ∉ x.blocks ∧ c.Accepted isNormal predecessor block

variable {c : Cfg ι π} {isNormal : Nat → Edge π → Bool}

variable {pair : HandlerRef × Nat} {entries : List Nat} {mark : Nat → Nat → Bool}

theorem lookup_marks {entry : Nat} (h : entry ∈ entries) :
    (entries.map fun e => (e, mark e)).lookup entry = some (mark entry) := by
  induction entries with
  | nil => cases h
  | cons e entries ih =>
    rw [map_cons, lookup_cons]
    by_cases he : entry = e
    · simp [he]
    · rw [show (entry == e) = false from beq_eq_false_iff_ne.mpr he]
      exact ih ((mem_cons.mp h).resolve_left he)

theorem adjacent_filteredEdges (hc : c.WF) :
    (c.filteredEdges isNormal).toGraphView.Adjacent .outgoing = c.Accepted isNormal := by
  funext a b
  exact propext hc.mem_accepted_successors

theorem mem_ite_singleton {α : Type} [DecidableEq α] {p : Prop} [Decidable p] {x y : α} :
    x ∈ (if p then {y} else ∅ : Finset α) ↔ p ∧ x = y := by
  by_cases h : p <;> simp [h]

theorem extentOf_exclusiveExtent (hc : c.WF) {methodReachable : Nat → Bool}
    (hmethod : ∀ b, methodReachable b = true ↔ c.NormalPath isNormal c.entry b)
    (hmark : ∀ entry, c.IsHandlerEntry entry → ∀ b, mark entry b = true ↔ c.NormalPath isNormal entry b)
    (hentries : ∀ entry, entry ∈ entries ↔ c.IsHandlerEntry entry) (hpair : pair ∈ c.handlerEntries) :
    c.ExtentOf isNormal pair (c.exclusiveExtent isNormal methodReachable (entries.map fun e => (e, mark e)) pair.1
      pair.2 (mark pair.2)) := by
  have hentry : c.IsHandlerEntry pair.2 := ⟨pair, hpair, rfl⟩
  have hnot : ∀ b, methodReachable b = false ↔ ¬ c.NormalPath isNormal c.entry b := fun b => by
    rw [← hmethod, Bool.not_eq_true]
  have hothers : ∀ b, ((entries.map fun e => (e, mark e)).all fun other => other.1 == pair.2 || !other.2 b) = true ↔
      ∀ other, c.IsHandlerEntry other → other ≠ pair.2 → ¬ c.NormalPath isNormal other b := by
    intro b
    rw [all_map, all_eq_true]
    refine forall_congr' fun other => ?_
    rw [hentries]
    refine forall_congr' fun hother => ?_
    rw [Function.comp_apply, Bool.or_eq_true, beq_iff_eq, Bool.not_eq_true', ← hmark other hother, Bool.not_eq_true,
      or_iff_not_imp_left]
  have hblocks : ∀ b, b ∈ (c.blockIds.filter fun block => mark pair.2 block && !methodReachable block &&
      (entries.map fun e => (e, mark e)).all fun other => other.1 == pair.2 || !other.2 block).toFinset ↔
        c.containsBlock b ∧ c.NormalPath isNormal pair.2 b ∧ ¬ c.NormalPath isNormal c.entry b ∧
          ∀ other, c.IsHandlerEntry other → other ≠ pair.2 → ¬ c.NormalPath isNormal other b := by
    intro b
    rw [mem_toFinset, mem_filter, mem_blockIds, Bool.and_eq_true, Bool.and_eq_true, hothers,
      Bool.not_eq_true', hnot, hmark _ hentry, and_assoc]
  have hany : ((entries.map fun e => (e, mark e)).any fun other => other.1 != pair.2 && other.2 pair.2) = true ↔
      ∃ other, c.IsHandlerEntry other ∧ other ≠ pair.2 ∧ c.NormalPath isNormal other pair.2 := by
    rw [any_map, any_eq_true]
    refine exists_congr fun other => ?_
    rw [hentries]
    refine and_congr_right fun hother => ?_
    rw [Function.comp_apply, Bool.and_eq_true, bne_iff_ne, hmark other hother]
  refine ⟨rfl, rfl, hblocks, ?_, ?_, fun block predecessor => ?_⟩
  · rw [← hmethod]
    simp [exclusiveExtent, mem_ite_singleton]
  · refine Iff.trans ?_ hany
    simp [exclusiveExtent, mem_ite_singleton]
  · unfold exclusiveExtent
    dsimp only
    rw [Finset.mem_union, Finset.mem_union, mem_ite_singleton, mem_ite_singleton, Finset.mem_biUnion,
      or_iff_right (fun h => h.elim (fun h => nomatch h.2) fun h => nomatch h.2)]
    constructor
    · rintro ⟨b, hb, hmem⟩
      obtain ⟨a, ha, heq⟩ := mem_map.mp (mem_toFinset.mp hmem)
      cases heq
      obtain ⟨hb, hne⟩ := Finset.mem_filter.mp hb
      obtain ⟨ha, hout⟩ := mem_filter.mp ha
      exact ⟨hb, hne, of_decide_eq_true hout, hc.mem_accepted_predecessors.mp ha⟩
    · rintro ⟨hb, hne, hout, ha⟩
      exact ⟨block, Finset.mem_filter.mpr ⟨hb, hne⟩, mem_toFinset.mpr (mem_map.mpr ⟨predecessor,
        mem_filter.mpr ⟨hc.mem_accepted_predecessors.mpr ha, decide_eq_true hout⟩, rfl⟩)⟩

theorem recoverExclusiveExtentsWith_spec (hc : c.WF) (hentries : ∀ entry, c.IsHandlerEntry entry → entry < c.blockBound) :
    ∃ extents, c.recoverExclusiveExtentsWith isNormal = some extents ∧
      List.Forall₂ (c.ExtentOf isNormal) c.handlerEntries extents := by
  have hreach : ∀ entry, entry < c.blockBound → ∃ marked : Nat → Bool,
      reachable (c.filteredEdges isNormal).toGraphView [entry] .outgoing = some marked ∧
        ∀ b, marked b = true ↔ c.NormalPath isNormal entry b := by
    intro entry hlt
    have hlawful : (c.filteredEdges isNormal).toGraphView.Lawful := hc.lawful_filteredEdges
    have hseeds : ∀ seed ∈ [entry], seed < (c.filteredEdges isNormal).nodeBound := fun seed hseed => by
      rw [mem_singleton.mp hseed]
      exact hlt
    obtain ⟨marked, hrun, hmarked⟩ := reachable_spec hlawful hseeds .outgoing
    refine ⟨marked, hrun, fun b => ?_⟩
    rw [hmarked, adjacent_filteredEdges hc]
    simp [NormalPath]
  obtain ⟨methodReachable, hrun, hmethod⟩ := hreach c.entry (block_lt hc.entry)
  obtain ⟨mark, hmark⟩ : ∃ mark : Nat → Nat → Bool, ∀ entry, entry < c.blockBound →
      reachable (c.filteredEdges isNormal).toGraphView [entry] .outgoing = some (mark entry) ∧
        ∀ b, mark entry b = true ↔ c.NormalPath isNormal entry b :=
    ⟨fun entry => if h : entry < c.blockBound then (hreach entry h).choose else fun _ => false, fun entry h => by
      dsimp only
      rw [dif_pos h]
      exact (hreach entry h).choose_spec⟩
  have hmem : ∀ entry, entry ∈ (c.handlerEntries.map (·.2)).dedup ↔ c.IsHandlerEntry entry := fun entry => by
    rw [mem_dedup, mem_map]
    rfl
  have hmarks : (c.handlerEntries.map (·.2)).dedup.mapM (fun entry =>
      (reachable (c.filteredEdges isNormal).toGraphView [entry] .outgoing).map fun marked => (entry, marked)) =
        some ((c.handlerEntries.map (·.2)).dedup.map fun entry => (entry, mark entry)) :=
    mapM_option_some fun entry hentry => by
      rw [(hmark entry (hentries entry ((hmem entry).mp hentry))).1]
      rfl
  obtain ⟨extents, hextents, hrelated⟩ := mapM_forall₂ (R := c.ExtentOf isNormal) (l := c.handlerEntries)
    (f := fun pair => do
      let fromEntry ← ((c.handlerEntries.map (·.2)).dedup.map fun entry => (entry, mark entry)).lookup pair.2
      pure (c.exclusiveExtent isNormal methodReachable
        ((c.handlerEntries.map (·.2)).dedup.map fun entry => (entry, mark entry)) pair.1 pair.2 fromEntry))
    fun pair hpair => ⟨_, by
      rw [lookup_marks ((hmem pair.2).mpr ⟨pair, hpair, rfl⟩)]
      rfl, extentOf_exclusiveExtent hc hmethod (fun entry hentry => (hmark entry (hentries entry hentry)).2) hmem hpair⟩
  refine ⟨extents, ?_, hrelated⟩
  rw [recoverExclusiveExtentsWith, hrun, Option.bind_eq_bind, Option.bind_some, hmarks, Option.bind_eq_bind,
    Option.bind_some]
  exact hextents

variable {x : ExclusiveExtent}

theorem ExtentOf.disjoint {pair' : HandlerRef × Nat} {x' : ExclusiveExtent} (h : c.ExtentOf isNormal pair x)
    (h' : c.ExtentOf isNormal pair' x') (hpair : pair ∈ c.handlerEntries) (hne : x.entry ≠ x'.entry) :
    Disjoint x.blocks x'.blocks := by
  rw [Finset.disjoint_left]
  intro b hb hb'
  have hentry : c.IsHandlerEntry x.entry := ⟨pair, hpair, h.entry.symm⟩
  exact ((h'.mem_blocks b).mp hb').2.2.2 x.entry hentry hne ((h.mem_blocks b).mp hb).2.1

theorem ExtentOf.closed (h : c.ExtentOf isNormal pair x)
    (hissues : x.issues = ∅) : (c.containsBlock x.entry → x.entry ∈ x.blocks) ∧
      ∀ a b, c.Accepted isNormal a b → a ∉ x.blocks → b ∈ x.blocks → b = x.entry := by
  have hnone : ∀ issue, issue ∉ x.issues := fun issue hmem => by
    rw [hissues] at hmem
    exact absurd hmem (Finset.notMem_empty issue)
  constructor
  · intro hlive
    refine (h.mem_blocks _).mpr ⟨hlive, .refl, fun hpath => hnone _ (h.normalFlow.mpr hpath),
      fun other hother hne hpath => hnone _ (h.anotherHandler.mpr ⟨other, hother, hne, hpath⟩)⟩
  · intro a b hab ha hb
    by_contra hne
    exact hnone _ ((h.external b a).mpr ⟨hb, hne, ha, hab⟩)

end Cfg

end CfgLib

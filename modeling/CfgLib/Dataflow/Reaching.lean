import CfgLib.Analysis.ControlTree
import CfgLib.Dataflow.Replay
import CfgLib.Lib.Past
import Mathlib.Data.Finset.Powerset

/-!
# Reaching definitions

`dataflow/reaching.rs`: the definitions that may reach each block without being
overwritten, on the edge-sensitive solver over the blocks that the entry reaches.
They are exactly those with a path past every other definition of their variable.
-/

namespace CfgLib

namespace Dataflow

open CfgLib.Lib Relation List

variable {ι ν π : Type}

/-- Which variable was defined, and where. -/
structure ReachingDef (ν : Type) where
  var : ν
  site : ProgramPoint
  deriving DecidableEq

/-! ## The solve -/

section Solve

variable [DecidableEq ν]

def definitionsOf (set : Finset (ReachingDef ν)) (var : ν) : Finset (ReachingDef ν) :=
  set.filter (·.var = var)

def killVariable (set : Finset (ReachingDef ν)) (var : ν) : Finset (ReachingDef ν) :=
  set.filter (·.var ≠ var)

/-- Applies the definitions of the instruction at `site`: all of them kill, then all are
generated. -/
def defineAt (set : Finset (ReachingDef ν)) (site : ProgramPoint) (defs : List ν) : Finset (ReachingDef ν) :=
  defs.foldl (fun set var => insert ⟨var, site⟩ set) (defs.foldl killVariable set)

def defineStep (I : InstrInfo ι ν) (block : Nat) (set : Finset (ReachingDef ν)) (entry : ι × Nat) :
    Finset (ReachingDef ν) :=
  defineAt set ⟨block, entry.2⟩ (I.defs entry.1)

def replayDefinitions (I : InstrInfo ι ν) (c : Cfg ι π) (block : Nat) (input : Finset (ReachingDef ν)) :
    Finset (ReachingDef ν) × List (Finset (ReachingDef ν)) :=
  replayBlock (I.mayUnwind ·.1) (defineStep I block) (c.instructions block).zipIdx input

def reachingDefsProblem (I : InstrInfo ι ν) (c : Cfg ι π) : EdgeProblem (Finset (ReachingDef ν)) EdgeKind where
  direction := .forward
  bottom := ∅
  boundary _ := none
  meet := (· ∪ ·)
  transferNode block input := (replayDefinitions I c block input).1
  transferEdge edge input output :=
    (if departsBeforeThrows I c edge then
      joinAll (· ∪ ·) none (replayDefinitions I c edge.source input).2
    else none).getD output

/-- The solve over the blocks that the entry reaches: the facts, or `none` while it runs. -/
def ReachingDefs.compute (I : InstrInfo ι ν) (c : Cfg ι π) (fuel : Nat) :
    Option (Facts (Finset (ReachingDef ν))) := do
  let reachable ← depthFirstPreorder c.view.toGraphView c.entry .outgoing
  let result ← solveEdgeProblemFromWithConfig c.edgeView (reachingDefsProblem I c) reachable .new fuel
  let facts ← result.toOption
  some facts.nodes

/-- The definitions that reach the instruction at an index, from those that reach its block. -/
def definitionsBefore (I : InstrInfo ι ν) (c : Cfg ι π) (block : Nat) (input : Finset (ReachingDef ν))
    (index : Nat) : Finset (ReachingDef ν) :=
  ((c.instructions block).zipIdx.take index).foldl (defineStep I block) input

end Solve

/-! ## What reaching means -/

def IsDefinition (I : InstrInfo ι ν) (c : Cfg ι π) (d : ReachingDef ν) : Prop :=
  ∃ a, (c.instructions d.site.block)[d.site.instIdx]? = some a ∧ d.var ∈ I.defs a

/-- Another instruction defines the variable. -/
def Overwrites (I : InstrInfo ι ν) (d : ReachingDef ν) (p : Nat × Nat) (a : ι) : Prop :=
  d.var ∈ I.defs a ∧ p ≠ (d.site.block, d.site.instIdx)

/-- Some path from just after the definition to a place performs no other definition of
its variable. -/
def Reaches (I : InstrInfo ι ν) (c : Cfg ι π) (d : ReachingDef ν) (p : Nat × Nat) : Prop :=
  IsDefinition I c d ∧
    (c.dataFlow I).PathPast I.mayUnwind (Overwrites I d) (d.site.block, d.site.instIdx + 1) p

def FromEntry (c : Cfg ι π) (block : Nat) : Prop :=
  ReflTransGen (c.view.toGraphView.Adjacent .outgoing) c.entry block

/-- The definition reaches the place and stands in a block that the entry reaches. -/
def Carried (I : InstrInfo ι ν) (c : Cfg ι π) (p : Nat × Nat) (d : ReachingDef ν) : Prop :=
  Reaches I c d p ∧ FromEntry c d.site.block

/-! ## Replaying definitions -/

section Replay

variable [DecidableEq ν] {I : InstrInfo ι ν} {c : Cfg ι π} {d : ReachingDef ν} {set set' : Finset (ReachingDef ν)}

theorem mem_defineAt {site : ProgramPoint} (defs : List ν) : d ∈ defineAt set site defs ↔
    (d ∈ set ∧ d.var ∉ defs) ∨ (d.site = site ∧ d.var ∈ defs) := by
  have hkill : ∀ (defs : List ν) (set : Finset (ReachingDef ν)),
      d ∈ defs.foldl killVariable set ↔ d ∈ set ∧ d.var ∉ defs := by
    intro defs
    induction defs with
    | nil => simp
    | cons v defs ih =>
      intro set
      rw [foldl_cons, ih, killVariable, Finset.mem_filter, mem_cons, not_or, and_assoc]
  have hinsert : ∀ (defs : List ν) (set : Finset (ReachingDef ν)),
      d ∈ defs.foldl (fun set var => insert ⟨var, site⟩ set) set ↔
        d ∈ set ∨ (d.site = site ∧ d.var ∈ defs) := by
    intro defs
    induction defs with
    | nil => simp
    | cons v defs ih =>
      intro set
      obtain ⟨w, s⟩ := d
      rw [foldl_cons, ih, Finset.mem_insert, mem_cons, ReachingDef.mk.injEq]
      tauto
  rw [defineAt, hinsert, hkill]

theorem definitionsBefore_succ {block i : Nat} {a : ι} (ha : (c.instructions block)[i]? = some a) :
    definitionsBefore I c block set (i + 1) =
      defineAt (definitionsBefore I c block set i) ⟨block, i⟩ (I.defs a) := by
  have hget : (c.instructions block).zipIdx[i]? = some (a, i) := by simp [ha]
  rw [definitionsBefore, take_add_one, hget, foldl_append]
  rfl

theorem replayDefinitions_fst (block : Nat) : (replayDefinitions I c block set).1 =
    definitionsBefore I c block set (c.instructions block).length := by
  rw [definitionsBefore, take_of_length_le (by simp)]
  exact replayBlock_fst _ _

theorem mem_replayDefinitions_snd (block : Nat) : set' ∈ (replayDefinitions I c block set).2 ↔
    ∃ i a, (c.instructions block)[i]? = some a ∧ I.mayUnwind a = true ∧
      set' = definitionsBefore I c block set i := by
  rw [replayDefinitions, replayBlock_snd, mem_map]
  constructor
  · rintro ⟨i, hi, rfl⟩
    obtain ⟨⟨a, k⟩, ha, hthrow⟩ := (mem_throwingPlaces _).mp hi
    have hget : (c.instructions block)[i]? = some a := by
      rw [getElem?_zipIdx, Option.map_eq_some_iff] at ha
      obtain ⟨b, hb, heq⟩ := ha
      rw [hb, (Prod.mk.inj heq).1]
    exact ⟨i, a, hget, hthrow, rfl⟩
  · rintro ⟨i, a, ha, hthrow, rfl⟩
    exact ⟨i, (mem_throwingPlaces _).mpr ⟨(a, i), by simp [ha], hthrow⟩, rfl⟩

theorem definitionsBefore_mono (h : set ≤ set') (block i : Nat) :
    definitionsBefore I c block set i ≤ definitionsBefore I c block set' i := by
  unfold definitionsBefore
  induction (c.instructions block).zipIdx.take i generalizing set set' with
  | nil => exact h
  | cons entry code ih =>
    refine ih fun d hd => ?_
    rw [defineStep, mem_defineAt] at hd ⊢
    exact hd.imp_left fun hd => ⟨h hd.1, hd.2⟩

/-- The definitions on an edge: those before a throwing instruction when it departs there,
those at the end otherwise. -/
theorem mem_transferEdge (edge : EdgeRef EdgeKind) (output : Finset (ReachingDef ν)) :
    d ∈ (reachingDefsProblem I c).transferEdge edge set output ↔
      (departsBeforeThrows I c edge = true ∧ ∃ i a, (c.instructions edge.source)[i]? = some a ∧
        I.mayUnwind a = true ∧ d ∈ definitionsBefore I c edge.source set i) ∨
      (departsBeforeThrows I c edge = false ∧ d ∈ output) := by
  change d ∈ (if departsBeforeThrows I c edge then _ else none).getD output ↔ _
  cases hdeparts : departsBeforeThrows I c edge with
  | false => simp
  | true =>
    -- a throwing instruction departs, so the join is not empty
    have hne : (replayDefinitions I c edge.source set).2 ≠ [] := by
      obtain ⟨i, hi⟩ := exists_departsAt I c edge
      rw [DepartsAt, if_pos hdeparts] at hi
      obtain ⟨a, ha, hthrow⟩ := hi
      exact ne_nil_of_mem ((mem_replayDefinitions_snd _).mpr ⟨i, a, ha, hthrow, rfl⟩)
    rw [if_pos rfl, mem_joinAll_union]
    simp only [hne, false_and, or_false, true_and, reduceCtorEq]
    constructor
    · rintro ⟨_, hmem, hd⟩
      obtain ⟨i, a, ha, hthrow, rfl⟩ := (mem_replayDefinitions_snd _).mp hmem
      exact ⟨i, a, ha, hthrow, hd⟩
    · rintro ⟨i, a, ha, hthrow, hd⟩
      exact ⟨_, (mem_replayDefinitions_snd _).mpr ⟨i, a, ha, hthrow, rfl⟩, hd⟩

theorem mem_transferEdge_iff (edge : EdgeRef EdgeKind) :
    d ∈ (reachingDefsProblem I c).transferEdge edge set
        (definitionsBefore I c edge.source set (c.instructions edge.source).length) ↔
      ∃ i, DepartsAt I c edge i ∧ d ∈ definitionsBefore I c edge.source set i := by
  rw [mem_transferEdge]
  cases hdeparts : departsBeforeThrows I c edge with
  | false => simp [DepartsAt, hdeparts]
  | true =>
    simp only [DepartsAt, hdeparts, if_true, true_and, reduceCtorEq, false_and, or_false]
    constructor
    · rintro ⟨i, a, ha, hthrow, hd⟩
      exact ⟨i, ⟨a, ha, hthrow⟩, hd⟩
    · rintro ⟨i, ⟨a, ha, hthrow⟩, hd⟩
      exact ⟨i, a, ha, hthrow, hd⟩

theorem monotone_reachingDefsProblem : (reachingDefsProblem I c).Monotone where
  bottom_eq := rfl
  meet_mono _ _ _ _ h h' := Finset.union_subset_union h h'
  transferNode_mono block _ _ h := by
    change (replayDefinitions I c block _).1 ≤ (replayDefinitions I c block _).1
    rw [replayDefinitions_fst, replayDefinitions_fst]
    exact definitionsBefore_mono h _ _
  transferEdge_mono edge input input' output output' h h' d hd := by
    rw [mem_transferEdge] at hd ⊢
    refine hd.imp ?_ fun hd => ⟨hd.1, h' hd.2⟩
    rintro ⟨hdeparts, i, a, ha, hthrow, hd⟩
    exact ⟨hdeparts, i, a, ha, hthrow, definitionsBefore_mono h _ _ hd⟩

end Replay

/-! ## Paths as equations -/

section Paths

variable {I : InstrInfo ι ν} {c : Cfg ι π} {d : ReachingDef ν}

variable {n : Nat}

theorem carried_succ_iff {i : Nat} {a : ι} (hn : c.containsBlock n) (ha : (c.instructions n)[i]? = some a) :
    Carried I c (n, i + 1) d ↔ (Carried I c (n, i) d ∧ d.var ∉ I.defs a) ∨
      (d.site = ⟨n, i⟩ ∧ d.var ∈ I.defs a ∧ FromEntry c n) := by
  obtain ⟨v, b, j⟩ := d
  constructor
  · rintro ⟨⟨hd, hpath⟩, hentry⟩
    rcases (Flow.pathPast_succ_iff (Cfg.exists_code hn) ha).mp hpath with hstart | ⟨hpath, hbar⟩
    · obtain ⟨rfl, hj⟩ := Prod.mk.inj hstart
      obtain rfl := Nat.succ.inj hj
      obtain ⟨a', ha', hv⟩ := hd
      cases ha.symm.trans ha'
      exact Or.inr ⟨rfl, hv, hentry⟩
    · by_cases hv : v ∈ I.defs a
      · -- the only definition that does not overwrite is the definition itself
        have hsite : (n, i) = (b, j) := by
          by_contra hne
          exact hbar ⟨hv, hne⟩
        obtain ⟨rfl, rfl⟩ := Prod.mk.inj hsite
        exact Or.inr ⟨rfl, hv, hentry⟩
      · exact Or.inl ⟨⟨⟨hd, hpath⟩, hentry⟩, hv⟩
  · rintro (⟨⟨⟨hd, hpath⟩, hentry⟩, hv⟩ | ⟨hsite, hv, hentry⟩)
    · exact ⟨⟨hd, (Flow.pathPast_succ_iff (Cfg.exists_code hn) ha).mpr (Or.inr ⟨hpath, fun h => hv h.1⟩)⟩, hentry⟩
    · cases hsite
      exact ⟨⟨⟨a, ha, hv⟩, .refl⟩, hentry⟩

theorem carried_zero_iff (hc : c.WF) : Carried I c (n, 0) d ↔ ∃ e ∈ c.incoming n, ∃ i,
    DepartsAt I c (c.edgeView.edge e) i ∧ Carried I c ((c.edgeView.edge e).source, i) d := by
  have hstart : (d.site.block, d.site.instIdx + 1) ≠ (n, 0) := fun h => nomatch (Prod.mk.inj h).2
  constructor
  · rintro ⟨⟨hd, hpath⟩, hentry⟩
    obtain ⟨⟨b, i⟩, hpath, henters⟩ := (Flow.pathPast_zero_iff hstart).mp hpath
    obtain ⟨e, he, rfl, hdeparts⟩ := (entersFrom_iff hc).mp henters
    exact ⟨e, he, i, hdeparts, ⟨hd, hpath⟩, hentry⟩
  · rintro ⟨e, he, i, hdeparts, ⟨hd, hpath⟩, hentry⟩
    exact ⟨⟨hd, (Flow.pathPast_zero_iff hstart).mpr ⟨_, hpath, (entersFrom_iff hc).mpr ⟨e, he, rfl, hdeparts⟩⟩⟩, hentry⟩

theorem Carried.fromEntry (hc : c.WF) {p : Nat × Nat} (h : Carried I c p d) : FromEntry c p.1 := by
  obtain ⟨⟨_, hpath⟩, hentry⟩ := h
  induction hpath with
  | refl => exact hentry
  | @tail q r _ hs ih =>
    obtain ⟨o, hs, _⟩ := hs
    obtain ⟨t, k⟩ := r
    cases hs with
    | exec => exact ih
    | leave hcode hn =>
      obtain ⟨e, r, hr, hs, ht, _⟩ := hn
      exact ih.tail (hc.mem_successors.mpr ⟨e, r, hr, hs, ht⟩)
    | raise hcode ha hthrow hu =>
      obtain ⟨e, r, hr, hs, ht, _⟩ := hu
      exact ih.tail (hc.mem_successors.mpr ⟨e, r, hr, hs, ht⟩)

end Paths

/-! ## The facts are the paths -/

section Exact

variable [DecidableEq ν] {I : InstrInfo ι ν} {c : Cfg ι π} {d : ReachingDef ν}

def definitionsOfGraph (I : InstrInfo ι ν) (c : Cfg ι π) : Finset (ReachingDef ν) :=
  (c.blockIds.flatMap fun block => (c.instructions block).zipIdx.flatMap fun entry =>
    (I.defs entry.1).map fun var => ⟨var, block, entry.2⟩).toFinset

theorem mem_definitionsOfGraph (hlive : c.containsBlock d.site.block) (h : IsDefinition I c d) :
    d ∈ definitionsOfGraph I c := by
  obtain ⟨a, ha, hv⟩ := h
  simp only [definitionsOfGraph, mem_toFinset, mem_flatMap, mem_map]
  refine ⟨d.site.block, Cfg.mem_blockIds.mpr hlive, (a, d.site.instIdx), ?_, d.var, hv, rfl⟩
  rw [mem_iff_getElem?]
  exact ⟨d.site.instIdx, by simp [ha]⟩

/-- Some path carries the definition onto the edge. -/
def CarriedOn (I : InstrInfo ι ν) (c : Cfg ι π) (e : Nat) (d : ReachingDef ν) : Prop :=
  e ∈ c.edgeView.edgeIds ∧ ∃ i, DepartsAt I c (c.edgeView.edge e) i ∧ Carried I c ((c.edgeView.edge e).source, i) d

/-- The definitions that paths carry onto an edge. -/
noncomputable def carriedOn (I : InstrInfo ι ν) (c : Cfg ι π) (e : Nat) : Finset (ReachingDef ν) :=
  @Finset.filter _ (CarriedOn I c e) (Classical.decPred _) (definitionsOfGraph I c)

variable {e n : Nat}

theorem mem_carriedOn (hc : c.WF) : d ∈ carriedOn I c e ↔ CarriedOn I c e d := by
  refine (@Finset.mem_filter _ _ (Classical.decPred _) _ _).trans ?_
  rw [and_iff_right_iff_imp]
  rintro ⟨_, i, _, ⟨hd, _⟩, hentry⟩
  exact mem_definitionsOfGraph (Cfg.mem_blockIds.mp (reachable_live hc hentry)) hd

variable {x : Nat → Finset (ReachingDef ν)}

theorem mem_flowingIn :
    d ∈ (reachingDefsProblem I c).flowingIn c.edgeView n x ↔ ∃ e ∈ c.incoming n, d ∈ x e := by
  change d ∈ (joinAll (· ∪ ·) none ((c.incoming n).map x)).getD ∅ ↔ _
  rw [mem_joinAll_union]
  simp

theorem mem_value (hc : c.WF) (hn : n ∈ c.blockIds) (he : e ∈ c.outgoing n)
    (x : Nat → Finset (ReachingDef ν)) : d ∈ ((reachingDefsProblem I c).system c.edgeView).value n x e ↔
      ∃ i, DepartsAt I c (c.edgeView.edge e) i ∧ d ∈ definitionsBefore I c (c.edgeView.edge e).source
        ((reachingDefsProblem I c).flowingIn c.edgeView n x) i := by
  have hsource : (c.edgeView.edge e).source = n := ((hc.lawful_edgeView.mem_outgoing n hn e).mp he).2
  change d ∈ (reachingDefsProblem I c).transferEdge _ _ (replayDefinitions I c n _).1 ↔ _
  rw [replayDefinitions_fst, ← hsource]
  exact mem_transferEdge_iff _

theorem mem_definitionsBefore_carried (hn : c.containsBlock n) (hentry : FromEntry c n)
    {set : Finset (ReachingDef ν)} (hset : ∀ d, d ∈ set ↔ Carried I c (n, 0) d) (i : Nat) :
    i ≤ (c.instructions n).length → ∀ d, d ∈ definitionsBefore I c n set i ↔ Carried I c (n, i) d := by
  induction i with
  | zero => exact fun _ => hset
  | succ i ih =>
    intro hi d
    have ha : (c.instructions n)[i]? = some (c.instructions n)[i] := getElem?_eq_getElem (by omega)
    rw [definitionsBefore_succ ha, mem_defineAt, carried_succ_iff hn ha, ih (by omega)]
    simp only [hentry, and_true]

theorem flowingIn_carriedOn (hc : c.WF) (d : ReachingDef ν) :
    d ∈ (reachingDefsProblem I c).flowingIn c.edgeView n (carriedOn I c) ↔ Carried I c (n, 0) d := by
  rw [mem_flowingIn, carried_zero_iff hc]
  constructor
  · rintro ⟨e, he, hd⟩
    exact ⟨e, he, ((mem_carriedOn hc).mp hd).2⟩
  · rintro ⟨e, he, hd⟩
    obtain ⟨r, hr, _⟩ := hc.mem_incoming.mp he
    exact ⟨e, he, (mem_carriedOn hc).mpr ⟨Cfg.mem_edgeIds.mpr (by rw [hr]; rfl), hd⟩⟩

theorem fromEntry_of_carriedOn (hc : c.WF) (h : carriedOn I c e ≠ ⊥) :
    e ∈ c.edgeView.edgeIds ∧ FromEntry c (c.edgeView.edge e).source ∧ FromEntry c (c.edgeView.edge e).target := by
  obtain ⟨d, hd⟩ := Finset.nonempty_iff_ne_empty.mpr h
  obtain ⟨he, i, _, hcarried⟩ := (mem_carriedOn hc).mp hd
  have hsource := hcarried.fromEntry hc
  obtain ⟨r, hr⟩ := Option.isSome_iff_exists.mp (Cfg.mem_edgeIds.mp he)
  rw [Cfg.edge_edgeView hr] at hsource ⊢
  exact ⟨he, hsource, hsource.tail (hc.mem_successors.mpr ⟨e, r, hr, rfl, rfl⟩)⟩

theorem fromEntry_of_started (hc : c.WF)
    (h : ((reachingDefsProblem I c).system c.edgeView).Started (FromEntry c) (carriedOn I c) n) : FromEntry c n := by
  rcases h with h | ⟨e, he, hn⟩
  · exact h
  · rw [mem_singleton.mp hn]
    exact (fromEntry_of_carriedOn hc he).2.2

theorem isSolution_carriedOn (hc : c.WF) :
    ((reachingDefsProblem I c).system c.edgeView).IsSolution (FromEntry c) (carriedOn I c) where
  equation n hn e he := by
    have hentry := fromEntry_of_started hc hn
    have hlive := reachable_live hc hentry
    have hsource : (c.edgeView.edge e).source = n := ((hc.lawful_edgeView.mem_outgoing n hlive e).mp he).2
    have hedge : e ∈ c.edgeView.edgeIds := ((hc.lawful_edgeView.mem_outgoing n hlive e).mp he).1
    ext d
    rw [mem_value hc hlive he, mem_carriedOn hc, CarriedOn, hsource, and_iff_right hedge]
    refine exists_congr fun i => and_congr_right fun hi => ?_
    have hle := hsource ▸ hi.le
    exact (mem_definitionsBefore_carried (Cfg.mem_blockIds.mp hlive) hentry (flowingIn_carriedOn hc) i hle d).symm
  rest e hrest := by
    by_contra he
    obtain ⟨hedge, hentry, _⟩ := fromEntry_of_carriedOn hc he
    refine hrest _ (Or.inl hentry) ?_
    exact (hc.lawful_edgeView.mem_outgoing _ (reachable_live hc hentry) e).mpr ⟨hedge, rfl⟩

theorem mem_of_carried (hc : c.WF)
    (hx : ((reachingDefsProblem I c).system c.edgeView).IsSolution (FromEntry c) x) {p : Nat × Nat}
    (h : Carried I c p d) :
    d ∈ definitionsBefore I c p.1 ((reachingDefsProblem I c).flowingIn c.edgeView p.1 x) p.2 := by
  obtain ⟨⟨hd, hpath⟩, hentry⟩ := h
  induction hpath with
  | refl =>
    obtain ⟨a, ha, hv⟩ := hd
    rw [definitionsBefore_succ ha, mem_defineAt]
    exact Or.inr ⟨rfl, hv⟩
  | @tail q r hq hs ih =>
    have hfrom := Carried.fromEntry hc ⟨⟨hd, hq⟩, hentry⟩
    obtain ⟨n, i⟩ := q
    obtain ⟨o, hs', hbar⟩ := id hs
    cases hs' with
    | @exec _ _ _ a hcode ha =>
      obtain ⟨_, rfl⟩ := Cfg.instructions_of_code hcode
      rw [definitionsBefore_succ ha, mem_defineAt]
      by_cases hv : d.var ∈ I.defs a
      · have hsite : (n, i) = (d.site.block, d.site.instIdx) := by
          by_contra hne
          exact hbar _ rfl ⟨hv, hne⟩
        obtain ⟨rfl, rfl⟩ := Prod.mk.inj hsite
        exact Or.inr ⟨rfl, hv⟩
      · exact Or.inl ⟨ih, hv⟩
    | _ =>
      obtain ⟨e, he, hsource, hdeparts⟩ := (entersFrom_iff hc).mp (Flow.stepPast_zero_iff.mp hs)
      refine mem_flowingIn.mpr ⟨e, he, ?_⟩
      have hlive := reachable_live hc hfrom
      obtain ⟨k, hk, _⟩ := hc.mem_incoming.mp he
      have hout : e ∈ c.outgoing n :=
        (hc.lawful_edgeView.mem_outgoing n hlive e).mpr ⟨Cfg.mem_edgeIds.mpr (by rw [hk]; rfl), hsource⟩
      rw [hx.equation n (Or.inl hfrom) e hout, mem_value hc hlive hout, hsource]
      exact ⟨_, hdeparts, ih⟩

theorem ReachingDefs.compute_spec (hc : c.WF) : ∃ facts : Facts (Finset (ReachingDef ν)),
    (∃ N, ∀ fuel, N ≤ fuel → ReachingDefs.compute I c fuel = some facts) ∧
      ∀ n d, d ∈ facts.input n ↔ Carried I c (n, 0) d := by
  obtain ⟨hw, hqueued⟩ := reachableWorklist_spec hc
  have hstart : (fun n => (reachableWorklist c).queued n = true) = FromEntry c := funext fun n => propext (hqueued n)
  have hasc : ((reachingDefsProblem I c).system c.edgeView).Ascending
      (fun n => (reachableWorklist c).queued n = true) c.edgeView.edgeIds := by
    rw [hstart]
    refine System.ascending_of_bound _ (isSolution_carriedOn hc).isBound fun e => ?_
    refine ((carriedOn I c e).powerset.finite_toSet).subset fun s hs => ?_
    exact Finset.mem_coe.mpr (Finset.mem_powerset.mpr hs)
  obtain ⟨facts, ⟨N, hN⟩, _, hleast⟩ := settles_trySolveEdgesWithWorklist hc.lawful_edgeView
    (monotone_reachingDefsProblem (I := I)) hw (fun n hn => reachableWorklist_live hc hn) hasc
  rw [hstart] at hleast
  refine ⟨facts.nodes, ⟨N, fun fuel hfuel => ?_⟩, fun n d => ?_⟩
  · obtain ⟨order, horder, hmem⟩ := depthFirstPreorder_spec hc.lawful_view (Cfg.block_lt hc.entry) .outgoing
    have hseeded := Worklist.seeded_eq hc.lawful_view fun n hn => reachable_live hc ((hmem n).mp hn)
    have hrun := (hN fuel hfuel).1
    unfold reachableWorklist at hrun
    rw [horder, Option.getD_some] at hrun
    unfold ReachingDefs.compute solveEdgeProblemFromWithConfig
    rw [horder, Option.bind_eq_bind, Option.bind_some]
    change ((Worklist.seeded c.view.toGraphView order).bind _).bind _ = _
    rw [hseeded, Option.bind_some]
    change (Option.bind ((trySolveEdgesWithWorklist c.edgeView (reachingDefsProblem I c).infallible
      (.of c.blockBound order) .new fuel).map collapseInfallible) _) = _
    rw [hrun]
    rfl
  · have hbelow := hleast.least _ (isSolution_carriedOn hc)
    by_cases hn : FromEntry c n
    · have hinput : facts.nodes.input n = (reachingDefsProblem I c).flowingIn c.edgeView n
          (fun e => (facts.edge e).getD ⊥) := congrArg Prod.fst (hleast.record n (Or.inl hn))
      rw [hinput]
      constructor
      · intro hd
        rw [← flowingIn_carriedOn hc]
        obtain ⟨e, he, hd⟩ := mem_flowingIn.mp hd
        exact mem_flowingIn.mpr ⟨e, he, hbelow e hd⟩
      · intro hd
        exact mem_of_carried hc hleast.solution hd
    · have hnot : ¬ ((reachingDefsProblem I c).system c.edgeView).Started (FromEntry c)
          (fun e => (facts.edge e).getD ⊥) n := fun h => hn (fromEntry_of_started hc (h.mono hbelow))
      have hinput : facts.nodes.input n = ⊥ := congrArg Prod.fst (hleast.record_rest n hnot)
      rw [hinput]
      constructor
      · intro hd
        exact absurd hd (Finset.notMem_empty d)
      · intro hd
        exact absurd (hd.fromEntry hc) hn

end Exact

end Dataflow

end CfgLib

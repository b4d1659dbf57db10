import CfgLib.Dataflow.Reaching
import CfgLib.Lib.FiniteMap
import Mathlib.Data.Finset.Image

/-!
# Def-use chains

`dataflow/def_use.rs`: every definition with the instructions that read its value,
and every use with the definitions that could supply it, by a walk through each block
from the definitions that reach it.
-/

namespace CfgLib

namespace Dataflow

open CfgLib.Lib Relation

variable {ι ν π : Type}

structure DefUseChains where
  defUse : FiniteMap ProgramPoint (Finset ProgramPoint)
  useDef : FiniteMap ProgramPoint (Finset ProgramPoint)

namespace DefUseChains

def usesOf (chains : DefUseChains) (definition : ProgramPoint) : Finset ProgramPoint :=
  (chains.defUse.get definition).getD ∅

/-- The definitions that could supply a value read at a use. -/
def defsOf (chains : DefUseChains) (useSite : ProgramPoint) : Finset ProgramPoint :=
  (chains.useDef.get useSite).getD ∅

section Compute

variable [DecidableEq ν]

def linkUse (reaching : Finset (ReachingDef ν)) (useSite : ProgramPoint) (chains : DefUseChains) (var : ν) :
    DefUseChains :=
  let suppliers := (definitionsOf reaching var).image (·.site)
  ⟨chains.defUse.addUnder suppliers useSite, chains.useDef.addTo useSite suppliers⟩

/-- One instruction of a block: its uses are linked before its definitions apply. -/
def walkStep (I : InstrInfo ι ν) (block : Nat) (state : DefUseChains × Finset (ReachingDef ν)) (entry : ι × Nat) :
    DefUseChains × Finset (ReachingDef ν) :=
  let (chains, reaching) := state
  let site : ProgramPoint := ⟨block, entry.2⟩
  let chains := (I.uses entry.1).foldl (linkUse reaching site) chains
  if (I.defs entry.1).isEmpty then (chains, reaching)
  else ({ chains with defUse := chains.defUse.addTo site ∅ }, defineAt reaching site (I.defs entry.1))

def walkBlock (I : InstrInfo ι ν) (c : Cfg ι π) (facts : Facts (Finset (ReachingDef ν))) (chains : DefUseChains)
    (block : Nat) : DefUseChains :=
  ((c.instructions block).zipIdx.foldl (walkStep I block) (chains, facts.input block)).1

/-- The chains of a graph, or `none` while the solve runs. -/
def compute (I : InstrInfo ι ν) (c : Cfg ι π) (fuel : Nat) : Option DefUseChains :=
  (ReachingDefs.compute I c fuel).map fun facts => c.blockIds.foldl (walkBlock I c facts) ⟨.empty, .empty⟩

end Compute

/-! ## What the chains record -/

/-- Both maps hold exactly the pairs of `L`. -/
structure Records (chains : DefUseChains) (L : ProgramPoint → ProgramPoint → Prop) : Prop where
  mem_usesOf : ∀ d u, u ∈ chains.usesOf d ↔ L d u
  mem_defsOf : ∀ d u, d ∈ chains.defsOf u ↔ L d u

section Walk

variable [DecidableEq ν] {I : InstrInfo ι ν} {c : Cfg ι π} {chains : DefUseChains}
  {L : ProgramPoint → ProgramPoint → Prop} {reaching : Finset (ReachingDef ν)}

omit [DecidableEq ν] in
theorem Records.congr {L' : ProgramPoint → ProgramPoint → Prop} (h : chains.Records L)
    (hiff : ∀ d u, L d u ↔ L' d u) : chains.Records L' :=
  ⟨fun d u => (h.mem_usesOf d u).trans (hiff d u), fun d u => (h.mem_defsOf d u).trans (hiff d u)⟩

theorem records_empty : (⟨.empty, .empty⟩ : DefUseChains).Records fun _ _ => False := by
  constructor
  · simp [usesOf]
  · simp [defsOf]

theorem mem_suppliers {var : ν} {d : ProgramPoint} :
    d ∈ (definitionsOf reaching var).image (·.site) ↔ (⟨var, d⟩ : ReachingDef ν) ∈ reaching := by
  simp only [definitionsOf, Finset.mem_image, Finset.mem_filter]
  constructor
  · rintro ⟨⟨_, _⟩, ⟨hmem, rfl⟩, rfl⟩
    exact hmem
  · exact fun h => ⟨_, ⟨h, rfl⟩, rfl⟩

theorem Records.linkUse (h : chains.Records L) (reaching : Finset (ReachingDef ν)) (useSite : ProgramPoint)
    (var : ν) : (linkUse reaching useSite chains var).Records fun d u =>
      L d u ∨ (u = useSite ∧ (⟨var, d⟩ : ReachingDef ν) ∈ reaching) := by
  refine ⟨fun d u => ?_, fun d u => ?_⟩
  · refine (FiniteMap.getD_addUnder _ _ _ d u).trans ?_
    rw [mem_suppliers, and_comm]
    exact or_congr_left (h.mem_usesOf d u)
  · refine (FiniteMap.getD_addTo _ _ _ u d).trans ?_
    rw [mem_suppliers]
    exact or_congr_left (h.mem_defsOf d u)

theorem Records.linkUses (reaching : Finset (ReachingDef ν)) (useSite : ProgramPoint) (uses : List ν) :
    ∀ {chains : DefUseChains} {L : ProgramPoint → ProgramPoint → Prop}, chains.Records L →
      (uses.foldl (DefUseChains.linkUse reaching useSite) chains).Records fun d u =>
        L d u ∨ (u = useSite ∧ ∃ v ∈ uses, (⟨v, d⟩ : ReachingDef ν) ∈ reaching) := by
  induction uses with
  | nil => exact fun h => h.congr (by simp)
  | cons v uses ih =>
    intro chains L h
    refine (ih (h.linkUse reaching useSite v)).congr fun d u => ?_
    rw [List.exists_mem_cons_iff, and_or_left, or_assoc]

/-- Some instruction of the block reads a variable that `d` supplies to it. -/
def LinkedIn (I : InstrInfo ι ν) (c : Cfg ι π) (input : Finset (ReachingDef ν)) (block : Nat)
    (d u : ProgramPoint) : Prop :=
  u.block = block ∧ ∃ a, (c.instructions block)[u.instIdx]? = some a ∧
    ∃ v ∈ I.uses a, (⟨v, d⟩ : ReachingDef ν) ∈ definitionsBefore I c block input u.instIdx

theorem walkStep_snd (block : Nat) (entry : ι × Nat) :
    (walkStep I block (chains, reaching) entry).2 = defineStep I block reaching entry := by
  unfold walkStep defineStep
  cases h : I.defs entry.1 with
  | nil => rfl
  | cons v defs => rfl

theorem Records.walkStep (h : chains.Records L) (reaching : Finset (ReachingDef ν)) (block : Nat)
    (entry : ι × Nat) : (walkStep I block (chains, reaching) entry).1.Records fun d u =>
      L d u ∨ (u = ⟨block, entry.2⟩ ∧ ∃ v ∈ I.uses entry.1, (⟨v, d⟩ : ReachingDef ν) ∈ reaching) := by
  have hlinked := Records.linkUses reaching ⟨block, entry.2⟩ (I.uses entry.1) h
  unfold DefUseChains.walkStep
  cases hdefs : (I.defs entry.1).isEmpty with
  | true => exact hlinked
  | false =>
    -- a definition without uses only becomes a key
    refine ⟨fun d u => ?_, hlinked.mem_defsOf⟩
    refine (FiniteMap.getD_addTo _ _ _ d u).trans ?_
    simp only [Finset.notMem_empty, and_false, or_false]
    exact hlinked.mem_usesOf d u

theorem Records.walk (h : chains.Records L) (input : Finset (ReachingDef ν)) (block k : Nat) :
    ∃ chains', ((c.instructions block).zipIdx.take k).foldl (DefUseChains.walkStep I block) (chains, input) =
        (chains', definitionsBefore I c block input k) ∧
      chains'.Records fun d u => L d u ∨ (LinkedIn I c input block d u ∧ u.instIdx < k) := by
  induction k with
  | zero => exact ⟨chains, rfl, h.congr (by simp)⟩
  | succ k ih =>
    obtain ⟨chains', hfold, hrecords⟩ := ih
    cases ha : (c.instructions block)[k]? with
    | none =>
      have hget : (c.instructions block).zipIdx[k]? = none := by simp [ha]
      have hk : ∀ a j, (c.instructions block)[j]? = some a → j < k := fun a j hj => by
        have := (List.getElem?_eq_some_iff.mp hj).1
        have := List.getElem?_eq_none_iff.mp ha
        omega
      refine ⟨chains', ?_, hrecords.congr fun d u => or_congr_right (and_congr_right fun hlink => ?_)⟩
      · rw [definitionsBefore, List.take_add_one, hget, Option.toList_none, List.append_nil]
        exact hfold
      · obtain ⟨_, a, ha, _⟩ := hlink
        have := hk a _ ha
        omega
    | some a =>
      have hget : (c.instructions block).zipIdx[k]? = some (a, k) := by simp [ha]
      refine ⟨(DefUseChains.walkStep I block (chains', definitionsBefore I c block input k) (a, k)).1, ?_,
        (hrecords.walkStep (definitionsBefore I c block input k) block (a, k)).congr fun d u => ?_⟩
      · rw [List.take_add_one, hget, List.foldl_append, hfold, definitionsBefore_succ ha]
        exact Prod.ext rfl (walkStep_snd block (a, k))
      · rw [or_assoc]
        refine or_congr_right ⟨?_, ?_⟩
        · rintro (⟨hlink, hlt⟩ | ⟨rfl, hv⟩)
          · exact ⟨hlink, by omega⟩
          · exact ⟨⟨rfl, a, ha, hv⟩, Nat.lt_succ_self k⟩
        · rintro ⟨hlink, hlt⟩
          by_cases hu : u.instIdx < k
          · exact Or.inl ⟨hlink, hu⟩
          · obtain ⟨b, j⟩ := u
            obtain ⟨rfl, a', ha', hv⟩ := hlink
            obtain rfl : j = k := by
              change j < k + 1 at hlt
              change ¬ j < k at hu
              omega
            cases ha.symm.trans ha'
            exact Or.inr ⟨rfl, hv⟩

theorem Records.walkBlock (h : chains.Records L) (facts : Facts (Finset (ReachingDef ν))) (block : Nat) :
    (walkBlock I c facts chains block).Records fun d u => L d u ∨ LinkedIn I c (facts.input block) block d u := by
  obtain ⟨chains', hfold, hrecords⟩ := h.walk (I := I) (c := c) (facts.input block) block (c.instructions block).length
  rw [List.take_of_length_le (by simp)] at hfold
  unfold DefUseChains.walkBlock
  rw [hfold]
  refine hrecords.congr fun d u => or_congr_right (and_iff_left_of_imp ?_)
  rintro ⟨rfl, a, ha, _⟩
  exact (List.getElem?_eq_some_iff.mp ha).1

theorem Records.walkBlocks (facts : Facts (Finset (ReachingDef ν))) (blocks : List Nat) : ∀ {chains : DefUseChains}
    {L : ProgramPoint → ProgramPoint → Prop}, chains.Records L →
      (blocks.foldl (DefUseChains.walkBlock I c facts) chains).Records fun d u =>
        L d u ∨ ∃ block ∈ blocks, LinkedIn I c (facts.input block) block d u := by
  induction blocks with
  | nil => exact fun h => h.congr (by simp)
  | cons block blocks ih =>
    intro chains L h
    refine (ih (h.walkBlock facts block)).congr fun d u => ?_
    rw [List.exists_mem_cons_iff, or_assoc]

end Walk

end DefUseChains

/-! ## The chains are the paths -/

section Exact

variable [DecidableEq ν] {I : InstrInfo ι ν} {c : Cfg ι π}

/-- Some instruction reads the variable at the use site. -/
def IsUse (I : InstrInfo ι ν) (c : Cfg ι π) (v : ν) (u : ProgramPoint) : Prop :=
  ∃ a, (c.instructions u.block)[u.instIdx]? = some a ∧ v ∈ I.uses a

/-- The use comes later in the block of the definition, with no definition of the variable
between them. -/
def Within (I : InstrInfo ι ν) (c : Cfg ι π) (d : ReachingDef ν) (u : ProgramPoint) : Prop :=
  IsDefinition I c d ∧ d.site.block = u.block ∧ d.site.instIdx < u.instIdx ∧
    ∀ k a, d.site.instIdx < k → k < u.instIdx → (c.instructions u.block)[k]? = some a → d.var ∉ I.defs a

/-- The definition supplies a read at the use site: it reaches it on a path from a block
that the entry reaches, or on the way through its own block. -/
def Supplies (I : InstrInfo ι ν) (c : Cfg ι π) (d : ReachingDef ν) (u : ProgramPoint) : Prop :=
  IsUse I c d.var u ∧ (Carried I c (u.block, u.instIdx) d ∨ Within I c d u)

omit [DecidableEq ν] in
theorem Within.reaches {d : ReachingDef ν} {u : ProgramPoint} (hu : c.containsBlock u.block) (h : Within I c d u) :
    u.instIdx ≤ (c.instructions u.block).length → Reaches I c d (u.block, u.instIdx) := by
  obtain ⟨hd, hblock, hlt, hno⟩ := h
  obtain ⟨b, j⟩ := u
  change d.site.instIdx + 1 ≤ j at hlt
  intro hj
  refine ⟨hd, ?_⟩
  induction j, hlt using Nat.le_induction with
  | base =>
    rw [← hblock]
    exact .refl
  | succ j hle ih =>
    have ha : (c.instructions b)[j]? = some (c.instructions b)[j] :=
      List.getElem?_eq_getElem (Nat.lt_of_succ_le hj)
    refine (Flow.pathPast_succ_iff (Cfg.exists_code hu) ha).mpr (Or.inr ⟨?_, fun hbar => ?_⟩)
    · exact ih hu hblock (fun k a h₁ h₂ => hno k a h₁ (Nat.lt_succ_of_lt h₂)) (Nat.le_of_succ_le hj)
    · exact hno j _ hle (Nat.lt_succ_self j) ha hbar.1

theorem mem_definitionsBefore_empty {n : Nat} {d : ReachingDef ν} (i : Nat) : i ≤ (c.instructions n).length →
    (d ∈ definitionsBefore I c n ∅ i ↔ Within I c d ⟨n, i⟩) := by
  induction i with
  | zero =>
    intro _
    constructor
    · intro h
      exact absurd h (Finset.notMem_empty d)
    · rintro ⟨_, _, hlt, _⟩
      exact absurd hlt (Nat.not_lt_zero _)
  | succ i ih =>
    intro hi
    have ha : (c.instructions n)[i]? = some (c.instructions n)[i] := List.getElem?_eq_getElem hi
    rw [definitionsBefore_succ ha, mem_defineAt, ih (Nat.le_of_succ_le hi)]
    constructor
    · rintro (⟨⟨hd, hblock, hlt, hno⟩, hv⟩ | ⟨hsite, hv⟩)
      · refine ⟨hd, hblock, Nat.lt_succ_of_lt hlt, fun k a h₁ h₂ hk => ?_⟩
        rcases Nat.lt_succ_iff_lt_or_eq.mp h₂ with h₂ | rfl
        · exact hno k a h₁ h₂ hk
        · cases ha.symm.trans hk
          exact hv
      · obtain ⟨v, s⟩ := d
        subst hsite
        exact ⟨⟨_, ha, hv⟩, rfl, Nat.lt_succ_self i, fun k a h₁ h₂ _ => absurd (Nat.lt_succ_iff.mp h₂) (Nat.not_le.mpr h₁)⟩
    · rintro ⟨hd, hblock, hlt, hno⟩
      rcases Nat.lt_succ_iff_lt_or_eq.mp hlt with hlt | hidx
      · exact Or.inl ⟨⟨hd, hblock, hlt, fun k a h₁ h₂ => hno k a h₁ (Nat.lt_succ_of_lt h₂)⟩,
          hno i _ hlt (Nat.lt_succ_self i) ha⟩
      · obtain ⟨v, b, j⟩ := d
        obtain rfl : b = n := hblock
        obtain rfl : j = i := hidx
        obtain ⟨a, ha', hv⟩ := hd
        cases ha.symm.trans ha'
        exact Or.inr ⟨rfl, hv⟩

theorem mem_definitionsBefore_iff (hc : c.WF) {facts : Facts (Finset (ReachingDef ν))}
    (hfacts : ∀ n d, d ∈ facts.input n ↔ Carried I c (n, 0) d) {n i : Nat} (hn : c.containsBlock n)
    (hi : i ≤ (c.instructions n).length) (d : ReachingDef ν) :
    d ∈ definitionsBefore I c n (facts.input n) i ↔ Carried I c (n, i) d ∨ Within I c d ⟨n, i⟩ := by
  by_cases hentry : FromEntry c n
  · rw [mem_definitionsBefore_carried hn hentry (hfacts n) i hi d]
    refine ⟨Or.inl, fun h => h.elim id fun hwithin => ⟨hwithin.reaches hn hi, ?_⟩⟩
    rw [hwithin.2.1]
    exact hentry
  · have hempty : facts.input n = ∅ := by
      refine Finset.eq_empty_of_forall_notMem fun d hd => ?_
      exact hentry (((hfacts n d).mp hd).fromEntry hc)
    rw [hempty, mem_definitionsBefore_empty i hi]
    exact ⟨Or.inr, fun h => h.elim (fun hcarried => absurd (hcarried.fromEntry hc) hentry) id⟩

theorem DefUseChains.compute_spec (hc : c.WF) : ∃ facts : Facts (Finset (ReachingDef ν)), ∃ chains : DefUseChains,
    (∃ N, ∀ fuel, N ≤ fuel →
      ReachingDefs.compute I c fuel = some facts ∧ DefUseChains.compute I c fuel = some chains) ∧
      (∀ n d, d ∈ facts.input n ↔ Carried I c (n, 0) d) ∧
      chains.Records fun d u => ∃ v, Supplies I c ⟨v, d⟩ u := by
  obtain ⟨facts, ⟨N, hN⟩, hfacts⟩ := ReachingDefs.compute_spec (I := I) hc
  refine ⟨facts, _, ⟨N, fun fuel hfuel => ⟨hN fuel hfuel, ?_⟩⟩, hfacts,
    (records_empty.walkBlocks (I := I) (c := c) facts c.blockIds).congr fun d u => ?_⟩
  · rw [DefUseChains.compute, hN fuel hfuel]
    rfl
  · rw [false_or]
    constructor
    · rintro ⟨n, hn, rfl, a, ha, v, hv, hd⟩
      have hi := Nat.le_of_lt (List.getElem?_eq_some_iff.mp ha).1
      exact ⟨v, ⟨a, ha, hv⟩, (mem_definitionsBefore_iff hc hfacts (Cfg.mem_blockIds.mp hn) hi _).mp hd⟩
    · rintro ⟨v, ⟨a, ha, hv⟩, hd⟩
      have hn := Cfg.containsBlock_of_getElem? ha
      have hi := Nat.le_of_lt (List.getElem?_eq_some_iff.mp ha).1
      exact ⟨u.block, Cfg.mem_blockIds.mpr hn, rfl, a, ha, v, hv, (mem_definitionsBefore_iff hc hfacts hn hi _).mpr hd⟩

/-- Reaching definitions and chains are exact: a definition reaches the start of a block
when its own block is reached from the entry and some path leads there past every other
definition of its variable, and it is linked to the reads that it supplies. -/
theorem reachingDefs_exact (hc : c.WF) : ∃ facts : Facts (Finset (ReachingDef ν)), ∃ chains : DefUseChains,
    (∃ N, ∀ fuel, N ≤ fuel →
      ReachingDefs.compute I c fuel = some facts ∧ DefUseChains.compute I c fuel = some chains) ∧
      (∀ n d, d ∈ facts.input n ↔ Reaches I c d (n, 0) ∧ FromEntry c d.site.block) ∧
      (∀ d u, u ∈ chains.usesOf d ↔ ∃ v, IsUse I c v u ∧
        (Reaches I c ⟨v, d⟩ (u.block, u.instIdx) ∧ FromEntry c d.block ∨ Within I c ⟨v, d⟩ u)) ∧
      ∀ d u, d ∈ chains.defsOf u ↔ u ∈ chains.usesOf d := by
  obtain ⟨facts, chains, hN, hfacts, hrecords⟩ := DefUseChains.compute_spec (I := I) hc
  exact ⟨facts, chains, hN, hfacts, hrecords.mem_usesOf,
    fun d u => (hrecords.mem_defsOf d u).trans (hrecords.mem_usesOf d u).symm⟩

end Exact

/-- A loop whose instruction reads and writes one variable and may leave to a handler
before it writes. -/
def escapingLoop : Cfg (List Nat × List Nat × Bool) Unit :=
  Cfg.ofParts [[([], [0], false)], [([0], [0], true)], [([0], [], false)]]
    [(0, 1, .fallthrough, ()), (1, 1, .back, ()), (1, 2, .exceptionUnwind, ())]

theorem reachingDefs_exact_escapingLoop : ∃ chains : DefUseChains,
    (∃ N, ∀ fuel, N ≤ fuel → DefUseChains.compute plainInfo escapingLoop fuel = some chains) ∧
      ∀ d u, u ∈ chains.usesOf d ↔ ∃ v, IsUse plainInfo escapingLoop v u ∧
        (Reaches plainInfo escapingLoop ⟨v, d⟩ (u.block, u.instIdx) ∧ FromEntry escapingLoop d.block ∨
          Within plainInfo escapingLoop ⟨v, d⟩ u) := by
  obtain ⟨_, chains, ⟨N, hN⟩, _, huses, _⟩ :=
    reachingDefs_exact (I := plainInfo) (c := escapingLoop) (Cfg.wf_ofParts rfl)
  exact ⟨chains, ⟨N, fun fuel hfuel => (hN fuel hfuel).2⟩, huses⟩

example : (DefUseChains.compute plainInfo escapingLoop 10).map (·.defsOf ⟨2, 0⟩) = some {⟨0, 0⟩, ⟨1, 0⟩} := rfl

/-- A definition in a block that the entry does not reach, with an edge to the entry. -/
def unreachedDefinition : Cfg (List Nat × List Nat × Bool) Unit :=
  Cfg.ofParts [[([0], [], false)], [([], [0], false)]] [(1, 0, .fallthrough, ())]

/-- A path leads from the definition to the entry, and neither analysis reports it. -/
theorem compute_unreachedDefinition : unreachedDefinition.WF ∧
    Reaches plainInfo unreachedDefinition ⟨0, 1, 0⟩ (0, 0) ∧ IsUse plainInfo unreachedDefinition 0 ⟨0, 0⟩ ∧
    (ReachingDefs.compute plainInfo unreachedDefinition 10).map (·.input 0) = some ∅ ∧
    (DefUseChains.compute plainInfo unreachedDefinition 10).map (·.defsOf ⟨0, 0⟩) = some ∅ := by
  refine ⟨Cfg.wf_ofParts rfl, ⟨⟨_, rfl, by decide⟩, .single ?_⟩, ⟨_, rfl, by decide⟩, rfl, rfl⟩
  exact Flow.stepPast_leave (b := 1) (l := [([], [0], false)]) rfl ⟨0, _, rfl, rfl, rfl, rfl⟩

end Dataflow

end CfgLib

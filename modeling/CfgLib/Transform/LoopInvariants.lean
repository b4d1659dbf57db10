import CfgLib.Dataflow.DefUse
import CfgLib.Graph.NaturalLoop
import CfgLib.Lib.Fold
import CfgLib.Lib.Loop
import CfgLib.Lib.Region
import CfgLib.Transform.Dce
import CfgLib.Transform.Interference

/-!
# Loop invariants

`transform/loops.rs`: the instructions of a loop whose operands come from outside it or
from one invariant instruction inside it, and when such an instruction reads the same
values each time it runs between an entry of the loop and the next exit.
-/

namespace CfgLib.Transform

open CfgLib.Lib CfgLib.Dataflow List

variable {ι ν ε π : Type} [DecidableEq ν]

/-- The instruction defines something, declares no effect and cannot unwind. -/
def computesAValue (J : EffectInfo ι ν ε) (inst : ι) : Bool :=
  !(J.defs inst).isEmpty && (J.effects inst).isEmpty && !J.mayUnwind inst

def definesAt (J : EffectInfo ι ν ε) (c : Cfg ι π) (var : ν) (site : ProgramPoint) : Bool :=
  ((c.instructions site.block)[site.instIdx]?).any fun inst => decide (var ∈ J.defs inst)

/-- Whether no definition inside the loop supplies the operand, or a single definition does,
which is invariant. -/
def operandInvariant (J : EffectInfo ι ν ε) (c : Cfg ι π) (lp : NaturalLoop) (chains : DefUseChains)
    (invariants : Finset ProgramPoint) (point : ProgramPoint) (var : ν) : Bool :=
  let suppliers := (chains.defsOf point).filter fun site => definesAt J c var site = true
  let inside := suppliers.filter (·.block ∈ lp.body)
  if inside.card = 0 then true
  else if inside.card = 1 then decide (suppliers.card = 1 ∧ inside ⊆ invariants)
  else false

/-- Considers one instruction of the loop; the flag says that an invariant was found. -/
def considerInstruction (J : EffectInfo ι ν ε) (c : Cfg ι π) (lp : NaturalLoop) (chains : DefUseChains)
    (state : Finset ProgramPoint × Bool) (entry : ProgramPoint × ι) : Finset ProgramPoint × Bool :=
  let (invariants, _) := state
  let (point, inst) := entry
  if !computesAValue J inst || decide (point ∈ invariants) then state
  else if (J.uses inst).all (operandInvariant J c lp chains invariants point) then (insert point invariants, true)
  else state

def loopInstructions (c : Cfg ι π) (lp : NaturalLoop) : List (ProgramPoint × ι) :=
  lp.body.sort.flatMap fun block => (c.instructions block).zipIdx.map fun entry => (⟨block, entry.2⟩, entry.1)

/-- One pass over the loop, or `none` when it finds nothing. -/
def invariantsPass (J : EffectInfo ι ν ε) (c : Cfg ι π) (lp : NaturalLoop) (chains : DefUseChains)
    (invariants : Finset ProgramPoint) : Option (Finset ProgramPoint) :=
  let (invariants, changed) := (loopInstructions c lp).foldl (considerInstruction J c lp chains) (invariants, false)
  if changed then some invariants else none

/-- The loop-invariant instructions, or `none` while the passes run. -/
def findLoopInvariants (J : EffectInfo ι ν ε) (c : Cfg ι π) (lp : NaturalLoop) (fuel : Nat) :
    Option (Finset ProgramPoint) := do
  let chains ← DefUseChains.compute J.toInstrInfo c fuel
  let invariants := iterate (invariantsPass J c lp chains) fuel ∅
  if (invariantsPass J c lp chains invariants).isNone then some invariants else none

/-! ## What is reported -/

section Reported

variable {J : EffectInfo ι ν ε} {c : Cfg ι π} {lp : NaturalLoop} {chains : DefUseChains}
  {invariants invariants' : Finset ProgramPoint} {point : ProgramPoint} {inst : ι} {var : ν}

/-- The instruction at a site defines the variable and supplies some operand at the point. -/
def Feeds (I : InstrInfo ι ν) (c : Cfg ι π) (var : ν) (site point : ProgramPoint) : Prop :=
  (∃ v, Supplies I c ⟨v, site⟩ point) ∧ IsDefinition I c ⟨var, site⟩

/-- The documented test: the instruction computes a value, and each operand that a
definition inside the loop feeds is fed by that one only, which passes the test. -/
inductive Qualifies (J : EffectInfo ι ν ε) (c : Cfg ι π) (lp : NaturalLoop) : ProgramPoint → Prop
  | intro {point : ProgramPoint} {inst : ι} :
    point.block ∈ lp.body → (c.instructions point.block)[point.instIdx]? = some inst →
      computesAValue J inst = true →
      (∀ v ∈ J.uses inst, ∀ site, Feeds J.toInstrInfo c v site point → site.block ∈ lp.body →
        ∀ site', Feeds J.toInstrInfo c v site' point → site' = site) →
      (∀ v ∈ J.uses inst, ∀ site, Feeds J.toInstrInfo c v site point → site.block ∈ lp.body →
        Qualifies J c lp site) →
      Qualifies J c lp point

theorem mem_loopInstructions : (point, inst) ∈ loopInstructions c lp ↔
    point.block ∈ lp.body ∧ (c.instructions point.block)[point.instIdx]? = some inst := by
  obtain ⟨block, index⟩ := point
  simp only [loopInstructions, mem_flatMap, Finset.mem_sort, mem_map]
  constructor
  · rintro ⟨block', hblock, entry, hentry, heq⟩
    cases heq
    exact ⟨hblock, mk_mem_zipIdx_iff_getElem?.mp hentry⟩
  · rintro ⟨hblock, hinst⟩
    exact ⟨block, hblock, (inst, index), mk_mem_zipIdx_iff_getElem?.mpr hinst, rfl⟩

theorem mem_suppliers_iff (h : chains.Records fun d u => ∃ v, Supplies J.toInstrInfo c ⟨v, d⟩ u)
    {site : ProgramPoint} :
    site ∈ (chains.defsOf point).filter (fun site => definesAt J c var site = true) ↔
      Feeds J.toInstrInfo c var site point := by
  rw [Finset.mem_filter, h.mem_defsOf, definesAt, Option.any_eq_true]
  exact and_congr_right fun _ => exists_congr fun a => and_congr_right fun _ => decide_eq_true_iff

theorem operandInvariant_iff (h : chains.Records fun d u => ∃ v, Supplies J.toInstrInfo c ⟨v, d⟩ u) :
    operandInvariant J c lp chains invariants point var = true ↔
      ∀ site, Feeds J.toInstrInfo c var site point → site.block ∈ lp.body →
        site ∈ invariants ∧ ∀ site', Feeds J.toInstrInfo c var site' point → site' = site := by
  unfold operandInvariant
  have hmem : ∀ site, site ∈ ((chains.defsOf point).filter fun site => definesAt J c var site = true) ↔
      Feeds J.toInstrInfo c var site point := fun _ => mem_suppliers_iff h
  generalize (chains.defsOf point).filter (fun site => definesAt J c var site = true) = suppliers at hmem ⊢
  simp only [← hmem]
  constructor
  · intro hop site hsite hin
    have hinside : site ∈ suppliers.filter (·.block ∈ lp.body) := Finset.mem_filter.mpr ⟨hsite, hin⟩
    have hpos : (suppliers.filter (·.block ∈ lp.body)).card ≠ 0 := Finset.card_ne_zero_of_mem hinside
    rw [if_neg hpos] at hop
    split at hop
    · obtain ⟨hcard, hsub⟩ := of_decide_eq_true hop
      refine ⟨hsub hinside, fun site' hsite' => ?_⟩
      exact Finset.card_le_one.mp (Nat.le_of_eq hcard) _ hsite' _ hsite
    · exact absurd hop Bool.false_ne_true
  · intro hop
    split
    · rfl
    · next hpos =>
      -- some supplier is inside, so it is the only one
      obtain ⟨site, hinside⟩ := Finset.card_pos.mp (Nat.pos_of_ne_zero hpos)
      obtain ⟨hsite, hin⟩ := Finset.mem_filter.mp hinside
      obtain ⟨hinv, honly⟩ := hop site hsite hin
      have hone : suppliers = {site} := Finset.eq_singleton_iff_unique_mem.mpr ⟨hsite, honly⟩
      have hone' : suppliers.filter (·.block ∈ lp.body) = {site} :=
        Finset.eq_singleton_iff_unique_mem.mpr ⟨hinside, fun x hx => honly x (Finset.mem_filter.mp hx).1⟩
      rw [hone', Finset.card_singleton, if_pos rfl, hone, Finset.card_singleton]
      exact decide_eq_true ⟨rfl, Finset.singleton_subset_iff.mpr hinv⟩

/-- The test on one instruction, with the invariants found so far. -/
def Passes (J : EffectInfo ι ν ε) (c : Cfg ι π) (lp : NaturalLoop) (chains : DefUseChains)
    (invariants : Finset ProgramPoint) (entry : ProgramPoint × ι) : Prop :=
  computesAValue J entry.2 = true ∧ ∀ v ∈ J.uses entry.2, operandInvariant J c lp chains invariants entry.1 v = true

theorem considerInstruction_cases (J : EffectInfo ι ν ε) (c : Cfg ι π) (lp : NaturalLoop) (chains : DefUseChains)
    (state : Finset ProgramPoint × Bool) (entry : ProgramPoint × ι) :
    (considerInstruction J c lp chains state entry = state ∧
        (Passes J c lp chains state.1 entry → entry.1 ∈ state.1)) ∨
      (considerInstruction J c lp chains state entry = (insert entry.1 state.1, true) ∧
        entry.1 ∉ state.1 ∧ Passes J c lp chains state.1 entry) := by
  obtain ⟨invariants, changed⟩ := state
  obtain ⟨point, inst⟩ := entry
  simp only [considerInstruction]
  split
  · next hskip =>
    refine Or.inl ⟨rfl, fun hpasses => ?_⟩
    rw [Bool.or_eq_true, hpasses.1] at hskip
    exact hskip.elim (fun h => absurd h Bool.false_ne_true) of_decide_eq_true
  · next hgo =>
    rw [Bool.or_eq_true, not_or] at hgo
    have hnew : point ∉ invariants := fun h => hgo.2 (decide_eq_true h)
    have hcomputes : computesAValue J inst = true := by
      cases h : computesAValue J inst with
      | true => rfl
      | false => exact absurd (by rw [h]; rfl) hgo.1
    split
    · next hall => exact Or.inr ⟨rfl, hnew, hcomputes, all_eq_true.mp hall⟩
    · next hall => exact Or.inl ⟨rfl, fun hpasses => absurd (all_eq_true.mpr hpasses.2) hall⟩

theorem Passes.qualifies (h : chains.Records fun d u => ∃ v, Supplies J.toInstrInfo c ⟨v, d⟩ u)
    (hinv : ∀ p ∈ invariants, Qualifies J c lp p) (hmem : (point, inst) ∈ loopInstructions c lp)
    (hpasses : Passes J c lp chains invariants (point, inst)) : Qualifies J c lp point := by
  obtain ⟨hblock, hinst⟩ := mem_loopInstructions.mp hmem
  obtain ⟨hcomputes, huses⟩ := hpasses
  refine .intro hblock hinst hcomputes (fun v hv site hsite hin => ?_) fun v hv site hsite hin => ?_
  · exact ((operandInvariant_iff h).mp (huses v hv) site hsite hin).2
  · exact hinv site ((operandInvariant_iff h).mp (huses v hv) site hsite hin).1

/-- What holds within a pass that started from the points `start`. -/
structure Passing (J : EffectInfo ι ν ε) (c : Cfg ι π) (lp : NaturalLoop) (start : Finset ProgramPoint)
    (state : Finset ProgramPoint × Bool) : Prop where
  subset : start ⊆ state.1
  qualifies : ∀ p ∈ state.1, Qualifies J c lp p
  changed : state.2 = true → ∃ p ∈ state.1, p ∉ start
  unchanged : state.2 = false → state.1 = start

theorem Passing.considerInstruction (h : chains.Records fun d u => ∃ v, Supplies J.toInstrInfo c ⟨v, d⟩ u)
    {state : Finset ProgramPoint × Bool} (hstate : Passing J c lp invariants state) {entry : ProgramPoint × ι}
    (hmem : entry ∈ loopInstructions c lp) :
    Passing J c lp invariants (considerInstruction J c lp chains state entry) := by
  rcases considerInstruction_cases J c lp chains state entry with
    ⟨heq, _⟩ | ⟨heq, hnew, hpasses⟩
  · rw [heq]
    exact hstate
  · rw [heq]
    constructor
    · exact fun p hp => Finset.mem_insert_of_mem (hstate.subset hp)
    · intro p hp
      rcases Finset.mem_insert.mp hp with rfl | hp
      · exact hpasses.qualifies h hstate.qualifies hmem
      · exact hstate.qualifies p hp
    · exact fun _ => ⟨entry.1, Finset.mem_insert_self _ _, fun hstart => hnew (hstate.subset hstart)⟩
    · exact fun hfalse => absurd hfalse.symm Bool.false_ne_true

theorem passing_foldl (lp : NaturalLoop) (h : chains.Records fun d u => ∃ v, Supplies J.toInstrInfo c ⟨v, d⟩ u)
    (hinv : ∀ p ∈ invariants, Qualifies J c lp p) : Passing J c lp invariants
      ((loopInstructions c lp).foldl (considerInstruction J c lp chains) (invariants, false)) := by
  refine List.foldlRecOn _ _ ⟨fun _ hp => hp, hinv, fun hfalse => absurd hfalse Bool.false_ne_true, fun _ => rfl⟩ ?_
  exact fun state hstate entry hmem => hstate.considerInstruction h hmem

theorem mem_of_pass_none (h : chains.Records fun d u => ∃ v, Supplies J.toInstrInfo c ⟨v, d⟩ u)
    (hinv : ∀ p ∈ invariants, Qualifies J c lp p) (hnone : invariantsPass J c lp chains invariants = none)
    {entry : ProgramPoint × ι} (hmem : entry ∈ loopInstructions c lp)
    (hpasses : Passes J c lp chains invariants entry) : entry.1 ∈ invariants := by
  have hstate := passing_foldl lp h hinv
  let Seen (state : Finset ProgramPoint × Bool) : Prop :=
    state.2 = true ∨ (Passes J c lp chains state.1 entry → entry.1 ∈ state.1)
  have hmakes : Seen ((loopInstructions c lp).foldl (considerInstruction J c lp chains) (invariants, false)) := by
    refine foldl_makes (P := Seen) (fun state other hkept => ?_) (fun state => ?_) hmem (invariants, false)
    · rcases considerInstruction_cases J c lp chains state other with
        ⟨heq, _⟩ | ⟨heq, _⟩
      · rw [heq]
        exact hkept
      · rw [heq]
        exact Or.inl rfl
    · rcases considerInstruction_cases J c lp chains state entry with
        ⟨heq, hin⟩ | ⟨heq, _⟩
      · rw [heq]
        exact Or.inr hin
      · rw [heq]
        exact Or.inl rfl
  unfold invariantsPass at hnone
  generalize (loopInstructions c lp).foldl (considerInstruction J c lp chains) (invariants, false) = state
    at hstate hmakes hnone
  obtain ⟨found, changed⟩ := state
  cases changed with
  | true => exact absurd hnone (Option.some_ne_none _)
  | false =>
    have hsame : found = invariants := hstate.unchanged rfl
    subst hsame
    exact hmakes.elim (fun hfalse => absurd hfalse Bool.false_ne_true) fun hin => hin hpasses

theorem pass_some (h : chains.Records fun d u => ∃ v, Supplies J.toInstrInfo c ⟨v, d⟩ u)
    (hinv : ∀ p ∈ invariants, Qualifies J c lp p) (hsome : invariantsPass J c lp chains invariants = some invariants') :
    (∀ p ∈ invariants', Qualifies J c lp p) ∧ invariants ⊆ invariants' ∧ ∃ p ∈ invariants', p ∉ invariants := by
  have hstate := passing_foldl lp h hinv
  unfold invariantsPass at hsome
  generalize (loopInstructions c lp).foldl (considerInstruction J c lp chains) (invariants, false) = state
    at hstate hsome
  obtain ⟨found, changed⟩ := state
  cases changed with
  | true =>
    obtain rfl : found = invariants' := Option.some.inj hsome
    exact ⟨hstate.qualifies, hstate.subset, hstate.changed rfl⟩
  | false => exact absurd hsome.symm (Option.some_ne_none _)

def loopPoints (c : Cfg ι π) (lp : NaturalLoop) : Finset ProgramPoint :=
  ((loopInstructions c lp).map (·.1)).toFinset

omit [DecidableEq ν] in
theorem Qualifies.mem_loopPoints (h : Qualifies J c lp point) : point ∈ loopPoints c lp := by
  cases h with
  | @intro _ inst hblock hinst =>
    rw [loopPoints, mem_toFinset, mem_map]
    exact ⟨(point, inst), mem_loopInstructions.mpr ⟨hblock, hinst⟩, rfl⟩

theorem findLoopInvariants_spec (J : EffectInfo ι ν ε) (hc : c.WF) (lp : NaturalLoop) :
    ∃ reported, (∃ N, ∀ fuel, N ≤ fuel → findLoopInvariants J c lp fuel = some reported) ∧
      ∀ point, point ∈ reported ↔ Qualifies J c lp point := by
  obtain ⟨_, chains, ⟨N, hchains⟩, _, hrecords⟩ := DefUseChains.compute_spec (I := J.toInstrInfo) hc
  -- a pass that finds something leaves fewer points of the loop
  have hpass : ∀ invariants invariants', (∀ p ∈ invariants, Qualifies J c lp p) →
      invariantsPass J c lp chains invariants = some invariants' → (∀ p ∈ invariants', Qualifies J c lp p) ∧
        (loopPoints c lp \ invariants').card < (loopPoints c lp \ invariants).card := by
    intro invariants invariants' hinv hsome
    obtain ⟨hqualifies, hsub, p, hp, hnew⟩ := pass_some hrecords hinv hsome
    refine ⟨hqualifies, Finset.card_lt_card ((Finset.ssubset_iff_of_subset ?_).mpr ⟨p, ?_, ?_⟩)⟩
    · exact Finset.sdiff_subset_sdiff (Finset.Subset.refl _) hsub
    · exact Finset.mem_sdiff.mpr ⟨(hqualifies p hp).mem_loopPoints, hnew⟩
    · exact fun h => (Finset.mem_sdiff.mp h).2 hp
  have hempty : ∀ p ∈ (∅ : Finset ProgramPoint), Qualifies J c lp p := fun p hp => absurd hp (Finset.notMem_empty p)
  obtain ⟨M, reported, hrun, hqualifies, hnone⟩ := iterate_terminates Nat.lt_wfRel.wf hpass hempty
  refine ⟨reported, ⟨max N M, fun fuel hfuel => ?_⟩, fun point => ⟨hqualifies point, fun h => ?_⟩⟩
  · unfold findLoopInvariants
    rw [(hchains fuel (le_trans (le_max_left _ _) hfuel)).2]
    change (if (invariantsPass J c lp chains (iterate (invariantsPass J c lp chains) fuel ∅)).isNone = true then
      some (iterate (invariantsPass J c lp chains) fuel ∅) else none) = _
    rw [hrun fuel (le_trans (le_max_right _ _) hfuel), hnone]
    rfl
  · induction h with
    | @intro point inst hblock hinst hcomputes honly _ ih =>
      refine mem_of_pass_none hrecords hqualifies hnone
        (mem_loopInstructions.mpr ⟨hblock, hinst⟩) ⟨hcomputes, fun v hv => (operandInvariant_iff hrecords).mpr ?_⟩
      exact fun site hsite hin => ⟨ih v hv site hsite hin, honly v hv site hsite hin⟩

end Reported

/-! ## One entry of the loop -/

section Steady

variable {J : EffectInfo ι ν ε} {c : Cfg ι π} {lp : NaturalLoop} {point : ProgramPoint} {var : ν}

abbrev RunsIn (I : InstrInfo ι ν) (c : Cfg ι π) (lp : NaturalLoop) : Nat × Nat → List ι → Nat × Nat → Prop :=
  Run (Flow.StepIn (c.dataFlow I) I.mayUnwind (· ∈ lp.body))

/-- From whatever store the loop is entered, the instruction reads and computes the same
each time control comes to it before the loop is left. -/
def Steady (J : EffectInfo ι ν ε) (c : Cfg ι π) (lp : NaturalLoop) (point : ProgramPoint) : Prop :=
  ∀ (δ : Type) (results : ι → List δ → Nat → δ) (env : ν → δ) (inst : ι) (before again : List ι),
    (c.instructions point.block)[point.instIdx]? = some inst →
    RunsIn J.toInstrInfo c lp (lp.header, 0) before (point.block, point.instIdx) →
    RunsIn J.toInstrInfo c lp (point.block, point.instIdx) again (point.block, point.instIdx) →
      let S := semanticsOf J.toInstrInfo results
      let store := before.foldl (S.perform id) env
      let store' := again.foldl (S.perform id) store
      (∀ v ∈ J.uses inst, store' v = store v) ∧
        ∀ v ∈ J.defs inst, S.perform id store' inst v = S.perform id store inst v

/-- Control can come to the point from the header past every definition of the variable,
and come back to it through one, without leaving the loop. -/
def DefinedLate (I : InstrInfo ι ν) (c : Cfg ι π) (lp : NaturalLoop) (var : ν) (point : ProgramPoint) : Prop :=
  (∃ w, RunsIn I c lp (lp.header, 0) w (point.block, point.instIdx) ∧ ∀ a ∈ w, var ∉ I.defs a) ∧
    ∃ w, RunsIn I c lp (point.block, point.instIdx) w (point.block, point.instIdx) ∧ ∃ a ∈ w, var ∈ I.defs a

omit [DecidableEq ν] in
theorem feeds_of_last (hl : lp.IsLoopOf c.view) {p : Nat × Nat} {before after : List ι} {a : ι} {b i : Nat}
    (huse : IsUse J.toInstrInfo c var point)
    (hlast : (c.dataFlow J.toInstrInfo).LastPerforms J.mayUnwind (· ∈ lp.body) (var ∈ J.defs ·) p
      (point.block, point.instIdx) before a after b i) : Feeds J.toInstrInfo c var ⟨b, i⟩ point := by
  obtain ⟨l, hcode, ha⟩ := hlast.code
  obtain ⟨_, rfl⟩ := Cfg.instructions_of_code hcode
  have hd : IsDefinition J.toInstrInfo c ⟨var, b, i⟩ := ⟨a, ha, hlast.kind⟩
  refine ⟨⟨var, huse, Or.inl ⟨⟨hd, ?_⟩, hl.reached hlast.member⟩⟩, hd⟩
  exact Flow.pathPast_of_run (fun _ _ hbar => hbar.1) hlast.leave hlast.none_after

theorem foldl_perform_last {δ : Type} (results : ι → List δ → Nat → δ) {before after : List ι} {a : ι}
    (hafter : ∀ x ∈ after, var ∉ J.defs x) (env : ν → δ) :
    (before ++ a :: after).foldl ((semanticsOf J.toInstrInfo results).perform id) env var =
      (semanticsOf J.toInstrInfo results).perform id
        (before.foldl ((semanticsOf J.toInstrInfo results).perform id) env) a var := by
  rw [foldl_append, foldl_cons]
  exact Semantics.foldl_perform_of_not_mem hafter

theorem Qualifies.steady (hl : lp.IsLoopOf c.view)
    (hearly : ∀ point, Qualifies J c lp point → ∀ v, IsUse J.toInstrInfo c v point →
      ¬ DefinedLate J.toInstrInfo c lp v point)
    (h : Qualifies J c lp point) : Steady J c lp point := by
  induction h with
  | @intro point inst hblock hinst hcomputes honly hfed ih =>
    intro δ results env inst' before again hinst' hbefore hagain S store store'
    cases hinst.symm.trans hinst'
    have hreads : ∀ v ∈ J.uses inst, store' v = store v := by
      intro v hv
      have huse : IsUse J.toInstrInfo c v point := ⟨inst, hinst, hv⟩
      rcases Flow.exists_last (P := (v ∈ J.defs ·)) hagain with hnone | ⟨again₁, a, again₂, b, i, rfl, hlast⟩
      · exact Semantics.foldl_perform_of_not_mem hnone
      rcases Flow.exists_last (P := (v ∈ J.defs ·)) hbefore with
        hnone | ⟨before₁, a', before₂, b', i', rfl, hlast'⟩
      · refine absurd ⟨⟨before, hbefore, hnone⟩, _, hagain, a, ?_, hlast.kind⟩
          (hearly point (.intro hblock hinst hcomputes honly hfed) v huse)
        exact mem_append_right _ mem_cons_self
      · -- both values come from the one definition that feeds the operand, which is steady
        have hfeeds := feeds_of_last hl huse hlast
        have hsame := honly v hv _ hfeeds hlast.member _ (feeds_of_last hl huse hlast')
        obtain ⟨rfl, rfl⟩ := ProgramPoint.mk.inj hsame
        obtain ⟨l, hcode, ha⟩ := hlast.code
        obtain ⟨l', hcode', ha'⟩ := hlast'.code
        cases hcode.symm.trans hcode'
        cases ha.symm.trans ha'
        obtain ⟨_, rfl⟩ := Cfg.instructions_of_code hcode
        obtain ⟨_, hwrites⟩ := ih v hv _ hfeeds hlast.member δ results env a before₁ (a :: before₂ ++ again₁) ha
          hlast'.reach (hlast'.run.trans hlast.reach)
        calc store' v
            = S.perform id (again₁.foldl (S.perform id) store) a v := foldl_perform_last results hlast.none_after store
          _ = S.perform id ((a :: before₂ ++ again₁).foldl (S.perform id) (before₁.foldl (S.perform id) env)) a v := by
              rw [foldl_append]
              exact congrArg (fun s => S.perform id (again₁.foldl (S.perform id) s) a v) foldl_append
          _ = S.perform id (before₁.foldl (S.perform id) env) a v := hwrites v hlast.kind
          _ = store v := (foldl_perform_last results hlast'.none_after env).symm
    exact ⟨hreads, fun v hv => Semantics.perform_congr hreads hv⟩

/-- An operand that is defined late reads the value it had before the loop and another. -/
theorem Steady.not_definedLate (h : Steady J c lp point) (huse : IsUse J.toInstrInfo c var point) :
    ¬ DefinedLate J.toInstrInfo c lp var point := by
  rintro ⟨⟨w, hw, hnone⟩, w', hw', a, ha, hdef⟩
  obtain ⟨inst, hinst, hv⟩ := huse
  -- every definition writes `true` over the initial `false`
  have hsteady := (h Bool (fun _ _ _ => true) (fun _ => false) inst w w' hinst hw hw').1 var hv
  have hfirst : w.foldl ((semanticsOf J.toInstrInfo fun _ _ _ => true).perform id) (fun _ => false) var = false :=
    Semantics.foldl_perform_of_not_mem hnone
  rcases Flow.exists_last (P := (var ∈ J.defs ·)) hw' with hnone' | ⟨before, last, after, _, _, rfl, hlast⟩
  · exact hnone' a ha hdef
  · rw [hfirst, foldl_perform_last _ hlast.none_after] at hsteady
    refine Bool.false_ne_true (hsteady.symm.trans ?_)
    exact (Semantics.exists_perform (semanticsOf J.toInstrInfo fun _ _ _ => true) _ hlast.kind).elim fun _ hk => hk

omit [DecidableEq ν] in
theorem enters_header (hc : c.WF) (hl : lp.IsLoopOf c.view) {I : InstrInfo ι ν} {p q : Nat × Nat} {o : Option ι}
    (hs : Flow.Step (c.dataFlow I) I.mayUnwind p o q) (hp : FromEntry c p.1) (hout : p.1 ∉ lp.body)
    (hin : q.1 ∈ lp.body) : q = (lp.header, 0) := by
  have hedge : ∀ {b t : Nat}, (∃ e r, c.edge e = some r ∧ r.source = b ∧ r.target = t) → FromEntry c b →
      b ∉ lp.body → t ∈ lp.body → t = lp.header := by
    rintro b t ⟨e, r, hr, hs, ht⟩ hb hout hin
    exact hl.entered hb hout (hc.mem_successors.mpr ⟨e, r, hr, hs, ht⟩) hin
  cases hs with
  | exec => exact absurd hin hout
  | leave hcode hn =>
    obtain ⟨e, r, hr, hs, ht, _⟩ := hn
    exact congrArg (·, 0) (hedge ⟨e, r, hr, hs, ht⟩ hp hout hin)
  | raise hcode ha hthrow hu =>
    obtain ⟨e, r, hr, hs, ht, _⟩ := hu
    exact congrArg (·, 0) (hedge ⟨e, r, hr, hs, ht⟩ hp hout hin)

/-- Control enters the loop at its header; and every reported instruction is steady within
one entry exactly when no operand of one that passes the documented test is defined late. -/
theorem findLoopInvariants_steady (J : EffectInfo ι ν ε) (hc : c.WF) (hl : lp.IsLoopOf c.view) :
    ((c.entry ∈ lp.body → c.entry = lp.header) ∧
      ∀ p o q, Flow.Step (c.dataFlow J.toInstrInfo) J.mayUnwind p o q → FromEntry c p.1 → p.1 ∉ lp.body →
        q.1 ∈ lp.body → q = (lp.header, 0)) ∧
      ∃ reported, (∃ N, ∀ fuel, N ≤ fuel → findLoopInvariants J c lp fuel = some reported) ∧
        ((∀ point ∈ reported, Steady J c lp point) ↔
          ∀ point, Qualifies J c lp point → ∀ v, IsUse J.toInstrInfo c v point →
            ¬ DefinedLate J.toInstrInfo c lp v point) := by
  obtain ⟨reported, hreturns, hreported⟩ := findLoopInvariants_spec J hc lp
  refine ⟨⟨hl.root_mem, fun p o q hs => enters_header hc hl hs⟩, reported, hreturns, ?_, ?_⟩
  · intro hsteady point hpoint v huse
    exact (hsteady point ((hreported point).mpr hpoint)).not_definedLate huse
  · intro hearly point hpoint
    exact ((hreported point).mp hpoint).steady hl hearly

end Steady

/-- A loop that copies a variable and sets it to a constant afterwards. -/
def lateConstant : Cfg (List Nat × List Nat) Unit :=
  Cfg.ofParts [[], [([0], [1]), ([], [0])]] [(0, 1, .fallthrough, ()), (1, 1, .back, ())]

def lateLoop : NaturalLoop := ⟨1, {1}, {1}, 0⟩

theorem isLoopOf_lateLoop : lateLoop.IsLoopOf lateConstant.view where
  latches := ⟨1, Finset.mem_singleton_self 1⟩
  latch a ha := by
    obtain rfl := Finset.mem_singleton.mp ha
    have hself : 1 ∈ lateConstant.successors 1 := by decide
    have hentry : 1 ∈ lateConstant.successors 0 := by decide
    exact ⟨hself, .single hentry, Dominates.refl _ _ _⟩
  body b := by
    refine Finset.mem_singleton.trans ⟨Or.inl, ?_⟩
    rintro (rfl | ⟨hne, _, a, ha, hpath⟩)
    · rfl
    · obtain rfl := Finset.mem_singleton.mp ha
      rcases Relation.ReflTransGen.cases_tail hpath with heq | ⟨_, _, _, hself⟩
      · exact heq.symm
      · exact absurd rfl hself

theorem site_of_lateConstant {site : ProgramPoint} (h : IsDefinition readWrite.toInstrInfo lateConstant ⟨0, site⟩) :
    site = ⟨1, 1⟩ := by
  obtain ⟨b, i⟩ := site
  obtain ⟨a, ha, hv⟩ := h
  have hb : b < 2 := Cfg.block_lt (Cfg.containsBlock_of_getElem? ha)
  match b, i with
  | 0, _ => exact nomatch (ha : none = some a)
  | 1, 0 =>
    obtain rfl : ([0], [1]) = a := Option.some.inj ha
    exact absurd hv (by decide)
  | 1, 1 => rfl
  | 1, _ + 2 => exact nomatch (ha : none = some a)
  | _ + 2, _ => omega

theorem qualifies_lateConstant : Qualifies readWrite lateConstant lateLoop ⟨1, 0⟩ := by
  have hconstant : Qualifies readWrite lateConstant lateLoop ⟨1, 1⟩ :=
    .intro (by decide) (rfl : (lateConstant.instructions 1)[1]? = some ([], [0])) rfl (fun v hv => absurd hv not_mem_nil)
      fun v hv => absurd hv not_mem_nil
  refine .intro (by decide) (rfl : (lateConstant.instructions 1)[0]? = some ([0], [1])) rfl ?_ ?_
  · intro v hv site hsite _ site' hsite'
    obtain rfl := mem_singleton.mp hv
    rw [site_of_lateConstant hsite.2, site_of_lateConstant hsite'.2]
  · intro v hv site hsite _
    obtain rfl := mem_singleton.mp hv
    rw [site_of_lateConstant hsite.2]
    exact hconstant

theorem definedLate_lateConstant : DefinedLate readWrite.toInstrInfo lateConstant lateLoop 0 ⟨1, 0⟩ := by
  have hcode : (lateConstant.dataFlow readWrite.toInstrInfo).code 1 = some [([0], [1]), ([], [0])] := rfl
  have hback : Flow.StepIn (lateConstant.dataFlow readWrite.toInstrInfo) readWrite.mayUnwind (· ∈ lateLoop.body)
      (1, 2) none (1, 0) := by
    refine ⟨Flow.Step.leave hcode ⟨1, ⟨1, 1, _⟩, rfl, rfl, rfl, rfl⟩, ?_, ?_⟩
    · exact Finset.mem_singleton_self 1
    · exact Finset.mem_singleton_self 1
  refine ⟨⟨[], .refl _, fun _ ha => absurd ha not_mem_nil⟩, [([0], [1]), ([], [0])], ?_, ([], [0]), ?_, ?_⟩
  · exact .step (Flow.StepIn.exec (Finset.mem_singleton_self 1) hcode rfl)
      (.step (Flow.StepIn.exec (Finset.mem_singleton_self 1) hcode rfl) (.step hback (.refl _)))
  · exact mem_cons_of_mem _ mem_cons_self
  · exact mem_singleton_self 0

/-- The copy is reported, and reads the variable before the first constant and after it. -/
theorem findLoopInvariants_lateConstant : lateConstant.WF ∧ lateLoop.IsLoopOf lateConstant.view ∧
    ∃ reported, (∃ N, ∀ fuel, N ≤ fuel → findLoopInvariants readWrite lateConstant lateLoop fuel = some reported) ∧
      ⟨1, 0⟩ ∈ reported ∧ ¬ Steady readWrite lateConstant lateLoop ⟨1, 0⟩ := by
  have hwf : lateConstant.WF := Cfg.wf_ofParts rfl
  obtain ⟨reported, hreturns, hreported⟩ := findLoopInvariants_spec readWrite hwf lateLoop
  refine ⟨hwf, isLoopOf_lateLoop, reported, hreturns, (hreported _).mpr qualifies_lateConstant, fun hsteady => ?_⟩
  exact hsteady.not_definedLate ⟨_, rfl, by decide⟩ definedLate_lateConstant

theorem findLoopInvariants_steady_lateConstant :
    ∃ reported, (∃ N, ∀ fuel, N ≤ fuel → findLoopInvariants readWrite lateConstant lateLoop fuel = some reported) ∧
      ¬ ∀ point ∈ reported, Steady readWrite lateConstant lateLoop point := by
  obtain ⟨_, reported, hreturns, hiff⟩ := findLoopInvariants_steady readWrite (Cfg.wf_ofParts rfl) isLoopOf_lateLoop
  refine ⟨reported, hreturns, fun hsteady => ?_⟩
  exact hiff.mp hsteady _ qualifies_lateConstant 0 ⟨_, rfl, by decide⟩ definedLate_lateConstant

end CfgLib.Transform

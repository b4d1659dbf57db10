import CfgLib.Analysis.DeadCode
import Mathlib.Data.List.Dedup

/-!
# Dead-code elimination

`transform/dce.rs`: removing what the dead-code analysis reports.  The essential
instructions run in the same order on the same values along every path, the
blocks hand on the same values, the kept instructions are the least closed set,
and running the pass again removes nothing.
-/

namespace CfgLib.Transform

open CfgLib.Lib CfgLib.Analysis List

variable {ι ν ε π : Type}

/-- Whether an instruction survives the removal of `points`. -/
def survives (points : List (Nat × Nat)) (block index : Nat) : Bool :=
  !points.contains (block, index)

def removeInstructions (c : Cfg ι π) (points : List (Nat × Nat)) : Cfg ι π :=
  (points.map (·.1)).dedup.foldl (fun c block => c.modifyBlock block fun b =>
    { b with instructions := keptEntries (survives points block) b.instructions }) c

/-- Remove the instructions whose definitions are never used. -/
def deadCodeEliminationWithExits [DecidableEq ν] (I : EffectInfo ι ν ε) (c : Cfg ι π)
    (liveOut : Nat → List ν) : Option (Nat × Cfg ι π) :=
  (computeWithExits I c liveOut).map fun dead =>
    (dead.instructions.length, removeInstructions c dead.instructions)

def deadCodeElimination [DecidableEq ν] (I : EffectInfo ι ν ε) (c : Cfg ι π) :
    Option (Nat × Cfg ι π) :=
  deadCodeEliminationWithExits I c fun _ => []

/-! ## What removal does -/

variable {I : InstrInfo ι ν} {c : Cfg ι π} {points : List (Nat × Nat)} {b i : Nat} {l : List ι}

theorem keptEntries_all {keep : Nat → Bool} (h : ∀ i, keep i = true) (l : List ι) :
    keptEntries keep l = l := by
  unfold keptEntries
  rw [filter_eq_self.mpr fun entry _ => h entry.2]
  exact zipIdx_map_fst _ _

theorem foldl_modifyBlock (f : Nat → BasicBlock ι → BasicBlock ι) {blocks : List Nat}
    (hnodup : blocks.Nodup) (c : Cfg ι π) :
    let c' := blocks.foldl (fun c block => c.modifyBlock block (f block)) c
    (∀ i, c'.block i = if i ∈ blocks then (c.block i).map (f i) else c.block i) ∧
      (∀ e, c'.edge e = c.edge e) ∧ c'.entry = c.entry ∧ (c.WF → c'.WF) := by
  induction blocks generalizing c with
  | nil => exact ⟨fun i => by simp, fun _ => rfl, rfl, id⟩
  | cons b blocks ih =>
    obtain ⟨hout, hrest⟩ := nodup_cons.mp hnodup
    obtain ⟨hblock, hedge, hentry, hwf⟩ := ih hrest (c.modifyBlock b (f b))
    refine ⟨fun i => ?_, hedge, hentry, fun h => hwf (h.modifyBlock b (f b))⟩
    rw [foldl_cons, hblock, Cfg.block_modifyBlock]
    by_cases hib : i = b
    · subst hib
      simp [hout]
    · simp [hib]

theorem block_removeInstructions (c : Cfg ι π) (points : List (Nat × Nat)) (b : Nat) :
    (removeInstructions c points).block b = (c.block b).map fun block =>
      { block with instructions := keptEntries (survives points b) block.instructions } := by
  rw [removeInstructions, (foldl_modifyBlock _ (nodup_dedup _) c).1]
  split
  · rfl
  · next hb =>
    have hall : ∀ i, survives points b i = true := by
      intro i
      by_contra hno
      refine hb (mem_dedup.mpr (mem_map.mpr ⟨(b, i), ?_, rfl⟩))
      simpa [survives] using hno
    simp only [keptEntries_all hall]
    exact Option.map_id'.symm ▸ rfl

theorem edge_removeInstructions (c : Cfg ι π) (points : List (Nat × Nat)) (e : Nat) :
    (removeInstructions c points).edge e = c.edge e :=
  (foldl_modifyBlock _ (nodup_dedup _) c).2.1 e

theorem entry_removeInstructions (c : Cfg ι π) (points : List (Nat × Nat)) :
    (removeInstructions c points).entry = c.entry :=
  (foldl_modifyBlock _ (nodup_dedup _) c).2.2.1

theorem wf_removeInstructions (hc : c.WF) (points : List (Nat × Nat)) :
    (removeInstructions c points).WF :=
  (foldl_modifyBlock _ (nodup_dedup _) c).2.2.2 hc

theorem code_removeInstructions (points : List (Nat × Nat)) (b : Nat) :
    ((removeInstructions c points).dataFlow I).code b =
      ((c.dataFlow I).code b).map (keptEntries (survives points b)) := by
  simp only [Cfg.dataFlow, block_removeInstructions, Option.map_map]
  rfl

theorem departsBeforeThrows_removeInstructions
    (hthrows : ∀ b l i a, (c.dataFlow I).code b = some l → l[i]? = some a → I.mayUnwind a = true →
      survives points b i = true) (r : Store.EdgeRecord (Edge π)) :
    (removeInstructions c points).departsBeforeThrows I r = c.departsBeforeThrows I r := by
  unfold Cfg.departsBeforeThrows
  congr 1
  unfold Cfg.instructions
  rw [show (removeInstructions c points).flow.code r.source =
    (c.flow.code r.source).map (keptEntries (survives points r.source)) from
      code_removeInstructions (I := I) points r.source]
  cases hcode : c.flow.code r.source with
  | none => rfl
  | some l =>
    simp only [Option.map_some, Option.getD_some]
    rw [Bool.eq_iff_iff, any_eq_true, any_eq_true]
    constructor
    · rintro ⟨a, ha, ht⟩
      obtain ⟨k, hk⟩ := getElem?_of_mem ha
      obtain ⟨i, hi, _⟩ := getElem?_keptEntries.mp hk
      exact ⟨a, mem_of_getElem? hi, ht⟩
    · rintro ⟨a, ha, ht⟩
      obtain ⟨i, hi⟩ := getElem?_of_mem ha
      have hk := hthrows _ l i a hcode hi ht
      exact ⟨a, mem_of_getElem? (getElem?_keptEntries.mpr ⟨i, hi, hk, rfl⟩), ht⟩

/-! ## Elimination is exact -/

section Exact

variable {J : EffectInfo ι ν ε} {liveOut : Nat → List ν}
  {observed : Nat → Nat → ι → Bool} {dead : DeadCode}

/-- The predicate of observed instructions after the removal of `points`: an
instruction is at the rank of where it was. -/
def observedAfter (c : Cfg ι π) (points : List (Nat × Nat)) (observed : Nat → Nat → ι → Bool)
    (block index : Nat) (instruction : ι) : Bool :=
  match (select (survives points block) (c.instructions block).length)[index]? with
  | some old => observed block old instruction
  | none => false

theorem prunes_removeInstructions
    (hspec : ∀ p, p ∈ dead.instructions ↔ ∃ a, (c.dataFlow J.toInstrInfo).At p a ∧
      ¬ Essential J.toInstrInfo c (isForced J observed) p.1 p.2 ∧ ∀ w ∈ J.defs a,
        ¬ Wanted J.toInstrInfo c liveOut (isForced J observed) p.1 (p.2 + 1) w) :
    Flow.Prunes (c.dataFlow J.toInstrInfo) J.access liveOut
      (Essential J.toInstrInfo c (isForced J observed)) (survives dead.instructions)
      ((removeInstructions c dead.instructions).dataFlow J.toInstrInfo) := by
  have hkeep : ∀ b l i a, (c.dataFlow J.toInstrInfo).code b = some l → l[i]? = some a →
      (survives dead.instructions b i = true ↔
        Essential J.toInstrInfo c (isForced J observed) b i ∨ ∃ w ∈ J.defs a,
          Wanted J.toInstrInfo c liveOut (isForced J observed) b (i + 1) w) := by
    intro b l i a hcode ha
    have hmem : survives dead.instructions b i = true ↔ (b, i) ∉ dead.instructions := by
      simp [survives]
    rw [hmem, hspec]
    constructor
    · intro hno
      by_contra hc
      simp only [not_or, not_exists, not_and] at hc
      exact hno ⟨a, ⟨l, hcode, ha⟩, hc.1, hc.2⟩
    · rintro hyes ⟨a', ⟨l', hl', ha'⟩, hess, hno⟩
      obtain rfl := Option.some.inj (hcode.symm.trans hl')
      obtain rfl := Option.some.inj (ha.symm.trans ha')
      rcases hyes with h | ⟨w, hw, h⟩
      · exact hess h
      · exact hno w hw h
  have hthrows : ∀ b l i a, (c.dataFlow J.toInstrInfo).code b = some l → l[i]? = some a →
      J.mayUnwind a = true → Essential J.toInstrInfo c (isForced J observed) b i :=
    fun b l i a hcode ha ht => ⟨a, ⟨l, hcode, ha⟩, Or.inl (mayUnwind_isForced J observed b i a ht)⟩
  have hdeparts : ∀ r, (removeInstructions c dead.instructions).departsBeforeThrows J.toInstrInfo r =
      c.departsBeforeThrows J.toInstrInfo r :=
    departsBeforeThrows_removeInstructions fun b l i a hcode ha ht =>
      (hkeep b l i a hcode ha).mpr (Or.inl (hthrows b l i a hcode ha ht))
  exact {
    keep_iff := hkeep
    throws_stays := hthrows
    code := code_removeInstructions dead.instructions
    normal := by
      intro b t
      simp only [Cfg.dataFlow, edge_removeInstructions, hdeparts]
    unwind := by
      intro b t
      simp only [Cfg.dataFlow, edge_removeInstructions, hdeparts] }

theorem essential_removeInstructions (h : Flow.Prunes (c.dataFlow J.toInstrInfo) J.access liveOut
      (Essential J.toInstrInfo c (isForced J observed)) (survives points)
      ((removeInstructions c points).dataFlow J.toInstrInfo))
    {a : ι} (hcode : (c.dataFlow J.toInstrInfo).code b = some l) (ha : l[i]? = some a)
    (hess : Essential J.toInstrInfo c (isForced J observed) b i) :
    Essential J.toInstrInfo (removeInstructions c points)
      (isForced J (observedAfter c points observed)) b (rank (survives points b) i) := by
  have hk := h.of_stays hcode ha hess
  obtain ⟨a', ⟨l', hl', ha'⟩, hforced⟩ := hess
  obtain rfl := Option.some.inj (hcode.symm.trans hl')
  obtain rfl := Option.some.inj (ha.symm.trans ha')
  refine ⟨a, ⟨_, h.code_some hcode, getElem?_keptEntries.mpr ⟨i, ha, hk, rfl⟩⟩, ?_⟩
  refine hforced.imp_left fun hf => ?_
  have hlt := (List.getElem?_eq_some_iff.mp ha).1
  have hl := (Cfg.instructions_of_code hcode).2
  have hselect : (select (survives points b) (c.instructions b).length)[rank (survives points b) i]?
      = some i := getElem?_select_rank (hl ▸ hlt) hk
  simpa only [isForced, observedAfter, hselect] using hf

variable [DecidableEq ν]

theorem computeWithRoots_again (hc : c.WF)
    (hdead : computeWithRoots J c liveOut observed = some dead) :
    ∃ dead', computeWithRoots J (removeInstructions c dead.instructions) liveOut
      (observedAfter c dead.instructions observed) = some dead' ∧ dead'.instructions = [] := by
  obtain ⟨dead₁, hdead₁, hspec⟩ := computeWithRoots_spec J hc liveOut observed
  obtain rfl := Option.some.inj (hdead.symm.trans hdead₁)
  obtain ⟨dead', hdead', hspec'⟩ := computeWithRoots_spec J
    (wf_removeInstructions hc dead.instructions) liveOut (observedAfter c dead.instructions observed)
  have hprunes := prunes_removeInstructions hspec
  have hprunes' := prunes_removeInstructions hspec'
  refine ⟨dead', hdead', eq_nil_iff_forall_not_mem.mpr fun p hp => ?_⟩
  obtain ⟨a, ⟨l, hcode, ha⟩, _⟩ := (hspec' p).mp hp
  have hkept := hprunes.again hprunes'
    (fun b l i a hcode ha hess => essential_removeInstructions hprunes hcode ha hess) hcode ha
  simp [survives, hp] at hkept

theorem observedAfter_false (c : Cfg ι π) (points : List (Nat × Nat)) :
    observedAfter c points (fun _ _ _ => false) = fun _ _ _ => false := by
  funext b i a
  unfold observedAfter
  split
  · rfl
  · rfl

theorem deadCodeEliminationWithExits_again (J : EffectInfo ι ν ε) (hc : c.WF)
    (liveOut : Nat → List ν) : ∃ n c', deadCodeEliminationWithExits J c liveOut = some (n, c') ∧
      deadCodeEliminationWithExits J c' liveOut = some (0, c') := by
  obtain ⟨dead, hdead, _⟩ := computeWithRoots_spec J hc liveOut fun _ _ _ => false
  obtain ⟨dead', hdead', hnil⟩ := computeWithRoots_again hc hdead
  rw [observedAfter_false] at hdead'
  refine ⟨_, _, congrArg (Option.map _) hdead, (congrArg (Option.map _) hdead').trans ?_⟩
  simp [hnil, removeInstructions]

end Exact

def readWrite : EffectInfo (List Nat × List Nat) Nat Unit :=
  ⟨⟨Prod.fst, Prod.snd, fun _ => false⟩, fun _ => []⟩

/-- A loop that updates variable 1 from itself, around a read of variable 0. -/
def countingLoop : Cfg (List Nat × List Nat) Unit :=
  Cfg.ofParts [[([], [0]), ([], [1])], [([1], [1])], [([0], [])]]
    [(0, 1, .fallthrough, ()), (1, 1, .back, ()), (1, 2, .fallthrough, ())]

theorem wf_countingLoop : countingLoop.WF := Cfg.wf_ofParts rfl

/-- The update and what starts it are dead. -/
example : (compute readWrite countingLoop).map (·.instructions) = some [(0, 1), (1, 0)] := rfl

end CfgLib.Transform

import CfgLib.Analysis.PredicatedSound
import Mathlib.Data.List.Chain

/-!
# The condition is exact

A machine that counts down at every write of one variable tells a leaf that writes its
guard from the region made of it.
-/

namespace CfgLib

open List

variable {ι ν π σ : Type}

/-! ## What runs -/

section Exact

theorem mem_effects_runCode {P : Predicated ι ν} {M : Machine P σ} {block : Nat} {inside : Bool}
    (l : List (Nat × ι)) : ∀ (ran : Bool) (s : σ), ∀ effect ∈ (M.runCode block inside l ran s).1.effects,
      effect.1.instIdx ∈ l.map Prod.fst := by
  induction l with
  | nil =>
    intro ran s effect h
    exact absurd h not_mem_nil
  | cons entry rest ih =>
    intro ran s effect h
    rw [runCode_cons] at h
    rw [map_cons]
    split at h
    · split at h
      · rcases mem_cons.mp h with rfl | h
        · exact mem_cons_self
        · exact mem_cons_of_mem _ (ih _ _ effect h)
      · rw [mem_singleton.mp h]
        exact mem_cons_self
    · exact mem_cons_of_mem _ (ih _ _ effect h)

/-! ## A countdown -/

variable [DecidableEq ν] (P : Predicated ι ν) (v : ν) (whenTrue : Bool)

/-- A machine that counts down with every write of `v`; at zero its guard fails. -/
def countdown : Machine P Nat where
  test x n := if x = v then decide (0 < n) == whenTrue else true
  run a n := .ok (if v ∈ P.defs a then n - 1 else n)
  takesTrue _ _ := true
  selects _ _ := 0
  catches _ _ := true
  frame := by
    intro a n n' x hrun hx
    cases hrun
    by_cases hv : x = v
    · subst hv
      rw [if_neg hx]
    · simp [hv]

theorem test_countdown (n : Nat) : (countdown P v whenTrue).test v n = whenTrue ↔ 0 < n := by
  change (if v = v then decide (0 < n) == whenTrue else true) = whenTrue ↔ _
  rw [if_pos rfl]
  cases whenTrue <;> simp

variable {P v whenTrue} {c : Cfg ι π} {block fuel : Nat}

/-- From a number that is large enough the countdown stays positive; how much it loses
does not depend on the number. -/
theorem runCode_countdown (l : List (Nat × ι)) : ∃ loss, ∀ (m : Nat) (ran : Bool),
    ((countdown P v whenTrue).runCode block false l ran (loss + m + 1)).1.store = m + 1 ∧
      ((countdown P v whenTrue).runCode block false l ran (loss + m + 1)).1.outcome = .normal := by
  induction l with
  | nil => exact ⟨0, fun m ran => ⟨by simp [Machine.runCode, Execution.skip], rfl⟩⟩
  | cons entry rest ih =>
    obtain ⟨loss, hloss⟩ := ih
    -- while the count is positive the tests do not depend on it
    have hexec : ∀ m n, (countdown P v whenTrue).executes false entry.2 (m + 1) =
        (countdown P v whenTrue).executes false entry.2 (n + 1) := by
      intro m n
      unfold Machine.executes countdown
      simp
    by_cases hruns : (countdown P v whenTrue).executes false entry.2 (0 + 1) = true
    · refine ⟨if v ∈ P.defs entry.2 then loss + 1 else loss, fun m ran => ?_⟩
      have hrun : (countdown P v whenTrue).run entry.2 ((if v ∈ P.defs entry.2 then loss + 1 else loss) + m + 1) =
          .ok (loss + m + 1) := by
        unfold countdown
        dsimp only
        split
        · rw [show loss + 1 + m + 1 - 1 = loss + m + 1 by omega]
        · rfl
      rw [runCode_cons, if_pos ((hexec _ 0).trans hruns), hrun]
      exact hloss m true
    · refine ⟨loss, fun m ran => ?_⟩
      rw [runCode_cons, if_neg fun h => hruns ((hexec 0 _).trans h)]
      exact hloss m false

theorem runCode_inside_countdown (l : List (Nat × ι)) : ∀ (ran : Bool) (n : Nat),
    ((countdown P v whenTrue).runCode block true l ran n).1.effects.map (fun effect => effect.1.instIdx) =
      l.map Prod.fst := by
  induction l with
  | nil => exact fun _ _ => rfl
  | cons entry rest ih =>
    intro ran n
    rw [runCode_cons, if_pos (by rfl)]
    exact congrArg (entry.1 :: ·) (ih true _)

omit [DecidableEq ν] in
theorem nodup_instructions (span : BlockSpan) : ((span.instructions c).map Prod.fst).Nodup := by
  have hsub : ((span.instructions c).map Prod.fst).Sublist (List.range' span.start (span.stop - span.start)) := by
    unfold BlockSpan.instructions
    rw [map_filterMap]
    have hsome : ∀ l : List Nat, (l.filterMap fun i =>
        (((c.instructions span.block)[i]?).map fun a => (i, a)).map Prod.fst).Sublist l := by
      intro l
      induction l with
      | nil => exact List.Sublist.refl _
      | cons i l ih =>
        cases hi : (c.instructions span.block)[i]? with
        | none => simpa [filterMap_cons, hi] using ih.cons i
        | some a => simpa [filterMap_cons, hi] using ih.cons_cons i
    exact hsome _
  exact hsub.nodup nodup_range'

omit [DecidableEq ν] in
theorem CutInto.keepsGuards {code : List (Nat × ι)} {runs : List (PredicateRun ν)} (h : CutInto P c block code runs)
    (hkept : ∀ run ∈ runs, run.Kept P c) : KeepsGuards P code := by
  obtain ⟨rfl, hsound, hapart⟩ := h
  induction runs with
  | nil => exact .nil
  | cons run runs ih =>
    have hrun := hsound run mem_cons_self
    have hrest := ih (fun r hr => hkept r (mem_cons_of_mem _ hr))
      (fun r hr => hsound r (mem_cons_of_mem _ hr)) hapart.tail
    rw [flatMap_cons, KeepsGuards, isChain_append]
    refine ⟨?_, hrest, fun a ha b hb => ?_⟩
    · rw [isChain_iff_forall_rel_of_append_cons_cons]
      rintro a b before after hcode ⟨v, whenTrue, hpred, _, hv⟩
      have hsame := hrun.same a (by rw [hcode]; simp)
      exact hkept run mem_cons_self v whenTrue (hsame.symm.trans hpred) before a b after hcode hv
    · -- the next run begins with another predicate
      rintro ⟨v, whenTrue, hpred, hpred', _⟩
      have hsame := hrun.same a (mem_of_getLast? ha)
      cases runs with
      | nil => cases hb
      | cons next later =>
        obtain ⟨x, rest, hfirst, _⟩ := (hsound next (by simp)).first
        have hx := (hsound next (by simp)).same (next.span.start, x) (by rw [hfirst]; simp)
        rw [flatMap_cons, hfirst] at hb
        cases hb
        exact (isChain_cons_cons.mp hapart).1 (hsame.symm.trans (hpred.trans (hpred'.symm.trans hx)))

omit [DecidableEq ν] in
theorem exists_first_not_kept {runs : List (PredicateRun ν)} (h : ¬ ∀ run ∈ runs, run.Kept P c) :
    ∃ init run rest, runs = init ++ run :: rest ∧ (∀ r ∈ init, r.Kept P c) ∧ ¬ run.Kept P c := by
  induction runs with
  | nil => exact absurd (fun _ h => absurd h not_mem_nil) h
  | cons run runs ih =>
    by_cases hrun : run.Kept P c
    · obtain ⟨init, next, rest, rfl, hinit, hnext⟩ := ih fun hall => h fun r hr => by
        rcases mem_cons.mp hr with rfl | hr
        · exact hrun
        · exact hall r hr
      refine ⟨run :: init, next, rest, rfl, fun r hr => ?_, hnext⟩
      rcases mem_cons.mp hr with rfl | hr
      · exact hrun
      · exact hinit r hr
    · exact ⟨[], run, runs, rfl, fun _ h => absurd h not_mem_nil, hrun⟩

omit [DecidableEq ν] in
theorem runTree_of_not_hasLabel {M : Machine P σ} {root : ControlNode} (h : ∀ target, root.hasLabel target = false)
    (s : σ) : M.runTree c root (fuel + 1) none s = M.runNode c false fuel root none s := by
  unfold Machine.runTree
  dsimp only
  split
  · next target _ =>
    rw [if_neg (by simp [h target])]
  · rfl

theorem mem_effects_andThen_left {e : Execution σ} (next : σ → Execution σ) {effect : ProgramPoint × σ}
    (h : effect ∈ e.effects) : effect ∈ (e.andThen next).effects := by
  unfold Execution.andThen
  split
  · exact mem_append_left _ h
  · exact h

theorem mem_effects_andThen_right {e : Execution σ} {next : σ → Execution σ} {effect : ProgramPoint × σ}
    (hnormal : e.outcome = .normal) (h : effect ∈ (next e.store).effects) : effect ∈ (e.andThen next).effects := by
  unfold Execution.andThen
  rw [if_pos hnormal]
  exact mem_append_right _ h

/-- Tested on its own an instruction does not run once the count is at zero. -/
theorem not_mem_effects_countdown (block loss : Nat) {pre tail : List (Nat × ι)} {a b : Nat × ι}
    (hloss : ∀ ran, ((countdown P v whenTrue).runCode block false pre ran (loss + 1)).1.store = 1)
    (ha : P.predicate a.2 = some (v, whenTrue)) (hb : P.predicate b.2 = some (v, whenTrue)) (hv : v ∈ P.defs a.2)
    (hnodup : ((pre ++ a :: b :: tail).map Prod.fst).Nodup) (ran : Bool) :
    ∀ effect ∈ ((countdown P v whenTrue).runCode block false (pre ++ a :: b :: tail) ran (loss + 1)).1.effects,
      effect.1.instIdx ≠ b.1 := by
  intro effect heffect hidx
  rw [map_append, map_cons, map_cons, nodup_append] at hnodup
  obtain ⟨_, hrest, hdisjoint⟩ := hnodup
  obtain ⟨hab, hbt⟩ := nodup_cons.mp hrest
  rw [runCode_append] at heffect
  unfold Execution.andThen at heffect
  split at heffect
  · rcases mem_append.mp heffect with heffect | heffect
    · exact hdisjoint _ (mem_effects_runCode _ _ _ effect heffect) b.1 (by simp) hidx
    · rw [hloss] at heffect
      have hexecA : (countdown P v whenTrue).executes false a.2 1 = true := by
        have htest := (test_countdown P v whenTrue 1).mpr Nat.one_pos
        simp [Machine.executes, ha, htest]
      have hexecB : (countdown P v whenTrue).executes false b.2 0 = false := by
        have htest : (countdown P v whenTrue).test v 0 ≠ whenTrue := fun h =>
          absurd ((test_countdown P v whenTrue 0).mp h) (Nat.lt_irrefl 0)
        simp [Machine.executes, hb, htest]
      have hrun : (countdown P v whenTrue).run a.2 1 = .ok 0 := by
        unfold countdown
        simp [hv]
      dsimp only at heffect
      rw [runCode_cons, if_pos hexecA, hrun] at heffect
      rcases mem_cons.mp heffect with rfl | heffect
      · exact hab (hidx ▸ mem_cons_self)
      · rw [runCode_cons, if_neg (by simp [hexecB])] at heffect
        exact (nodup_cons.mp hbt).1 (hidx ▸ mem_effects_runCode _ _ _ effect heffect)
  · exact hdisjoint _ (mem_effects_runCode _ _ _ effect heffect) b.1 (by simp) hidx

theorem mem_effects_region (fuel : Nat) {run : PredicateRun ν} (hsound : run.Sound P c block)
    (hpred : run.predicate = some (v, whenTrue)) {b : Nat × ι} (hb : b ∈ run.span.instructions c) {n : Nat}
    (hn : 0 < n) : ∃ effect ∈ ((countdown P v whenTrue).runNode c false fuel (blockSegment run) none n).effects,
      effect.1.instIdx = b.1 := by
  have hholds : (countdown P v whenTrue).guardHolds c ⟨run.span.block, run.span.start⟩ whenTrue n = true := by
    rw [guardHolds_of_run hsound hpred]
    exact decide_eq_true ((test_countdown P v whenTrue n).mpr hn)
  have hsegment : (countdown P v whenTrue).runNode c false fuel (blockSegment run) none n =
      ((countdown P v whenTrue).runSpan c true run.span n).1 := by
    unfold blockSegment guardSegment
    rw [hpred]
    change (if (countdown P v whenTrue).guardHolds c ⟨run.span.block, run.span.start⟩ whenTrue n then
      ((countdown P v whenTrue).runNode c true fuel (.block run.span) none n).andThen fun s => .skip s else .skip n) = _
    rw [if_pos hholds, Machine.runNode]
    exact Execution.andThen_skip_right _
  rw [hsegment]
  have hmem : b.1 ∈ ((countdown P v whenTrue).runSpan c true run.span n).1.effects.map
      fun effect => effect.1.instIdx := by
    unfold Machine.runSpan
    rw [runCode_inside_countdown]
    exact mem_map_of_mem hb
  obtain ⟨effect, heffect, hidx⟩ := mem_map.mp hmem
  exact ⟨effect, heffect, hidx⟩

/-- On a leaf the rewrite is right for every machine exactly when the leaf keeps its
guards. -/
theorem computePredicated_block_iff (span : BlockSpan) : (∀ (M : Machine P Nat) (fuel n : Nat),
      M.runTree c (computePredicated P c (.block span)) fuel none n = M.runTree c (.block span) fuel none n) ↔
      KeepsGuards P (span.instructions c) := by
  have hcut := cutInto_predicateRuns (P := P) (c := c) span
  refine ⟨fun hall => ?_, fun hkeeps M fuel n => ?_⟩
  · by_contra hbroken
    obtain ⟨init, run, rest, hruns, hinit, hnot⟩ :=
      exists_first_not_kept fun hkept => hbroken (hcut.keepsGuards hkept)
    unfold PredicateRun.Kept at hnot
    push Not at hnot
    obtain ⟨v, whenTrue, hpred, before, a, b, after, hcode, hv⟩ := hnot
    rw [hruns] at hcut
    have hsound := hcut.sound run (by simp)
    have hsame := hsound.same
    rw [hcode, hpred] at hsame
    -- from this number the count is one at the instruction that writes the guard
    obtain ⟨lossInit, hlossInit⟩ := @runCode_countdown ι ν _ P v whenTrue span.block
      (init.flatMap fun run => run.span.instructions c)
    obtain ⟨lossBefore, hlossBefore⟩ := @runCode_countdown ι ν _ P v whenTrue span.block before
    have hspan : span.instructions c = ((init.flatMap fun run => run.span.instructions c) ++ before) ++
        a :: b :: (after ++ rest.flatMap fun run => run.span.instructions c) := by
      rw [← hcut.flat, flatMap_append, flatMap_cons, hcode]
      simp
    have hnolabel : ∀ target, (computePredicated P c (.block span)).hasLabel target = false := fun target =>
      (hasLabel_finishRoot _ target).trans (hasLabel_wrapBlockRuns span target)
    have heq := hall (countdown P v whenTrue) 1 (lossInit + lossBefore + 1)
    rw [runTree_of_not_hasLabel hnolabel, runTree_of_not_hasLabel fun _ => rfl, computePredicated,
      runNode_finishRoot _ none _ (enters_none _), wrapNode, wrapBlockRuns, runNode_sequenceOrSingle, hruns,
      map_append, runBody_segments _ _ (fun r hr => hcut.sound r (mem_append_left _ hr)) hinit,
      Machine.runNode, Machine.runSpan] at heq
    have hstart := hlossInit lossBefore true
    obtain ⟨effect, heffect, hidx⟩ := mem_effects_region 0 hsound hpred
      (by rw [hcode]; simp : b ∈ run.span.instructions c) (Nat.succ_pos lossBefore)
    refine not_mem_effects_countdown span.block (lossInit + lossBefore) (fun ran => ?_)
      (hsame a (by simp)) (hsame b (by simp)) hv (hspan ▸ nodup_instructions span) true effect ?_ hidx
    · rw [runCode_append]
      unfold Execution.andThen
      rw [if_pos (hlossInit lossBefore ran).2, (hlossInit lossBefore ran).1]
      exact (hlossBefore 0 true).1
    · rw [← hspan, ← heq]
      refine mem_effects_andThen_right hstart.2 ?_
      rw [hstart.1, map_cons, ControlBody.ofList, Machine.runBody]
      exact mem_effects_andThen_left _ heffect
  · refine runTree_computePredicated ?_ ?_ M fuel n
    · rw [ControlNode.Plain]
      trivial
    · rw [ControlNode.KeepsGuards]
      exact hkeeps

/-- Regionizing changes no execution of a tree that keeps its guards, and those of a leaf
only when the leaf keeps them. -/
theorem computePredicated_exact (P : Predicated ι ν) (c : Cfg ι π) :
    (∀ tree : ControlNode, tree.Plain c → tree.KeepsGuards P c → ∀ (σ : Type) (M : Machine P σ) (fuel : Nat) (s : σ),
      M.runTree c (computePredicated P c tree) fuel none s = M.runTree c tree fuel none s) ∧
      ∀ span : BlockSpan, (∀ (M : Machine P Nat) (fuel n : Nat),
        M.runTree c (computePredicated P c (.block span)) fuel none n = M.runTree c (.block span) fuel none n) ↔
          KeepsGuards P (span.instructions c) :=
  ⟨fun _ hplain hkeeps _ M fuel s => runTree_computePredicated hplain hkeeps M fuel s, computePredicated_block_iff⟩

end Exact

/-! ## Guarded assignments -/

/-- An assignment of a truth value, under a guard or not. -/
structure Assign where
  target : Nat
  value : Bool
  guard : Option (Nat × Bool)

def assignInfo : Predicated Assign Nat where
  uses a := a.guard.toList.map Prod.fst
  defs a := [a.target]
  mayUnwind _ := false
  predicate a := a.guard

/-- Truth values in variables; every branch reads variable 0. -/
def assignMachine : Machine assignInfo (Nat → Bool) where
  test v s := s v
  run a s := .ok (Function.update s a.target a.value)
  takesTrue _ s := s 0
  selects _ _ := 0
  catches _ _ := true
  frame := by
    intro a s s' v hrun hv
    cases hrun
    exact Function.update_of_ne (fun h => hv (mem_singleton.mpr h)) _ _

/-- A branch whose header sets variable 1 and selects variable 2 by it, and a return under
a guard. -/
def selectGraph : Cfg Assign Unit :=
  Cfg.ofParts
    [[⟨1, true, none⟩, ⟨2, true, some (1, true)⟩, ⟨2, false, some (1, false)⟩, ⟨3, true, none⟩], [⟨4, true, none⟩],
      [⟨5, true, none⟩, ⟨6, true, some (2, true)⟩]]
    [(0, 1, .conditionalTrue, ()), (0, 2, .conditionalFalse, ()), (1, 2, .fallthrough, ())]

def selectTree : ControlNode :=
  .sequence (.ofList [.ifThenElse ⟨0, 0, 4⟩ (.ofList [.block ⟨1, 0, 1⟩]) .nil, .return ⟨2, 0, 2⟩])

theorem computePredicated_exact_selectTree :
    assignMachine.runTree selectGraph (computePredicated assignInfo selectGraph selectTree) 2 none (fun _ => true) =
      assignMachine.runTree selectGraph selectTree 2 none fun _ => true := by
  have hheader : KeepsGuards assignInfo (BlockSpan.instructions selectGraph ⟨0, 0, 4⟩) := by
    change KeepsGuards assignInfo [(0, ⟨1, true, none⟩), (1, ⟨2, true, some (1, true)⟩),
      (2, ⟨2, false, some (1, false)⟩), (3, ⟨3, true, none⟩)]
    simp [KeepsGuards, WritesGuard, assignInfo]
  have hreturn : KeepsGuards assignInfo (BlockSpan.instructions selectGraph ⟨2, 0, 2⟩) := by
    change KeepsGuards assignInfo [(0, ⟨5, true, none⟩), (1, ⟨6, true, some (2, true)⟩)]
    simp [KeepsGuards, WritesGuard, assignInfo]
  refine (computePredicated_exact assignInfo selectGraph).1 selectTree ?_ ?_ _ assignMachine 2 fun _ => true
  · simp [selectTree, ControlBody.ofList, ControlNode.Plain, ControlBody.Plain, BlockSpan.instructions]
    decide
  · simp only [selectTree, ControlBody.ofList, ControlNode.KeepsGuards, ControlBody.KeepsGuards, and_true]
    exact ⟨⟨hheader.header, isChain_singleton _⟩, hreturn⟩

/-- A run whose first instruction clears the guard of the second. -/
def clearingGraph : Cfg Assign Unit := Cfg.ofParts [[⟨0, false, some (0, true)⟩, ⟨1, true, some (0, true)⟩]] []

/-- The graph has one block and no edge, so its tree is the return of that block. -/
def clearingTree : ControlNode := .return ⟨0, 0, 2⟩

/-- Tested on its own the second instruction does not run; in the region it does. -/
theorem computePredicated_clearingTree : clearingTree.Plain clearingGraph ∧
    ((assignMachine.runTree clearingGraph clearingTree 1 none fun _ => true).effects.map Prod.fst) = [⟨0, 0⟩] ∧
    (assignMachine.runTree clearingGraph (computePredicated assignInfo clearingGraph clearingTree) 1 none
      fun _ => true).effects.map Prod.fst = [⟨0, 0⟩, ⟨0, 1⟩] := by
  refine ⟨?_, rfl, rfl⟩
  rw [clearingTree, ControlNode.Plain]
  exact cons_ne_nil _ _

end CfgLib

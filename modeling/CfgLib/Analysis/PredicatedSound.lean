import CfgLib.Analysis.Predicated

/-!
# Predicated regions run alike

The runs of a span are its code cut into stretches of one predicate.  Where no
instruction writes the guard of the next one in its run, testing the guard once before
the run is testing it before every instruction.
-/

namespace CfgLib

open List

variable {ι ν π σ : Type}

/-! ## Code -/

section Code

variable {P : Predicated ι ν} {M : Machine P σ} {block : Nat} {inside : Bool}

theorem runCode_fst (l : List (Nat × ι)) (ran ran' : Bool) (s : σ) :
    (M.runCode block inside l ran s).1 = (M.runCode block inside l ran' s).1 := by
  cases l with
  | nil => rfl
  | cons entry rest => rfl

theorem runCode_cons (entry : Nat × ι) (rest : List (Nat × ι)) (ran : Bool) (s : σ) :
    M.runCode block inside (entry :: rest) ran s =
      if M.executes inside entry.2 s then
        match M.run entry.2 s with
        | .ok s' => ((M.runCode block inside rest true s').1.prepend (⟨block, entry.1⟩, s),
            (M.runCode block inside rest true s').2)
        | .error s' => (⟨s', [(⟨block, entry.1⟩, s)], .raised⟩, true)
      else M.runCode block inside rest false s := rfl

theorem runCode_append (l l' : List (Nat × ι)) : ∀ (ran : Bool) (s : σ),
    (M.runCode block inside (l ++ l') ran s).1 =
      (M.runCode block inside l ran s).1.andThen fun s => (M.runCode block inside l' true s).1 := by
  induction l with
  | nil => exact fun ran s => runCode_fst l' ran true s
  | cons entry rest ih =>
    intro ran s
    rw [cons_append, runCode_cons, runCode_cons]
    split
    · split
      · rw [Execution.andThen_prepend, ih]
      · rfl
    · exact ih false s

theorem returning_prepend (effect : ProgramPoint × σ) (code : Execution σ × Bool) :
    Execution.returning (code.1.prepend effect, code.2) = (Execution.returning code).prepend effect := by
  unfold Execution.returning
  change (if code.2 = true ∧ code.1.outcome = .normal then _ else _) = _
  split <;> rfl

theorem returning_append (l l' : List (Nat × ι)) (hl : l' ≠ []) : ∀ (ran : Bool) (s : σ),
    Execution.returning (M.runCode block inside (l ++ l') ran s) =
      (M.runCode block inside l ran s).1.andThen fun s => .returning (M.runCode block inside l' true s) := by
  induction l with
  | nil =>
    intro ran s
    obtain ⟨entry, rest, rfl⟩ := exists_cons_of_ne_nil hl
    rfl
  | cons entry rest ih =>
    intro ran s
    rw [cons_append, runCode_cons, runCode_cons]
    split
    · split
      · rw [Execution.andThen_prepend, ← ih, ← returning_prepend]
      · rfl
    · exact ih false s

/-- Under one predicate whose variable is kept, the test before the first instruction
decides for all of them. -/
theorem runCode_of_predicate {v : ν} {whenTrue : Bool} {l : List (Nat × ι)} (hne : l ≠ [])
    (hl : ∀ entry ∈ l, P.predicate entry.2 = some (v, whenTrue))
    (hkeeps : ∀ before a b after, l = before ++ a :: b :: after → v ∉ P.defs a.2) : ∀ (ran : Bool) (s : σ),
    M.runCode block false l ran s =
      if M.test v s = whenTrue then M.runCode block true l ran s else (.skip s, false) := by
  induction l with
  | nil => exact absurd rfl hne
  | cons entry rest ih =>
    intro ran s
    have hexec : M.executes false entry.2 s = true ↔ M.test v s = whenTrue := by
      simp [Machine.executes, hl entry mem_cons_self]
    have hrest : ∀ (ran : Bool) (s : σ), rest ≠ [] → M.runCode block false rest ran s =
        if M.test v s = whenTrue then M.runCode block true rest ran s else (.skip s, false) :=
      fun ran s hne => ih hne (fun e he => hl e (mem_cons_of_mem _ he))
        (fun before a b after h => hkeeps (entry :: before) a b after (by rw [h]; rfl)) ran s
    rw [runCode_cons]
    by_cases htest : M.test v s = whenTrue
    · rw [if_pos (hexec.mpr htest), if_pos htest, runCode_cons, if_pos (by rfl)]
      split
      · next s' hrun =>
        by_cases hnil : rest = []
        · subst hnil
          rfl
        · -- the next instruction finds the variable as this one found it
          obtain ⟨next, after, rfl⟩ := exists_cons_of_ne_nil hnil
          have hkept := M.frame entry.2 s s' v hrun (hkeeps [] entry next after rfl)
          rw [hrest true s' hnil, if_pos (hkept.trans htest)]
      · rfl
    · rw [if_neg fun h => htest (hexec.mp h), if_neg htest]
      by_cases hnil : rest = []
      · subst hnil
        rfl
      · rw [hrest false s hnil, if_neg htest]

end Code

/-! ## Runs -/

section Runs

variable [DecidableEq ν] {P : Predicated ι ν} {c : Cfg ι π} {block : Nat}

theorem instructions_of_le (span : BlockSpan) : span.instructions c =
    BlockSpan.instructions c ⟨span.block, span.start, span.start + (span.stop - span.start)⟩ := by
  unfold BlockSpan.instructions
  rw [Nat.add_sub_cancel_left]

theorem instructions_succ {start stop : Nat} (h : start ≤ stop) :
    BlockSpan.instructions c ⟨block, start, stop + 1⟩ = BlockSpan.instructions c ⟨block, start, stop⟩ ++
      (((c.instructions block)[stop]?).map fun a => (stop, a)).toList := by
  unfold BlockSpan.instructions
  dsimp only
  rw [Nat.succ_sub h, range'_1_concat, filterMap_append]
  congr 1
  rw [Nat.add_sub_cancel' h]
  cases ha : (c.instructions block)[stop]? with
  | none => simp [ha]
  | some a => simp [ha]

structure PredicateRun.Sound (P : Predicated ι ν) (c : Cfg ι π) (block : Nat) (run : PredicateRun ν) : Prop where
  block_eq : run.span.block = block
  le : run.span.start ≤ run.span.stop
  first : ∃ a rest, run.span.instructions c = (run.span.start, a) :: rest ∧
    (c.instructions block)[run.span.start]? = some a
  same : ∀ entry ∈ run.span.instructions c, P.predicate entry.2 = run.predicate

structure CutInto (P : Predicated ι ν) (c : Cfg ι π) (block : Nat) (code : List (Nat × ι))
    (runs : List (PredicateRun ν)) : Prop where
  flat : runs.flatMap (fun run => run.span.instructions c) = code
  sound : ∀ run ∈ runs, run.Sound P c block
  apart : runs.IsChain fun run run' => run.predicate ≠ run'.predicate

omit [DecidableEq ν] in
theorem sound_single {stop : Nat} {a : ι} (ha : (c.instructions block)[stop]? = some a) :
    (⟨P.predicate a, ⟨block, stop, stop + 1⟩⟩ : PredicateRun ν).Sound P c block ∧
      BlockSpan.instructions c ⟨block, stop, stop + 1⟩ = [(stop, a)] := by
  have hcode : BlockSpan.instructions c ⟨block, stop, stop + 1⟩ = [(stop, a)] := by
    rw [instructions_succ (Nat.le_refl stop), ha]
    simp [BlockSpan.instructions]
  refine ⟨⟨rfl, Nat.le_succ stop, ⟨a, [], hcode, ha⟩, fun entry he => ?_⟩, hcode⟩
  rw [hcode] at he
  rw [mem_singleton.mp he]

/-- Grouping cuts the code of a span; the last run ends where the span ends or its block
does. -/
theorem predicateRuns_spec (start n : Nat) :
    CutInto P c block (BlockSpan.instructions c ⟨block, start, start + n⟩)
      (predicateRuns P c ⟨block, start, start + n⟩) ∧
    ∀ last, (predicateRuns P c ⟨block, start, start + n⟩).getLast? = some last →
      last.span.stop = start + n ∨ (c.instructions block)[start + n]? = none := by
  induction n with
  | zero =>
    have hcode : BlockSpan.instructions c ⟨block, start, start + 0⟩ = [] := by simp [BlockSpan.instructions]
    have hruns : predicateRuns P c ⟨block, start, start + 0⟩ = [] := by rw [predicateRuns, hcode]; rfl
    rw [hcode, hruns]
    exact ⟨⟨rfl, fun _ h => absurd h not_mem_nil, .nil⟩, fun _ h => by cases h⟩
  | succ n ih =>
    obtain ⟨hcut, hlast⟩ := ih
    have hcode := @instructions_succ ι π c block start (start + n) (Nat.le_add_right start n)
    rw [show start + (n + 1) = start + n + 1 from rfl]
    cases ha : (c.instructions block)[start + n]? with
    | none =>
      -- past the end of the block nothing is added
      have hsame : BlockSpan.instructions c ⟨block, start, start + n + 1⟩ =
          BlockSpan.instructions c ⟨block, start, start + n⟩ := by
        rw [hcode, ha]
        simp
      have hruns : predicateRuns P c ⟨block, start, start + n + 1⟩ = predicateRuns P c ⟨block, start, start + n⟩ := by
        unfold predicateRuns
        rw [hsame]
      rw [hsame, hruns]
      refine ⟨hcut, fun last _ => Or.inr ?_⟩
      rw [List.getElem?_eq_none_iff] at ha ⊢
      exact Nat.le_succ_of_le ha
    | some a =>
      have hadd : BlockSpan.instructions c ⟨block, start, start + n + 1⟩ =
          BlockSpan.instructions c ⟨block, start, start + n⟩ ++ [(start + n, a)] := by
        rw [hcode, ha]
        rfl
      have hruns : predicateRuns P c ⟨block, start, start + n + 1⟩ =
          extendRuns P block (predicateRuns P c ⟨block, start, start + n⟩) (start + n, a) := by
        unfold predicateRuns
        rw [hadd, foldl_append]
        rfl
      obtain ⟨hsingle, hsingleCode⟩ := sound_single (P := P) ha
      rw [hadd, hruns]
      generalize predicateRuns P c ⟨block, start, start + n⟩ = runs at hcut hlast
      rcases eq_nil_or_concat runs with rfl | ⟨init, last, rfl⟩
      · refine ⟨⟨?_, fun run hrun => ?_, isChain_singleton _⟩, fun last h => ?_⟩
        · rw [← hcut.flat]
          simpa [extendRuns] using hsingleCode
        · rw [mem_singleton.mp hrun]
          exact hsingle
        · cases h
          exact Or.inl rfl
      · rw [concat_eq_append] at hcut hlast ⊢
        have hstop : last.span.stop = start + n := (hlast last getLast?_concat).resolve_right (by rw [ha]; simp)
        have hsound := hcut.sound last (mem_append_right _ mem_cons_self)
        obtain ⟨predicate, span⟩ := last
        obtain ⟨spanBlock, spanStart, spanStop⟩ := span
        obtain rfl : spanBlock = block := hsound.block_eq
        obtain rfl : spanStop = start + n := hstop
        unfold extendRuns
        rw [getLast?_concat]
        dsimp only
        split
        · next hsame =>
          -- the run grows by the instruction
          rw [dropLast_concat]
          have hgrown : BlockSpan.instructions c ⟨spanBlock, spanStart, start + n + 1⟩ =
              BlockSpan.instructions c ⟨spanBlock, spanStart, start + n⟩ ++ [(start + n, a)] := by
            rw [instructions_succ hsound.le, ha]
            rfl
          refine ⟨⟨?_, fun run hrun => ?_, ?_⟩, fun last h => ?_⟩
          · rw [← hcut.flat, flatMap_append, flatMap_append, append_assoc]
            simp [hgrown]
          · rcases mem_append.mp hrun with hrun | hrun
            · exact hcut.sound run (mem_append_left _ hrun)
            · rw [mem_singleton.mp hrun]
              obtain ⟨b, rest, hfirst, hb⟩ := hsound.first
              refine ⟨rfl, Nat.le_succ_of_le hsound.le, ⟨b, rest ++ [(start + n, a)], ?_, hb⟩, fun entry he => ?_⟩
              · rw [hgrown, hfirst]
                rfl
              · rw [hgrown] at he
                rcases mem_append.mp he with he | he
                · exact hsound.same entry he
                · rw [mem_singleton.mp he]
                  exact hsame.symm
          · have hchain := hcut.apart
            rw [isChain_append] at hchain ⊢
            refine ⟨hchain.1, isChain_singleton _, fun x hx y hy => ?_⟩
            rw [head?_cons, Option.mem_some_iff] at hy
            subst hy
            have hbefore := hchain.2.2 x hx ⟨predicate, ⟨spanBlock, spanStart, start + n⟩⟩ rfl
            exact hbefore
          · rw [getLast?_concat] at h
            cases h
            exact Or.inl rfl
        · next hne =>
          refine ⟨⟨?_, fun run hrun => ?_, ?_⟩, fun last h => ?_⟩
          · rw [flatMap_append, hcut.flat]
            simp [hsingleCode]
          · rcases mem_append.mp hrun with hrun | hrun
            · exact hcut.sound run hrun
            · rw [mem_singleton.mp hrun]
              exact hsingle
          · rw [isChain_append]
            refine ⟨hcut.apart, isChain_singleton _, fun x hx y hy => ?_⟩
            rw [getLast?_concat, Option.mem_some_iff] at hx
            rw [head?_cons, Option.mem_some_iff] at hy
            subst hx
            subst hy
            exact hne
          · rw [getLast?_concat] at h
            cases h
            exact Or.inl rfl

theorem cutInto_predicateRuns (span : BlockSpan) :
    CutInto P c span.block (span.instructions c) (predicateRuns P c span) := by
  have hspec := (@predicateRuns_spec ι ν π _ P c span.block span.start (span.stop - span.start)).1
  have hruns : predicateRuns P c span =
      predicateRuns P c ⟨span.block, span.start, span.start + (span.stop - span.start)⟩ := by
    unfold predicateRuns
    rw [← instructions_of_le span]
  rw [hruns, instructions_of_le span]
  exact hspec

omit [DecidableEq ν] in
theorem KeepsGuards.not_writesGuard {code : List (Nat × ι)} (h : KeepsGuards P code) (before : List (Nat × ι))
    (a b : Nat × ι) (after : List (Nat × ι)) (hcode : code = before ++ a :: b :: after) : ¬ WritesGuard P a b := by
  rw [hcode] at h
  exact (isChain_cons_cons.mp (isChain_append.mp h).2.1).1

omit [DecidableEq ν] in
theorem KeepsGuards.header {code : List (Nat × ι)} (h : KeepsGuards P code) : HeaderKeepsGuards P code :=
  fun before a b after hcode hwrites => absurd hwrites (h.not_writesGuard before a b after hcode)

/-- No instruction of a run but the last writes the run's guard. -/
def PredicateRun.Kept (P : Predicated ι ν) (c : Cfg ι π) (run : PredicateRun ν) : Prop :=
  ∀ v whenTrue, run.predicate = some (v, whenTrue) → ∀ before a b after,
    run.span.instructions c = before ++ a :: b :: after → v ∉ P.defs a.2

omit [DecidableEq ν] in
theorem CutInto.kept {code : List (Nat × ι)} {runs : List (PredicateRun ν)} (h : CutInto P c block code runs)
    (hkeeps : KeepsGuards P code) {run : PredicateRun ν} (hrun : run ∈ runs) : run.Kept P c := by
  intro v whenTrue hpred before a b after hcode hv
  obtain ⟨init, rest, rfl⟩ := append_of_mem hrun
  have hsame := (h.sound run hrun).same
  rw [hcode, hpred] at hsame
  refine hkeeps.not_writesGuard (init.flatMap (fun run => run.span.instructions c) ++ before) a b
    (after ++ rest.flatMap fun run => run.span.instructions c) ?_
    ⟨v, whenTrue, hsame a (by simp), hsame b (by simp), hv⟩
  rw [← h.flat, flatMap_append, flatMap_cons, hcode]
  simp

omit [DecidableEq ν] in
theorem CutInto.kept_of_header {code : List (Nat × ι)} {init : List (PredicateRun ν)} {last : PredicateRun ν}
    (h : CutInto P c block code (init ++ [last])) (hkeeps : HeaderKeepsGuards P code) {run : PredicateRun ν}
    (hrun : run ∈ init) : run.Kept P c := by
  intro v whenTrue hpred before a b after hcode hv
  obtain ⟨front, rest, rfl⟩ := append_of_mem hrun
  have hmem : run ∈ front ++ run :: rest ++ [last] := mem_append_left _ hrun
  have hsame := (h.sound run hmem).same
  rw [hcode, hpred] at hsame
  -- the run after it begins with another predicate
  obtain ⟨next, later, hnext⟩ : ∃ next later, rest ++ [last] = next :: later :=
    exists_cons_of_ne_nil (by simp)
  have hruns : front ++ run :: rest ++ [last] = front ++ run :: next :: later := by
    rw [append_assoc, cons_append, hnext]
  rw [hruns] at h
  have hapart : run.predicate ≠ next.predicate := by
    have hchain := (isChain_append.mp h.apart).2.1
    exact (isChain_cons_cons.mp hchain).1
  have hnextSound := h.sound next (by simp)
  obtain ⟨x, after', hfirst, _⟩ := hnextSound.first
  have hx : P.predicate x = next.predicate := hnextSound.same (next.span.start, x) (by rw [hfirst]; simp)
  have hall := hkeeps (front.flatMap (fun run => run.span.instructions c) ++ before) a b
    (after ++ (next :: later).flatMap fun run => run.span.instructions c)
    (by
      rw [← h.flat, flatMap_append, flatMap_cons, hcode]
      simp)
    ⟨v, whenTrue, hsame a (by simp), hsame b (by simp), hv⟩ (next.span.start, x) (by simp [hfirst])
  exact hapart (hpred.trans ((hsame a (by simp)).symm.trans (hall.symm.trans hx)))

end Runs

/-! ## Segments -/

section Segments

variable {P : Predicated ι ν} {M : Machine P σ} {c : Cfg ι π} {block fuel : Nat}

theorem guardHolds_of_run {run : PredicateRun ν} (h : run.Sound P c block) {v : ν} {whenTrue : Bool}
    (hpred : run.predicate = some (v, whenTrue)) (s : σ) :
    M.guardHolds c ⟨run.span.block, run.span.start⟩ whenTrue s = decide (M.test v s = whenTrue) := by
  obtain ⟨a, rest, hfirst, ha⟩ := h.first
  have hsame := h.same (run.span.start, a) (by rw [hfirst]; exact mem_cons_self)
  unfold Machine.guardHolds
  rw [h.block_eq, ha, Option.bind_some, hsame, hpred]
  rfl

theorem runNode_guardSegment {run : PredicateRun ν} (h : run.Sound P c block) (hkept : run.Kept P c)
    (segment : ControlNode) (finish : Execution σ × Bool → Execution σ)
    (hsegment : ∀ inside s, M.runNode c inside fuel segment none s = finish (M.runSpan c inside run.span s))
    (hskip : ∀ s, finish (.skip s, false) = .skip s) (s : σ) :
    M.runNode c false fuel (guardSegment run segment) none s = finish (M.runSpan c false run.span s) := by
  unfold guardSegment
  cases hpred : run.predicate with
  | none => exact hsegment false s
  | some p =>
    obtain ⟨v, whenTrue⟩ := p
    obtain ⟨a, rest, hfirst, _⟩ := h.first
    have hcode : M.runCode run.span.block false (run.span.instructions c) true s =
        if M.test v s = whenTrue then M.runCode run.span.block true (run.span.instructions c) true s
        else (.skip s, false) :=
      runCode_of_predicate (by rw [hfirst]; simp) (fun entry he => (h.same entry he).trans hpred)
        (hkept v whenTrue hpred) true s
    change (if M.guardHolds c ⟨run.span.block, run.span.start⟩ whenTrue s then
      (M.runNode c true fuel segment none s).andThen fun s => .skip s else .skip s) = _
    rw [guardHolds_of_run h hpred]
    unfold Machine.runSpan at hsegment ⊢
    rw [hcode]
    by_cases htest : M.test v s = whenTrue
    · rw [if_pos (decide_eq_true htest), if_pos htest, hsegment]
      exact Execution.andThen_skip_right _
    · rw [if_neg (by simp [htest]), if_neg htest, hskip]

theorem runNode_blockSegment {run : PredicateRun ν} (h : run.Sound P c block) (hkept : run.Kept P c) (s : σ) :
    M.runNode c false fuel (blockSegment run) none s = (M.runSpan c false run.span s).1 :=
  runNode_guardSegment h hkept _ Prod.fst (fun _ _ => by rw [Machine.runNode]) (fun _ => rfl) s

theorem hasLabel_guardSegment (run : PredicateRun ν) {segment : ControlNode} {target : Nat}
    (h : segment.hasLabel target = false) : (guardSegment run segment).hasLabel target = false := by
  unfold guardSegment
  split
  · simp [ControlNode.hasLabel, ControlBody.ofList, ControlBody.hasLabel, h]
  · exact h

theorem hasLabel_blockSegment (run : PredicateRun ν) (target : Nat) : (blockSegment run).hasLabel target = false :=
  hasLabel_guardSegment run (by rw [ControlNode.hasLabel])

theorem runBody_segments (M : Machine P σ) (fuel : Nat) {runs : List (PredicateRun ν)}
    (hruns : ∀ run ∈ runs, run.Sound P c block) (hkept : ∀ run ∈ runs, run.Kept P c) (tail : List ControlNode) :
    ∀ s : σ, M.runBody c false fuel (.ofList (runs.map blockSegment ++ tail)) none s =
      (M.runCode block false (runs.flatMap fun run => run.span.instructions c) true s).1.andThen fun s =>
        M.runBody c false fuel (.ofList tail) none s := by
  induction runs with
  | nil => exact fun _ => rfl
  | cons run runs ih =>
    intro s
    have hrest := ih (fun r hr => hruns r (mem_cons_of_mem _ hr)) fun r hr => hkept r (mem_cons_of_mem _ hr)
    have hsound := hruns run mem_cons_self
    rw [map_cons, cons_append, ControlBody.ofList, Machine.runBody_cons,
      runNode_blockSegment hsound (hkept run mem_cons_self), flatMap_cons, runCode_append,
      Execution.andThen_assoc, Machine.runSpan, hsound.block_eq]
    exact congrArg _ (funext hrest)

theorem hasLabel_segments (runs : List (PredicateRun ν)) (tail : List ControlNode) (target : Nat) :
    (ControlBody.ofList (runs.map blockSegment ++ tail)).hasLabel target =
      (ControlBody.ofList tail).hasLabel target := by
  induction runs with
  | nil => rfl
  | cons run runs ih =>
    rw [map_cons, cons_append, ControlBody.ofList, ControlBody.hasLabel, hasLabel_blockSegment, ih]
    rfl

theorem runBody_segments_entry (runs : List (PredicateRun ν)) (tail : List ControlNode) (target : Nat) (s : σ) :
    M.runBody c false fuel (.ofList (runs.map blockSegment ++ tail)) (some target) s =
      M.runBody c false fuel (.ofList tail) (some target) s := by
  induction runs with
  | nil => rfl
  | cons run runs ih =>
    rw [map_cons, cons_append, ControlBody.ofList, Machine.runBody_cons_entry, hasLabel_blockSegment]
    exact ih

theorem runBody_singleton (node : ControlNode) (entry : Option Nat) (s : σ)
    (hentry : ∀ target, entry = some target → node.hasLabel target = true) :
    M.runBody c false fuel (.ofList [node]) entry s = M.runNode c false fuel node entry s := by
  cases entry with
  | none =>
    rw [ControlBody.ofList, Machine.runBody_cons]
    exact Execution.andThen_skip_right _
  | some target =>
    rw [ControlBody.ofList, Machine.runBody_cons_entry, if_pos (hentry target rfl)]
    exact Execution.andThen_skip_right _

theorem runNode_sequenceOrSingle (segments : List ControlNode) (s : σ) :
    M.runNode c false fuel (sequenceOrSingle segments) none s = M.runBody c false fuel (.ofList segments) none s := by
  unfold sequenceOrSingle
  split
  · exact (runBody_singleton _ none s fun _ h => by cases h).symm
  · exact M.runNode_sequence c false fuel _ none s

theorem hasLabel_sequenceOrSingle (segments : List ControlNode) (target : Nat) :
    (sequenceOrSingle segments).hasLabel target = (ControlBody.ofList segments).hasLabel target := by
  unfold sequenceOrSingle
  split
  · exact (ControlBody.hasLabel_singleton target _).symm
  · exact ControlNode.hasLabel_sequence target _

end Segments

/-! ## The rewrite -/

section Rewrite

variable [DecidableEq ν] {P : Predicated ι ν} {M : Machine P σ} {c : Cfg ι π} {fuel : Nat}

theorem runNode_wrapBlockRuns {span : BlockSpan} (hkeeps : KeepsGuards P (span.instructions c)) (s : σ) :
    M.runNode c false fuel (wrapBlockRuns P c span) none s = M.runNode c false fuel (.block span) none s := by
  have hcut := cutInto_predicateRuns (P := P) (c := c) span
  have hrun := runBody_segments M fuel hcut.sound (fun run hrun => hcut.kept hkeeps hrun) [] s
  rw [append_nil, hcut.flat] at hrun
  rw [wrapBlockRuns, runNode_sequenceOrSingle, hrun, Machine.runNode]
  exact Execution.andThen_skip_right _

theorem runNode_wrapReturnRuns {span : BlockSpan} (hcode : span.instructions c ≠ [])
    (hkeeps : KeepsGuards P (span.instructions c)) (s : σ) :
    M.runNode c false fuel (wrapReturnRuns P c span) none s = M.runNode c false fuel (.return span) none s := by
  have hcut := cutInto_predicateRuns (P := P) (c := c) span
  rw [wrapReturnRuns, runNode_sequenceOrSingle, Machine.runNode, Machine.runSpan]
  generalize predicateRuns P c span = runs at hcut
  rcases eq_nil_or_concat runs with rfl | ⟨init, last, rfl⟩
  · exact absurd hcut.flat.symm hcode
  · rw [concat_eq_append] at hcut ⊢
    have hlast : last ∈ init ++ [last] := mem_append_right _ mem_cons_self
    have hsound := hcut.sound last hlast
    have hreturn : ∀ s, M.runNode c false fuel (guardSegment last (.return last.span)) none s =
        Execution.returning (M.runSpan c false last.span s) :=
      runNode_guardSegment hsound (hcut.kept hkeeps hlast) _ Execution.returning
        (fun _ _ => by rw [Machine.runNode]) fun _ => rfl
    rw [dropLast_concat, getLast?_concat]
    change M.runBody c false fuel (.ofList (init.map blockSegment ++ [guardSegment last (.return last.span)])) none s = _
    have hrun := runBody_segments M fuel
      (fun run hrun => hcut.sound run (mem_append_left _ hrun))
      (fun run hrun => hcut.kept hkeeps (mem_append_left _ hrun)) [guardSegment last (.return last.span)] s
    rw [hrun, ← hcut.flat, flatMap_append, flatMap_singleton, returning_append]
    · refine congrArg _ (funext fun s => ?_)
      rw [runBody_singleton _ none s (fun _ h => by cases h), hreturn, Machine.runSpan, hsound.block_eq]
    · obtain ⟨a, rest, hfirst, _⟩ := hsound.first
      rw [hfirst]
      simp

theorem hasLabel_wrapBlockRuns (span : BlockSpan) (target : Nat) :
    (wrapBlockRuns P c span).hasLabel target = false := by
  have hsegments := hasLabel_segments (predicateRuns P c span) [] target
  rw [append_nil] at hsegments
  rw [wrapBlockRuns, hasLabel_sequenceOrSingle, hsegments, ControlBody.ofList, ControlBody.hasLabel]

theorem hasLabel_wrapReturnRuns (span : BlockSpan) (target : Nat) :
    (wrapReturnRuns P c span).hasLabel target = false := by
  rw [wrapReturnRuns, hasLabel_sequenceOrSingle, hasLabel_segments]
  cases (predicateRuns P c span).getLast? with
  | none => rfl
  | some last =>
    change (ControlBody.ofList [guardSegment last (.return last.span)]).hasLabel target = false
    have hreturn : (guardSegment last (.return last.span)).hasLabel target = false :=
      hasLabel_guardSegment last (by rw [ControlNode.hasLabel])
    rw [ControlBody.hasLabel_singleton, hreturn]

theorem runNode_withSegments {condition : BlockSpan} (hkeeps : HeaderKeepsGuards P (condition.instructions c))
    (node : BlockSpan → ControlNode) (arm : σ → Execution σ)
    (hnode : ∀ span s, span.block = condition.block →
      M.runNode c false fuel (node span) none s = (M.runSpan c false span s).1.andThen arm) (s : σ) :
    M.runNode c false fuel
        (withSegments (splitHeaderRuns P c condition).1 (node (splitHeaderRuns P c condition).2)) none s =
      M.runNode c false fuel (node condition) none s := by
  have hcut := cutInto_predicateRuns (P := P) (c := c) condition
  unfold splitHeaderRuns
  dsimp only
  generalize predicateRuns P c condition = runs at hcut
  rcases eq_nil_or_concat runs with rfl | ⟨init, last, rfl⟩
  · rfl
  · rw [concat_eq_append] at hcut ⊢
    rw [getLast?_concat, dropLast_concat]
    dsimp only
    split
    · rfl
    · next hpredicated =>
      -- the hoisted runs and the final one are the code of the header
      have hlast := hcut.sound last (mem_append_right _ mem_cons_self)
      have hne : init ≠ [] := by
        rintro rfl
        exact hpredicated rfl
      have hsegments : (init.map blockSegment).isEmpty = false := by
        rw [isEmpty_eq_false_iff]
        exact fun h => hne (map_eq_nil_iff.mp h)
      have hrun := runBody_segments M fuel
        (fun run hrun => hcut.sound run (mem_append_left _ hrun))
        (fun run hrun => hcut.kept_of_header hkeeps hrun) [node last.span] s
      rw [withSegments, if_neg (by simp [hsegments]), Machine.runNode_sequence, hrun, hnode condition s rfl,
        Machine.runSpan, ← hcut.flat, flatMap_append, flatMap_singleton, runCode_append,
        Execution.andThen_assoc]
      refine congrArg _ (funext fun s => ?_)
      rw [runBody_singleton _ none s (fun _ h => by cases h), hnode last.span s hlast.block_eq, Machine.runSpan,
        hlast.block_eq]

theorem exists_segments (condition : BlockSpan) : ∃ runs : List (PredicateRun ν),
    (splitHeaderRuns P c condition).1 = runs.map blockSegment := by
  unfold splitHeaderRuns
  dsimp only
  split
  · exact ⟨[], rfl⟩
  · split
    · exact ⟨[], rfl⟩
    · exact ⟨_, rfl⟩

theorem hasLabel_withSegments (condition : BlockSpan) (node : ControlNode) (target : Nat) :
    (withSegments (splitHeaderRuns P c condition).1 node).hasLabel target = node.hasLabel target := by
  obtain ⟨runs, hruns⟩ := exists_segments (P := P) (c := c) condition
  rw [hruns]
  unfold withSegments
  split
  · rfl
  · rw [ControlNode.hasLabel_sequence, hasLabel_segments, ControlBody.hasLabel_singleton]

theorem runNode_withSegments_entry (condition : BlockSpan) (node : ControlNode) {target : Nat}
    (htarget : node.hasLabel target = true) (s : σ) :
    M.runNode c false fuel (withSegments (splitHeaderRuns P c condition).1 node) (some target) s =
      M.runNode c false fuel node (some target) s := by
  obtain ⟨runs, hruns⟩ := exists_segments (P := P) (c := c) condition
  rw [hruns]
  unfold withSegments
  split
  · rfl
  · rw [Machine.runNode_sequence, runBody_segments_entry]
    exact runBody_singleton node (some target) s fun t ht => by cases ht; exact htarget

/-! ### Labels stay where they are -/

mutual

theorem hasLabel_wrapNode (target : Nat) : ∀ node : ControlNode,
    (wrapNode P c node).hasLabel target = node.hasLabel target
  | .block span => by rw [wrapNode, hasLabel_wrapBlockRuns, ControlNode.hasLabel]
  | .return span => by rw [wrapNode, hasLabel_wrapReturnRuns, ControlNode.hasLabel]
  | .break _ => by rw [wrapNode]
  | .continue _ => by rw [wrapNode]
  | .goto _ => by rw [wrapNode]
  | .sequence body => by rw [wrapNode, ControlNode.hasLabel, ControlNode.hasLabel, hasLabel_wrapBody target body]
  | .loop _ _ body => by rw [wrapNode, ControlNode.hasLabel, ControlNode.hasLabel, hasLabel_wrapBody target body]
  | .guarded _ _ body => by rw [wrapNode, ControlNode.hasLabel, ControlNode.hasLabel, hasLabel_wrapBody target body]
  | .label _ body => by rw [wrapNode, ControlNode.hasLabel, ControlNode.hasLabel, hasLabel_wrapBody target body]
  | .ifThenElse _ thenBody elseBody => by
    rw [wrapNode, hasLabel_withSegments, ControlNode.hasLabel, ControlNode.hasLabel, hasLabel_wrapBody target thenBody,
      hasLabel_wrapBody target elseBody]
  | .switch _ cases defaultBody _ => by
    rw [wrapNode, hasLabel_withSegments, ControlNode.hasLabel, ControlNode.hasLabel, hasLabel_wrapCases target cases,
      hasLabel_wrapBody target defaultBody]
  | .tryCatch tryBody handlers finallyBody => by
    rw [wrapNode, ControlNode.hasLabel, ControlNode.hasLabel, hasLabel_wrapBody target tryBody,
      hasLabel_wrapHandlers target handlers, hasLabel_wrapBody target finallyBody]

theorem hasLabel_wrapBody (target : Nat) : ∀ body : ControlBody,
    (wrapBody P c body).hasLabel target = body.hasLabel target
  | .nil => by rw [wrapBody]
  | .cons node rest => by
    rw [wrapBody, ControlBody.hasLabel, ControlBody.hasLabel, hasLabel_wrapNode target node,
      hasLabel_wrapBody target rest]

theorem hasLabel_wrapCases (target : Nat) : ∀ cases : SwitchCases,
    (wrapCases P c cases).hasLabel target = cases.hasLabel target
  | .nil => by rw [wrapCases]
  | .cons _ _ body rest => by
    rw [wrapCases, SwitchCases.hasLabel, SwitchCases.hasLabel, hasLabel_wrapBody target body,
      hasLabel_wrapCases target rest]

theorem hasLabel_wrapHandlers (target : Nat) : ∀ handlers : CatchHandlers,
    (wrapHandlers P c handlers).hasLabel target = handlers.hasLabel target
  | .nil => by rw [wrapHandlers]
  | .cons _ _ _ body rest => by
    rw [wrapHandlers, CatchHandlers.hasLabel, CatchHandlers.hasLabel, hasLabel_wrapBody target body,
      hasLabel_wrapHandlers target rest]

end

/-! ### Every node runs alike -/

omit [DecidableEq ν] in
theorem runLoop_congr {header : Nat} {kind : LoopKind} {body body' : Option Nat → σ → Execution σ}
    (hnone : ∀ s, body none s = body' none s) (rounds : Nat) : ∀ (entry : Option Nat) (s : σ),
    (∀ s, body entry s = body' entry s) →
      M.runLoop c header kind false body rounds entry s = M.runLoop c header kind false body' rounds entry s := by
  induction rounds with
  | zero => exact fun _ _ _ => rfl
  | succ rounds ih =>
    intro entry s hentry
    unfold Machine.runLoop
    simp only [hentry, ih none _ hnone]

def Enters (hasLabel : Nat → Bool) (entry : Option Nat) : Prop := ∀ target, entry = some target → hasLabel target = true

theorem enters_none (hasLabel : Nat → Bool) : Enters hasLabel none := fun _ h => by cases h

mutual

theorem runNode_wrapNode : ∀ node : ControlNode, node.Plain c → node.KeepsGuards P c →
    ∀ (entry : Option Nat) (s : σ), Enters (fun t => node.hasLabel t) entry →
      M.runNode c false fuel (wrapNode P c node) entry s = M.runNode c false fuel node entry s
  | .block span => by
    intro _ hkeeps entry s hentry
    rw [ControlNode.KeepsGuards] at hkeeps
    cases entry with
    | none => rw [wrapNode, runNode_wrapBlockRuns hkeeps]
    | some target => exact absurd (hentry target rfl) (by simp [ControlNode.hasLabel])
  | .return span => by
    intro hplain hkeeps entry s hentry
    rw [ControlNode.KeepsGuards] at hkeeps
    rw [ControlNode.Plain] at hplain
    cases entry with
    | none => rw [wrapNode, runNode_wrapReturnRuns hplain hkeeps]
    | some target => exact absurd (hentry target rfl) (by simp [ControlNode.hasLabel])
  | .break _ => by
    intro _ _ entry s _
    rw [wrapNode]
  | .continue _ => by
    intro _ _ entry s _
    rw [wrapNode]
  | .goto _ => by
    intro _ _ entry s _
    rw [wrapNode]
  | .guarded _ _ _ => by
    intro hplain
    rw [ControlNode.Plain] at hplain
    exact hplain.elim
  | .sequence body => by
    intro hplain hkeeps entry s hentry
    rw [ControlNode.Plain] at hplain
    rw [ControlNode.KeepsGuards] at hkeeps
    rw [wrapNode, Machine.runNode, Machine.runNode]
    exact runBody_wrapBody body hplain hkeeps entry s fun t ht => by simpa [ControlNode.hasLabel] using hentry t ht
  | .label block body => by
    intro hplain hkeeps entry s hentry
    rw [ControlNode.Plain] at hplain
    rw [ControlNode.KeepsGuards] at hkeeps
    rw [wrapNode]
    cases entry with
    | none =>
      rw [Machine.runNode, Machine.runNode]
      exact runBody_wrapBody body hplain hkeeps none s (enters_none _)
    | some target =>
      rw [Machine.runNode, Machine.runNode]
      split
      · exact runBody_wrapBody body hplain hkeeps none s (enters_none _)
      · next hne =>
        refine runBody_wrapBody body hplain hkeeps (some target) s fun t ht => ?_
        cases ht
        simpa [ControlNode.hasLabel, hne] using hentry target rfl
  | .loop header kind body => by
    intro hplain hkeeps entry s hentry
    rw [ControlNode.Plain] at hplain
    rw [ControlNode.KeepsGuards] at hkeeps
    rw [wrapNode, Machine.runNode, Machine.runNode]
    refine runLoop_congr (fun s => runBody_wrapBody body hplain hkeeps none s (enters_none _)) fuel entry s fun s =>
      runBody_wrapBody body hplain hkeeps entry s fun t ht => by simpa [ControlNode.hasLabel] using hentry t ht
  | .ifThenElse condition thenBody elseBody => by
    intro hplain hkeeps entry s hentry
    rw [ControlNode.Plain] at hplain
    rw [ControlNode.KeepsGuards] at hkeeps
    obtain ⟨hheader, hkeepsThen, hkeepsElse⟩ := hkeeps
    rw [wrapNode]
    cases entry with
    | none =>
      rw [runNode_withSegments hheader (fun span => .ifThenElse span (wrapBody P c thenBody) (wrapBody P c elseBody))
        (fun s => if M.takesTrue condition.block s then M.runBody c false fuel (wrapBody P c thenBody) none s
          else M.runBody c false fuel (wrapBody P c elseBody) none s)
        (fun span s hspan => by rw [Machine.runNode, hspan]), Machine.runNode, Machine.runNode]
      refine congrArg _ (funext fun s => ?_)
      rw [runBody_wrapBody thenBody hplain.1 hkeepsThen none s (enters_none _),
        runBody_wrapBody elseBody hplain.2 hkeepsElse none s (enters_none _)]
    | some target =>
      have htarget : thenBody.hasLabel target = true ∨ elseBody.hasLabel target = true := by
        simpa [ControlNode.hasLabel] using hentry target rfl
      rw [runNode_withSegments_entry _ _ (by
        simp only [ControlNode.hasLabel, hasLabel_wrapBody, Bool.or_eq_true]
        exact htarget), Machine.runNode, Machine.runNode, hasLabel_wrapBody]
      split
      · next hthen =>
        exact runBody_wrapBody thenBody hplain.1 hkeepsThen (some target) s fun t ht => by cases ht; exact hthen
      · next hthen =>
        exact runBody_wrapBody elseBody hplain.2 hkeepsElse (some target) s fun t ht => by
          cases ht
          exact htarget.resolve_left hthen
  | .switch condition cases defaultBody defaultEdge => by
    intro hplain hkeeps entry s hentry
    rw [ControlNode.Plain] at hplain
    rw [ControlNode.KeepsGuards] at hkeeps
    obtain ⟨hheader, hkeepsCases, hkeepsDefault⟩ := hkeeps
    rw [wrapNode]
    cases entry with
    | none =>
      rw [runNode_withSegments hheader
        (fun span => .switch span (wrapCases P c cases) (wrapBody P c defaultBody) defaultEdge)
        (fun s => (M.runCase c false fuel (wrapCases P c cases) (M.selects condition.block s) s).getD
          (M.runBody c false fuel (wrapBody P c defaultBody) none s))
        (fun span s hspan => by rw [Machine.runNode, hspan]), Machine.runNode, Machine.runNode]
      refine congrArg _ (funext fun s => ?_)
      rw [(runCase_wrapCases cases hplain.1 hkeepsCases).1 _ s,
        runBody_wrapBody defaultBody hplain.2 hkeepsDefault none s (enters_none _)]
    | some target =>
      have htarget : cases.hasLabel target = true ∨ defaultBody.hasLabel target = true := by
        simpa [ControlNode.hasLabel] using hentry target rfl
      rw [runNode_withSegments_entry _ _ (by
        simp only [ControlNode.hasLabel, hasLabel_wrapBody, hasLabel_wrapCases, Bool.or_eq_true]
        exact htarget), Machine.runNode, Machine.runNode, ((runCase_wrapCases cases hplain.1 hkeepsCases).2 target s).1]
      rcases htarget with hcase | hdefault
      · obtain ⟨e, he⟩ := Option.isSome_iff_exists.mp (((runCase_wrapCases cases hplain.1
          hkeepsCases).2 target s).2.mpr hcase)
        rw [he]
        rfl
      · rw [runBody_wrapBody defaultBody hplain.2 hkeepsDefault (some target) s fun t ht => by cases ht; exact hdefault]
  | .tryCatch tryBody handlers finallyBody => by
    intro hplain hkeeps entry s hentry
    rw [ControlNode.Plain] at hplain
    rw [ControlNode.KeepsGuards] at hkeeps
    obtain ⟨hplainTry, hplainHandlers, hplainFinally⟩ := hplain
    obtain ⟨hkeepsTry, hkeepsHandlers, hkeepsFinally⟩ := hkeeps
    obtain ⟨hrunHandler, henterHandler⟩ :=
      runHandler_wrapHandlers handlers hplainHandlers hkeepsHandlers
    have hfinally : (fun s => M.runBody c false fuel (wrapBody P c finallyBody) none s) =
        fun s => M.runBody c false fuel finallyBody none s :=
      funext fun s => runBody_wrapBody finallyBody hplainFinally hkeepsFinally none s (enters_none _)
    rw [wrapNode]
    cases entry with
    | none =>
      rw [Machine.runNode, Machine.runNode, hfinally,
        runBody_wrapBody tryBody hplainTry hkeepsTry none s (enters_none _), funext hrunHandler]
    | some target =>
      rw [Machine.runNode, Machine.runNode, hfinally, hasLabel_wrapBody, funext hrunHandler, (henterHandler target s).1]
      split
      · next htry =>
        rw [runBody_wrapBody tryBody hplainTry hkeepsTry (some target) s fun t ht => by cases ht; exact htry]
      · next htry =>
        have htarget : handlers.hasLabel target = true ∨ finallyBody.hasLabel target = true := by
          simpa [ControlNode.hasLabel, htry] using hentry target rfl
        rcases htarget with hhandler | hlabel
        · obtain ⟨e, he⟩ := Option.isSome_iff_exists.mp ((henterHandler target s).2.mpr hhandler)
          rw [he]
          rfl
        · rw [runBody_wrapBody finallyBody hplainFinally hkeepsFinally (some target) s fun t ht => by
            cases ht
            exact hlabel]

theorem runBody_wrapBody : ∀ body : ControlBody, body.Plain c → body.KeepsGuards P c →
    ∀ (entry : Option Nat) (s : σ), Enters (fun t => body.hasLabel t) entry →
      M.runBody c false fuel (wrapBody P c body) entry s = M.runBody c false fuel body entry s
  | .nil => by
    intro _ _ entry s _
    rw [wrapBody]
  | .cons node rest => by
    intro hplain hkeeps entry s hentry
    rw [ControlBody.Plain] at hplain
    rw [ControlBody.KeepsGuards] at hkeeps
    have hrest : (fun s => M.runBody c false fuel (wrapBody P c rest) none s) =
        fun s => M.runBody c false fuel rest none s :=
      funext fun s => runBody_wrapBody rest hplain.2 hkeeps.2 none s (enters_none _)
    rw [wrapBody]
    cases entry with
    | none =>
      rw [Machine.runBody_cons, Machine.runBody_cons, runNode_wrapNode node hplain.1 hkeeps.1 none s (enters_none _), hrest]
    | some target =>
      rw [Machine.runBody_cons_entry, Machine.runBody_cons_entry, hasLabel_wrapNode, hrest]
      split
      · next hnode =>
        rw [runNode_wrapNode node hplain.1 hkeeps.1 (some target) s fun t ht => by cases ht; exact hnode]
      · next hnode =>
        refine runBody_wrapBody rest hplain.2 hkeeps.2 (some target) s fun t ht => ?_
        cases ht
        simpa [ControlBody.hasLabel, hnode] using hentry target rfl

theorem runCase_wrapCases : ∀ cases : SwitchCases, cases.Plain c → cases.KeepsGuards P c →
    (∀ (edge : Nat) (s : σ), M.runCase c false fuel (wrapCases P c cases) edge s = M.runCase c false fuel cases edge s) ∧
      ∀ (target : Nat) (s : σ),
        M.enterCase c false fuel (wrapCases P c cases) target s = M.enterCase c false fuel cases target s ∧
          ((M.enterCase c false fuel cases target s).isSome ↔ cases.hasLabel target = true)
  | .nil => by
    intro _ _
    rw [wrapCases]
    exact ⟨fun _ _ => rfl, fun _ _ => ⟨rfl, by simp [Machine.enterCase, SwitchCases.hasLabel]⟩⟩
  | .cons _ edges body rest => by
    intro hplain hkeeps
    rw [SwitchCases.Plain] at hplain
    rw [SwitchCases.KeepsGuards] at hkeeps
    obtain ⟨hrun, henter⟩ := runCase_wrapCases rest hplain.2 hkeeps.2
    rw [wrapCases]
    refine ⟨fun edge s => ?_, fun target s => ⟨?_, ?_⟩⟩
    · rw [Machine.runCase, Machine.runCase, hrun,
        runBody_wrapBody body hplain.1 hkeeps.1 none s (enters_none _)]
    · rw [Machine.enterCase, Machine.enterCase, hasLabel_wrapBody, (henter target s).1]
      split
      · next hbody =>
        rw [runBody_wrapBody body hplain.1 hkeeps.1 (some target) s fun t ht => by cases ht; exact hbody]
      · rfl
    · rw [Machine.enterCase, SwitchCases.hasLabel]
      split
      · next hbody => simp [hbody]
      · next hbody => simpa [hbody] using (henter target s).2

theorem runHandler_wrapHandlers : ∀ handlers : CatchHandlers, handlers.Plain c → handlers.KeepsGuards P c →
    (∀ s : σ, M.runHandler c false fuel (wrapHandlers P c handlers) s = M.runHandler c false fuel handlers s) ∧
      ∀ (target : Nat) (s : σ),
        M.enterHandler c false fuel (wrapHandlers P c handlers) target s = M.enterHandler c false fuel handlers target s ∧
          ((M.enterHandler c false fuel handlers target s).isSome ↔ handlers.hasLabel target = true)
  | .nil => by
    intro _ _
    rw [wrapHandlers]
    exact ⟨fun _ => rfl, fun _ _ => ⟨rfl, by simp [Machine.enterHandler, CatchHandlers.hasLabel]⟩⟩
  | .cons handler _ _ body rest => by
    intro hplain hkeeps
    rw [CatchHandlers.Plain] at hplain
    rw [CatchHandlers.KeepsGuards] at hkeeps
    obtain ⟨hrun, henter⟩ := runHandler_wrapHandlers rest hplain.2 hkeeps.2
    rw [wrapHandlers]
    refine ⟨fun s => ?_, fun target s => ⟨?_, ?_⟩⟩
    · rw [Machine.runHandler, Machine.runHandler, hrun,
        runBody_wrapBody body hplain.1 hkeeps.1 none s (enters_none _)]
    · rw [Machine.enterHandler, Machine.enterHandler, hasLabel_wrapBody, (henter target s).1]
      split
      · next hbody =>
        rw [runBody_wrapBody body hplain.1 hkeeps.1 (some target) s fun t ht => by cases ht; exact hbody]
      · rfl
    · rw [Machine.enterHandler, CatchHandlers.hasLabel]
      split
      · next hbody => simp [hbody]
      · next hbody => simpa [hbody] using (henter target s).2

end

/-! ## Trees -/

theorem hasLabel_finishRoot (root : ControlNode) (target : Nat) :
    (finishRoot root).hasLabel target = root.hasLabel target := by
  unfold finishRoot
  split
  · rw [ControlNode.hasLabel, ControlBody.hasLabel, ControlBody.hasLabel, Bool.or_false]
  · rfl

omit [DecidableEq ν] in
theorem runNode_finishRoot (root : ControlNode) (entry : Option Nat) (s : σ)
    (hentry : Enters (fun t => root.hasLabel t) entry) :
    M.runNode c false fuel (finishRoot root) entry s = M.runNode c false fuel root entry s := by
  have hlabel := hasLabel_finishRoot root
  unfold finishRoot at hlabel ⊢
  split
  · next only =>
    rw [Machine.runNode]
    exact (runBody_singleton only entry s fun target ht => (hlabel target).trans (hentry target ht)).symm
  · rfl

/-- Regionizing a tree that keeps its guards changes nothing that an execution does: the
instructions that run, the stores they run in, and how the execution ends. -/
theorem runTree_computePredicated {tree : ControlNode} (hplain : tree.Plain c) (hkeeps : tree.KeepsGuards P c)
    (M : Machine P σ) (fuel : Nat) (s : σ) :
    M.runTree c (computePredicated P c tree) fuel none s = M.runTree c tree fuel none s := by
  have hlabel : ∀ target, (computePredicated P c tree).hasLabel target = tree.hasLabel target := fun target =>
    (hasLabel_finishRoot (wrapNode P c tree) target).trans (hasLabel_wrapNode target tree)
  -- an execution enters the tree at its start or at a label that it holds
  have hrun : ∀ (fuel : Nat) (entry : Option Nat) (s : σ), Enters (fun t => tree.hasLabel t) entry →
      M.runTree c (computePredicated P c tree) fuel entry s = M.runTree c tree fuel entry s := by
    intro fuel
    induction fuel with
    | zero => exact fun _ _ _ => rfl
    | succ fuel ih =>
      intro entry s hentry
      have hnode : M.runNode c false fuel (computePredicated P c tree) entry s =
          M.runNode c false fuel tree entry s :=
        (runNode_finishRoot (wrapNode P c tree) entry s fun t ht =>
          (hasLabel_wrapNode t tree).trans (hentry t ht)).trans (runNode_wrapNode tree hplain hkeeps entry s hentry)
      unfold Machine.runTree
      rw [hnode]
      dsimp only
      split
      · next target _ =>
        rw [hlabel]
        split
        · next htarget =>
          refine congrArg _ (funext fun s => ih (some target) s fun t ht => ?_)
          cases ht
          exact htarget
        · rfl
      · rfl
  exact hrun fuel none s (enters_none _)

end Rewrite

end CfgLib

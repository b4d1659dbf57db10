import CfgLib.Dataflow.EdgeFixpoint

/-!
# The rounds of the edge solver

What holds after each round of the loop, for any problem: no order on the facts and
no monotone operation is asked for.  When the worklist is empty the equations hold at
every node that was visited.
-/

namespace CfgLib.Dataflow

open CfgLib.Lib

section Loop

variable {σ ε : Type} {visit : Nat → σ × Worklist → Except ε (σ × Worklist)}

/-- The states between the rounds of an unbounded loop. -/
inductive Reached (visit : Nat → σ × Worklist → Except ε (σ × Worklist)) (start : Run σ) : Run σ → Prop
  | start : Reached visit start start
  | round {r r' : Run σ} : Reached visit start r → advance .new visit r = .ok (some r') →
      Reached visit start r'

variable {r start : Run σ}

theorem advance_of_visit {w₁ : Worklist} {node : Nat} {facts' : σ} {w' : Worklist}
    (hpop : r.worklist.popFirst = (w₁, some node)) (hvisit : visit node (r.facts, w₁) = .ok (facts', w')) :
    advance .new visit r = .ok (some ⟨facts', w', r.steps + 1⟩) := by
  simp [advance, hpop, SolveConfig.new, hvisit]

theorem Reached.invariant {I : σ → Worklist → Prop} (hstart : I start.facts start.worklist)
    (hstep : ∀ facts w w₁ node, I facts w → w.popFirst = (w₁, some node) →
      ∃ facts' w', visit node (facts, w₁) = .ok (facts', w') ∧ I facts' w')
    (h : Reached visit start r) : I r.facts r.worklist := by
  induction h with
  | start => exact hstart
  | @round r r' _ hadvance ih =>
    rcases hpop : r.worklist.popFirst with ⟨w₁, popped⟩
    cases popped with
    | none => simp [advance, hpop] at hadvance
    | some node =>
      obtain ⟨facts', w', hvisit, hI⟩ := hstep _ _ _ _ ih hpop
      rw [advance_of_visit hpop hvisit] at hadvance
      cases hadvance
      exact hI

/-- A loop that returned did so between two rounds, with nothing left to visit. -/
theorem reached_of_drive (fuel : Nat) : ∀ {r r' : Run σ}, Reached visit start r →
    drive .new visit fuel r = some (.ok r') → Reached visit start r' ∧ r'.worklist.popFirst.2 = none := by
  induction fuel with
  | zero => intro r r' _ h; cases h
  | succ fuel ih =>
    intro r r' hr h
    unfold drive at h
    split at h
    · cases h
    · next hnone =>
      cases h
      refine ⟨hr, ?_⟩
      unfold advance at hnone
      split at hnone
      · next hpop => rw [hpop]
      · split at hnone
        · cases hnone
        · split at hnone <;> cases hnone
    · next r₁ hsome => exact ih (hr.round hsome) h

theorem drive_diverges {J : Run σ → Prop}
    (hstep : ∀ r, J r → ∃ r', advance .new visit r = .ok (some r') ∧ J r') (fuel : Nat) :
    ∀ {r : Run σ}, J r → drive .new visit fuel r = none := by
  induction fuel with
  | zero => exact fun _ => rfl
  | succ fuel ih =>
    intro r hr
    obtain ⟨r', hadvance, hr'⟩ := hstep r hr
    unfold drive
    rw [hadvance]
    exact ih hr'

/-- The state after so many rounds; `none` when the loop ended before. -/
def runRounds (visit : Nat → σ × Worklist → Except ε (σ × Worklist)) : Nat → Run σ → Option (Run σ)
  | 0, r => some r
  | rounds + 1, r =>
    match advance .new visit r with
    | .ok (some r') => runRounds visit rounds r'
    | .ok none | .error _ => none

theorem runRounds_succ {rounds : Nat} {r' : Run σ} (h : runRounds visit (rounds + 1) r = some r') :
    ∃ r₁, advance .new visit r = .ok (some r₁) ∧ runRounds visit rounds r₁ = some r' := by
  unfold runRounds at h
  split at h
  · next r₁ hadvance => exact ⟨r₁, hadvance, h⟩
  · cases h
  · cases h

theorem reached_of_runRounds (rounds : Nat) : ∀ {r r' : Run σ}, Reached visit start r →
    runRounds visit rounds r = some r' → Reached visit start r' := by
  induction rounds with
  | zero =>
    intro r r' hr h
    cases h
    exact hr
  | succ rounds ih =>
    intro r r' hr h
    obtain ⟨r₁, hadvance, hrest⟩ := runRounds_succ h
    exact ih (hr.round hadvance) hrest

theorem drive_none_of_runRounds (rounds : Nat) : ∀ {r r' : Run σ}, runRounds visit rounds r = some r' →
    (∀ fuel, drive .new visit fuel r' = none) → ∀ fuel, drive .new visit fuel r = none := by
  induction rounds with
  | zero =>
    intro r r' h hnone
    cases h
    exact hnone
  | succ rounds ih =>
    intro r r' h hnone fuel
    obtain ⟨r₁, hadvance, hrest⟩ := runRounds_succ h
    cases fuel with
    | zero => rfl
    | succ fuel =>
      unfold drive
      rw [hadvance]
      exact ih hrest hnone fuel

end Loop

section Edges

variable {α δ : Type} [DecidableEq α] {g : EdgeView δ} {p : EdgeProblem α δ}

def EdgeTables.facts (p : EdgeProblem α δ) (tables : EdgeTables α) (e : Nat) : α := (tables.edge e).getD p.bottom

/-- The state of a solve as the equation system sees it. -/
def EdgeTables.state (p : EdgeProblem α δ) (tables : EdgeTables α) (w : Worklist) :
    SystemState Nat α (α × α) :=
  ⟨tables.facts p, fun n => (tables.input n, tables.output n), fun n => w.queued n⟩

/-- What the rounds keep: every fact has the property `P`, and the equations hold at the
nodes of `start` that are not queued. -/
structure Stable (g : EdgeView δ) (p : EdgeProblem α δ) (P : α → Prop) (start : Nat → Prop)
    (tables : EdgeTables α) (w : Worklist) : Prop where
  wf : w.WF g.nodeBound
  live : ∀ e, (tables.edge e).isSome ↔ e ∈ g.edgeIds
  queued_live : ∀ n, w.queued n → n ∈ g.nodeIds
  facts : ∀ e, P (tables.facts p e)
  settled : ∀ n, start n → n ∈ g.nodeIds → ¬ w.queued n →
    (tables.input n, tables.output n) = p.nodeFacts g n (tables.facts p) ∧
      ∀ e ∈ g.edges p.direction.traversal n,
        tables.facts p e = (p.system g).value n (tables.facts p) e

omit [DecidableEq α] in
theorem nodeFacts_congr (hg : g.Lawful) {n : Nat} (hn : n ∈ g.nodeIds) {x y : Nat → α}
    (hxy : ∀ e, n ∈ (p.system g).readers e → x e = y e) : p.nodeFacts g n x = p.nodeFacts g n y := by
  have hflow : p.flowingIn g n x = p.flowingIn g n y := by
    apply flowingIn_congr
    intro e he
    apply hxy
    have hnext := ((hg.mem_edges _ hn).mp he).2
    rw [TraversalDirection.against_against] at hnext
    exact List.mem_singleton.mpr hnext.symm
  simp only [EdgeProblem.nodeFacts, hflow]

variable {w : Worklist} {P : α → Prop}

theorem Stable.visit (hg : g.Lawful)
    (hP : ∀ n ∈ g.nodeIds, ∀ x : Nat → α, (∀ e, P (x e)) → ∀ e ∈ g.edges p.direction.traversal n,
      P ((p.system g).value n x e)) {start : Nat → Prop} {tables : EdgeTables α} {w₁ : Worklist} {node : Nat}
    (h : Stable g p P start tables w) (hpop : w.popFirst = (w₁, some node)) :
    ∃ tables' w', visitAlong g p.infallible node (tables, w₁) = .ok (tables', w') ∧
      Stable g p P start tables' w' ∧ node ∈ g.nodeIds ∧
      (p.system g).Visit node (tables.state p w) (tables'.state p w') := by
  have hspec := Worklist.popFirst_spec h.wf
  rw [hpop] at hspec
  have hnode : node ∈ g.nodeIds := h.queued_live node hspec.2.1
  obtain ⟨tables', w', hrun, hwf, hlive, hvisit⟩ := visit_of_visitAlong (p := p) hg h.live h.wf hnode hpop
  refine ⟨tables', w', hrun, ⟨hwf, hlive, fun n hn => ?_, fun e => ?_, fun n hstart hn hq => ?_⟩, hnode, hvisit⟩
  · rcases (hvisit.queue_iff n).mp hn with ⟨hn, _⟩ | ⟨e, he, _, hread⟩
    · exact h.queued_live n hn
    · rw [List.mem_singleton.mp hread]
      exact hg.next_live _ ((hg.mem_edges _ hnode).mp he).1
  · by_cases he : e ∈ (p.system g).slots node
    · exact (congrArg P (hvisit.written e he)).mpr (hP node hnode _ h.facts e he)
    · exact (congrArg P (hvisit.kept e he)).mpr (h.facts e)
  · -- a node that is not queued sees the facts it reads unchanged
    have hsame : ∀ e, n ∈ (p.system g).readers e → tables'.facts p e = tables.facts p e := by
      intro e hread
      by_contra hne
      refine hq ((hvisit.queue_iff n).mpr (Or.inr ⟨e, ?_, hne, hread⟩))
      by_contra hkept
      exact hne (hvisit.kept e hkept)
    have hnodeFacts := nodeFacts_congr (p := p) hg hn hsame
    have hvalue : ∀ e, (p.system g).value n (tables'.facts p) e = (p.system g).value n (tables.facts p) e := by
      intro e
      simp only [EdgeProblem.system, hnodeFacts]
    by_cases hnn : n = node
    · subst hnn
      refine ⟨hvisit.recorded.trans hnodeFacts.symm, fun e he => ?_⟩
      rw [hvalue]
      exact hvisit.written e he
    · have hold : ¬ w.queued n := fun hc => hq ((hvisit.queue_iff n).mpr (Or.inl ⟨hc, hnn⟩))
      obtain ⟨hrecord, hedges⟩ := h.settled n hstart hn hold
      refine ⟨(hvisit.records_kept n hnn).trans (hrecord.trans hnodeFacts.symm), fun e he => ?_⟩
      rw [hvalue, ← hedges e he]
      refine hvisit.kept e fun he' => hnn ?_
      rw [← ((hg.mem_edges _ hn).mp he).2, ((hg.mem_edges _ hnode).mp he').2]

omit [DecidableEq α] in
theorem stable_init {P : α → Prop} (hbottom : P p.bottom) {w : Worklist} (hw : w.WF g.nodeBound)
    (hlive : ∀ n, w.queued n → n ∈ g.nodeIds) :
    Stable g p P (fun n => w.queued n) (.init g p.infallible) w := by
  have hfacts : ∀ e, (EdgeTables.init g p.infallible).facts p e = p.bottom := by
    intro e
    unfold EdgeTables.facts EdgeTables.init
    dsimp only
    split <;> rfl
  refine ⟨hw, fun e => ?_, hlive, fun e => ?_, fun n hn _ hq => absurd hn hq⟩
  · unfold EdgeTables.init
    dsimp only
    split
    · next he => simp [he]
    · next he => simp [he]
  · rw [hfacts]
    exact hbottom

theorem stable_of_solve (hg : g.Lawful) (hbottom : P p.bottom)
    (hP : ∀ n ∈ g.nodeIds, ∀ x : Nat → α, (∀ e, P (x e)) → ∀ e ∈ g.edges p.direction.traversal n,
      P ((p.system g).value n x e)) (hw : w.WF g.nodeBound)
    (hlive : ∀ n, w.queued n → n ∈ g.nodeIds) {fuel : Nat} {r : Run (EdgeTables α)}
    (h : drive .new (visitAlong g p.infallible) fuel ⟨.init g p.infallible, w, 0⟩ = some (.ok r)) :
    Stable g p P (fun n => w.queued n) r.facts r.worklist ∧ ∀ n, ¬ r.worklist.queued n := by
  obtain ⟨hreached, hdone⟩ := reached_of_drive fuel .start h
  have hstable := hreached.invariant (I := Stable g p P fun n => w.queued n) (stable_init hbottom hw hlive)
    (fun facts w w₁ node hI hpop => by
      obtain ⟨tables', w', hrun, hI', _⟩ := hI.visit hg hP hpop
      exact ⟨tables', w', hrun, hI'⟩)
  refine ⟨hstable, fun n hn => ?_⟩
  have hspec := (Worklist.popFirst_spec hstable.wf).2
  rw [hdone] at hspec
  exact absurd hn (by simp [hspec n])

end Edges

end CfgLib.Dataflow

import CfgLib.Graph.Scope.Query
import CfgLib.Graph.Stack.Linear

/-!
# Linear resolution

The linear search of a scope-graph query does what the general one does until a prefix
accepts two data or admits two edges.  With the same fact about stack graphs: linear
resolution is general resolution where it succeeds, and it succeeds exactly when no
prefix that the general search expands branches (`linear_agrees`).
-/

namespace CfgLib

open CfgLib.Lib

namespace ScopeResolution

variable {S L R D Q State : Type} {g : ScopeGraph S L R D Q} {input : ScopeQuery Q}
  {query : ScopeGraphQuery S L R D Q State} {work : ScopeWork State}

/-- Over one edge both searches do the same, unless a second extension turns up. -/
theorem advanceEdge_spec (s : ScopeSearch) (l : List (ScopeWork State)) (edgeId : Nat) (hl : l.length ≤ 1) :
    ((extendEdge g input query work (s, l) edgeId).2.length ≤ 1 →
        advanceEdge g input query work (s, l.head?) edgeId =
          .ok ((extendEdge g input query work (s, l) edgeId).1,
            (extendEdge g input query work (s, l) edgeId).2.head?)) ∧
      (2 ≤ (extendEdge g input query work (s, l) edgeId).2.length →
        ∃ e, advanceEdge g input query work (s, l.head?) edgeId = .error e) := by
  have hfew : ¬ 2 ≤ l.length := by omega
  unfold extendEdge advanceEdge
  cases g.graph.edge edgeId with
  | none => exact ⟨fun _ => rfl, fun hlen => absurd hlen hfew⟩
  | some edge =>
    by_cases hcut : work.path.containsScope edge.target = true
    · simp only [hcut, if_true, implies_true, true_and]
      exact fun hlen => absurd hlen hfew
    · simp only [hcut, Bool.false_eq_true, if_false]
      cases query.step g input work.path work.state edgeId edge with
      | none => exact ⟨fun _ => rfl, fun hlen => absurd hlen hfew⟩
      | some nextState =>
        generalize s.budget.admitLength (work.path.edges.length + 1) = admitted
        obtain ⟨fits, budget⟩ := admitted
        cases fits with
        | false => exact ⟨fun _ => rfl, fun hlen => absurd hlen hfew⟩
        | true =>
          match l, hl with
          | [], _ => simp
          | [held], _ => simp

theorem length_le_extendEdge (s : ScopeSearch) (l : List (ScopeWork State)) (edgeId : Nat) :
    l.length ≤ (extendEdge g input query work (s, l) edgeId).2.length := by
  rw [(extendEdge_spec s l edgeId).2.2, List.length_append]
  omega

/-- A prefix accepts two data or admits two edges. -/
def Branches (g : ScopeGraph S L R D Q) (input : ScopeQuery Q) (query : ScopeGraphQuery S L R D Q State)
    (maxPathLength : Option Nat) (work : ScopeWork State) : Prop :=
  2 ≤ (query.visitAcceptedData g input work.path work.state).length ∨
    2 ≤ (extensions g input query maxPathLength work).length

theorem advance_of_stop {s s' : ScopeSearch} (h : expand g input query s work = .stop s') :
    advance g input query s work = .stop s' := by
  unfold expand at h
  unfold advance
  generalize s.budget.admitExpansion = admitted at *
  obtain ⟨admits, budget⟩ := admitted
  cases admits with
  | false =>
    cases h
    rfl
  | true =>
    simp only at h
    split at h <;> cases h

theorem advance_of_extend {s s' : ScopeSearch} {l : List (ScopeWork State)}
    (h : expand g input query s work = .extend s' l) :
    (2 ≤ (query.visitAcceptedData g input work.path work.state).length ∨ 2 ≤ l.length →
        ∃ e, advance g input query s work = .fail e) ∧
      ((query.visitAcceptedData g input work.path work.state).length ≤ 1 → l.length ≤ 1 →
        (l = [] ∧ advance g input query s work = .stop s') ∨
          ∃ q, l = [q] ∧ advance g input query s work = .on s' q) := by
  unfold expand at h
  unfold advance
  generalize s.budget.admitExpansion = admitted at *
  obtain ⟨admits, budget⟩ := admitted
  cases admits with
  | false => cases h
  | true =>
    simp only at h ⊢
    split
    · next haccepted =>
      refine ⟨fun _ => ⟨_, rfl⟩, fun hlen => ?_⟩
      rw [haccepted] at hlen
      simp at hlen
    · next hnot =>
      have hone : (query.visitAcceptedData g input work.path work.state).length ≤ 1 := by
        match hl : query.visitAcceptedData g input work.path work.state with
        | [] => simp
        | [_] => simp
        | a :: b :: l => exact absurd hl (hnot a b l)
      split at h
      · next hextend =>
        rw [if_pos hextend]
        generalize ({ budget := budget, reachable := s.reachable ++
          (query.visitAcceptedData g input work.path work.state).map (⟨·, work.path⟩) } : ScopeSearch) = s₁ at *
        obtain ⟨hok, hfail⟩ := foldlM_single length_le_extendEdge
          (fun s l edgeId hl => @advanceEdge_spec _ _ _ _ _ _ g input query work s l edgeId hl)
          (g.graph.lists .outgoing work.path.endScope) s₁ (by simp : ([] : List (ScopeWork State)).length ≤ 1)
        rw [List.head?_nil] at hok hfail
        generalize (g.graph.lists .outgoing work.path.endScope).foldl (extendEdge g input query work) (s₁, []) =
          found at *
        obtain ⟨s₂, l₂⟩ := found
        simp only [Expansion.extend.injEq] at h
        obtain ⟨rfl, rfl⟩ := h
        refine ⟨fun hlen => ?_, fun _ hlen => ?_⟩
        · obtain ⟨e, he⟩ := hfail (hlen.resolve_left (by omega))
          exact ⟨e, by rw [he]⟩
        · rw [hok hlen]
          match l₂, hlen with
          | [], _ => exact Or.inl ⟨rfl, rfl⟩
          | [q], _ => exact Or.inr ⟨q, rfl, rfl⟩
      · next hextend =>
        rw [if_neg hextend]
        simp only [Expansion.extend.injEq] at h
        obtain ⟨rfl, rfl⟩ := h
        refine ⟨fun hlen => ?_, fun _ _ => Or.inl ⟨rfl, rfl⟩⟩
        obtain hlen | hlen := hlen
        · omega
        · simp at hlen

/-- The linear resolution of a query is the general one, unless the general search expands a
prefix that branches; then it fails. -/
theorem tryComputeLinearQuery_spec (g : ScopeGraph S L R D Q) (input : ScopeQuery Q)
    (query : ScopeGraphQuery S L R D Q State) (config : ScopeResolutionConfig) : ∃ K, ∀ fuel, K ≤ fuel → ∃ r,
      computeQuery fuel g input query config = some r ∧
        ((tryComputeLinearQuery fuel g input query config = some (.ok r) ∧
            ∀ work, Expands (expand g input query) (seeded g input query) ⟨config.budget, []⟩ work →
              ¬ Branches g input query config.maxPathLength work) ∨
          ((∃ e, tryComputeLinearQuery fuel g input query config = some (.error e)) ∧
            ∃ work, Expands (expand g input query) (seeded g input query) ⟨config.budget, []⟩ work ∧
              Branches g input query config.maxPathLength work)) := by
  obtain ⟨K, hK⟩ := drain_ends g input query
  refine ⟨K, fun fuel hfuel => ?_⟩
  obtain ⟨s, hs⟩ := hK fuel hfuel ⟨config.budget, []⟩
  refine ⟨finish g input query s, by simp only [computeQuery, hs, Option.map_some], ?_⟩
  have hagree := @drain_follow _ _ (expand g input query) _ (advance g input query)
    (fun s => s.budget.maxPathLength = config.maxPathLength) (Branches g input query config.maxPathLength)
    (fun s p s' _ hexp => advance_of_stop hexp)
    (fun s p s' l hs hexp => (expand_spec hexp).1.length.trans hs)
    (fun s p s' l hs hexp hbranches => (advance_of_extend hexp).1 (by
      rw [(expand_spec hexp).2.2, hs]
      exact hbranches))
    (fun s p s' l hs hexp hlinear => by
      simp only [Branches, not_or, Nat.not_le] at hlinear
      rw [← hs, ← (expand_spec hexp).2.2] at hlinear
      exact (advance_of_extend hexp).2 (Nat.le_of_lt_succ hlinear.1) (Nat.le_of_lt_succ hlinear.2))
    .breadthFirst fuel 1 (seed g input query) ⟨config.budget, []⟩ s rfl hs
  obtain ⟨hrun, hnone⟩ | ⟨⟨e, hrun⟩, hsome⟩ := hagree
  · exact Or.inl ⟨by simp only [tryComputeLinearQuery, hrun, Option.map_some, Except.map], hnone⟩
  · exact Or.inr ⟨⟨e, by simp only [tryComputeLinearQuery, hrun, Option.map_some, Except.map]⟩, hsome⟩

end ScopeResolution

/-- For every stack graph, reference and limits, and every scope graph, query and limits: the
general search ends; the linear one succeeds exactly when no prefix that the general search
expands branches, and then with the same resolution.  A node that no path starts from is the
same error of both. -/
theorem linear_agrees :
    (∀ {S : Type} [DecidableEq S] (g : StackGraph S) (reference : Nat) (config : StackSearchConfig),
      (∃ e, ∀ fuel, StackResolution.tryCompute fuel g reference config = some (.error e) ∧
        StackResolution.tryComputeLinear fuel g reference config = some (.error (.path e))) ∨
      ∃ initial K, StackPath.fromReference g reference = .ok initial ∧ ∀ fuel, K ≤ fuel → ∃ r linear,
        StackResolution.tryCompute fuel g reference config = some (.ok r) ∧
        StackResolution.tryComputeLinear fuel g reference config = some linear ∧
        ((∃ r', linear = .ok r') ↔ ∀ path, Expands (StackResolution.expand g)
          (StackResolution.seeded config initial) (.new config) path →
            (StackResolution.extensions g config.maxPathLength path).length ≤ 1) ∧
        ∀ r', linear = .ok r' → r' = r) ∧
    ∀ {S L R D Q State : Type} (g : ScopeGraph S L R D Q) (input : ScopeQuery Q)
      (query : ScopeGraphQuery S L R D Q State) (config : ScopeResolutionConfig),
      ∃ K, ∀ fuel, K ≤ fuel → ∃ r linear,
        ScopeResolution.computeQuery fuel g input query config = some r ∧
        ScopeResolution.tryComputeLinearQuery fuel g input query config = some linear ∧
        ((∃ r', linear = .ok r') ↔ ∀ work, Expands (ScopeResolution.expand g input query)
          (ScopeResolution.seeded g input query) ⟨config.budget, []⟩ work →
            (query.visitAcceptedData g input work.path work.state).length ≤ 1 ∧
              (ScopeResolution.extensions g input query config.maxPathLength work).length ≤ 1) ∧
        ∀ r', linear = .ok r' → r' = r := by
  refine ⟨?_, ?_⟩
  · intro S _ g reference config
    cases hinitial : StackPath.fromReference g reference with
    | error e =>
      exact Or.inl ⟨e, fun fuel => ⟨by simp only [StackResolution.tryCompute, hinitial],
        by simp only [StackResolution.tryComputeLinear, hinitial]⟩⟩
    | ok initial =>
      obtain ⟨K, hK⟩ := StackResolution.tryComputeLinear_spec g config hinitial
      refine Or.inr ⟨initial, K, rfl, fun fuel hfuel => ?_⟩
      obtain ⟨r, hrun, hlinear⟩ := hK fuel hfuel
      obtain ⟨hlin, hnone⟩ | ⟨⟨e, hlin⟩, path, hpath, hbranches⟩ := hlinear
      · refine ⟨r, .ok r, hrun, hlin, ⟨fun _ path hpath => ?_, fun _ => ⟨r, rfl⟩⟩, fun r' hr' => ?_⟩
        · exact Nat.le_of_lt_succ (Nat.lt_of_not_le (hnone path hpath))
        · cases hr'
          rfl
      · refine ⟨r, .error e, hrun, hlin, ⟨?_, fun hfew => ?_⟩, ?_⟩
        · rintro ⟨r', hr'⟩
          cases hr'
        · exact absurd (hfew path hpath) (Nat.not_le_of_lt hbranches)
        · intro r' hr'
          cases hr'
  · intro S L R D Q State g input query config
    obtain ⟨K, hK⟩ := ScopeResolution.tryComputeLinearQuery_spec g input query config
    refine ⟨K, fun fuel hfuel => ?_⟩
    obtain ⟨r, hrun, hlinear⟩ := hK fuel hfuel
    obtain ⟨hlin, hnone⟩ | ⟨⟨e, hlin⟩, work, hwork, hbranches⟩ := hlinear
    · refine ⟨r, .ok r, hrun, hlin, ⟨fun _ work hwork => ?_, fun _ => ⟨r, rfl⟩⟩, fun r' hr' => ?_⟩
      · obtain ⟨hdata, hedges⟩ := not_or.mp (hnone work hwork)
        exact ⟨Nat.le_of_lt_succ (Nat.lt_of_not_le hdata), Nat.le_of_lt_succ (Nat.lt_of_not_le hedges)⟩
      · cases hr'
        rfl
    · refine ⟨r, .error e, hrun, hlin, ⟨?_, fun hfew => ?_⟩, ?_⟩
      · rintro ⟨r', hr'⟩
        cases hr'
      · obtain ⟨hdata, hedges⟩ := hfew work hwork
        obtain hmany | hmany := hbranches <;> omega
      · intro r' hr'
        cases hr'

end CfgLib

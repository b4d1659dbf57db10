import CfgLib.Graph.Stack.Search

/-!
# Linear stack-graph resolution

The linear search of a reference does what the general one does until a prefix has two
extensions: then it fails, and the general search comes to expand that prefix too.
-/

namespace CfgLib.StackResolution

open CfgLib.Lib

variable {S : Type} [DecidableEq S] {g : StackGraph S} {path : StackPath S}

/-- Over one edge both searches do the same, unless a second extension turns up. -/
theorem advanceEdge_spec (s : SearchState S) {l : List (StackPath S)} (hl : l.length ≤ 1) (edge : Nat) :
    ((extendEdge g path (s, l) edge).2.length ≤ 1 → advanceEdge g path (s, l.head?) edge =
          .ok ((extendEdge g path (s, l) edge).1, (extendEdge g path (s, l) edge).2.head?)) ∧
      (2 ≤ (extendEdge g path (s, l) edge).2.length → ∃ e, advanceEdge g path (s, l.head?) edge = .error e) := by
  unfold extendEdge advanceEdge
  by_cases hcut : path.containsEdge edge = true
  · simp only [hcut, if_true, implies_true, true_and]
    intro hlen
    omega
  · simp only [hcut, Bool.false_eq_true, if_false]
    generalize s.budget.admitLength (path.edgeCount + 1) = admitted
    obtain ⟨fits, budget⟩ := admitted
    cases fits with
    | false =>
      simp only [implies_true, true_and]
      intro hlen
      omega
    | true =>
      cases path.append g edge with
      | error e =>
        simp only [implies_true, true_and]
        intro hlen
        omega
      | ok next =>
        match l, hl with
        | [], _ => simp
        | [held], _ => simp

theorem length_le_extendEdge (s : SearchState S) (l : List (StackPath S)) (edge : Nat) :
    l.length ≤ (extendEdge g path (s, l) edge).2.length := by
  rw [(extendEdge_spec s l edge).2, List.length_append]
  omega

/-- A prefix has two extensions. -/
def Branches (g : StackGraph S) (maxPathLength : Option Nat) (path : StackPath S) : Prop :=
  2 ≤ (extensions g maxPathLength path).length

theorem advance_of_stop {s s' : SearchState S} (h : expand g s path = .stop s') : advance g s path = .stop s' := by
  unfold expand at h
  unfold advance
  generalize s.budget.admitExpansion = admitted at *
  obtain ⟨admits, budget⟩ := admitted
  cases admits with
  | false =>
    cases h
    rfl
  | true => cases h

theorem advance_of_extend {s s' : SearchState S} {l : List (StackPath S)} (h : expand g s path = .extend s' l) :
    (2 ≤ l.length → ∃ e, advance g s path = .fail e) ∧
      (l.length ≤ 1 → (l = [] ∧ advance g s path = .stop s') ∨ ∃ q, l = [q] ∧ advance g s path = .on s' q) := by
  unfold expand at h
  unfold advance
  generalize s.budget.admitExpansion = admitted at *
  obtain ⟨admits, budget⟩ := admitted
  cases admits with
  | false => cases h
  | true =>
    obtain ⟨hok, hfail⟩ := foldlM_single length_le_extendEdge (fun s l edge hl => @advanceEdge_spec _ _ g path s l hl edge)
      (g.outgoing path.endNode) { s with budget := budget }
      (by simp : ([] : List (StackPath S)).length ≤ 1)
    simp only [Expansion.extend.injEq] at h
    obtain ⟨rfl, rfl⟩ := h
    simp only [List.head?_nil] at hok hfail
    refine ⟨fun hlen => ?_, fun hlen => ?_⟩
    · obtain ⟨e, he⟩ := hfail hlen
      exact ⟨e, by simp only [he]⟩
    · have hrun := hok hlen
      generalize ((g.outgoing path.endNode).foldl (extendEdge g path) ({ s with budget := budget }, [])).2 = l at *
      match l, hlen with
      | [], _ => exact Or.inl ⟨rfl, by simp only [hrun, List.head?_nil]⟩
      | [q], _ => exact Or.inr ⟨q, rfl, by simp only [hrun, List.head?_cons]⟩

/-- The linear resolution of a reference is the general one, unless the general search expands
a prefix that branches; then it fails. -/
theorem tryComputeLinear_spec (g : StackGraph S) {reference : Nat} (config : StackSearchConfig) {initial : StackPath S}
    (hinitial : StackPath.fromReference g reference = .ok initial) : ∃ K, ∀ fuel, K ≤ fuel → ∃ r,
      tryCompute fuel g reference config = some (.ok r) ∧
        ((tryComputeLinear fuel g reference config = some (.ok r) ∧
            ∀ p, Expands (expand g) (seeded config initial) (.new config) p → ¬ Branches g config.maxPathLength p) ∨
          ((∃ e, tryComputeLinear fuel g reference config = some (.error e)) ∧
            ∃ p, Expands (expand g) (seeded config initial) (.new config) p ∧ Branches g config.maxPathLength p)) := by
  obtain ⟨K, hK⟩ := drain_ends g config initial
  refine ⟨K, fun fuel hfuel => ?_⟩
  obtain ⟨s, hs⟩ := hK fuel hfuel (.new config)
  refine ⟨finish g reference s, by simp only [tryCompute, hinitial, hs, Option.map_some], ?_⟩
  have hagree := @drain_follow _ _ (expand g) _ (advance g)
    (fun s => s.budget.maxPathLength = config.maxPathLength) (Branches g config.maxPathLength)
    (fun s p s' _ hexp => advance_of_stop hexp)
    (fun s p s' l hs hexp => (expand_spec hexp).1.length.trans hs)
    (fun s p s' l hs hexp hbranches => (advance_of_extend hexp).1 (by
      rw [(expand_spec hexp).2, hs]
      exact hbranches))
    (fun s p s' l hs hexp hlinear => (advance_of_extend hexp).2 (by
      rw [(expand_spec hexp).2, hs]
      exact Nat.le_of_lt_succ (Nat.lt_of_not_le hlinear)))
    config.order fuel 1 initial (.new config) s rfl hs
  obtain ⟨hrun, hnone⟩ | ⟨⟨e, hrun⟩, hsome⟩ := hagree
  · exact Or.inl ⟨by simp only [tryComputeLinear, hinitial, hrun, Option.map_some, Except.map], hnone⟩
  · exact Or.inr ⟨⟨e, by simp only [tryComputeLinear, hinitial, hrun, Option.map_some, Except.map]⟩, hsome⟩

end CfgLib.StackResolution

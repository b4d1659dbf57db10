import CfgLib.Graph.Stack.Search

/-!
# What an unbounded resolution shows

The complete paths that an unbounded search finds are those over edges taken once
each (`complete_unbounded`); of these the resolution shows the ones that no other one
shadows.  Shadowing compares the paths at every position, not only at the first
difference, so paths can hide each other.  It hides nothing without a visible reason
exactly when no path that is first in precedence is hidden (`paths_shadowing_iff`).
-/

namespace CfgLib

open CfgLib.Lib CfgLib.Store Relation List

variable {S : Type} [DecidableEq S]

/-- The well-formed paths of a reference that contain no stored edge twice. -/
inductive StackPath.From (g : StackGraph S) (reference : Nat) : StackPath S → Prop
  | start {path : StackPath S} : StackPath.fromReference g reference = .ok path → From g reference path
  | extend {path next : StackPath S} {edge : Nat} : From g reference path → edge ∈ g.outgoing path.endNode →
      path.containsEdge edge = false → path.append g edge = .ok next → From g reference next

def StackPath.Binds (g : StackGraph S) (reference : Nat) (path : StackPath S) : Prop :=
  StackPath.From g reference path ∧ path.isComplete g = true

namespace StackResolution

variable {g : StackGraph S} {reference : Nat}

/-! ## The filter -/

omit [DecidableEq S] in
theorem shadows_self (path : StackPath S) : path.shadows g path = false :=
  Lib.shadows_self path.steps

theorem mem_foldl_unique (complete unique : List (StackPath S)) (p : StackPath S) :
    p ∈ complete.foldl (fun unique path => if path ∈ unique then unique else unique ++ [path]) unique ↔
      p ∈ unique ∨ p ∈ complete := by
  induction complete generalizing unique with
  | nil => simp
  | cons path complete ih =>
    rw [foldl_cons, ih, mem_cons]
    split
    · next hmem =>
      constructor
      · exact Or.imp_right Or.inr
      · rintro (hp | rfl | hp)
        exacts [Or.inl hp, Or.inl hmem, Or.inr hp]
    · rw [mem_append, mem_singleton, or_assoc]

theorem mem_visible (complete : List (StackPath S)) (p : StackPath S) :
    p ∈ visible g complete ↔ p ∈ complete ∧ ∀ q ∈ complete, q.shadows g p = false := by
  unfold visible
  split
  · next hlen =>
    refine ⟨fun hp => ⟨hp, fun q hq => ?_⟩, And.left⟩
    -- At most one path: it is compared with itself.
    obtain rfl : q = p := by
      match complete, hlen with
      | [a], _ => rw [mem_singleton.mp hp, mem_singleton.mp hq]
    exact shadows_self q
  · simp [filter_zipIdx_others shadows_self, mem_foldl_unique]

/-! ## The complete paths of an unbounded search -/

/-- No bound is set. -/
structure Unbounded (s : SearchState S) : Prop where
  length : s.budget.maxPathLength = none
  count : s.budget.maxPathCount = none
  complete : s.budget.maxCompletePathCount = none

omit [DecidableEq S] in
theorem Unbounded.of_sameBounds {s s' : SearchState S} (h : Unbounded s)
    (hsame : PathBudget.SameBounds s.budget s'.budget) : Unbounded s' :=
  ⟨hsame.length.trans h.length, hsame.count.trans h.count, hsame.complete.trans h.complete⟩

def expanded (g : StackGraph S) (s : SearchState S) (path : StackPath S) : SearchState S :=
  match expand g s path with
  | .stop s' => s'
  | .extend s' _ => s'

omit [DecidableEq S] in
theorem complete_recordExtension {s : SearchState S} (h : s.budget.maxCompletePathCount = none)
    (next : StackPath S) : (s.recordExtension g next).complete = s.complete ++ [next].filter (·.isComplete g) := by
  have hadmit := PathBudget.admitComplete_fst_of_none h s.complete.length
  unfold SearchState.recordExtension SearchState.recordComplete
  split
  · next hcomplete =>
    generalize s.budget.admitComplete s.complete.length = admitted at *
    obtain ⟨admits, budget⟩ := admitted
    subst hadmit
    simp [hcomplete]
  · next hcomplete => simp [hcomplete]

theorem complete_extendEdge {s : SearchState S} (h : s.budget.maxCompletePathCount = none) (path : StackPath S)
    (successors : List (StackPath S)) (edge : Nat) :
    (extendEdge g path (s, successors) edge).1.complete =
      s.complete ++ (extension g s.budget.maxPathLength path edge).toList.filter (·.isComplete g) := by
  have hsame := PathBudget.sameBounds_admitLength s.budget (path.edgeCount + 1)
  have hfits := PathBudget.admitLength_fst s.budget (path.edgeCount + 1)
  unfold extendEdge extension
  by_cases hcut : path.containsEdge edge = true
  · simp [hcut]
  · simp only [hcut, Bool.false_eq_true, if_false]
    generalize s.budget.admitLength (path.edgeCount + 1) = admitted at *
    obtain ⟨fits, budget⟩ := admitted
    simp only at hsame hfits
    cases fits with
    | false => simp [← hfits]
    | true =>
      simp only [← hfits, if_true]
      cases path.append g edge with
      | error e => simp [Except.toOption]
      | ok next =>
        exact @complete_recordExtension _ g { s with budget := budget } (hsame.complete.trans h) next

theorem complete_foldl_extendEdge (path : StackPath S) (edges : List Nat) {s : SearchState S}
    (h : s.budget.maxCompletePathCount = none) (successors : List (StackPath S)) :
    (edges.foldl (extendEdge g path) (s, successors)).1.complete =
      s.complete ++ (edges.filterMap (extension g s.budget.maxPathLength path)).filter (·.isComplete g) := by
  induction edges generalizing s successors with
  | nil => simp
  | cons edge edges ih =>
    have hsame := (@extendEdge_spec _ _ g path s successors edge).1
    have hcomplete := @complete_extendEdge _ _ g s h path successors edge
    rw [foldl_cons]
    generalize extendEdge g path (s, successors) edge = found at *
    obtain ⟨s₁, l₁⟩ := found
    have hlength : s₁.budget.maxPathLength = s.budget.maxPathLength := hsame.length
    rw [ih (hsame.complete.trans h), hlength, show s₁.complete = _ from hcomplete, filterMap_cons, append_assoc]
    cases extension g s.budget.maxPathLength path edge with
    | none => rfl
    | some next => simp [filter_cons]; split <;> rfl

/-- An expansion without bounds is never stopped, and retains the complete extensions. -/
theorem expand_unbounded {s : SearchState S} (h : Unbounded s) (path : StackPath S) :
    expand g s path = .extend (expanded g s path) (extensions g none path) ∧ Unbounded (expanded g s path) ∧
      (expanded g s path).complete = s.complete ++ (extensions g none path).filter (·.isComplete g) := by
  have hadmit := PathBudget.admitExpansion_fst_of_none h.count
  have hsame := PathBudget.sameBounds_admitExpansion s.budget
  have hext : ∃ s' l, expand g s path = .extend s' l ∧
      s'.complete = s.complete ++ (extensions g none path).filter (·.isComplete g) := by
    unfold expand
    generalize s.budget.admitExpansion = admitted at *
    obtain ⟨admits, budget⟩ := admitted
    subst hadmit
    refine ⟨_, _, rfl, ?_⟩
    have hcomplete := @complete_foldl_extendEdge _ _ g path (g.outgoing path.endNode) { s with budget := budget }
      (hsame.complete.trans h.complete) []
    rw [hcomplete, show budget.maxPathLength = none from hsame.length.trans h.length]
    rfl
  obtain ⟨s', l, hexp, hcomplete⟩ := hext
  obtain ⟨hbounds, rfl⟩ := expand_spec hexp
  have hexpanded : expanded g s path = s' := by simp only [expanded, hexp]
  rw [h.length] at hexp
  rw [hexpanded]
  exact ⟨hexp, h.of_sameBounds hbounds, hcomplete⟩

theorem complete_foldl_expanded (visited : List (StackPath S)) {s : SearchState S} (h : Unbounded s) :
    (visited.foldl (expanded g) s).complete =
      s.complete ++ visited.flatMap fun path => (extensions g none path).filter (·.isComplete g) := by
  induction visited generalizing s with
  | nil => simp
  | cons path visited ih =>
    obtain ⟨_, hunbounded, hcomplete⟩ := @expand_unbounded _ _ g s h path
    rw [foldl_cons, ih hunbounded, hcomplete, flatMap_cons, append_assoc]

theorem from_iff_extensions {initial p : StackPath S} (hinitial : StackPath.fromReference g reference = .ok initial) :
    StackPath.From g reference p ↔ ReflTransGen (fun a b => b ∈ extensions g none a) initial p := by
  constructor
  · intro h
    induction h with
    | start h =>
      rw [hinitial] at h
      cases h
      exact .refl
    | extend _ hedge hfresh happend ih => exact .tail ih (mem_extensions.mpr ⟨_, hedge, hfresh, rfl, happend⟩)
  · intro h
    induction h with
    | refl => exact .start hinitial
    | tail _ hext ih =>
      obtain ⟨edge, hedge, hfresh, _, happend⟩ := mem_extensions.mp hext
      exact .extend ih hedge hfresh happend

/-- An unbounded search of a reference ends, and shows of its bindings those that none shadows. -/
theorem complete_unbounded {initial : StackPath S} (hinitial : StackPath.fromReference g reference = .ok initial)
    (order : SearchOrder) : ∃ K, ∀ fuel, K ≤ fuel → ∃ r complete,
      tryCompute fuel g reference (StackSearchConfig.new.withOrder order) = some (.ok r) ∧
        r.paths = visible g complete ∧ ∀ p, p ∈ complete ↔ p.Binds g reference := by
  obtain ⟨K, hK⟩ := drain_ends g (StackSearchConfig.new.withOrder order) initial
  refine ⟨K, fun fuel hfuel => ?_⟩
  obtain ⟨s, hs⟩ := hK fuel hfuel (.new (StackSearchConfig.new.withOrder order))
  have hunbounded : Unbounded (.new (StackSearchConfig.new.withOrder order) : SearchState S) := ⟨rfl, rfl, rfl⟩
  obtain ⟨visited, rfl, hvisited⟩ := drain_visits (I := Unbounded)
    (fun s p h => ⟨(@expand_unbounded _ _ g s h p).1, (@expand_unbounded _ _ g s h p).2.1⟩) hunbounded hs
  refine ⟨finish g reference (visited.foldl (expanded g) (.new (StackSearchConfig.new.withOrder order))), _,
    by simp only [tryCompute, hinitial, hs, Option.map_some], rfl, fun p => ?_⟩
  rw [complete_foldl_expanded visited hunbounded]
  have hqueue : (seeded (StackSearchConfig.new.withOrder order) initial).queue = [initial] := rfl
  simp only [hqueue, mem_singleton, exists_eq_left] at hvisited
  simp only [SearchState.new, nil_append, mem_flatMap, mem_filter, hvisited, StackPath.Binds,
    from_iff_extensions hinitial]
  constructor
  · rintro ⟨q, hq, hp, hcomplete⟩
    exact ⟨.tail hq hp, hcomplete⟩
  · rintro ⟨hp, hcomplete⟩
    obtain rfl | ⟨q, hq, hqp⟩ := hp.cases_tail
    · rw [StackPath.not_isComplete_fromReference hinitial] at hcomplete
      cases hcomplete
    · exact ⟨q, hq, hqp, hcomplete⟩

/-! ## When shadowing is sound -/

/-- For a reference with a binding: the resolution shows the bindings that none shadows; it shows
one, and one that shadows each hidden binding, exactly when no binding is hidden that is beaten
by none at the first difference of precedence. -/
theorem paths_shadowing_iff (g : StackGraph S) (reference : Nat) (order : SearchOrder)
    (hbinds : ∃ p, StackPath.Binds g reference p) : ∃ K, ∀ fuel, K ≤ fuel → ∃ r,
      tryCompute fuel g reference (StackSearchConfig.new.withOrder order) = some (.ok r) ∧
        (∀ p : StackPath S, p ∈ r.paths ↔
          p.Binds g reference ∧ ∀ q : StackPath S, q.Binds g reference → q.shadows g p = false) ∧
        ((r.paths ≠ [] ∧ ∀ p : StackPath S, p.Binds g reference → p ∉ r.paths → ∃ v ∈ r.paths, v.shadows g p = true) ↔
          ∀ p : StackPath S, p.Binds g reference → (∀ q : StackPath S, q.Binds g reference → ¬ q.Beats g p) →
            ∀ q : StackPath S, q.Binds g reference → q.shadows g p = false) := by
  obtain ⟨p₀, hp₀⟩ := hbinds
  obtain ⟨initial, hinitial⟩ : ∃ initial, StackPath.fromReference g reference = .ok initial := by
    have hfrom := hp₀.1
    clear hp₀
    induction hfrom with
    | start h => exact ⟨_, h⟩
    | extend _ _ _ _ ih => exact ih
  obtain ⟨K, hK⟩ := complete_unbounded hinitial order
  refine ⟨K, fun fuel hfuel => ?_⟩
  obtain ⟨r, complete, hrun, hpaths, hcomplete⟩ := hK fuel hfuel
  have hmem : ∀ p, p ∈ r.paths ↔ p ∈ complete ∧ ∀ q ∈ complete, q.shadows g p = false := by
    intro p
    rw [hpaths]
    exact mem_visible complete p
  refine ⟨r, hrun, fun p => by simp only [hmem, hcomplete], ?_⟩
  have hne : complete ≠ [] := ne_nil_of_mem ((hcomplete p₀).mpr hp₀)
  have hsound := @shadowing_sound_iff _ (fun p q : StackPath S => p.shadows g q = true) (fun p q => p.Beats g q)
    (fun p => not_beats_self p.steps) (fun _ _ _ => Beats.trans) (fun _ _ => Beats.shadows)
    (fun _ _ => beats_or_shadows) complete hne
  simp only [Bool.not_eq_true] at hsound
  simp only [← hcomplete]
  rw [← hsound]
  refine and_congr ?_ ?_
  · simp only [← hmem]
    exact ⟨exists_mem_of_ne_nil _, fun ⟨_, hp⟩ => ne_nil_of_mem hp⟩
  · refine forall_congr' fun p => forall_congr' fun hp => ?_
    simp only [hmem, hp, true_and, not_forall, exists_prop, Bool.not_eq_false, and_assoc]

/-- A reference, a scope with two edges to itself, and a definition, beside the singletons. -/
def twoLoops : StackGraph Unit where
  graph := .ofParts [.root, .jumpToScope, .pushSymbol () true, .scope false, .popSymbol () true]
    [⟨2, 3, ⟨0⟩⟩, ⟨3, 3, ⟨1⟩⟩, ⟨3, 3, ⟨0⟩⟩, ⟨3, 4, ⟨0⟩⟩]
  wf := Naive.wf_ofParts _ _

theorem binds_twoLoops : StackPath.Binds twoLoops 2 ⟨2, 4, [], [], [.edge 0, .edge 3], 2⟩ := by
  have hstart : StackPath.From twoLoops 2 ⟨2, 2, [⟨(), none⟩], [], [], 0⟩ := .start (by decide)
  have hscope : StackPath.From twoLoops 2 ⟨2, 3, [⟨(), none⟩], [], [.edge 0], 1⟩ :=
    .extend hstart (by decide : 0 ∈ _) (by decide) (by decide)
  exact ⟨.extend hscope (by decide : 3 ∈ _) (by decide) (by decide), by decide⟩

/-- Its five bindings take the two loops in all orders, and each is hidden by another one. -/
theorem paths_twoLoops : (∃ p, StackPath.Binds twoLoops 2 p) ∧
    ∃ r, tryCompute 20 twoLoops 2 .new = some (.ok r) ∧ r.stats.completePathCount = 5 ∧ r.paths = [] := by
  refine ⟨⟨_, binds_twoLoops⟩, ?_⟩
  have hrun : (tryCompute 20 twoLoops 2 .new).bind Except.toOption =
      some ⟨2, [], ⟨11, 5, 0, 6, false, false, false⟩⟩ := rfl
  cases hresult : tryCompute 20 twoLoops 2 .new with
  | none => rw [hresult] at hrun; cases hrun
  | some outcome =>
    cases outcome with
    | error e => rw [hresult] at hrun; cases hrun
    | ok r =>
      rw [hresult] at hrun
      cases hrun
      exact ⟨_, rfl, rfl, rfl⟩

theorem paths_shadowing_iff_twoLoops : ∃ K, ∀ fuel, K ≤ fuel → ∃ r,
    tryCompute fuel twoLoops 2 StackSearchConfig.new = some (.ok r) ∧
      ∀ p ∈ r.paths, p.Binds twoLoops 2 := by
  obtain ⟨K, hK⟩ := paths_shadowing_iff twoLoops 2 .breadthFirst ⟨_, binds_twoLoops⟩
  refine ⟨K, fun fuel hfuel => ?_⟩
  obtain ⟨r, hrun, hpaths, _⟩ := hK fuel hfuel
  exact ⟨r, hrun, fun p hp => ((hpaths p).mp hp).1⟩

end StackResolution

end CfgLib

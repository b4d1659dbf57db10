import CfgLib.Graph.Scope.Query
import CfgLib.Lib.Fold
import CfgLib.Lib.MapM
import CfgLib.Lib.Shadowing

/-!
# What an unbounded scope resolution shows

An unbounded search visits the admissible cycle-free paths level by level and records
every accepted pair.  Where the comparison of labels is a partial order, shadowing is a
strict order on the pairs (`Standard.shadows_trans`), so the resolution shows the pairs
that no other one shadows, and each pair left out is shadowed by one that is shown
(`candidates_minimal`).  The reverse index lists the references of each datum.
-/

namespace CfgLib

open CfgLib.Lib CfgLib.Store Relation List

/-! ## The reverse index -/

structure ScopeResolutionIndex where
  resolutions : List ScopeResolution
  referencesByDatum : List (List Nat)

namespace ScopeResolution

variable {S L R D Q State : Type}

/-- A stored reference as a query input; `none` is the panic on an unknown one. -/
def fromReference (g : ScopeGraph S L R D Q) (reference : Nat) : Option (ScopeQuery Q) :=
  (g.references[reference]?).map fun stored => ⟨stored.scope, stored.data, some reference⟩

def compute (fuel : Nat) (g : ScopeGraph S L R D Q) (reference : Nat) (query : ScopeGraphQuery S L R D Q State)
    (config : ScopeResolutionConfig) : Option ScopeResolution :=
  (fromReference g reference).bind fun input => computeQuery fuel g input query config

end ScopeResolution

namespace ScopeResolutionIndex

variable {S L R D Q State : Type}

/-- Push a reference to the row of a datum seen for the first time; `none` is the panic on a
datum beyond the rows. -/
def addCandidate (reference : Nat) (found : List (List Nat) × List Nat) (candidate : ScopeResolutionCandidate) :
    Option (List (List Nat) × List Nat) :=
  if candidate.datum ∈ found.2 then some found
  else if candidate.datum < found.1.length then
    some (found.1.modify candidate.datum (· ++ [reference]), found.2 ++ [candidate.datum])
  else none

def addReference (rows : List (List Nat)) (resolved : Nat × ScopeResolution) : Option (List (List Nat)) :=
  (resolved.2.candidates.foldlM (addCandidate resolved.1) (rows, [])).map (·.1)

/-- Resolve every reference and build the reverse index. -/
def compute (fuel : Nat) (g : ScopeGraph S L R D Q) (query : ScopeGraphQuery S L R D Q State)
    (config : ScopeResolutionConfig) : Option ScopeResolutionIndex :=
  ((List.range g.references.length).mapM fun reference =>
    ScopeResolution.compute fuel g reference query config).bind fun resolutions =>
      (((List.range g.references.length).zip resolutions).foldlM addReference
        (List.replicate g.data.length [])).map fun rows => ⟨resolutions, rows⟩

def referencesTo (index : ScopeResolutionIndex) (datum : Nat) : Option (List Nat) :=
  index.referencesByDatum[datum]?

def Shows (resolution : ScopeResolution) (datum : Nat) : Prop :=
  ∃ candidate ∈ resolution.candidates, candidate.datum = datum

instance (resolution : ScopeResolution) (datum : Nat) : Decidable (Shows resolution datum) :=
  inferInstanceAs (Decidable (∃ candidate ∈ resolution.candidates, candidate.datum = datum))

structure Pushed (rows : List (List Nat)) (reference : Nat) (done : List ScopeResolutionCandidate)
    (found : List (List Nat) × List Nat) : Prop where
  length : found.1.length = rows.length
  rows : ∀ datum : Nat, found.1[datum]? = (rows[datum]?).map fun row =>
    if datum ∈ found.2 then row ++ [reference] else row
  seen : ∀ datum, datum ∈ found.2 ↔ ∃ candidate ∈ done, candidate.datum = datum

theorem Pushed.start (rows : List (List Nat)) (reference : Nat) : Pushed rows reference [] (rows, []) :=
  ⟨rfl, by simp, by simp⟩

theorem Pushed.addCandidate {rows : List (List Nat)} {reference : Nat} {done : List ScopeResolutionCandidate}
    {found : List (List Nat) × List Nat} (h : Pushed rows reference done found)
    {candidate : ScopeResolutionCandidate} (hlt : candidate.datum < rows.length) : ∃ found',
      addCandidate reference found candidate = some found' ∧
        Pushed rows reference (done ++ [candidate]) found' := by
  have hdone : ∀ datum, (∃ c ∈ done ++ [candidate], c.datum = datum) ↔
      datum ∈ found.2 ∨ datum = candidate.datum := by
    intro datum
    rw [h.seen]
    simp only [mem_append, mem_singleton, or_and_right, exists_or, exists_eq_left]
    exact or_congr_right eq_comm
  unfold ScopeResolutionIndex.addCandidate
  by_cases hmem : candidate.datum ∈ found.2
  · refine ⟨_, if_pos hmem, h.length, h.rows, fun datum => ?_⟩
    rw [hdone]
    exact ⟨Or.inl, fun hd => hd.elim id fun heq => heq ▸ hmem⟩
  · refine ⟨_, by rw [if_neg hmem, if_pos (h.length ▸ hlt)], by simpa using h.length, fun datum => ?_, fun datum => ?_⟩
    · simp only [getElem?_modify, mem_append, mem_singleton]
      rw [h.rows]
      cases rows[datum]? with
      | none => rfl
      | some row =>
        by_cases heq : candidate.datum = datum
        · subst heq
          simp [hmem]
        · simp [heq, Ne.symm heq]
    · rw [hdone, mem_append, mem_singleton]

theorem addReference_spec {rows : List (List Nat)} {reference : Nat} {resolution : ScopeResolution}
    (hlt : ∀ candidate ∈ resolution.candidates, candidate.datum < rows.length) : ∃ rows',
      addReference rows (reference, resolution) = some rows' ∧ rows'.length = rows.length ∧
        ∀ datum, rows'[datum]? = (rows[datum]?).map fun row =>
          if Shows resolution datum then row ++ [reference] else row := by
  have hstep : ∀ (done : List ScopeResolutionCandidate) (candidate : ScopeResolutionCandidate) rest
      (found : List (List Nat) × List Nat), resolution.candidates = done ++ candidate :: rest →
      Pushed rows reference done found → ∃ found', addCandidate reference found candidate = some found' ∧
        Pushed rows reference (done ++ [candidate]) found' := by
    intro done candidate rest found hsplit h
    exact h.addCandidate (hlt candidate (by rw [hsplit]; simp))
  obtain ⟨⟨rows', seen⟩, hrun, h⟩ := foldlM_option_total hstep (Pushed.start rows reference)
  refine ⟨rows', by simp only [addReference, hrun, Option.map_some], h.length, fun datum => ?_⟩
  rw [h.rows]
  congr 1
  funext row
  exact if_congr (h.seen datum) rfl rfl

theorem foldlM_addReference (resolved : List (Nat × ScopeResolution)) {rows : List (List Nat)}
    (hlt : ∀ r ∈ resolved, ∀ candidate ∈ r.2.candidates, candidate.datum < rows.length) : ∃ rows',
      resolved.foldlM addReference rows = some rows' ∧
        ∀ datum, rows'[datum]? = (rows[datum]?).map fun row =>
          row ++ (resolved.filter fun r => Shows r.2 datum).map (·.1) := by
  induction resolved generalizing rows with
  | nil => exact ⟨rows, rfl, fun datum => by simp⟩
  | cons r resolved ih =>
    obtain ⟨mid, hmid, hlen, hpushed⟩ := @addReference_spec rows r.1 r.2 (hlt r mem_cons_self)
    obtain ⟨rows', hrun, hrows⟩ := @ih mid fun r' hr' candidate hc => by
      rw [hlen]
      exact hlt r' (mem_cons_of_mem r hr') candidate hc
    refine ⟨rows', by rw [foldlM_cons, hmid]; exact hrun, fun datum => ?_⟩
    rw [hrows, hpushed, Option.map_map]
    congr 1
    funext row
    by_cases hshows : Shows r.2 datum <;> simp [hshows]

end ScopeResolutionIndex

/-! ## Shadowing as an order -/

/-- A partial order on extended labels, with equality a congruence. -/
structure LabelOrder {L : Type} (compare : ScopeGraphPathLabel L → ScopeGraphPathLabel L → Option Ordering) :
    Prop where
  refl : ∀ a, compare a a = some .eq
  lt_trans : ∀ a b c, compare a b = some .lt → compare b c = some .lt → compare a c = some .lt
  eq_left : ∀ a b c, compare a b = some .eq → compare a c = compare b c
  eq_right : ∀ a b c, compare a b = some .eq → compare c a = compare c b

namespace LabelOrder

variable {L : Type} {compare : ScopeGraphPathLabel L → ScopeGraphPathLabel L → Option Ordering}

theorem shadows_nil : labelWordShadows compare [] [] = (compare .declaration .declaration == some .lt) := rfl

theorem shadows_step (a b : L) (left right : List L) : labelWordShadows compare (a :: left) (b :: right) =
    match compare (.edge a) (.edge b) with
    | some .lt => true
    | some .gt | none => false
    | some .eq => labelWordShadows compare left right := rfl

theorem not_shadows_self (h : LabelOrder compare) (word : List L) : labelWordShadows compare word word = false := by
  induction word with
  | nil => simp [shadows_nil, h.refl]
  | cons a word ih => simp [shadows_step, h.refl, ih]

theorem shadows_cons {a b : L} {left right : List L} :
    labelWordShadows compare (a :: left) (b :: right) = true ↔
      compare (.edge a) (.edge b) = some .lt ∨
        compare (.edge a) (.edge b) = some .eq ∧ labelWordShadows compare left right = true := by
  rw [shadows_step]
  cases compare (.edge a) (.edge b) with
  | none => simp
  | some o => cases o <;> simp

/-- By induction on the first word, over which of the words end. -/
theorem shadows_trans (h : LabelOrder compare) {left mid right : List L}
    (hleft : labelWordShadows compare left mid = true) (hright : labelWordShadows compare mid right = true) :
    labelWordShadows compare left right = true := by
  have hirrefl : ∀ a, compare a a ≠ some .lt := fun a hlt => by simp [h.refl] at hlt
  induction left generalizing mid right with
  | nil =>
    cases mid with
    | nil => exact absurd (by simpa [labelWordShadows] using hleft) (hirrefl _)
    | cons b mid =>
      have hb : compare .declaration (.edge b) = some .lt := by simpa [labelWordShadows] using hleft
      cases right with
      | nil =>
        have hb' : compare (.edge b) .declaration = some .lt := by simpa [labelWordShadows] using hright
        exact absurd (h.lt_trans _ _ _ hb hb') (hirrefl _)
      | cons c right =>
        have hc : compare .declaration (.edge c) = some .lt := by
          obtain hlt | ⟨heq, _⟩ := shadows_cons.mp hright
          · exact h.lt_trans _ _ _ hb hlt
          · rw [← h.eq_right _ _ _ heq]
            exact hb
        simp [labelWordShadows, hc]
  | cons a left ih =>
    cases mid with
    | nil =>
      have ha : compare (.edge a) .declaration = some .lt := by simpa [labelWordShadows] using hleft
      cases right with
      | nil => exact absurd (by simpa [labelWordShadows] using hright) (hirrefl .declaration)
      | cons c right =>
        have hc : compare .declaration (.edge c) = some .lt := by simpa [labelWordShadows] using hright
        exact shadows_cons.mpr (Or.inl (h.lt_trans _ _ _ ha hc))
    | cons b mid =>
      obtain hab | ⟨hab, hleft⟩ := shadows_cons.mp hleft
      · cases right with
        | nil =>
          have hb : compare (.edge b) .declaration = some .lt := by simpa [labelWordShadows] using hright
          simp [labelWordShadows, h.lt_trans _ _ _ hab hb]
        | cons c right =>
          refine shadows_cons.mpr (Or.inl ?_)
          obtain hbc | ⟨hbc, _⟩ := shadows_cons.mp hright
          · exact h.lt_trans _ _ _ hab hbc
          · rw [← h.eq_right _ _ _ hbc]
            exact hab
      · cases right with
        | nil =>
          have hb : compare (.edge b) .declaration = some .lt := by simpa [labelWordShadows] using hright
          simp [labelWordShadows, h.eq_left _ _ _ hab, hb]
        | cons c right =>
          rw [shadows_cons, h.eq_left _ _ _ hab]
          obtain hbc | ⟨hbc, hright⟩ := shadows_cons.mp hright
          · exact Or.inl hbc
          · exact Or.inr ⟨hbc, ih hleft hright⟩

end LabelOrder

/-- A query whose labels are partially ordered, whose shadowing is the default one, with a
transitive comparison of data (the default accepts all data), and which accepts data of the
graph. -/
structure ScopeGraphQuery.Standard {S L R D Q State : Type} (query : ScopeGraphQuery S L R D Q State)
    (g : ScopeGraph S L R D Q) : Prop where
  order : ∀ input, LabelOrder (query.compareLabels g input)
  shadows_eq : ∀ input left leftDatum right rightDatum, query.shadows g input left leftDatum right rightDatum =
    (labelWordShadows (query.compareLabels g input) (left.edges.filterMap fun e => (g.graph.edge e).map (·.payload))
        (right.edges.filterMap fun e => (g.graph.edge e).map (·.payload)) &&
      query.dataLeq g input leftDatum rightDatum)
  leq_trans : ∀ input a b c, query.dataLeq g input a b = true → query.dataLeq g input b c = true →
    query.dataLeq g input a c = true
  accepted_lt : ∀ input path state, ∀ datum ∈ query.visitAcceptedData g input path state, datum < g.data.length

namespace ScopeResolution

variable {S L R D Q State : Type} {g : ScopeGraph S L R D Q} {input : ScopeQuery Q}
  {query : ScopeGraphQuery S L R D Q State}

def candidateShadows (g : ScopeGraph S L R D Q) (input : ScopeQuery Q) (query : ScopeGraphQuery S L R D Q State)
    (left right : ScopeResolutionCandidate) : Bool :=
  query.shadows g input left.path left.datum right.path right.datum

theorem candidateShadows_self (h : query.Standard g) (c : ScopeResolutionCandidate) :
    candidateShadows g input query c c = false := by
  rw [candidateShadows, h.shadows_eq, (h.order input).not_shadows_self, Bool.false_and]

theorem candidateShadows_trans (h : query.Standard g) {a b c : ScopeResolutionCandidate}
    (hab : candidateShadows g input query a b = true) (hbc : candidateShadows g input query b c = true) :
    candidateShadows g input query a c = true := by
  rw [candidateShadows, h.shadows_eq, Bool.and_eq_true] at *
  exact ⟨(h.order input).shadows_trans hab.1 hbc.1, h.leq_trans _ _ _ _ hab.2 hbc.2⟩

theorem visibleCandidates_eq (h : query.Standard g) (reachable : List ScopeResolutionCandidate) :
    visibleCandidates g input query reachable =
      reachable.filter fun c => !reachable.any fun other => candidateShadows g input query other c := by
  unfold visibleCandidates
  split
  · next hlen =>
    match reachable, hlen with
    | [], _ => rfl
    | [c], _ => simp [candidateShadows_self h]
  · exact filter_zipIdx_others (candidateShadows_self h) reachable

/-! ## The search without bounds -/

/-- The prefixes over admitted edges that repeat no scope, from the query's scope. -/
inductive Admissible (g : ScopeGraph S L R D Q) (input : ScopeQuery Q) (query : ScopeGraphQuery S L R D Q State) :
    ScopeWork State → Prop
  | seed : Admissible g input query ⟨.new input.scope, query.initialState g input⟩
  | step {work : ScopeWork State} {edgeId : Nat} {edge : EdgeRecord L} {nextState : State} :
      Admissible g input query work →
      query.shouldExtend g input work.path work.state
        (query.visitAcceptedData g input work.path work.state).length = true →
      edgeId ∈ g.graph.lists .outgoing work.path.endScope → g.graph.edge edgeId = some edge →
      work.path.containsScope edge.target = false →
      query.step g input work.path work.state edgeId edge = some nextState →
      Admissible g input query ⟨work.path.extended edgeId edge.target, nextState⟩

def Accepted (g : ScopeGraph S L R D Q) (input : ScopeQuery Q) (query : ScopeGraphQuery S L R D Q State)
    (candidate : ScopeResolutionCandidate) : Prop :=
  ∃ work, Admissible g input query work ∧ candidate.path = work.path ∧
    candidate.datum ∈ query.visitAcceptedData g input work.path work.state

/-- The accepted pairs level by level: shorter paths first, and at each length the paths in the
order of their prefixes and edges. -/
def discovered (g : ScopeGraph S L R D Q) (input : ScopeQuery Q) (query : ScopeGraphQuery S L R D Q State) :
    List ScopeResolutionCandidate :=
  (levels (extensions g input query none) (g.graph.nodes.length + 1) [seed g input query]).flatMap
    (acceptedAt g input query)

theorem admissible_iff {work : ScopeWork State} : Admissible g input query work ↔
    ReflTransGen (fun a b => b ∈ extensions g input query none a) (seed g input query) work := by
  constructor
  · intro h
    induction h with
    | seed => exact .refl
    | step _ hextend hedge hlive hfresh hstep ih =>
      exact .tail ih (mem_extensions.mpr ⟨hextend, rfl, _, hedge, _, hlive, hfresh, hstep, rfl⟩)
  · intro h
    induction h with
    | refl => exact .seed
    | @tail b c _ hext ih =>
      obtain ⟨hextend, _, edgeId, hedge, edge, hlive, hfresh, hstep, hpath⟩ := mem_extensions.mp hext
      obtain ⟨path, state⟩ := c
      obtain rfl : path = _ := hpath
      exact .step ih hextend hedge hlive hfresh hstep

theorem unvisited_seed_lt (g : ScopeGraph S L R D Q) (work : ScopeWork State) :
    unvisited g work < g.graph.nodes.length + 1 := by
  have hle := length_filter_le (fun scope => !work.path.containsScope scope) (List.range g.graph.nodes.length)
  rw [length_range] at hle
  exact Nat.lt_succ_of_le hle

theorem mem_discovered {candidate : ScopeResolutionCandidate} :
    candidate ∈ discovered g input query ↔ Accepted g input query candidate := by
  have hlevel : ∀ p ∈ [seed g input query], unvisited g p < g.graph.nodes.length + 1 :=
    fun p _ => unvisited_seed_lt g p
  simp only [discovered, mem_flatMap, mem_levels (fun p q hq => unvisited_lt hq) hlevel, mem_singleton,
    exists_eq_left, ← admissible_iff, Accepted, acceptedAt, mem_map]
  constructor
  · rintro ⟨work, hwork, datum, hdatum, rfl⟩
    exact ⟨work, hwork, rfl, hdatum⟩
  · rintro ⟨work, hwork, hpath, hdatum⟩
    exact ⟨work, hwork, candidate.datum, hdatum, by rw [← hpath]⟩

def expanded (g : ScopeGraph S L R D Q) (input : ScopeQuery Q) (query : ScopeGraphQuery S L R D Q State)
    (s : ScopeSearch) (work : ScopeWork State) : ScopeSearch :=
  match expand g input query s work with
  | .stop s' => s'
  | .extend s' _ => s'

def Unbounded (s : ScopeSearch) : Prop := s.budget.maxPathLength = none ∧ s.budget.maxPathCount = none

theorem expand_unbounded {s : ScopeSearch} (h : Unbounded s) (work : ScopeWork State) :
    expand g input query s work = .extend (expanded g input query s work) (extensions g input query none work) ∧
      Unbounded (expanded g input query s work) ∧
      (expanded g input query s work).reachable = s.reachable ++ acceptedAt g input query work := by
  obtain ⟨s', l, hexp⟩ : ∃ s' l, expand g input query s work = .extend s' l := by
    have hadmit := PathBudget.admitExpansion_fst_of_none h.2
    unfold expand
    generalize s.budget.admitExpansion = admitted at *
    obtain ⟨admits, budget⟩ := admitted
    subst hadmit
    simp only
    split
    · exact ⟨_, _, rfl⟩
    · exact ⟨_, _, rfl⟩
  obtain ⟨hbounds, hreach, rfl⟩ := expand_spec hexp
  have hexpanded : expanded g input query s work = s' := by simp only [expanded, hexp]
  rw [h.1] at hexp
  rw [hexpanded]
  exact ⟨hexp, ⟨hbounds.length.trans h.1, hbounds.count.trans h.2⟩, hreach⟩

theorem reachable_foldl_expanded (visited : List (ScopeWork State)) {s : ScopeSearch} (h : Unbounded s) :
    (visited.foldl (expanded g input query) s).reachable = s.reachable ++ visited.flatMap (acceptedAt g input query) := by
  induction visited generalizing s with
  | nil => simp
  | cons work visited ih =>
    obtain ⟨_, hunbounded, hreach⟩ := @expand_unbounded _ _ _ _ _ _ g input query s h work
    rw [foldl_cons, ih hunbounded, hreach, flatMap_cons, append_assoc]

theorem computeQuery_unbounded (g : ScopeGraph S L R D Q) (input : ScopeQuery Q)
    (query : ScopeGraphQuery S L R D Q State) : ∃ K, ∀ fuel, K ≤ fuel → ∃ r,
      computeQuery fuel g input query .new = some r ∧
        r.candidates = visibleCandidates g input query (discovered g input query) := by
  obtain ⟨K, hK⟩ := drain_ends g input query
  refine ⟨K, fun fuel hfuel => ?_⟩
  obtain ⟨s, hs⟩ := hK fuel hfuel ⟨ScopeResolutionConfig.new.budget, []⟩
  have hunbounded : Unbounded ⟨ScopeResolutionConfig.new.budget, []⟩ := ⟨rfl, rfl⟩
  refine ⟨finish g input query s, by simp only [computeQuery, hs, Option.map_some], ?_⟩
  have hvisited := drain_levels
    (fun s work h => ⟨(@expand_unbounded _ _ _ _ _ _ g input query s h work).1,
      (@expand_unbounded _ _ _ _ _ _ g input query s h work).2.1⟩)
    (fun p q hq => unvisited_lt hq) (fun p _ => unvisited_seed_lt g p) hunbounded hs
  have hreach : s.reachable = discovered g input query := by
    rw [hvisited, reachable_foldl_expanded _ hunbounded]
    rfl
  rw [finish, hreach]

/-- The candidates of a standard query are the accepted pairs that none shadows, in breadth-first
order; every other accepted pair is shadowed by one of them. -/
theorem candidates_spec (h : query.Standard g) (input : ScopeQuery Q) : ∃ K, ∀ fuel, K ≤ fuel → ∃ r,
    computeQuery fuel g input query .new = some r ∧
      r.candidates = (discovered g input query).filter (fun c =>
        !(discovered g input query).any fun other => candidateShadows g input query other c) ∧
      (∀ c, c ∈ discovered g input query ↔ Accepted g input query c) ∧
      ∀ c, Accepted g input query c → c ∉ r.candidates →
        ∃ v ∈ r.candidates, candidateShadows g input query v c = true := by
  obtain ⟨K, hK⟩ := computeQuery_unbounded g input query
  refine ⟨K, fun fuel hfuel => ?_⟩
  obtain ⟨r, hrun, hcandidates⟩ := hK fuel hfuel
  rw [visibleCandidates_eq h] at hcandidates
  refine ⟨r, hrun, hcandidates, fun c => mem_discovered, fun c hc hhidden => ?_⟩
  have hmem := mem_discovered.mpr hc
  obtain ⟨v, hv, hvc, hunbeaten⟩ := exists_unbeaten (R := fun a b => candidateShadows g input query a b = true)
    (fun a ha => by simp [candidateShadows_self h] at ha) (fun _ _ _ => candidateShadows_trans h) hmem
  have hvisible : v ∈ r.candidates := by
    rw [hcandidates, mem_filter]
    refine ⟨hv, ?_⟩
    simpa using hunbeaten
  obtain rfl | hvc := hvc
  · exact absurd hvisible hhidden
  · exact ⟨v, hvisible, hvc⟩

end ScopeResolution

/-! ## The whole index -/

namespace ScopeResolutionIndex

variable {S L R D Q State : Type} {g : ScopeGraph S L R D Q} {query : ScopeGraphQuery S L R D Q State}

/-- Every stored reference is resolved with enough fuel, the same for all of them. -/
theorem exists_resolutions (g : ScopeGraph S L R D Q) (query : ScopeGraphQuery S L R D Q State) :
    ∃ K, ∀ fuel, K ≤ fuel → ∀ reference < g.references.length, ∃ input r,
      ScopeResolution.fromReference g reference = some input ∧
        ScopeResolution.computeQuery fuel g input query .new = some r ∧
        r.candidates = ScopeResolution.visibleCandidates g input query (ScopeResolution.discovered g input query) := by
  have hone : ∀ reference : Nat, ∃ K, reference < g.references.length → ∀ fuel, K ≤ fuel → ∃ input r,
      ScopeResolution.fromReference g reference = some input ∧
        ScopeResolution.computeQuery fuel g input query .new = some r ∧
        r.candidates = ScopeResolution.visibleCandidates g input query (ScopeResolution.discovered g input query) := by
    intro reference
    by_cases hlt : reference < g.references.length
    · obtain ⟨K, hK⟩ := ScopeResolution.computeQuery_unbounded g
        ⟨g.references[reference].scope, g.references[reference].data, some reference⟩ query
      refine ⟨K, fun _ fuel hfuel => ?_⟩
      obtain ⟨r, hrun, hcandidates⟩ := hK fuel hfuel
      exact ⟨_, r, by simp [ScopeResolution.fromReference, hlt], hrun, hcandidates⟩
    · exact ⟨0, fun hlt' => absurd hlt' hlt⟩
  choose K hK using hone
  refine ⟨(List.range g.references.length).foldr (fun reference k => max (K reference) k) 0,
    fun fuel hfuel reference hlt => hK reference hlt fuel (Nat.le_trans ?_ hfuel)⟩
  have hle : ∀ l : List Nat, reference ∈ l → K reference ≤ l.foldr (fun reference k => max (K reference) k) 0 := by
    intro l
    induction l with
    | nil => intro hmem; cases hmem
    | cons a l ih =>
      intro hmem
      obtain rfl | hmem := mem_cons.mp hmem
      · exact Nat.le_max_left _ _
      · exact (ih hmem).trans (Nat.le_max_right _ _)
  exact hle _ (mem_range.mpr hlt)

theorem referencesTo_spec (h : query.Standard g) : ∃ K, ∀ fuel, K ≤ fuel → ∃ index,
    compute fuel g query .new = some index ∧ ∀ datum < g.data.length, ∃ row,
      index.referencesTo datum = some row ∧ row.Pairwise (· < ·) ∧
        ∀ reference, reference ∈ row ↔ ∃ input r, ScopeResolution.fromReference g reference = some input ∧
          ScopeResolution.computeQuery fuel g input query .new = some r ∧ Shows r datum := by
  obtain ⟨K, hK⟩ := exists_resolutions g query
  refine ⟨K, fun fuel hfuel => ?_⟩
  have hresolved : ∀ reference, ∃ r, reference < g.references.length → ∃ input,
      ScopeResolution.fromReference g reference = some input ∧
        ScopeResolution.computeQuery fuel g input query .new = some r ∧
        ∀ candidate ∈ r.candidates, candidate.datum < g.data.length := by
    intro reference
    by_cases hlt : reference < g.references.length
    · obtain ⟨input, r, hinput, hrun, hcandidates⟩ := hK fuel hfuel reference hlt
      refine ⟨r, fun _ => ⟨input, hinput, hrun, fun candidate hc => ?_⟩⟩
      rw [hcandidates, ScopeResolution.visibleCandidates_eq h] at hc
      obtain ⟨work, _, _, hdatum⟩ := ScopeResolution.mem_discovered.mp (mem_filter.mp hc).1
      exact h.accepted_lt input work.path work.state _ hdatum
    · exact ⟨⟨0, none, [], ⟨0, 0, false, false⟩⟩, fun hlt' => absurd hlt' hlt⟩
  choose resolution hresolution using hresolved
  have hmap : ((List.range g.references.length).mapM fun reference =>
      ScopeResolution.compute fuel g reference query .new) =
        some ((List.range g.references.length).map resolution) := by
    apply mapM_option_some
    intro reference hreference
    obtain ⟨input, hinput, hrun, _⟩ := hresolution reference (mem_range.mp hreference)
    rw [ScopeResolution.compute, hinput]
    exact hrun
  have hzip : (List.range g.references.length).zip ((List.range g.references.length).map resolution) =
      (List.range g.references.length).map fun reference => (reference, resolution reference) := by
    rw [← map_id (List.range g.references.length), List.map_map, zip_map', List.map_map]
    rfl
  obtain ⟨rows, hrows, hpushed⟩ := @foldlM_addReference
    ((List.range g.references.length).map fun reference => (reference, resolution reference))
    (List.replicate g.data.length []) (by
      intro r hr candidate hc
      obtain ⟨reference, hreference, rfl⟩ := mem_map.mp hr
      obtain ⟨_, _, _, hlt⟩ := hresolution reference (mem_range.mp hreference)
      rw [length_replicate]
      exact hlt candidate hc)
  refine ⟨⟨(List.range g.references.length).map resolution, rows⟩,
    by simp only [compute, hmap, Option.bind_some, hzip, hrows, Option.map_some], fun datum hdatum => ?_⟩
  refine ⟨(List.range g.references.length).filter fun reference => Shows (resolution reference) datum, ?_, ?_, ?_⟩
  · rw [referencesTo, hpushed, getElem?_replicate, if_pos hdatum, Option.map_some, nil_append,
      filter_map, List.map_map]
    simp [Function.comp_def]
  · exact List.Pairwise.filter _ pairwise_lt_range
  · intro reference
    rw [mem_filter, mem_range, decide_eq_true_eq]
    constructor
    · rintro ⟨hlt, hshows⟩
      obtain ⟨input, hinput, hrun, _⟩ := hresolution reference hlt
      exact ⟨input, _, hinput, hrun, hshows⟩
    · rintro ⟨input, r, hinput, hrun, hshows⟩
      have hlt : reference < g.references.length := by
        obtain ⟨stored, hstored, _⟩ := Option.map_eq_some_iff.mp hinput
        exact (List.getElem?_eq_some_iff.mp hstored).1
      obtain ⟨input', hinput', hrun', _⟩ := hresolution reference hlt
      rw [hinput] at hinput'
      cases hinput'
      rw [hrun] at hrun'
      cases hrun'
      exact ⟨hlt, hshows⟩

/-- For every scope graph and standard query: the candidates of each input are the accepted pairs
over all admissible paths that none shadows, in breadth-first order, and shadow every other
accepted pair; the row of each datum lists the references that show it, once each and in order. -/
theorem candidates_minimal {S L R D Q State : Type} (g : ScopeGraph S L R D Q)
    (query : ScopeGraphQuery S L R D Q State) (h : query.Standard g) :
    (∀ input, ∃ K, ∀ fuel, K ≤ fuel → ∃ r, ScopeResolution.computeQuery fuel g input query .new = some r ∧
      r.candidates = (ScopeResolution.discovered g input query).filter (fun c =>
        !(ScopeResolution.discovered g input query).any fun other =>
          ScopeResolution.candidateShadows g input query other c) ∧
      (∀ c, c ∈ ScopeResolution.discovered g input query ↔ ScopeResolution.Accepted g input query c) ∧
      ∀ c, ScopeResolution.Accepted g input query c → c ∉ r.candidates →
        ∃ v ∈ r.candidates, ScopeResolution.candidateShadows g input query v c = true) ∧
    ∃ K, ∀ fuel, K ≤ fuel → ∃ index, compute fuel g query .new = some index ∧
      ∀ datum < g.data.length, ∃ row, index.referencesTo datum = some row ∧ row.Pairwise (· < ·) ∧
        ∀ reference, reference ∈ row ↔ ∃ input r, ScopeResolution.fromReference g reference = some input ∧
          ScopeResolution.computeQuery fuel g input query .new = some r ∧ Shows r datum :=
  ⟨ScopeResolution.candidates_spec h, referencesTo_spec h⟩

def shadowed : ScopeGraph Unit Unit Unit Unit Unit where
  graph := .ofParts [(), ()] [⟨0, 1, ()⟩]
  data := [⟨0, (), ()⟩, ⟨1, (), ()⟩]
  references := [⟨0, ()⟩]
  wf := Naive.wf_ofParts _ _

/-- Every datum matches, and a declaration is more specific than an edge. -/
def nearest : ScopeGraphQuery Unit Unit Unit Unit Unit Unit where
  initialState _ _ := ()
  step _ _ _ _ _ _ := some ()
  accepts _ _ _ _ _ := true
  compareLabels _ _ left right :=
    match left, right with
    | .declaration, .edge _ => some .lt
    | .edge _, .declaration => some .gt
    | _, _ => some .eq

theorem standard_nearest : nearest.Standard shadowed where
  order _ :=
    { refl := by rintro (_ | _) <;> rfl
      lt_trans := by rintro (_ | _) (_ | _) (_ | _) <;> simp [nearest]
      eq_left := by rintro (_ | _) (_ | _) (_ | _) <;> simp [nearest]
      eq_right := by rintro (_ | _) (_ | _) (_ | _) <;> simp [nearest] }
  shadows_eq _ _ _ _ _ := rfl
  leq_trans _ _ _ _ _ _ := rfl
  accepted_lt input path state datum hdatum :=
    mem_range.mp (mem_filter.mp (mem_filter.mp hdatum).1).1

theorem candidates_minimal_nearest : ∃ K, ∀ fuel, K ≤ fuel → ∃ index,
    compute fuel shadowed nearest .new = some index ∧ ∃ row, index.referencesTo 1 = some row ∧ row.Nodup := by
  obtain ⟨K, hK⟩ := (candidates_minimal shadowed nearest standard_nearest).2
  refine ⟨K, fun fuel hfuel => ?_⟩
  obtain ⟨index, hindex, hrows⟩ := hK fuel hfuel
  obtain ⟨row, hrow, hsorted, _⟩ := hrows 1 (by decide)
  exact ⟨index, hindex, row, hrow, hsorted.imp Nat.ne_of_lt⟩

end ScopeResolutionIndex

end CfgLib

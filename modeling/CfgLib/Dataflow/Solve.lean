import CfgLib.Dataflow.Worklist
import CfgLib.Lib.ChaoticIteration

/-!
# The solver loop

What the three fixpoint solvers of `dataflow/` share (`fixpoint.rs`): directions,
limits, errors, facts, and the loop that pops the worklist until it is empty.
-/

namespace CfgLib.Dataflow

open CfgLib.Lib

/-- Direction of the data flow analysis. -/
inductive Direction where
  | forward
  | backward
  deriving DecidableEq, Repr

/-- The direction in which facts are carried from a node to its readers. -/
def Direction.traversal : Direction → TraversalDirection
  | forward => .outgoing
  | backward => .incoming

def Direction.programOrder {τ : Type} (d : Direction) (entering leaving : τ) : τ × τ :=
  match d with
  | forward => (entering, leaving)
  | backward => (leaving, entering)

/-- Deterministic solver limits. -/
structure SolveConfig where
  maxSteps : Option Nat
  deriving DecidableEq, Repr

def SolveConfig.new : SolveConfig := ⟨none⟩

/-- Stop before processing more than `limit` worklist entries. -/
def SolveConfig.withStepLimit (limit : Nat) : SolveConfig := ⟨some limit⟩

/-- A bounded solve did not reach a fixpoint. -/
inductive SolveError where
  | stepLimitExceeded (limit steps pendingNode : Nat)
  deriving DecidableEq, Repr

inductive TrySolveError (ε : Type) where
  | problem (error : ε)
  | solver (error : SolveError)

/-- Per-node facts in program order. -/
structure Facts (α : Type) where
  input : Nat → α
  output : Nat → α
  steps : Nat

/-- Collapse a result whose consumer error cannot occur. -/
def collapseInfallible {τ : Type} : Except (TrySolveError Empty) τ → Except SolveError τ
  | .ok facts => .ok facts
  | .error (.solver error) => .error error

/-! ## Merging facts -/

section Merge

variable {α ε : Type}

/-- Merge one fact into what has been merged, which may be nothing yet. -/
def mergeInto (meet : α → α → Except ε α) (merged : Option α) (fact : α) :
    Except ε (Option α) :=
  match merged with
  | none => .ok (some fact)
  | some current => (meet current fact).map some

def mergeAll (meet : α → α → Except ε α) (init : Option α) (facts : List α) :
    Except ε (Option α) :=
  facts.foldlM (mergeInto meet) init

/-- The merge of a merge operation that cannot fail. -/
def joinAll (meet : α → α → α) (init : Option α) (facts : List α) : Option α :=
  facts.foldl (fun merged fact => some (merged.elim fact (meet · fact))) init

theorem mergeAll_ok (meet : α → α → α) (init : Option α) (facts : List α) :
    mergeAll (ε := Empty) (fun a b => .ok (meet a b)) init facts = .ok (joinAll meet init facts) := by
  induction facts generalizing init with
  | nil => rfl
  | cons fact facts ih =>
    cases init with
    | none => exact ih (some fact)
    | some current => exact ih (some (meet current fact))

variable {κ : Type} {meet : α → α → α} {x y : κ → α}

theorem joinAll_related {R : α → α → Prop}
    (hmeet : ∀ a a' b b', R a a' → R b b' → R (meet a b) (meet a' b')) (hrefl : ∀ a, R a a)
    (ks : List κ) (hxy : ∀ k ∈ ks, R (x k) (y k)) (init : Option α) {d d' : α} (hd : R d d') :
    R ((joinAll meet init (ks.map x)).getD d) ((joinAll meet init (ks.map y)).getD d') := by
  -- the two folds stay both empty or both filled, the left related to the right
  have hfold : ∀ (ks : List κ) (a b : Option α), (∀ k ∈ ks, R (x k) (y k)) →
      (a = none ∧ b = none ∨ ∃ c d, a = some c ∧ b = some d ∧ R c d) →
      R ((joinAll meet a (ks.map x)).getD d) ((joinAll meet b (ks.map y)).getD d') := by
    intro ks
    induction ks with
    | nil =>
      rintro a b _ (⟨rfl, rfl⟩ | ⟨c, d, rfl, rfl, hcd⟩)
      · exact hd
      · exact hcd
    | cons k ks ih =>
      intro a b hks hab
      have hk := hks k List.mem_cons_self
      have hrest : ∀ k ∈ ks, R (x k) (y k) := fun k hk => hks k (List.mem_cons_of_mem _ hk)
      rcases hab with ⟨rfl, rfl⟩ | ⟨c, d, rfl, rfl, hcd⟩
      · exact ih _ _ hrest (Or.inr ⟨_, _, rfl, rfl, hk⟩)
      · exact ih _ _ hrest (Or.inr ⟨_, _, rfl, rfl, hmeet _ _ _ _ hcd hk⟩)
  apply hfold ks _ _ hxy
  cases init with
  | none => exact Or.inl ⟨rfl, rfl⟩
  | some b => exact Or.inr ⟨_, _, rfl, rfl, hrefl b⟩

theorem joinAll_mono [PartialOrder α] (hmeet : ∀ a a' b b', a ≤ a' → b ≤ b' → meet a b ≤ meet a' b')
    (hxy : ∀ k, x k ≤ y k) (ks : List κ) (init : Option α) (default : α) :
    (joinAll meet init (ks.map x)).getD default ≤ (joinAll meet init (ks.map y)).getD default :=
  joinAll_related hmeet le_refl ks (fun k _ => hxy k) init (le_refl default)

theorem joinAll_perm (hcomm : ∀ a b, meet a b = meet b a)
    (hassoc : ∀ a b c, meet (meet a b) c = meet a (meet b c)) {l l' : List α} (h : l.Perm l')
    (init : Option α) : joinAll meet init l = joinAll meet init l' := by
  refine List.Perm.foldl_eq' h ?_ init
  intro a _ b _ merged
  cases merged with
  | none => simp [hcomm a b]
  | some c => simp [hassoc, hcomm a b]

/-- What a merge by union holds: what some merged set holds, or the default of no sets. -/
theorem mem_joinAll_union {τ : Type} [DecidableEq τ] {d : τ} {default : Finset τ} (facts : List (Finset τ)) :
    d ∈ (joinAll (· ∪ ·) none facts).getD default ↔ (∃ fact ∈ facts, d ∈ fact) ∨ (facts = [] ∧ d ∈ default) := by
  have hfold : ∀ (facts : List (Finset τ)) (merged : Finset τ),
      d ∈ (joinAll (· ∪ ·) (some merged) facts).getD default ↔ d ∈ merged ∨ ∃ fact ∈ facts, d ∈ fact := by
    intro facts
    induction facts with
    | nil => exact fun merged => by simp [joinAll]
    | cons fact facts ih =>
      intro merged
      refine (ih (merged ∪ fact)).trans ?_
      rw [Finset.mem_union, List.exists_mem_cons_iff, or_assoc]
  cases facts with
  | nil => simp [joinAll]
  | cons fact facts =>
    refine (hfold facts fact).trans ?_
    rw [List.exists_mem_cons_iff]
    simp

end Merge

structure Run (σ : Type) where
  facts : σ
  worklist : Worklist
  steps : Nat

section Loop

variable {σ ε : Type}

/-- One round of the loop: `none` when the worklist is empty. -/
def advance (config : SolveConfig) (visit : Nat → σ × Worklist → Except ε (σ × Worklist))
    (r : Run σ) : Except (TrySolveError ε) (Option (Run σ)) :=
  match r.worklist.popFirst with
  | (_, none) => .ok none
  | (worklist, some node) =>
    match config.maxSteps.filter (· ≤ r.steps) with
    | some limit => .error (.solver (.stepLimitExceeded limit r.steps node))
    | none =>
      match visit node (r.facts, worklist) with
      | .error error => .error (.problem error)
      | .ok (facts, worklist) => .ok (some ⟨facts, worklist, r.steps + 1⟩)

/-- The loop, for at most `fuel` rounds; `none` when they do not suffice. -/
def drive (config : SolveConfig) (visit : Nat → σ × Worklist → Except ε (σ × Worklist)) :
    Nat → Run σ → Option (Except (TrySolveError ε) (Run σ))
  | 0, _ => none
  | fuel + 1, r =>
    match advance config visit r with
    | .error error => some (.error error)
    | .ok none => some (.ok r)
    | .ok (some r') => drive config visit fuel r'

variable {visit : Nat → σ × Worklist → Except ε (σ × Worklist)}

theorem drive_withStepLimit (limit fuel : Nat) : ∀ {r r' : Run σ},
    drive .new visit fuel r = some (.ok r') →
      drive (.withStepLimit limit) visit fuel r = some (.ok r') ∨
        ∃ steps node, drive (.withStepLimit limit) visit fuel r =
          some (.error (.solver (.stepLimitExceeded limit steps node))) := by
  induction fuel with
  | zero => intro r r' h; cases h
  | succ fuel ih =>
    intro r r' h
    rcases hpop : r.worklist.popFirst with ⟨worklist, popped⟩
    cases popped with
    | none =>
      left
      simp only [drive, advance, hpop] at h ⊢
      exact h
    | some node =>
      by_cases hlim : limit ≤ r.steps
      · right
        refine ⟨r.steps, node, ?_⟩
        simp [drive, advance, hpop, SolveConfig.withStepLimit, Option.filter, hlim]
      · cases hvisit : visit node (r.facts, worklist) with
        | error error =>
          simp [drive, advance, hpop, SolveConfig.new, hvisit] at h
        | ok result =>
          have hnew : drive .new visit fuel ⟨result.1, result.2, r.steps + 1⟩ = some (.ok r') := by
            simpa [drive, advance, hpop, SolveConfig.new, hvisit] using h
          have hlimited : drive (.withStepLimit limit) visit (fuel + 1) r =
              drive (.withStepLimit limit) visit fuel ⟨result.1, result.2, r.steps + 1⟩ := by
            simp [drive, advance, hpop, SolveConfig.withStepLimit, Option.filter, hlim, hvisit]
          rw [hlimited]
          exact ih hnew

/-- The loop runs to an empty worklist when every visit succeeds, keeps `I` and
descends in a well-founded order. -/
theorem drive_terminates (visit : Nat → σ × Worklist → Except ε (σ × Worklist)) {τ : Type}
    {rel : τ → τ → Prop} (hwf : WellFounded rel) {μ : σ → Worklist → τ} {I : σ → Worklist → Prop}
    (hstep : ∀ facts w w₁ node, I facts w → w.popFirst = (w₁, some node) →
      ∃ facts' w', visit node (facts, w₁) = .ok (facts', w') ∧ I facts' w' ∧
        rel (μ facts' w') (μ facts w)) (r : Run σ) (h : I r.facts r.worklist) :
    ∃ N r', (∀ fuel, N ≤ fuel → drive .new visit fuel r = some (.ok r')) ∧
      I r'.facts r'.worklist ∧ r'.worklist.popFirst.2 = none := by
  generalize hm : μ r.facts r.worklist = m
  induction m using hwf.induction generalizing r with
  | _ m ih =>
    rcases hpop : r.worklist.popFirst with ⟨w₁, popped⟩
    cases popped with
    | none =>
      refine ⟨1, r, ?_, h, by rw [hpop]⟩
      intro fuel hfuel
      obtain ⟨fuel, rfl⟩ : ∃ f, fuel = f + 1 := ⟨fuel - 1, by omega⟩
      simp [drive, advance, hpop]
    | some node =>
      obtain ⟨facts', w', hvisit, hI, hrel⟩ := hstep _ _ _ _ h hpop
      rw [hm] at hrel
      obtain ⟨N, r', hrun, hdone⟩ := ih _ hrel ⟨facts', w', r.steps + 1⟩ hI rfl
      refine ⟨N + 1, r', ?_, hdone⟩
      intro fuel hfuel
      obtain ⟨fuel, rfl⟩ : ∃ f, fuel = f + 1 := ⟨fuel - 1, by omega⟩
      rw [← hrun fuel (by omega)]
      simp [drive, advance, hpop, SolveConfig.new, hvisit]

end Loop

/-- What a solver promises: unbounded it returns `facts` after enough rounds, and
bounded it returns either the step-limit error or the same facts. -/
structure Settles {τ : Type} (solve : SolveConfig → Nat → Option (Except SolveError τ)) (facts : τ) :
    Prop where
  unbounded : ∃ N, ∀ fuel, N ≤ fuel → solve .new fuel = some (.ok facts) ∧
    ∀ limit, solve (.withStepLimit limit) fuel = some (.ok facts) ∨
      ∃ steps node, solve (.withStepLimit limit) fuel =
        some (.error (.stepLimitExceeded limit steps node))

variable {τ : Type}

theorem Settles.unique {solve : SolveConfig → Nat → Option (Except SolveError τ)}
    {facts facts' : τ} (h : Settles solve facts) (h' : Settles solve facts') : facts = facts' := by
  obtain ⟨N, hN⟩ := h.unbounded
  obtain ⟨M, hM⟩ := h'.unbounded
  have h₁ := (hN (max N M) (Nat.le_max_left _ _)).1
  rw [(hM (max N M) (Nat.le_max_right _ _)).1] at h₁
  exact (Except.ok.inj (Option.some.inj h₁)).symm

theorem settles_of_drive {σ : Type} {visit : Nat → σ × Worklist → Except Empty (σ × Worklist)}
    {start r : Run σ} {N : Nat} (hrun : ∀ fuel, N ≤ fuel → drive .new visit fuel start = some (.ok r))
    (read : Run σ → τ) :
    Settles (fun config fuel => ((drive config visit fuel start).map fun result =>
      result.map read).map collapseInfallible) (read r) := by
  refine ⟨N, fun fuel hfuel => ⟨?_, fun limit => ?_⟩⟩
  · simp only [hrun fuel hfuel]
    rfl
  · rcases drive_withStepLimit limit fuel (hrun fuel hfuel) with h | ⟨steps, node, h⟩
    · left
      simp only [h]
      rfl
    · right
      refine ⟨steps, node, ?_⟩
      simp only [h]
      rfl

/-! ## Full and seeded solves -/

/-- The entry points of one solver for one problem: the full solve and the solve
from seeds. -/
structure Solver (τ : Type) where
  full : SolveConfig → Nat → Option (Except SolveError τ)
  seeded : List Nat → SolveConfig → Nat → Option (Except SolveError τ)

/-- What a solver promises over the live nodes, when its full solve starts from
`initial` and `least start` says that facts are the least solution from `start`. -/
structure Solver.Promises {τ : Type} (s : Solver τ) (live initial : Nat → Prop)
    (least : (Nat → Prop) → τ → Prop) : Prop where
  full : ∃ facts, Settles s.full facts ∧ least initial facts
  seeded : ∀ seeds : List Nat, (∀ n ∈ seeds, live n) →
    ∃ facts, Settles (s.seeded seeds) facts ∧ least (· ∈ seeds) facts
  seeded_initial : ∀ seeds : List Nat, (∀ n, n ∈ seeds ↔ initial n) → s.seeded seeds = s.full

/-- Both entry points of two solvers give the same facts, up to `ν` on the nodes. -/
structure Solver.Agree {τ : Type} (s s' : Solver τ) (live : Nat → Prop) (ν : Nat ≃ Nat)
    (same : τ → τ → Prop) : Prop where
  full : ∀ facts facts', Settles s.full facts → Settles s'.full facts' → same facts facts'
  seeded : ∀ seeds : List Nat, (∀ n ∈ seeds, live n) → ∀ facts facts', Settles (s.seeded seeds) facts →
    Settles (s'.seeded (seeds.map ν)) facts' → same facts facts'

theorem Solver.Promises.agree {s s' : Solver τ} {live live' initial initial' : Nat → Prop}
    {least least' : (Nat → Prop) → τ → Prop} (h : s.Promises live initial least)
    (h' : s'.Promises live' initial' least') {ν : Nat ≃ Nat} (hlive : ∀ n, live' (ν n) ↔ live n)
    (hinitial : ∀ n, initial' (ν n) ↔ initial n) (hle : ∀ n, initial n → live n) {same : τ → τ → Prop}
    (hsame : ∀ start start' facts facts', (∀ n, start' (ν n) ↔ start n) → (∀ n, start n → live n) →
      least start facts → least' start' facts' → same facts facts') : s.Agree s' live ν same := by
  refine ⟨?_, ?_⟩
  · intro facts facts' hf hf'
    obtain ⟨_, h₁, hl⟩ := h.full
    obtain ⟨_, h₂, hl'⟩ := h'.full
    obtain rfl := hf.unique h₁
    obtain rfl := hf'.unique h₂
    exact hsame _ _ _ _ hinitial hle hl hl'
  · intro seeds hseeds facts facts' hf hf'
    have hseeds' : ∀ n ∈ seeds.map ν, live' n := by
      intro n hn
      obtain ⟨m, hm, rfl⟩ := List.mem_map.mp hn
      exact (hlive m).mpr (hseeds m hm)
    obtain ⟨_, h₁, hl⟩ := h.seeded seeds hseeds
    obtain ⟨_, h₂, hl'⟩ := h'.seeded (seeds.map ν) hseeds'
    obtain rfl := hf.unique h₁
    obtain rfl := hf'.unique h₂
    exact hsame _ _ _ _ (fun n => List.mem_map_of_injective ν.injective) hseeds hl hl'

/-! ## The loop as an iteration -/

section Iteration

variable {σ κ α β : Type} [PartialOrder α] [OrderBot α]

theorem drive_isLeastSolution (visit : Nat → σ × Worklist → Except Empty (σ × Worklist))
    {S : System κ α β} {dom : Nat → Prop} (hS : S.Lawful dom) {bound : Nat}
    (hdom : ∀ n, dom n → n < bound) (ks : List κ) (hks : ∀ n, dom n → ∀ k ∈ S.slots n, k ∈ ks)
    (values : σ → κ → α) (records : σ → Nat → β) {J : σ → Prop}
    (hvisit : ∀ (facts : σ) (w w₁ : Worklist) (node : Nat), J facts → w.WF bound → dom node →
      w.popFirst = (w₁, some node) →
      ∃ (facts' : σ) (w' : Worklist), visit node (facts, w₁) = .ok (facts', w') ∧ w'.WF bound ∧
        J facts' ∧ S.Visit node ⟨values facts, records facts, fun n => w.queued n⟩
          ⟨values facts', records facts', fun n => w'.queued n⟩)
    {worklist : Worklist} (init : σ) (blank : β) (hJ : J init) (hw : worklist.WF bound)
    (hlive : ∀ n, worklist.queued n → dom n) (hvalues : ∀ k, values init k = ⊥)
    (hrecords : ∀ n, records init n = blank) (hasc : S.Ascending (fun n => worklist.queued n) ks) :
    ∃ N r, (∀ fuel, N ≤ fuel → drive .new visit fuel ⟨init, worklist, 0⟩ = some (.ok r)) ∧ J r.facts ∧
      S.IsLeastSolution dom (fun n => worklist.queued n) blank (values r.facts) (records r.facts) := by
  let I : σ → Worklist → Prop := fun facts w => w.WF bound ∧ J facts ∧
    ∃ visited, S.Progress dom (fun n => worklist.queued n) blank visited
      ⟨values facts, records facts, fun n => w.queued n⟩
  obtain ⟨τ, rel, μ, hwf, hrise⟩ := hasc
  obtain ⟨N, r, hrun, ⟨hwf, hJr, visited, hprogress⟩, hdone⟩ := drive_terminates visit
    (WellFounded.prod_lex hwf Nat.lt_wfRel.wf)
    (μ := fun facts w => (μ (values facts), w.size bound)) (I := I)
    (by
      rintro facts w w₁ node ⟨hwf, hJ, visited, hprogress⟩ hpop
      have hspec := Worklist.popFirst_spec hwf
      rw [hpop] at hspec
      obtain ⟨_, hqueued, hiff⟩ := hspec
      have hnode : dom node := hprogress.dom_of_started node (Or.inr hqueued)
      obtain ⟨facts', w', hok, hwf', hJ', hv⟩ := hvisit facts w w₁ node hJ hwf hnode hpop
      refine ⟨facts', w', hok, ⟨hwf', hJ', _, hprogress.visit hS hv⟩, ?_⟩
      refine hprogress.descends hS hv (hks node hnode) hrise fun hsame => ?_
      -- nothing changed, so nothing was queued
      have hqueue : ∀ i, w'.queued i ↔ w.queued i ∧ i ≠ node := fun i => by
        refine (hv.queue_iff i).trans ⟨?_, Or.inl⟩
        rintro (h | ⟨k, _, hne, _⟩)
        · exact h
        · exact absurd (hsame k) hne
      refine Worklist.size_lt (fun i hi => ((hqueue i).mp hi).1) (hdom node hnode) hqueued ?_
      by_contra hc
      exact ((hqueue node).mp (by simpa using hc)).2 rfl)
    ⟨init, worklist, 0⟩
    ⟨hw, hJ, _, System.progress_init hlive hvalues hrecords fun _ => Iff.rfl⟩
  refine ⟨N, r, hrun, hJr, hprogress.isLeastSolution fun n hn => ?_⟩
  have hspec := (Worklist.popFirst_spec hwf).2
  rw [hdone] at hspec
  exact absurd hn (by simp [hspec n])

end Iteration

end CfgLib.Dataflow

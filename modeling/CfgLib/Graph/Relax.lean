import CfgLib.Lib.Labels
import CfgLib.Store.Naive
import Mathlib.Order.Bounds.Basic

/-!
# Minimum-label relaxation

`graph/relax.rs`: a label-correcting search with a worklist that is read last in, first
out.  A node is expanded again whenever its label falls, and ends up with the least label
that the walks from the seeds bring to it.
-/

namespace CfgLib

open CfgLib.Lib Store List Function

variable {N E L : Type}

namespace Relaxation

def far (record : EdgeRecord E) (direction : TraversalDirection) : Nat := record.endpoint direction.against

section Search

variable [LinearOrder L]

/-- The label of each node, and the candidates still to look at; the head of the worklist
is popped next. -/
structure Relaxing (L : Type) where
  labels : Nat → Option L
  worklist : List (Nat × L)

def candidates (g : Naive N E) (direction : TraversalDirection) (relax : EdgeRecord E → L → Option L) (node : Nat)
    (label : L) : List (Nat × L) :=
  ((g.lists direction node).filterMap fun e =>
    (g.edge e).bind fun record => (relax record label).map fun candidate => (far record direction, candidate)).reverse

def isStale (labels : Nat → Option L) (node : Nat) (candidate : L) : Bool :=
  (labels node).any fun known => known ≤ candidate

/-- Look at candidates until none is left; `none` when the fuel runs out, or for the panic on a
seed out of range. -/
def run (g : Naive N E) (direction : TraversalDirection) (relax : EdgeRecord E → L → Option L) :
    Nat → Relaxing L → Option (Nat → Option L)
  | 0, _ => none
  | fuel + 1, s =>
    match s.worklist with
    | [] => some s.labels
    | (node, candidate) :: rest =>
      if node < g.nodes.length then
        if isStale s.labels node candidate then run g direction relax fuel { s with worklist := rest }
        else
          run g direction relax fuel
            ⟨update s.labels node (some candidate), candidates g direction relax node candidate ++ rest⟩
      else none

end Search

def minLabelRelaxation [LinearOrder L] (fuel : Nat) (g : Naive N E) (seeds : List (Nat × L))
    (direction : TraversalDirection) (relax : EdgeRecord E → L → Option L) : Option (Nat → Option L) :=
  run g direction relax fuel ⟨fun _ => none, seeds.reverse⟩

/-! ## Walks -/

/-- Some walk from a seed brings the label to the node. -/
inductive Brings (g : Naive N E) (seeds : List (Nat × L)) (direction : TraversalDirection)
    (relax : EdgeRecord E → L → Option L) : Nat → L → Prop
  | seed {n : Nat} {l : L} : (n, l) ∈ seeds → Brings g seeds direction relax n l
  | step {n e : Nat} {l l' : L} {record : EdgeRecord E} : Brings g seeds direction relax n l →
      e ∈ g.lists direction n → g.edge e = some record → relax record l = some l' →
      Brings g seeds direction relax (far record direction) l'

/-- A smaller label never loses a candidate nor gives a larger one. -/
def PreservesImprovements [LE L] (relax : EdgeRecord E → L → Option L) : Prop :=
  ∀ record l l', l ≤ l' → ∀ c', relax record l' = some c' → ∃ c, relax record l = some c ∧ c ≤ c'

/-! ## The search -/

section Spec

variable [LinearOrder L] {g : Naive N E} {seeds : List (Nat × L)} {direction : TraversalDirection}
  {relax : EdgeRecord E → L → Option L} {s : Relaxing L}

omit [LinearOrder L] in
theorem mem_candidates {node n : Nat} {label l : L} : (n, l) ∈ candidates g direction relax node label ↔
    ∃ e ∈ g.lists direction node, ∃ record, g.edge e = some record ∧ relax record label = some l ∧
      far record direction = n := by
  unfold candidates
  rw [mem_reverse, mem_filterMap]
  constructor
  · rintro ⟨e, he, hsome⟩
    obtain ⟨record, hrecord, hsome⟩ := Option.bind_eq_some_iff.mp hsome
    obtain ⟨c, hc, heq⟩ := Option.map_eq_some_iff.mp hsome
    cases heq
    exact ⟨e, he, record, hrecord, hc, rfl⟩
  · rintro ⟨e, he, record, hrecord, hl, rfl⟩
    exact ⟨e, he, by rw [hrecord, Option.bind_some, hl, Option.map_some]⟩

/-- The label of a node is no larger than the candidate, or the candidate is still to come. -/
def Accounted (s : Relaxing L) (n : Nat) (c : L) : Prop :=
  (∃ known, s.labels n = some known ∧ known ≤ c) ∨ (n, c) ∈ s.worklist

structure Searching (g : Naive N E) (seeds : List (Nat × L)) (direction : TraversalDirection)
    (relax : EdgeRecord E → L → Option L) (s : Relaxing L) : Prop where
  labels : ∀ n l, s.labels n = some l → Brings g seeds direction relax n l
  worklist : ∀ n l, (n, l) ∈ s.worklist → Brings g seeds direction relax n l ∧ n < g.nodes.length
  seeded : ∀ n l, (n, l) ∈ seeds → Accounted s n l
  expanded : ∀ n l, s.labels n = some l → ∀ m c, (m, c) ∈ candidates g direction relax n l → Accounted s m c

theorem far_lt (hg : g.WF) {e : Nat} {record : EdgeRecord E} (he : g.edge e = some record) :
    far record direction < g.nodes.length :=
  Naive.node_lt (hg.live direction.against e record he)

variable {l : L} {n : Nat}

theorem Searching.skip (h : Searching g seeds direction relax s) {rest : List (Nat × L)}
    (hw : s.worklist = (n, l) :: rest) (hstale : isStale s.labels n l = true) :
    Searching g seeds direction relax { s with worklist := rest } := by
  have hknown : ∃ known, s.labels n = some known ∧ known ≤ l := by
    unfold isStale at hstale
    cases hlabel : s.labels n with
    | none =>
      rw [hlabel] at hstale
      cases hstale
    | some known =>
      rw [hlabel] at hstale
      exact ⟨known, rfl, of_decide_eq_true hstale⟩
  have hkeep : ∀ m c, Accounted s m c → Accounted { s with worklist := rest } m c := by
    rintro m c (hlabel | hmem)
    · exact Or.inl hlabel
    · rw [hw] at hmem
      rcases mem_cons.mp hmem with heq | hmem
      · cases heq
        exact Or.inl hknown
      · exact Or.inr hmem
  refine ⟨h.labels, fun m c hmem => h.worklist m c ?_, fun m c hseed => hkeep m c (h.seeded m c hseed),
    fun m c hlabel k d hmem => hkeep k d (h.expanded m c hlabel k d hmem)⟩
  rw [hw]
  exact mem_cons_of_mem _ hmem

/-- An improvement is accounted for by its own label, and puts the candidates it brings on the worklist. -/
theorem Searching.improve (hg : g.WF) (h : Searching g seeds direction relax s)
    {rest : List (Nat × L)} (hw : s.worklist = (n, l) :: rest) (hfresh : ∀ known, s.labels n = some known → l < known) :
    Searching g seeds direction relax
      ⟨update s.labels n (some l), candidates g direction relax n l ++ rest⟩ := by
  have hn := h.worklist n l (by rw [hw]; exact mem_cons_self)
  have hkeep : ∀ m c, Accounted s m c →
      Accounted ⟨update s.labels n (some l), candidates g direction relax n l ++ rest⟩ m c := by
    rintro m c (⟨known, hlabel, hle⟩ | hmem)
    · by_cases hm : m = n
      · subst hm
        exact Or.inl ⟨l, update_self .., ((hfresh known hlabel).trans_le hle).le⟩
      · exact Or.inl ⟨known, (update_of_ne hm ..).trans hlabel, hle⟩
    · rw [hw] at hmem
      rcases mem_cons.mp hmem with heq | hmem
      · cases heq
        exact Or.inl ⟨l, update_self .., le_refl l⟩
      · exact Or.inr (mem_append_right _ hmem)
  refine ⟨fun m c hlabel => ?_, fun m c hmem => ?_, fun m c hseed => hkeep m c (h.seeded m c hseed),
    fun m c hlabel k d hmem => ?_⟩
  · change update s.labels n (some l) m = some c at hlabel
    by_cases hm : m = n
    · subst hm
      rw [update_self] at hlabel
      cases hlabel
      exact hn.1
    · rw [update_of_ne hm] at hlabel
      exact h.labels m c hlabel
  · rcases mem_append.mp hmem with hmem | hmem
    · obtain ⟨e, he, record, hrecord, hrelax, rfl⟩ := mem_candidates.mp hmem
      exact ⟨.step hn.1 he hrecord hrelax, far_lt hg hrecord⟩
    · exact h.worklist m c (by rw [hw]; exact mem_cons_of_mem _ hmem)
  · change update s.labels n (some l) m = some c at hlabel
    by_cases hm : m = n
    · subst hm
      rw [update_self] at hlabel
      cases hlabel
      exact Or.inr (mem_append_left _ hmem)
    · rw [update_of_ne hm] at hlabel
      exact hkeep k d (h.expanded m c hlabel k d hmem)

theorem Searching.run (hg : g.WF) (hwf : Set.IsWF { l | ∃ n, Brings g seeds direction relax n l }) :
    ∀ (s : Relaxing L), Searching g seeds direction relax s → ∃ K labels,
      (∀ fuel, K ≤ fuel → run g direction relax fuel s = some labels) ∧
        Searching g seeds direction relax ⟨labels, []⟩ := by
  intro ⟨labels, worklist⟩
  induction labels using (wellFounded_lowered g.nodes.length hwf).induction generalizing worklist with
  | _ labels lower =>
    induction worklist with
    | nil =>
      refine fun h => ⟨1, labels, fun fuel hfuel => ?_, h⟩
      obtain ⟨k, rfl⟩ : ∃ k, fuel = k + 1 := ⟨fuel - 1, by omega⟩
      rfl
    | cons entry rest ih =>
      obtain ⟨n, l⟩ := entry
      intro h
      obtain ⟨hbrings, hn⟩ := h.worklist n l mem_cons_self
      cases hstale : isStale labels n l with
      | true =>
        obtain ⟨M, labels', hrun, hend⟩ := ih (h.skip rfl hstale)
        refine ⟨M + 1, labels', fun fuel hfuel => ?_, hend⟩
        obtain ⟨k, rfl⟩ : ∃ k, fuel = k + 1 := ⟨fuel - 1, by omega⟩
        refine Eq.trans ?_ (hrun k (by omega))
        exact (if_pos hn).trans (if_pos hstale)
      | false =>
        have hfresh : ∀ known, labels n = some known → l < known := by
          intro known hknown
          rw [isStale, hknown] at hstale
          exact not_le.mp (of_decide_eq_false hstale)
        obtain ⟨M, labels', hrun, hend⟩ := lower _ ⟨n, hn, l, ⟨n, hbrings⟩, hfresh, rfl⟩ _ (h.improve hg rfl hfresh)
        refine ⟨M + 1, labels', fun fuel hfuel => ?_, hend⟩
        obtain ⟨k, rfl⟩ : ∃ k, fuel = k + 1 := ⟨fuel - 1, by omega⟩
        refine Eq.trans ?_ (hrun k (by omega))
        exact (if_pos hn).trans (if_neg (Bool.eq_false_iff.mp hstale))

/-- With nothing left to look at, no walk brings less than the label of its end. -/
theorem Searching.least (hrelax : PreservesImprovements relax) {labels : Nat → Option L}
    (h : Searching g seeds direction relax ⟨labels, []⟩) (hl : Brings g seeds direction relax n l) :
    ∃ known, labels n = some known ∧ known ≤ l := by
  induction hl with
  | seed hseed => exact (h.seeded _ _ hseed).resolve_right not_mem_nil
  | @step n e l l' record _ he hrecord hstep ih =>
    obtain ⟨known, hknown, hle⟩ := ih
    obtain ⟨c, hc, hcle⟩ := hrelax record known l hle l' hstep
    obtain ⟨k, hk, hkle⟩ := (h.expanded n known hknown _ c (mem_candidates.mpr ⟨e, he, record, hrecord, hc, rfl⟩)).resolve_right
      not_mem_nil
    exact ⟨k, hk, hkle.trans hcle⟩

end Spec

/-- The labels that the walks bring to a node have a least one, which the table holds; a
node that no walk is accepted to has none. -/
def Minimal [LinearOrder L] (g : Naive N E) (seeds : List (Nat × L)) (direction : TraversalDirection)
    (relax : EdgeRecord E → L → Option L) (labels : Nat → Option L) : Prop :=
  ∀ n, (∀ l, labels n = some l ↔ IsLeast { l | Brings g seeds direction relax n l } l) ∧
    (labels n = none ↔ ∀ l, ¬ Brings g seeds direction relax n l)

structure SameInput (g g' : Naive N E) (seeds seeds' : List (Nat × L)) (direction : TraversalDirection) : Prop where
  bound : g.nodes.length = g'.nodes.length
  seeds : seeds.Perm seeds'
  edges : ∀ n, ((g.lists direction n).filterMap g.edge).Perm ((g'.lists direction n).filterMap g'.edge)

variable {relax : EdgeRecord E → L → Option L} {seeds seeds' : List (Nat × L)} {g g' : Naive N E}
  {direction : TraversalDirection}

theorem Brings.reorder (hsame : SameInput g g' seeds seeds' direction) {n : Nat} {l : L}
    (h : Brings g seeds direction relax n l) : Brings g' seeds' direction relax n l := by
  induction h with
  | seed hseed => exact .seed (hsame.seeds.mem_iff.mp hseed)
  | @step n e l l' record _ he hrecord hstep ih =>
    have hmem := (hsame.edges n).mem_iff.mp (mem_filterMap.mpr ⟨e, he, hrecord⟩)
    obtain ⟨e', he', hrecord'⟩ := mem_filterMap.mp hmem
    exact .step ih he' hrecord' hstep

theorem SameInput.symm (h : SameInput g g' seeds seeds' direction) : SameInput g' g seeds' seeds direction :=
  ⟨h.bound.symm, h.seeds.symm, fun n => (h.edges n).symm⟩

theorem Minimal.unique [LinearOrder L] {labels labels' : Nat → Option L}
    (h : Minimal g seeds direction relax labels) (h' : Minimal g seeds direction relax labels') : labels = labels' := by
  funext n
  cases hl : labels n with
  | none => exact ((h' n).2.mpr ((h n).2.mp hl)).symm
  | some l => exact (((h' n).1 l).mpr (((h n).1 l).mp hl)).symm

theorem Minimal.reorder [LinearOrder L] (hsame : SameInput g g' seeds seeds' direction) {labels : Nat → Option L}
    (h : Minimal g' seeds' direction relax labels) : Minimal g seeds direction relax labels := by
  have hbrings : ∀ n l, Brings g' seeds' direction relax n l ↔ Brings g seeds direction relax n l := fun n l =>
    ⟨fun hl => hl.reorder hsame.symm, fun hl => hl.reorder hsame⟩
  unfold Minimal at h ⊢
  simpa only [hbrings] using h

theorem exists_minimal [LinearOrder L] (hg : g.WF) (hseeds : ∀ seed ∈ seeds, seed.1 < g.nodes.length)
    (hrelax : PreservesImprovements relax)
    (hwf : Set.IsWF { l | ∃ n, Brings g seeds direction relax n l }) : ∃ K labels,
      (∀ fuel, K ≤ fuel → minLabelRelaxation fuel g seeds direction relax = some labels) ∧
        Minimal g seeds direction relax labels := by
  have hstart : Searching g seeds direction relax ⟨fun _ => none, seeds.reverse⟩ := by
    refine ⟨fun n l h => (by cases h), fun n l hmem => ?_, fun n l hseed => Or.inr (mem_reverse.mpr hseed),
      fun n l h => (by cases h)⟩
    have hseed := mem_reverse.mp hmem
    exact ⟨.seed hseed, hseeds _ hseed⟩
  obtain ⟨M, labels, hrun, hend⟩ := Searching.run hg hwf _ hstart
  refine ⟨M, labels, hrun, fun n => ⟨fun l => ⟨fun hl => ⟨hend.labels n l hl, fun l' hl' => ?_⟩, fun hl => ?_⟩,
    fun hnone l hl => ?_, fun hnone => ?_⟩⟩
  · obtain ⟨known, hknown, hle⟩ := hend.least hrelax hl'
    rw [hl] at hknown
    cases hknown
    exact hle
  · obtain ⟨known, hknown, hle⟩ := hend.least hrelax hl.1
    exact hknown.trans (congrArg some (le_antisymm hle (hl.2 (hend.labels n known hknown))))
  · obtain ⟨known, hknown, _⟩ := hend.least hrelax hl
    rw [hnone] at hknown
    cases hknown
  · cases hl : labels n with
    | none => rfl
    | some l => exact absurd (hend.labels n l hl) (hnone l)

/-- The search ends with the least labels, which the order of the seeds and of the edges
does not change. -/
theorem minLabelRelaxation_minimal [LinearOrder L] {g : Naive N E} (hg : g.WF) {seeds : List (Nat × L)}
    (hseeds : ∀ seed ∈ seeds, seed.1 < g.nodes.length) {direction : TraversalDirection}
    {relax : EdgeRecord E → L → Option L} (hrelax : PreservesImprovements relax)
    (hwf : Set.IsWF { l | ∃ n, Brings g seeds direction relax n l }) : ∃ K labels,
      (∀ fuel, K ≤ fuel → minLabelRelaxation fuel g seeds direction relax = some labels) ∧
        Minimal g seeds direction relax labels ∧
        ∀ (g' : Naive N E) (seeds' : List (Nat × L)), g'.WF → SameInput g g' seeds seeds' direction →
          ∃ K', ∀ fuel, K' ≤ fuel → minLabelRelaxation fuel g' seeds' direction relax = some labels := by
  obtain ⟨M, labels, hrun, hminimal⟩ := exists_minimal hg hseeds hrelax hwf
  refine ⟨M, labels, hrun, hminimal, fun g' seeds' hg' hsame => ?_⟩
  have hseeds' : ∀ seed ∈ seeds', seed.1 < g'.nodes.length := by
    intro seed hseed
    rw [← hsame.bound]
    exact hseeds seed (hsame.seeds.mem_iff.mpr hseed)
  have hwf' : Set.IsWF { l | ∃ n, Brings g' seeds' direction relax n l } :=
    hwf.mono fun l ⟨n, hl⟩ => ⟨n, hl.reorder hsame.symm⟩
  obtain ⟨M', labels', hrun', hminimal'⟩ := exists_minimal hg' hseeds' hrelax hwf'
  obtain rfl := hminimal.unique (hminimal'.reorder hsame)
  exact ⟨M', hrun'⟩

def twoWays : Naive Unit Nat := .ofParts [(), (), ()] [⟨0, 2, 9⟩, ⟨0, 1, 2⟩, ⟨1, 2, 3⟩]

def addLength (record : EdgeRecord Nat) (distance : Nat) : Option Nat := some (distance + record.payload)

theorem minLabelRelaxation_minimal_twoWays : ∃ K labels,
    (∀ fuel, K ≤ fuel → minLabelRelaxation fuel twoWays [(0, 0)] .outgoing addLength = some labels) ∧
      Minimal twoWays [(0, 0)] .outgoing addLength labels := by
  have hrelax : PreservesImprovements addLength := by
    intro record l l' hle c' hc'
    cases hc'
    exact ⟨_, rfl, Nat.add_le_add_right hle _⟩
  have hseeds : ∀ seed ∈ [((0, 0) : Nat × Nat)], seed.1 < twoWays.nodes.length := by decide
  obtain ⟨K, labels, hrun, hminimal, _⟩ := @minLabelRelaxation_minimal _ _ _ _ twoWays (Naive.wf_ofParts _ _) _ hseeds
    .outgoing _ hrelax (Set.IsWF.of_wellFoundedLT _)
  exact ⟨K, labels, hrun, hminimal⟩

end Relaxation

end CfgLib

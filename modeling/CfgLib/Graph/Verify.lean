import CfgLib.Cfg.Document
import CfgLib.Dataflow.Replay
import CfgLib.Graph.Diff.Isomorphism
import CfgLib.Lib.Fold

/-!
# Structural verification

`graph/verify.rs`: the checks of a rooted view and of its edges, which report what they
find instead of stopping, and the checks of a graph with exception metadata.
-/

namespace CfgLib

open CfgLib.Lib Relation List Function

/-- A violation that a check reports. -/
inductive VerifyError where
  | rootOutOfBounds (root bound : Nat)
  | nodeOutOfBounds (node bound : Nat)
  | neighborOutOfBounds (node : Nat) (d : TraversalDirection) (neighbor bound : Nat)
  | unmirroredSuccessor (source target count mirrored : Nat)
  | strayPredecessor (source target count : Nat)
  | noPredecessor (node : Nat)
  | edgeOutOfBounds (edge bound : Nat)
  | edgeRepeated (edge : Nat)
  | endOutOfBounds (edge bound : Nat)
  | nonLiveListing (node : Nat) (d : TraversalDirection) (edge : Nat)
  | foreignListing (node : Nat) (d : TraversalDirection) (edge stored : Nat)
  | miscounted (edge outgoing incoming : Nat)
  | danglingAnchor (block : Nat)
  deriving DecidableEq, Repr

/-- How the two adjacencies are named in a report: the neighbor, the list, and the end of a listed edge. -/
def TraversalDirection.role : TraversalDirection → String
  | .outgoing => "successor"
  | .incoming => "predecessor"

def TraversalDirection.adjacency : TraversalDirection → String
  | .outgoing => "outgoing"
  | .incoming => "incoming"

def TraversalDirection.endName : TraversalDirection → String
  | .outgoing => "source"
  | .incoming => "target"

def VerifyError.message : VerifyError → String
  | .rootOutOfBounds root bound => s!"root node index {root} out of bounds (node_bound={bound})"
  | .nodeOutOfBounds node bound => s!"node index {node} out of bounds (node_bound={bound})"
  | .neighborOutOfBounds node d neighbor bound =>
    s!"node {node} has {d.role} {neighbor} out of bounds (node_bound={bound})"
  | .unmirroredSuccessor source target count mirrored =>
    s!"adjacency mismatch: {count} successor edge(s) {source}->{target} but {mirrored} predecessor entry(ies)"
  | .strayPredecessor source target count =>
    s!"adjacency mismatch: {count} predecessor entry(ies) {source}->{target} with no successor edge"
  | .noPredecessor node => s!"reachable node {node} has no predecessors"
  | .edgeOutOfBounds edge bound => s!"edge index {edge} out of bounds (edge_bound={bound})"
  | .edgeRepeated edge => s!"edge index {edge} appears more than once"
  | .endOutOfBounds edge bound => s!"edge index {edge} has endpoint outside node_bound {bound}"
  | .nonLiveListing node d edge => s!"node {node} has non-live {d.adjacency} edge index {edge}"
  | .foreignListing node d edge stored => s!"node {node} lists edge index {edge}, whose {d.endName} is {stored}"
  | .miscounted edge outgoing incoming =>
    s!"edge index {edge} appears {outgoing} time(s) in outgoing and {incoming} time(s) in incoming adjacency"
  | .danglingAnchor block => s!"exception metadata names bb{block}, which is not a live block"

/-! ## Node adjacency -/

/-- The distinct entries of a list whose equal entries are adjacent, with how often each occurs. -/
def runs : List (Nat × Nat) → List ((Nat × Nat) × Nat)
  | [] => []
  | pair :: rest =>
    match runs rest with
    | [] => [(pair, 1)]
    | (next, count) :: later => if pair = next then (pair, count + 1) :: later else (pair, 1) :: (next, count) :: later

def pairLt (a b : Nat × Nat) : Bool := !pairLe b a

/-- The entries of the left runs in order, with how often each occurs on the left and on the right. -/
def multiplicities : List ((Nat × Nat) × Nat) → List ((Nat × Nat) × Nat) → List ((Nat × Nat) × Nat × Nat)
  | [], _ => []
  | (pair, count) :: left, right =>
    match right.dropWhile fun other => pairLt other.1 pair with
    | [] => (pair, count, 0) :: multiplicities left []
    | (other, mirrored) :: rest =>
      if other = pair then (pair, count, mirrored) :: multiplicities left rest
      else (pair, count, 0) :: multiplicities left ((other, mirrored) :: rest)

def reportAdjacencyMismatches (forward reverse : List (Nat × Nat)) : List VerifyError :=
  (multiplicities (runs forward) (runs reverse)).filterMap (fun (pair, count, mirrored) =>
    if mirrored = count then none else some (.unmirroredSuccessor pair.1 pair.2 count mirrored)) ++
  (multiplicities (runs reverse) (runs forward)).filterMap fun (pair, count, mirrored) =>
    if mirrored = 0 then some (.strayPredecessor pair.1 pair.2 count) else none

namespace GraphView

/-- The entries out of the nodes within the bound that lead to a node within it. -/
def forward (g : GraphView) : List (Nat × Nat) :=
  (g.nodeIds.filter (· < g.nodeBound)).flatMap fun n => ((g.successors n).filter (· < g.nodeBound)).map (n, ·)

def reverse (g : GraphView) : List (Nat × Nat) :=
  (g.nodeIds.filter (· < g.nodeBound)).flatMap fun n => ((g.predecessors n).filter (· < g.nodeBound)).map (·, n)

def boundErrors (g : GraphView) (n : Nat) : List VerifyError :=
  if n < g.nodeBound then
    ((g.successors n).filter (g.nodeBound ≤ ·)).map (.neighborOutOfBounds n .outgoing · g.nodeBound) ++
      ((g.predecessors n).filter (g.nodeBound ≤ ·)).map (.neighborOutOfBounds n .incoming · g.nodeBound)
  else [.nodeOutOfBounds n g.nodeBound]

/-- What the two adjacencies, sorted, say differently. -/
def mismatches (g : GraphView) : List VerifyError :=
  let forward := g.forward.mergeSort pairLe
  let reverse := g.reverse.mergeSort pairLe
  if forward = reverse then [] else reportAdjacencyMismatches forward reverse

end GraphView

/-- The checks of a rooted view; `none` is a panic. -/
def verifyView (g : RootedView) : Option (List VerifyError) :=
  if g.root < g.nodeBound then
    if g.nodeIds.flatMap g.boundErrors = [] then
      (reachable g.toGraphView [g.root] .outgoing).map fun reached =>
        g.mismatches ++ (g.nodeIds.filter fun n => reached n && n != g.root && (g.predecessors n).isEmpty).map .noPredecessor
    else some (g.nodeIds.flatMap g.boundErrors ++ g.mismatches)
  else some [.rootOutOfBounds g.root g.nodeBound]

/-! ## Edge adjacency -/

/-- What has been seen of one edge slot. -/
structure EdgeSlot where
  live : Bool
  outgoing : Nat
  incoming : Nat

def EdgeSlot.count (slot : EdgeSlot) : TraversalDirection → EdgeSlot
  | .outgoing => ⟨slot.live, slot.outgoing + 1, slot.incoming⟩
  | .incoming => ⟨slot.live, slot.outgoing, slot.incoming + 1⟩

structure SlotCheck where
  slots : Nat → EdgeSlot
  errors : List VerifyError

variable {δ : Type}

def registerEdge (g : EdgeView δ) (s : SlotCheck) (e : Nat) : SlotCheck :=
  if g.edgeBound ≤ e then ⟨s.slots, s.errors ++ [.edgeOutOfBounds e g.edgeBound]⟩
  else if (s.slots e).live then ⟨s.slots, s.errors ++ [.edgeRepeated e]⟩
  else
    ⟨update s.slots e ⟨true, (s.slots e).outgoing, (s.slots e).incoming⟩,
      if g.nodeBound ≤ (g.edge e).source ∨ g.nodeBound ≤ (g.edge e).target then
        s.errors ++ [.endOutOfBounds e g.nodeBound]
      else s.errors⟩

def checkListing (g : EdgeView δ) (d : TraversalDirection) (node : Nat) (s : SlotCheck) (e : Nat) : SlotCheck :=
  if e < g.edgeBound ∧ (s.slots e).live then
    let stored := (g.edge e).next d.against
    ⟨update s.slots e ((s.slots e).count d),
      if stored = node then s.errors else s.errors ++ [.foreignListing node d e stored]⟩
  else ⟨s.slots, s.errors ++ [.nonLiveListing node d e]⟩

def checkListings (g : EdgeView δ) (d : TraversalDirection) (node : Nat) (s : SlotCheck) : SlotCheck :=
  (g.edges d node).foldl (checkListing g d node) s

/-- A live edge that is not listed once in each direction. -/
def miscount (slots : Nat → EdgeSlot) (e : Nat) : Option VerifyError :=
  if (slots e).live ∧ ((slots e).outgoing ≠ 1 ∨ (slots e).incoming ≠ 1) then
    some (.miscounted e (slots e).outgoing (slots e).incoming)
  else none

/-- The checks of a rooted view and of its edges; `none` is a panic. -/
def verifyEdgeView (g : EdgeView δ) (root : Nat) : Option (List VerifyError) :=
  (verifyView ⟨g.toGraphView, root⟩).map fun errors =>
    let registered := g.edgeIds.foldl (registerEdge g) ⟨fun _ => ⟨false, 0, 0⟩, errors⟩
    let listed := (g.nodeIds.filter (· < g.nodeBound)).foldl
      (fun s node => checkListings g .incoming node (checkListings g .outgoing node s)) registered
    listed.errors ++ (List.range g.edgeBound).filterMap (miscount listed.slots)

/-- The checks of a graph: those of its view, and that the metadata names live blocks. -/
def verify {ι π : Type} (c : Cfg ι π) : Option (List VerifyError) :=
  (verifyEdgeView c.edgeView c.entry).map (· ++ c.danglingAnchors.map .danglingAnchor)

/-! ## Multiplicities -/

theorem pairLt_iff (a b : Nat × Nat) : pairLt a b ↔ a.1 < b.1 ∨ (a.1 = b.1 ∧ a.2 < b.2) := by
  rw [pairLt, Bool.not_eq_true', Bool.eq_false_iff, Ne, pairLe_iff]
  omega

theorem pair_cases (a b : Nat × Nat) : pairLt a b ∨ a = b ∨ pairLt b a := by
  rw [pairLt_iff, pairLt_iff, Prod.ext_iff]
  omega

theorem pairLt_trans {a b c : Nat × Nat} (h : pairLt a b) (h' : pairLt b c) : pairLt a c := by
  rw [pairLt_iff] at *
  omega

theorem pairLt_ne {a b : Nat × Nat} (h : pairLt a b) : a ≠ b := by
  rintro rfl
  rw [pairLt_iff] at h
  omega

theorem pairLt_of_le {a b : Nat × Nat} (h : pairLe a b) (hne : a ≠ b) : pairLt a b := by
  rw [Ne, Prod.ext_iff] at hne
  rw [pairLe_iff] at h
  rw [pairLt_iff]
  omega

def Ascending (runs : List ((Nat × Nat) × Nat)) : Prop := runs.Pairwise fun p q => pairLt p.1 q.1

theorem runs_spec {l : List (Nat × Nat)} (hl : l.Pairwise fun a b => pairLe a b) :
    Ascending (runs l) ∧ ∀ p, p ∈ runs l ↔ p.1 ∈ l ∧ p.2 = l.count p.1 := by
  induction l with
  | nil => exact ⟨.nil, fun p => by simp [runs]⟩
  | cons pair rest ih =>
    obtain ⟨hpair, hrest⟩ := pairwise_cons.mp hl
    obtain ⟨hasc, hmem⟩ := ih hrest
    unfold runs
    cases hruns : runs rest with
    | nil =>
      have hnil : rest = [] := by
        rw [eq_nil_iff_forall_not_mem]
        intro a ha
        have := (hmem (a, rest.count a)).mpr ⟨ha, rfl⟩
        rw [hruns] at this
        cases this
      subst hnil
      refine ⟨pairwise_singleton _ _, fun p => ?_⟩
      simp only [mem_singleton, Prod.ext_iff (x := p)]
      constructor
      · rintro ⟨rfl, h⟩
        simpa using h
      · rintro ⟨rfl, h⟩
        simpa using h
    | cons first later =>
      obtain ⟨next, count⟩ := first
      rw [hruns] at hasc hmem
      obtain ⟨hfirst, hlater⟩ := pairwise_cons.mp hasc
      obtain ⟨hnext, hcount⟩ := (hmem (next, count)).mp mem_cons_self
      by_cases he : pair = next
      · subst he
        simp only [if_pos]
        refine ⟨pairwise_cons.mpr ⟨hfirst, hlater⟩, fun p => ?_⟩
        by_cases hp : p.1 = pair
        · have hout : p ∉ later := fun hin => pairLt_ne (hfirst p hin) hp.symm
          simp only [mem_cons, hout, or_false, hp, true_or, true_and, count_cons_self, Prod.ext_iff (x := p)]
          simp only at hcount
          omega
        · have hold := hmem p
          simp only [mem_cons, count_cons_of_ne (Ne.symm hp), hp, false_or, Prod.ext_iff (x := p), false_and] at hold ⊢
          exact hold
      · simp only [if_neg he]
        have hlt : pairLt pair next := pairLt_of_le (hpair next hnext) he
        have hall : ∀ q ∈ (next, count) :: later, pairLt pair q.1 := by
          intro q hq
          rcases mem_cons.mp hq with rfl | hq
          · exact hlt
          · exact pairLt_trans hlt (hfirst q hq)
        have hnot : pair ∉ rest := fun hin => pairLt_ne (hall _ ((hmem (pair, rest.count pair)).mpr ⟨hin, rfl⟩)) rfl
        refine ⟨pairwise_cons.mpr ⟨hall, hasc⟩, fun p => ?_⟩
        rw [mem_cons, hmem p, mem_cons]
        by_cases hp : p.1 = pair
        · simp only [Prod.ext_iff (x := p), hp, hnot, false_and, or_false, true_and, count_cons_self,
            count_eq_zero_of_not_mem hnot]
        · simp only [Prod.ext_iff (x := p), hp, false_and, false_or, count_cons_of_ne (Ne.symm hp)]

theorem exists_multiplicity {left right : List ((Nat × Nat) × Nat)} (hl : Ascending left) (hr : Ascending right)
    {a : Nat × Nat} {n : Nat} (ha : (a, n) ∈ left) : ∃ m, (a, n, m) ∈ multiplicities left right ∧
      ((a, m) ∈ right ∨ (m = 0 ∧ ∀ q ∈ right, q.1 ≠ a)) := by
  induction left generalizing right with
  | nil => cases ha
  | cons first left ih =>
    obtain ⟨pair, count⟩ := first
    obtain ⟨hfirst, hleft⟩ := pairwise_cons.mp hl
    -- what is skipped on the right is smaller than the entry on the left
    have hskip : ∀ q ∈ right, q ∈ (right.dropWhile fun other => pairLt other.1 pair) ∨ pairLt q.1 pair := by
      intro q hq
      rw [← takeWhile_append_dropWhile (p := fun other => pairLt other.1 pair) (l := right), mem_append] at hq
      refine hq.symm.imp_right fun hq => ?_
      exact mem_takeWhile_imp (p := fun other : (Nat × Nat) × Nat => pairLt other.1 pair) hq
    have hsub : ∀ q ∈ (right.dropWhile fun other => pairLt other.1 pair), q ∈ right :=
      fun q hq => (dropWhile_sublist _).subset hq
    have hsorted : Ascending (right.dropWhile fun other => pairLt other.1 pair) := hr.sublist (dropWhile_sublist _)
    have hhead : ∀ q ∈ (right.dropWhile fun other => pairLt other.1 pair).head?, ¬ pairLt q.1 pair := by
      intro q hq
      have := head?_dropWhile_not (fun other : (Nat × Nat) × Nat => pairLt other.1 pair) right
      rw [hq] at this
      simpa using this
    unfold multiplicities
    generalize (right.dropWhile fun other => pairLt other.1 pair) = remaining at *
    have hlater : ∀ (remaining' : List ((Nat × Nat) × Nat)), (∀ q ∈ remaining', q ∈ right) → Ascending remaining' →
        (∀ q ∈ right, q ∈ remaining' ∨ pairLt q.1 pair ∨ q.1 = pair) → (a, n) ∈ left →
        ∃ m, (a, n, m) ∈ multiplicities left remaining' ∧ ((a, m) ∈ right ∨ (m = 0 ∧ ∀ q ∈ right, q.1 ≠ a)) := by
      intro remaining' hsub' hsorted' hskip' hin
      obtain ⟨m, hm, hright⟩ := ih hleft hsorted' hin
      have hlt := hfirst (a, n) hin
      refine ⟨m, hm, hright.imp (hsub' _) fun ⟨hzero, hnone⟩ => ⟨hzero, fun q hq => ?_⟩⟩
      rcases hskip' q hq with hq | hq | hq
      · exact hnone q hq
      · exact pairLt_ne (pairLt_trans hq hlt)
      · exact pairLt_ne (hq ▸ hlt)
    cases remaining with
    | nil =>
      rcases mem_cons.mp ha with heq | hin
      · cases heq
        exact ⟨0, mem_cons_self, Or.inr ⟨rfl, fun q hq => pairLt_ne ((hskip q hq).resolve_left not_mem_nil)⟩⟩
      · obtain ⟨m, hm, hright⟩ := hlater [] hsub hsorted (fun q hq => (hskip q hq).imp_right Or.inl) hin
        exact ⟨m, mem_cons_of_mem _ hm, hright⟩
    | cons other rest =>
      obtain ⟨other, mirrored⟩ := other
      obtain ⟨hother, hrest⟩ := pairwise_cons.mp hsorted
      by_cases he : other = pair
      · subst he
        simp only [if_pos]
        rcases mem_cons.mp ha with heq | hin
        · cases heq
          exact ⟨mirrored, mem_cons_self, Or.inl (hsub _ mem_cons_self)⟩
        · obtain ⟨m, hm, hright⟩ := hlater rest (fun q hq => hsub q (mem_cons_of_mem _ hq)) hrest (fun q hq => by
            rcases hskip q hq with hq | hq
            · rcases mem_cons.mp hq with rfl | hq
              · exact Or.inr (Or.inr rfl)
              · exact Or.inl hq
            · exact Or.inr (Or.inl hq)) hin
          exact ⟨m, mem_cons_of_mem _ hm, hright⟩
      · simp only [if_neg he]
        have hgt : pairLt pair other := by
          rcases pair_cases pair other with h | h | h
          · exact h
          · exact absurd h.symm he
          · exact absurd h (hhead (other, mirrored) rfl)
        rcases mem_cons.mp ha with heq | hin
        · cases heq
          refine ⟨0, mem_cons_self, Or.inr ⟨rfl, fun q hq => ?_⟩⟩
          rcases hskip q hq with hq | hq
          · rcases mem_cons.mp hq with rfl | hq
            · exact he
            · exact (pairLt_ne (pairLt_trans hgt (hother q hq))).symm
          · exact pairLt_ne hq
        · obtain ⟨m, hm, hright⟩ := hlater _ hsub hsorted (fun q hq => (hskip q hq).imp_right Or.inl) hin
          exact ⟨m, mem_cons_of_mem _ hm, hright⟩

theorem perm_of_report {forward reverse : List (Nat × Nat)} (hf : forward.Pairwise fun a b => pairLe a b)
    (hr : reverse.Pairwise fun a b => pairLe a b) (hnone : reportAdjacencyMismatches forward reverse = []) :
    forward.Perm reverse := by
  obtain ⟨hfirst, hsecond⟩ := append_eq_nil_iff.mp hnone
  obtain ⟨hfasc, hfmem⟩ := runs_spec hf
  obtain ⟨hrasc, hrmem⟩ := runs_spec hr
  have hsame : ∀ a ∈ forward, forward.count a = reverse.count a := by
    intro a ha
    obtain ⟨m, hm, hright⟩ := exists_multiplicity hfasc hrasc ((hfmem (a, forward.count a)).mpr ⟨ha, rfl⟩)
    have hcheck := filterMap_eq_nil_iff.mp hfirst _ hm
    have heq : m = forward.count a := by simpa using hcheck
    rcases hright with hin | ⟨rfl, _⟩
    · rw [← heq]
      exact ((hrmem (a, m)).mp hin).2
    · exact absurd heq.symm (count_pos_iff.mpr ha).ne'
  have hsub : ∀ a ∈ reverse, a ∈ forward := by
    intro a ha
    obtain ⟨m, hm, hright⟩ := exists_multiplicity hrasc hfasc ((hrmem (a, reverse.count a)).mpr ⟨ha, rfl⟩)
    have hcheck := filterMap_eq_nil_iff.mp hsecond _ hm
    have hne : m ≠ 0 := by simpa using hcheck
    rcases hright with hin | ⟨hzero, _⟩
    · exact ((hfmem (a, m)).mp hin).1
    · exact absurd hzero hne
  rw [perm_iff_count]
  intro a
  by_cases ha : a ∈ forward
  · exact hsame a ha
  · rw [count_eq_zero_of_not_mem ha, count_eq_zero_of_not_mem fun hin => ha (hsub a hin)]

/-! ## The node checks -/

/-- What the node checks ask: identities within the bound, the two adjacencies one multiset of
entries, and a predecessor for every node that the root reaches. -/
structure NodesChecked (g : RootedView) : Prop where
  root_lt : g.root < g.nodeBound
  nodes_lt : ∀ n ∈ g.nodeIds, n < g.nodeBound
  neighbors_lt : ∀ d, ∀ n ∈ g.nodeIds, ∀ m ∈ g.neighbors d n, m < g.nodeBound
  mirrored : g.forward.Perm g.reverse
  entered : ∀ n ∈ g.nodeIds, ReflTransGen (g.Adjacent .outgoing) g.root n → n ≠ g.root → g.predecessors n ≠ []

theorem boundErrors_nil (g : GraphView) (n : Nat) :
    g.boundErrors n = [] ↔ n < g.nodeBound ∧ ∀ d, ∀ m ∈ g.neighbors d n, m < g.nodeBound := by
  unfold GraphView.boundErrors
  by_cases hn : n < g.nodeBound
  · rw [if_pos hn, append_eq_nil_iff, map_eq_nil_iff, map_eq_nil_iff, filter_eq_nil_iff,
      filter_eq_nil_iff]
    simp only [decide_eq_true_eq, Nat.not_le]
    refine ⟨fun ⟨hs, hp⟩ => ⟨hn, fun d => ?_⟩, fun ⟨_, h⟩ => ⟨h .outgoing, h .incoming⟩⟩
    cases d with
    | outgoing => exact hs
    | incoming => exact hp
  · rw [if_neg hn]
    exact iff_of_false (cons_ne_nil _ _) fun h => hn h.1

theorem mismatches_nil (g : GraphView) : g.mismatches = [] ↔ g.forward.Perm g.reverse := by
  have hsorted : ∀ l : List (Nat × Nat), (l.mergeSort pairLe).Pairwise fun a b => pairLe a b := by
    refine fun l => pairwise_mergeSort (fun a b c hab hbc => ?_) (fun a b => ?_) l
    · rw [pairLe_iff] at *
      omega
    · rw [Bool.or_eq_true, pairLe_iff, pairLe_iff]
      omega
  rw [GraphView.mismatches, ← mergeSort_pairLe_eq_iff]
  split
  · next heq => exact iff_of_true rfl heq
  · next hne =>
    refine iff_of_false (fun hnone => hne ?_) hne
    have hperm := perm_of_report (hsorted _) (hsorted _) hnone
    exact (mergeSort_pairLe_eq_iff _ _).mpr
      ((mergeSort_perm _ _).symm.trans (hperm.trans (mergeSort_perm _ _)))

theorem verifyView_spec (g : RootedView)
    (hrange : ∀ n < g.nodeBound, n ∉ g.nodeIds → ∀ m ∈ g.successors n, m < g.nodeBound) :
    ∃ errors, verifyView g = some errors ∧ (errors = [] ↔ NodesChecked g) := by
  by_cases hroot : g.root < g.nodeBound
  · have hbounds : g.nodeIds.flatMap g.boundErrors = [] ↔
        ∀ n ∈ g.nodeIds, n < g.nodeBound ∧ ∀ d, ∀ m ∈ g.neighbors d n, m < g.nodeBound := by
      rw [flatMap_eq_nil_iff]
      exact forall₂_congr fun n _ => boundErrors_nil g.toGraphView n
    by_cases hin : g.nodeIds.flatMap g.boundErrors = []
    · have hwithin := hbounds.mp hin
      have hlt : ∀ n < g.nodeBound, ∀ m ∈ g.neighbors .outgoing n, m < g.nodeBound := by
        intro n hn m hm
        by_cases hlive : n ∈ g.nodeIds
        · exact (hwithin n hlive).2 .outgoing m hm
        · exact hrange n hn hlive m hm
      obtain ⟨reached, hrun, hreached⟩ := reachable_within hlt (forall_mem_singleton.mpr hroot)
      refine ⟨g.mismatches ++ (g.nodeIds.filter fun n => reached n && n != g.root && (g.predecessors n).isEmpty).map
        .noPredecessor, by simp only [verifyView, if_pos hroot, if_pos hin, hrun, Option.map_some], ?_⟩
      rw [append_eq_nil_iff, mismatches_nil, map_eq_nil_iff, filter_eq_nil_iff]
      constructor
      · intro ⟨hperm, hentered⟩
        refine ⟨hroot, fun n hn => (hwithin n hn).1, fun d n hn => (hwithin n hn).2 d, hperm, fun n hn hreach hne hnone => ?_⟩
        apply hentered n hn
        simp [(hreached n).mpr ⟨g.root, mem_singleton_self _, hreach⟩, hne, hnone]
      · intro h
        refine ⟨h.mirrored, fun n hn hcheck => ?_⟩
        simp only [Bool.and_eq_true, bne_iff_ne, List.isEmpty_iff] at hcheck
        obtain ⟨seed, hseed, hreach⟩ := (hreached n).mp hcheck.1.1
        rw [mem_singleton.mp hseed] at hreach
        exact h.entered n hn hreach hcheck.1.2 hcheck.2
    · refine ⟨g.nodeIds.flatMap g.boundErrors ++ g.mismatches, by simp only [verifyView, if_pos hroot, if_neg hin],
        iff_of_false (fun hnone => ?_) fun h => ?_⟩
      · exact hin (append_eq_nil_iff.mp hnone).1
      · exact hin (hbounds.mpr fun n hn => ⟨h.nodes_lt n hn, fun d => h.neighbors_lt d n hn⟩)
  · exact ⟨_, if_neg hroot, iff_of_false (cons_ne_nil _ _) fun h => hroot h.root_lt⟩

/-! ## The edge checks -/

/-- What the edge checks ask: identities and ends within the bounds, no identity twice, each edge
listed once by each of its ends and by no other node, and no other edge listed. -/
structure EdgesChecked (g : EdgeView δ) : Prop where
  nodup : g.edgeIds.Nodup
  within : ∀ e ∈ g.edgeIds, e < g.edgeBound ∧ (g.edge e).source < g.nodeBound ∧ (g.edge e).target < g.nodeBound
  listed_by : ∀ d, ∀ n ∈ g.nodeIds, ∀ e ∈ g.edges d n, e ∈ g.edgeIds ∧ (g.edge e).next d.against = n
  listed_once : ∀ d, ∀ e ∈ g.edgeIds, (g.nodeIds.flatMap (g.edges d)).count e = 1

def EdgeSlot.listed (slot : EdgeSlot) : TraversalDirection → Nat
  | .outgoing => slot.outgoing
  | .incoming => slot.incoming

theorem live_count (slot : EdgeSlot) (d : TraversalDirection) : (slot.count d).live = slot.live := by
  cases d <;> rfl

theorem listed_count (slot : EdgeSlot) (d d' : TraversalDirection) :
    (slot.count d).listed d' = slot.listed d' + if d = d' then 1 else 0 := by
  cases d <;> cases d' <;> rfl

variable {g : EdgeView δ} {base : List VerifyError} {done : List Nat} {s : SlotCheck}

structure Registered (g : EdgeView δ) (base : List VerifyError) (done : List Nat) (s : SlotCheck) : Prop where
  live : ∀ e, (s.slots e).live = true ↔ e ∈ done ∧ e < g.edgeBound
  listed : ∀ d e, (s.slots e).listed d = 0
  errors : s.errors = [] ↔ base = [] ∧ done.Nodup ∧
    ∀ e ∈ done, e < g.edgeBound ∧ (g.edge e).source < g.nodeBound ∧ (g.edge e).target < g.nodeBound

theorem Registered.register (h : Registered g base done s) (e : Nat) :
    Registered g base (done ++ [e]) (registerEdge g s e) := by
  have hnodup : (done ++ [e]).Nodup ↔ done.Nodup ∧ e ∉ done := by
    rw [← concat_eq_append, nodup_concat]
    exact and_comm
  have hall : ∀ {P : Nat → Prop}, (∀ x ∈ done ++ [e], P x) ↔ (∀ x ∈ done, P x) ∧ P e := by
    intro P
    rw [forall_mem_append, forall_mem_singleton]
  unfold registerEdge
  split
  · next hout =>
    refine ⟨fun x => ?_, h.listed, iff_of_false (by simp) fun hok => ?_⟩
    · rw [h.live x, mem_append, mem_singleton]
      refine ⟨fun ⟨hx, hlt⟩ => ⟨Or.inl hx, hlt⟩, fun ⟨hx, hlt⟩ => ⟨hx.resolve_right fun he => ?_, hlt⟩⟩
      omega
    · have := (hall.mp hok.2.2).2.1
      omega
  · next hin =>
    split
    · next hlive =>
      obtain ⟨hmem, hlt⟩ := (h.live e).mp hlive
      refine ⟨fun x => ?_, h.listed, iff_of_false (by simp) fun hok => ?_⟩
      · rw [h.live x, mem_append, mem_singleton]
        refine ⟨fun ⟨hx, hlt⟩ => ⟨Or.inl hx, hlt⟩, fun ⟨hx, hlt⟩ => ⟨hx.elim id fun he => he ▸ hmem, hlt⟩⟩
      · exact (hnodup.mp hok.2.1).2 hmem
    · next hnew =>
      have hfresh : e ∉ done := fun hmem => hnew ((h.live e).mpr ⟨hmem, Nat.lt_of_not_le hin⟩)
      refine ⟨fun x => ?_, fun d x => ?_, ?_⟩
      · by_cases hx : x = e
        · subst hx
          simp only [update_self]
          exact iff_of_true trivial ⟨by simp, Nat.lt_of_not_le hin⟩
        · simp only [update_of_ne hx, h.live x, mem_append, mem_singleton, hx, or_false]
      · have hold := h.listed d x
        by_cases hx : x = e
        · subst hx
          cases d <;> simpa [EdgeSlot.listed] using hold
        · simpa only [update_of_ne hx] using hold
      · rw [hnodup, hall]
        simp only
        split
        · next hends =>
          refine iff_of_false (by simp) fun hok => ?_
          have := hok.2.2.2
          omega
        · next hends =>
          rw [h.errors]
          refine and_congr_right fun _ => ⟨fun ⟨hd, hok⟩ => ⟨⟨hd, hfresh⟩, hok, by omega⟩, fun ⟨hd, hok⟩ => ⟨hd.1, hok.1⟩⟩

/-- The listings of `done` have been checked, each a direction, a node and an edge. -/
structure Listed (g : EdgeView δ) (before : SlotCheck) (done : List (TraversalDirection × Nat × Nat)) (s : SlotCheck) :
    Prop where
  live : ∀ e, (s.slots e).live = (before.slots e).live
  listed : ∀ d e, (s.slots e).live = true → (s.slots e).listed d = done.countP fun l => l.1 = d ∧ l.2.2 = e
  errors : s.errors = [] ↔ before.errors = [] ∧
    ∀ l ∈ done, (before.slots l.2.2).live = true ∧ (g.edge l.2.2).next l.1.against = l.2.1

theorem Listed.check {before : SlotCheck} {done : List (TraversalDirection × Nat × Nat)}
    (hbound : ∀ e, (before.slots e).live = true → e < g.edgeBound) (h : Listed g before done s)
    (l : TraversalDirection × Nat × Nat) : Listed g before (done ++ [l]) (checkListing g l.1 l.2.1 s l.2.2) := by
  obtain ⟨d, node, e⟩ := l
  have hall : ∀ {P : TraversalDirection × Nat × Nat → Prop}, (∀ x ∈ done ++ [(d, node, e)], P x) ↔
      (∀ x ∈ done, P x) ∧ P (d, node, e) := by
    intro P
    rw [forall_mem_append, forall_mem_singleton]
  unfold checkListing
  simp only
  split
  · next hin =>
    have hlive : (before.slots e).live = true := (h.live e) ▸ hin.2
    refine ⟨fun x => ?_, fun d' x hx => ?_, ?_⟩
    · by_cases hx : x = e
      · subst hx
        simp only [update_self, live_count, h.live]
      · simp only [update_of_ne hx, h.live]
    · rw [countP_append]
      by_cases he : x = e
      · subst he
        simp only [update_self, listed_count, h.listed d' x hin.2]
        by_cases hd : d = d' <;> simp [hd]
      · simp only [update_of_ne he] at hx ⊢
        rw [h.listed d' x hx]
        simp [Ne.symm he]
    · rw [hall]
      split
      · next hstored =>
        rw [h.errors]
        exact and_congr_right fun _ => ⟨fun hok => ⟨hok, hlive, hstored⟩, fun hok => hok.1⟩
      · next hstored => exact iff_of_false (by simp) fun hok => hstored hok.2.2.2
  · next hout =>
    refine ⟨h.live, fun d' x hx => ?_, iff_of_false (by simp) fun hok => hout ?_⟩
    · have hne : x ≠ e := by
        rintro rfl
        exact hout ⟨hbound x ((h.live x) ▸ hx), hx⟩
      rw [countP_append, h.listed d' x hx]
      simp [Ne.symm hne]
    · have hlive := (hall.mp hok.2).2.1
      exact ⟨hbound e hlive, (h.live e).symm ▸ hlive⟩

def EdgeView.listings (g : EdgeView δ) : List (TraversalDirection × Nat × Nat) :=
  (g.nodeIds.filter (· < g.nodeBound)).flatMap fun n =>
    (g.outgoing n).map (fun e => (.outgoing, n, e)) ++ (g.incoming n).map fun e => (.incoming, n, e)

theorem checkListings_eq (s : SlotCheck) : (g.nodeIds.filter (· < g.nodeBound)).foldl
    (fun s node => checkListings g .incoming node (checkListings g .outgoing node s)) s =
      g.listings.foldl (fun s l => checkListing g l.1 l.2.1 s l.2.2) s := by
  rw [EdgeView.listings, foldl_flatMap]
  congr 1
  funext s n
  rw [foldl_append, foldl_map, foldl_map]
  rfl

theorem countP_listings (hnodes : ∀ n ∈ g.nodeIds, n < g.nodeBound) (d : TraversalDirection) (e : Nat) :
    (g.listings.countP fun l => l.1 = d ∧ l.2.2 = e) = (g.nodeIds.flatMap (g.edges d)).count e := by
  have hall : g.nodeIds.filter (· < g.nodeBound) = g.nodeIds :=
    filter_eq_self.mpr fun n hn => decide_eq_true (hnodes n hn)
  rw [EdgeView.listings, hall, countP_flatMap, count_flatMap]
  congr 1
  apply map_congr_left
  intro n _
  cases d with
  | outgoing =>
    simp [countP_map, comp_def, EdgeView.edges, List.count]
    rfl
  | incoming =>
    simp [countP_map, comp_def, EdgeView.edges, List.count]
    rfl

theorem mem_listings (d : TraversalDirection) (n e : Nat) :
    (d, n, e) ∈ g.listings ↔ (n ∈ g.nodeIds ∧ n < g.nodeBound) ∧ e ∈ g.edges d n := by
  rw [EdgeView.listings, mem_flatMap]
  cases d with
  | outgoing => simp [EdgeView.edges]
  | incoming => simp [EdgeView.edges]

theorem verifyEdgeView_spec (g : EdgeView δ) (root : Nat)
    (hrange : ∀ n < g.nodeBound, n ∉ g.nodeIds → ∀ m ∈ g.successors n, m < g.nodeBound) :
    ∃ errors, verifyEdgeView g root = some errors ∧
      (errors = [] ↔ NodesChecked ⟨g.toGraphView, root⟩ ∧ EdgesChecked g) := by
  obtain ⟨base, hbase, hnodes⟩ := verifyView_spec ⟨g.toGraphView, root⟩ hrange
  have hregistered : Registered g base g.edgeIds (g.edgeIds.foldl (registerEdge g) ⟨fun _ => ⟨false, 0, 0⟩, base⟩) := by
    refine foldl_upTo (P := Registered g base) (fun done e s h => h.register e) g.edgeIds [] ⟨?_, ?_, ?_⟩
    · simp
    · exact fun d e => by cases d <;> rfl
    · simp
  generalize hrun : g.edgeIds.foldl (registerEdge g) ⟨fun _ => ⟨false, 0, 0⟩, base⟩ = registered at hregistered
  have hlisted : Listed g registered g.listings (g.listings.foldl (fun s l => checkListing g l.1 l.2.1 s l.2.2) registered) := by
    refine foldl_upTo (P := Listed g registered) (fun done l s h => h.check (fun e he => ((hregistered.live e).mp he).2) l)
      g.listings [] ⟨fun _ => rfl, fun d e _ => ?_, by simp⟩
    simpa using hregistered.listed d e
  generalize hchecked : g.listings.foldl (fun s l => checkListing g l.1 l.2.1 s l.2.2) registered = listed at hlisted
  refine ⟨listed.errors ++ (List.range g.edgeBound).filterMap (miscount listed.slots),
    by simp only [verifyEdgeView, hbase, Option.map_some, checkListings_eq, hrun, hchecked], ?_⟩
  have hcounted : (List.range g.edgeBound).filterMap (miscount listed.slots) = [] ↔
      ∀ d, ∀ e ∈ g.edgeIds, e < g.edgeBound → g.listings.countP (fun l => l.1 = d ∧ l.2.2 = e) = 1 := by
    rw [filterMap_eq_nil_iff]
    constructor
    · intro h d e he hlt
      have hlive : (listed.slots e).live = true := (hlisted.live e).trans ((hregistered.live e).mpr ⟨he, hlt⟩)
      have hcheck := h e (mem_range.mpr hlt)
      rw [← hlisted.listed d e hlive]
      simp only [miscount, hlive, true_and, ite_eq_right_iff, reduceCtorEq, imp_false, not_or, not_not] at hcheck
      cases d with
      | outgoing => exact hcheck.1
      | incoming => exact hcheck.2
    · intro h e he
      rw [miscount, if_neg]
      intro ⟨hlive, hwrong⟩
      obtain ⟨hmem, hlt⟩ := (hregistered.live e).mp ((hlisted.live e).symm.trans hlive)
      have hout := h .outgoing e hmem hlt
      have hin := h .incoming e hmem hlt
      rw [← hlisted.listed _ e hlive] at hout hin
      exact hwrong.elim (fun hne => hne hout) fun hne => hne hin
  rw [append_eq_nil_iff, hcounted, hlisted.errors, hregistered.errors, hnodes]
  constructor
  · intro ⟨⟨⟨hview, hnodup, hwithin⟩, hlist⟩, honce⟩
    refine ⟨hview, hnodup, hwithin, fun d n hn e he => ?_, fun d e he => ?_⟩
    · have hentry := hlist (d, n, e) ((mem_listings d n e).mpr ⟨⟨hn, hview.nodes_lt n hn⟩, he⟩)
      exact ⟨((hregistered.live e).mp hentry.1).1, hentry.2⟩
    · rw [← countP_listings hview.nodes_lt]
      exact honce d e he (hwithin e he).1
  · intro ⟨hview, hedges⟩
    refine ⟨⟨⟨hview, hedges.nodup, hedges.within⟩, fun ⟨d, n, e⟩ hl => ?_⟩, fun d e he _ => ?_⟩
    · obtain ⟨⟨hn, _⟩, he⟩ := (mem_listings d n e).mp hl
      obtain ⟨hmem, hend⟩ := hedges.listed_by d n hn e he
      exact ⟨(hregistered.live e).mpr ⟨hmem, (hedges.within e hmem).1⟩, hend⟩
    · rw [countP_listings hview.nodes_lt]
      exact hedges.listed_once d e he

/-! ## Lawful views -/

theorem GraphView.Lawful.nodesChecked {g : GraphView} (h : g.Lawful) {root : Nat} (hroot : root ∈ g.nodeIds) :
    NodesChecked ⟨g, root⟩ := by
  have hlive : g.nodeIds.filter (· < g.nodeBound) = g.nodeIds :=
    filter_eq_self.mpr fun n hn => decide_eq_true (h.nodeIds_lt n hn)
  have hnear : ∀ d, ∀ n ∈ g.nodeIds, (g.neighbors d n).filter (· < g.nodeBound) = g.neighbors d n := fun d n hn =>
    filter_eq_self.mpr fun m hm => decide_eq_true (h.nodeIds_lt m (h.neighbors_live d hn hm))
  have hfst : ∀ a ∈ g.nodeIds, ∀ x ∈ ((g.successors a).filter (· < g.nodeBound)).map (a, ·), x.1 = a := by
    intro a _ x hx
    obtain ⟨m, _, rfl⟩ := mem_map.mp hx
    rfl
  have hsnd : ∀ b ∈ g.nodeIds, ∀ x ∈ ((g.predecessors b).filter (· < g.nodeBound)).map (·, b), x.2 = b := by
    intro b _ x hx
    obtain ⟨m, _, rfl⟩ := mem_map.mp hx
    rfl
  have hforward : ∀ a b, g.forward.count (a, b) = if a ∈ g.nodeIds then (g.successors a).count b else 0 := by
    intro a b
    rw [GraphView.forward, hlive, count_flatMap_of_nodup Prod.fst h.nodeIds_nodup hfst]
    refine ite_congr rfl (fun ha => ?_) fun _ => rfl
    rw [show (g.successors a).filter (· < g.nodeBound) = g.successors a from hnear .outgoing a ha]
    exact count_map_of_injective _ _ (Prod.mk_right_injective a) b
  have hreverse : ∀ a b, g.reverse.count (a, b) = if b ∈ g.nodeIds then (g.predecessors b).count a else 0 := by
    intro a b
    rw [GraphView.reverse, hlive, count_flatMap_of_nodup Prod.snd h.nodeIds_nodup hsnd]
    refine ite_congr rfl (fun hb => ?_) fun _ => rfl
    rw [show (g.predecessors b).filter (· < g.nodeBound) = g.predecessors b from hnear .incoming b hb]
    exact count_map_of_injective _ _ (Prod.mk_left_injective b) a
  refine ⟨h.nodeIds_lt root hroot, h.nodeIds_lt, fun d n hn m hm => h.nodeIds_lt m (h.neighbors_live d hn hm), ?_, ?_⟩
  · rw [perm_iff_count]
    intro ⟨a, b⟩
    rw [hforward, hreverse]
    by_cases ha : a ∈ g.nodeIds
    · by_cases hb : b ∈ g.nodeIds
      · rw [if_pos ha, if_pos hb, h.transpose a b (h.nodeIds_lt a ha) (h.nodeIds_lt b hb)]
      · rw [if_pos ha, if_neg hb, count_eq_zero]
        exact fun hm => hb (h.successors_live a ha b hm)
    · by_cases hb : b ∈ g.nodeIds
      · rw [if_neg ha, if_pos hb, eq_comm, count_eq_zero]
        exact fun hm => ha (h.predecessors_live b hb a hm)
      · rw [if_neg ha, if_neg hb]
  · intro n hn hreach hne hnone
    rcases hreach.cases_tail with heq | ⟨a, hreach', hstep⟩
    · exact hne heq
    · have ha : a < g.nodeBound := by
        clear hstep
        induction hreach' with
        | refl => exact h.nodeIds_lt root hroot
        | tail _ hab ih => exact h.successors_lt _ _ ih hab
      have hpred := (h.mem_predecessors (h.nodeIds_lt n hn)).mpr ⟨ha, hstep⟩
      rw [show g.predecessors n = [] from hnone] at hpred
      cases hpred

theorem EdgeView.Lawful.edgesChecked (h : g.Lawful) : EdgesChecked g where
  nodup := h.edgeIds_nodup
  within e he := ⟨h.edgeIds_lt e he, h.view.nodeIds_lt _ (h.source_live e he), h.view.nodeIds_lt _ (h.target_live e he)⟩
  listed_by d n hn e he := (h.mem_edges d hn).mp he
  listed_once d e he := by
    apply count_eq_one_of_mem
    · refine nodup_flatMap.mpr ⟨fun n hn => h.edges_nodup d hn, ?_⟩
      refine h.view.nodeIds_nodup.imp_of_mem fun hn hm hne x hx hx' => hne ?_
      rw [← ((h.mem_edges d hn).mp hx).2, ← ((h.mem_edges d hm).mp hx').2]
    · have hend := h.next_live d.against he
      exact mem_flatMap.mpr ⟨_, hend, (h.mem_edges d hend).mpr ⟨he, rfl⟩⟩

/-- The checks of a view report exactly what breaks them, and those of a graph exactly the metadata that
names no live block. -/
theorem verify_exact {ι π : Type} : (∀ (g : EdgeView δ) (root : Nat),
      (∀ n < g.nodeBound, n ∉ g.nodeIds → ∀ m ∈ g.successors n, m < g.nodeBound) →
      ∃ errors, verifyEdgeView g root = some errors ∧
        (errors = [] ↔ NodesChecked ⟨g.toGraphView, root⟩ ∧ EdgesChecked g)) ∧
    ∀ c : Cfg ι π, c.WF → verify c = some (c.danglingAnchors.map .danglingAnchor) := by
  refine ⟨verifyEdgeView_spec, fun c hc => ?_⟩
  have hlawful := hc.lawful_edgeView
  obtain ⟨errors, hrun, hnone⟩ := verifyEdgeView_spec c.edgeView c.entry fun n hn _ m hm => hlawful.view.successors_lt n m hn hm
  have hroot : c.entry ∈ c.edgeView.nodeIds := Cfg.mem_blockIds.mpr hc.entry
  rw [verify, hrun, hnone.mpr ⟨hlawful.view.nodesChecked hroot, hlawful.edgesChecked⟩]
  rfl

/-- A dead root, a node yielded twice, and a node that lists an edge but no neighbor. -/
def strayView : EdgeView Unit where
  nodeBound := 3
  nodeIds := [1, 2, 2]
  successors _ := []
  predecessors _ := []
  edgeBound := 1
  edgeIds := [0]
  outgoing n := if n = 1 then [0] else []
  incoming n := if n = 1 then [0] else []
  edge e := ⟨e, 1, 1, ()⟩

theorem verify_exact_strayView : ∃ errors, verifyEdgeView strayView 0 = some errors ∧
    (errors = [] ↔ NodesChecked ⟨strayView.toGraphView, 0⟩ ∧ EdgesChecked strayView) :=
  (verify_exact (ι := Unit) (π := Unit)).1 strayView 0 (by decide)

/-- The checks find nothing in a view that breaks the contract of its trait in three ways. -/
theorem verifyEdgeView_misses : verifyEdgeView strayView 0 = some [] ∧ 0 ∉ strayView.nodeIds ∧ ¬ strayView.nodeIds.Nodup ∧
    ¬ (strayView.successors 1).Perm ((strayView.outgoing 1).map fun e => (strayView.edge e).target) := by
  refine ⟨?_, by decide, by decide, by decide⟩
  obtain ⟨errors, hrun, hnone⟩ := verifyEdgeView_spec strayView 0 (by decide)
  rw [hrun, hnone.mpr ⟨⟨by decide, by decide, ?_, ?_, ?_⟩, ⟨by decide, by decide, ?_, ?_⟩⟩]
  · intro d n _ m hm
    cases d <;> cases hm
  · exact .nil
  · intro n _ hreach hne
    rcases hreach.cases_head with heq | ⟨m, hstep, _⟩
    · exact absurd heq.symm hne
    · cases hstep
  · intro d
    cases d with
    | outgoing => decide
    | incoming => decide
  · intro d
    cases d with
    | outgoing => decide
    | incoming => decide

end CfgLib

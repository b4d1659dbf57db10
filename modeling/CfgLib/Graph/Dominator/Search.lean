import CfgLib.Graph.Dominator.Construction
import CfgLib.Lib.Semidominator

/-!
# The depth-first numbering

The search loop keeps a depth-first tree: the parents of pending nodes are
ancestors of the node numbered last and descend down the stack, and every
successor still unnumbered is pending under the node that pushed it.  At exit
nothing is pending, so the numbered nodes are those the root reaches.
-/

namespace CfgLib.Dominator.ConstructionBuffers

open CfgLib.Lib Relation List

variable {g : GraphView} {s : ConstructionBuffers}

/-- The edges between numbered nodes, by number. -/
def NumEdge (g : GraphView) (vertex : List Nat) (i j : Nat) : Prop :=
  ∃ a b, vertex[i]? = some a ∧ vertex[j]? = some b ∧ g.Edge a b

/-- What the search loop keeps. -/
structure Searching (g : GraphView) (root : Nat) (s : ConstructionBuffers) : Prop where
  number_iff : ∀ v k, s.number v = some k ↔ s.vertex[k]? = some v
  parent_length : s.parent.length = s.vertex.length
  vertex_lt : ∀ v ∈ s.vertex, v < g.nodeBound
  pending_lt : ∀ p ∈ s.pending, p.node < g.nodeBound
  tree : DfsTree s.vertex.length (NumEdge g s.vertex) s.parentOf
  start : (s.vertex = [] ∧ s.pending = [⟨root, none⟩]) ∨
    (s.vertex[0]? = some root ∧ ∀ p ∈ s.pending, p.parent.isSome)
  pending_edge : ∀ p ∈ s.pending, ∀ j, p.parent = some j → j < s.vertex.length ∧
    (∃ a, s.vertex[j]? = some a ∧ g.Edge a p.node) ∧ Anc s.parentOf j (s.vertex.length - 1)
  pending_sorted : s.pending.Pairwise fun p q => ∀ i j, p.parent = some i → q.parent = some j → j ≤ i
  waiting : ∀ i a w, s.vertex[i]? = some a → g.Edge a w → s.number w = none →
    ⟨w, some i⟩ ∈ s.pending

/-! ## Reading the tables after a visit -/

theorem parentOf_append (s : ConstructionBuffers) (p : Option Nat) (k : Nat) :
    ((s.parent ++ [p])[k]?).join = if k = s.parent.length then p else s.parentOf k := by
  by_cases hk : k = s.parent.length
  · simp [hk]
  · rw [if_neg hk, parentOf]
    by_cases hlt : k < s.parent.length
    · rw [getElem?_append_left hlt]
    · rw [getElem?_eq_none (by simp; omega), getElem?_eq_none (by omega)]

theorem vertex_append_eq_some {vertex : List Nat} {x k v : Nat} :
    (vertex ++ [x])[k]? = some v ↔ vertex[k]? = some v ∨ k = vertex.length ∧ x = v := by
  by_cases hk : k < vertex.length
  · rw [getElem?_append_left hk]
    constructor
    · exact Or.inl
    · rintro (h | ⟨h, _⟩)
      · exact h
      · omega
  · rw [getElem?_append_right (by omega), getElem?_eq_none (by omega : _ ≤ k),
      getElem?_singleton]
    by_cases hk' : k = vertex.length
    · simp [hk']
    · rw [if_neg (by omega)]
      simp [hk']

theorem getElem?_lt {l : List Nat} {k v : Nat} (h : l[k]? = some v) : k < l.length :=
  (List.getElem?_eq_some_iff.mp h).1

/-! ## The tree grows -/

variable {rest : List Pending} {root : Nat} {p : Pending}

theorem Searching.tree_snoc (h : Searching g root s) (hp : s.pending = p :: rest) (hnew : s.number p.node = none) :
    DfsTree (s.vertex.length + 1) (NumEdge g (s.vertex ++ [p.node]))
      (fun k => if k = s.parent.length then p.parent else s.parentOf k) := by
  have hmem : p ∈ s.pending := by simp [hp]
  have hlen := h.parent_length
  have hfresh : ∀ k : Nat, s.vertex[k]? ≠ some p.node := fun k hk => by
    rw [(h.number_iff p.node k).mpr hk] at hnew
    cases hnew
  have hmono : ∀ {a b : Nat}, Anc s.parentOf a b →
      Anc (fun k => if k = s.parent.length then p.parent else s.parentOf k) a b := by
    intro a b
    apply Anc.mono
    intro k j hk
    have hkl : k < s.parent.length := by
      by_contra hc
      rw [parentOf, getElem?_eq_none (by omega)] at hk
      cases hk
    simpa [Nat.ne_of_lt hkl] using hk
  have hold : ∀ {i j : Nat}, j < s.vertex.length → NumEdge g (s.vertex ++ [p.node]) i j →
      i < s.vertex.length → NumEdge g s.vertex i j := by
    rintro i j hj ⟨a, b, ha, hb, he⟩ hi
    rw [getElem?_append_left hi] at ha
    rw [getElem?_append_left hj] at hb
    exact ⟨a, b, ha, hb, he⟩
  refine ⟨?_, ?_, ?_, ?_⟩
  · -- the root of the tree has no parent
    by_cases h0 : s.parent.length = 0
    · rw [if_pos (by omega)]
      rcases h.start with ⟨_, hpend⟩ | ⟨hroot, _⟩
      · rw [hp] at hpend
        rw [(List.cons.inj hpend).1]
      · have := getElem?_lt hroot
        omega
    · rw [if_neg (by omega)]
      exact h.tree.root
  · intro k h0 hk
    by_cases hkl : k = s.vertex.length
    · subst hkl
      have hne : s.vertex ≠ [] := by
        intro hnil
        rw [hnil] at h0
        simp at h0
      obtain ⟨j, hj⟩ : ∃ j, p.parent = some j := by
        rcases h.start with ⟨hnil, _⟩ | ⟨_, hsome⟩
        · exact absurd hnil hne
        · exact Option.isSome_iff_exists.mp (hsome p hmem)
      obtain ⟨hlt, ⟨a, ha, he⟩, hanc⟩ := h.pending_edge p hmem j hj
      refine ⟨j, by simp [hlen, hj], hlt, ⟨a, p.node, ?_, by simp, he⟩, hmono hanc⟩
      rwa [getElem?_append_left hlt]
    · obtain ⟨j, hj, hlt, ⟨a, b, ha, hb, he⟩, hanc⟩ := h.tree.parent_some k h0 (by omega)
      refine ⟨j, by rw [if_neg (by omega)]; exact hj, hlt, ⟨a, b, ?_, ?_, he⟩, hmono hanc⟩
      · rwa [getElem?_append_left (by omega)]
      · rwa [getElem?_append_left (by omega)]
  · intro v w he hvw hw
    by_cases hwl : w = s.vertex.length
    · -- the popped entry is the topmost one for this node
      subst hwl
      obtain ⟨a, b, ha, hb, hedge⟩ := he
      rw [getElem?_append_left hvw] at ha
      have hb' : p.node = b := by simpa using hb
      subst hb'
      have hq := h.waiting v a p.node ha hedge hnew
      obtain ⟨_, _, hancv⟩ := h.pending_edge _ hq v rfl
      obtain ⟨j, hj⟩ : ∃ j, p.parent = some j := by
        rcases h.start with ⟨hnil, _⟩ | ⟨_, hsome⟩
        · rw [hnil] at hvw
          simp at hvw
        · exact Option.isSome_iff_exists.mp (hsome p hmem)
      obtain ⟨hjl, _, hancj⟩ := h.pending_edge p hmem j hj
      have hvj : v ≤ j := by
        rw [hp] at hq
        rcases mem_cons.mp hq with heq | hq
        · rw [← heq] at hj
          cases hj
          exact Nat.le_refl _
        · have hsorted := h.pending_sorted
          rw [hp] at hsorted
          exact (pairwise_cons.mp hsorted).1 _ hq j v hj rfl
      have hvj' := h.tree.anc_of_between (by omega) hancv hvj (by omega)
      exact .step (by simp [hlen, hj]) (hmono hvj')
    · exact hmono (h.tree.forward v w (hold (by omega) he (by omega)) hvw (by omega))
  · rintro v w ⟨a, b, _, hb, _⟩ _
    have := getElem?_lt hb
    simpa using this

/-! ## The loop keeps the invariant -/

theorem searching_searchInit (hroot : root < g.nodeBound)
    (s : ConstructionBuffers) : Searching g root (s.searchInit root) where
  number_iff v k := by simp [searchInit]
  parent_length := rfl
  vertex_lt v hv := by simp [searchInit] at hv
  pending_lt p hp := by
    obtain rfl : p = ⟨root, none⟩ := by simpa [searchInit] using hp
    exact hroot
  tree := by
    refine ⟨rfl, ?_, ?_, ?_⟩
    · intro k _ hk
      simp [searchInit] at hk
    · intro v w _ _ hw
      simp [searchInit] at hw
    · intro v w _ hv
      simp [searchInit] at hv
  start := Or.inl ⟨rfl, rfl⟩
  pending_edge p hp j hj := by
    obtain rfl : p = ⟨root, none⟩ := by simpa [searchInit] using hp
    cases hj
  pending_sorted := by simp [searchInit]
  waiting i a w ha := by simp [searchInit] at ha

theorem Searching.skip (h : Searching g root s) (hp : s.pending = p :: rest) (hseen : (s.number p.node).isSome) :
    Searching g root { s with pending := rest } where
  number_iff := h.number_iff
  parent_length := h.parent_length
  vertex_lt := h.vertex_lt
  pending_lt q hq := h.pending_lt q (by simp [hp, show q ∈ rest from hq])
  tree := h.tree
  start := by
    rcases h.start with ⟨hnil, hpend⟩ | ⟨hroot, hsome⟩
    · obtain ⟨k, hk⟩ := Option.isSome_iff_exists.mp hseen
      have := (h.number_iff _ _).mp hk
      rw [hnil] at this
      simp at this
    · exact Or.inr ⟨hroot, fun q hq => hsome q (by simp [hp, show q ∈ rest from hq])⟩
  pending_edge q hq := h.pending_edge q (by simp [hp, show q ∈ rest from hq])
  pending_sorted := by
    have := h.pending_sorted
    rw [hp] at this
    exact (pairwise_cons.mp this).2
  waiting i a w ha he hw := by
    have hmem := h.waiting i a w ha he hw
    rw [hp] at hmem
    rcases mem_cons.mp hmem with heq | hmem
    · rw [← heq] at hseen
      have hw' : s.number w = none := hw
      simp [hw'] at hseen
    · exact hmem

theorem mem_visit_pending {q : Pending} :
    q ∈ (s.visit g p).pending ↔ (q.node ∈ g.successors p.node ∧
      (s.visit g p).number q.node = none ∧ q.parent = some s.vertex.length) ∨ q ∈ s.pending := by
  rcases q with ⟨w, par⟩
  simp only [visit, mem_append, mem_reverse, mem_map, mem_filter,
    Option.isNone_iff_eq_none, Pending.mk.injEq]
  constructor
  · rintro (⟨w', ⟨h₁, h₂⟩, rfl, rfl⟩ | h)
    · exact Or.inl ⟨h₁, h₂, rfl⟩
    · exact Or.inr h
  · rintro (⟨h₁, h₂, rfl⟩ | h)
    · exact Or.inl ⟨w, ⟨h₁, h₂⟩, rfl, rfl⟩
    · exact Or.inr h

theorem Searching.visit (hg : g.Lawful) (h : Searching g root s)
    (hp : s.pending = p :: rest) (hnew : s.number p.node = none) :
    Searching g root (({ s with pending := rest } : ConstructionBuffers).visit g p) := by
  have hmem : p ∈ s.pending := by simp [hp]
  have hrest : ∀ q ∈ rest, q ∈ s.pending := fun q hq => by simp [hp, hq]
  have hlen := h.parent_length
  have hplt := h.pending_lt p hmem
  have htree := h.tree_snoc hp hnew
  have hparentOf : (({ s with pending := rest } : ConstructionBuffers).visit g p).parentOf =
      fun k => if k = s.parent.length then p.parent else s.parentOf k :=
    funext fun k => parentOf_append s p.parent k
  have hsorted := h.pending_sorted
  rw [hp] at hsorted
  -- the parents below the popped entry are ancestors of the new node
  have hancRest : ∀ q ∈ rest, ∀ i, q.parent = some i → i < s.vertex.length ∧
      Anc (fun k => if k = s.parent.length then p.parent else s.parentOf k) i s.vertex.length := by
    intro q hq i hi
    obtain ⟨hil, _, hanci⟩ := h.pending_edge q (hrest q hq) i hi
    obtain ⟨j, hj⟩ : ∃ j, p.parent = some j := by
      rcases h.start with ⟨hnil, _⟩ | ⟨_, hsome⟩
      · rw [hnil] at hil
        simp at hil
      · exact Option.isSome_iff_exists.mp (hsome p hmem)
    have hij := (pairwise_cons.mp hsorted).1 q hq j i hj hi
    obtain ⟨_, _, hancj⟩ := h.pending_edge p hmem j hj
    have hjk : Anc (fun k => if k = s.parent.length then p.parent else s.parentOf k) j
        s.vertex.length := .step (by simp [hlen, hj]) .refl
    refine ⟨hil, Anc.trans (Anc.mono ?_ (h.tree.anc_of_between (by omega) hanci hij
      (h.tree.anc_le (by omega) hancj))) hjk⟩
    intro k j' hk
    have hkl : k < s.parent.length := by
      by_contra hc
      rw [parentOf, getElem?_eq_none (by omega)] at hk
      cases hk
    simpa [Nat.ne_of_lt hkl] using hk
  have hnumber : ∀ v k, (({ s with pending := rest } : ConstructionBuffers).visit g p).number v =
      some k ↔ (s.vertex ++ [p.node])[k]? = some v := by
    intro v k
    rw [vertex_append_eq_some, ← h.number_iff]
    change Function.update s.number p.node (some s.vertex.length) v = some k ↔ _
    by_cases hv : v = p.node
    · subst hv
      simp [hnew, eq_comm]
    · simp [Function.update_of_ne hv, Ne.symm hv]
  refine ⟨hnumber, ?_, ?_, ?_, ?_, ?_, ?_, ?_, ?_⟩
  · simp [ConstructionBuffers.visit, hlen]
  · intro v hv
    rcases mem_append.mp hv with hv | hv
    · exact h.vertex_lt v hv
    · rw [mem_singleton.mp hv]
      exact hplt
  · intro q hq
    rcases mem_visit_pending.mp hq with ⟨hsucc, _, _⟩ | hq
    · exact hg.successors_lt _ _ hplt hsucc
    · exact h.pending_lt q (hrest q hq)
  · rw [hparentOf]
    simpa [ConstructionBuffers.visit] using htree
  · refine Or.inr ⟨?_, ?_⟩
    · change (s.vertex ++ [p.node])[0]? = some root
      rcases h.start with ⟨hnil, hpend⟩ | ⟨hroot, _⟩
      · rw [hp] at hpend
        simp [hnil, (List.cons.inj hpend).1]
      · exact vertex_append_eq_some.mpr (Or.inl hroot)
    · intro q hq
      rcases mem_visit_pending.mp hq with ⟨_, _, hpar⟩ | hq
      · simp [hpar]
      · rcases h.start with ⟨_, hpend⟩ | ⟨_, hsome⟩
        · rw [hp] at hpend
          rw [(List.cons.inj hpend).2] at hq
          cases hq
        · exact hsome q (hrest q hq)
  · intro q hq j hj
    rw [hparentOf]
    have hl : (({ s with pending := rest } : ConstructionBuffers).visit g p).vertex =
        s.vertex ++ [p.node] := rfl
    rw [hl, length_append, length_singleton, Nat.add_sub_cancel]
    rcases mem_visit_pending.mp hq with ⟨hsucc, _, hpar⟩ | hq
    · rw [hpar] at hj
      cases hj
      exact ⟨Nat.lt_succ_self _, ⟨p.node, by simp, hplt, hsucc⟩, .refl⟩
    · obtain ⟨hjl, hanc⟩ := hancRest q hq j hj
      obtain ⟨_, ⟨a, ha, he⟩, _⟩ := h.pending_edge q (hrest q hq) j hj
      exact ⟨by omega, ⟨a, vertex_append_eq_some.mpr (Or.inl ha), he⟩, hanc⟩
  · refine pairwise_append.mpr ⟨?_, (pairwise_cons.mp hsorted).2, ?_⟩
    · rw [pairwise_reverse, pairwise_map]
      refine pairwise_of_forall ?_
      intro a b i j hi hj
      cases hi
      cases hj
      exact Nat.le_refl _
    · intro a ha b hb i j hi hj
      obtain ⟨w, _, rfl⟩ := mem_map.mp (mem_reverse.mp ha)
      cases hi
      exact Nat.le_of_lt (hancRest b hb j hj).1
  · intro i a w hi he hw
    apply mem_visit_pending.mpr
    rcases vertex_append_eq_some.mp hi with hi | ⟨rfl, rfl⟩
    · right
      have hold : s.number w = none := by
        rw [Option.eq_none_iff_forall_not_mem] at hw ⊢
        intro k hk
        exact hw k ((hnumber w k).mpr (vertex_append_eq_some.mpr
          (Or.inl ((h.number_iff w k).mp hk))))
      have hq := h.waiting i a w hi he hold
      rw [hp] at hq
      rcases mem_cons.mp hq with heq | hq
      · have hwp : w = p.node := by rw [← heq]
        rw [hwp] at hw
        simp [ConstructionBuffers.visit] at hw
      · exact hq
    · exact Or.inl ⟨he.2, hw, rfl⟩

/-! ## Termination -/

/-- Entries still to pop: those pending and those that unnumbered nodes may push. -/
def searchMeasure (g : GraphView) (s : ConstructionBuffers) : Nat :=
  s.pending.length + total (fun v => if (s.number v).isNone then (g.successors v).length else 0)
    (List.range g.nodeBound)

theorem searchMeasure_visit (hlt : p.node < g.nodeBound) (hnew : s.number p.node = none) :
    searchMeasure g (s.visit g p) ≤ searchMeasure g s := by
  have hlen : (s.visit g p).pending.length ≤ (g.successors p.node).length + s.pending.length := by
    simp only [visit, length_append, length_reverse, length_map]
    have := length_filter_le
      (fun w => (Function.update s.number p.node (some s.vertex.length) w).isNone)
      (g.successors p.node)
    omega
  have hdrop : total (fun v => if ((s.visit g p).number v).isNone then (g.successors v).length
        else 0) (List.range g.nodeBound) + (g.successors p.node).length ≤
      total (fun v => if (s.number v).isNone then (g.successors v).length else 0)
        (List.range g.nodeBound) := by
    refine total_drop ?_ (mem_range.mpr hlt) ?_
    · intro v _
      by_cases hv : v = p.node
      · simp [visit, hv]
      · simp [visit, Function.update_of_ne hv]
    · simp [visit, hnew]
  simp only [searchMeasure]
  omega

theorem Searching.step (hg : g.Lawful) (h : Searching g root s)
    {s' : ConstructionBuffers} (hs : searchStep g s = some s') :
    Searching g root s' ∧ searchMeasure g s' < searchMeasure g s := by
  cases hp : s.pending with
  | nil => simp [searchStep, hp] at hs
  | cons p rest =>
    simp only [searchStep, hp] at hs
    have hrest : searchMeasure g { s with pending := rest } < searchMeasure g s := by
      simp [searchMeasure, hp]
    split at hs
    · next hseen =>
      obtain rfl := Option.some.inj hs
      exact ⟨h.skip hp hseen, hrest⟩
    · next hnew =>
      obtain rfl := Option.some.inj hs
      have hnew' : s.number p.node = none := by simpa using hnew
      refine ⟨h.visit hg hp hnew', Nat.lt_of_le_of_lt (searchMeasure_visit ?_ hnew') hrest⟩
      exact h.pending_lt p (by simp [hp])

/-! ## The finished search -/

/-- What the rest of the computation reads of the search. -/
structure Searched (g : GraphView) (root : Nat) (s : ConstructionBuffers) : Prop where
  number_iff : ∀ v k, s.number v = some k ↔ s.vertex[k]? = some v
  vertex_lt : ∀ v ∈ s.vertex, v < g.nodeBound
  root_number : s.vertex[0]? = some root
  tree : DfsTree s.vertex.length (NumEdge g s.vertex) s.parentOf
  closed : ∀ i a w : Nat, s.vertex[i]? = some a → g.Edge a w → s.number w ≠ none

theorem searched_search (hg : g.Lawful) (hroot : root < g.nodeBound)
    (s : ConstructionBuffers) : Searched g root (s.search g root) := by
  have hmeasure : searchMeasure g (s.searchInit root) ≤
      1 + total (fun v => (g.successors v).length) (List.range g.nodeBound) := by
    simp [searchMeasure, searchInit]
  obtain ⟨h, hexit⟩ := iterate_spec (fun _ _ h hs => Searching.step hg h hs)
    (searching_searchInit hroot s) hmeasure
  change Searching g root (s.search g root) at h
  have hpending : (s.search g root).pending = [] := by
    cases hp : (s.search g root).pending with
    | nil => rfl
    | cons p rest =>
      change searchStep g (s.search g root) = none at hexit
      simp only [searchStep, hp] at hexit
      split at hexit <;> cases hexit
  refine ⟨h.number_iff, h.vertex_lt, ?_, h.tree, ?_⟩
  · rcases h.start with ⟨_, hpend⟩ | ⟨hroot, _⟩
    · rw [hpending] at hpend
      cases hpend
    · exact hroot
  · intro i a w hi he hw
    have := h.waiting i a w hi he hw
    rw [hpending] at this
    cases this

end CfgLib.Dominator.ConstructionBuffers

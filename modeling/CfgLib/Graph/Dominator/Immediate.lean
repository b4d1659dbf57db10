import CfgLib.Graph.Dominator.Process

/-!
# Immediate dominators

The ascending pass resolves every relative dominator, and the numbering carries
the result back to nodes: the parent table holds the immediate dominator of
every reached node but the root, whatever the buffers held before.
-/

namespace CfgLib.Dominator.ConstructionBuffers

open CfgLib.Lib Relation

variable {g : GraphView} {root : Nat} {s : ConstructionBuffers}

theorem Searched.vertex_get (hs : Searched g root s) {k : Nat} (hk : k < s.reached) :
    s.number (s.vertexOf k) = some k := by
  rw [hs.number_iff, vertexOf, List.getD_eq_getElem?_getD, List.getElem?_eq_getElem hk]
  rfl

theorem Searched.number_lt (hs : Searched g root s) {v k : Nat} (hv : s.number v = some k) :
    k < s.reached :=
  getElem?_lt ((hs.number_iff v k).mp hv)

theorem Searched.vertexOf_eq (hs : Searched g root s) {v k : Nat} (hv : s.number v = some k) :
    s.vertexOf k = v := by
  rw [vertexOf, List.getD_eq_getElem?_getD, (hs.number_iff v k).mp hv]
  rfl

/-! ## The ascending pass -/

theorem resolve_isIdom (hs : Processed g root 1 s) {w : Nat} (h0 : 0 < w) (hw : w < s.reached)
    {D : Nat → Option Nat} (hsame : D w = s.dominator w)
    (hdone : ∀ j, 0 < j → j < w → ∃ i, D j = some i ∧ i < j ∧ IsIdom (NumEdge g s.vertex) 0 i j) :
    ∃ i, (if D w ≠ some (s.semi w) then (D w).bind D else D w) = some i ∧ i < w ∧
      IsIdom (NumEdge g s.vertex) 0 i w := by
  have htree := hs.searched.tree
  have hsemi : ∀ u, 0 < u → u < s.reached → IsSemi (NumEdge g s.vertex) u (s.semi u) :=
    fun u hu hun => (hs.complete hu hun).1
  obtain ⟨hsw, d, hd, hrel⟩ := hs.complete h0 hw
  have hlt := htree.semi_lt h0 hw hsw
  rw [hsame, hd]
  by_cases heq : d = s.semi w
  · rw [if_neg (by simp [heq])]
    exact ⟨d, rfl, by omega, htree.isIdom_relative h0 hw hsemi hrel (by rw [if_pos heq])⟩
  · rw [if_pos (by simpa using heq)]
    have hdw : 0 < d ∧ d < w := by
      rcases hrel with ⟨hc, _⟩ | ⟨hgt, hanc, hless, _⟩
      · exact absurd hc heq
      · have hle := htree.anc_le hw hanc
        have : d ≠ w := fun e => by rw [e] at hless; omega
        omega
    obtain ⟨i, hi, hid, hidom⟩ := hdone d hdw.1 hdw.2
    exact ⟨i, hi, by omega, htree.isIdom_relative h0 hw hsemi hrel (by rw [if_neg heq]; exact hidom)⟩

/-- The parent table after the nodes up to `m`. -/
structure Resolved (g : GraphView) (s : ConstructionBuffers) (m : Nat)
    (r : ConstructionBuffers × (Nat → Option Nat)) : Prop where
  frame : ∃ D, r.1 = { s with dominator := D }
  later : ∀ j, m < j → r.1.dominator j = s.dominator j
  done : ∀ j, 0 < j → j ≤ m → ∃ i, r.1.dominator j = some i ∧ i < j ∧
    IsIdom (NumEdge g s.vertex) 0 i j ∧ r.2 (s.vertexOf j) = some (s.vertexOf i)
  absent : ∀ v, (∀ j, 0 < j → j ≤ m → s.vertexOf j ≠ v) → r.2 v = none

theorem resolved_foldl (hs : Processed g root 1 s) (m : Nat) (hm : m < s.reached) :
    Resolved g s m ((List.range' 1 m).foldl resolve (s, fun _ => none)) := by
  induction m with
  | zero => exact ⟨⟨s.dominator, rfl⟩, fun _ _ => rfl, fun j hj hj' => by omega, fun _ _ => rfl⟩
  | succ m ih =>
    have hprev := ih (by omega)
    rw [List.range'_1_concat, List.foldl_append, Nat.add_comm 1 m]
    obtain ⟨⟨s', idom⟩, hr⟩ : ∃ r, (List.range' 1 m).foldl resolve (s, fun _ => none) = r := ⟨_, rfl⟩
    rw [hr] at hprev ⊢
    obtain ⟨⟨D, hD⟩, hlater, hdone, habsent⟩ := hprev
    dsimp only at hD
    subst hD
    dsimp only at hlater hdone habsent
    obtain ⟨i, hi, hlt, hidom⟩ := resolve_isIdom hs (by omega : 0 < m + 1) hm
      (hlater (m + 1) (by omega)) fun j hj hjm => by
        obtain ⟨i, h₁, h₂, h₃, _⟩ := hdone j hj (by omega)
        exact ⟨i, h₁, h₂, h₃⟩
    have hstep : resolve ({ s with dominator := D }, idom) (m + 1) =
        ({ s with dominator := Function.update D (m + 1) (some i) },
          Function.update idom (s.vertexOf (m + 1)) (some (s.vertexOf i))) := by
      simp only [resolve, hi]
      rfl
    rw [List.foldl_cons, List.foldl_nil, hstep]
    have hinj : ∀ j, j ≤ m → s.vertexOf j ≠ s.vertexOf (m + 1) := by
      intro j hj he
      have h₁ := hs.searched.vertex_get (show j < s.reached by omega)
      have h₂ := hs.searched.vertex_get hm
      rw [he, h₂] at h₁
      have := Option.some.inj h₁
      omega
    refine ⟨⟨_, rfl⟩, ?_, ?_, ?_⟩
    · intro j hj
      exact (Function.update_of_ne (by omega) _ _).trans (hlater j (by omega))
    · intro j hj hjm
      by_cases hjeq : j = m + 1
      · subst hjeq
        exact ⟨i, by simp, hlt, hidom, by simp⟩
      · obtain ⟨i', h₁, h₂, h₃, h₄⟩ := hdone j hj (by omega)
        refine ⟨i', ?_, h₂, h₃, ?_⟩
        · exact (Function.update_of_ne hjeq _ _).trans h₁
        · exact (Function.update_of_ne (hinj j (by omega)) _ _).trans h₄
    · intro v hv
      have hne := hv (m + 1) (by omega) (Nat.le_refl _)
      exact (Function.update_of_ne (Ne.symm hne) _ _).trans
        (habsent v fun j hj hjm => hv j hj (by omega))

/-! ## Back to nodes -/

theorem Searched.corresponds (hs : Searched g root s) :
    Corresponds g.Edge (NumEdge g s.vertex) fun v k => s.number v = some k where
  forth a a' b ha he := by
    have ha' := (hs.number_iff a a').mp ha
    obtain ⟨b', hb'⟩ := Option.ne_none_iff_exists'.mp (hs.closed a' a b ha' he)
    exact ⟨b', hb', a, b, ha', (hs.number_iff b b').mp hb', he⟩
  back a a' b' ha he := by
    obtain ⟨x, b, hx, hb, he⟩ := he
    rw [(hs.number_iff a a').mp ha] at hx
    cases hx
    exact ⟨b, (hs.number_iff b b').mpr hb, he⟩
  left_unique a b c ha hb := by
    have ha' := (hs.number_iff a c).mp ha
    rw [(hs.number_iff b c).mp hb] at ha'
    exact (Option.some.inj ha').symm
  right_unique a c d hc hd := by
    rw [hc] at hd
    exact Option.some.inj hd

theorem Searched.number_iff_reaches (hs : Searched g root s) (v : Nat) :
    (∃ k, s.number v = some k) ↔ ReflTransGen g.Edge root v := by
  have hroot := (hs.number_iff root 0).mpr hs.root_number
  constructor
  · rintro ⟨k, hk⟩
    have hpath : ReflTransGen (NumEdge g s.vertex) 0 k :=
      ReflTransGen.mono (fun _ _ he => he.1) _ _
        (hs.tree.tree_path (hs.number_lt hk) (hs.tree.anc_root (hs.number_lt hk)))
    obtain ⟨v', hv', hreach⟩ := hs.corresponds.symm.reaches hroot hpath
    rwa [hs.corresponds.left_unique v' v k hv' hk] at hreach
  · intro hreach
    obtain ⟨k, hk, _⟩ := hs.corresponds.reaches hroot hreach
    exact ⟨k, hk⟩

/-- A parent table of immediate dominators.  The rank, a depth-first number in
the construction, shows that following parents ends. -/
structure IsIdomTable (g : GraphView) (root : Nat) (idom : Nat → Option Nat) : Prop where
  idom_some : ∀ v, ReflTransGen g.Edge root v → v ≠ root →
    ∃ a, idom v = some a ∧ IsIdom g.Edge root a v
  idom_root : idom root = none
  idom_unreached : ∀ v, ¬ ReflTransGen g.Edge root v → idom v = none
  ranked : ∃ (rank : Nat → Nat) (top : Nat), (∀ v, rank v ≤ top) ∧
    ∀ v a, idom v = some a → rank a < rank v

theorem immediateDominators_spec (hg : g.Lawful) (hroot : root < g.nodeBound)
    (s : ConstructionBuffers) : Searched g root (s.immediateDominators g root).1 ∧
      IsIdomTable g root (s.immediateDominators g root).2 := by
  have hsearched := searched_search hg hroot s
  have hpos : 0 < (s.search g root).reached := getElem?_lt hsearched.root_number
  have hprep : Processed g root ((s.search g root).prepare.reached - 1 + 1)
      (s.search g root).prepare := by
    have heq : (s.search g root).prepare.reached - 1 + 1 = (s.search g root).reached :=
      Nat.sub_add_cancel hpos
    rw [heq]
    exact hsearched.prepare
  obtain ⟨hsame, hproc⟩ := foldl_process hg ((s.search g root).prepare.reached - 1)
    (s.search g root).prepare hprep (Nat.sub_lt hpos Nat.one_pos)
  unfold immediateDominators
  generalize hp : (List.range' 1 ((s.search g root).prepare.reached - 1)).reverse.foldl (process g)
    (s.search g root).prepare = p at hsame hproc
  dsimp only
  rw [hp]
  have hs := hproc.searched
  have hpos' : 0 < p.reached := getElem?_lt hs.root_number
  have hroot' : p.number root = some 0 := (hs.number_iff root 0).mpr hs.root_number
  obtain ⟨⟨D, hD⟩, _, hdone, habsent⟩ := resolved_foldl hproc (p.reached - 1) (by omega)
  generalize (List.range' 1 (p.reached - 1)).foldl resolve (p, fun _ => none) = r at *
  -- a node with a parent has a positive number, and the parent a smaller one
  have hback : ∀ v a, r.2 v = some a → ∃ j i, p.number v = some j ∧ 0 < j ∧ i < j ∧
      p.number a = some i ∧ IsIdom (NumEdge g p.vertex) 0 i j := by
    intro v a hva
    by_cases hex : ∃ j, 0 < j ∧ j ≤ p.reached - 1 ∧ p.vertexOf j = v
    · obtain ⟨j, hj, hjr, rfl⟩ := hex
      obtain ⟨i, _, hij, hidom, htable⟩ := hdone j hj hjr
      rw [hva] at htable
      cases htable
      exact ⟨j, i, hs.vertex_get (by omega), hj, hij, hs.vertex_get (by omega), hidom⟩
    · rw [habsent v fun j hj hjr he => hex ⟨j, hj, hjr, he⟩] at hva
      cases hva
  refine ⟨?_, ?_, ?_, ?_, ?_⟩
  · rw [hD]
    exact hs.congr ⟨rfl, rfl, rfl⟩
  · intro v hreach hne
    obtain ⟨j, hj⟩ := (hs.number_iff_reaches v).mpr hreach
    have hj0 : 0 < j := by
      rcases Nat.eq_zero_or_pos j with rfl | hpos
      · exact absurd (hs.corresponds.left_unique v root 0 hj hroot') hne
      · exact hpos
    have hjr := hs.number_lt hj
    obtain ⟨i, _, hij, hidom, htable⟩ := hdone j hj0 (by omega)
    rw [hs.vertexOf_eq hj] at htable
    exact ⟨_, htable, hs.corresponds.isIdom hroot' (hs.vertex_get (by omega)) hj hreach hidom⟩
  · cases hr : r.2 root with
    | none => rfl
    | some a =>
      obtain ⟨j, _, hj, hj0, _⟩ := hback root a hr
      rw [hroot'] at hj
      cases hj
      omega
  · intro v hno
    cases hr : r.2 v with
    | none => rfl
    | some a =>
      obtain ⟨j, _, hj, _⟩ := hback v a hr
      exact absurd ((hs.number_iff_reaches v).mp ⟨j, hj⟩) hno
  · refine ⟨fun v => (p.number v).getD 0, p.reached, ?_, ?_⟩
    · intro v
      cases hv : p.number v with
      | none => simp [hv]
      | some k =>
        have := hs.number_lt hv
        simpa [hv] using Nat.le_of_lt this
    · intro v a hva
      obtain ⟨j, i, hj, _, hij, hi, _⟩ := hback v a hva
      simpa [hj, hi] using hij

end CfgLib.Dominator.ConstructionBuffers

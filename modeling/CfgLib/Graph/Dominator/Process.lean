import CfgLib.Graph.Dominator.LinkEval

/-!
# Semidominators and relative dominators

The descending pass.  At threshold `t` the numbers from `t` on carry their
semidominators; those whose tree path to the semidominator is linked also carry
their relative dominators, and the others wait in the bucket of their
semidominator.
-/

namespace CfgLib.Dominator.ConstructionBuffers

open CfgLib.Lib List Function

variable {g : GraphView} {root n t : Nat} {E : Nat → Nat → Prop} {parent : Nat → Option Nat}
  {semi : Nat → Nat} {s : ConstructionBuffers}

/-- The tree path from below the semidominator down to `v` is linked. -/
def Settled (parent : Nat → Option Nat) (semi : Nat → Nat) (t v : Nat) : Prop :=
  ∀ u, Anc parent u v → semi v < u → t ≤ u

/-- The list a bucket's links denote. -/
inductive Bucket (next : Nat → Option Nat) : Option Nat → List Nat → Prop
  | nil : Bucket next none []
  | cons {v : Nat} {l : List Nat} : Bucket next (next v) l → Bucket next (some v) (v :: l)

theorem Bucket.congr {next next' : Nat → Option Nat} {head : Option Nat} {l : List Nat}
    (h : Bucket next head l) (heq : ∀ v ∈ l, next' v = next v) : Bucket next' head l := by
  induction h with
  | nil => exact .nil
  | @cons v l _ ih =>
    refine .cons ?_
    rw [heq v (by simp)]
    exact ih fun u hu => heq u (by simp [hu])

def Waits (n t : Nat) (parent : Nat → Option Nat) (s : ConstructionBuffers) (p : Nat)
    (l : List Nat) : Prop :=
  Bucket s.bucketNext (s.bucketHead p) l ∧ l.Nodup ∧
    ∀ v, v ∈ l ↔ t ≤ v ∧ v < n ∧ s.semi v = p ∧ ¬ Settled parent s.semi t v

structure SameSearch (s s' : ConstructionBuffers) : Prop where
  number : s'.number = s.number
  vertex : s'.vertex = s.vertex
  parent : s'.parent = s.parent

theorem SameSearch.refl (s : ConstructionBuffers) : SameSearch s s := ⟨rfl, rfl, rfl⟩

variable {s' : ConstructionBuffers} {m p v w : Nat} {semi' : Nat → Nat}

theorem SameSearch.trans {s'' : ConstructionBuffers} (h : SameSearch s s')
    (h' : SameSearch s' s'') : SameSearch s s'' :=
  ⟨h'.number.trans h.number, h'.vertex.trans h.vertex, h'.parent.trans h.parent⟩

theorem SameSearch.parentOf (h : SameSearch s s') : s'.parentOf = s.parentOf :=
  funext fun k => by rw [ConstructionBuffers.parentOf, ConstructionBuffers.parentOf, h.parent]

theorem SameSearch.reached (h : SameSearch s s') : s'.reached = s.reached := by
  rw [ConstructionBuffers.reached, ConstructionBuffers.reached, h.vertex]

theorem Searched.congr (hs : Searched g root s) (h : SameSearch s s') : Searched g root s' := by
  refine ⟨?_, ?_, ?_, ?_, ?_⟩
  · simpa only [h.number, h.vertex] using hs.number_iff
  · simpa only [h.vertex] using hs.vertex_lt
  · simpa only [h.vertex] using hs.root_number
  · simpa only [h.vertex, h.parentOf] using hs.tree
  · simpa only [h.number, h.vertex] using hs.closed

/-- What the descending pass keeps. -/
structure Processed (g : GraphView) (root t : Nat) (s : ConstructionBuffers) : Prop where
  searched : Searched g root s
  forest : s.IsLinked s.reached s.parentOf t
  semi : ∀ k, t ≤ k → k < s.reached → IsSemi (NumEdge g s.vertex) k (s.semi k)
  pristine : ∀ k, k < t → s.semi k = k ∧ (0 < k → s.dominator k = s.parentOf k)
  dominator : ∀ v, t ≤ v → v < s.reached → Settled s.parentOf s.semi t v →
    ∃ d, s.dominator v = some d ∧ IsRelative s.parentOf s.semi v d
  buckets : ∀ p, p < s.reached → ∃ l, s.Waits s.reached t s.parentOf p l

/-! ## Changing a semidominator below the threshold -/

theorem LinkedTo.congr {t' k a l : Nat} (htt : t' ≤ t)
    (h : LinkedTo parent semi t k a l) (heq : ∀ u, t ≤ u → semi' u = semi u) :
    LinkedTo parent semi' t' k a l := by
  have hl := h.linked l h.label.lt h.label.anc
  refine ⟨h.anc, h.lt, fun u hu hanc => Nat.le_trans htt (h.linked u hu hanc),
    h.label.lt, h.label.anc, ?_⟩
  intro u hu hanc
  rw [heq l hl, heq u (h.linked u hu hanc)]
  exact h.label.least u hu hanc

theorem Settled.mono {t' : Nat} (htt : t' ≤ t) (h : Settled parent semi t v) :
    Settled parent semi t' v :=
  fun u hanc hu => Nat.le_trans htt (h u hanc hu)

theorem settled_congr (hv : semi' v = semi v) :
    Settled parent semi' t v ↔ Settled parent semi t v := by
  simp only [Settled, hv]

theorem isRelative_congr {d : Nat} (hv : t ≤ v) (hset : Settled parent semi t v) (heq : ∀ u, t ≤ u → semi' u = semi u)
    (h : IsRelative parent semi v d) : IsRelative parent semi' v d := by
  rcases h with ⟨rfl, hmin⟩ | ⟨hd, hanc, hlt, hmin⟩
  · refine Or.inl ⟨(heq v hv).symm, ?_⟩
    intro u hu hanc
    rw [heq v hv] at hu ⊢
    rw [heq u (hset u hanc hu)]
    exact hmin u hu hanc
  · refine Or.inr ?_
    rw [heq v hv, heq d (hset d hanc hd)]
    refine ⟨hd, hanc, hlt, ?_⟩
    intro u hu hanc'
    rw [heq u (hset u hanc' hu)]
    exact hmin u hu hanc'

/-! ## Tree facts about settling -/

/-- The nodes strictly below the search parent on the path to `w` are `w` alone. -/
theorem eq_of_anc_parent (h : DfsTree n E parent) {u : Nat} (hw : w < n)
    (hp : parent w = some p) (hanc : Anc parent u w) (hlt : p < u) : u = w := by
  by_contra hne
  have := h.anc_le (by have := h.parent_lt hw hp; omega) (hanc.parent hne hp)
  omega

/-- Linking `w` settles every node that waits for its search parent. -/
theorem settled_of_parent (h : DfsTree n E parent) (hv : v < n) (hwv : w ≤ v)
    (hp : parent w = some p) (hsemi : semi v = p) : Settled parent semi w v := by
  intro u hanc hu
  by_contra hlt
  have huw := h.anc_of_between hv hanc (by omega : u ≤ w) hwv
  have := eq_of_anc_parent h (by omega) hp huw (by omega)
  omega

theorem settled_succ_of_ne (h : DfsTree n E parent) (hv : v < n) (hwv : w < v)
    (hp : parent w = some p) (hsemi : Anc parent (semi v) v) (hne : semi v ≠ p)
    (hset : Settled parent semi w v) : Settled parent semi (w + 1) v := by
  intro u hanc hu
  have hwu := hset u hanc hu
  rcases Nat.lt_or_ge w u with hlt | hge
  · exact hlt
  · exfalso
    obtain rfl : u = w := by omega
    have hpw := h.parent_lt (by omega) hp
    have hsp : semi v ≤ p := by
      have hsu := h.anc_of_le hv hsemi hanc (by omega)
      exact h.anc_le (by omega) (hsu.parent (by omega) hp)
    have := hset p (Anc.trans (.step hp .refl) hanc) (by omega)
    omega

theorem settled_self (h : DfsTree n E parent) (hw : w < n) (hp : parent w = some p)
    (hle : semi w ≤ p) : Settled parent semi w w ↔ semi w = p := by
  constructor
  · intro hset
    by_contra hne
    have := hset p (.step hp .refl) (by omega)
    have := h.parent_lt hw hp
    omega
  · intro hsemi u hanc hu
    have := eq_of_anc_parent h hw hp hanc (by omega)
    omega

/-! ## The candidate semidominator -/

theorem Evaluated.semi_eq (h : Evaluated s s') : s'.semi = s.semi := by
  obtain ⟨_, _, _, rfl⟩ := h
  rfl

theorem Evaluated.number_eq (h : Evaluated s s') : s'.number = s.number := by
  obtain ⟨_, _, _, rfl⟩ := h
  rfl

theorem Evaluated.reached_eq (h : Evaluated s s') : s'.reached = s.reached := by
  obtain ⟨_, _, _, rfl⟩ := h
  rfl

theorem foldl_offer (h : DfsTree n E parent) (ps : List Nat) :
    ∀ acc : ConstructionBuffers × Nat, acc.1.IsLinked n parent t → acc.1.reached = n →
      (∀ p v, acc.1.number p = some v → v < n) →
      (ps.foldl offer acc).1.IsLinked n parent t ∧ Evaluated acc.1 (ps.foldl offer acc).1 ∧
      ((ps.foldl offer acc).2 = acc.2 ∨ ∃ p ∈ ps, ∃ v l, acc.1.number p = some v ∧
        IsValue parent acc.1.semi t v l ∧ (ps.foldl offer acc).2 = acc.1.semi l) ∧
      (ps.foldl offer acc).2 ≤ acc.2 ∧ ∀ p ∈ ps, ∀ v, acc.1.number p = some v →
        ∃ l, IsValue parent acc.1.semi t v l ∧ (ps.foldl offer acc).2 ≤ acc.1.semi l := by
  induction ps with
  | nil =>
    intro acc hs _ _
    exact ⟨hs, .refl _, Or.inl rfl, Nat.le_refl _, by simp⟩
  | cons p ps ih =>
    intro acc hs hreached hnum
    rw [foldl_cons]
    cases hp : acc.1.number p with
    | none =>
      have hoffer : offer acc p = acc := by simp [offer, hp]
      rw [hoffer]
      obtain ⟨h₁, h₂, h₃, h₄, h₅⟩ := ih acc hs hreached hnum
      refine ⟨h₁, h₂, ?_, h₄, ?_⟩
      · rcases h₃ with heq | ⟨q, hq, hrest⟩
        · exact Or.inl heq
        · exact Or.inr ⟨q, by simp [hq], hrest⟩
      · intro q hq v hv
        rcases mem_cons.mp hq with rfl | hq
        · rw [hp] at hv
          cases hv
        · exact h₅ q hq v hv
    | some v =>
      obtain ⟨he₁, he₂, he₃⟩ := evaluate_spec h hs hreached (hnum p v hp)
      have hsemi := he₂.semi_eq
      have hoffer : offer acc p = ((acc.1.evaluate v).1,
          min acc.2 (acc.1.semi (acc.1.evaluate v).2)) := by
        simp [offer, hp, hsemi]
      rw [hoffer]
      obtain ⟨h₁, h₂, h₃, h₄, h₅⟩ := ih ((acc.1.evaluate v).1,
        min acc.2 (acc.1.semi (acc.1.evaluate v).2)) he₁ (by rw [he₂.reached_eq]; exact hreached)
        (by rw [he₂.number_eq]; exact hnum)
      simp only [hsemi, he₂.number_eq] at h₃ h₅
      have hle₁ := Nat.le_trans h₄ (Nat.min_le_left _ _)
      have hle₂ := Nat.le_trans h₄ (Nat.min_le_right _ _)
      refine ⟨h₁, he₂.trans h₂, ?_, hle₁, ?_⟩
      · rcases h₃ with heq | ⟨q, hq, hrest⟩
        · rcases Nat.le_total acc.2 (acc.1.semi (acc.1.evaluate v).2) with hle | hle
          · exact Or.inl (by rw [heq, Nat.min_eq_left hle])
          · exact Or.inr ⟨p, by simp, v, _, hp, he₃, by rw [heq, Nat.min_eq_right hle]⟩
        · exact Or.inr ⟨q, by simp [hq], hrest⟩
      · intro q hq w hw
        rcases mem_cons.mp hq with rfl | hq
        · rw [hp] at hw
          cases hw
          exact ⟨_, he₃, hle₂⟩
        · exact h₅ q hq w hw

theorem offer_isSemi (hg : g.Lawful) (hs : Processed g root (w + 1) s) (h0 : 0 < w) (hw : w < s.reached)
    (hr : (g.predecessors (s.vertexOf w)).foldl offer (s, s.semi w) = (s', m)) :
    s'.IsLinked s.reached s.parentOf (w + 1) ∧ Evaluated s s' ∧
      IsSemi (NumEdge g s.vertex) w m := by
  have htree := hs.searched.tree
  have hnumlt : ∀ p v, s.number p = some v → v < s.reached := fun p v hv =>
    getElem?_lt ((hs.searched.number_iff p v).mp hv)
  obtain ⟨h₁, h₂, h₃, h₄, h₅⟩ := foldl_offer htree (g.predecessors (s.vertexOf w)) (s, s.semi w)
    hs.forest rfl hnumlt
  rw [hr] at h₁ h₂ h₃ h₅
  dsimp only at h₁ h₂ h₃ h₅
  refine ⟨h₁, h₂, ?_⟩
  have hwv : s.vertex[w]? = some (s.vertexOf w) := by
    rw [vertexOf, getD_eq_getElem?_getD, getElem?_eq_getElem hw]
    rfl
  have hwlt := hs.searched.vertex_lt _ (mem_of_getElem? hwv)
  have hpred : ∀ p v, s.number p = some v →
      (p ∈ g.predecessors (s.vertexOf w) ↔ NumEdge g s.vertex v w) := by
    intro p v hv
    have hpv := (hs.searched.number_iff p v).mp hv
    rw [hg.mem_predecessors hwlt]
    constructor
    · exact fun he => ⟨p, _, hpv, hwv, he⟩
    · rintro ⟨a, b, ha, hb, he⟩
      rw [hpv] at ha
      rw [hwv] at hb
      cases ha
      cases hb
      exact he
  have hlow : ∀ k, k ≤ w → s.semi k = k := fun k hk => (hs.pristine k (by omega)).1
  refine htree.isSemi_of_predecessors h0 hw (fun u hu hun => hs.semi u hu hun)
    ?_ ?_ ?_
  · rcases h₃ with heq | ⟨p, hp, v, l, hv, hval, heq⟩
    · exact Or.inl (by rw [heq]; exact hlow w (Nat.le_refl _))
    · have hedge := (hpred p v hv).mp hp
      rcases hval with ⟨hlt, rfl⟩ | ⟨hge, hl, hanc, _⟩
      · have hll := hlow l (by omega)
        rcases Nat.lt_or_ge l w with hlw | hge
        · exact Or.inr ⟨l, hedge, hnumlt p l hv, Or.inl ⟨hlw, by omega⟩⟩
        · exact Or.inl (by omega)
      · exact Or.inr ⟨v, hedge, hnumlt p v hv, Or.inr ⟨l, by omega, hanc, heq⟩⟩
  · intro v hedge hvn hvw
    obtain ⟨a, _, ha, _, _⟩ := id hedge
    have hnum := (hs.searched.number_iff a v).mpr ha
    obtain ⟨l, hval, hle⟩ := h₅ a ((hpred a v hnum).mpr hedge) v hnum
    rcases hval with ⟨_, rfl⟩ | ⟨hge, _⟩
    · have := hlow l (by omega)
      omega
    · omega
  · intro v u hedge hvn hwu hanc
    obtain ⟨a, _, ha, _, _⟩ := id hedge
    have hnum := (hs.searched.number_iff a v).mpr ha
    obtain ⟨l, hval, hle⟩ := h₅ a ((hpred a v hnum).mpr hedge) v hnum
    rcases hval with ⟨hlt, rfl⟩ | ⟨_, _, _, hmin⟩
    · have := htree.anc_le hvn hanc
      omega
    · exact Nat.le_trans hle (hmin u (by omega) hanc)

/-! ## Linking -/

/-- Linking `w` below its search parent lowers the threshold of the forest. -/
theorem IsLinked.link (h : DfsTree n E parent) (hs : s.IsLinked n parent (w + 1))
    (hw : w < n) (hp : s.parentOf w = some p) (hparent : parent w = some p) :
    (s.link w m).IsLinked n parent w := by
  have hsemi : (s.link w m).semi = update s.semi w m := by
    simp only [ConstructionBuffers.link]
    split <;> rfl
  have hanc : (s.link w m).ancestor = update s.ancestor w (some p) := by
    simp only [ConstructionBuffers.link, hp]
    split <;> rfl
  have hlabel : (s.link w m).label = s.label := by
    simp only [ConstructionBuffers.link]
    split <;> rfl
  unfold IsLinked
  rw [hsemi, hanc, hlabel]
  refine ⟨?_, ?_⟩
  · intro k hk
    rw [update_of_ne (by omega)]
    exact hs.unlinked k (by omega)
  · intro k hk hkn
    by_cases hkw : k = w
    · subst hkw
      have honly : ∀ u, p < u → Anc parent u k → u = k := fun u hu hanc =>
        eq_of_anc_parent h hw hparent hanc hu
      have hlt := h.parent_lt hw hparent
      rw [(hs.unlinked k (by omega)).2]
      refine ⟨p, by simp, .step hparent .refl, hlt, ?_, hlt, .refl, ?_⟩
      · intro u hu hanc
        exact Nat.le_of_eq (honly u hu hanc).symm
      · intro u hu hanc
        rw [honly u hu hanc]
    · obtain ⟨a, ha, hto⟩ := hs.linked k (by omega) hkn
      rw [update_of_ne hkw]
      refine ⟨a, ha, hto.congr (by omega) ?_⟩
      intro u hu
      rw [update_of_ne (by omega)]

theorem sameSearch_link (s : ConstructionBuffers) (w m : Nat) : SameSearch s (s.link w m) := by
  simp only [ConstructionBuffers.link]
  split
  · exact ⟨rfl, rfl, rfl⟩
  · exact ⟨rfl, rfl, rfl⟩

/-! ## Emptying a bucket -/

/-- What settling may change. -/
def SettledFrom (s s' : ConstructionBuffers) : Prop :=
  ∃ label ancestor path dominator, s' =
    { s with label := label, ancestor := ancestor, path := path, dominator := dominator }

/-- The value a waiting node is settled with. -/
def SettlesTo (parent : Nat → Option Nat) (semi : Nat → Nat) (t p v d : Nat) : Prop :=
  ∃ l, IsValue parent semi t v l ∧ d = if semi l < semi v then l else p

theorem iterate_settle (h : DfsTree n E parent) (l : List Nat) :
    ∀ (fuel : Nat) (s : ConstructionBuffers) (waiting : Option Nat), l.length ≤ fuel →
      s.IsLinked n parent t → s.reached = n → Bucket s.bucketNext waiting l → l.Nodup →
      (∀ v ∈ l, v < n) → ∃ s', (iterate (settle p) fuel (s, waiting)).1 = s' ∧
        s'.IsLinked n parent t ∧ SettledFrom s s' ∧
        (∀ v ∈ l, ∃ d, s'.dominator v = some d ∧ SettlesTo parent s.semi t p v d) ∧
        ∀ v, v ∉ l → s'.dominator v = s.dominator v := by
  induction l with
  | nil =>
    intro fuel s waiting _ hs _ hb _ _
    cases hb
    refine ⟨s, ?_, hs, ⟨_, _, _, _, rfl⟩, by simp, by simp⟩
    rw [iterate_of_none (by rfl)]
  | cons v l ih =>
    intro fuel s waiting hfuel hs hreached hb hnodup hlt
    obtain ⟨fuel, rfl⟩ : ∃ f, fuel = f + 1 := ⟨fuel - 1, by simp at hfuel; omega⟩
    obtain ⟨hv, hnodup⟩ := nodup_cons.mp hnodup
    obtain ⟨he₁, ⟨label, ancestor, path, he₂⟩, he₃⟩ :=
      evaluate_spec h hs hreached (hlt v (by simp))
    cases hb with
    | cons hb =>
      have hstep : settle p (s, some v) = some ({ (s.evaluate v).1 with
          dominator := update s.dominator v
            (some (if s.semi (s.evaluate v).2 < s.semi v then (s.evaluate v).2 else p)) },
          s.bucketNext v) := by
        simp only [settle]
        rw [he₂]
      rw [iterate_of_some hstep, he₂]
      rw [he₂] at he₁
      obtain ⟨s', hs', h₁, h₂, h₃, h₄⟩ := ih fuel
        { s with
          label := label, ancestor := ancestor, path := path
          dominator := update s.dominator v
            (some (if s.semi (s.evaluate v).2 < s.semi v then (s.evaluate v).2 else p)) }
        (s.bucketNext v) (by simpa using hfuel) he₁ hreached hb hnodup (fun u hu => hlt u (by simp [hu]))
      refine ⟨s', hs', h₁, ?_, ?_, ?_⟩
      · obtain ⟨_, _, _, _, heq⟩ := h₂
        exact ⟨_, _, _, _, heq⟩
      · intro u hu
        rcases mem_cons.mp hu with rfl | hu
        · exact ⟨_, by rw [h₄ u hv]; simp, _, he₃, rfl⟩
        · exact h₃ u hu
      · intro u hu
        simp only [mem_cons, not_or] at hu
        rw [h₄ u hu.2]
        exact update_of_ne hu.1 _ _

theorem isRelative_of_settlesTo {d : Nat} (hp : p < t) (hv : t ≤ v)
    (hsemi : semi v = p) (hset : Settled parent semi t v)
    (hd : SettlesTo parent semi t p v d) : IsRelative parent semi v d := by
  obtain ⟨l, hval, rfl⟩ := hd
  rcases hval with ⟨hlt, _⟩ | ⟨_, hl, hanc, hmin⟩
  · omega
  · split
    · next hlt =>
      exact Or.inr ⟨by omega, hanc, hlt, fun u hu hau => hmin u (hset u hau hu) hau⟩
    · next hge =>
      refine Or.inl ⟨hsemi.symm, ?_⟩
      intro u hu hau
      have := hmin u (hset u hau hu) hau
      omega

/-! ## One node of the pass -/

/-- The state between linking `w` and emptying the bucket of its search parent `p`. -/
structure Linking (g : GraphView) (root w p : Nat) (s : ConstructionBuffers) : Prop where
  searched : Searched g root s
  parent : s.parentOf w = some p
  lt : w < s.reached
  forest : s.IsLinked s.reached s.parentOf w
  semi : ∀ k, w ≤ k → k < s.reached → IsSemi (NumEdge g s.vertex) k (s.semi k)
  pristine : ∀ k, k < w → s.semi k = k
  initial : ∀ k, 0 < k → k ≤ w → s.dominator k = s.parentOf k
  dominator : ∀ v, w < v → v < s.reached → Settled s.parentOf s.semi (w + 1) v →
    ∃ d, s.dominator v = some d ∧ IsRelative s.parentOf s.semi v d
  bucket : ∃ l, Bucket s.bucketNext (s.bucketHead p) l ∧ l.Nodup ∧ ∀ v, v ∈ l ↔
    w < v ∧ v < s.reached ∧ s.semi v = p ∧ ¬ Settled s.parentOf s.semi (w + 1) v
  buckets : ∀ q, q ≠ p → q < s.reached → ∃ l, s.Waits s.reached w s.parentOf q l

theorem Processed.evaluated (hs : Processed g root t s)
    (he : Evaluated s s') (hforest : s'.IsLinked s.reached s.parentOf t) :
    Processed g root t s' := by
  obtain ⟨_, _, _, rfl⟩ := he
  exact ⟨hs.searched.congr ⟨rfl, rfl, rfl⟩, hforest, hs.semi, hs.pristine, hs.dominator, hs.buckets⟩

/-- For the nodes above `w` that do not wait for its search parent, linking `w`
changes nothing. -/
theorem settled_iff_succ (h : DfsTree n E parent) (hv : v < n) (hwv : w < v)
    (hp : parent w = some p) (hsemi : IsSemi E v (semi v)) (hne : semi v ≠ p) :
    Settled parent semi w v ↔ Settled parent semi (w + 1) v :=
  ⟨settled_succ_of_ne h hv hwv hp (h.anc_semi (by omega) hv hsemi) hne, Settled.mono (by omega)⟩

theorem Processed.link (hs : Processed g root (w + 1) s) (h0 : 0 < w)
    (hw : w < s.reached) (hp : s.parentOf w = some p) (hm : IsSemi (NumEdge g s.vertex) w m) :
    Linking g root w p (s.link w m) := by
  have htree := hs.searched.tree
  have hmp : m ≤ p := htree.semi_le_parent hw hm hp
  have hpw : p < w := htree.parent_lt hw hp
  have hforest := IsLinked.link (m := m) htree hs.forest hw hp hp
  have hsemi_ne : ∀ {k}, k ≠ w → update s.semi w m k = s.semi k := fun hk =>
    update_of_ne hk _ _
  -- the state in full, with the bucket update kept apart
  obtain ⟨next, head, hlink, hbucket⟩ : ∃ next head, s.link w m =
      { s with
        semi := update s.semi w m, bucketNext := next, bucketHead := head
        ancestor := update s.ancestor w (some p) } ∧
      (if m = p then next = s.bucketNext ∧ head = s.bucketHead
        else next = update s.bucketNext w (s.bucketHead m) ∧
          head = update s.bucketHead m (some w)) := by
    by_cases hmp : m = p
    · refine ⟨s.bucketNext, s.bucketHead, ?_, by rw [if_pos hmp]; exact ⟨rfl, rfl⟩⟩
      simp [ConstructionBuffers.link, hp, hmp]
    · refine ⟨update s.bucketNext w (s.bucketHead m),
        update s.bucketHead m (some w), ?_, by rw [if_neg hmp]; exact ⟨rfl, rfl⟩⟩
      simp [ConstructionBuffers.link, hp, hmp]
  rw [hlink] at hforest ⊢
  have hnext : ∀ v, v ≠ w → next v = s.bucketNext v := by
    intro v hv
    split at hbucket
    · rw [hbucket.1]
    · rw [hbucket.1, update_of_ne hv]
  have hrange : ∀ v, w < v → v < s.reached →
      (Settled s.parentOf (update s.semi w m) (w + 1) v ↔
        Settled s.parentOf s.semi (w + 1) v) := fun v hv _ =>
    settled_congr (hsemi_ne (by omega))
  refine ⟨hs.searched.congr ⟨rfl, rfl, rfl⟩, hp, hw, hforest, ?_, ?_, ?_, ?_, ?_, ?_⟩
  · intro k hk hkn
    by_cases hkw : k = w
    · subst hkw
      simpa using hm
    · simp only [hsemi_ne hkw]
      exact hs.semi k (by omega) hkn
  · intro k hk
    simp only [hsemi_ne (by omega : k ≠ w)]
    exact (hs.pristine k (by omega)).1
  · intro k hk0 hk
    exact (hs.pristine k (by omega)).2 hk0
  · intro v hv hvn hset
    have hset' := (hrange v hv hvn).mp hset
    obtain ⟨d, hd, hrel⟩ := hs.dominator v (by omega) hvn hset'
    exact ⟨d, hd, isRelative_congr (by omega) hset' (fun u hu => hsemi_ne (by omega)) hrel⟩
  · obtain ⟨l, hl, hnodup, hmem⟩ := hs.buckets p (by omega)
    have hlw : ∀ v ∈ l, v ≠ w := fun v hv => by
      have := (hmem v).mp hv
      omega
    refine ⟨l, ?_, hnodup, ?_⟩
    · have hhead : head p = s.bucketHead p := by
        split at hbucket
        · rw [hbucket.2]
        · next hne => rw [hbucket.2, update_of_ne (Ne.symm hne)]
      simp only [hhead]
      exact hl.congr fun v hv => hnext v (hlw v hv)
    · intro v
      rw [hmem]
      constructor
      · rintro ⟨hv, hvn, hsv, hset⟩
        exact ⟨hv, hvn, (hsemi_ne (by omega)).trans hsv,
          fun hc => hset ((hrange v hv hvn).mp hc)⟩
      · rintro ⟨hv, hvn, hsv, hset⟩
        exact ⟨hv, hvn, (hsemi_ne (by omega)).symm.trans hsv,
          fun hc => hset ((hrange v hv hvn).mpr hc)⟩
  · intro q hq hqn
    obtain ⟨l, hl, hnodup, hmem⟩ := hs.buckets q hqn
    have hlw : ∀ v ∈ l, v ≠ w := fun v hv => by
      have := (hmem v).mp hv
      omega
    have hl' : Bucket next (s.bucketHead q) l := hl.congr fun v hv => hnext v (hlw v hv)
    -- who waits above `w` does not change
    have habove : ∀ v, w < v → (v ∈ l ↔ v < s.reached ∧ update s.semi w m v = q ∧
        ¬ Settled s.parentOf (update s.semi w m) w v) := by
      intro v hv
      have hset : v < s.reached → s.semi v = q →
          (Settled s.parentOf (update s.semi w m) w v ↔
            Settled s.parentOf s.semi (w + 1) v) := by
        intro hvn hsv
        rw [settled_congr (hsemi_ne (by omega))]
        exact settled_iff_succ htree hvn hv hp (hs.semi v (by omega) hvn) (by omega)
      rw [hmem, hsemi_ne (by omega)]
      constructor
      · rintro ⟨_, hvn, hsv, hno⟩
        exact ⟨hvn, hsv, fun hc => hno ((hset hvn hsv).mp hc)⟩
      · rintro ⟨hvn, hsv, hno⟩
        exact ⟨hv, hvn, hsv, fun hc => hno ((hset hvn hsv).mpr hc)⟩
    have hself : Settled s.parentOf (update s.semi w m) w w ↔
        update s.semi w m w = p := settled_self htree hw hp (by simpa using hmp)
    rw [update_self] at hself
    by_cases hqm : q = m
    · subst hqm
      rw [if_neg hq] at hbucket
      refine ⟨w :: l, ?_, nodup_cons.mpr ⟨fun hc => hlw w hc rfl, hnodup⟩, ?_⟩
      · simp only [hbucket.2, update_self]
        refine .cons ?_
        rw [hbucket.1, update_self, ← hbucket.1]
        exact hl'
      · intro v
        rw [mem_cons]
        rcases Nat.lt_trichotomy v w with hv | hv | hv
        · constructor
          · rintro (hc | hc)
            · omega
            · have := (hmem v).mp hc
              omega
          · omega
        · subst hv
          exact ⟨fun _ => ⟨Nat.le_refl _, hw, update_self .., fun hc => hq (hself.mp hc)⟩,
            fun _ => Or.inl rfl⟩
        · rw [habove v hv]
          constructor
          · rintro (hc | hc)
            · omega
            · exact ⟨by omega, hc⟩
          · exact fun hc => Or.inr hc.2
    · refine ⟨l, ?_, hnodup, ?_⟩
      · have hhead : head q = s.bucketHead q := by
          split at hbucket
          · rw [hbucket.2]
          · rw [hbucket.2, update_of_ne hqm]
        simp only [hhead]
        exact hl'
      · intro v
        rcases Nat.lt_trichotomy v w with hv | hv | hv
        · constructor
          · intro hc
            have := (hmem v).mp hc
            omega
          · omega
        · subst hv
          constructor
          · exact fun hc => absurd rfl (hlw v hc)
          · rintro ⟨_, _, hc, _⟩
            simp at hc
            omega
        · rw [habove v hv]
          constructor
          · exact fun hc => ⟨by omega, hc⟩
          · exact fun hc => hc.2

theorem Linking.drain (hs : Linking g root w p s) (h0 : 0 < w) :
    SameSearch s (s.drain p) ∧ Processed g root w (s.drain p) := by
  have htree := hs.searched.tree
  have hpw : p < w := htree.parent_lt hs.lt hs.parent
  have hlt := hs.lt
  obtain ⟨l, hl, hnodup, hmem⟩ := hs.bucket
  have hlen : l.length ≤ s.reached := by
    have hsub : l ⊆ List.range s.reached := fun v hv =>
      mem_range.mpr ((hmem v).mp hv).2.1
    simpa using List.Nodup.length_le_of_subset hnodup hsub
  obtain ⟨s', hdrain, hforest, ⟨label, ancestor, path, dominator, rfl⟩, hin, hout⟩ :=
    iterate_settle (p := p) htree l s.reached
      { s with bucketHead := update s.bucketHead p none } (s.bucketHead p) hlen hs.forest rfl
      hl hnodup fun v hv => ((hmem v).mp hv).2.1
  have heq : s.drain p = _ := hdrain
  rw [heq]
  have hwl : ∀ v, v ≤ w → v ∉ l := fun v hv hc => by
    have := (hmem v).mp hc
    omega
  refine ⟨⟨rfl, rfl, rfl⟩, hs.searched.congr ⟨rfl, rfl, rfl⟩, hforest, hs.semi, ?_, ?_, ?_⟩
  · intro k hk
    refine ⟨hs.pristine k hk, fun hk0 => ?_⟩
    exact (hout k (hwl k (by omega))).trans (hs.initial k hk0 (by omega))
  · intro v hv hvn hset
    by_cases hvl : v ∈ l
    · obtain ⟨hwv, _, hsv, _⟩ := (hmem v).mp hvl
      obtain ⟨d, hd, hto⟩ := hin v hvl
      exact ⟨d, hd, isRelative_of_settlesTo hpw hv hsv hset hto⟩
    · rcases Nat.lt_or_ge w v with hwv | hvw
      · have hset' : Settled s.parentOf s.semi (w + 1) v := by
          by_cases hsv : s.semi v = p
          · by_contra hno
            exact hvl ((hmem v).mpr ⟨hwv, hvn, hsv, hno⟩)
          · exact (settled_iff_succ htree hvn hwv hs.parent (hs.semi v (by omega) hvn) hsv).mp hset
        obtain ⟨d, hd, hrel⟩ := hs.dominator v hwv hvn hset'
        exact ⟨d, (hout v hvl).trans hd, hrel⟩
      · -- the node itself is settled when its semidominator is its search parent
        obtain rfl : v = w := by omega
        have hsp : s.semi v = p := (settled_self htree hs.lt hs.parent
          (htree.semi_le_parent hs.lt (hs.semi v hv hvn) hs.parent)).mp hset
        refine ⟨p, (hout v hvl).trans ((hs.initial v h0 (Nat.le_refl _)).trans hs.parent), ?_⟩
        refine Or.inl ⟨hsp.symm, fun u hu hanc => ?_⟩
        have hup : p < u := Nat.lt_of_le_of_lt (Nat.le_of_eq hsp.symm) hu
        rw [eq_of_anc_parent htree hs.lt hs.parent hanc hup]
  · intro q hqn
    by_cases hqp : q = p
    · subst hqp
      refine ⟨[], by simp only [update_self]; exact .nil, nodup_nil, fun v => ?_⟩
      constructor
      · simp
      · rintro ⟨hv, hvn, hsv, hset⟩
        exact absurd (settled_of_parent htree hvn hv hs.parent hsv) hset
    · obtain ⟨l', hl', hnodup', hmem'⟩ := hs.buckets q hqp hqn
      refine ⟨l', ?_, hnodup', hmem'⟩
      simp only [update_of_ne hqp]
      exact hl'

theorem Processed.process (hg : g.Lawful) (hs : Processed g root (w + 1) s) (h0 : 0 < w) (hw : w < s.reached) :
    SameSearch s (s.process g w) ∧ Processed g root w (s.process g w) := by
  obtain ⟨⟨s', m⟩, hr⟩ : ∃ r, (g.predecessors (s.vertexOf w)).foldl offer (s, s.semi w) = r :=
    ⟨_, rfl⟩
  obtain ⟨hforest, he, hm⟩ := offer_isSemi hg hs h0 hw hr
  obtain ⟨p, hp, _⟩ := hs.searched.tree.parent_some w h0 hw
  have hs' := hs.evaluated he hforest
  have hsame : SameSearch s s' := by
    obtain ⟨_, _, _, rfl⟩ := he
    exact ⟨rfl, rfl, rfl⟩
  have hlinking := hs'.link h0 (by rw [hsame.reached]; exact hw) (by rw [hsame.parentOf]; exact hp)
    (by rw [hsame.vertex]; exact hm)
  have hprocess : s.process g w = (s'.link w m).drain p := by
    simp only [ConstructionBuffers.process, hr, hlinking.parent]
  obtain ⟨hdrain, hdone⟩ := hlinking.drain h0
  rw [hprocess]
  exact ⟨hsame.trans ((sameSearch_link s' w m).trans hdrain), hdone⟩

/-! ## The whole pass -/

theorem Searched.prepare (hs : Searched g root s) : Processed g root s.reached s.prepare := by
  refine ⟨hs.congr ⟨rfl, rfl, rfl⟩, ⟨fun k _ => ⟨rfl, rfl⟩, ?_⟩, ?_, ?_, ?_, ?_⟩
  · intro k hk hkn
    exact absurd hkn (Nat.not_lt.mpr hk)
  · intro k hk hkn
    exact absurd hkn (Nat.not_lt.mpr hk)
  · intro k _
    exact ⟨rfl, fun hk0 => update_of_ne (by omega) _ _⟩
  · intro v hv hvn
    exact absurd hvn (Nat.not_lt.mpr hv)
  · intro p _
    refine ⟨[], .nil, nodup_nil, fun v => ?_⟩
    constructor
    · simp
    · rintro ⟨hv, hvn, _⟩
      exact absurd hvn (Nat.not_lt.mpr hv)

theorem foldl_process (hg : g.Lawful) (m : Nat) :
    ∀ s : ConstructionBuffers, Processed g root (m + 1) s → m < s.reached →
      SameSearch s ((List.range' 1 m).reverse.foldl (process g) s) ∧
        Processed g root 1 ((List.range' 1 m).reverse.foldl (process g) s) := by
  induction m with
  | zero => exact fun s hs _ => ⟨.refl s, hs⟩
  | succ m ih =>
    intro s hs hm
    obtain ⟨hsame, hstep⟩ := hs.process hg (by omega) hm
    rw [range'_1_concat, reverse_append, reverse_singleton, singleton_append,
      foldl_cons, Nat.add_comm 1 m]
    obtain ⟨h₁, h₂⟩ := ih _ hstep (by rw [hsame.reached]; omega)
    exact ⟨hsame.trans h₁, h₂⟩

/-- After the descending pass every node but the root has its semidominator and
its relative dominator. -/
theorem Processed.complete (hs : Processed g root 1 s) (h0 : 0 < v) (hv : v < s.reached) :
    IsSemi (NumEdge g s.vertex) v (s.semi v) ∧
      ∃ d, s.dominator v = some d ∧ IsRelative s.parentOf s.semi v d :=
  ⟨hs.semi v h0 hv, hs.dominator v h0 hv fun u _ hu => by omega⟩

end CfgLib.Dominator.ConstructionBuffers

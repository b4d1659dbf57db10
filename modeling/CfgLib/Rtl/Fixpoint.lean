import CfgLib.Rtl.Consts
import Mathlib.Data.Prod.Lex

/-!
# The fixpoint of selection resolution

`ir/rtl/facts/resolution.rs`: the sweeps end, and every state they leave is below
what each predecessor in the order hands on.
-/

namespace CfgLib.Rtl

open CfgLib.Lib Function

variable {ρ ω : Type} [DecidableEq ρ] {rootWidth : ρ → Nat} {roots : List ρ} {fold : Fold ω}
  {f : FunctionView ρ ω rootWidth} {s s' : Facts} {t : Nat}

/-! ## One join -/

/-- A join puts a state below both sides; without a change, everything stays. -/
theorem joinInto_cases (leaving : ConstState) (s : Facts) (t : Nat) :
    (∃ j, j.Le leaving ∧ (∀ old, s.incoming t = some old → j.Le old ∧
        j.entries.length < old.entries.length) ∧ joinInto leaving s t =
        ⟨update s.incoming t (some j), update s.dirty t true, true⟩) ∨
      (∃ j, j.Le leaving ∧ s.incoming t = some j ∧ joinInto leaving s t = s) := by
  unfold joinInto
  cases hold : s.incoming t with
  | none =>
    refine Or.inl ⟨leaving, .refl _, fun old h => (by cases h), rfl⟩
  | some old =>
    simp only
    by_cases hchanged : (join (some old) leaving).2 = true
    · rw [if_pos hchanged]
      refine Or.inl ⟨(old.intersect leaving).1, (ConstState.intersect_le _ _).2, ?_, rfl⟩
      intro x hx
      cases hx
      exact ⟨(ConstState.intersect_le _ _).1, ConstState.length_intersect hchanged⟩
    · rw [if_neg hchanged]
      have hsame := ConstState.intersect_eq (Bool.eq_false_iff.mpr hchanged)
      refine Or.inr ⟨old, ?_, rfl, ?_⟩
      · have hle := (ConstState.intersect_le old leaving).2
        rw [hsame] at hle
        exact hle
      · change (⟨update s.incoming t (some (old.intersect leaving).1), _, _⟩ : Facts) = s
        rw [hsame, ← hold, update_eq_self]

/-- What a sequence of joins keeps: states only lose entries, and a block whose state
changes is dirty. -/
structure Joined (s s' : Facts) : Prop where
  incoming : ∀ b old, s.incoming b = some old → ∃ new, s'.incoming b = some new ∧ new.Le old
  clean : ∀ b, s'.dirty b = false → s.dirty b = false ∧ s'.incoming b = s.incoming b
  ready : ∀ b, s'.dirty b = true → s.dirty b = true ∨ (s'.incoming b).isSome ∧ s'.changed = true
  changed : s.changed = true → s'.changed = true

theorem Joined.refl (s : Facts) : Joined s s :=
  ⟨fun _ old h => ⟨old, h, .refl old⟩, fun _ h => ⟨h, rfl⟩, fun _ h => Or.inl h, id⟩

theorem Joined.trans {s₁ : Facts} (h : Joined s s₁) (h' : Joined s₁ s') : Joined s s' where
  incoming := by
    intro b old hold
    obtain ⟨mid, hmid, hle⟩ := h.incoming b old hold
    obtain ⟨new, hnew, hle'⟩ := h'.incoming b mid hmid
    exact ⟨new, hnew, hle'.trans hle⟩
  clean := by
    intro b hb
    obtain ⟨hmid, heq'⟩ := h'.clean b hb
    obtain ⟨hclean, heq⟩ := h.clean b hmid
    exact ⟨hclean, heq'.trans heq⟩
  ready := by
    intro b hb
    rcases h'.ready b hb with hmid | hready
    · refine (h.ready b hmid).imp_right fun ⟨hsome, hchanged⟩ => ⟨?_, h'.changed hchanged⟩
      obtain ⟨mid, hmid⟩ := Option.isSome_iff_exists.mp hsome
      obtain ⟨new, hnew, _⟩ := h'.incoming b mid hmid
      rw [hnew]
      rfl
    · exact Or.inr hready
  changed := fun hs => h'.changed (h.changed hs)

theorem joinInto_joined (leaving : ConstState) (s : Facts) (t : Nat) :
    Joined s (joinInto leaving s t) ∧
      ∃ j, (joinInto leaving s t).incoming t = some j ∧ j.Le leaving := by
  rcases joinInto_cases leaving s t with ⟨j, hle, hold, heq⟩ | ⟨j, hle, hj, heq⟩
  · rw [heq]
    refine ⟨⟨?_, ?_, ?_, fun _ => rfl⟩, j, update_self .., hle⟩
    · intro b old hb
      by_cases hbt : b = t
      · rw [hbt] at hb
        exact ⟨j, by rw [hbt]; exact update_self .., (hold old hb).1⟩
      · exact ⟨old, (update_of_ne hbt _ _).trans hb, .refl old⟩
    · intro b hb
      by_cases hbt : b = t
      · simp [hbt] at hb
      · simp only [update_of_ne hbt] at hb ⊢
        exact ⟨hb, trivial⟩
    · intro b hb
      by_cases hbt : b = t
      · simp [hbt]
      · simp only [update_of_ne hbt] at hb
        exact Or.inl hb
  · rw [heq]
    exact ⟨.refl s, j, hj, hle⟩

theorem foldl_joinInto (leaving : ConstState) (l : List Nat) (s : Facts) :
    Joined s (l.foldl (joinInto leaving) s) ∧
      ∀ t ∈ l, ∃ j, (l.foldl (joinInto leaving) s).incoming t = some j ∧ j.Le leaving := by
  induction l generalizing s with
  | nil => exact ⟨.refl s, fun t ht => by cases ht⟩
  | cons first rest ih =>
    obtain ⟨hone, j, hj, hle⟩ := joinInto_joined leaving s first
    obtain ⟨hrest, hall⟩ := ih (joinInto leaving s first)
    refine ⟨hone.trans hrest, fun t ht => ?_⟩
    rcases List.mem_cons.mp ht with rfl | ht
    · obtain ⟨new, hnew, hle'⟩ := hrest.incoming t j hj
      exact ⟨new, hnew, hle'.trans hle⟩
    · exact hall t ht

/-! ## The loop -/

/-- What holds between two blocks of a sweep. -/
structure Solving (roots : List ρ) (fold : Fold ω) (f : FunctionView ρ ω rootWidth)
    (start : ConstState) (s : Facts) : Prop where
  start : ∃ state, s.incoming f.view.root = some state ∧ state.Le start
  ready : ∀ b, s.dirty b = true → (s.incoming b).isSome
  clean : ∀ b state, s.dirty b = false → s.incoming b = some state →
    ∀ t ∈ f.view.successors b, ∃ next, s.incoming t = some next ∧
      next.Le (runBlock roots fold f b state).1

variable {start : ConstState}

theorem solving_start : Solving roots fold f start (startFacts f.view.root start) := by
  refine ⟨⟨start, by simp [startFacts], .refl start⟩, ?_, ?_⟩
  · intro b hb
    by_cases hroot : b = f.view.root
    · rw [hroot]
      simp [startFacts]
    · simp [startFacts, hroot] at hb
  · intro b state hb hstate
    by_cases hroot : b = f.view.root
    · simp [startFacts, hroot] at hb
    · simp [startFacts, hroot] at hstate

theorem Solving.visitBlock (h : Solving roots fold f start s) (b : Nat) :
    Solving roots fold f start (visitBlock roots fold f s b) ∧
      (s.changed = true → (visitBlock roots fold f s b).changed = true) ∧
      ∀ b', (visitBlock roots fold f s b).dirty b' = true →
        (s.dirty b' = true ∧ b' ≠ b) ∨ (visitBlock roots fold f s b).changed = true := by
  unfold Rtl.visitBlock
  cases hdirty : s.dirty b with
  | false =>
    rw [if_neg (by simp)]
    refine ⟨h, id, fun b' hb' => Or.inl ⟨hb', ?_⟩⟩
    rintro rfl
    rw [hdirty] at hb'
    cases hb'
  | true =>
    rw [if_pos rfl]
    obtain ⟨state, hstate⟩ := Option.isSome_iff_exists.mp (h.ready b hdirty)
    simp only [hstate]
    obtain ⟨hjoined, hall⟩ := foldl_joinInto (runBlock roots fold f b state).1
      (f.view.successors b) { s with dirty := update s.dirty b false }
    generalize (f.view.successors b).foldl (joinInto (runBlock roots fold f b state).1)
      { s with dirty := update s.dirty b false } = s' at hjoined hall ⊢
    refine ⟨⟨?_, ?_, ?_⟩, hjoined.changed, ?_⟩
    · obtain ⟨first, hfirst, hle⟩ := h.start
      obtain ⟨new, hnew, hle'⟩ := hjoined.incoming _ first hfirst
      exact ⟨new, hnew, hle'.trans hle⟩
    · intro b' hb'
      rcases hjoined.ready b' hb' with hb' | hb'
      · have hold : (s.incoming b').isSome := by
          by_cases heq : b' = b
          · simp [heq] at hb'
          · simp only [update_of_ne heq] at hb'
            exact h.ready b' hb'
        obtain ⟨old, hold⟩ := Option.isSome_iff_exists.mp hold
        obtain ⟨new, hnew, _⟩ := hjoined.incoming b' old hold
        rw [hnew]
        rfl
      · exact hb'.1
    · intro b' state' hb' hstate' t ht
      obtain ⟨hclean, heq⟩ := hjoined.clean b' hb'
      rw [hstate'] at heq
      by_cases hbb : b' = b
      · -- the block itself: its state has not changed since it ran
        subst hbb
        have hsame : some state' = some state := heq.trans hstate
        cases hsame
        exact hall t ht
      · simp only [update_of_ne hbb] at hclean
        obtain ⟨next, hnext, hle⟩ := h.clean b' state' hclean heq.symm t ht
        obtain ⟨new, hnew, hle'⟩ := hjoined.incoming t next hnext
        exact ⟨new, hnew, hle'.trans hle⟩
    · intro b' hb'
      rcases hjoined.ready b' hb' with hb' | hb'
      · by_cases heq : b' = b
        · simp [heq] at hb'
        · simp only [update_of_ne heq] at hb'
          exact Or.inl ⟨hb', heq⟩
      · exact Or.inr hb'.2

theorem Solving.foldl_visitBlock (order : List Nat) (h : Solving roots fold f start s) :
    Solving roots fold f start (order.foldl (Rtl.visitBlock roots fold f) s) ∧
      (s.changed = true → (order.foldl (Rtl.visitBlock roots fold f) s).changed = true) ∧
      ∀ b, (order.foldl (Rtl.visitBlock roots fold f) s).dirty b = true →
        (s.dirty b = true ∧ b ∉ order) ∨
          (order.foldl (Rtl.visitBlock roots fold f) s).changed = true := by
  induction order generalizing s with
  | nil => exact ⟨h, id, fun b hb => Or.inl ⟨hb, List.not_mem_nil⟩⟩
  | cons first rest ih =>
    obtain ⟨hone, hchanged, hdirty⟩ := h.visitBlock first
    obtain ⟨hrest, hchanged', hdirty'⟩ := ih hone
    refine ⟨hrest, fun hs => hchanged' (hchanged hs), fun b hb => ?_⟩
    rcases hdirty' b hb with ⟨hb, hout⟩ | hb
    · rcases hdirty b hb with ⟨hb, hne⟩ | hb
      · exact Or.inl ⟨hb, List.not_mem_cons_of_ne_of_not_mem hne hout⟩
      · exact Or.inr (hchanged' hb)
    · exact Or.inr hb

variable {order : List Nat} {bound : Nat}

theorem Solving.solve {fuel : Nat} (h : Solving roots fold f start s) (hs : solve roots fold f order fuel s = some s') :
    Solving roots fold f start s' ∧ ∀ b ∈ order, s'.dirty b = false := by
  induction fuel generalizing s with
  | zero => cases hs
  | succ fuel ih =>
    have hreset : Solving roots fold f start { s with changed := false } :=
      ⟨h.start, h.ready, h.clean⟩
    obtain ⟨hsweep, _, hdirty⟩ := hreset.foldl_visitBlock order
    unfold Rtl.solve at hs
    simp only at hs
    split at hs
    · exact ih hsweep hs
    · next hchanged =>
      cases hs
      refine ⟨hsweep, fun b hb => ?_⟩
      by_contra hnot
      rcases hdirty b (Bool.eq_true_of_not_eq_false hnot) with ⟨_, hout⟩ | hyes
      · exact hout hb
      · exact hchanged hyes

/-! ## Termination -/

def rank (bound : Nat) (s : Facts) : ℕ ×ₗ ℕ :=
  toLex (total (fun b => if (s.incoming b).isNone then 1 else 0) (List.range bound),
    total (fun b => ((s.incoming b).map fun state => state.entries.length).getD 0)
      (List.range bound))

theorem joinInto_rank (ht : t < bound) (leaving : ConstState) (s : Facts) :
    rank bound (joinInto leaving s t) < rank bound s ∨ joinInto leaving s t = s := by
  rcases joinInto_cases leaving s t with ⟨j, _, hold, heq⟩ | ⟨_, _, _, heq⟩
  · refine Or.inl ?_
    rw [heq]
    unfold rank
    rw [Prod.Lex.toLex_lt_toLex]
    simp only
    cases hstate : s.incoming t with
    | none =>
      refine Or.inl (Nat.lt_of_lt_of_le (Nat.lt_add_one _) (total_drop ?_ (List.mem_range.mpr ht) ?_))
      · intro b _
        by_cases hb : b = t
        · simp [hb]
        · simp [hb]
      · simp [hstate]
    | some old =>
      refine Or.inr ⟨?_, Nat.lt_of_lt_of_le (Nat.lt_add_one _) (total_drop ?_ (List.mem_range.mpr ht) ?_)⟩
      · congr 1
        funext b
        by_cases hb : b = t
        · simp [hb, hstate]
        · simp [hb]
      · intro b _
        by_cases hb : b = t
        · have hlt := (hold old hstate).2
          simp [hb, hstate]
          omega
        · simp [hb]
      · have hlt := (hold old hstate).2
        simp [hstate]
        omega
  · exact Or.inr heq

/-- The rank falls or nothing but the flags changes. -/
def Falls (bound : Nat) (s s' : Facts) : Prop :=
  rank bound s' ≤ rank bound s ∧
    (s'.changed = true → s.changed = true ∨ rank bound s' < rank bound s)

theorem Falls.trans {s₁ : Facts} (h : Falls bound s s₁) (h' : Falls bound s₁ s') :
    Falls bound s s' := by
  refine ⟨h'.1.trans h.1, fun hchanged => ?_⟩
  rcases h'.2 hchanged with hchanged | hlt
  · exact (h.2 hchanged).imp_right fun hlt => lt_of_le_of_lt h'.1 hlt
  · exact Or.inr (lt_of_lt_of_le hlt h.1)

theorem foldl_joinInto_falls {l : List Nat} (hl : ∀ t ∈ l, t < bound)
    (leaving : ConstState) (s : Facts) : Falls bound s (l.foldl (joinInto leaving) s) := by
  induction l generalizing s with
  | nil => exact ⟨le_refl _, Or.inl⟩
  | cons first rest ih =>
    have hone : Falls bound s (joinInto leaving s first) := by
      rcases joinInto_rank (hl first List.mem_cons_self) leaving s with hlt | heq
      · exact ⟨hlt.le, fun _ => Or.inr hlt⟩
      · rw [heq]
        exact ⟨le_refl _, Or.inl⟩
    exact hone.trans (ih (fun t ht => hl t (List.mem_cons_of_mem _ ht)) _)

theorem foldl_visitBlock_falls (roots : List ρ) (fold : Fold ω) (hlt : ∀ b ∈ order, b < f.view.nodeBound) (s : Facts) :
    Falls f.view.nodeBound s (order.foldl (visitBlock roots fold f) s) := by
  induction order generalizing s with
  | nil => exact ⟨le_refl _, Or.inl⟩
  | cons first rest ih =>
    refine Falls.trans ?_ (ih (fun b hb => hlt b (List.mem_cons_of_mem _ hb)) _)
    unfold visitBlock
    split
    · split
      · exact ⟨le_refl _, Or.inl⟩
      · exact foldl_joinInto_falls
          (fun t ht => f.lawful.successors_lt first t (hlt first List.mem_cons_self) ht) _
          { s with dirty := update s.dirty first false }
    · exact ⟨le_refl _, Or.inl⟩

theorem exists_solve (roots : List ρ) (fold : Fold ω) (hlt : ∀ b ∈ order, b < f.view.nodeBound) (s : Facts) :
    ∃ fuel s', solve roots fold f order fuel s = some s' := by
  induction hrank : rank f.view.nodeBound s using WellFoundedLT.induction generalizing s with
  | ind r ih =>
    have hfalls := foldl_visitBlock_falls roots fold hlt
      { s with changed := false }
    by_cases hchanged : (sweep roots fold f order s).changed = true
    · rcases hfalls.2 hchanged with hfalse | hless
      · cases hfalse
      obtain ⟨fuel, s', hs'⟩ := ih _ (lt_of_lt_of_eq hless hrank) (sweep roots fold f order s) rfl
      refine ⟨fuel + 1, s', ?_⟩
      rw [solve]
      simp only [hchanged, if_true]
      exact hs'
    · refine ⟨1, sweep roots fold f order s, ?_⟩
      rw [solve]
      simp only [hchanged]
      rfl

end CfgLib.Rtl

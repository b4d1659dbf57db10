import Mathlib.Data.List.Induction

/-!
# Folds that may fail

What a successful fold keeps, one step at a time, for folds that report an
error and for folds that stop without one; and what is found again in a joined list.
-/

namespace CfgLib.Lib

open List

variable {σ α β ε : Type}

variable {l : List α} {I : List α → σ → Prop} {a : α} {s s' : σ} {step : σ → α → Option σ}

/-- Lists joined in order are told apart by a key of their items. -/
theorem filter_flatMap_of_nodup [DecidableEq α] {key : β → α} {f : α → List β} (hnodup : l.Nodup)
    (hkey : ∀ a ∈ l, ∀ x ∈ f a, key x = a) (ha : a ∈ l) : (l.flatMap f).filter (key · = a) = f a := by
  induction l with
  | nil => cases ha
  | cons b rest ih =>
    obtain ⟨hb, hrest⟩ := nodup_cons.mp hnodup
    have hkeyRest : ∀ a ∈ rest, ∀ x ∈ f a, key x = a := fun a ha => hkey a (mem_cons_of_mem _ ha)
    rw [flatMap_cons, filter_append]
    rcases mem_cons.mp ha with rfl | ha
    · have hkept : (f a).filter (key · = a) = f a :=
        filter_eq_self.mpr fun x hx => decide_eq_true (hkey a mem_cons_self x hx)
      have hnone : (rest.flatMap f).filter (key · = a) = [] := by
        refine filter_eq_nil_iff.mpr fun x hx he => ?_
        obtain ⟨c, hc, hx⟩ := mem_flatMap.mp hx
        rw [hkeyRest c hc x hx] at he
        exact hb (of_decide_eq_true he ▸ hc)
      rw [hkept, hnone, append_nil]
    · have hnone : (f b).filter (key · = a) = [] := by
        refine filter_eq_nil_iff.mpr fun x hx he => ?_
        rw [hkey b mem_cons_self x hx] at he
        exact hb (of_decide_eq_true he ▸ ha)
      rw [hnone, nil_append, ih hrest hkeyRest ha]

theorem count_flatMap_of_nodup [DecidableEq α] [BEq β] [LawfulBEq β] (key : β → α) {f : α → List β}
    (hnodup : l.Nodup) (hkey : ∀ a ∈ l, ∀ x ∈ f a, key x = a) (x : β) :
    (l.flatMap f).count x = if key x ∈ l then (f (key x)).count x else 0 := by
  split
  · next hx => rw [← filter_flatMap_of_nodup hnodup hkey hx, count_filter (by simp)]
  · next hx =>
    rw [count_eq_zero, mem_flatMap]
    exact fun ⟨a, ha, hmem⟩ => hx (hkey a ha x hmem ▸ ha)

def minByKey (key : α → Nat) (l : List α) : Option α :=
  l.foldl (fun best a =>
    match best with
    | none => some a
    | some b => if key a < key b then some a else some b) none

theorem minByKey_spec (key : α → Nat) (l : List α) : (minByKey key l = none → l = []) ∧
      ∀ a, minByKey key l = some a → a ∈ l ∧ ∀ b ∈ l, key a ≤ key b := by
  induction l using List.reverseRecOn with
  | nil => exact ⟨fun _ => rfl, fun a h => (by cases h)⟩
  | append_singleton l last ih =>
    unfold minByKey at ih ⊢
    rw [foldl_append]
    generalize List.foldl _ none l = best at ih ⊢
    cases best with
    | none =>
      refine ⟨fun h => (by cases h), fun a h => ?_⟩
      cases h
      rw [ih.1 rfl]
      refine ⟨mem_singleton_self _, fun b hb => ?_⟩
      obtain rfl := mem_singleton.mp hb
      exact Nat.le_refl _
    | some best =>
      obtain ⟨hbest, hleast⟩ := ih.2 best rfl
      simp only [foldl_cons, foldl_nil]
      split
      · next hlt =>
        refine ⟨fun h => (by cases h), fun a h => ?_⟩
        cases h
        refine ⟨mem_append_right _ (mem_singleton_self _), fun b hb => ?_⟩
        rcases mem_append.mp hb with hb | hb
        · exact Nat.le_trans (Nat.le_of_lt hlt) (hleast b hb)
        · obtain rfl := mem_singleton.mp hb
          exact Nat.le_refl _
      · next hge =>
        refine ⟨fun h => (by cases h), fun a h => ?_⟩
        cases h
        refine ⟨mem_append_left _ hbest, fun b hb => ?_⟩
        rcases mem_append.mp hb with hb | hb
        · exact hleast b hb
        · rw [mem_singleton.mp hb]
          exact Nat.not_lt.mp hge

theorem bind_eq_ok {x : Except ε α} {f : α → Except ε β} {b : β} :
    x.bind f = .ok b ↔ ∃ a, x = .ok a ∧ f a = .ok b := by
  cases x with
  | error e =>
    refine ⟨fun h => (by cases h), ?_⟩
    intro ⟨a, h, _⟩
    cases h
  | ok a =>
    refine ⟨fun h => ⟨a, rfl, h⟩, ?_⟩
    intro ⟨a', h, h'⟩
    cases h
    exact h'

theorem foldlM_except_from {step : σ → α → Except ε σ}
    (hstep : ∀ done a s s', I done s → step s a = .ok s' → I (done ++ [a]) s') :
    ∀ {done : List α} {s s' : σ}, I done s → l.foldlM step s = .ok s' → I (done ++ l) s' := by
  induction l with
  | nil =>
    intro done s s' h hs
    cases hs
    rwa [append_nil]
  | cons a l ih =>
    intro done s s' h hs
    rw [foldlM_cons] at hs
    obtain ⟨s₁, hs₁, hs'⟩ := bind_eq_ok.mp hs
    have hrest := ih (hstep done a s s₁ h hs₁) hs'
    rwa [append_assoc] at hrest

/-- What every successful step keeps, with the entries it has passed, holds at the end. -/
theorem foldlM_except {step : σ → α → Except ε σ}
    (hstep : ∀ done a s s', I done s → step s a = .ok s' → I (done ++ [a]) s')
    (h : I [] s) (hs : l.foldlM step s = .ok s') : I l s' :=
  foldlM_except_from hstep h hs

theorem foldlM_option_from (hstep : ∀ done a s s', I done s → step s a = some s' → I (done ++ [a]) s') :
    ∀ {done : List α} {s s' : σ}, I done s → l.foldlM step s = some s' → I (done ++ l) s' := by
  induction l with
  | nil =>
    intro done s s' h hs
    cases hs
    rwa [append_nil]
  | cons a l ih =>
    intro done s s' h hs
    rw [foldlM_cons] at hs
    obtain ⟨s₁, hs₁, hs'⟩ := Option.bind_eq_some_iff.mp hs
    have hrest := ih (hstep done a s s₁ h hs₁) hs'
    rwa [append_assoc] at hrest

theorem foldlM_option (hstep : ∀ done a s s', I done s → step s a = some s' → I (done ++ [a]) s')
    (h : I [] s) (hs : l.foldlM step s = some s') : I l s' :=
  foldlM_option_from hstep h hs

theorem foldl_keeps {step : σ → α → σ} {P : σ → Prop} (hkeep : ∀ s a, P s → P (step s a)) (l : List α) {s : σ}
    (h : P s) : P (l.foldl step s) :=
  List.foldlRecOn l step h fun s hs a _ => hkeep s a hs

/-- What every step extends to one more entry holds of all the entries after the fold. -/
theorem foldl_upTo {step : σ → α → σ} {P : List α → σ → Prop}
    (hstep : ∀ done a s, P done s → P (done ++ [a]) (step s a)) : ∀ (l done : List α) {s : σ}, P done s →
      P (done ++ l) (l.foldl step s)
  | [], done, s, h => by rwa [append_nil]
  | a :: l, done, s, h => by
    have hrest := foldl_upTo hstep l (done ++ [a]) (hstep done a s h)
    rwa [append_assoc] at hrest

/-- What every step keeps and the step at one entry brings about holds after the fold. -/
theorem foldl_makes {step : σ → α → σ} {P : σ → Prop} (hkeep : ∀ s a, P s → P (step s a))
    (hmake : ∀ s, P (step s a)) (ha : a ∈ l) (s : σ) : P (l.foldl step s) := by
  obtain ⟨before, after, rfl⟩ := append_of_mem ha
  rw [foldl_append, foldl_cons]
  exact foldl_keeps hkeep after (hmake _)

/-- The same for a fold that may stop, with what all its states satisfy. -/
theorem foldlM_option_makes {I P : σ → Prop} (hstep : ∀ s a s', I s → step s a = some s' → I s' ∧ (P s → P s'))
    (hmake : ∀ s s', I s → step s a = some s' → P s') (ha : a ∈ l) (h : I s)
    (hs : l.foldlM step s = some s') : P s' := by
  obtain ⟨before, after, rfl⟩ := append_of_mem ha
  rw [foldlM_append] at hs
  obtain ⟨mid, hmid, hs⟩ := Option.bind_eq_some_iff.mp hs
  rw [foldlM_cons] at hs
  obtain ⟨made, hmade, hs⟩ := Option.bind_eq_some_iff.mp hs
  have hI : I mid := foldlM_option (I := fun _ => I) (fun _ b s s' hI hs => (hstep s b s' hI hs).1) h hmid
  exact (foldlM_option (I := fun _ s => I s ∧ P s)
    (fun _ b s s' hs hb => ⟨(hstep s b s' hs.1 hb).1, (hstep s b s' hs.1 hb).2 hs.2⟩)
    ⟨(hstep mid a made hI hmade).1, hmake mid made hI hmade⟩ hs).2

/-- A fold whose every step can be made keeps what its steps keep. -/
theorem foldlM_option_total
    (hstep : ∀ done a rest s, l = done ++ a :: rest → I done s → ∃ s', step s a = some s' ∧ I (done ++ [a]) s')
    (h : I [] s) : ∃ s', l.foldlM step s = some s' ∧ I l s' := by
  have hall : ∀ (rest done : List α) (s : σ), l = done ++ rest → I done s →
      ∃ s', rest.foldlM step s = some s' ∧ I l s' := by
    intro rest
    induction rest with
    | nil =>
      intro done s hl h
      rw [append_nil] at hl
      exact ⟨s, rfl, hl ▸ h⟩
    | cons a rest ih =>
      intro done s hl h
      obtain ⟨mid, hmid, h⟩ := hstep done a rest s hl h
      obtain ⟨s', hs', h'⟩ := ih (done ++ [a]) mid (by rw [hl, append_assoc]; rfl) h
      refine ⟨s', ?_, h'⟩
      rw [foldlM_cons, hmid]
      exact hs'
  exact hall l [] s rfl h

theorem foldlM_zipIdx {step : σ → α × Nat → Option σ}
    (hstep : ∀ done a s s', I done s → step s (a, done.length) = some s' → I (done ++ [a]) s')
    : ∀ {done : List α} {s s' : σ}, I done s →
      (l.zipIdx done.length).foldlM step s = some s' → I (done ++ l) s' := by
  induction l with
  | nil =>
    intro done s s' h hs
    cases hs
    rwa [append_nil]
  | cons a l ih =>
    intro done s s' h hs
    rw [zipIdx_cons, foldlM_cons] at hs
    obtain ⟨mid, hmid, hs⟩ := Option.bind_eq_some_iff.mp hs
    have hnext : I (done ++ [a] ++ l) s' := ih (hstep done a s mid h hmid) (by
      rw [length_append, length_singleton]
      exact hs)
    rw [append_assoc] at hnext
    exact hnext

end CfgLib.Lib

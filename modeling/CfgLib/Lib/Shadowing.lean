import Mathlib.Data.Set.Finite.Basic
import Mathlib.Order.WellFounded

/-!
# Shadowing

Candidates that shadow each other.  In a finite set with a strict order, every
member is one that nothing beats or below such a one (`exists_unbeaten`).  Two
step sequences may be compared where their keys first differ (`Beats`), or by any
position with a greater precedence at shared sources (`shadows`).  The second
relation extends the first (`Beats.shadows`), and it leaves the members visible
that the claim of a resolution needs exactly when no member that the first one
leaves unbeaten is shadowed (`shadowing_sound_iff`).
-/

namespace CfgLib.Lib

variable {α β : Type}

/-- Above each member of a finite set there is one that nothing beats. -/
theorem exists_unbeaten {R : α → α → Prop} (hirrefl : ∀ a, ¬ R a a) (htrans : ∀ a b c, R a b → R b c → R a c)
    {l : List α} {a : α} (ha : a ∈ l) : ∃ m ∈ l, (m = a ∨ R m a) ∧ ∀ b ∈ l, ¬ R b m := by
  let below : {x // x ∈ l} → {x // x ∈ l} → Prop := fun x y => R x y
  have : IsTrans _ below := ⟨fun x y z hxy hyz => htrans x y z hxy hyz⟩
  have : Std.Irrefl below := ⟨fun x => hirrefl x⟩
  have : Finite {x // x ∈ l} := List.finite_toSet l
  have hwf : WellFounded below := Finite.wellFounded_of_trans_of_irrefl below
  obtain ⟨m, hm, hmin⟩ := hwf.has_min {x | x.1 = a ∨ R x a} ⟨⟨a, ha⟩, Or.inl rfl⟩
  refine ⟨m.1, m.2, hm, fun b hb hbm => hmin ⟨b, hb⟩ ?_ hbm⟩
  obtain hma | hma := hm
  · exact Or.inr (hma ▸ hbm)
  · exact Or.inr (htrans _ _ _ hbm hma)

/-- Dropping what an item at another index shadows is dropping what any item shadows. -/
theorem filter_zipIdx_others {S : α → α → Bool} (hirrefl : ∀ a, S a a = false) (l : List α) :
    (l.zipIdx.filter fun candidate =>
        !l.zipIdx.any fun other => candidate.2 != other.2 && S other.1 candidate.1).map (·.1) =
      l.filter fun a => !l.any fun b => S b a := by
  have hany : ∀ candidate ∈ l.zipIdx,
      (l.zipIdx.any fun other => candidate.2 != other.2 && S other.1 candidate.1) = l.any fun b => S b candidate.1 := by
    intro candidate hcandidate
    rw [Bool.eq_iff_iff, List.any_eq_true, List.any_eq_true]
    constructor
    · rintro ⟨other, hother, hshadows⟩
      exact ⟨other.1, List.fst_mem_of_mem_zipIdx hother, (Bool.and_eq_true_iff.mp hshadows).2⟩
    · rintro ⟨b, hb, hshadows⟩
      obtain ⟨i, hi, rfl⟩ := List.mem_iff_getElem.mp hb
      refine ⟨(l[i], i), List.mk_mem_zipIdx_iff_getElem?.mpr (List.getElem?_eq_getElem hi), ?_⟩
      refine Bool.and_eq_true_iff.mpr ⟨bne_iff_ne.mpr fun hindex => ?_, hshadows⟩
      -- An item at its own index would shadow itself.
      obtain ⟨a, j⟩ := candidate
      obtain rfl : j = i := hindex
      rw [(List.mem_zipIdx' hcandidate).2, hirrefl] at hshadows
      cases hshadows
  rw [List.filter_congr fun candidate hcandidate => congrArg (!·) (hany candidate hcandidate)]
  calc (l.zipIdx.filter fun candidate => !l.any fun b => S b candidate.1).map (·.1)
      = (l.zipIdx.map (·.1)).filter fun a => !l.any fun b => S b a := by rw [List.filter_map]; rfl
    _ = l.filter fun a => !l.any fun b => S b a := by rw [List.zipIdx_map_fst]

/-- Shadowing that decides at the first pair of steps that leave different sources, or of
which the left one has the greater precedence. -/
def shadows [DecidableEq β] (source : α → β) (precedence : α → Int) : List α → List α → Bool
  | left :: lefts, right :: rights =>
    if source left ≠ source right then false
    else if precedence left > precedence right then true
    else shadows source precedence lefts rights
  | _, _ => false

/-- At the first steps of different precedence, after shared sources, the left one has the
greater precedence. -/
inductive Beats (source : α → β) (precedence : α → Int) : List α → List α → Prop
  | head {a b : α} {l l' : List α} : source a = source b → precedence b < precedence a →
      Beats source precedence (a :: l) (b :: l')
  | tail {a b : α} {l l' : List α} : source a = source b → precedence a = precedence b →
      Beats source precedence l l' → Beats source precedence (a :: l) (b :: l')

section Sequences

variable {source : α → β} {precedence : α → Int} {l l' l'' : List α}

theorem not_beats_self (l : List α) : ¬ Beats source precedence l l := by
  induction l with
  | nil => intro h; cases h
  | cons a l ih =>
    intro h
    cases h with
    | head _ hlt => exact lt_irrefl _ hlt
    | tail _ _ h => exact ih h

theorem Beats.trans (h : Beats source precedence l l') (h' : Beats source precedence l' l'') :
    Beats source precedence l l'' := by
  induction h generalizing l'' with
  | head hs hlt =>
    cases h' with
    | head hs' hlt' => exact .head (hs.trans hs') (hlt'.trans hlt)
    | tail hs' heq _ => exact .head (hs.trans hs') (heq ▸ hlt)
  | tail hs heq _ ih =>
    cases h' with
    | head hs' hlt' => exact .head (hs.trans hs') (heq ▸ hlt')
    | tail hs' heq' h' => exact .tail (hs.trans hs') (heq.trans heq') (ih h')

variable [DecidableEq β]

theorem shadows_cons (a b : α) (l l' : List α) : shadows source precedence (a :: l) (b :: l') =
    if source a ≠ source b then false
    else if precedence a > precedence b then true
    else shadows source precedence l l' := rfl

theorem Beats.shadows (h : Beats source precedence l l') : shadows source precedence l l' = true := by
  induction h with
  | head hs hlt => simp [shadows_cons, hs, hlt]
  | tail hs heq _ ih => simp [shadows_cons, hs, heq, ih]

theorem beats_or_shadows (h : shadows source precedence l l' = true) :
    Beats source precedence l l' ∨ shadows source precedence l' l = true := by
  induction l generalizing l' with
  | nil => cases h
  | cons a l ih =>
    cases l' with
    | nil => cases h
    | cons b l' =>
      by_cases hs : source a = source b
      · obtain hlt | heq | hgt := lt_trichotomy (precedence b) (precedence a)
        · exact Or.inl (.head hs hlt)
        · have htail : shadows source precedence l l' = true := by simpa [shadows_cons, hs, heq] using h
          obtain hbeats | hback := ih htail
          · exact Or.inl (.tail hs heq.symm hbeats)
          · exact Or.inr (by simp [shadows_cons, hs, heq, hback])
        · exact Or.inr (by simp [shadows_cons, hs, hgt])
      · simp [shadows_cons, hs] at h

theorem shadows_self (l : List α) : shadows source precedence l l = false := by
  induction l with
  | nil => rfl
  | cons a l ih => simp [shadows_cons, ih]

end Sequences

/-- Every member of a nonempty finite set is visible or shadowed by a visible one, exactly
when the members that nothing beats are not shadowed at all. -/
theorem shadowing_sound_iff {S R : α → α → Prop} (hirrefl : ∀ a, ¬ R a a)
    (htrans : ∀ a b c, R a b → R b c → R a c) (hsub : ∀ a b, R a b → S a b)
    (hback : ∀ a b, S a b → R a b ∨ S b a) {l : List α} (hne : l ≠ []) :
    ((∃ v ∈ l, ∀ b ∈ l, ¬ S b v) ∧
        ∀ a ∈ l, (∃ b ∈ l, S b a) → ∃ v ∈ l, (∀ b ∈ l, ¬ S b v) ∧ S v a) ↔
      ∀ a ∈ l, (∀ b ∈ l, ¬ R b a) → ∀ b ∈ l, ¬ S b a := by
  constructor
  · rintro ⟨_, hhidden⟩ a ha hunbeaten b hb hba
    obtain ⟨v, hv, hvisible, hva⟩ := hhidden a ha ⟨b, hb, hba⟩
    obtain hbeats | hshadows := hback v a hva
    · exact hunbeaten v hv hbeats
    · exact hvisible a ha hshadows
  · intro hcond
    refine ⟨?_, ?_⟩
    · obtain ⟨a, ha⟩ := List.exists_mem_of_ne_nil l hne
      obtain ⟨m, hm, _, hunbeaten⟩ := exists_unbeaten hirrefl htrans ha
      exact ⟨m, hm, hcond m hm hunbeaten⟩
    · rintro a ha ⟨b, hb, hba⟩
      obtain ⟨m, hm, rfl | hma, hunbeaten⟩ := exists_unbeaten hirrefl htrans ha
      · exact absurd hba (hcond m hm hunbeaten b hb)
      · exact ⟨m, hm, hcond m hm hunbeaten, hsub m a hma⟩

end CfgLib.Lib

import Mathlib.Logic.Relation

/-!
# Partitions by labels

The classes of the equivalence that the pairs of a list generate, told apart by labels.
Relating one more pair joins two classes, and one of their labels is given up.
-/

namespace CfgLib.Lib

open Relation

variable {α : Type}

/-- The reflexive, symmetric and transitive closure of the pairs of a list. -/
def Related (pairs : List (α × α)) : α → α → Prop := EqvGen fun a b => (a, b) ∈ pairs

/-- The labels tell the classes of the pairs apart. -/
def Separates (label : α → α) (pairs : List (α × α)) : Prop := ∀ a b, label a = label b ↔ Related pairs a b

theorem separates_nil : Separates (fun a : α => a) [] := by
  refine fun a b => ⟨?_, fun h => ?_⟩
  · rintro rfl
    exact .refl a
  induction h with
  | rel _ _ h => cases h
  | refl _ => rfl
  | symm _ _ _ ih => exact ih.symm
  | trans _ _ _ _ _ ih ih' => exact ih.trans ih'

theorem Related.mono {pairs pairs' : List (α × α)} (hsub : pairs ⊆ pairs') {a b : α} (h : Related pairs a b) :
    Related pairs' a b :=
  EqvGen.mono (fun _ _ hab => hsub hab) _ _ h

theorem Separates.join [DecidableEq α] {label : α → α} {pairs : List (α × α)} (h : Separates label pairs)
    {left right lost kept : α} (hends : (lost = label left ∧ kept = label right) ∨ (lost = label right ∧ kept = label left)) :
    Separates (fun a => if label a = lost then kept else label a) (pairs ++ [(left, right)]) := by
  have hold : ∀ {a b}, label a = label b → Related (pairs ++ [(left, right)]) a b := fun heq =>
    ((h _ _).mp heq).mono (List.subset_append_left _ _)
  have hpair : Related (pairs ++ [(left, right)]) left right :=
    .rel _ _ (List.mem_append_right _ (List.mem_singleton_self _))
  -- an element of the class that gives its label up, and one of the class that keeps it
  have hcross : ∀ {a b}, label a = lost → label b = kept → Related (pairs ++ [(left, right)]) a b := by
    intro a b ha hb
    rcases hends with ⟨hl, hk⟩ | ⟨hl, hk⟩
    · exact ((hold (ha.trans hl)).trans _ _ _ hpair).trans _ _ _ (hold (hk.symm.trans hb.symm))
    · exact ((hold (ha.trans hl)).trans _ _ _ hpair.symm).trans _ _ _ (hold (hk.symm.trans hb.symm))
  intro a b
  constructor
  · intro heq
    dsimp only at heq
    by_cases ha : label a = lost
    · by_cases hb : label b = lost
      · exact hold (ha.trans hb.symm)
      · rw [if_pos ha, if_neg hb] at heq
        exact hcross ha heq.symm
    · by_cases hb : label b = lost
      · rw [if_neg ha, if_pos hb] at heq
        exact (hcross hb heq).symm
      · rw [if_neg ha, if_neg hb] at heq
        exact hold heq
  · intro hab
    dsimp only
    induction hab with
    | refl _ => rfl
    | symm _ _ _ ih => exact ih.symm
    | trans _ _ _ _ _ ih ih' => exact ih.trans ih'
    | rel a b hab =>
      rcases List.mem_append.mp hab with hab | hab
      · rw [(h a b).mpr (.rel _ _ hab)]
      · obtain ⟨rfl, rfl⟩ := Prod.mk.inj (List.mem_singleton.mp hab)
        rcases hends with ⟨rfl, rfl⟩ | ⟨rfl, rfl⟩
        · rw [if_pos rfl, ite_self]
        · rw [if_pos rfl, ite_self]

theorem Separates.join_same [DecidableEq α] {label : α → α} {pairs : List (α × α)} (h : Separates label pairs)
    {left right : α} (heq : label left = label right) : Separates label (pairs ++ [(left, right)]) := by
  have hjoin := h.join (Or.inl ⟨rfl, rfl⟩ : (label left = label left ∧ label right = label right) ∨ _)
  have hsame : (fun a => if label a = label left then label right else label a) = label := by
    funext a
    split
    · next ha => rw [ha, heq]
    · rfl
  rwa [hsame] at hjoin

end CfgLib.Lib

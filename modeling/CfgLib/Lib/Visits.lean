import CfgLib.Lib.Simulation
import Mathlib.Data.List.Chain

/-!
# Visits

Systems that announce every place they enter and start over there: what they announce is
the chains of a relation between places, and two relations have the same chains from a
place when they agree wherever these lead.
-/

namespace CfgLib.Lib

open Relation

variable {σ α : Type} {A : Transition σ α} {start : α → σ}

/-- Every place that is announced is entered at its start. -/
def Lands (A : Transition σ α) (start : α → σ) : Prop := ∀ p b q, A p (some b) q → q = start b

theorem emits_singleton_iff {p : σ} {b : α} :
    Emits A p [b] ↔ ∃ o q, A p o q ∧ (o = some b ∨ (o = none ∧ Emits A q [b])) := by
  constructor
  · rintro ⟨r, hrun⟩
    generalize hw : [b] = w at hrun
    cases hrun with
    | refl => cases hw
    | @step _ q _ o l hs hrest =>
      refine ⟨o, q, hs, ?_⟩
      cases o with
      | none =>
        have hl : [b] = l := hw
        exact Or.inr ⟨rfl, r, hl ▸ hrest⟩
      | some b' => exact Or.inl (congrArg some (List.cons.inj hw).1.symm)
  · rintro ⟨o, q, hs, rfl | ⟨rfl, r, hrun⟩⟩
    · exact ⟨q, .step hs (.refl _)⟩
    · exact ⟨r, .step hs hrun⟩

theorem Lands.split (h : Lands A start) {p q : σ} {b : α} {l : List α} (hrun : Run A p (b :: l) q) :
    Run A p [b] (start b) ∧ Run A (start b) l q := by
  generalize hw : b :: l = w at hrun
  induction hrun with
  | refl => cases hw
  | @step p r q o w' hs hrest ih =>
    cases o with
    | none =>
      obtain ⟨hfirst, hlast⟩ := ih hw
      exact ⟨.step hs hfirst, hlast⟩
    | some b' =>
      obtain ⟨rfl, rfl⟩ := List.cons.inj hw
      obtain rfl := h _ _ _ hs
      exact ⟨.step hs (.refl _), hrest⟩

theorem Lands.emits_iff (h : Lands A start) {l : List α} : ∀ {a : α},
    Emits A (start a) l ↔ (a :: l).IsChain fun a b => Emits A (start a) [b] := by
  induction l with
  | nil => exact fun {a} => ⟨fun _ => .singleton a, fun _ => ⟨_, .refl _⟩⟩
  | cons b l ih =>
    intro a
    rw [List.isChain_cons_cons, ← ih]
    constructor
    · rintro ⟨q, hrun⟩
      obtain ⟨hfirst, hrest⟩ := h.split hrun
      exact ⟨⟨_, hfirst⟩, ⟨q, hrest⟩⟩
    · rintro ⟨⟨_, hfirst⟩, ⟨q, hrest⟩⟩
      exact ⟨q, (h.split hfirst).1.trans hrest⟩

/-- Relations with the same chains from a place agree at every place that these lead to. -/
theorem isChain_eq_iff {R S : α → α → Prop} {a : α} :
    (∀ l : List α, (a :: l).IsChain R ↔ (a :: l).IsChain S) ↔
      ∀ b, ReflTransGen S a b → ∀ t, R b t ↔ S b t := by
  constructor
  · intro h b hab t
    obtain ⟨l, hchain, hlast⟩ := List.exists_isChain_cons_of_relationReflTransGen hab
    have hsnoc : ∀ {T : α → α → Prop}, ((a :: l) ++ [t]).IsChain T ↔ (a :: l).IsChain T ∧ T b t := by
      intro T
      rw [List.isChain_append]
      simp [List.getLast?_eq_some_getLast, hlast]
    have hl := (h l).mpr hchain
    have hiff := h (l ++ [t])
    rw [← List.cons_append, hsnoc, hsnoc, and_iff_right hl, and_iff_right hchain] at hiff
    exact hiff
  · intro h l
    induction l generalizing a with
    | nil => simp
    | cons b l ih =>
      rw [List.isChain_cons_cons, List.isChain_cons_cons, h a .refl b]
      exact and_congr_right fun hab => ih fun c hbc => h c (.head hab hbc)

end CfgLib.Lib

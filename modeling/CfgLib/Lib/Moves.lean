import Mathlib.Data.List.Forall2
import Mathlib.Order.WellFounded

/-!
# Lists whose entries move

A list moves when some of its entries take a step and the others stay.  Where every entry
can take only finitely many steps, the list can move only finitely often: the measure is
the whole list, and no bound on the steps of one entry is needed.
-/

namespace CfgLib.Lib

variable {α : Type}

/-- At least one entry takes a step, the others stay. -/
inductive Moves (step : α → α → Prop) : List α → List α → Prop
  | head {a a' : α} {l : List α} : step a' a → Moves step (a' :: l) (a :: l)
  | both {a a' : α} {l l' : List α} : step a' a → Moves step l' l → Moves step (a' :: l') (a :: l)
  | tail {a : α} {l l' : List α} : Moves step l' l → Moves step (a :: l') (a :: l)

/-- Only finitely many steps lead on from an entry. -/
def FinitelyOften (step : α → α → Prop) (a : α) : Prop :=
  ¬ ∃ f : Nat → α, f 0 = a ∧ ∀ n, step (f (n + 1)) (f n)

variable {step : α → α → Prop}

theorem FinitelyOften.acc {a : α} (h : FinitelyOften step a) : Acc step a := by
  by_contra hc
  exact h (not_acc_iff_exists_descending_chain.mp hc)

theorem acc_moves_cons {a : α} (ha : Acc step a) :
    ∀ {l : List α}, Acc (Moves step) l → Acc (Moves step) (a :: l) := by
  induction ha with
  | intro a _ iha =>
    intro l hl
    induction hl with
    | intro l hl' ihl =>
      refine Acc.intro _ fun l' hmoves => ?_
      cases hmoves with
      | head hstep => exact iha _ hstep (Acc.intro l hl')
      | both hstep hrest => exact iha _ hstep (hl' _ hrest)
      | tail hrest => exact ihl _ hrest

/-- A list of entries that move finitely often moves finitely often. -/
theorem acc_moves {l : List α} (h : ∀ a ∈ l, Acc step a) : Acc (Moves step) l := by
  induction l with
  | nil => exact Acc.intro _ fun l' hmoves => by cases hmoves
  | cons a l ih =>
    exact acc_moves_cons (h a List.mem_cons_self) (ih fun b hb => h b (List.mem_cons_of_mem a hb))

theorem forall₂_trans {r : α → α → Prop} (htrans : ∀ a b c, r a b → r b c → r a c) {l l' l'' : List α}
    (h : List.Forall₂ r l l') (h' : List.Forall₂ r l' l'') : List.Forall₂ r l l'' := by
  induction h generalizing l'' with
  | nil => exact h'
  | cons hab _ ih =>
    cases h' with
    | cons hbc hrest => exact .cons (htrans _ _ _ hab hbc) (ih hrest)

/-- Where every step leads upwards, so does every move of the list. -/
theorem Moves.forall₂ {r : α → α → Prop} (hrefl : ∀ a, r a a) (hup : ∀ a a', step a' a → r a a') {l l' : List α}
    (h : Moves step l' l) : List.Forall₂ r l l' := by
  have hsame : ∀ l, List.Forall₂ r l l := fun l => List.forall₂_same.mpr fun a _ => hrefl a
  induction h with
  | head hstep => exact .cons (hup _ _ hstep) (hsame _)
  | both hstep _ ih => exact .cons (hup _ _ hstep) ih
  | tail _ ih => exact .cons (hrefl _) ih

end CfgLib.Lib

import Mathlib.Data.DFinsupp.WellFounded
import Mathlib.Order.WellFoundedSet
import Mathlib.Order.WithBot

/-!
# Tables of labels

A table holds at most one label for each slot.  Slots below a bound can be lowered finitely
often when the labels have no infinite descending chain.
-/

namespace CfgLib.Lib

variable {L : Type}

/-- `t'` is `t` with one slot lowered to a label of a set. -/
def Lowered [LT L] (bound : Nat) (P : Set L) (t' t : Nat → Option L) : Prop :=
  ∃ n < bound, ∃ l ∈ P, (∀ k, t n = some k → l < k) ∧ t' = Function.update t n (some l)

open Classical in
/-- How far a slot can still be lowered: without a label of the set, to any of them. -/
noncomputable def height (P : Set L) : Option L → WithTop { l // l ∈ P }
  | none => ⊤
  | some l => if h : l ∈ P then ((⟨l, h⟩ : { l // l ∈ P }) : WithTop _) else ⊤

theorem height_lt [Preorder L] {P : Set L} {l : L} (hl : l ∈ P) {k : Option L} (h : ∀ x, k = some x → l < x) :
    height P (some l) < height P k := by
  have hsome : height P (some l) = ((⟨l, hl⟩ : { l // l ∈ P }) : WithTop _) := dif_pos hl
  rw [hsome]
  cases k with
  | none => exact WithTop.coe_lt_top _
  | some x =>
    by_cases hx : x ∈ P
    · rw [height, dif_pos hx]
      exact WithTop.coe_lt_coe.mpr (h x rfl)
    · rw [height, dif_neg hx]
      exact WithTop.coe_lt_top _

theorem wellFounded_lowered [LinearOrder L] (bound : Nat) {P : Set L} (hwf : P.IsWF) :
    WellFounded (Lowered bound P) := by
  have : WellFoundedLT { l // l ∈ P } := ⟨hwf⟩
  refine Subrelation.wf (r := InvImage (· < ·) fun t (n : Fin bound) => height P (t n)) ?_
    (InvImage.wf _ wellFounded_lt)
  intro t' t h
  obtain ⟨n, hn, l, hl, hlt, rfl⟩ := h
  refine Pi.lt_def.mpr ⟨fun i => ?_, ⟨n, hn⟩, ?_⟩
  · change height P (Function.update t n (some l) i.1) ≤ height P (t i.1)
    by_cases hi : i.1 = n
    · rw [hi, Function.update_self]
      exact (height_lt hl hlt).le
    · rw [Function.update_of_ne hi]
  · change height P (Function.update t n (some l) n) < _
    rw [Function.update_self]
    exact height_lt hl hlt

end CfgLib.Lib

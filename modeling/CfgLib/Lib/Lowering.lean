import Mathlib.Order.Bounds.Basic
import Mathlib.Order.Monotone.Defs
import Mathlib.Logic.Function.Basic

/-!
# Greatest assignments under upper bounds

Every node has an upper bound that depends monotonically on the assignment.  Lowering
one node to its bound stays above every assignment that meets the bounds, so an
assignment that was only lowered and meets them is the greatest that does.
-/

namespace CfgLib.Lib

variable {ν α : Type} [DecidableEq ν] [PartialOrder α] {bound : (ν → α) → ν → α} {x : ν → α}

def MeetsBounds (bound : (ν → α) → ν → α) (x : ν → α) : Prop := ∀ n, x n ≤ bound x n

def AboveBounds (bound : (ν → α) → ν → α) (x : ν → α) : Prop := ∀ y, MeetsBounds bound y → y ≤ x

theorem AboveBounds.lower (h : AboveBounds bound x) (hmono : Monotone bound) {n : ν} {a : α}
    (ha : bound x n ≤ a) : AboveBounds bound (Function.update x n a) := by
  intro y hy m
  by_cases hm : m = n
  · subst hm
    rw [Function.update_self]
    calc y m ≤ bound y m := hy m
      _ ≤ bound x m := hmono (h y hy) m
      _ ≤ a := ha
  · rw [Function.update_of_ne hm]
    exact h y hy m

omit [DecidableEq ν] in
theorem AboveBounds.isGreatest (h : AboveBounds bound x) (hx : MeetsBounds bound x) :
    IsGreatest {y | MeetsBounds bound y} x := ⟨hx, fun y hy => h y hy⟩

end CfgLib.Lib

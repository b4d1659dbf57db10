import Mathlib.Data.List.Count
import Mathlib.Data.List.Perm.Basic

/-!
# Horn clauses

A clause derives its head once its whole body is derived.  What follows from a list of
clauses is the least set closed under them.
-/

namespace CfgLib.Lib

variable {F : Type} {clauses : List (F × List F)}

inductive Derives (clauses : List (F × List F)) : F → Prop
  | clause {head : F} {body : List F} : (head, body) ∈ clauses → (∀ f ∈ body, Derives clauses f) →
      Derives clauses head

/-! ## Occurrences -/

theorem countP_insert [DecidableEq F] {P : F → Prop} [DecidablePred P] {f : F} (hf : ¬ P f) (body : List F) :
    body.countP (fun x => decide (¬ P x)) =
      body.countP (fun x => decide (¬ (P x ∨ x = f))) + body.count f := by
  induction body with
  | nil => rfl
  | cons x body ih =>
    rw [List.countP_cons, List.countP_cons, List.count_cons, ih]
    by_cases hx : x = f
    · subst hx
      simp [hf]
      omega
    · by_cases hp : P x
      · simp [hx, hp]
      · simp [hx, hp]
        omega

end CfgLib.Lib

import CfgLib.Lib.Past

/-!
# Runs inside a set of blocks

Runs of a block flow that stay inside a set of blocks, cut at the last instruction of a
kind that they perform.
-/

namespace CfgLib.Lib.Flow

open Relation

variable {ι : Type} {F : Flow ι} {throws : ι → Bool} {inside : Nat → Prop} {P : ι → Prop} {p q : Nat × Nat}
  {w : List ι}

/-- A step between two blocks of the set, or within one. -/
def StepIn (F : Flow ι) (throws : ι → Bool) (inside : Nat → Prop) : Transition (Nat × Nat) ι :=
  fun p o q => Step F throws p o q ∧ inside p.1 ∧ inside q.1

theorem StepIn.exec {b i : Nat} {l : List ι} {a : ι} (hb : inside b) (hc : F.code b = some l) (ha : l[i]? = some a) :
    StepIn F throws inside (b, i) (some a) (b, i + 1) :=
  ⟨.exec hc ha, hb, hb⟩

/-- A run from `p` to `q` performs `before`, then `a` at the place `(b, i)`, then `after`,
which holds no instruction of the kind `P` any more. -/
structure LastPerforms (F : Flow ι) (throws : ι → Bool) (inside : Nat → Prop) (P : ι → Prop) (p q : Nat × Nat)
    (before : List ι) (a : ι) (after : List ι) (b i : Nat) : Prop where
  member : inside b
  code : ∃ l, F.code b = some l ∧ l[i]? = some a
  kind : P a
  reach : Run (StepIn F throws inside) p before (b, i)
  leave : Run (StepIn F throws inside) (b, i + 1) after q
  none_after : ∀ x ∈ after, ¬ P x

theorem exists_last (h : Run (StepIn F throws inside) p w q) : (∀ a ∈ w, ¬ P a) ∨
    ∃ before a after b i, w = before ++ a :: after ∧ LastPerforms F throws inside P p q before a after b i := by
  induction h with
  | refl => exact Or.inl fun _ ha => absurd ha List.not_mem_nil
  | @step p r q o w hs hrun ih =>
    rcases ih with hnone | ⟨before, a, after, b, i, rfl, hlast⟩
    · obtain ⟨hstep, hp, hr⟩ := hs
      cases hstep with
      | @exec b i l a hc ha =>
        by_cases hP : P a
        · exact Or.inr ⟨[], a, w, b, i, rfl, hp, ⟨l, hc, ha⟩, hP, .refl _, hrun, hnone⟩
        · refine Or.inl fun x hx => ?_
          rcases List.mem_cons.mp hx with rfl | hx
          · exact hP
          · exact hnone x hx
      | leave hc hn => exact Or.inl hnone
      | raise hc ha hthrow hu => exact Or.inl hnone
    · refine Or.inr ⟨o.toList ++ before, a, after, b, i, (List.append_assoc _ _ _).symm, ?_⟩
      exact { hlast with reach := .step hs hlast.reach }

theorem LastPerforms.run {before after : List ι} {a : ι} {b i : Nat}
    (h : LastPerforms F throws inside P p q before a after b i) :
    Run (StepIn F throws inside) (b, i) (a :: after) q := by
  obtain ⟨l, hc, ha⟩ := h.code
  exact .step (StepIn.exec h.member hc ha) h.leave

theorem pathPast_of_run {bars : Nat × Nat → ι → Prop} (hbars : ∀ p a, bars p a → P a)
    (h : Run (StepIn F throws inside) p w q) : (∀ a ∈ w, ¬ P a) → PathPast F throws bars p q := by
  induction h with
  | refl => exact fun _ => .refl
  | @step p r q o w hs hrun ih =>
    intro hnone
    refine .head ⟨o, hs.1, ?_⟩ (ih fun a ha => hnone a (List.mem_append_right _ ha))
    rintro a rfl hbar
    exact hnone a (List.mem_append_left _ (List.mem_singleton_self a)) (hbars _ a hbar)

end CfgLib.Lib.Flow

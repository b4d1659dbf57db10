import CfgLib.Lib.Dominance
import CfgLib.Lib.Forest

/-!
# Dominance frontiers

The frontier of a vertex, over an arbitrary rooted graph: the first vertices
beyond the region it dominates.  The iterated frontier of a set is the least set
that holds the frontiers of the set and of its own members.
-/

namespace CfgLib.Lib

open Relation

variable {V : Type} {E : V → V → Prop} {r a b : V}

def InFrontier (E : V → V → Prop) (r a b : V) : Prop :=
  ReflTransGen E r b ∧ ¬ StrictlyDominates E r a b ∧
    ∃ p, ReflTransGen E r p ∧ E p b ∧ Dominates E r a p

/-- The least set that the frontiers of `D` and of its members lead into, among the
vertices that `live` accepts. -/
inductive IteratedFrontier (E : V → V → Prop) (r : V) (D live : V → Prop) : V → Prop
  | of_def {a b : V} : D a → InFrontier E r a b → live b → IteratedFrontier E r D live b
  | of_member {a b : V} : IteratedFrontier E r D live a → InFrontier E r a b → live b →
      IteratedFrontier E r D live b

theorem InFrontier.reaches (h : InFrontier E r a b) : ReflTransGen E r a := by
  obtain ⟨_, _, p, hp, _, hdom⟩ := h
  exact hdom.reaches hp

theorem IteratedFrontier.reaches {D live : V → Prop} (h : IteratedFrontier E r D live b) :
    ReflTransGen E r b := by
  cases h with
  | of_def _ hf _ => exact hf.1
  | of_member _ hf _ => exact hf.1

theorem IteratedFrontier.least {D live S : V → Prop}
    (hclosed : ∀ a b, D a ∨ S a → InFrontier E r a b → live b → S b)
    (h : IteratedFrontier E r D live b) : S b := by
  induction h with
  | of_def hd hf hl => exact hclosed _ _ (Or.inl hd) hf hl
  | of_member _ hf hl ih => exact hclosed _ _ (Or.inr ih) hf hl

theorem IteratedFrontier.closed {D live : V → Prop} {a b : V}
    (ha : D a ∨ IteratedFrontier E r D live a) (hf : InFrontier E r a b) (hl : live b) :
    IteratedFrontier E r D live b :=
  ha.elim (fun hd => .of_def hd hf hl) fun hm => .of_member hm hf hl

theorem IsIdom.strictlyDominates_iff {d : V} (h : IsIdom E r d b) (hreach : ReflTransGen E r b) :
    StrictlyDominates E r a b ↔ Dominates E r a d := by
  constructor
  · exact fun hs => h.least a hs
  · intro hd
    refine ⟨?_, hd.trans h.strict.2⟩
    rintro rfl
    exact h.strict.1 (hd.antisymm h.strict.2 hreach).symm

end CfgLib.Lib

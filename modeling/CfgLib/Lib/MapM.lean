import Mathlib.Data.List.Forall2

/-!
# Lists mapped by a partial function

A map that fails where one item does, and what its result keeps of the items.
-/

namespace CfgLib.Lib

variable {α β : Type} {f : α → Option β} {l : List α}

theorem mapM_option_some {v : α → β} (h : ∀ a ∈ l, f a = some (v a)) : l.mapM f = some (l.map v) := by
  induction l with
  | nil => rfl
  | cons a l ih =>
    rw [List.mapM_cons, h a List.mem_cons_self, ih fun b hb => h b (List.mem_cons_of_mem a hb)]
    rfl

theorem mapM_forall₂ {R : α → β → Prop} (h : ∀ a ∈ l, ∃ b, f a = some b ∧ R a b) :
    ∃ l', l.mapM f = some l' ∧ List.Forall₂ R l l' := by
  induction l with
  | nil => exact ⟨[], rfl, .nil⟩
  | cons a l ih =>
    obtain ⟨b, hb, hR⟩ := h a List.mem_cons_self
    obtain ⟨l', hl', hRs⟩ := ih fun c hc => h c (List.mem_cons_of_mem a hc)
    refine ⟨b :: l', ?_, .cons hR hRs⟩
    rw [List.mapM_cons, hb, hl']
    rfl

theorem mapM_of_forall₂ {R : α → β → Prop} {f : β → Option β} {l : List α} {l' : List β}
    (h : List.Forall₂ R l l') (hf : ∀ a b, R a b → f b = some b) : l'.mapM f = some l' := by
  induction h with
  | nil => rfl
  | cons hR _ ih =>
    rw [List.mapM_cons, hf _ _ hR, ih]
    rfl

end CfgLib.Lib

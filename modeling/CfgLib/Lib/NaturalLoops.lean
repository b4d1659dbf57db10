import CfgLib.Lib.Dominance

/-!
# Natural loops

A loop of a rooted graph: a header that dominates the latches, which jump back to it, and
everything that reaches a latch without passing the header.  It is entered at its header
only, and when the edge from its only latch is sent to a copy of the header, what is left
is a loop around the header's successor.
-/

namespace CfgLib.Lib

open Relation

variable {V : Type} {E E' : V → V → Prop} {r h l n t a b : V} {L B : V → Prop}

/-- The header `h` dominates the latches `L`, and `B` is what reaches one of them without
passing the header. -/
structure IsLoop (E : V → V → Prop) (r h : V) (L B : V → Prop) : Prop where
  latches : ∃ a, L a
  latch : ∀ a, L a → E a h ∧ ReflTransGen E r a ∧ Dominates E r h a
  body : ∀ b, B b ↔ b = h ∨ (b ≠ h ∧ ReflTransGen E r b ∧ ∃ a, L a ∧ ReflTransGen (fun x y => E x y ∧ y ≠ h) b a)

namespace IsLoop

section

variable (hl : IsLoop E r h L B)
include hl

theorem header_mem : B h := (hl.body _).mpr (Or.inl rfl)

theorem header_reached : ReflTransGen E r h := by
  obtain ⟨a, ha⟩ := hl.latches
  obtain ⟨_, hreach, hdom⟩ := hl.latch a ha
  exact hdom.reaches hreach

theorem reached (hb : B b) : ReflTransGen E r b := by
  rcases (hl.body b).mp hb with rfl | ⟨_, hreach, _⟩
  · exact hl.header_reached
  · exact hreach

theorem dominated (hb : B b) : Dominates E r h b := by
  rcases (hl.body b).mp hb with rfl | ⟨hne, _, a, ha, hpath⟩
  · exact Dominates.refl _ _ _
  · rw [dominates_iff_not_avoids]
    intro havoids
    exact dominates_iff_not_avoids.mp (hl.latch a ha).2.2 (havoids.trans hpath)

theorem latch_mem (ha : L a) : B a := by
  by_cases he : a = h
  · rw [he]
    exact hl.header_mem
  · exact (hl.body a).mpr (Or.inr ⟨he, (hl.latch a ha).2.1, a, ha, .refl⟩)

theorem entered (ha : ReflTransGen E r a) (hout : ¬ B a) (he : E a b) (hb : B b) : b = h := by
  rcases (hl.body b).mp hb with rfl | ⟨hne, _, latch, hlatch, hpath⟩
  · rfl
  · refine absurd ((hl.body a).mpr (Or.inr ⟨?_, ha, latch, hlatch, .head ⟨he, hne⟩ hpath⟩)) hout
    rintro rfl
    exact hout hl.header_mem

theorem root_mem (hroot : B r) : r = h := by
  rcases (hl.body _).mp hroot with heq | ⟨hne, _, latch, hlatch, hpath⟩
  · exact heq
  · exact absurd ⟨hne, hpath⟩ (dominates_iff_not_avoids.mp (hl.latch latch hlatch).2.2)

theorem congr {L' B' : V → Prop} (hL : ∀ a, L a ↔ L' a) (hB : ∀ b, B b ↔ B' b) :
    IsLoop E r h L' B' where
  latches := hl.latches.imp fun a => (hL a).mp
  latch a ha := hl.latch a ((hL a).mpr ha)
  body b := by
    rw [← hB, hl.body]
    exact or_congr_right (and_congr_right fun _ => and_congr_right fun _ => exists_congr fun a => and_congr_left fun _ => hL a)

end

end IsLoop

theorem exists_first_edge (hreach : ReflTransGen E r b) : r = b ∨ ∃ p, Avoids E r b p ∧ E p b := by
  have hfirst : ∀ x, ReflTransGen E r x → Avoids E r b x ∨ r = b ∨ ∃ p, Avoids E r b p ∧ E p b := by
    intro x hx
    induction hx with
    | refl =>
      by_cases he : r = b
      · exact Or.inr (Or.inl he)
      · exact Or.inl ⟨he, .refl⟩
    | @tail x y _ he ih =>
      rcases ih with havoids | hdone
      · by_cases hy : y = b
        · exact Or.inr (Or.inr ⟨x, havoids, hy ▸ he⟩)
        · exact Or.inl (havoids.tail he hy)
      · exact Or.inr hdone
  refine (hfirst b hreach).resolve_left fun havoids => ?_
  exact dominates_iff_not_avoids.mp (Dominates.refl E r b) havoids

/-- `E'` is `E` with the edges from the only latch `l` of a loop to its header `h` sent to
`t`, a copy of the header, where `n` is the header's only successor in the loop. -/
structure Rotates (E E' : V → V → Prop) (r h l n t : V) (B : V → Prop) : Prop where
  loop : IsLoop E r h (· = l) B
  only : ∀ a, E a h → ReflTransGen E r a → Dominates E r h a → a = l
  ne : l ≠ h
  into : E h n
  into_mem : B n
  into_only : ∀ b, E h b → B b → b = n
  fresh_target : ∀ a, ¬ E a t
  fresh_source : ∀ a, ¬ E t a
  fresh_root : t ≠ r
  edge : ∀ a b, E' a b ↔ (E a b ∧ ¬ (a = l ∧ b = h)) ∨ (a = l ∧ b = t) ∨ (a = t ∧ E h b)

/-- The body after the rotation: the copy stands for the header. -/
def rotatedBody (B : V → Prop) (h t b : V) : Prop := b = t ∨ (B b ∧ b ≠ h)

namespace Rotates

section

variable (hr : Rotates E E' r h l n t B)
include hr

theorem into_ne : n ≠ h := by
  rintro rfl
  exact hr.ne (hr.only n hr.into hr.loop.header_reached (Dominates.refl _ _ _)).symm

theorem copy_not_mem : ¬ B t := by
  intro hb
  rcases ReflTransGen.cases_tail (hr.loop.reached hb) with heq | ⟨p, _, he⟩
  · exact hr.fresh_root heq
  · exact hr.fresh_target p he

theorem latch_rotated : rotatedBody B h t l :=
  Or.inr ⟨hr.loop.latch_mem rfl, hr.ne⟩

theorem edge_kept (he : E a b) (hb : b ≠ h) : E' a b :=
  (hr.edge a b).mpr (Or.inl ⟨he, fun heq => hb heq.2⟩)

theorem edge_latch : E' l t := (hr.edge l t).mpr (Or.inr (Or.inl ⟨rfl, rfl⟩))

theorem edge_copy (he : E h b) : E' t b :=
  (hr.edge t b).mpr (Or.inr (Or.inr ⟨rfl, he⟩))

theorem avoids_into (havoids : Avoids E r h b) : ReflTransGen (fun x y => E' x y ∧ y ≠ n) r b := by
  obtain ⟨hne, hpath⟩ := havoids
  induction hpath with
  | refl => exact .refl
  | @tail x y hpath he ih =>
    refine ih.tail ⟨hr.edge_kept he.1 he.2, ?_⟩
    rintro rfl
    exact dominates_iff_not_avoids.mp (hr.loop.dominated hr.into_mem) ⟨hne, hpath.tail he⟩

theorem avoids_header : Avoids E' r n h := by
  refine ⟨?_, ?_⟩
  · rintro rfl
    exact hr.into_ne (hr.loop.root_mem hr.into_mem)
  · rcases exists_first_edge hr.loop.header_reached with rfl | ⟨p, havoids, he⟩
    · exact .refl
    · refine (hr.avoids_into havoids).tail ⟨(hr.edge p h).mpr (Or.inl ⟨he, ?_⟩), hr.into_ne.symm⟩
      rintro ⟨rfl, _⟩
      exact dominates_iff_not_avoids.mp (hr.loop.latch p rfl).2.2 havoids

theorem reached (hb : ReflTransGen E r b) : ReflTransGen E' r b := by
  induction hb with
  | refl => exact .refl
  | @tail x y _ he ih =>
    by_cases hy : y = h
    · rw [hy]
      exact hr.avoids_header.reaches
    · exact ih.tail (hr.edge_kept he hy)

theorem reached_before (hb : ReflTransGen E' r b) : b = t ∨ ReflTransGen E r b := by
  induction hb with
  | refl => exact Or.inr .refl
  | @tail x y _ he ih =>
    rcases (hr.edge x y).mp he with ⟨he, _⟩ | ⟨_, rfl⟩ | ⟨_, he⟩
    · rcases ih with rfl | ih
      · exact absurd he (hr.fresh_source y)
      · exact Or.inr (ih.tail he)
    · exact Or.inl rfl
    · exact Or.inr (hr.loop.header_reached.tail he)

theorem reached_rotated (hb : rotatedBody B h t b) : ReflTransGen E' r b := by
  rcases hb with rfl | ⟨hb, _⟩
  · exact (hr.reached (hr.loop.latch l rfl).2.1).tail hr.edge_latch
  · exact hr.reached (hr.loop.reached hb)

theorem rotated_of_edge (ha : ReflTransGen E' r a) (he : E' a b)
    (hb : rotatedBody B h t b) (hne : b ≠ n) : rotatedBody B h t a := by
  rcases (hr.edge a b).mp he with ⟨he, _⟩ | ⟨rfl, _⟩ | ⟨rfl, _⟩
  · rcases hb with rfl | ⟨hb, hbh⟩
    · exact absurd he (hr.fresh_target a)
    · rcases hr.reached_before ha with rfl | ha
      · exact Or.inl rfl
      · have hin : B a := by
          by_contra hout
          exact hbh (hr.loop.entered ha hout he hb)
        refine Or.inr ⟨hin, ?_⟩
        rintro rfl
        exact hne (hr.into_only b he hb)
  · exact hr.latch_rotated
  · exact Or.inl rfl

theorem dominated (hb : rotatedBody B h t b) : Dominates E' r n b := by
  rw [dominates_iff_not_avoids]
  rintro ⟨_, hpath⟩
  have hout : ReflTransGen E' r b ∧ ¬ rotatedBody B h t b := by
    clear hb
    induction hpath with
    | refl =>
      refine ⟨.refl, ?_⟩
      rintro (heq | ⟨hb, hne⟩)
      · exact hr.fresh_root heq.symm
      · exact hne (hr.loop.root_mem hb)
    | tail _ he ih => exact ⟨ih.1.tail he.1, fun hb => ih.2 (hr.rotated_of_edge ih.1 he.1 hb he.2)⟩
  exact hout.2 hb

theorem rotated_of_latch (he : E' a n) (ha : ReflTransGen E' r a)
    (hdom : Dominates E' r n a) : rotatedBody B h t a := by
  rcases hr.reached_before ha with rfl | hreach
  · exact Or.inl rfl
  rcases (hr.edge a n).mp he with ⟨he, _⟩ | ⟨rfl, _⟩ | ⟨rfl, _⟩
  · have hin : B a := by
      by_contra hout
      exact hr.into_ne (hr.loop.entered hreach hout he hr.into_mem)
    refine Or.inr ⟨hin, ?_⟩
    rintro rfl
    exact dominates_iff_not_avoids.mp hdom hr.avoids_header
  · exact hr.latch_rotated
  · exact Or.inl rfl

end

def rotatedLatch (E' : V → V → Prop) (B : V → Prop) (h n t a : V) : Prop := rotatedBody B h t a ∧ E' a n

theorem latch_copy (hr : Rotates E E' r h l n t B) : rotatedLatch E' B h n t t := ⟨Or.inl rfl, hr.edge_copy hr.into⟩

theorem reaches_latch (hr : Rotates E E' r h l n t B) (hb : ReflTransGen (fun x y => E x y ∧ y ≠ h) b l) :
    ReflTransGen E r b → b ≠ h → b ≠ n →
      ∃ a, rotatedLatch E' B h n t a ∧ ReflTransGen (fun x y => E' x y ∧ y ≠ n) b a := by
  induction hb using ReflTransGen.head_induction_on with
  | refl =>
    intro _ _ _
    refine ⟨t, hr.latch_copy, .single ⟨hr.edge_latch, ?_⟩⟩
    rintro rfl
    exact hr.copy_not_mem hr.into_mem
  | @head x y he hpath ih =>
    intro hreach hxh hxn
    have hx : B x := (hr.loop.body x).mpr (Or.inr ⟨hxh, hreach, l, rfl, .head he hpath⟩)
    by_cases hy : y = n
    · subst hy
      exact ⟨x, ⟨Or.inr ⟨hx, hxh⟩, hr.edge_kept he.1 he.2⟩, .refl⟩
    · obtain ⟨a, ha, hrest⟩ := ih (hreach.tail he.1) he.2 hy
      exact ⟨a, ha, .head ⟨hr.edge_kept he.1 he.2, hy⟩ hrest⟩

/-- The rotated loop is a loop of the new graph, and it has all back edges to its header. -/
theorem isLoop (hr : Rotates E E' r h l n t B) :
    IsLoop E' r n (rotatedLatch E' B h n t) (rotatedBody B h t) ∧
      ∀ a, E' a n → ReflTransGen E' r a → Dominates E' r n a → rotatedLatch E' B h n t a := by
  refine ⟨⟨⟨t, hr.latch_copy⟩, ?_, fun b => ⟨fun hb => ?_, ?_⟩⟩, ?_⟩
  · exact fun a ha => ⟨ha.2, hr.reached_rotated ha.1, hr.dominated ha.1⟩
  · by_cases hbn : b = n
    · exact Or.inl hbn
    · refine Or.inr ⟨hbn, hr.reached_rotated hb, ?_⟩
      rcases hb with rfl | ⟨hb, hbh⟩
      · exact ⟨b, hr.latch_copy, .refl⟩
      · rcases (hr.loop.body b).mp hb with heq | ⟨_, hreach, _, rfl, hpath⟩
        · exact absurd heq hbh
        · exact hr.reaches_latch hpath hreach hbh hbn
  · rintro (rfl | ⟨_, hreach, a, ha, hpath⟩)
    · exact Or.inr ⟨hr.into_mem, hr.into_ne⟩
    · induction hpath using ReflTransGen.head_induction_on with
      | refl => exact ha.1
      | head he _ ih => exact hr.rotated_of_edge hreach he.1 (ih he.2 (hreach.tail he.1)) he.2
  · exact fun a he ha hdom => ⟨hr.rotated_of_latch he ha hdom, he⟩

end Rotates

end CfgLib.Lib
